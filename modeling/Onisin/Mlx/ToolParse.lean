import Onisin.Gql.Rows
import Onisin.Lib.JsonText
import Onisin.Mlx.ToolFmt

/-!
The reader of the tool grammar, which turns a call of the checkpoint back into JSON. Strings run
to the next quote marker, keys to the next colon, and anything else to a structural character.
-/

set_option autoImplicit false

namespace Onisin.Mlx
open Lib

inductive CallError where
  | noPrefix
  | noBlock
  | unterminatedBlock
  | trailingInput
  | expected (c : Char)
  | emptyKey
  | unterminatedArray
  | noValue
  | unterminatedString
  | outOfFuel
  deriving DecidableEq, Repr

def isAsciiWhitespace (c : Char) : Bool :=
  c = ' ' || c = '\t' || c = '\n' || c = '\r' || c.toNat = 12

def skipWs (t : Text) : Text := t.dropWhile isAsciiWhitespace

def eat (c : Char) (t : Text) : Except CallError Text :=
  match skipWs t with
  | d :: t => if d = c then .ok t else .error (.expected c)
  | [] => .error (.expected c)

/-- A string from behind its opening marker, taken as it stands. -/
def readQuoted (t : Text) : Except CallError (Text × Text) :=
  match Text.beforeFirst quote t with
  | some s => .ok (s, t.drop (s.length + quote.length))
  | none => .error .unterminatedString

def readKey (t : Text) : Except CallError (Text × Text) :=
  let t := skipWs t
  match Text.stripPrefix quote t with
  | some t => readQuoted t
  | none =>
    let raw := t.span (· ≠ ':')
    let key := Text.trim raw.1
    if key.isEmpty then .error .emptyKey else .ok (key, raw.2)

def isStructural (c : Char) : Bool := c = ',' || c = '\x7d' || c = ']'

/-- `Map::insert` of an ordered map. -/
def insertField (key : Text) (v : Json) : List (Text × Json) → List (Text × Json)
  | [] => [(key, v)]
  | (k, w) :: fields =>
    if k = key then (key, v) :: fields
    else if Text.precedes key k then (key, v) :: (k, w) :: fields
    else (k, w) :: insertField key v fields

section Values
-- the text that a finite double is printed as in JSON
variable (printF64 : Bool → Rat → Text)

/-- What is neither a word of JSON nor a number is a string whose markers were left out. -/
def bareValue (tok : Text) : Json :=
  if tok = "true".toList then .bool true
  else if tok = "false".toList then .bool false
  else if tok = "null".toList then .null
  else
    match parseI64 tok with
    | some n => .number (.int n)
    | none => ((parseF64 tok).bind (Gql.numberFromF64 printF64)).getD (.string tok)

def readBare (t : Text) : Json × Text :=
  let raw := t.span fun c => !isStructural c
  (bareValue printF64 (Text.trim raw.1), raw.2)

mutual

def readValue : Nat → Text → Except CallError (Json × Text)
  | 0, _ => .error .outOfFuel
  | fuel + 1, t =>
    let t := skipWs t
    match Text.stripPrefix quote t with
    | some t => do
      let (s, t) ← readQuoted t
      return (.string s, t)
    | none =>
      match t with
      | '\x7b' :: t => do
        let (fields, t) ← readObject fuel [] (skipWs t)
        let t ← eat '\x7d' t
        return (.object fields, t)
      | '[' :: t =>
        match skipWs t with
        | ']' :: t => .ok (.array [], t)
        | t => do
          let (items, t) ← readArray fuel t
          return (.array items, t)
      | [] => .error .noValue
      | t => .ok (readBare printF64 t)
termination_by structural fuel => fuel

/-- The loop over the fields of an object. It ends behind a field that no comma follows, or
where the input does; a closing brace does not keep it from reading a key. -/
def readObject : Nat → List (Text × Json) → Text → Except CallError (List (Text × Json) × Text)
  | 0, _, _ => .error .outOfFuel
  | fuel + 1, fields, t =>
    if t.isEmpty then .ok (fields, t)
    else do
      let (key, t) ← readKey t
      let t ← eat ':' t
      let (v, t) ← readValue fuel t
      match skipWs t with
      | ',' :: t => readObject fuel (insertField key v fields) (skipWs t)
      | t => return (insertField key v fields, t)
termination_by structural fuel => fuel

def readArray : Nat → Text → Except CallError (List Json × Text)
  | 0, _ => .error .outOfFuel
  | fuel + 1, t => do
    let (v, t) ← readValue fuel t
    match skipWs t with
    | ',' :: t =>
      let (vs, t) ← readArray fuel t
      return (v :: vs, t)
    | ']' :: t => return ([v], t)
    | _ => .error .unterminatedArray
termination_by structural fuel => fuel

end

def parsePseudoObject (body : Text) : Except CallError (List (Text × Json)) := do
  let (fields, rest) ← readObject printF64 (2 * body.length + 2) [] (skipWs body)
  if (skipWs rest).isEmpty then return fields else .error .trailingInput

/-- The name in a call and the JSON text of its arguments. -/
def parseCallSpan (span : Text) : Except CallError (Text × Text) :=
  match Text.stripPrefix "call:".toList span.trim with
  | none => .error .noPrefix
  | some rest =>
    let name := rest.span (· ≠ '\x7b')
    if name.2.isEmpty then .error .noBlock
    else
      let body := Text.trim name.2
      if body.getLast? ≠ some '\x7d' then .error .unterminatedBlock
      else do
        let fields ← parsePseudoObject printF64 body.tail.dropLast
        return (Text.trim name.1, (Json.object fields).print)

end Values

end Onisin.Mlx
