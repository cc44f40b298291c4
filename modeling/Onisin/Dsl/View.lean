import Onisin.Lib.Parsing

/-!
The server's parser of the view language. The header is parsed in full; the body is only walked,
counting braces, to see that the block is closed and to collect the fields of table columns.
-/

set_option autoImplicit false

namespace Onisin.View
open Lib Parser

structure ViewDomainBinding where
  name : Text
  alias_ : Text
  primary : Bool
  deriving DecidableEq, Repr

structure ViewDef where
  name : Text
  title : Text
  domains : List ViewDomainBinding
  default : Bool
  tableFields : List Text
  deriving DecidableEq, Repr

inductive Tok where
  | ident (s : Text)
  | number (s : Text)
  | str (s : Text)
  | lBrace
  | rBrace
  | lParen
  | rParen
  | dot
  | colon
  | comma
  | eq
  | arrow
  deriving DecidableEq, Repr

/-- A keyword is an identifier with that text. -/
def kw (w : String) : Tok := .ident w.toList

def eatKw (w : String) : Parser Tok Unit := eat (kw w) ("'".toList ++ w.toList ++ "'".toList)

def ident : Parser Tok Text :=
  accept (fun | .ident s => some s | _ => none) "expected identifier".toList

def string : Parser Tok Text :=
  accept (fun | .str s => some s | _ => none) "expected a string".toList

/-- An alias in parentheses, or the name itself. -/
def bindingAlias (name : Text) : Parser Tok Text := do
  if (← peek) = some .lParen then
    advance
    let a ← ident
    eat .rParen "')'".toList
    return a
  else return name

def domainBinding (primary : Bool) : Parser Tok ViewDomainBinding := do
  let name ← ident
  let alias_ ← bindingAlias name
  return { name, alias_, primary }

def nextBinding (domains : List ViewDomainBinding) : Parser Tok (List ViewDomainBinding) := do
  advance
  let b ← domainBinding false
  return domains ++ [b]

def defaultFlag : Parser Tok Bool := do
  if (← peek) = some (kw "default") then
    advance
    return true
  else return false

/-- Everything up to the brace that opens the body. -/
def header : Parser Tok ViewDef := do
  let default ← defaultFlag
  eatKw "view"
  let name ← ident
  let title ← string
  eatKw "over"
  let primary ← domainBinding true
  let domains ← loop (· = some .comma) nextBinding [primary]
  eat .lBrace "'\x7b'".toList
  return { name, title, domains, default, tableFields := [] }

/-! The body. -/

structure Walk where
  depth : Nat
  pendingTable : Bool
  tableBodyDepth : Option Nat
  seen : List Text
  deriving DecidableEq, Repr

/-- The view's own brace is already read. -/
def Walk.start : Walk := ⟨1, false, none, []⟩

def Walk.openBrace (w : Walk) : Walk :=
  { w with
    depth := w.depth + 1
    pendingTable := false
    tableBodyDepth := if w.pendingTable then some (w.depth + 1) else w.tableBodyDepth }

def Walk.closeBrace (w : Walk) : Walk :=
  { w with
    depth := w.depth - 1
    tableBodyDepth := if w.tableBodyDepth = some w.depth then none else w.tableBodyDepth }

def addNew (seen : List Text) (field : Text) : List Text :=
  if field ∈ seen then seen else seen ++ [field]

def Walk.see (w : Walk) (field : Text) : Walk := { w with seen := addNew w.seen field }

/-- The reference behind a `column`, with what is left; a malformed one is left alone. -/
def columnField : List (Located Tok) → Option (Text × List (Located Tok))
  | ⟨.ident _, _, _⟩ :: ⟨.dot, _, _⟩ :: ⟨.ident field, _, _⟩ :: ts => some (field, ts)
  | _ => none

/-- The walk, up to the end of the block or of the tokens. The fuel is the number of tokens:
each step takes one at least. -/
def walkFuel : Nat → Walk → List (Located Tok) → Walk × List (Located Tok)
  | 0, w, ts => (w, ts)
  | _ + 1, w, [] => (w, [])
  | fuel + 1, w, t :: ts =>
    match t.tok with
    | .lBrace => walkFuel fuel w.openBrace ts
    | .rBrace => if w.closeBrace.depth = 0 then (w.closeBrace, ts) else walkFuel fuel w.closeBrace ts
    | .ident s =>
      if s = "table".toList then walkFuel fuel { w with pendingTable := true } ts
      else if s = "column".toList ∧ w.tableBodyDepth = some w.depth then
        match columnField ts with
        | some (field, rest) => walkFuel fuel (w.see field) rest
        | none => walkFuel fuel w ts
      else walkFuel fuel w ts
    | _ => walkFuel fuel w ts

def walk (w : Walk) (ts : List (Located Tok)) : Walk × List (Located Tok) := walkFuel ts.length w ts

def collectTableFields : Parser Tok (List Text) := fun ts =>
  let (w, rest) := walk .start ts
  if w.depth ≠ 0 then fail "unterminated view block, expected '\x7d'".toList rest
  else if (head rest).isSome then fail "unexpected trailing input after view block".toList rest
  else .ok (w.seen, rest)

def view : Parser Tok ViewDef := do
  let v ← header
  let tableFields ← collectTableFields
  return { v with tableFields }

def parse (toks : List (Located Tok)) : Except ParseError ViewDef := (view toks).map Prod.fst

end Onisin.View
