import Onisin.Dsl.Domain

/-!
The parser of the domain language: keyword-led recursive descent straight into the runtime
form, with the modifiers of a field already put into their places.
-/

set_option autoImplicit false

namespace Onisin.Domain
open Lib Parser

def atKw (kw : String) (k : Option Tok) : Bool := k = some (.ident kw.toList)

def eatKw (kw : String) : Parser Tok Unit :=
  eat (.ident kw.toList) ("'".toList ++ kw.toList ++ "'".toList)

def ident : Parser Tok Text :=
  accept (fun | .ident s => some s | _ => none) "expected identifier".toList

def string : Parser Tok Text :=
  accept (fun | .str s => some s | _ => none) "expected a string".toList

/-- An identifier that has to be one of a few words; the error is found behind it. -/
def word {α : Type} (all : List α) (keyword : α → Text) (what : String) : Parser Tok α := do
  let kw ← ident
  match ofKeyword all keyword kw with
  | some a => pure a
  | none => fail ("unknown ".toList ++ what.toList ++ " '".toList ++ kw ++ "'".toList)

def permissionAction : Parser Tok PermissionAction :=
  word PermissionAction.all PermissionAction.keyword "permission action"

def fieldType : Parser Tok FieldType := word FieldType.all FieldType.keyword "field type"

def exampleOp : Parser Tok ExampleOp := word ExampleOp.all ExampleOp.keyword "example operator"

def relationKind : Parser Tok RelationKind :=
  word RelationKind.all RelationKind.keyword "relation kind"

def permission : Parser Tok PermissionDef := do
  eatKw "permission"
  let role ← ident
  let first ← permissionAction
  let actions ← loop (· = some .comma) (fun actions => do
    advance
    let action ← permissionAction
    return actions ++ [action]) [first]
  return { role, actions }

structure Modifiers where
  readOnly : Bool := false
  filterable : Bool := false
  optionsRef : Option Text := none
  deriving DecidableEq, Repr

def modifier (m : Modifiers) : Parser Tok Modifiers := do
  let k ← peek
  if atKw "readonly" k then
    advance
    return { m with readOnly := true }
  else if atKw "filterable" k then
    advance
    return { m with filterable := true }
  else
    advance
    eat .eq "'='".toList
    let ref ← ident
    return { m with optionsRef := some ref }

def startsModifier (k : Option Tok) : Bool :=
  atKw "readonly" k || atKw "filterable" k || atKw "options" k

def exampleValue : Parser Tok (Text × Bool) :=
  accept (fun | .str s => some (s, true) | .number n => some (n, false) | _ => none)
    "expected a string or number value".toList

def example_ : Parser Tok ExampleDef := do
  eatKw "example"
  let op ← exampleOp
  let (value, valueIsString) ← exampleValue
  let description ← string
  return { op, value, valueIsString, description }

/-- `item` on what is left, which must not be empty. -/
def unlessEnd {α : Type} (message : String) (item : Parser Tok α) : Parser Tok α := do
  if (← peek).isNone then fail message.toList else item

def nextExample (examples : List ExampleDef) : Parser Tok (List ExampleDef) :=
  unlessEnd "unterminated example block" do
    let ex ← example_
    return examples ++ [ex]

def examples : Parser Tok (List ExampleDef) := do
  if (← peek) = some .lBrace then
    advance
    let examples ← loop (· ≠ some .rBrace) nextExample []
    eat .rBrace "'\x7d'".toList
    return examples
  else return []

def field : Parser Tok DomainFieldDef := do
  eatKw "field"
  let name ← ident
  eat .colon "':'".toList
  let fieldType ← fieldType
  let m ← loop startsModifier modifier {}
  let examples ← examples
  return { name, fieldType, readOnly := m.readOnly, filterable := m.filterable,
           optionsRef := m.optionsRef, examples }

def relation : Parser Tok RelationDef := do
  eatKw "relation"
  let name ← ident
  eat .colon "':'".toList
  let kind ← relationKind
  let target ← ident
  eatKw "bind"
  eat .eq "'='".toList
  let localField ← ident
  eat .arrow "'->'".toList
  let foreignField ← ident
  return { name, kind, target, localField, foreignField }

/-- A word that may be there, and then an identifier behind it. -/
def optionalAfter (kw : String) : Parser Tok (Option Text) := do
  if atKw kw (← peek) then
    advance
    let name ← ident
    return some name
  else return none

def meta_ : Parser Tok MetaDef := do
  eatKw "meta"
  let name ← ident
  eatKw "from"
  let table ← ident
  let valueField ← ident
  let labelField ← ident
  let orderBy ← optionalAfter "order_by"
  let dsn ← optionalAfter "via"
  return { name, table, valueField, labelField, orderBy, dsn }

def aiHint : Parser Tok AiHintDef := do
  eatKw "ai"
  let name ← string
  let body ← string
  return { name, body }

/-- Blank entries are dropped. -/
def pushAlias (d : DomainDef) (s : Text) : DomainDef :=
  let t := s.trim
  if t.isEmpty then d else { d with aliases := d.aliases ++ [t] }

def aliasList (d : DomainDef) : Parser Tok DomainDef := do
  eatKw "aliases"
  eat .lBracket "'['".toList
  let first ← string
  let d ← loop (· = some .comma) (fun d => do
    advance
    let v ← string
    return pushAlias d v) (pushAlias d first)
  eat .rBracket "']'".toList
  return d

def member (d : DomainDef) : Parser Tok DomainDef := do
  let k ← peek
  if atKw "permission" k then
    let p ← permission
    return { d with permissions := d.permissions ++ [p] }
  else if atKw "field" k then
    let f ← field
    return { d with fields := d.fields ++ [f] }
  else if atKw "relation" k then
    let r ← relation
    return { d with relations := d.relations ++ [r] }
  else if atKw "meta" k then
    let m ← meta_
    return { d with metas := d.metas ++ [m] }
  else if atKw "ai" k then
    let h ← aiHint
    return { d with aiHints := d.aiHints ++ [h] }
  else if atKw "aliases" k then aliasList d
  else fail "expected a domain member (permission, field, relation, meta, ai, aliases)".toList

def nextMember (d : DomainDef) : Parser Tok DomainDef :=
  unlessEnd "unexpected end of input, expected '\x7d'" (member d)

def globalPrefix : Text := "global.".toList

/-- Behind the closing brace: nothing more, and a name that is free. -/
def finish (d : DomainDef) : Parser Tok DomainDef := do
  if (← peek).isSome then fail "unexpected trailing input after domain block".toList
  else if globalPrefix.isPrefixOf d.name then
    fun _ => .error ⟨1, 1, "domain names starting with 'global.' are reserved".toList⟩
  else return d

/-- The whole source, as a parser that must use up its tokens. -/
def domain : Parser Tok DomainDef := do
  eatKw "domain"
  let name ← ident
  eatKw "from"
  let source ← ident
  eat .atSign "'@'".toList
  let dsn ← ident
  eat .lBrace "'\x7b'".toList
  let d ← loop (· ≠ some .rBrace) nextMember { name, source, dsn }
  eat .rBrace "'\x7d'".toList
  finish d

def parse (toks : List (Located Tok)) : Except ParseError DomainDef := (domain toks).map Prod.fst

end Onisin.Domain
