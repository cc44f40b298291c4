import Onisin.Dsl.DomainLexer
import Onisin.Lib.Js
import Onisin.Lib.JsNumber

/-!
The domain language as the editor has it. Its terminals are regular expressions, its keywords are
reserved, and the leaves of its syntax trees are the raw texts that the value converters and the
mapper then make a definition of.
-/

set_option autoImplicit false

namespace Onisin.Domain
open Lib

inductive Lexeme where
  | ws (t : Text)
  | mlComment (body : Text)
  | slComment (body : Text)
  | kw (w : Text)
  | id (w : Text)
  | number (raw : Text)
  | string (raw : Text)
  | sym (s : Sym)
  deriving DecidableEq, Repr

def Lexeme.hidden : Lexeme → Bool
  | .ws _ | .mlComment _ | .slComment _ => true
  | _ => false

def keywords : List Text :=
  ["domain", "from", "permission", "read", "write", "delete", "field", "int", "float", "string", "text",
    "bool", "date", "datetime", "readonly", "filterable", "options", "example", "eq", "ne", "lt", "le",
    "gt", "ge", "like", "in", "relation", "has_many", "has_one", "belongs_to", "bind", "meta", "order_by",
    "via", "ai", "aliases"].map String.toList

/-! One terminal at the start of a text, with what is behind it. -/

/-- `[0-9]+` -/
def matchDigits (t : Text) : Option (Text × Text) :=
  let ds := t.span Char.isDigit
  if ds.1.isEmpty then none else some ds

/-- `(\.[0-9]+)?` -/
def matchFraction (t : Text) : Text × Text :=
  match t with
  | '.' :: t' =>
    match matchDigits t' with
    | some ds => ('.' :: ds.1, ds.2)
    | none => ([], t)
  | _ => ([], t)

def matchUnsigned (t : Text) : Option (Text × Text) :=
  (matchDigits t).map fun ds => (ds.1 ++ (matchFraction ds.2).1, (matchFraction ds.2).2)

/-- `-?[0-9]+(\.[0-9]+)?` -/
def matchNumber (t : Text) : Option (Text × Text) :=
  match t with
  | '-' :: t' => (matchUnsigned t').map fun r => ('-' :: r.1, r.2)
  | _ => matchUnsigned t

/-- What `.` does not match. -/
def isLineTerminator (c : Char) : Bool :=
  c = '\n' || c = '\r' || c.toNat == 0x2028 || c.toNat == 0x2029

/-- `(\\.|[^"\\])*"`, without the quote. -/
def matchString : Text → Option (Text × Text)
  | [] => none
  | '"' :: t => some ([], t)
  | ['\\'] => none
  | '\\' :: c :: t =>
    if isLineTerminator c then none else (matchString t).map fun r => ('\\' :: c :: r.1, r.2)
  | c :: t => (matchString t).map fun r => (c :: r.1, r.2)

def endsLine (c : Char) : Bool := c = '\n' || c = '\r'

def matchSym : Text → Option (Sym × Text)
  | '-' :: '>' :: t => some (.arrow, t)
  | '\x7b' :: t => some (.lBrace, t)
  | '\x7d' :: t => some (.rBrace, t)
  | '[' :: t => some (.lBracket, t)
  | ']' :: t => some (.rBracket, t)
  | ':' :: t => some (.colon, t)
  | ',' :: t => some (.comma, t)
  | '@' :: t => some (.atSign, t)
  | '=' :: t => some (.eq, t)
  | _ => none

def commentEnd : Text := ['*', '/']

/-- The terminals start with different characters, but for a word, which is a keyword if it can be. -/
def nextLexeme : Text → Option (Lexeme × Text)
  | [] => none
  | c :: t =>
    if isJsSpace c then some (.ws (c :: t.takeWhile isJsSpace), t.dropWhile isJsSpace)
    else if isIdentStart c then
      let w := (c :: t).span isIdentChar
      some (if keywords.contains w.1 then .kw w.1 else .id w.1, w.2)
    else if c = '"' then (matchString t).map fun r => (.string r.1, r.2)
    else if c = '/' ∧ t.head? = some '*' then
      (Text.beforeFirst commentEnd t.tail).map fun body =>
        (.mlComment body, t.tail.drop (body.length + commentEnd.length))
    else if c = '/' ∧ t.head? = some '/' then
      some (.slComment (t.tail.takeWhile (!endsLine ·)), t.tail.dropWhile (!endsLine ·))
    else
      match matchNumber (c :: t) with
      | some r => some (.number r.1, r.2)
      | none => (matchSym (c :: t)).map fun r => (.sym r.1, r.2)

/-- The fuel is one more than the length of the text: no terminal is empty. -/
def lexemes : Nat → Text → Option (List Lexeme)
  | 0, _ => none
  | _ + 1, [] => some []
  | fuel + 1, c :: t => do
    let (l, rest) ← nextLexeme (c :: t)
    let ls ← lexemes fuel rest
    return l :: ls

def editorLex (src : Text) : Option (List Lexeme) := lexemes (src.length + 1) src

/-- The terminals of the editor: what is hidden is skipped, words are keywords or names. -/
def editor : Terminals Text Text Lexeme := ⟨.kw, .id, .string, .number, .sym⟩

def visible (ls : List Lexeme) : List Lexeme := ls.filter (!·.hidden)

/-- A source that the grammar derives, with its lexemes and its tree. -/
structure Derivation (src : Text) where
  lexemes : List Lexeme
  tree : DomainDecl Text Text
  lexed : editorLex src = some lexemes
  derived : tree.yield editor = visible lexemes

/-! From trees to definitions. -/

def convertEscapeCharacter (c : Char) : Char :=
  if c = 'b' then Char.ofNat 8
  else if c = 'f' then Char.ofNat 12
  else if c = 'n' then '\n'
  else if c = 'r' then '\r'
  else if c = 't' then '\t'
  else if c = 'v' then Char.ofNat 11
  else if c = '0' then Char.ofNat 0
  else c

/-- A raw string with its escapes replaced. -/
def replaceEscapes (escape : Char → Char) : Text → Text
  | '\\' :: c :: t => escape c :: replaceEscapes escape t
  | c :: t => c :: replaceEscapes escape t
  | [] => []

def convertString (raw : Text) : Text := replaceEscapes convertEscapeCharacter raw

def mapExample (ex : Example Text Text) : ExampleDef :=
  match ex.value with
  | .string s => ⟨ex.op, convertString s, true, convertString ex.description⟩
  | .number n => ⟨ex.op, jsNumberText n, false, convertString ex.description⟩

def mapField (f : Field Text Text) : DomainFieldDef :=
  let m := f.modifiers.foldl Modifiers.set {}
  ⟨f.name, f.type, m.readOnly, m.filterable, m.optionsRef, (f.examples.getD []).map mapExample⟩

def mapPermission (p : Permission) : PermissionDef := ⟨p.role, p.first :: p.more⟩

def mapRelation (r : Relation) : RelationDef := ⟨r.name, r.kind, r.target, r.localField, r.foreignField⟩

def mapMeta (m : Meta) : MetaDef := ⟨m.name, m.table, m.valueField, m.labelField, m.orderBy, m.dsn⟩

def mapAiHint (h : AiHint Text) : AiHintDef := ⟨convertString h.name, convertString h.body⟩

/-- Blank aliases are dropped. -/
def mapAlias (d : DomainDef) (raw : Text) : DomainDef :=
  let trimmed := Text.jsTrim (convertString raw)
  if trimmed.isEmpty then d else { d with aliases := d.aliases ++ [trimmed] }

def mapMember (d : DomainDef) : DomainMember Text Text → DomainDef
  | .field f => { d with fields := d.fields ++ [mapField f] }
  | .permission p => { d with permissions := d.permissions ++ [mapPermission p] }
  | .relation r => { d with relations := d.relations ++ [mapRelation r] }
  | .meta_ m => { d with metas := d.metas ++ [mapMeta m] }
  | .aiHint h => { d with aiHints := d.aiHints ++ [mapAiHint h] }
  | .aliasList l => (l.first :: l.more).foldl mapAlias d

def mapDomain (t : DomainDecl Text Text) : DomainDef :=
  t.members.foldl mapMember { name := t.name, source := t.source, dsn := t.dsn }

/-- How the mapper reads the leaves. -/
def editorReading : Reading Text Text := ⟨convertString, jsNumberText, Text.jsTrim⟩

theorem mapExample_eq : mapExample = Example.def_ editorReading := by
  funext ex
  rw [mapExample, Example.def_]
  cases ex.value <;> rfl

theorem mapField_eq (f : Field Text Text) : mapField f = f.def_ editorReading := by
  rw [mapField, foldl_set, mapExample_eq]
  simp only [Bool.false_or, Option.or_none]
  rfl

theorem foldl_mapAlias (raws : List Text) (d : DomainDef) :
    raws.foldl mapAlias d =
      { d with aliases := d.aliases ++ (raws.map fun s => Text.jsTrim (convertString s)).filter (!·.isEmpty) } := by
  induction raws generalizing d with
  | nil => simp
  | cons raw raws ih =>
    rw [List.foldl_cons, ih, mapAlias]
    by_cases hblank : (Text.jsTrim (convertString raw)).isEmpty = true
    · simp [hblank]
    · simp [hblank]

theorem mapMember_eq : mapMember = DomainDef.push editorReading := by
  funext d m
  cases m with
  | field f => rw [mapMember, mapField_eq, DomainDef.push]
  | aliasList l => rw [mapMember, foldl_mapAlias, DomainDef.push, AliasList.values, editorReading]
  | _ => rfl

theorem mapDomain_eq (t : DomainDecl Text Text) : mapDomain t = t.fold editorReading := by
  rw [mapDomain, mapMember_eq, foldl_push_fold]

end Onisin.Domain
