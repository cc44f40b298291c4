import Onisin.Lib.JsonParse

/-!
String tokens of GraphQL documents, as the rule StringValue of the specification has them. The
editions differ in which characters may stand in a document and in the escapes by code point.
-/

set_option autoImplicit false

namespace Onisin.Lib

structure GraphQLEdition where
  sourceCharacter : Char → Bool
  /-- `\u` with a code point in braces. -/
  bracedEscapes : Bool

/-- October 2021 and before: of the control characters only tab, line feed and carriage return. -/
def october2021 : GraphQLEdition :=
  ⟨fun c => c.toNat = 9 || c.toNat = 0xA || c.toNat = 0xD || (0x20 ≤ c.toNat && c.toNat ≤ 0xFFFF), false⟩

/-- September 2025: any Unicode scalar value. -/
def september2025 : GraphQLEdition := ⟨fun _ => true, true⟩

/-- `\u{digits}`, from behind its opening brace. -/
def readBraced (t : Text) : Option (Char × Text) := do
  let digits := t.takeWhile fun c => (hexValue c).isSome
  let n ← digits.foldlM (fun n c => (hexValue c).map fun d => 16 * n + d) 0
  let rest := t.drop digits.length
  if digits ≠ [] ∧ n.isValidChar ∧ rest.head? = some '\x7d' then return (Char.ofNat n, rest.drop 1)
  else none

/-- What follows a backslash; but for the code points in braces these are the escapes of JSON. -/
def readGraphQLEscape (ed : GraphQLEdition) (t : Text) : Option (Char × Text) :=
  if ed.bracedEscapes ∧ "u\x7b".toList <+: t then readBraced (t.drop 2) else readEscape t

/-- The value up to the closing quote, and what is behind it. The number is how much is left of an
escape sequence. -/
def stringCharacters (ed : GraphQLEdition) : Nat → Text → Option (Text × Text)
  | _, [] => none
  | skip + 1, _ :: t => stringCharacters ed skip t
  | 0, c :: t =>
    if c = '"' then some ([], t)
    else if c = '\\' then
      (readGraphQLEscape ed t).bind fun e =>
        (stringCharacters ed (t.length - e.2.length) t).map fun r => (e.1 :: r.1, r.2)
    else if ed.sourceCharacter c ∧ c ≠ '\n' ∧ c ≠ '\r' then
      (stringCharacters ed 0 t).map fun r => (c :: r.1, r.2)
    else none

/-- The string token at the start of a text. Three quotes start a block string, which is none of
these. -/
def stringToken (ed : GraphQLEdition) (t : Text) : Option (Text × Text) :=
  if "\"\"\"".toList <+: t then none
  else
    match t with
    | [] => none
    | c :: t => if c = '"' then stringCharacters ed 0 t else none

/-! Reading one character of a string. -/

theorem stringCharacters_quote (ed : GraphQLEdition) (t : Text) :
    stringCharacters ed 0 ('"' :: t) = some ([], t) := by
  rw [stringCharacters, if_pos rfl]

/-- An escape of one character. -/
theorem stringCharacters_escaped (ed : GraphQLEdition) {e v : Char} (hu : e ≠ 'u')
    (h : ∀ t, readEscape (e :: t) = some (v, t)) (t : Text) :
    stringCharacters ed 0 ('\\' :: e :: t) = (stringCharacters ed 0 t).map fun r => (v :: r.1, r.2) := by
  have hbrace : ¬ "u\x7b".toList <+: e :: t := fun hpre => hu (List.cons_prefix_cons.mp hpre).1.symm
  have hread : readGraphQLEscape ed (e :: t) = some (v, t) := by
    rw [readGraphQLEscape, if_neg fun hboth => hbrace hboth.2, h]
  have hskip : stringCharacters ed ((e :: t).length - t.length) (e :: t) = stringCharacters ed 0 t := by
    rw [List.length_cons, Nat.add_sub_cancel_left, stringCharacters]
  rw [stringCharacters, if_neg (by decide), if_pos rfl, hread, Option.bind_some, hskip]

theorem stringCharacters_plain (ed : GraphQLEdition) {c : Char} (hquote : c ≠ '"') (hslash : c ≠ '\\')
    (hlf : c ≠ '\n') (hcr : c ≠ '\r') (t : Text) :
    stringCharacters ed 0 (c :: t) =
      if ed.sourceCharacter c then (stringCharacters ed 0 t).map fun r => (c :: r.1, r.2) else none := by
  rw [stringCharacters, if_neg hquote, if_neg hslash]
  by_cases hsource : ed.sourceCharacter c = true
  · rw [if_pos ⟨hsource, hlf, hcr⟩, if_pos hsource]
  · rw [if_neg fun h => hsource h.1, if_neg hsource]

theorem stringToken_quote (ed : GraphQLEdition) {t : Text} (h : ¬ "\"\"\"".toList <+: '"' :: t) :
    stringToken ed ('"' :: t) = stringCharacters ed 0 t := by
  unfold stringToken
  rw [if_neg h]
  exact if_pos rfl

end Onisin.Lib
