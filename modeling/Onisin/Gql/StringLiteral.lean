import Onisin.Lib.GraphQLString

/-!
String literals in mutations. Five characters are escaped and all others stand for themselves,
so a literal is what it should be where the specification lets them stand in a document.
-/

set_option autoImplicit false

namespace Onisin.Gql.Client
open Lib

def escapeChar (ch : Char) : Text :=
  if ch = '\\' then ['\\', '\\']
  else if ch = '"' then ['\\', '"']
  else if ch = '\n' then ['\\', 'n']
  else if ch = '\r' then ['\\', 'r']
  else if ch = '\t' then ['\\', 't']
  else [ch]

def escapeGraphQLString (s : Text) : Text := s.flatMap escapeChar

/-- A text as a string literal. -/
def stringLiteral (s : Text) : Text := '"' :: (escapeGraphQLString s ++ ['"'])

/-- The characters that are escaped. -/
def isEscaped (c : Char) : Bool := c = '\\' || c = '"' || c = '\n' || c = '\r' || c = '\t'

/-- A character that comes through: one that is escaped, or that may stand in a document. -/
def comesThrough (ed : GraphQLEdition) (c : Char) : Bool := isEscaped c || ed.sourceCharacter c

theorem stringCharacters_escapeChar (ed : GraphQLEdition) (c : Char) (t : Text) :
    stringCharacters ed 0 (escapeChar c ++ t) =
      if comesThrough ed c then (stringCharacters ed 0 t).map fun r => (c :: r.1, r.2) else none := by
  have hescape : ∀ e, e ≠ 'u' → (∀ t, readEscape (e :: t) = some (c, t)) → isEscaped c = true →
      escapeChar c = ['\\', e] →
      stringCharacters ed 0 (escapeChar c ++ t) =
        if comesThrough ed c then (stringCharacters ed 0 t).map fun r => (c :: r.1, r.2) else none := by
    intro e hu he hc htext
    rw [htext, comesThrough, hc, Bool.true_or, if_pos rfl]
    exact stringCharacters_escaped ed hu he t
  by_cases hslash : c = '\\'
  · exact hescape '\\' (by decide) (fun _ => by rw [hslash]; rfl) (by rw [hslash]; rfl) (by rw [hslash]; rfl)
  by_cases hquote : c = '"'
  · exact hescape '"' (by decide) (fun _ => by rw [hquote]; rfl) (by rw [hquote]; rfl) (by rw [hquote]; rfl)
  by_cases hlf : c = '\n'
  · exact hescape 'n' (by decide) (fun _ => by rw [hlf]; rfl) (by rw [hlf]; rfl) (by rw [hlf]; rfl)
  by_cases hcr : c = '\r'
  · exact hescape 'r' (by decide) (fun _ => by rw [hcr]; rfl) (by rw [hcr]; rfl) (by rw [hcr]; rfl)
  by_cases htab : c = '\t'
  · exact hescape 't' (by decide) (fun _ => by rw [htab]; rfl) (by rw [htab]; rfl) (by rw [htab]; rfl)
  -- what is not escaped has to be let through
  have hplain : isEscaped c = false := by simp [isEscaped, hslash, hquote, hlf, hcr, htab]
  have htext : escapeChar c = [c] := by simp [escapeChar, hslash, hquote, hlf, hcr, htab]
  rw [htext, comesThrough, hplain, Bool.false_or]
  exact stringCharacters_plain ed hquote hslash hlf hcr t

theorem stringCharacters_escape (ed : GraphQLEdition) (s rest : Text) :
    stringCharacters ed 0 (escapeGraphQLString s ++ '"' :: rest) =
      if s.all (comesThrough ed) then some (s, rest) else none := by
  induction s with
  | nil => exact stringCharacters_quote ed rest
  | cons c s ih =>
    rw [escapeGraphQLString, List.flatMap_cons, List.append_assoc, stringCharacters_escapeChar,
      ← escapeGraphQLString, ih, List.all_cons]
    cases comesThrough ed c with
    | false => rfl
    | true =>
      rw [Bool.true_and, if_pos rfl]
      split <;> rfl

/-- No escaped text starts with a quote. -/
theorem escapeGraphQLString_head (s : Text) : (escapeGraphQLString s).head? ≠ some '"' := by
  have hchar : ∀ c : Char, ∃ d t, escapeChar c = d :: t ∧ d ≠ '"' := by
    intro c
    rw [escapeChar]
    split
    · exact ⟨_, _, rfl, by decide⟩
    · split
      · exact ⟨_, _, rfl, by decide⟩
      · next hquote =>
        split
        · exact ⟨_, _, rfl, by decide⟩
        · split
          · exact ⟨_, _, rfl, by decide⟩
          · split
            · exact ⟨_, _, rfl, by decide⟩
            · exact ⟨_, _, rfl, hquote⟩
  cases s with
  | nil => rintro ⟨⟩
  | cons c s =>
    obtain ⟨d, t, hd, hne⟩ := hchar c
    rw [escapeGraphQLString, List.flatMap_cons, hd]
    exact fun h => hne (Option.some.inj h)

/-- A quote behind the literal of the empty text would make it the start of a block string. -/
theorem stringToken_literal (ed : GraphQLEdition) (s : Text) {rest : Text} (hrest : rest.head? ≠ some '"') :
    stringToken ed (stringLiteral s ++ rest) = if s.all (comesThrough ed) then some (s, rest) else none := by
  have htext : stringLiteral s ++ rest = '"' :: (escapeGraphQLString s ++ '"' :: rest) := by
    simp [stringLiteral]
  have hblock : ¬ "\"\"\"".toList <+: stringLiteral s ++ rest := by
    intro h
    rw [htext] at h
    have htail : ['"', '"'] <+: escapeGraphQLString s ++ '"' :: rest := (List.cons_prefix_cons.mp h).2
    cases hs : escapeGraphQLString s with
    | nil =>
      rw [hs] at htail
      obtain ⟨t, ht⟩ := (List.cons_prefix_cons.mp htail).2
      exact hrest (by rw [← ht]; rfl)
    | cons d t =>
      rw [hs] at htail
      refine escapeGraphQLString_head s ?_
      rw [hs, ← (List.cons_prefix_cons.mp htail).1]
      rfl
  rw [htext] at hblock ⊢
  exact (stringToken_quote ed hblock).trans (stringCharacters_escape ed s rest)

/-- In the edition of September 2025 the literal of a text is one string token with the text as its
value, whatever the text. In any edition it is one if and only if each character is escaped or may
stand in a document: before September 2025, unless a character that is not escaped is a control
character or beyond U+FFFF. -/
theorem literal_read_iff (s : Text) :
    stringToken september2025 (stringLiteral s) = some (s, []) ∧
    (∀ ed, stringToken ed (stringLiteral s) = some (s, []) ↔
      ∀ c ∈ s, isEscaped c = true ∨ ed.sourceCharacter c = true) ∧
    (stringToken october2021 (stringLiteral s) = some (s, []) ↔
      ∀ c ∈ s, c.toNat ∈ [9, 10, 13] ∨ 0x20 ≤ c.toNat ∧ c.toNat ≤ 0xFFFF) := by
  have hread : ∀ ed, stringToken ed (stringLiteral s) = some (s, []) ↔
      ∀ c ∈ s, isEscaped c = true ∨ ed.sourceCharacter c = true := by
    intro ed
    have hnone : ([] : Text).head? ≠ some '"' := nofun
    have htoken := stringToken_literal ed s hnone
    rw [List.append_nil] at htoken
    rw [htoken]
    have hall : s.all (comesThrough ed) = true ↔
        ∀ c ∈ s, isEscaped c = true ∨ ed.sourceCharacter c = true := by
      simp only [List.all_eq_true, comesThrough, Bool.or_eq_true]
    rw [← hall]
    split
    · next h => exact ⟨fun _ => h, fun _ => rfl⟩
    · next h => exact ⟨fun hnone => (by cases hnone), fun htrue => absurd htrue h⟩
  refine ⟨(hread september2025).mpr fun c _ => .inr rfl, hread, (hread october2021).trans ?_⟩
  refine forall_congr' fun c => imp_congr_right fun _ => ?_
  have hescaped : isEscaped c = true → c.toNat ∈ [9, 10, 13] ∨ 0x20 ≤ c.toNat ∧ c.toNat ≤ 0xFFFF := by
    intro h
    simp only [isEscaped, Bool.or_eq_true, decide_eq_true_eq] at h
    obtain (((rfl | rfl) | rfl) | rfl) | rfl := h <;> decide
  have hsource : october2021.sourceCharacter c = true ↔
      c.toNat ∈ [9, 10, 13] ∨ 0x20 ≤ c.toNat ∧ c.toNat ≤ 0xFFFF := by
    simp [october2021, or_assoc]
  exact ⟨fun h => h.elim hescaped hsource.mp, fun h => .inr (hsource.mpr h)⟩

-- a backspace is left as it is, which the older editions do not read
example : stringToken october2021 (stringLiteral [Char.ofNat 8]) = none := by decide

end Onisin.Gql.Client
