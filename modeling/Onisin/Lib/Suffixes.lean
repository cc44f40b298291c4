import Mathlib.Data.List.Infix

/-!
Names that are encoded by a suffix from a table and decoded by looking a name up as it is, and
if there is nothing of that name, by taking a suffix off it.
-/

set_option autoImplicit false

namespace Onisin.Lib

variable {α φ ω : Type} [DecidableEq α]

def decodeSuffixed (byName : List α → Option φ) (table : List (List α × ω)) (bare : ω) (n : List α) :
    Option (φ × ω) :=
  match byName n with
  | some f => some (f, bare)
  | none =>
    table.findSome? fun e =>
      if e.1 <:+ n then (byName (n.take (n.length - e.1.length))).map (·, e.2) else none

/-- No suffix of the table ends in another one. -/
def Apart (table : List (List α × ω)) : Prop := ∀ e ∈ table, ∀ e' ∈ table, e.1 <:+ e'.1 → e = e'

omit [DecidableEq α] in
theorem Apart.eq_of_suffix {table : List (List α × ω)} (h : Apart table) {e e' : List α × ω} (he : e ∈ table)
    (he' : e' ∈ table) {n : List α} (hn : e.1 <:+ n) (hn' : e'.1 <:+ n) : e = e' := by
  obtain hle | hle := Nat.le_total e.1.length e'.1.length
  · exact h e he e' he' (List.suffix_of_suffix_length_le hn hn' hle)
  · exact (h e' he' e he (List.suffix_of_suffix_length_le hn' hn hle)).symm

omit [DecidableEq α] in
/-- A name with a suffix is that of one name and one suffix only. -/
theorem Apart.append_inj {table : List (List α × ω)} (h : Apart table) {e e' : List α × ω} (he : e ∈ table)
    (he' : e' ∈ table) {name name' : List α} (heq : name ++ e.1 = name' ++ e'.1) : e = e' ∧ name = name' := by
  have hsame : e = e' := h.eq_of_suffix he he' (List.suffix_append name e.1) (heq ▸ List.suffix_append name' e'.1)
  exact ⟨hsame, List.append_cancel_right (hsame ▸ heq)⟩

theorem decodeSuffixed_bare {byName : List α → Option φ} {n : List α} {f : φ} (h : byName n = some f)
    (table : List (List α × ω)) (bare : ω) : decodeSuffixed byName table bare n = some (f, bare) := by
  rw [decodeSuffixed, h]

theorem decodeSuffixed_append {byName : List α → Option φ} {table : List (List α × ω)} (htable : Apart table)
    {e : List α × ω} (he : e ∈ table) {name : List α} {f : φ} (hname : byName name = some f)
    (hnone : byName (name ++ e.1) = none) (bare : ω) :
    decodeSuffixed byName table bare (name ++ e.1) = some (f, e.2) := by
  have hmatch : ∀ e' ∈ table, (if e'.1 <:+ name ++ e.1 then
      (byName ((name ++ e.1).take ((name ++ e.1).length - e'.1.length))).map (·, e'.2) else none) =
      if e'.1 <:+ name ++ e.1 then some (f, e.2) else none := by
    intro e' he'
    split
    · next hsuffix =>
      obtain rfl := htable.eq_of_suffix he' he hsuffix (List.suffix_append name e.1)
      rw [List.length_append, Nat.add_sub_cancel, List.take_left, hname]
      rfl
    · rfl
  rw [decodeSuffixed, hnone]
  dsimp only
  induction table with
  | nil => cases he
  | cons e' table ih =>
    rw [List.findSome?_cons, hmatch e' List.mem_cons_self]
    split
    · next found =>
      split at found
      · exact found.symm
      · cases found
    · next hnot =>
      split at hnot
      · cases hnot
      · next hsuffix =>
        have htail : e ∈ table := (List.mem_cons.mp he).resolve_left fun heq =>
          hsuffix (heq ▸ List.suffix_append name e.1)
        exact ih (fun a ha b hb => htable a (List.mem_cons_of_mem _ ha) b (List.mem_cons_of_mem _ hb)) htail
          fun a ha => hmatch a (List.mem_cons_of_mem _ ha)

theorem decodeSuffixed_some {byName : List α → Option φ} {table : List (List α × ω)} {bare : ω} {n : List α}
    {f : φ} {o : ω} (h : decodeSuffixed byName table bare n = some (f, o)) :
    (byName n = some f ∧ o = bare) ∨
      ∃ name e, e ∈ table ∧ n = name ++ e.1 ∧ o = e.2 ∧ byName name = some f ∧ byName n = none := by
  rw [decodeSuffixed] at h
  split at h
  · next g hg =>
    cases h
    exact .inl ⟨hg, rfl⟩
  · next hnone =>
    obtain ⟨e, he, hfound⟩ := List.exists_of_findSome?_eq_some h
    split at hfound
    · next hsuffix =>
      obtain ⟨name, rfl⟩ := hsuffix
      rw [List.length_append, Nat.add_sub_cancel, List.take_left] at hfound
      obtain ⟨g, hg, heq⟩ := Option.map_eq_some_iff.mp hfound
      cases heq
      exact .inr ⟨name, e, he, rfl, rfl, hg, hnone⟩
    · cases hfound

end Onisin.Lib
