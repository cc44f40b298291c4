import Mathlib.Data.List.Infix

/-!
Where one list occurs in another. The search reports the first place at or after a given
one, so a caller that goes on one past each report misses no occurrence, overlapping or not.
The last occurrence is the one behind which there is no other.
-/

set_option autoImplicit false

namespace Onisin.Lib

variable {α : Type} {text needle : List α} {start i : Nat}

/-- An occurrence of something ends inside the text. -/
theorem end_le_of_occurs (hne : needle ≠ []) (h : needle <+: text.drop i) :
    i + needle.length ≤ text.length := by
  have hlen := h.length_le
  rw [List.length_drop] at hlen
  have hpos := List.length_pos_iff.mpr hne
  omega

/-- The three parts of the text around an occurrence. -/
theorem split_of_occurs (hne : needle ≠ []) (h : needle <+: text.drop i) :
    ∃ pre post, text = pre ++ needle ++ post ∧ pre.length = i := by
  obtain ⟨post, hpost⟩ := h
  have hend := end_le_of_occurs hne ⟨post, hpost⟩
  refine ⟨text.take i, post, ?_, List.length_take_of_le (by omega)⟩
  rw [List.append_assoc, hpost, List.take_append_drop]

theorem occurs_of_split (pre needle post : List α) :
    needle <+: (pre ++ needle ++ post).drop pre.length := by
  rw [List.append_assoc, List.drop_left]
  exact ⟨post, rfl⟩

/-! The search. -/

variable [DecidableEq α]

/-- The first place of `needle` in a rest of a text that begins at `i`. -/
def firstFrom (needle : List α) : List α → Nat → Option Nat
  | [], i => if needle.isPrefixOf [] then some i else none
  | c :: text, i => if needle.isPrefixOf (c :: text) then some i else firstFrom needle text (i + 1)

def indexOf (text needle : List α) (start : Nat) : Option Nat :=
  firstFrom needle (text.drop start) start

theorem firstFrom_some {text : List α} {k i : Nat} (h : firstFrom needle text k = some i) :
    ∃ j, i = k + j ∧ needle <+: text.drop j ∧ ∀ l, l < j → ¬ needle <+: text.drop l := by
  induction text generalizing k with
  | nil =>
    rw [firstFrom] at h
    split at h
    · next hp =>
      injection h with h
      exact ⟨0, by omega, List.isPrefixOf_iff_prefix.mp hp, fun l hl => by omega⟩
    · cases h
  | cons c text ih =>
    rw [firstFrom] at h
    split at h
    · next hp =>
      injection h with h
      exact ⟨0, by omega, List.isPrefixOf_iff_prefix.mp hp, fun l hl => by omega⟩
    · next hp =>
      obtain ⟨j, hj, hat, hfirst⟩ := ih h
      refine ⟨j + 1, by omega, hat, ?_⟩
      intro l hl
      cases l with
      | zero => exact fun h0 => hp (List.isPrefixOf_iff_prefix.mpr h0)
      | succ l => exact hfirst l (by omega)

theorem firstFrom_none {text : List α} {k : Nat} (h : firstFrom needle text k = none) (j : Nat) :
    ¬ needle <+: text.drop j := by
  induction text generalizing k j with
  | nil =>
    rw [firstFrom] at h
    split at h
    · cases h
    · next hp =>
      rw [List.drop_nil]
      exact fun h0 => hp (List.isPrefixOf_iff_prefix.mpr h0)
  | cons c text ih =>
    rw [firstFrom] at h
    split at h
    · cases h
    · next hp =>
      cases j with
      | zero => exact fun h0 => hp (List.isPrefixOf_iff_prefix.mpr h0)
      | succ j => exact ih h j

theorem indexOf_some (h : indexOf text needle start = some i) :
    start ≤ i ∧ needle <+: text.drop i ∧ ∀ j, start ≤ j → j < i → ¬ needle <+: text.drop j := by
  obtain ⟨j, rfl, hat, hfirst⟩ := firstFrom_some h
  rw [List.drop_drop] at hat
  refine ⟨Nat.le_add_right _ _, hat, ?_⟩
  intro l hstart hl
  have hno := hfirst (l - start) (by omega)
  rwa [List.drop_drop, Nat.add_sub_cancel' hstart] at hno

theorem indexOf_none (h : indexOf text needle start = none) {j : Nat} (hj : start ≤ j) :
    ¬ needle <+: text.drop j := by
  have hno := firstFrom_none h (j - start)
  rwa [List.drop_drop, Nat.add_sub_cancel' hj] at hno

/-! The last occurrence. -/

/-- What stands before and behind the last occurrence. -/
def splitLast (needle : List α) : List α → Option (List α × List α)
  | [] => if needle.isPrefixOf [] then some ([], []) else none
  | c :: text =>
    match splitLast needle text with
    | some (before, after) => some (c :: before, after)
    | none =>
      if needle.isPrefixOf (c :: text) then some ([], (c :: text).drop needle.length) else none

theorem splitLast_none (h : splitLast needle text = none) : ¬ needle <:+: text := by
  induction text with
  | nil =>
    rw [splitLast] at h
    split at h
    · cases h
    · next hno =>
      intro hin
      rw [List.infix_nil.mp hin] at hno
      exact hno rfl
  | cons c text ih =>
    rw [splitLast] at h
    split at h
    · cases h
    · next hrest =>
      split at h
      · cases h
      · next hno =>
        intro hin
        rcases List.infix_cons_iff.mp hin with hpre | hin
        · exact hno (List.isPrefixOf_iff_prefix.mpr hpre)
        · exact ih hrest hin

theorem splitLast_some {before after : List α} (hne : needle ≠ [])
    (h : splitLast needle text = some (before, after)) : ¬ needle <:+: after := by
  obtain ⟨d, needle', rfl⟩ := List.exists_cons_of_ne_nil hne
  induction text generalizing before with
  | nil => cases h
  | cons c text ih =>
    rw [splitLast] at h
    split at h
    · next b a hrest =>
      obtain ⟨-, rfl⟩ := Prod.mk.inj (Option.some.inj h)
      exact ih hrest
    · next hrest =>
      split at h
      · obtain ⟨-, rfl⟩ := Prod.mk.inj (Option.some.inj h)
        intro hin
        have hsuffix : (c :: text).drop (d :: needle').length <:+ text :=
          List.drop_suffix needle'.length text
        exact splitLast_none hrest (hin.trans hsuffix.isInfix)
      · cases h

end Onisin.Lib
