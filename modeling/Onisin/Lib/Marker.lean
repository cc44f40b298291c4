import Onisin.Lib.Text

/-!
Markers: texts whose first character does not come back in them. A marker is found where it was
put, however the text before it goes on.
-/

set_option autoImplicit false

namespace Onisin.Lib

/-- A text that no other copy of itself can overlap. -/
def IsMarker : Text → Prop
  | [] => False
  | c :: cs => c ∉ cs

instance : (pat : Text) → Decidable (IsMarker pat)
  | [] => .isFalse id
  | c :: cs => inferInstanceAs (Decidable (c ∉ cs))

variable {pat s t rest : Text}

/-- A marker at the start of a text and another one behind it: the first is inside that text. -/
theorem IsMarker.prefix_of_append (h : IsMarker pat) (hs : s ≠ []) (hp : pat <+: s ++ (pat ++ rest)) :
    pat <+: s := by
  obtain ⟨c, cs, rfl⟩ : ∃ c cs, pat = c :: cs := by
    cases pat with
    | nil => exact h.elim
    | cons c cs => exact ⟨c, cs, rfl⟩
  rcases List.prefix_or_prefix_of_prefix hp (List.prefix_append s _) with hin | ⟨u, hu⟩
  · exact hin
  cases u with
  | nil =>
    rw [List.append_nil] at hu
    exact hu ▸ List.prefix_refl _
  | cons d u =>
    -- what stands over the end of `s` starts with the marker's first character
    obtain ⟨v, hv⟩ := hp
    have hfrom : s ++ (d :: u ++ v) = s ++ (c :: cs ++ rest) := by
      rw [← hv, ← List.append_assoc, hu]
    have hover : d :: u ++ v = c :: cs ++ rest := List.append_cancel_left hfrom
    obtain ⟨rfl, -⟩ := List.cons.inj hover
    obtain ⟨e, s', rfl⟩ := List.exists_cons_of_ne_nil hs
    obtain ⟨-, htail⟩ := List.cons.inj hu
    refine absurd ?_ h
    rw [← htail]
    exact List.mem_append_right _ List.mem_cons_self

theorem beforeFirst_marker (h : IsMarker pat) (hs : ¬ pat <:+: s) (rest : Text) :
    Text.beforeFirst pat (s ++ (pat ++ rest)) = some s := by
  induction s with
  | nil =>
    obtain ⟨c, cs, rfl⟩ : ∃ c cs, pat = c :: cs := by
      cases pat with
      | nil => exact h.elim
      | cons c cs => exact ⟨c, cs, rfl⟩
    exact if_pos (List.prefix_append _ _)
  | cons d s ih =>
    have hnot : ¬ pat <+: d :: (s ++ (pat ++ rest)) := fun hp =>
      hs (h.prefix_of_append (List.cons_ne_nil d s) hp).isInfix
    have htail : ¬ pat <:+: s := fun hin => hs (hin.trans (List.suffix_cons d s).isInfix)
    rw [List.cons_append, Text.beforeFirst, if_neg hnot, ih htail]
    rfl

end Onisin.Lib
