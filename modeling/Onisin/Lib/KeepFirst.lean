import Mathlib.Data.List.Nodup

/-!
A list without repetitions, in the order of the first occurrences. Repetition is judged by a
key, and the keys seen so far are carried along, so that a list can be worked off in pieces.
-/

set_option autoImplicit false

namespace Onisin.Lib

variable {α κ : Type} [BEq κ]

/-- The elements whose key has not been seen, each key at its first place only. -/
def keepFirst (key : α → κ) : List κ → List α → List α
  | _, [] => []
  | seen, a :: l =>
    if seen.contains (key a) then keepFirst key seen l else a :: keepFirst key (key a :: seen) l

variable [LawfulBEq κ] {key : α → κ} {seen seen' : List κ} {a : α} {k : κ} {l m : List α}

theorem keepFirst_seen (h : key a ∈ seen) : keepFirst key seen (a :: l) = keepFirst key seen l := by
  rw [keepFirst, if_pos (List.contains_iff_mem.mpr h)]

theorem keepFirst_new (h : key a ∉ seen) :
    keepFirst key seen (a :: l) = a :: keepFirst key (key a :: seen) l := by
  rw [keepFirst, if_neg fun hc => h (List.contains_iff_mem.mp hc)]

/-- Only which keys have been seen matters. -/
theorem keepFirst_congr (h : ∀ k, k ∈ seen ↔ k ∈ seen') :
    keepFirst key seen l = keepFirst key seen' l := by
  induction l generalizing seen seen' with
  | nil => rfl
  | cons a l ih =>
    by_cases ha : key a ∈ seen
    · rw [keepFirst_seen ha, keepFirst_seen ((h _).mp ha), ih h]
    · rw [keepFirst_new ha, keepFirst_new fun hs => ha ((h _).mpr hs)]
      refine congrArg (a :: ·) (ih fun k => ?_)
      rw [List.mem_cons, List.mem_cons, h k]

theorem keepFirst_append :
    keepFirst key seen (l ++ m) =
      keepFirst key seen l ++ keepFirst key (l.map key ++ seen) m := by
  induction l generalizing seen with
  | nil => rfl
  | cons a l ih =>
    rw [List.cons_append]
    by_cases ha : key a ∈ seen
    · rw [keepFirst_seen ha, keepFirst_seen ha, ih]
      refine congrArg (_ ++ ·) (keepFirst_congr fun k => ?_)
      rw [List.map_cons, List.cons_append, List.mem_cons, List.mem_append]
      exact ⟨Or.inr, fun hk => hk.elim (fun he => Or.inr (he ▸ ha)) id⟩
    · rw [keepFirst_new ha, keepFirst_new ha, ih, List.cons_append]
      refine congrArg (fun r => a :: (_ ++ r)) (keepFirst_congr fun k => ?_)
      rw [List.map_cons, List.cons_append, List.mem_append, List.mem_cons, List.mem_cons,
        List.mem_append]
      exact or_left_comm

theorem mem_keepFirst_key : k ∈ (keepFirst key seen l).map key ↔ k ∈ l.map key ∧ k ∉ seen := by
  induction l generalizing seen with
  | nil => simp [keepFirst]
  | cons a l ih =>
    by_cases ha : key a ∈ seen
    · rw [keepFirst_seen ha, ih, List.map_cons, List.mem_cons]
      constructor
      · exact fun h => ⟨Or.inr h.1, h.2⟩
      · rintro ⟨rfl | hk, hs⟩
        · exact absurd ha hs
        · exact ⟨hk, hs⟩
    · rw [keepFirst_new ha, List.map_cons, List.mem_cons, ih, List.map_cons, List.mem_cons,
        List.mem_cons]
      constructor
      · rintro (rfl | ⟨hk, hs⟩)
        · exact ⟨Or.inl rfl, ha⟩
        · exact ⟨Or.inr hk, fun h => hs (Or.inr h)⟩
      · rintro ⟨hk, hs⟩
        by_cases he : k = key a
        · exact Or.inl he
        · exact Or.inr ⟨hk.resolve_left he, fun h => h.elim he hs⟩

theorem keepFirst_nodup : ((keepFirst key seen l).map key).Nodup := by
  induction l generalizing seen with
  | nil => exact List.nodup_nil
  | cons a l ih =>
    by_cases ha : key a ∈ seen
    · rw [keepFirst_seen ha]
      exact ih
    · rw [keepFirst_new ha, List.map_cons, List.nodup_cons]
      exact ⟨fun h => (mem_keepFirst_key.mp h).2 List.mem_cons_self, ih⟩

/-- A list of keys that have all been seen leaves nothing. -/
theorem keepFirst_eq_nil (h : ∀ a ∈ l, key a ∈ seen) : keepFirst key seen l = [] := by
  induction l with
  | nil => rfl
  | cons a l ih =>
    rw [keepFirst_seen (h a List.mem_cons_self)]
    exact ih fun b hb => h b (List.mem_cons_of_mem a hb)

end Onisin.Lib
