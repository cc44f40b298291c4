import Mathlib.Data.List.Basic
import Mathlib.Data.List.Induction
import Mathlib.Data.List.Nodup

/-!
Values under keys, gathered key by key while the keys keep the order in which they first come.
-/

set_option autoImplicit false

namespace Onisin.Lib

variable {κ α : Type} [DecidableEq κ]

/-- The keys, each where it is first seen. -/
def keysSeen (l : List (κ × α)) : List κ :=
  l.foldl (fun keys e => if keys.contains e.1 then keys else keys ++ [e.1]) []

def valuesOf (k : κ) (l : List (κ × α)) : List α := (l.filter (·.1 = k)).map Prod.snd

/-- Where a key is first seen. -/
def firstAt (k : κ) (l : List (κ × α)) : Nat := (l.map Prod.fst).idxOf k

theorem keysSeen_snoc (l : List (κ × α)) (e : κ × α) :
    keysSeen (l ++ [e]) = if e.1 ∈ keysSeen l then keysSeen l else keysSeen l ++ [e.1] := by
  simp only [keysSeen, List.foldl_append, List.foldl_cons, List.foldl_nil, List.contains_iff_mem]

theorem mem_keysSeen {l : List (κ × α)} {k : κ} : k ∈ keysSeen l ↔ k ∈ l.map Prod.fst := by
  induction l using List.reverseRecOn with
  | nil => simp [keysSeen]
  | append_singleton l e ih =>
    rw [keysSeen_snoc, List.map_append, List.mem_append, ← ih]
    by_cases he : e.1 ∈ keysSeen l
    · rw [if_pos he]
      constructor
      · exact Or.inl
      · rintro (h | h)
        · exact h
        · rw [List.mem_singleton.mp h]
          exact he
    · simp [if_neg he]

theorem keysSeen_nodup (l : List (κ × α)) : (keysSeen l).Nodup := by
  induction l using List.reverseRecOn with
  | nil => simp [keysSeen]
  | append_singleton l e ih =>
    rw [keysSeen_snoc]
    by_cases he : e.1 ∈ keysSeen l
    · rwa [if_pos he]
    · rw [if_neg he]
      exact List.nodup_append_comm.mp (List.nodup_cons.mpr ⟨he, ih⟩)

theorem firstAt_snoc_of_mem {l : List (κ × α)} {k : κ} (h : k ∈ keysSeen l) (e : κ × α) :
    firstAt k (l ++ [e]) = firstAt k l := by
  rw [firstAt, firstAt, List.map_append, List.idxOf_append_of_mem (mem_keysSeen.mp h)]

theorem firstAt_lt_of_mem {l : List (κ × α)} {k : κ} (h : k ∈ keysSeen l) :
    firstAt k l < l.length := by
  have hlt := List.idxOf_lt_length_of_mem (mem_keysSeen.mp h)
  rwa [List.length_map] at hlt

/-- A key behind another one is first seen behind it. -/
theorem keysSeen_pairwise (l : List (κ × α)) :
    (keysSeen l).Pairwise fun k k' => firstAt k l < firstAt k' l := by
  induction l using List.reverseRecOn with
  | nil => simp [keysSeen]
  | append_singleton l e ih =>
    have hkeep : (keysSeen l).Pairwise fun k k' => firstAt k (l ++ [e]) < firstAt k' (l ++ [e]) := by
      refine ih.imp_of_mem fun hk hk' hlt => ?_
      rwa [firstAt_snoc_of_mem hk, firstAt_snoc_of_mem hk']
    rw [keysSeen_snoc]
    by_cases he : e.1 ∈ keysSeen l
    · rwa [if_pos he]
    · rw [if_neg he]
      refine List.pairwise_append.mpr ⟨hkeep, List.pairwise_singleton _ _, fun k hk k' hk' => ?_⟩
      have hnew : firstAt e.1 (l ++ [e]) = l.length := by
        rw [firstAt, List.map_append, List.idxOf_append_of_notMem fun h => he (mem_keysSeen.mpr h)]
        simp
      rw [List.mem_singleton.mp hk', hnew, firstAt_snoc_of_mem hk]
      exact firstAt_lt_of_mem hk

theorem valuesOf_snoc (k : κ) (l : List (κ × α)) (e : κ × α) :
    valuesOf k (l ++ [e]) = if e.1 = k then valuesOf k l ++ [e.2] else valuesOf k l := by
  rw [valuesOf, List.filter_append, List.map_append, ← valuesOf]
  by_cases h : e.1 = k
  · simp [h]
  · simp [h]

theorem valuesOf_eq_nil {k : κ} {l : List (κ × α)} : valuesOf k l = [] ↔ k ∉ keysSeen l := by
  rw [mem_keysSeen, valuesOf, List.map_eq_nil_iff, List.filter_eq_nil_iff]
  simp only [decide_eq_true_eq, List.mem_map, not_exists, not_and]

end Onisin.Lib
