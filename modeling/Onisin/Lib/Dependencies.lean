import Mathlib.Logic.Relation
import Mathlib.Data.List.Nodup

/-!
Entries that need what earlier entries provide. Each entry provides its name and needs some
names; a run from the first to the last works if every name it needs is there when it is needed.
-/

set_option autoImplicit false

namespace Onisin.Lib

variable {α β : Type} [BEq β] [LawfulBEq β] (needs : α → List β) (name : α → β)

/-- What is provided by a run of all entries, if no entry lacks anything. -/
def runInOrder : List β → List α → Option (List β)
  | provided, [] => some provided
  | provided, a :: rest =>
    if (needs a).all provided.contains then runInOrder (provided ++ [name a]) rest else none

/-- The name is that of an entry before the `i`-th. -/
def Earlier (entries : List α) (i : Nat) (n : β) : Prop :=
  ∃ j b, j < i ∧ entries[j]? = some b ∧ name b = n

/-- The `i`-th entry needs the name of the `j`-th. -/
def Needs (entries : List α) (i j : Nat) : Prop :=
  ∃ a b, entries[i]? = some a ∧ entries[j]? = some b ∧ name b ∈ needs a

omit [BEq β] [LawfulBEq β] in
theorem earlier_cons_succ {a : α} {rest : List α} {i : Nat} {n : β} :
    Earlier name (a :: rest) (i + 1) n ↔ name a = n ∨ Earlier name rest i n := by
  constructor
  · rintro ⟨j, b, hj, hb, hn⟩
    cases j with
    | zero =>
      cases hb
      exact .inl hn
    | succ j => exact .inr ⟨j, b, by omega, hb, hn⟩
  · rintro (hn | ⟨j, b, hj, hb, hn⟩)
    · exact ⟨0, a, by omega, rfl, hn⟩
    · exact ⟨j + 1, b, by omega, hb, hn⟩

theorem runInOrder_isSome {provided : List β} {entries : List α}
    (h : ∀ i a, entries[i]? = some a → ∀ n ∈ needs a, n ∈ provided ∨ Earlier name entries i n) :
    runInOrder needs name provided entries = some (provided ++ entries.map name) := by
  induction entries generalizing provided with
  | nil => rw [runInOrder, List.map_nil, List.append_nil]
  | cons a rest ih =>
    have hhead : (needs a).all provided.contains = true := by
      rw [List.all_eq_true]
      intro n hn
      obtain hn | ⟨j, b, hj, -⟩ := h 0 a rfl n hn
      · exact List.elem_eq_true_of_mem hn
      · omega
    rw [runInOrder, if_pos hhead, ih, List.map_cons, List.append_assoc, List.singleton_append]
    intro i b hb n hn
    obtain hn | hn := h (i + 1) b hb n hn
    · exact .inl (List.mem_append_left _ hn)
    · obtain rfl | hn := (earlier_cons_succ name).mp hn
      · exact .inl (List.mem_append_right _ List.mem_cons_self)
      · exact .inr hn

omit [BEq β] [LawfulBEq β] in
/-- With distinct names only earlier entries are needed. -/
theorem Needs.lt {entries : List α} (hnames : (entries.map name).Nodup)
    (h : ∀ i a, entries[i]? = some a → ∀ n ∈ needs a, Earlier name entries i n) {i j : Nat}
    (hneeds : Needs needs name entries i j) : j < i := by
  obtain ⟨a, b, ha, hb, hn⟩ := hneeds
  obtain ⟨k, c, hk, hc, hname⟩ := h i a ha _ hn
  have hj : (entries.map name)[j]? = some (name b) := by rw [List.getElem?_map, hb]; rfl
  have hsame : (entries.map name)[j]? = (entries.map name)[k]? := by
    rw [hj, List.getElem?_map, hc, Option.map_some, hname]
  have hjk : j = k :=
    (List.getElem?_inj (List.getElem?_eq_some_iff.mp hj).1 hnames).mp hsame
  omega

theorem acyclic_of_lt {r : Nat → Nat → Prop} (h : ∀ i j, r i j → j < i) (i : Nat) : ¬ Relation.TransGen r i i := by
  have hlt : ∀ j, Relation.TransGen r i j → j < i := by
    intro j hj
    induction hj with
    | single hstep => exact h _ _ hstep
    | tail _ hstep ih => exact Nat.lt_trans (h _ _ hstep) ih
  exact fun hcycle => Nat.lt_irrefl i (hlt i hcycle)

end Onisin.Lib
