import Mathlib.Data.List.Sort
import Mathlib.Order.Basic

/-!
Paging backwards through a list that grows at its end. The items carry keys that ascend along
the list, a page is the largest items below a cursor, and the cursor of the next page is the
last key of the page before. Whatever is added meanwhile lies above every cursor.
-/

set_option autoImplicit false

namespace Onisin.Lib

variable {α κ : Type} [LinearOrder κ] (key : α → κ)

def isBelow (cursor : Option κ) (x : α) : Bool :=
  match cursor with
  | none => true
  | some c => decide (key x < c)

def below (cursor : Option κ) (xs : List α) : List α := xs.filter (isBelow key cursor)

def page (limit : Nat) (cursor : Option κ) (xs : List α) : List α :=
  (below key cursor xs).reverse.take limit

/-- Page after page until an empty one; `lists n` is the list when page `n` is asked for. -/
def drain (lists : Nat → List α) (limit : Nat) : Nat → Nat → Option κ → Option (List α)
  | 0, _, _ => none
  | fuel + 1, n, cursor =>
    match (page key limit cursor (lists n)).getLast? with
    | none => some []
    | some last =>
      (drain lists limit fuel (n + 1) (some (key last))).map (page key limit cursor (lists n) ++ ·)

def Ascends (xs : List α) : Prop := xs.Pairwise fun a b => key a < key b

variable {key}

theorem Ascends.filter {xs : List α} (h : Ascends key xs) (p : α → Bool) :
    Ascends key (xs.filter p) :=
  h.sublist List.filter_sublist

/-- In an ascending list, what lies below an item is what stands before it. -/
theorem filter_lt_of_ascends {xs ys : List α} {x : α} (h : Ascends key (xs ++ x :: ys)) :
    (xs ++ x :: ys).filter (fun y => decide (key y < key x)) = xs := by
  obtain ⟨-, htail, hcross⟩ := List.pairwise_append.mp h
  have hafter := (List.pairwise_cons.mp htail).1
  rw [List.filter_append, List.filter_cons_of_neg (by simp), List.filter_eq_self.mpr,
    List.filter_eq_nil_iff.mpr, List.append_nil]
  · intro y hy
    simpa using (hafter y hy).le
  · intro y hy
    simpa using hcross y hy x (by simp)

theorem isBelow_of_lt {cursor : Option κ} {x y : α} (hx : isBelow key cursor x = true)
    (hy : key y < key x) : isBelow key cursor y = true := by
  cases cursor with
  | none => rfl
  | some c =>
    simp only [isBelow, decide_eq_true_eq] at hx ⊢
    exact hy.trans hx

/-- What is left below the last key of a page, in a list that grew since. -/
theorem below_getLast {xs more : List α} (h : Ascends key (xs ++ more)) {limit : Nat}
    {cursor : Option κ} {last : α} (hl : (page key limit cursor xs).getLast? = some last) :
    below key (some (key last)) (xs ++ more) =
      ((below key cursor xs).reverse.drop limit).reverse := by
  obtain ⟨front, hfront⟩ := List.getLast?_eq_some_iff.mp hl
  have hsplit : below key cursor xs =
      ((below key cursor xs).reverse.drop limit).reverse ++ last :: front.reverse := by
    have htake := List.take_append_drop limit (below key cursor xs).reverse
    rw [page] at hfront
    rw [hfront] at htake
    have hrev := congrArg List.reverse htake
    simpa using hrev.symm
  have hlast : last ∈ below key cursor xs := by
    rw [hsplit]
    simp
  obtain ⟨hmem, hcursor⟩ := List.mem_filter.mp hlast
  obtain ⟨hxs, -, hcross⟩ := List.pairwise_append.mp h
  have hnew : below key (some (key last)) more = [] := by
    refine List.filter_eq_nil_iff.mpr fun y hy => ?_
    simpa [isBelow] using (hcross last hmem y hy).le
  have hold : below key (some (key last)) xs =
      (below key cursor xs).filter fun y => decide (key y < key last) := by
    rw [below, below, List.filter_filter]
    refine List.filter_congr fun y _ => ?_
    by_cases hy : key y < key last
    · rw [isBelow_of_lt hcursor hy]
      simp [isBelow]
    · simp [isBelow, hy]
  have hasc : Ascends key (below key cursor xs) := Ascends.filter hxs _
  rw [below, List.filter_append]
  change below key (some (key last)) xs ++ below key (some (key last)) more = _
  rw [hnew, hold, List.append_nil]
  rw [hsplit] at hasc
  conv_lhs => rw [hsplit]
  exact filter_lt_of_ascends hasc

theorem drain_eq {lists : Nat → List α} {limit : Nat} (hlimit : 0 < limit)
    (hasc : ∀ n, Ascends key (lists n)) (hgrow : ∀ n, lists n <+: lists (n + 1)) (fuel n : Nat)
    (cursor : Option κ) (hfuel : (below key cursor (lists n)).length < fuel) :
    drain key lists limit fuel n cursor = some (below key cursor (lists n)).reverse := by
  induction fuel generalizing n cursor with
  | zero => omega
  | succ fuel ih =>
    simp only [drain]
    cases hl : (page key limit cursor (lists n)).getLast? with
    | none =>
      have hnil : (below key cursor (lists n)).reverse.take limit = [] :=
        List.getLast?_eq_none_iff.mp hl
      rcases List.take_eq_nil_iff.mp hnil with hz | hz
      · omega
      · rw [hz]
    | some last =>
      obtain ⟨more, hmore⟩ := hgrow n
      have hrest := below_getLast (hmore ▸ hasc (n + 1)) hl
      rw [hmore] at hrest
      have hlen : (below key (some (key last)) (lists (n + 1))).length < fuel := by
        rw [hrest, List.length_reverse, List.length_drop, List.length_reverse]
        have hpos : (below key cursor (lists n)) ≠ [] := by
          intro hnil
          simp [page, hnil] at hl
        have := List.length_pos_of_ne_nil hpos
        omega
      dsimp only
      rw [ih (n + 1) _ hlen, hrest, Option.map_some, List.reverse_reverse, page,
        List.take_append_drop]

end Onisin.Lib
