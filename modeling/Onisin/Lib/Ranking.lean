import Mathlib.Data.List.Basic
import Mathlib.Order.Lattice

/-!
The best entries of a list by a key, best first: a stable sort, cut off at a length. What it
gives depends on the order of the list only where keys tie, and only if the cut is not
before the tie.
-/

set_option autoImplicit false

namespace Onisin.Lib

variable {α β : Type} [LinearOrder β] {key : α → β}

/-- Of entries with one key the one listed first comes first. -/
def ranked (key : α → β) (l : List α) : List α := l.mergeSort fun a b => key b ≤ key a

def best (key : α → β) (k : Nat) (l : List α) : List α := (ranked key l).take k

/-- Wherever two entries tie, `k` entries are before them. -/
def TiesBelow (key : α → β) (k : Nat) (l : List α) : Prop :=
  ∀ x ∈ l, ∀ y ∈ l, x ≠ y → key x = key y → k ≤ l.countP fun z => key x < key z

theorem ranked_perm (key : α → β) (l : List α) : (ranked key l).Perm l := List.mergeSort_perm _ _

theorem le_trans_key (key : α → β) (a b c : α) :
    decide (key b ≤ key a) = true → decide (key c ≤ key b) = true → decide (key c ≤ key a) = true := by
  simp only [decide_eq_true_eq]
  exact fun h h' => le_trans h' h

theorem le_total_key (key : α → β) (a b : α) :
    (decide (key b ≤ key a) || decide (key a ≤ key b)) = true := by
  rw [Bool.or_eq_true, decide_eq_true_eq, decide_eq_true_eq]
  exact le_total _ _

theorem ranked_pairwise (key : α → β) (l : List α) :
    (ranked key l).Pairwise fun a b => key b ≤ key a := by
  have h := List.pairwise_mergeSort (le_trans_key key) (le_total_key key) l
  exact h.imp fun h => of_decide_eq_true h

/-- The entries with one key keep their order. -/
theorem ranked_filter (s : β) (l : List α) :
    (ranked key l).filter (fun a => key a = s) = l.filter fun a => key a = s := by
  have htied : (l.filter fun a => key a = s).Pairwise fun a b => decide (key b ≤ key a) = true := by
    refine List.pairwise_of_forall_mem_list fun a ha b hb => ?_
    have hka := of_decide_eq_true (List.mem_filter.mp ha).2
    have hkb := of_decide_eq_true (List.mem_filter.mp hb).2
    rw [decide_eq_true_eq, hka, hkb]
  have hsub : (l.filter fun a => key a = s).Sublist (ranked key l) :=
    List.sublist_mergeSort (le_trans_key key) (le_total_key key) htied List.filter_sublist
  have hsub' := hsub.filter fun a => key a = s
  rw [List.filter_filter] at hsub'
  simp only [Bool.and_self] at hsub'
  exact (hsub'.eq_of_length ((ranked_perm key l).filter _).length_eq.symm).symm

/-- What is listed first with a key is the first of the best with it, if the cut is behind. -/
theorem best_find {s : β} {k : Nat} {l : List α} {x : α}
    (hx : l.find? (fun a => key a = s) = some x) (hk : l.countP (fun z => s < key z) < k) :
    (best key k l).find? (fun a => key a = s) = some x := by
  have hfirst : (ranked key l).find? (fun a => key a = s) = some x := by
    rw [← List.head?_filter, ranked_filter, List.head?_filter, hx]
  obtain ⟨hkey, before, after, hsplit, hbefore⟩ := List.find?_eq_some_iff_append.mp hfirst
  have hlen : before.length < k := by
    have hcount : before.countP (fun z => s < key z) = before.length := by
      refine List.countP_eq_length.mpr fun a ha => ?_
      have hpair := ranked_pairwise key l
      rw [hsplit, List.pairwise_append] at hpair
      have hle := hpair.2.2 a ha x List.mem_cons_self
      have hne : key a ≠ s := by simpa using hbefore a ha
      rw [of_decide_eq_true hkey] at hle
      exact decide_eq_true (lt_of_le_of_ne hle hne.symm)
    have hle : (ranked key l).countP (fun z => s < key z) = l.countP fun z => s < key z :=
      (ranked_perm key l).countP_eq _
    rw [hsplit, List.countP_append, hcount] at hle
    omega
  rw [best, hsplit, List.take_append, List.take_of_length_le (by omega), List.find?_append,
    List.find?_eq_none.mpr (by simpa using hbefore)]
  have htake : (x :: after).take (k - before.length) = x :: after.take (k - before.length - 1) := by
    cases hn : k - before.length with
    | zero => omega
    | succ n => rfl
  rw [htake, List.find?_cons, hkey]
  rfl

/-- Lists that tie in front of the cut and start the tie with another entry differ. -/
theorem best_ne {s : β} {k : Nat} {l l' : List α} {x y : α} (hxy : x ≠ y)
    (hx : l.find? (fun a => key a = s) = some x) (hy : l'.find? (fun a => key a = s) = some y)
    (hk : l.countP (fun z => s < key z) < k) (hk' : l'.countP (fun z => s < key z) < k) :
    best key k l ≠ best key k l' := by
  intro h
  have hfind := best_find hx hk
  rw [h, best_find hy hk'] at hfind
  exact hxy (Option.some.inj hfind).symm

/-- Two descending arrangements of the same entries begin alike up to the first tie. -/
theorem take_eq_of_tiesBelow {k : Nat} {l l' : List α} (hl : l.Pairwise fun a b => key b ≤ key a)
    (hl' : l'.Pairwise fun a b => key b ≤ key a) (hp : l.Perm l') (ht : TiesBelow key k l) :
    l.take k = l'.take k := by
  induction k generalizing l l' with
  | zero => rfl
  | succ k ih =>
    cases l with
    | nil => rw [hp.nil_eq]
    | cons a l =>
      cases l' with
      | nil => cases hp.eq_nil
      | cons b l' =>
        rw [List.pairwise_cons] at hl hl'
        have hab : a = b := by
          by_contra hne
          have hb : b ∈ a :: l := hp.mem_iff.mpr List.mem_cons_self
          have ha : a ∈ b :: l' := hp.mem_iff.mp List.mem_cons_self
          have hle : key b ≤ key a := hl.1 b (List.mem_of_ne_of_mem (Ne.symm hne) hb)
          have hge : key a ≤ key b := hl'.1 a (List.mem_of_ne_of_mem hne ha)
          have hfew := ht a List.mem_cons_self b hb hne (le_antisymm hge hle)
          -- nothing is before the first entry
          have hzero : (a :: l).countP (fun z => key a < key z) = 0 := by
            refine List.countP_eq_zero.mpr fun z hz => ?_
            rw [decide_eq_true_eq, not_lt]
            rcases List.mem_cons.mp hz with rfl | hz
            · exact le_refl _
            · exact hl.1 z hz
          omega
        subst hab
        rw [List.take_succ_cons, List.take_succ_cons]
        refine congrArg _ (ih hl.2 hl'.2 (List.Perm.cons_inv hp) ?_)
        intro x hx y hy hne htie
        have hk := ht x (List.mem_cons_of_mem _ hx) y (List.mem_cons_of_mem _ hy) hne htie
        rw [List.countP_cons] at hk
        split at hk
        · omega
        · omega

theorem TiesBelow.perm {k : Nat} {l l' : List α} (h : TiesBelow key k l) (hp : l.Perm l') :
    TiesBelow key k l' := by
  intro x hx y hy hne htie
  rw [← hp.countP_eq]
  exact h x (hp.mem_iff.mpr hx) y (hp.mem_iff.mpr hy) hne htie

theorem best_perm {k : Nat} {l l' : List α} (h : TiesBelow key k l) (hp : l.Perm l') :
    best key k l = best key k l' := by
  have hr := ranked_perm key l
  exact take_eq_of_tiesBelow (ranked_pairwise key l) (ranked_pairwise key l')
    ((hr.trans hp).trans (ranked_perm key l').symm) (h.perm hr.symm)

end Onisin.Lib
