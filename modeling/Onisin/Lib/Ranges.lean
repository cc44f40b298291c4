import Mathlib.Data.List.Basic
import Mathlib.Tactic.Ring

/-!
Half-open ranges of a list and writes into one. The same two operations model a
slice of a byte buffer, a positioned write into a file and an in-place slice
assignment into a device array.
-/

set_option autoImplicit false

namespace Onisin.Lib

variable {α : Type}

/-- The range `[a,b)` of a list, clipped at its end. -/
def sub (xs : List α) (a b : Nat) : List α := (xs.drop a).take (b - a)

theorem length_sub (xs : List α) (a b : Nat) (h : b ≤ xs.length) :
    (sub xs a b).length = b - a := by
  simp only [sub, List.length_take, List.length_drop]; omega

theorem sub_zero (xs : List α) (b : Nat) : sub xs 0 b = xs.take b := by simp [sub]

theorem sub_self (xs : List α) (a : Nat) : sub xs a a = [] := by simp [sub]

theorem sub_to_end (xs : List α) (a b : Nat) (h : xs.length ≤ b) :
    sub xs a b = xs.drop a := by
  apply List.take_of_length_le
  simp only [List.length_drop]; omega

theorem sub_append_sub (xs : List α) {a b c : Nat} (hab : a ≤ b) (hbc : b ≤ c) :
    sub xs a b ++ sub xs b c = sub xs a c := by
  have hb : xs.drop b = (xs.drop a).drop (b - a) := by
    rw [List.drop_drop]; congr 1; omega
  have hc : c - a = (b - a) + (c - b) := by omega
  rw [sub, sub, sub, hb, hc, List.take_add]

/-- Bytes appended behind a range do not change it. -/
theorem sub_append_left (xs ys : List α) (a b : Nat) (h : b ≤ xs.length) :
    sub (xs ++ ys) a b = sub xs a b := by
  by_cases ha : a ≤ xs.length
  · rw [sub, sub, List.drop_append_of_le_length ha]
    apply List.take_append_of_le_length
    simp only [List.length_drop]; omega
  · have hz : b - a = 0 := by omega
    simp [sub, hz]

/-- Every range of a truncated list that lies inside the cut is the original one. -/
theorem sub_take (xs : List α) (n a b : Nat) (h : b ≤ n) :
    sub (xs.take n) a b = sub xs a b := by
  rw [sub, sub, List.drop_take, List.take_take]
  congr 1; omega

theorem sub_mid (xs ys zs : List α) {a b : Nat} (ha : a = xs.length)
    (hb : b = xs.length + ys.length) : sub (xs ++ (ys ++ zs)) a b = ys := by
  subst ha hb
  simp [sub]

theorem sub_append_right (xs ys : List α) (a b : Nat) (h : xs.length ≤ a) :
    sub (xs ++ ys) a b = sub ys (a - xs.length) (b - xs.length) := by
  rw [sub, sub, List.drop_append, List.drop_eq_nil_of_le h, List.nil_append]
  congr 1; omega

theorem sub_sub (xs : List α) (o n a b : Nat) (h : b ≤ n) :
    sub (sub xs o (o + n)) a b = sub xs (o + a) (o + b) := by
  have hn : o + n - o = n := by omega
  rw [sub, sub, sub, hn, List.drop_take, List.drop_drop, List.take_take]
  congr 1; omega

/-- Write `ys` at position `off`, filling a gap behind the end with `pad`. -/
def overwrite (pad : α) (xs : List α) (off : Nat) (ys : List α) : List α :=
  xs.take off ++ List.replicate (off - xs.length) pad ++ ys ++ xs.drop (off + ys.length)

theorem length_overwrite (pad : α) (xs : List α) (off : Nat) (ys : List α) :
    (overwrite pad xs off ys).length = max xs.length (off + ys.length) := by
  simp only [overwrite, List.length_append, List.length_take, List.length_replicate,
    List.length_drop]
  omega

/-- A write inside or at the end of the list: what lies before and behind stays. -/
theorem overwrite_mid (pad : α) (xs old ys : List α) :
    overwrite pad (xs ++ old) xs.length ys = xs ++ ys ++ old.drop ys.length := by
  simp [overwrite, List.drop_append]

theorem overwrite_end (pad : α) (xs ys : List α) :
    overwrite pad xs xs.length ys = xs ++ ys := by
  have h := overwrite_mid pad xs [] ys
  simpa using h

/-- Overwriting the oldest cell of a ring and moving its head on drops the oldest item and
appends the new one. -/
theorem overwrite_rotate (pad : α) (b : List α) {i : Nat} (hi : i < b.length) (x : α) :
    (overwrite pad b i [x]).drop ((i + 1) % b.length) ++
      (overwrite pad b i [x]).take ((i + 1) % b.length) = (b.drop i ++ b.take i).drop 1 ++ [x] := by
  obtain ⟨p, y, q, rfl, hp⟩ : ∃ p y q, b = p ++ y :: q ∧ p.length = i :=
    ⟨b.take i, b[i], b.drop (i + 1), by simp,
      by rw [List.length_take]; omega⟩
  subst hp
  rw [overwrite_mid]
  by_cases hq : q = []
  · subst hq
    simp
  · have hlt : p.length + 1 < (p ++ y :: q).length := by
      have := List.length_pos_iff.mpr hq
      simp only [List.length_append, List.length_cons]
      omega
    have hd : p.drop (p.length + 1) = [] := List.drop_eq_nil_of_le (by omega)
    have ht : p.take (p.length + 1) = p := List.take_of_length_le (by omega)
    rw [Nat.mod_eq_of_lt hlt]
    simp [List.drop_append, List.take_append, hd, ht]

end Onisin.Lib
