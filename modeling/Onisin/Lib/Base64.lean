import Mathlib.Data.List.GetD
import Onisin.Lib.Text

/-!
Base64 with the alphabet for URLs and without padding. A decoder that accepts only what an
encoder writes: no character outside the alphabet, no lone character at the end, and zeros in
the bits that belong to no byte.
-/

set_option autoImplicit false

namespace Onisin.Lib

def base64Alphabet : Text := "ABCDEFGHIJKLMNOPQRSTUVWXYZabcdefghijklmnopqrstuvwxyz0123456789-_".toList

def sextetChar (n : Nat) : Char := base64Alphabet.getD n 'A'

def sextetValue (c : Char) : Option Nat := base64Alphabet.findIdx? (· == c)

def base64Encode : List UInt8 → Text
  | [] => []
  | [a] => [sextetChar (a.toNat / 4), sextetChar (a.toNat % 4 * 16)]
  | [a, b] =>
    [sextetChar (a.toNat / 4), sextetChar (a.toNat % 4 * 16 + b.toNat / 16),
      sextetChar (b.toNat % 16 * 4)]
  | a :: b :: c :: rest =>
    [sextetChar (a.toNat / 4), sextetChar (a.toNat % 4 * 16 + b.toNat / 16),
      sextetChar (b.toNat % 16 * 4 + c.toNat / 64), sextetChar (c.toNat % 64)] ++ base64Encode rest

def base64Decode : Text → Option (List UInt8)
  | [] => some []
  | [_] => none
  | [p, q] => do
    let p ← sextetValue p
    let q ← sextetValue q
    if q % 16 = 0 then some [UInt8.ofNat (p * 4 + q / 16)] else none
  | [p, q, r] => do
    let p ← sextetValue p
    let q ← sextetValue q
    let r ← sextetValue r
    if r % 4 = 0 then some [UInt8.ofNat (p * 4 + q / 16), UInt8.ofNat (q % 16 * 16 + r / 4)] else none
  | p :: q :: r :: s :: rest => do
    let p ← sextetValue p
    let q ← sextetValue q
    let r ← sextetValue r
    let s ← sextetValue s
    let bytes ← base64Decode rest
    return [UInt8.ofNat (p * 4 + q / 16), UInt8.ofNat (q % 16 * 16 + r / 4),
      UInt8.ofNat (r % 4 * 64 + s)] ++ bytes

theorem sextetValue_char : ∀ n < 64, sextetValue (sextetChar n) = some n := by decide

theorem ofNat_of_eq {a : UInt8} {n : Nat} (h : n = a.toNat) : UInt8.ofNat n = a := by
  rw [h, UInt8.ofNat_toNat]

theorem base64Decode_encode (bytes : List UInt8) : base64Decode (base64Encode bytes) = some bytes := by
  fun_induction base64Encode bytes with
  | case1 => rfl
  | case2 a =>
    have ha := a.toNat_lt
    have hp := sextetValue_char (a.toNat / 4) (by omega)
    have hq := sextetValue_char (a.toNat % 4 * 16) (by omega)
    have hbyte := ofNat_of_eq (show a.toNat / 4 * 4 + a.toNat % 4 * 16 / 16 = a.toNat by omega)
    simp only [base64Decode, hp, hq, Option.bind_eq_bind, Option.bind_some, Nat.mul_mod_left, if_true, hbyte]
  | case3 a b =>
    have ha := a.toNat_lt
    have hb := b.toNat_lt
    have hp := sextetValue_char (a.toNat / 4) (by omega)
    have hq := sextetValue_char (a.toNat % 4 * 16 + b.toNat / 16) (by omega)
    have hr := sextetValue_char (b.toNat % 16 * 4) (by omega)
    have hfirst := ofNat_of_eq
      (show a.toNat / 4 * 4 + (a.toNat % 4 * 16 + b.toNat / 16) / 16 = a.toNat by omega)
    have hsecond := ofNat_of_eq (show (a.toNat % 4 * 16 + b.toNat / 16) % 16 * 16 +
      b.toNat % 16 * 4 / 4 = b.toNat by omega)
    simp only [base64Decode, hp, hq, hr, Option.bind_eq_bind, Option.bind_some, Nat.mul_mod_left, if_true,
      hfirst, hsecond]
  | case4 a b c rest ih =>
    have ha := a.toNat_lt
    have hb := b.toNat_lt
    have hc := c.toNat_lt
    have hp := sextetValue_char (a.toNat / 4) (by omega)
    have hq := sextetValue_char (a.toNat % 4 * 16 + b.toNat / 16) (by omega)
    have hr := sextetValue_char (b.toNat % 16 * 4 + c.toNat / 64) (by omega)
    have hs := sextetValue_char (c.toNat % 64) (by omega)
    have hfirst := ofNat_of_eq
      (show a.toNat / 4 * 4 + (a.toNat % 4 * 16 + b.toNat / 16) / 16 = a.toNat by omega)
    have hsecond := ofNat_of_eq (show (a.toNat % 4 * 16 + b.toNat / 16) % 16 * 16 +
      (b.toNat % 16 * 4 + c.toNat / 64) / 4 = b.toNat by omega)
    have hthird := ofNat_of_eq (show (b.toNat % 16 * 4 + c.toNat / 64) % 4 * 64 + c.toNat % 64 =
      c.toNat by omega)
    simp only [List.cons_append, List.nil_append, base64Decode, hp, hq, hr, hs, ih, Option.bind_eq_bind,
      Option.bind_some, Option.pure_def, hfirst, hsecond, hthird]

theorem sextetChar_mem (n : Nat) : sextetChar n ∈ base64Alphabet := by
  unfold sextetChar
  rcases Nat.lt_or_ge n base64Alphabet.length with hn | hn
  · rw [List.getD_eq_getElem _ _ hn]
    exact List.getElem_mem hn
  · rw [List.getD_eq_default _ _ hn]
    decide

/-- An encoded text has only characters of the alphabet. -/
theorem base64Encode_mem {bytes : List UInt8} {c : Char} (h : c ∈ base64Encode bytes) :
    c ∈ base64Alphabet := by
  fun_induction base64Encode bytes with
  | case1 => cases h
  | case2 a =>
    simp only [List.mem_cons, List.not_mem_nil, or_false] at h
    rcases h with rfl | rfl <;> exact sextetChar_mem _
  | case3 a b =>
    simp only [List.mem_cons, List.not_mem_nil, or_false] at h
    rcases h with rfl | rfl | rfl <;> exact sextetChar_mem _
  | case4 a b d rest ih =>
    simp only [List.mem_append, List.mem_cons, List.not_mem_nil, or_false] at h
    rcases h with (rfl | rfl | rfl | rfl) | h
    · exact sextetChar_mem _
    · exact sextetChar_mem _
    · exact sextetChar_mem _
    · exact sextetChar_mem _
    · exact ih h

theorem not_mem_base64Encode {bytes : List UInt8} {c : Char} (h : base64Alphabet.contains c = false) :
    c ∉ base64Encode bytes := by
  intro hmem
  rw [List.contains_iff_mem.mpr (base64Encode_mem hmem)] at h
  cases h

end Onisin.Lib
