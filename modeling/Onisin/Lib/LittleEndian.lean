import Onisin.Lib.Ranges

/-!
Little-endian words of any width and lists of fixed-width items. The reader of an
item list takes a position and checks every range against the buffer, as an
indexed slice does in the modelled programs.
-/

set_option autoImplicit false

namespace Onisin.Lib

/-- The `w` low-order bytes of `n`, least significant first. -/
def leBytes : Nat → Nat → List UInt8
  | 0, _ => []
  | w+1, n => UInt8.ofNat n :: leBytes w (n / 256)

def leValue : List UInt8 → Nat
  | [] => 0
  | b :: bs => b.toNat + 256 * leValue bs

@[simp] theorem leBytes_length (w n : Nat) : (leBytes w n).length = w := by
  induction w generalizing n with
  | zero => rfl
  | succ w ih => simp [leBytes, ih]

theorem leValue_lt (bs : List UInt8) : leValue bs < 256 ^ bs.length := by
  induction bs with
  | nil => simp [leValue]
  | cons b bs ih =>
    have hb := b.toNat_lt
    simp only [leValue, List.length_cons, Nat.pow_succ]
    omega

theorem leValue_leBytes (w n : Nat) : leValue (leBytes w n) = n % 256 ^ w := by
  induction w generalizing n with
  | zero => simp [leBytes, leValue, Nat.mod_one]
  | succ w ih =>
    have h := Nat.mod_mul (x := n) (a := 256) (b := 256 ^ w)
    rw [Nat.pow_succ, Nat.mul_comm (256 ^ w) 256, h]
    simp [leBytes, leValue, ih]

theorem leValue_leBytes_of_lt {w n : Nat} (h : n < 256 ^ w) : leValue (leBytes w n) = n := by
  rw [leValue_leBytes, Nat.mod_eq_of_lt h]

theorem leBytes_leValue (bs : List UInt8) : leBytes bs.length (leValue bs) = bs := by
  induction bs with
  | nil => rfl
  | cons b bs ih =>
    have hb := b.toNat_lt
    have hd : (b.toNat + 256 * leValue bs) / 256 = leValue bs := by omega
    have hm : UInt8.ofNat (b.toNat + 256 * leValue bs) = b := by
      apply UInt8.toNat_inj.mp
      simp only [UInt8.toNat_ofNat']
      omega
    simp only [List.length_cons, leBytes, leValue, hd, hm, ih]

theorem leBytes_leValue_of_length {w : Nat} {bs : List UInt8} (h : bs.length = w) :
    leBytes w (leValue bs) = bs := by
  subst h; exact leBytes_leValue bs

/-- A fixed-width binary codec: encoding and decoding are inverse on words of
exactly `width` bytes, so no byte of a word is unused. -/
structure Codec (β : Type) where
  width : Nat
  enc : β → List UInt8
  dec : List UInt8 → β
  length_enc : ∀ x, (enc x).length = width
  dec_enc : ∀ x, dec (enc x) = x
  enc_dec : ∀ bs, bs.length = width → enc (dec bs) = bs

attribute [simp] Codec.length_enc Codec.dec_enc

def u8 : Codec UInt8 where
  width := 1
  enc x := leBytes 1 x.toNat
  dec bs := UInt8.ofNat (leValue bs)
  length_enc _ := leBytes_length 1 _
  dec_enc x := by rw [leValue_leBytes_of_lt (by have := x.toNat_lt; omega), UInt8.ofNat_toNat]
  enc_dec bs h := by
    have hl := leValue_lt bs
    rw [h] at hl
    rw [UInt8.toNat_ofNat_of_lt' hl]
    exact leBytes_leValue_of_length h

def u16 : Codec UInt16 where
  width := 2
  enc x := leBytes 2 x.toNat
  dec bs := UInt16.ofNat (leValue bs)
  length_enc _ := leBytes_length 2 _
  dec_enc x := by rw [leValue_leBytes_of_lt (by have := x.toNat_lt; omega), UInt16.ofNat_toNat]
  enc_dec bs h := by
    have hl := leValue_lt bs
    rw [h] at hl
    rw [UInt16.toNat_ofNat_of_lt' hl]
    exact leBytes_leValue_of_length h

def u32 : Codec UInt32 where
  width := 4
  enc x := leBytes 4 x.toNat
  dec bs := UInt32.ofNat (leValue bs)
  length_enc _ := leBytes_length 4 _
  dec_enc x := by rw [leValue_leBytes_of_lt (by have := x.toNat_lt; omega), UInt32.ofNat_toNat]
  enc_dec bs h := by
    have hl := leValue_lt bs
    rw [h] at hl
    rw [UInt32.toNat_ofNat_of_lt' hl]
    exact leBytes_leValue_of_length h

def u64 : Codec UInt64 where
  width := 8
  enc x := leBytes 8 x.toNat
  dec bs := UInt64.ofNat (leValue bs)
  length_enc _ := leBytes_length 8 _
  dec_enc x := by rw [leValue_leBytes_of_lt (by have := x.toNat_lt; omega), UInt64.ofNat_toNat]
  enc_dec bs h := by
    have hl := leValue_lt bs
    rw [h] at hl
    rw [UInt64.toNat_ofNat_of_lt' hl]
    exact leBytes_leValue_of_length h

/-- A signed word travels as the unsigned word with the same bits. -/
def i64 : Codec Int64 where
  width := 8
  enc x := u64.enc x.toUInt64
  dec bs := (u64.dec bs).toInt64
  length_enc x := u64.length_enc x.toUInt64
  dec_enc x := by simp
  enc_dec bs h := by
    rw [UInt64.toUInt64_toInt64]
    exact u64.enc_dec bs h

theorem Codec.enc_dec_sub {β : Type} (c : Codec β) (buf : List UInt8) {a b : Nat}
    (hb : b ≤ buf.length) (hw : b - a = c.width) : c.enc (c.dec (sub buf a b)) = sub buf a b :=
  c.enc_dec _ (by rw [length_sub _ _ _ hb, hw])

theorem Codec.dec_sub_enc {β : Type} (c : Codec β) (x : β) (rest : List UInt8) {n : Nat}
    (hn : n = c.width) : c.dec (sub (c.enc x ++ rest) 0 n) = x := by
  have hs : sub ([] ++ (c.enc x ++ rest)) 0 n = c.enc x := sub_mid _ _ _ rfl (by simp [hn])
  rw [List.nil_append] at hs
  rw [hs, c.dec_enc]

@[simp] theorem u8_width : u8.width = 1 := rfl

theorem u8_dec_enc (x : UInt8) (rest : List UInt8) :
    u8.dec (sub (u8.enc x ++ rest) 0 1) = x := u8.dec_sub_enc x rest rfl

theorem u8_enc_dec (buf : List UInt8) {a b : Nat} (hb : b ≤ buf.length) (hw : b = a + 1) :
    u8.enc (u8.dec (sub buf a b)) = sub buf a b := by
  apply u8.enc_dec_sub buf hb
  rw [u8_width]; omega

@[simp] theorem u16_width : u16.width = 2 := rfl

theorem u16_dec_enc (x : UInt16) (rest : List UInt8) :
    u16.dec (sub (u16.enc x ++ rest) 0 2) = x := u16.dec_sub_enc x rest rfl

theorem u16_enc_dec (buf : List UInt8) {a b : Nat} (hb : b ≤ buf.length) (hw : b = a + 2) :
    u16.enc (u16.dec (sub buf a b)) = sub buf a b := by
  apply u16.enc_dec_sub buf hb
  rw [u16_width]; omega

@[simp] theorem u32_width : u32.width = 4 := rfl

theorem u32_dec_enc (x : UInt32) (rest : List UInt8) :
    u32.dec (sub (u32.enc x ++ rest) 0 4) = x := u32.dec_sub_enc x rest rfl

theorem u32_enc_dec (buf : List UInt8) {a b : Nat} (hb : b ≤ buf.length) (hw : b = a + 4) :
    u32.enc (u32.dec (sub buf a b)) = sub buf a b := by
  apply u32.enc_dec_sub buf hb
  rw [u32_width]; omega

@[simp] theorem u64_width : u64.width = 8 := rfl

theorem u64_dec_enc (x : UInt64) (rest : List UInt8) :
    u64.dec (sub (u64.enc x ++ rest) 0 8) = x := u64.dec_sub_enc x rest rfl

theorem u64_enc_dec (buf : List UInt8) {a b : Nat} (hb : b ≤ buf.length) (hw : b = a + 8) :
    u64.enc (u64.dec (sub buf a b)) = sub buf a b := by
  apply u64.enc_dec_sub buf hb
  rw [u64_width]; omega

@[simp] theorem i64_width : i64.width = 8 := rfl

theorem i64_dec_enc (x : Int64) (rest : List UInt8) :
    i64.dec (sub (i64.enc x ++ rest) 0 8) = x := i64.dec_sub_enc x rest rfl

theorem i64_enc_dec (buf : List UInt8) {a b : Nat} (hb : b ≤ buf.length) (hw : b = a + 8) :
    i64.enc (i64.dec (sub buf a b)) = sub buf a b := by
  apply i64.enc_dec_sub buf hb
  rw [i64_width]; omega

/-- `n` items of a codec read one after the other from position `off`. -/
def Codec.items {β : Type} (c : Codec β) (buf : List UInt8) : Nat → Nat → List β
  | 0, _ => []
  | n+1, off => c.dec (sub buf off (off + c.width)) :: c.items buf n (off + c.width)

def Codec.encAll {β : Type} (c : Codec β) (xs : List β) : List UInt8 := xs.flatMap c.enc

@[simp] theorem Codec.encAll_length {β : Type} (c : Codec β) (xs : List β) :
    (c.encAll xs).length = xs.length * c.width := by
  induction xs with
  | nil => simp [encAll]
  | cons x xs ih =>
    simp only [encAll, List.flatMap_cons, List.length_append, List.length_cons, length_enc] at *
    rw [ih]; ring

@[simp] theorem Codec.items_length {β : Type} (c : Codec β) (buf : List UInt8) (n off : Nat) :
    (c.items buf n off).length = n := by
  induction n generalizing off with
  | zero => rfl
  | succ n ih => simp [items, ih]

theorem Codec.items_encAll {β : Type} (c : Codec β) (pre : List UInt8) (xs : List β)
    (post : List UInt8) :
    c.items (pre ++ (c.encAll xs ++ post)) xs.length pre.length = xs := by
  induction xs generalizing pre with
  | nil => rfl
  | cons x xs ih =>
    have hw : c.width = (c.enc x).length := (c.length_enc x).symm
    have hs : sub (pre ++ (c.enc x ++ (c.encAll xs ++ post))) pre.length (pre.length + c.width)
        = c.enc x := sub_mid _ _ _ rfl (by rw [hw])
    have ht := ih (pre ++ c.enc x)
    rw [List.length_append, ← hw, List.append_assoc] at ht
    simp only [encAll, List.flatMap_cons, List.append_assoc, List.length_cons, items] at *
    rw [hs, ht, c.dec_enc]

theorem Codec.encAll_items {β : Type} (c : Codec β) (buf : List UInt8) (n off : Nat)
    (h : off + n * c.width ≤ buf.length) :
    c.encAll (c.items buf n off) = sub buf off (off + n * c.width) := by
  induction n generalizing off with
  | zero => simp [items, encAll, sub_self]
  | succ n ih =>
    have hm : (n+1) * c.width = c.width + n * c.width := by ring
    have hn := ih (off + c.width) (by omega)
    have hf := c.enc_dec_sub buf (a := off) (b := off + c.width) (by omega) (by omega)
    rw [hm, ← Nat.add_assoc, ← sub_append_sub buf (b := off + c.width) (by omega) (by omega), ← hn]
    simp only [items, encAll, List.flatMap_cons, hf]

end Onisin.Lib
