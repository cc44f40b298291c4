import Onisin.Lib.Text

/-!
Reading bytes as UTF-8. The reading is exact: the bytes that are accepted are the UTF-8 form of
what they are read as.
-/

set_option autoImplicit false

namespace Onisin.Lib

def fromUtf8 (b : List UInt8) : Option Text := (ByteArray.mk b.toArray).utf8Decode?.map Array.toList

theorem utf8Encode_eq (t : Text) : t.utf8Encode = ⟨(utf8 t).toArray⟩ := by
  rw [List.utf8Encode, utf8]
  exact ByteArray.ext (by simp)

theorem fromUtf8_utf8 (t : Text) : fromUtf8 (utf8 t) = some t := by
  rw [fromUtf8, ← utf8Encode_eq, List.utf8Decode?_utf8Encode]
  rfl

theorem fromUtf8_eq_some {b : List UInt8} {t : Text} : fromUtf8 b = some t ↔ utf8 t = b := by
  constructor
  · intro h
    obtain ⟨chars, hchars, rfl⟩ := Option.map_eq_some_iff.mp h
    have hsome : (ByteArray.mk b.toArray).utf8Decode?.isSome := by rw [hchars]; rfl
    have hencode := ByteArray.utf8Encode_get_utf8Decode? (h := hsome)
    simp only [hchars, Option.get_some] at hencode
    rw [utf8Encode_eq] at hencode
    have hdata := congrArg (fun a => a.data.toList) hencode
    simpa using hdata
  · rintro rfl
    exact fromUtf8_utf8 t

theorem length_le_utf8 (t : Text) : t.length ≤ (utf8 t).length := by
  induction t with
  | nil => exact Nat.le_refl _
  | cons c t ih =>
    have hc : 0 < (String.utf8EncodeChar c).length := by
      rw [String.length_utf8EncodeChar]
      exact c.utf8Size_pos
    rw [utf8_cons, List.length_append, List.length_cons]
    omega

/-! Which bytes a character has. -/

theorem utf8EncodeChar_ascii {c : Char} (h : c.toNat < 128) :
    String.utf8EncodeChar c = [UInt8.ofNat c.toNat] := by
  unfold String.utf8EncodeChar
  exact if_pos (Nat.le_of_lt_succ h)

theorem le_of_mem_utf8EncodeChar {c : Char} {b : UInt8} (h : 128 ≤ c.toNat)
    (hb : b ∈ String.utf8EncodeChar c) : 128 ≤ b.toNat := by
  have hno : ¬ c.val.toNat ≤ 0x7f := by
    rw [Nat.not_le]
    exact h
  unfold String.utf8EncodeChar at hb
  dsimp only at hb
  rw [if_neg hno] at hb
  repeat' split at hb
  all_goals
    simp only [List.mem_cons, List.not_mem_nil, or_false] at hb
    rcases hb with rfl | rfl | rfl | rfl
  all_goals
    rw [UInt8.toNat_ofNat']
    omega

theorem mem_utf8_of_ascii {t : Text} {b : UInt8} (h : ∀ c ∈ t, c.toNat < 128) (hb : b ∈ utf8 t) :
    ∃ c ∈ t, b.toNat = c.toNat := by
  obtain ⟨c, hc, hb⟩ := List.mem_flatMap.mp hb
  rw [utf8EncodeChar_ascii (h c hc), List.mem_singleton] at hb
  refine ⟨c, hc, ?_⟩
  rw [hb, UInt8.toNat_ofNat', Nat.mod_eq_of_lt (Nat.lt_trans (h c hc) (by decide))]

end Onisin.Lib
