import Onisin.Mem.Format

/-!
What the codec does, once for all callers: every decoder as a pure function of the
ranges it reads, and both directions of the round trip.
-/

set_option autoImplicit false

namespace Onisin.Mem
open Lib

/-! Times. -/

def InRange (t : DateTime) : Prop := -2^63 ≤ t ∧ t < 2^63

instance (t : DateTime) : Decidable (InRange t) := inferInstanceAs (Decidable (_ ∧ _))

theorem timestampNanosOpt_of_inRange {t : DateTime} (h : InRange t) :
    timestampNanosOpt t = some (Int64.ofInt t) := if_pos h

theorem nanosToTime_inRange (ns : Int64) : InRange (nanosToTime ns) :=
  ⟨ns.le_toInt, ns.toInt_lt⟩

theorem nanosToTime_timeToNanos {t : DateTime} (h : InRange t) :
    nanosToTime (timeToNanos t) = t := by
  simp only [timeToNanos, timestampNanosOpt_of_inRange h, Option.getD_some, nanosToTime]
  exact Int64.toInt_ofInt_of_le h.1 h.2

@[simp] theorem timeToNanos_nanosToTime (ns : Int64) : timeToNanos (nanosToTime ns) = ns := by
  rw [timeToNanos, timestampNanosOpt_of_inRange (nanosToTime_inRange ns)]
  exact Int64.ofInt_toInt ns

@[simp] theorem optTimeToNanos_nanosToOptTime (ns : Int64) :
    optTimeToNanos (nanosToOptTime ns) = ns := by
  by_cases h : ns = 0
  · simp [nanosToOptTime, optTimeToNanos, h]
  · simp [nanosToOptTime, optTimeToNanos, h]

theorem timeToNanos_ne_zero {t : DateTime} (h : InRange t) (h0 : t ≠ 0) : timeToNanos t ≠ 0 := by
  intro hz
  apply h0
  rw [← nanosToTime_timeToNanos h, hz]
  rfl

/-- A closing time that survives the sentinel: absent, or a non-epoch time in range. -/
def ClosedOk (t : Option DateTime) : Prop := ∀ u, t = some u → InRange u ∧ u ≠ 0

instance (t : Option DateTime) : Decidable (ClosedOk t) :=
  match t with
  | none => isTrue (by simp [ClosedOk])
  | some u => decidable_of_iff (InRange u ∧ u ≠ 0) (by simp [ClosedOk])

theorem nanosToOptTime_optTimeToNanos {t : Option DateTime} (h : ClosedOk t) :
    nanosToOptTime (optTimeToNanos t) = t := by
  cases t with
  | none => rfl
  | some u =>
    obtain ⟨hr, h0⟩ := h u rfl
    simp [optTimeToNanos, nanosToOptTime, timeToNanos_ne_zero hr h0, nanosToTime_timeToNanos hr]

/-! Text. -/

@[simp] theorem decodeUtf8_textBytes (s : String) : decodeUtf8 (textBytes s) = s := by
  have hb : (⟨(textBytes s).toArray⟩ : ByteArray) = s.toByteArray := by simp [textBytes]
  have hv : s.toByteArray.IsValidUTF8 := s.isValidUTF8
  simp only [decodeUtf8, hb, String.fromUTF8?, hv, dite_true, Option.getD_some]
  rfl

theorem textBytes_decodeUtf8 {b : Bytes} (h : ValidUtf8 b) : textBytes (decodeUtf8 b) = b := by
  have hv : ByteArray.IsValidUTF8 ⟨b.toArray⟩ := h
  simp [decodeUtf8, String.fromUTF8?, hv, textBytes, String.fromUTF8]

/-! Reads inside the buffer. -/

theorem slice_ok (buf : Bytes) {a b : Nat} (hab : a ≤ b) (hb : b ≤ buf.length) :
    slice buf a b = .ok (sub buf a b) := if_pos ⟨hab, hb⟩

theorem rdU8_ok (buf : Bytes) {i : Nat} (h : i + 1 ≤ buf.length) :
    rdU8 buf i = .ok (u8.dec (sub buf i (i + 1))) := by
  simp [rdU8, slice_ok buf (Nat.le_add_right i 1) h]

theorem rdU16_ok (buf : Bytes) {i : Nat} (h : i + 2 ≤ buf.length) :
    rdU16 buf i = .ok (u16.dec (sub buf i (i + 2))) := by
  simp [rdU16, slice_ok buf (Nat.le_add_right i 2) h]

theorem rdU32_ok (buf : Bytes) {i : Nat} (h : i + 4 ≤ buf.length) :
    rdU32 buf i = .ok (u32.dec (sub buf i (i + 4))) := by
  simp [rdU32, slice_ok buf (Nat.le_add_right i 4) h]

theorem rdU64_ok (buf : Bytes) {i : Nat} (h : i + 8 ≤ buf.length) :
    rdU64 buf i = .ok (u64.dec (sub buf i (i + 8))) := by
  simp [rdU64, slice_ok buf (Nat.le_add_right i 8) h]

theorem rdI64_ok (buf : Bytes) {i : Nat} (h : i + 8 ≤ buf.length) :
    rdI64 buf i = .ok (i64.dec (sub buf i (i + 8))) := by
  simp [rdI64, rdU64_ok buf h]; rfl

/-! The header. -/

/-- The header fields as ranges of the buffer. -/
def headerAt (buf : Bytes) : EventHeader where
  recordLen := u32.dec (sub buf 0 4)
  id := u64.dec (sub buf 4 12)
  streamId := u64.dec (sub buf 12 20)
  createdAt := i64.dec (sub buf 20 28)
  closedAt := i64.dec (sub buf 28 36)
  eventType := u8.dec (sub buf 36 37)
  outcome := u8.dec (sub buf 37 38)
  confidence := u8.dec (sub buf 38 39)
  flags := u8.dec (sub buf 39 40)
  trace := u8.dec (sub buf 40 41)
  refsCount := u16.dec (sub buf 41 43)
  contentLen := u16.dec (sub buf 43 45)
  topicLen := u16.dec (sub buf 45 47)
  costLen := u16.dec (sub buf 47 49)

theorem decodeHeader_ok (buf : Bytes) (h : eventHeaderSize ≤ buf.length) :
    decodeHeader buf (headerAt buf).recordLen = .ok (headerAt buf) := by
  simp only [eventHeaderSize] at h
  simp (disch := omega) only [decodeHeader, rdU8_ok, rdU16_ok, rdU64_ok, rdI64_ok]
  rfl

@[simp] theorem headerBytes_length (h : EventHeader) :
    (headerBytes h).length = eventHeaderSize := by
  simp [headerBytes, eventHeaderSize]

theorem headerAt_headerBytes (h : EventHeader) (rest : Bytes) :
    headerAt (headerBytes h ++ rest) = h := by
  simp [headerAt, headerBytes, sub_append_right, u8_dec_enc, u16_dec_enc, u32_dec_enc,
    u64_dec_enc, i64_dec_enc]

theorem headerBytes_headerAt (buf : Bytes) (h : eventHeaderSize ≤ buf.length) :
    headerBytes (headerAt buf) = sub buf 0 eventHeaderSize := by
  simp only [eventHeaderSize] at h ⊢
  simp (disch := omega) only [headerBytes, headerAt, u8_enc_dec, u16_enc_dec, u32_enc_dec,
    u64_enc_dec, i64_enc_dec, sub_append_sub]

/-! The body. -/

def refCodec : Codec Ref where
  width := refSize
  enc := encodeRef
  dec bs := ⟨u8.dec (sub bs 0 1), u64.dec (sub bs 1 9), u64.dec (sub bs 9 17)⟩
  length_enc r := by simp [encodeRef, refSize]
  dec_enc r := by
    have hl : sub (u64.enc r.targetOffsetCache) 0 8 = u64.enc r.targetOffsetCache := by
      rw [sub_to_end _ _ _ (by simp)]; rfl
    simp [encodeRef, sub_append_right, u8_dec_enc, u64_dec_enc, hl]
  enc_dec bs h := by
    simp only [refSize] at h
    simp (disch := omega) only [encodeRef, u8_enc_dec, u64_enc_dec, sub_append_sub]
    rw [sub_to_end _ _ _ (by omega), List.drop_zero]

@[simp] theorem refCodec_width : refCodec.width = 17 := rfl

theorem decodeRefs_ok (buf : Bytes) (n off : Nat) (h : off + n * refSize ≤ buf.length) :
    decodeRefs buf n off = .ok (refCodec.items buf n off, off + n * refSize) := by
  induction n generalizing off with
  | zero => simp [decodeRefs, Codec.items]
  | succ n ih =>
    simp only [refSize] at h ih ⊢
    have hn := ih (off + 17) (by omega)
    have hd : refCodec.dec (sub buf off (off + 17)) = ⟨u8.dec (sub buf off (off + 1)),
        u64.dec (sub buf (off + 1) (off + 9)), u64.dec (sub buf (off + 9) (off + 17))⟩ := by
      simp only [refCodec, sub_sub buf off 17 0 1 (by omega), sub_sub buf off 17 1 9 (by omega),
        sub_sub buf off 17 9 17 (by omega), Nat.add_zero]
    have he : off + 17 + n * 17 = off + (n+1) * 17 := by ring
    simp only [decodeRefs, refSize, rdU8_ok buf (i := off) (by omega),
      rdU64_ok buf (i := off + 1) (by omega), rdU64_ok buf (i := off + 9) (by omega), hn,
      Codec.items, refCodec_width, hd, he]
    rfl

theorem decodeVector_ok (buf : Bytes) (n off : Nat) (h : off + n * 4 ≤ buf.length) :
    decodeVector buf n off = .ok (u32.items buf n off) := by
  induction n generalizing off with
  | zero => rfl
  | succ n ih =>
    have hn := ih (off + 4) (by omega)
    simp only [decodeVector, rdU32_ok buf (i := off) (by omega), hn]
    rfl

def contentAt (buf : Bytes) : Nat := eventHeaderSize + (headerAt buf).refsCount.toNat * refSize
def topicAt (buf : Bytes) : Nat := contentAt buf + (headerAt buf).contentLen.toNat
def costAt (buf : Bytes) : Nat := topicAt buf + (headerAt buf).topicLen.toNat
def vectorAt (buf : Bytes) : Nat := costAt buf + (headerAt buf).costLen.toNat

/-- The three text fields of a record as the bytes that stand in the buffer. -/
def contentBytes (buf : Bytes) : Bytes := sub buf (contentAt buf) (topicAt buf)
def topicBytes (buf : Bytes) : Bytes := sub buf (topicAt buf) (costAt buf)
def costBytes (buf : Bytes) : Bytes := sub buf (costAt buf) (vectorAt buf)

def eventAt (buf : Bytes) (dim : UInt16) : Event where
  id := (headerAt buf).id
  streamId := (headerAt buf).streamId
  createdAt := nanosToTime (headerAt buf).createdAt
  closedAt := nanosToOptTime (headerAt buf).closedAt
  eventType := (headerAt buf).eventType
  outcome := (headerAt buf).outcome
  confidence := (headerAt buf).confidence
  flags := (headerAt buf).flags
  trace := (headerAt buf).trace
  refs := refCodec.items buf (headerAt buf).refsCount.toNat eventHeaderSize
  content := decodeUtf8 (contentBytes buf)
  topic := decodeUtf8 (topicBytes buf)
  cost := decodeUtf8 (costBytes buf)
  vector := u32.items buf dim.toNat (vectorAt buf)
  fileOffset := 0

theorem expected_eq (buf : Bytes) (dim : UInt16) :
    (headerAt buf).expected dim = vectorAt buf + dim.toNat * 4 := rfl

theorem decodeBody_ok (buf : Bytes) (dim : UInt16)
    (h : (headerAt buf).expected dim ≤ buf.length) :
    decodeBody buf dim (headerAt buf) = .ok (eventAt buf dim) := by
  rw [expected_eq] at h
  have h₁ : contentAt buf ≤ topicAt buf := Nat.le_add_right _ _
  have h₂ : topicAt buf ≤ costAt buf := Nat.le_add_right _ _
  have h₃ : costAt buf ≤ vectorAt buf := Nat.le_add_right _ _
  have hr := decodeRefs_ok buf (headerAt buf).refsCount.toNat eventHeaderSize
    (show contentAt buf ≤ buf.length by omega)
  have hc : slice buf (contentAt buf) (topicAt buf) = .ok (contentBytes buf) :=
    slice_ok buf h₁ (by omega)
  have ht : slice buf (topicAt buf) (costAt buf) = .ok (topicBytes buf) :=
    slice_ok buf h₂ (by omega)
  have hk : slice buf (costAt buf) (vectorAt buf) = .ok (costBytes buf) :=
    slice_ok buf h₃ (by omega)
  have hv := decodeVector_ok buf dim.toNat (vectorAt buf) h
  simp only [costAt, topicAt, vectorAt, contentAt] at hc ht hk hv
  simp only [decodeBody, hr, bind, Except.bind, hc, ht, hk, hv]
  rfl

/-- The decoder, read as three guards in front of a pure function of the buffer.
No branch is a panic: every range it touches lies inside the announced record. -/
theorem decodeEvent_eq (buf : Bytes) (dim : UInt16) :
    decodeEvent buf dim =
      if buf.length < eventHeaderSize then
        .error (.format (.shortBuffer eventHeaderSize buf.length))
      else if buf.length < (headerAt buf).recordLen.toNat then
        .error (.format (.shortBuffer (headerAt buf).recordLen.toNat buf.length))
      else if (headerAt buf).expected dim ≠ (headerAt buf).recordLen.toNat then
        .error (.format (.recordLen (headerAt buf).recordLen.toNat ((headerAt buf).expected dim)))
      else .ok (eventAt buf dim, (headerAt buf).recordLen.toNat) := by
  unfold decodeEvent
  split
  · rfl
  · rename_i h
    have hr : rdU32 buf 0 = .ok (headerAt buf).recordLen :=
      rdU32_ok buf (by simp only [eventHeaderSize] at h; omega)
    simp only [hr, bind, Except.bind, decodeHeader_ok buf (Nat.not_lt.mp h)]
    split
    · rfl
    · rename_i h₁
      split
      · rfl
      · rename_i h₂
        rw [decodeBody_ok buf dim (by omega)]
        rfl

end Onisin.Mem
