import Onisin.Mem.FormatLaws

/-!
Both directions of the event codec: decoding what was encoded, and encoding what was
decoded. Reading stops at the announced length, so bytes behind a record never matter
and a proper prefix of a record is never accepted.
-/

set_option autoImplicit false

namespace Onisin.Mem
open Lib

/-- The inputs `encodeEvent` accepts. -/
structure Encodable (ev : Event) (dim : UInt16) : Prop where
  refs : ev.refs.length ≤ maxFieldLen
  content : (textBytes ev.content).length ≤ maxFieldLen
  topic : (textBytes ev.topic).length ≤ maxFieldLen
  cost : (textBytes ev.cost).length ≤ maxFieldLen
  vector : ev.vector.length = dim.toNat

/-- The record of an event, header first. -/
def recordBytes (ev : Event) (dim : UInt16) : Bytes :=
  headerBytes (eventHeader ev dim) ++ (refCodec.encAll ev.refs ++ (textBytes ev.content ++
    (textBytes ev.topic ++ (textBytes ev.cost ++ u32.encAll ev.vector))))

theorem recordBytes_length {ev : Event} {dim : UInt16} (h : ev.vector.length = dim.toNat) :
    (recordBytes ev dim).length = eventRecordSize ev dim := by
  simp [recordBytes, eventRecordSize, refSize, h]
  omega

theorem encodeEvent_eq_ok {ev : Event} {dim : UInt16} {b : Bytes} :
    encodeEvent ev dim = .ok b ↔ Encodable ev dim ∧ b = recordBytes ev dim := by
  constructor
  · intro h
    unfold encodeEvent at h
    split at h
    · cases h
    split at h
    · cases h
    split at h
    · cases h
    split at h
    · cases h
    split at h
    · cases h
    rename_i hr hc ht hk hv
    dsimp only at h
    split at h
    · cases h
    · injection h with h
      exact ⟨⟨Nat.not_lt.mp hr, Nat.not_lt.mp hc, Nat.not_lt.mp ht, Nat.not_lt.mp hk,
        Decidable.not_not.mp hv⟩, h.symm⟩
  · rintro ⟨⟨hr, hc, ht, hk, hv⟩, rfl⟩
    have hl := recordBytes_length hv
    simp only [encodeEvent, Nat.not_lt.mpr hr, Nat.not_lt.mpr hc, Nat.not_lt.mpr ht,
      Nat.not_lt.mpr hk, hv, if_false, ne_eq, not_true_eq_false]
    exact if_neg (not_not.mpr hl)

theorem Encodable.size_le {ev : Event} {dim : UInt16} (h : Encodable ev dim) :
    eventRecordSize ev dim ≤ 1572889 := by
  have hd := dim.toNat_lt
  have ⟨hr, hc, ht, hk, _⟩ := h
  simp only [maxFieldLen] at hr hc ht hk
  simp only [eventRecordSize, eventHeaderSize, refSize]
  omega

theorem Encodable.header_le (ev : Event) (dim : UInt16) :
    eventHeaderSize ≤ eventRecordSize ev dim := by
  simp only [eventRecordSize]; omega

theorem Encodable.record_ge {ev : Event} {dim : UInt16} (h : Encodable ev dim) :
    eventHeaderSize ≤ (recordBytes ev dim).length := by
  rw [recordBytes_length h.vector]
  exact Encodable.header_le ev dim

theorem Encodable.record_pos {ev : Event} {dim : UInt16} (h : Encodable ev dim) :
    0 < (recordBytes ev dim).length :=
  Nat.lt_of_lt_of_le (by decide) h.record_ge

theorem Encodable.recordLen {ev : Event} {dim : UInt16} (h : Encodable ev dim) :
    (eventHeader ev dim).recordLen.toNat = eventRecordSize ev dim := by
  have := h.size_le
  exact UInt32.toNat_ofNat_of_lt' (by simp only [UInt32.size]; omega)

theorem toNat_u16 {n : Nat} (h : n ≤ maxFieldLen) : (UInt16.ofNat n).toNat = n :=
  UInt16.toNat_ofNat_of_lt' (by simp only [maxFieldLen] at h; simp only [UInt16.size]; omega)

theorem Encodable.expected {ev : Event} {dim : UInt16} (h : Encodable ev dim) :
    (eventHeader ev dim).expected dim = eventRecordSize ev dim := by
  simp only [EventHeader.expected, eventHeader, toNat_u16 h.refs, toNat_u16 h.content,
    toNat_u16 h.topic, toNat_u16 h.cost, eventRecordSize]

/-- An event with nothing in it but its id. -/
def blankEvent (id : UInt64) : Event where
  id := id
  streamId := 0
  createdAt := 1
  closedAt := none
  eventType := 0
  outcome := 0
  confidence := 0
  flags := 0
  trace := 0
  refs := []
  content := ""
  topic := ""
  cost := ""
  vector := []
  fileOffset := 0

theorem blankEvent_encodable (id : UInt64) : Encodable (blankEvent id) 0 := by
  constructor <;> simp [blankEvent, textBytes]

theorem blankEvent_length (id : UInt64) : (recordBytes (blankEvent id) 0).length = eventHeaderSize := by
  rw [recordBytes_length rfl]
  simp [eventRecordSize, blankEvent, textBytes]

/-- What a stored event reads back as: times out of range and an epoch closing time
collapse to the sentinel, and the file offset is not part of the record. -/
def Event.stored (ev : Event) : Event :=
  { ev with
    createdAt := nanosToTime (timeToNanos ev.createdAt)
    closedAt := nanosToOptTime (optTimeToNanos ev.closedAt)
    fileOffset := 0 }

theorem headerAt_recordBytes (ev : Event) (dim : UInt16) (rest : Bytes) :
    headerAt (recordBytes ev dim ++ rest) = eventHeader ev dim := by
  rw [recordBytes, List.append_assoc, headerAt_headerBytes]

theorem eventAt_recordBytes {ev : Event} {dim : UInt16} (h : Encodable ev dim) (rest : Bytes) :
    eventAt (recordBytes ev dim ++ rest) dim = ev.stored := by
  have hh := headerAt_recordBytes ev dim rest
  have hr : (eventHeader ev dim).refsCount.toNat = ev.refs.length := toNat_u16 h.refs
  have hc : (eventHeader ev dim).contentLen.toNat = (textBytes ev.content).length :=
    toNat_u16 h.content
  have ht : (eventHeader ev dim).topicLen.toNat = (textBytes ev.topic).length :=
    toNat_u16 h.topic
  have hk : (eventHeader ev dim).costLen.toNat = (textBytes ev.cost).length := toNat_u16 h.cost
  -- the record as one chain of pieces; every range below is one of its links
  let H := headerBytes (eventHeader ev dim)
  let R := refCodec.encAll ev.refs
  let C := textBytes ev.content
  let T := textBytes ev.topic
  let K := textBytes ev.cost
  let V := u32.encAll ev.vector
  have hb : recordBytes ev dim ++ rest = H ++ (R ++ (C ++ (T ++ (K ++ (V ++ rest))))) := by
    simp only [recordBytes, List.append_assoc, H, R, C, T, K, V]
  have h₁ : contentAt (recordBytes ev dim ++ rest) = (H ++ R).length := by
    simp [contentAt, hh, hr, H, R, refSize]
  have h₂ : topicAt (recordBytes ev dim ++ rest) = (H ++ R ++ C).length := by
    rw [topicAt, h₁, hh, hc]; simp [C]; omega
  have h₃ : costAt (recordBytes ev dim ++ rest) = (H ++ R ++ C ++ T).length := by
    rw [costAt, h₂, hh, ht]; simp [T]; omega
  have h₄ : vectorAt (recordBytes ev dim ++ rest) = (H ++ R ++ C ++ T ++ K).length := by
    rw [vectorAt, h₃, hh, hk]; simp [K]; omega
  have e₁ : contentBytes (recordBytes ev dim ++ rest) = C := by
    rw [contentBytes, h₁, h₂, hb]
    have := sub_mid (H ++ R) C (T ++ (K ++ (V ++ rest))) rfl List.length_append
    simpa using this
  have e₂ : topicBytes (recordBytes ev dim ++ rest) = T := by
    rw [topicBytes, h₂, h₃, hb]
    have := sub_mid (H ++ R ++ C) T (K ++ (V ++ rest)) rfl List.length_append
    simpa using this
  have e₃ : costBytes (recordBytes ev dim ++ rest) = K := by
    rw [costBytes, h₃, h₄, hb]
    have := sub_mid (H ++ R ++ C ++ T) K (V ++ rest) rfl List.length_append
    simpa using this
  have e₄ : refCodec.items (recordBytes ev dim ++ rest) ev.refs.length eventHeaderSize
      = ev.refs := by
    have := refCodec.items_encAll H ev.refs (C ++ (T ++ (K ++ (V ++ rest))))
    rw [hb]
    simpa [H] using this
  have e₅ : u32.items (recordBytes ev dim ++ rest) dim.toNat
      (vectorAt (recordBytes ev dim ++ rest)) = ev.vector := by
    have := u32.items_encAll (H ++ R ++ C ++ T ++ K) ev.vector rest
    rw [h₄, hb, ← h.vector]
    simpa using this
  simp only [eventAt, hh, hr, e₁, e₂, e₃, e₄, e₅, C, T, K, decodeUtf8_textBytes]
  rfl

theorem decodeEvent_recordBytes {ev : Event} {dim : UInt16} (h : Encodable ev dim)
    (rest : Bytes) :
    decodeEvent (recordBytes ev dim ++ rest) dim =
      .ok (ev.stored, (recordBytes ev dim).length) := by
  have hl := recordBytes_length h.vector
  have hs := Encodable.header_le ev dim
  rw [decodeEvent_eq, headerAt_recordBytes, h.recordLen, h.expected, eventAt_recordBytes h,
    if_neg, if_neg, if_neg, hl]
  · simp
  · rw [List.length_append, hl]; omega
  · rw [List.length_append, hl]; omega

/-- A record cut anywhere before its end is refused. -/
theorem decodeEvent_take {ev : Event} {dim : UInt16} (h : Encodable ev dim) {p : Nat}
    (hp : p < (recordBytes ev dim).length) :
    ∃ e, decodeEvent ((recordBytes ev dim).take p) dim = .error (.format e) := by
  have hl := recordBytes_length h.vector
  rw [decodeEvent_eq, List.length_take_of_le (Nat.le_of_lt hp)]
  by_cases h49 : p < eventHeaderSize
  · exact ⟨_, if_pos h49⟩
  · have hh : headerAt ((recordBytes ev dim).take p) = eventHeader ev dim := by
      rw [← headerAt_recordBytes ev dim [], List.append_nil]
      simp only [eventHeaderSize] at h49
      simp (disch := omega) only [headerAt, sub_take]
    rw [if_neg h49, hh, h.recordLen, if_pos (by omega)]
    exact ⟨_, rfl⟩

/-- What an accepted buffer looks like. -/
theorem decodeEvent_sound {buf : Bytes} {dim : UInt16} {ev : Event} {n : Nat}
    (h : decodeEvent buf dim = .ok (ev, n)) :
    n = (headerAt buf).recordLen.toNat ∧ (headerAt buf).expected dim = n ∧
      eventHeaderSize ≤ n ∧ n ≤ buf.length ∧ ev = eventAt buf dim := by
  rw [decodeEvent_eq] at h
  split at h
  · cases h
  split at h
  · cases h
  split at h
  · cases h
  rename_i h₁ h₂ h₃
  injection h with h
  injection h with hev hn
  have he : (headerAt buf).expected dim = n := by
    rw [← hn]; exact Decidable.not_not.mp h₃
  refine ⟨hn.symm, he, ?_, by omega, hev.symm⟩
  rw [← he, expected_eq]
  simp only [vectorAt, costAt, topicAt, contentAt]
  omega

theorem ofNat_toNat_u16 (x : UInt16) : UInt16.ofNat x.toNat = x := UInt16.ofNat_toNat

/-- Encoding the decoded event writes the record's own bytes, provided lossy decoding
replaced nothing. -/
theorem recordBytes_eventAt {buf : Bytes} {dim : UInt16}
    (hlen : (headerAt buf).expected dim ≤ buf.length)
    (hrec : (headerAt buf).expected dim = (headerAt buf).recordLen.toNat)
    (hc : ValidUtf8 (contentBytes buf)) (ht : ValidUtf8 (topicBytes buf))
    (hk : ValidUtf8 (costBytes buf)) :
    Encodable (eventAt buf dim) dim ∧
      recordBytes (eventAt buf dim) dim = buf.take ((headerAt buf).expected dim) := by
  rw [expected_eq] at hlen
  have h₀ : eventHeaderSize ≤ contentAt buf := Nat.le_add_right _ _
  have h₁ : contentAt buf ≤ topicAt buf := Nat.le_add_right _ _
  have h₂ : topicAt buf ≤ costAt buf := Nat.le_add_right _ _
  have h₃ : costAt buf ≤ vectorAt buf := Nat.le_add_right _ _
  have ec : textBytes (eventAt buf dim).content = contentBytes buf := textBytes_decodeUtf8 hc
  have et : textBytes (eventAt buf dim).topic = topicBytes buf := textBytes_decodeUtf8 ht
  have ek : textBytes (eventAt buf dim).cost = costBytes buf := textBytes_decodeUtf8 hk
  have lr : (eventAt buf dim).refs.length = (headerAt buf).refsCount.toNat :=
    refCodec.items_length _ _ _
  have lc : (contentBytes buf).length = (headerAt buf).contentLen.toNat := by
    rw [contentBytes, length_sub _ _ _ (by omega), topicAt]; omega
  have lt : (topicBytes buf).length = (headerAt buf).topicLen.toNat := by
    rw [topicBytes, length_sub _ _ _ (by omega), costAt]; omega
  have lk : (costBytes buf).length = (headerAt buf).costLen.toNat := by
    rw [costBytes, length_sub _ _ _ (by omega), vectorAt]; omega
  have lv : (eventAt buf dim).vector.length = dim.toNat := u32.items_length _ _ _
  have hu : ∀ x : UInt16, x.toNat ≤ maxFieldLen := fun x => Nat.le_of_lt_succ x.toNat_lt
  have hsize : eventRecordSize (eventAt buf dim) dim = (headerAt buf).expected dim := by
    simp only [eventRecordSize, EventHeader.expected, ec, et, ek, lr, lc, lt, lk]
  have hhead : eventHeader (eventAt buf dim) dim = headerAt buf := by
    simp only [eventHeader, hsize, hrec, ec, et, ek, lr, lc, lt, lk, ofNat_toNat_u16,
      UInt32.ofNat_toNat]
    simp [eventAt]
  refine ⟨⟨by rw [lr]; exact hu _, by rw [ec, lc]; exact hu _, by rw [et, lt]; exact hu _,
    by rw [ek, lk]; exact hu _, lv⟩, ?_⟩
  have er : refCodec.encAll (eventAt buf dim).refs = sub buf eventHeaderSize (contentAt buf) :=
    refCodec.encAll_items buf _ eventHeaderSize (by
      have : contentAt buf ≤ buf.length := by omega
      simpa [contentAt, refSize] using this)
  have ev : u32.encAll (eventAt buf dim).vector =
      sub buf (vectorAt buf) (vectorAt buf + dim.toNat * 4) :=
    u32.encAll_items buf dim.toNat (vectorAt buf) (by simpa using hlen)
  rw [recordBytes, hhead, headerBytes_headerAt buf (by omega), er, ec, et, ek, ev, contentBytes,
    topicBytes, costBytes, sub_append_sub buf h₃ (by omega), sub_append_sub buf h₂ (by omega),
    sub_append_sub buf h₁ (by omega), sub_append_sub buf h₀ (by omega),
    sub_append_sub buf (by omega) (by omega), sub_zero, expected_eq]

/-- The times of an event that its record can carry. -/
structure TimesOk (ev : Event) : Prop where
  created : InRange ev.createdAt
  closed : ClosedOk ev.closedAt

theorem stored_eq {ev : Event} (h : TimesOk ev) : ev.stored = { ev with fileOffset := 0 } := by
  simp only [Event.stored, nanosToTime_timeToNanos h.created,
    nanosToOptTime_optTimeToNanos h.closed]

/-- The codec is exact in both directions, whatever follows the record. -/
theorem event_codec_round_trip (dim : UInt16) :
    (∀ (ev : Event) (b rest : Bytes), encodeEvent ev dim = .ok b → TimesOk ev →
      decodeEvent (b ++ rest) dim = .ok ({ ev with fileOffset := 0 }, b.length)) ∧
    (∀ (buf : Bytes) (ev : Event) (n : Nat), decodeEvent buf dim = .ok (ev, n) →
      ValidUtf8 (contentBytes buf) → ValidUtf8 (topicBytes buf) → ValidUtf8 (costBytes buf) →
      encodeEvent ev dim = .ok (buf.take n)) := by
  constructor
  · intro ev b rest he ht
    obtain ⟨hok, rfl⟩ := encodeEvent_eq_ok.mp he
    rw [decodeEvent_recordBytes hok, stored_eq ht]
  · intro buf ev n hd hc ht hk
    obtain ⟨hn, hx, -, hle, rfl⟩ := decodeEvent_sound hd
    obtain ⟨hok, hb⟩ := recordBytes_eventAt (hx ▸ hle) (hx.trans hn) hc ht hk
    rw [encodeEvent_eq_ok]
    exact ⟨hok, by rw [hb, hx]⟩

end Onisin.Mem
