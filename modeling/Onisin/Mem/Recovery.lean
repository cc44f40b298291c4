import Mathlib.Data.List.Forall2
import Onisin.Mem.Store

/-!
Opening a store. The index covers a prefix of events.bin; what lies behind it is
decoded again record by record. The main lemma describes one open for every disk whose
uncovered part is a list of whole records followed by something the decoder refuses.
-/

set_option autoImplicit false

namespace Onisin.Mem
open Lib

/-! Files. -/

theorem File.writeAt_end (f : File) (bs : Bytes) (h : f.bytes.length + bs.length ≤ maxFileLen) :
    (f.writeAt f.bytes.length bs).bytes = f.bytes ++ bs := by
  unfold File.writeAt
  by_cases hb : bs = []
  · simp [hb]
  · simp [hb, h, overwrite_end]

theorem File.writeAllAt_none (f : File) (buf : Bytes) (off : Nat)
    (h : off + buf.length ≤ maxFileLen) :
    f.writeAllAt buf off none = (f.writeAt off buf, true) := by
  have hn : min buf.length (maxFileLen - off) = buf.length := by omega
  simp [File.writeAllAt, hn]

theorem File.setLen_le (f : File) (n : Nat) (h : n ≤ f.bytes.length) :
    (f.setLen n).bytes = f.bytes.take n := by simp [File.setLen, h]

theorem File.readExactAt_ok (f : File) {off n : Nat} (h : off + n ≤ f.bytes.length) :
    f.readExactAt off n = .ok (sub f.bytes off (off + n)) := if_pos (Or.inr h)

/-! Index records. -/

def IdxRecord.stored (r : IdxRecord) : IdxRecord :=
  { r with createdAt := nanosToTime (timeToNanos r.createdAt) }

theorem IdxRecord.stored_eq {r : IdxRecord} (h : InRange r.createdAt) : r.stored = r := by
  simp only [IdxRecord.stored, nanosToTime_timeToNanos h]

@[simp] theorem encodeIdxRecord_length (r : IdxRecord) :
    (encodeIdxRecord r).length = idxRecordSize := by
  simp [encodeIdxRecord, idxRecordSize]

theorem decodeIdxRecord_encode (r : IdxRecord) (rest : Bytes) :
    decodeIdxRecord (encodeIdxRecord r ++ rest) = .ok r.stored := by
  have hl : (encodeIdxRecord r ++ rest).length = 28 + rest.length := by simp [idxRecordSize]
  have h₁ : rdU64 (encodeIdxRecord r ++ rest) 0 = .ok r.eventId := by
    rw [rdU64_ok _ (by omega)]
    simp [encodeIdxRecord, u64_dec_enc]
  have h₂ : rdU64 (encodeIdxRecord r ++ rest) 8 = .ok r.fileOffset := by
    rw [rdU64_ok _ (by omega)]
    simp [encodeIdxRecord, sub_append_right, u64_dec_enc]
  have h₃ : rdU32 (encodeIdxRecord r ++ rest) 16 = .ok r.recordLen := by
    rw [rdU32_ok _ (by omega)]
    simp [encodeIdxRecord, sub_append_right, u32_dec_enc]
  have h₄ : rdI64 (encodeIdxRecord r ++ rest) 20 = .ok (timeToNanos r.createdAt) := by
    rw [rdI64_ok _ (by omega)]
    simp [encodeIdxRecord, sub_append_right, i64_dec_enc]
  have hs : ¬ (encodeIdxRecord r ++ rest).length < idxRecordSize := by
    rw [hl]; simp only [idxRecordSize]; omega
  rw [decodeIdxRecord, if_neg hs, h₁, h₂, h₃, h₄]
  rfl

/-- The bytes of a whole-record index. -/
def idxBytesOf (recs : List IdxRecord) : Bytes := recs.flatMap encodeIdxRecord

theorem idxBytesOf_append (a b : List IdxRecord) :
    idxBytesOf (a ++ b) = idxBytesOf a ++ idxBytesOf b := by simp [idxBytesOf]

@[simp] theorem idxBytesOf_length (recs : List IdxRecord) :
    (idxBytesOf recs).length = recs.length * idxRecordSize := by
  induction recs with
  | nil => simp [idxBytesOf]
  | cons r recs ih =>
    simp only [idxBytesOf, List.flatMap_cons, List.length_append, encodeIdxRecord_length,
      List.length_cons] at *
    rw [ih]; ring

theorem decodeIdxRecords_encode (recs : List IdxRecord) (rest : Bytes) :
    decodeIdxRecords recs.length (idxBytesOf recs ++ rest) = .ok (recs.map IdxRecord.stored) := by
  induction recs with
  | nil => rfl
  | cons r recs ih =>
    have hb : idxBytesOf (r :: recs) ++ rest = encodeIdxRecord r ++ (idxBytesOf recs ++ rest) := by
      simp [idxBytesOf]
    have hd : (encodeIdxRecord r ++ (idxBytesOf recs ++ rest)).drop idxRecordSize =
        idxBytesOf recs ++ rest := by
      rw [List.drop_append, encodeIdxRecord_length]
      simp
    rw [hb, List.length_cons, decodeIdxRecords, decodeIdxRecord_encode, hd, ih]
    rfl

/-! What the index says about events.bin. -/

/-- `r` locates in `E` a record that loads as `ev`. -/
def Points (dim : UInt16) (E : Bytes) (r : IdxRecord) (ev : Event) : Prop :=
  r.fileOffset.toNat + r.recordLen.toNat ≤ E.length ∧ r.eventId = ev.id ∧
    ∃ ev₀ n, decodeEvent (sub E r.fileOffset.toNat (r.fileOffset.toNat + r.recordLen.toNat)) dim
      = .ok (ev₀, n) ∧ ev = { ev₀ with fileOffset := r.fileOffset }

theorem Points.append {dim : UInt16} {E : Bytes} {r : IdxRecord} {ev : Event}
    (h : Points dim E r ev) (more : Bytes) : Points dim (E ++ more) r ev := by
  obtain ⟨hb, hid, ev₀, n, hd, he⟩ := h
  refine ⟨by rw [List.length_append]; omega, hid, ev₀, n, ?_, he⟩
  rw [sub_append_left _ _ _ _ hb]
  exact hd

def lastEnd (recs : List IdxRecord) : Nat :=
  (recs.getLast?.map fun r => r.fileOffset.toNat + r.recordLen.toNat).getD 0

/-- A whole-record index that covers `E` to its end; `evs` are the events it loads. -/
structure Indexed (dim : UInt16) (E : Bytes) (recs : List IdxRecord) (evs : List Event) : Prop where
  fits : E.length ≤ maxFileLen
  inRange : ∀ r ∈ recs, InRange r.createdAt
  points : List.Forall₂ (Points dim E) recs evs
  covered : lastEnd recs = E.length
  room : recs.length * eventHeaderSize ≤ E.length

theorem Indexed.nil (dim : UInt16) : Indexed dim [] [] [] :=
  ⟨Nat.zero_le _, by simp, .nil, rfl, by simp⟩

/-- The index record of an event stored at `off`, as it reads back. -/
def idxFor (dim : UInt16) (off : Nat) (ev : Event) : IdxRecord where
  eventId := ev.id
  fileOffset := UInt64.ofNat off
  recordLen := UInt32.ofNat (recordBytes ev dim).length
  createdAt := nanosToTime (timeToNanos ev.createdAt)

/-- The event loaded from a record at `off`. -/
def Event.loaded (ev : Event) (off : Nat) : Event := { ev.stored with fileOffset := UInt64.ofNat off }

theorem toNat_offset {n : Nat} (h : n ≤ maxFileLen) : (UInt64.ofNat n).toNat = n :=
  UInt64.toNat_ofNat_of_lt' (by simp only [maxFileLen] at h; simp only [UInt64.size]; omega)

theorem toNat_recordLen {ev : Event} {dim : UInt16} (h : Encodable ev dim) :
    (UInt32.ofNat (recordBytes ev dim).length).toNat = (recordBytes ev dim).length := by
  have hs := h.size_le
  rw [recordBytes_length h.vector]
  exact UInt32.toNat_ofNat_of_lt' (by simp only [UInt32.size]; omega)

theorem points_idxFor {ev : Event} {dim : UInt16} (h : Encodable ev dim) (E rest : Bytes)
    (hE : E.length ≤ maxFileLen) :
    Points dim (E ++ (recordBytes ev dim ++ rest)) (idxFor dim E.length ev)
      (ev.loaded E.length) := by
  have ho : (idxFor dim E.length ev).fileOffset.toNat = E.length := toNat_offset hE
  have hl : (idxFor dim E.length ev).recordLen.toNat = (recordBytes ev dim).length :=
    toNat_recordLen h
  refine ⟨by rw [ho, hl]; simp, rfl, ev.stored, (recordBytes ev dim).length, ?_, rfl⟩
  have hd := decodeEvent_recordBytes h []
  rw [List.append_nil] at hd
  rw [ho, hl, sub_mid E (recordBytes ev dim) rest rfl rfl]
  exact hd

/-- One more record, possibly behind bytes that no index record covers. -/
theorem Indexed.snoc {dim : UInt16} {E : Bytes} {recs : List IdxRecord} {evs : List Event}
    (h : Indexed dim E recs evs) (gap : Bytes) {ev : Event} (hev : Encodable ev dim)
    (hfit : (E ++ gap ++ recordBytes ev dim).length ≤ maxFileLen) :
    Indexed dim (E ++ gap ++ recordBytes ev dim)
      (recs ++ [idxFor dim (E ++ gap).length ev]) (evs ++ [ev.loaded (E ++ gap).length]) := by
  have hlen : (E ++ gap ++ recordBytes ev dim).length =
      (E ++ gap).length + (recordBytes ev dim).length := List.length_append
  have hp := points_idxFor hev (E ++ gap) [] (by omega)
  rw [List.append_nil] at hp
  have hs := Encodable.header_le ev dim
  have hr := h.room
  refine ⟨hfit, ?_, ?_, ?_, ?_⟩
  · intro r hmem
    rcases List.mem_append.mp hmem with hmem | hmem
    · exact h.inRange r hmem
    · rw [List.mem_singleton.mp hmem]
      exact nanosToTime_inRange _
  · refine List.rel_append ?_ (.cons hp .nil)
    refine h.points.imp fun r e hre => ?_
    rw [List.append_assoc]
    exact hre.append _
  · have ho : (idxFor dim (E ++ gap).length ev).fileOffset.toNat = (E ++ gap).length :=
      toNat_offset (by omega)
    have hl : (idxFor dim (E ++ gap).length ev).recordLen.toNat = (recordBytes ev dim).length :=
      toNat_recordLen hev
    simp only [lastEnd, List.getLast?_concat, Option.map_some, Option.getD_some, ho, hl, hlen]
  · rw [← recordBytes_length hev.vector] at hs
    simp only [List.length_append, List.length_singleton, eventHeaderSize] at *
    omega

/-! One turn of the repair loop. -/

theorem repairLoop_done (covered : Nat) (tail : Bytes) (dim : UInt16) (s : Store)
    {off : Nat} (added : Nat) (h : tail.length ≤ off) :
    s.repairLoop covered tail dim off added = (s, .ok added) := by
  rw [Store.repairLoop, dif_neg (by omega)]

theorem repairLoop_refused (covered : Nat) (tail : Bytes) (dim : UInt16) (s : Store)
    {off : Nat} (added : Nat) {e : FormatError} (h : off < tail.length)
    (hd : decodeEvent (tail.drop off) dim = .error (.format e)) :
    s.repairLoop covered tail dim off added =
      ({ s with
        events := s.events.setLen (covered + off)
        eventsBytes := covered + off }, .ok added) := by
  rw [Store.repairLoop, dif_pos h]
  split <;> rename_i heq <;> rw [hd] at heq <;> cases heq

/-- The state with one index record appended by the repair. -/
def Store.pushIdx (s : Store) (rec : IdxRecord) : Store :=
  { s with
    idx := s.idx.writeAt s.idxBytes (encodeIdxRecord rec)
    idxBytes := s.idxBytes + idxRecordSize
    header := s.header.count rec.eventId }

theorem appendIdxRecord_ok (s : Store) (rec : IdxRecord)
    (h : s.idxBytes + idxRecordSize ≤ maxFileLen) :
    s.appendIdxRecord rec = (s.pushIdx rec, .ok ()) := by
  have hw := s.idx.writeAllAt_none (encodeIdxRecord rec) s.idxBytes
    (by rw [encodeIdxRecord_length]; exact h)
  simp only [Store.appendIdxRecord, hw, Store.pushIdx]

theorem repairLoop_record (covered : Nat) (tail : Bytes) (dim : UInt16) (s : Store)
    {off : Nat} (added : Nat) {ev : Event} {n : Nat} (h : off < tail.length)
    (hroom : s.idxBytes + idxRecordSize ≤ maxFileLen)
    (hd : decodeEvent (tail.drop off) dim = .ok (ev, n)) :
    s.repairLoop covered tail dim off added =
      (s.pushIdx
        { eventId := ev.id
          fileOffset := UInt64.ofNat (covered + off)
          recordLen := UInt32.ofNat n
          createdAt := ev.createdAt }).repairLoop covered tail dim (off + n) (added + 1) := by
  rw [Store.repairLoop, dif_pos h]
  split <;> rename_i heq <;> rw [hd] at heq <;> cases heq
  rw [appendIdxRecord_ok s _ hroom]

/-- The index records of events stored back to back from `off` on. -/
def idxFrom (dim : UInt16) : Nat → List Event → List IdxRecord
  | _, [] => []
  | off, ev :: evs => idxFor dim off ev :: idxFrom dim (off + (recordBytes ev dim).length) evs

/-- The events as they load from there. -/
def loadedFrom (dim : UInt16) : Nat → List Event → List Event
  | _, [] => []
  | off, ev :: evs => ev.loaded off :: loadedFrom dim (off + (recordBytes ev dim).length) evs

def records (dim : UInt16) (evs : List Event) : Bytes := evs.flatMap (recordBytes · dim)

@[simp] theorem idxFrom_length (dim : UInt16) (off : Nat) (evs : List Event) :
    (idxFrom dim off evs).length = evs.length := by
  induction evs generalizing off with
  | nil => rfl
  | cons ev evs ih => simp [idxFrom, ih]

theorem records_cons (dim : UInt16) (ev : Event) (evs : List Event) :
    records dim (ev :: evs) = recordBytes ev dim ++ records dim evs := by simp [records]

theorem Indexed.extend {dim : UInt16} (evs : List Event) {E : Bytes} {recs : List IdxRecord}
    {old : List Event} (h : Indexed dim E recs old) (hev : ∀ ev ∈ evs, Encodable ev dim)
    (hfit : (E ++ records dim evs).length ≤ maxFileLen) :
    Indexed dim (E ++ records dim evs) (recs ++ idxFrom dim E.length evs)
      (old ++ loadedFrom dim E.length evs) := by
  induction evs generalizing E recs old with
  | nil => simpa [records, idxFrom, loadedFrom] using h
  | cons ev evs ih =>
    have hhead : (E ++ [] ++ recordBytes ev dim).length ≤ maxFileLen := by
      rw [records_cons] at hfit
      simp only [List.append_nil, List.length_append] at hfit ⊢
      omega
    have hstep := h.snoc [] (hev ev (by simp)) hhead
    rw [List.append_nil] at hstep
    have hrest := ih hstep (fun e he => hev e (by simp [he]))
      (by rw [records_cons] at hfit; simpa [List.append_assoc] using hfit)
    simpa [records_cons, idxFrom, loadedFrom, List.append_assoc] using hrest

def Store.pushAll (s : Store) (recs : List IdxRecord) : Store := recs.foldl Store.pushIdx s

/-- What the index appends of a repair do to the state, and what they leave alone. -/
theorem pushAll_spec (recs : List IdxRecord) (s : Store) (hlen : s.idxBytes = s.idx.bytes.length)
    (hroom : s.idxBytes + recs.length * idxRecordSize ≤ maxFileLen) :
    (s.pushAll recs).idx.bytes = s.idx.bytes ++ idxBytesOf recs ∧
      (s.pushAll recs).idxBytes = (s.pushAll recs).idx.bytes.length ∧
      (s.pushAll recs).events = s.events ∧ (s.pushAll recs).eventsBytes = s.eventsBytes ∧
      (s.pushAll recs).graph = s.graph ∧ (s.pushAll recs).metaBin = s.metaBin ∧
      (s.pushAll recs).vectorDim = s.vectorDim := by
  induction recs generalizing s with
  | nil => exact ⟨by simp [Store.pushAll, idxBytesOf], hlen, rfl, rfl, rfl, rfl, rfl⟩
  | cons r recs ih =>
    have hm : (r :: recs).length * idxRecordSize = idxRecordSize + recs.length * idxRecordSize := by
      rw [List.length_cons]; ring
    have hw : (s.pushIdx r).idx.bytes = s.idx.bytes ++ encodeIdxRecord r := by
      have hend := s.idx.writeAt_end (encodeIdxRecord r)
        (by rw [encodeIdxRecord_length]; omega)
      rw [← hend, ← hlen]; rfl
    have hb : (s.pushIdx r).idxBytes = s.idxBytes + idxRecordSize := rfl
    obtain ⟨h₁, h₂, h₃, h₄, h₅, h₆, h₇⟩ := ih (s.pushIdx r)
      (by rw [hb, hw, List.length_append, encodeIdxRecord_length, hlen]) (by omega)
    refine ⟨?_, h₂, h₃, h₄, h₅, h₆, h₇⟩
    rw [Store.pushAll, List.foldl_cons]
    rw [hw] at h₁
    simpa [idxBytesOf, Store.pushAll, List.append_assoc] using h₁

/-- Bytes behind the last whole record: none, or something the decoder refuses. -/
def Refused (dim : UInt16) (cut : Bytes) : Prop :=
  cut = [] ∨ ∃ e, decodeEvent cut dim = .error (.format e)

theorem refused_take {ev : Event} {dim : UInt16} (h : Encodable ev dim) {p : Nat}
    (hp : p < (recordBytes ev dim).length) : Refused dim ((recordBytes ev dim).take p) :=
  Or.inr (decodeEvent_take h hp)

/-- The state after the loop met the end of the whole records. -/
def Store.cutAt (s : Store) (stop : Nat) (cut : Bytes) : Store :=
  if cut = [] then s else { s with events := s.events.setLen stop, eventsBytes := stop }

theorem repairLoop_records {dim : UInt16} (evs : List Event) (cut : Bytes)
    (hev : ∀ ev ∈ evs, Encodable ev dim) (hcut : Refused dim cut) (covered : Nat) (tail : Bytes)
    (s : Store) (off added : Nat) (hoff : off ≤ tail.length)
    (htail : tail.drop off = records dim evs ++ cut)
    (hroom : s.idxBytes + evs.length * idxRecordSize ≤ maxFileLen) :
    s.repairLoop covered tail dim off added =
      ((s.pushAll (idxFrom dim (covered + off) evs)).cutAt
        (covered + off + (records dim evs).length) cut, .ok (added + evs.length)) := by
  induction evs generalizing s off added with
  | nil =>
    have hl : tail.length - off = cut.length := by
      rw [← List.length_drop, htail]; simp [records]
    by_cases hc : cut = []
    · have hz : tail.length ≤ off := by rw [hc, List.length_nil] at hl; omega
      rw [repairLoop_done _ _ _ _ _ hz]
      simp [Store.cutAt, hc, idxFrom, Store.pushAll]
    · obtain ⟨e, he⟩ := hcut.resolve_left hc
      have hpos := List.length_pos_iff.mpr hc
      have hd : decodeEvent (tail.drop off) dim = .error (.format e) := by
        rw [htail]; simpa [records] using he
      rw [repairLoop_refused _ _ _ _ _ (by omega) hd]
      simp [Store.cutAt, hc, idxFrom, Store.pushAll, records]
  | cons ev evs ih =>
    have hok := hev ev (by simp)
    have hsz := recordBytes_length hok.vector
    have hhd := Encodable.header_le ev dim
    have hl : tail.length - off =
        (recordBytes ev dim).length + ((records dim evs).length + cut.length) := by
      rw [← List.length_drop, htail, records_cons]; simp only [List.length_append]; omega
    have hd : decodeEvent (tail.drop off) dim = .ok (ev.stored, (recordBytes ev dim).length) := by
      rw [htail, records_cons, List.append_assoc]
      exact decodeEvent_recordBytes hok _
    have hm : (ev :: evs).length * idxRecordSize = idxRecordSize + evs.length * idxRecordSize := by
      rw [List.length_cons]; ring
    have hnext : tail.drop (off + (recordBytes ev dim).length) = records dim evs ++ cut := by
      rw [← List.drop_drop, htail, records_cons, List.append_assoc, List.drop_left]
    simp only [eventHeaderSize] at hhd
    rw [repairLoop_record covered tail dim s added (by omega) (by omega) hd,
      ih (fun e he => hev e (by simp [he])) _ _ _ (by omega) hnext
        (by simp only [Store.pushIdx]; omega)]
    simp only [records_cons, List.length_append, List.length_cons, idxFrom, Store.pushAll,
      List.foldl_cons, Nat.add_assoc, Nat.add_comm 1]
    rfl

end Onisin.Mem
