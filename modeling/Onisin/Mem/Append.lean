import Onisin.Mem.Open

/-!
The ways `append_event` can end. A crash in the middle of it leaves the files of the
append whose write failed at that byte, so one set of lemmas serves both.
-/

set_option autoImplicit false

namespace Onisin.Mem
open Lib

/-- Bytes of the record that reach events.bin before its write ends or fails. -/
def Store.written (s : Store) (fault : Option IoFault) (buf : Bytes) : Nat :=
  min (min ((IoFault.eventsStop fault).getD buf.length) (maxFileLen - s.eventsBytes)) buf.length

/-- `n` bytes of the record are in events.bin, no counter moved. -/
def Store.tearEvents (s : Store) (buf : Bytes) (n : Nat) : Store :=
  { s with events := s.events.writeAt s.eventsBytes (buf.take n) }

/-- The record is in events.bin and counted; `j` bytes of its index record are in events.idx. -/
def Store.tearIdx (s : Store) (ev : Event) (buf : Bytes) (j : Nat) : Store :=
  { s with
    events := s.events.writeAt s.eventsBytes buf
    eventsBytes := s.eventsBytes + buf.length
    idx := s.idx.writeAt s.idxBytes ((encodeIdxRecord (s.idxRecordFor ev buf)).take j) }

section
variable (s : Store) (ev : Event) (buf : Bytes) (j : Nat)

@[simp] theorem Store.tearIdx_vectorDim : (s.tearIdx ev buf j).vectorDim = s.vectorDim := by
  simp only [Store.tearIdx, Store.vectorDim]

@[simp] theorem Store.tearIdx_idxBytes : (s.tearIdx ev buf j).idxBytes = s.idxBytes := by
  simp only [Store.tearIdx]

@[simp] theorem Store.tearIdx_nextEventId : (s.tearIdx ev buf j).nextEventId = s.nextEventId := by
  simp only [Store.tearIdx]

@[simp] theorem Store.tearIdx_graph : (s.tearIdx ev buf j).graph = s.graph := by
  simp only [Store.tearIdx]

@[simp] theorem Store.tearIdx_header : (s.tearIdx ev buf j).header = s.header := by
  simp only [Store.tearIdx]

@[simp] theorem Store.tearIdx_eventsBytes :
    (s.tearIdx ev buf j).eventsBytes = s.eventsBytes + buf.length := by
  simp only [Store.tearIdx]

theorem Store.tearIdx_disk : (s.tearIdx ev buf j).disk = ⟨some s.metaBin,
    s.events.writeAt s.eventsBytes buf,
    s.idx.writeAt s.idxBytes ((encodeIdxRecord (s.idxRecordFor ev buf)).take j)⟩ := by
  simp only [Store.tearIdx, Store.disk]

@[simp] theorem Store.tearIdx_metaBin : (s.tearIdx ev buf j).metaBin = s.metaBin := by
  simp only [Store.tearIdx]

@[simp] theorem Store.commit_vectorDim (off : Nat) : (s.commit ev off).vectorDim = s.vectorDim := by
  simp only [Store.commit, Store.vectorDim, MetaHeader.count]

@[simp] theorem Store.commit_disk (off : Nat) : (s.commit ev off).disk = s.disk := by
  simp only [Store.commit, Store.disk]

end

theorem take_min_length {α : Type} (xs : List α) (n : Nat) : xs.take (min n xs.length) = xs.take n := by
  rw [List.take_eq_take_iff]; omega

theorem take_min_of_le {α : Type} (xs : List α) {m : Nat} (n : Nat) (h : xs.length ≤ m) :
    xs.take (min n m) = xs.take n := by
  rw [List.take_eq_take_iff]; omega

section
variable (s : Store) (now : DateTime) (fault : Option IoFault) (ev : Event)

theorem appendEvent_rejected (h : ¬ Encodable (s.prepare now ev) s.vectorDim) :
    ∃ e, s.appendEvent now fault ev = (s, .error (.format e)) := by
  rw [Store.appendEvent]
  cases he : encodeEvent (s.prepare now ev) s.vectorDim with
  | error e => exact ⟨e, rfl⟩
  | ok buf => exact absurd (encodeEvent_eq_ok.mp he).1 h

/-- The call fails at events.bin: in its write, at its sync or at the length limit. -/
def Store.EventsFail (s : Store) (fault : Option IoFault) (buf : Bytes) : Prop :=
  (∃ n, fault = some (.eventsWrite n)) ∨ fault = some .eventsSync ∨
    maxFileLen < s.eventsBytes + buf.length

/-- The bytes an append of `ev` writes to events.bin. -/
def Store.recordOf (s : Store) (now : DateTime) (ev : Event) : Bytes :=
  recordBytes (s.prepare now ev) s.vectorDim

variable {s now fault ev}
variable (h : Encodable (s.prepare now ev) s.vectorDim)
include h

theorem encode_prepare : encodeEvent (s.prepare now ev) s.vectorDim = .ok (s.recordOf now ev) :=
  encodeEvent_eq_ok.mpr ⟨h, rfl⟩

theorem appendEvent_events (hf : s.EventsFail fault (s.recordOf now ev)) :
    s.appendEvent now fault ev =
      (s.tearEvents (s.recordOf now ev) (s.written fault (s.recordOf now ev)), .error .io) := by
  have htake := take_min_length (s.recordOf now ev) (min
    ((IoFault.eventsStop fault).getD (s.recordOf now ev).length) (maxFileLen - s.eventsBytes))
  simp only [Store.appendEvent, encode_prepare h, File.writeAllAt, Store.tearEvents, Store.written,
    htake]
  by_cases hstop : ∃ n, fault = some (.eventsWrite n)
  · obtain ⟨n, rfl⟩ := hstop
    rfl
  have hnone : IoFault.eventsStop fault = none := by
    cases fault with
    | none => rfl
    | some f =>
      cases f with
      | eventsWrite n => exact absurd ⟨n, rfl⟩ hstop
      | eventsSync => rfl
      | idxWrite n => rfl
      | idxSync => rfl
  rw [hnone]
  by_cases hfit : s.eventsBytes + (s.recordOf now ev).length ≤ maxFileLen
  · have hsync : fault = some .eventsSync :=
      (hf.resolve_left hstop).resolve_right (Nat.not_lt.mpr hfit)
    have hle : (s.recordOf now ev).length ≤ maxFileLen - s.eventsBytes := by omega
    simp [hle, hsync]
  · have hle : ¬ (s.recordOf now ev).length ≤
        min (s.recordOf now ev).length (maxFileLen - s.eventsBytes) := by
      have := h.record_pos
      simp only [Store.recordOf] at hfit ⊢
      omega
    simp [hle]

section
variable (hfit : s.eventsBytes + (s.recordOf now ev).length ≤ maxFileLen)
variable (hroom : s.idxBytes + idxRecordSize ≤ maxFileLen)
include hfit

/-- The whole record is written, so the outcome is that of the index write. -/
theorem appendEvent_past (hstop : IoFault.eventsStop fault = none)
    (hsync : fault ≠ some .eventsSync) :
    s.appendEvent now fault ev =
      match s.idx.writeAllAt (encodeIdxRecord (s.idxRecordFor (s.prepare now ev) (s.recordOf now ev)))
        s.idxBytes (IoFault.idxStop fault) with
      | (idx, false) => ({ s with
          events := s.events.writeAt s.eventsBytes (s.recordOf now ev)
          eventsBytes := s.eventsBytes + (s.recordOf now ev).length
          idx := idx }, .error .io)
      | (idx, true) =>
        let t := { s with
          events := s.events.writeAt s.eventsBytes (s.recordOf now ev)
          eventsBytes := s.eventsBytes + (s.recordOf now ev).length
          idx := idx }
        if fault = some .idxSync then (t, .error .io)
        else (t.commit (s.prepare now ev) s.eventsBytes, .ok s.nextEventId) := by
  simp only [Store.appendEvent, encode_prepare h, hstop, File.writeAllAt_none _ _ _ hfit,
    if_neg hsync]
  rfl

include hroom

theorem appendEvent_idxWrite (j : Nat) :
    s.appendEvent now (some (.idxWrite j)) ev =
      (s.tearIdx (s.prepare now ev) (s.recordOf now ev) j, .error .io) := by
  have htake := take_min_of_le
    (encodeIdxRecord (s.idxRecordFor (s.prepare now ev) (s.recordOf now ev)))
    (m := maxFileLen - s.idxBytes) j (by rw [encodeIdxRecord_length]; omega)
  rw [appendEvent_past h hfit rfl (by simp)]
  simp only [File.writeAllAt, IoFault.idxStop, Option.getD_some, htake, Option.isNone_some,
    Bool.false_and]
  rfl

theorem appendEvent_idxSync :
    s.appendEvent now (some .idxSync) ev =
      (s.tearIdx (s.prepare now ev) (s.recordOf now ev) idxRecordSize, .error .io) := by
  have hw := s.idx.writeAllAt_none
    (encodeIdxRecord (s.idxRecordFor (s.prepare now ev) (s.recordOf now ev))) s.idxBytes
    (by rw [encodeIdxRecord_length]; exact hroom)
  rw [appendEvent_past h hfit rfl (by simp)]
  simp only [IoFault.idxStop, hw, Store.tearIdx, if_true]
  rw [List.take_of_length_le (by simp)]

theorem appendEvent_ok :
    s.appendEvent now none ev =
      ((s.tearIdx (s.prepare now ev) (s.recordOf now ev) idxRecordSize).commit (s.prepare now ev)
        s.eventsBytes, .ok s.nextEventId) := by
  have hw := s.idx.writeAllAt_none
    (encodeIdxRecord (s.idxRecordFor (s.prepare now ev) (s.recordOf now ev))) s.idxBytes
    (by rw [encodeIdxRecord_length]; exact hroom)
  rw [appendEvent_past h hfit rfl (by simp)]
  simp only [IoFault.idxStop, hw, Store.tearIdx]
  rw [List.take_of_length_le (by simp)]
  simp

end

end

/-- Everything an append can do. -/
theorem appendEvent_cases (s : Store) (now : DateTime) (fault : Option IoFault) (ev : Event)
    (hroom : s.eventsBytes + (s.recordOf now ev).length ≤ maxFileLen →
      s.idxBytes + idxRecordSize ≤ maxFileLen) :
    (¬ Encodable (s.prepare now ev) s.vectorDim ∧
      ∃ e, s.appendEvent now fault ev = (s, .error (.format e))) ∨
    Encodable (s.prepare now ev) s.vectorDim ∧
      ((s.EventsFail fault (s.recordOf now ev) ∧ s.appendEvent now fault ev =
        (s.tearEvents (s.recordOf now ev) (s.written fault (s.recordOf now ev)), .error .io)) ∨
      s.eventsBytes + (s.recordOf now ev).length ≤ maxFileLen ∧
        ((∃ j, j ≤ idxRecordSize ∧
          ((fault = some .idxSync ∧ j = idxRecordSize) ∨
            ∃ n, fault = some (.idxWrite n) ∧ j = min n idxRecordSize) ∧
          s.appendEvent now fault ev =
            (s.tearIdx (s.prepare now ev) (s.recordOf now ev) j, .error .io)) ∨
        (fault = none ∧ s.appendEvent now fault ev =
          ((s.tearIdx (s.prepare now ev) (s.recordOf now ev) idxRecordSize).commit
            (s.prepare now ev) s.eventsBytes, .ok s.nextEventId)))) := by
  by_cases h : Encodable (s.prepare now ev) s.vectorDim
  · refine Or.inr ⟨h, ?_⟩
    by_cases hf : s.EventsFail fault (s.recordOf now ev)
    · exact Or.inl ⟨hf, appendEvent_events h hf⟩
    · have hfit : s.eventsBytes + (s.recordOf now ev).length ≤ maxFileLen :=
        Nat.not_lt.mp fun hlt => hf (Or.inr (Or.inr hlt))
      refine Or.inr ⟨hfit, ?_⟩
      cases fault with
      | none => exact Or.inr ⟨rfl, appendEvent_ok h hfit (hroom hfit)⟩
      | some f =>
        refine Or.inl ?_
        cases f with
        | eventsWrite n => exact absurd (Or.inl ⟨n, rfl⟩) hf
        | eventsSync => exact absurd (Or.inr (Or.inl rfl)) hf
        | idxWrite n =>
          refine ⟨min n idxRecordSize, Nat.min_le_right _ _, Or.inr ⟨n, rfl, rfl⟩, ?_⟩
          rw [appendEvent_idxWrite h hfit (hroom hfit), Store.tearIdx, Store.tearIdx,
            take_min_of_le _ _ (by simp)]
        | idxSync => exact ⟨_, Nat.le_refl _, Or.inl ⟨rfl, rfl⟩, appendEvent_idxSync h hfit (hroom hfit)⟩
  · exact Or.inl ⟨h, appendEvent_rejected s now fault ev h⟩

/-- A write that reaches the end of the file replaces everything behind its start. -/
theorem File.writeAt_over (f : File) (xs old ys : Bytes) (hf : f.bytes = xs ++ old)
    (hlen : xs.length + ys.length ≤ maxFileLen) (hover : old.length ≤ ys.length) :
    (f.writeAt xs.length ys).bytes = xs ++ ys := by
  unfold File.writeAt
  by_cases hy : ys = []
  · have ho : old = [] := by
      rw [hy, List.length_nil, Nat.le_zero] at hover
      exact List.length_eq_zero_iff.mp hover
    simp [hy, hf, ho]
  · rw [dif_pos ⟨hy, hlen⟩]
    simp only [hf, overwrite_mid, List.drop_eq_nil_of_le hover, List.append_nil]

end Onisin.Mem
