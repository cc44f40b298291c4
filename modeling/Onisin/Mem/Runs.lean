import Mathlib.Data.List.Induction
import Onisin.Lib.Runs
import Onisin.Mem.Crash

/-!
Whole runs of the store: appends that may fail at any I/O call, snapshots, crashes and
reopens. A crash in the middle of an append is the append that failed there followed by a
crash; both leave the same files.
-/

set_option autoImplicit false

namespace Onisin.Mem
open Lib

inductive Proc where
  | down (d : Disk)
  | running (s : Store)

inductive Act where
  | append (now : DateTime) (fault : Option IoFault) (ev : Event)
  | snapshot (now : DateTime)
  | crash
  | reopen (dim : UInt16) (now : DateTime)

def Proc.disk : Proc → Disk
  | .down d => d
  | .running s => s.disk

def reopened (d : Disk) (dim : UInt16) (now : DateTime) : Proc :=
  match Store.openOrCreate d dim now with
  | (d, .error _) => .down d
  | (_, .ok (s, _)) => .running s

/-- A process that is down only takes a reopen; a running one may also be closed and
reopened in one step. -/
def Proc.step (p : Proc) : Act → Proc
  | .append now fault ev =>
    match p with
    | .running s => .running (s.appendEvent now fault ev).1
    | .down d => .down d
  | .snapshot now =>
    match p with
    | .running s => .running (s.snapshot now)
    | .down d => .down d
  | .crash => .down p.disk
  | .reopen dim now => reopened p.disk dim now

/-- The ids of the whole records of events.idx. -/
def idxIds (idx : File) : List UInt64 :=
  match decodeIdxRecords (idx.bytes.length / idxRecordSize) idx.bytes with
  | .ok recs => recs.map IdxRecord.eventId
  | .error _ => []

/-- No id twice in the index, and ids ascend along every stream. -/
def Proc.IdsUnique (p : Proc) : Prop :=
  (idxIds p.disk.idx).Nodup ∧
    ∀ s, p = .running s → ∀ k, (s.graph.byStream.getD k []).Pairwise (· < ·)

/-! Consecutive ids. -/

/-- The ids 1 to `k`. -/
def upTo (k : Nat) : List UInt64 := (List.range k).map fun i => UInt64.ofNat (i + 1)

theorem upTo_succ (k : Nat) : upTo (k + 1) = upTo k ++ [UInt64.ofNat (k + 1)] := by
  simp [upTo, List.range_succ]

theorem upTo_pairwise {k : Nat} (h : k < 2^64) : (upTo k).Pairwise (· < ·) := by
  rw [upTo, List.pairwise_map]
  refine List.pairwise_lt_range.imp_of_mem fun {a b} ha hb hab => ?_
  rw [List.mem_range] at ha hb
  rw [UInt64.lt_iff_toNat_lt, UInt64.toNat_ofNat_of_lt' (by simp only [UInt64.size]; omega),
    UInt64.toNat_ofNat_of_lt' (by simp only [UInt64.size]; omega)]
  omega

theorem upTo_nodup {k : Nat} (h : k < 2^64) : (upTo k).Nodup :=
  (upTo_pairwise h).imp fun {_ _} hab => UInt64.ne_of_lt hab

theorem maxIdFrom_append (m : UInt64) (recs : List IdxRecord) (r : IdxRecord) :
    maxIdFrom m (recs ++ [r]) =
      if r.eventId > maxIdFrom m recs then r.eventId else maxIdFrom m recs := by
  simp [maxIdFrom]

theorem maxIdFrom_upTo {recs : List IdxRecord} (hk : recs.length < 2^64)
    (h : recs.map IdxRecord.eventId = upTo recs.length) :
    maxIdFrom 0 recs = UInt64.ofNat recs.length := by
  induction recs using List.reverseRecOn with
  | nil => rfl
  | append_singleton recs r ih =>
    rw [List.map_append, List.length_append, List.length_singleton, upTo_succ] at h
    rw [List.length_append, List.length_singleton] at hk ⊢
    obtain ⟨hinit, hlast⟩ := List.append_inj' h rfl
    have hr : r.eventId = UInt64.ofNat (recs.length + 1) := by simpa using hlast
    rw [maxIdFrom_append, ih (by omega) hinit, hr, if_pos]
    show UInt64.ofNat recs.length < UInt64.ofNat (recs.length + 1)
    rw [UInt64.lt_iff_toNat_lt, UInt64.toNat_ofNat_of_lt' (by simp only [UInt64.size]; omega),
      UInt64.toNat_ofNat_of_lt' (by simp only [UInt64.size]; omega)]
    omega

/-! Streams. -/

theorem pushAt_getD {β : Type} (m : Map (List β)) (k k' : UInt64) (x : β) :
    (pushAt m k x).getD k' [] = m.getD k' [] ++ if k = k' then [x] else [] := by
  by_cases h : k = k'
  · subst h
    simp [pushAt]
  · have hc : compare k k' ≠ .eq := fun he => h (Std.LawfulEqOrd.eq_of_compare he)
    simp [pushAt, Std.ExtTreeMap.getD_insert, hc, h]

/-- A stream lists the ids of its events in the order they were absorbed. -/
theorem byStream_foldl (evs : List Event) (g : Graph) (k : UInt64) :
    ((evs.foldl Graph.absorb g).byStream).getD k [] =
      g.byStream.getD k [] ++ (evs.filter (·.streamId = k)).map Event.id := by
  induction evs generalizing g with
  | nil => simp
  | cons ev evs ih =>
    rw [List.foldl_cons, ih]
    show (pushAt g.byStream ev.streamId ev.id).getD k [] ++ _ = _
    rw [pushAt_getD]
    by_cases h : ev.streamId = k
    · simp [h]
    · simp [h]

theorem byStream_pairwise {evs : List Event} (h : (evs.map Event.id).Pairwise (· < ·)) (k : UInt64) :
    ((evs.foldl Graph.absorb .empty).byStream.getD k []).Pairwise (· < ·) := by
  rw [byStream_foldl]
  have hempty : Graph.empty.byStream.getD k [] = [] := by simp [Graph.empty]
  rw [hempty, List.nil_append]
  exact h.sublist (List.filter_sublist.map Event.id)

/-! The state between two steps. -/

/-- A running store over an indexed part and a trail. The counters stop at the orphaned
record; whatever the trail holds was written under the next id. -/
structure Store.Tracked (s : Store) (E : Bytes) (recs : List IdxRecord) (old orphans : List Event)
    (P J : Bytes) (live : List Event) : Prop where
  trailing : s.disk.Trailing s.vectorDim (·.id = s.nextEventId) E recs old orphans P J
  eventsBytes : s.eventsBytes = (E ++ records s.vectorDim orphans).length
  idxBytes : s.idxBytes = recs.length * idxRecordSize
  numbered : recs.map IdxRecord.eventId = upTo recs.length
  next : s.nextEventId = UInt64.ofNat (recs.length + 1)
  graph : s.graph = live.foldl Graph.absorb .empty
  live : live.map Event.id = upTo recs.length
  header : HeaderOk s.header

theorem Indexed.count_lt {dim : UInt16} {E : Bytes} {recs : List IdxRecord} {old : List Event}
    (h : Indexed dim E recs old) : recs.length + 1 < 2^64 := by
  have hroom := h.room
  have hfit := h.fits
  simp only [eventHeaderSize, maxFileLen] at *
  omega

theorem Indexed.ids_eq {dim : UInt16} {E : Bytes} {recs : List IdxRecord} {old : List Event}
    (h : Indexed dim E recs old) : old.map Event.id = recs.map IdxRecord.eventId := by
  have hp := h.points
  clear h
  induction hp with
  | nil => rfl
  | cons hd _ ih => rw [List.map_cons, List.map_cons, ih, hd.2.1]

section
variable {s : Store} {E : Bytes} {recs : List IdxRecord} {old orphans live : List Event} {P J : Bytes}

theorem Store.Settled.tracked {evs : List Event} (h : s.Settled recs evs)
    (hn : recs.map IdxRecord.eventId = upTo recs.length)
    (hg : s.graph = evs.foldl Graph.absorb .empty) (hnext : s.nextEventId = maxIdFrom 0 recs + 1) :
    s.Tracked s.events.bytes recs evs [] [] [] evs := by
  have hlt := h.indexed.count_lt
  refine ⟨h.trailing _, ?_, ?_, hn, ?_, hg, h.indexed.ids_eq.trans hn, h.header⟩
  · rw [h.eventsBytes]; simp [records]
  · rw [h.idxBytes, h.idx, idxBytesOf_length]
  · rw [hnext, maxIdFrom_upTo (by omega) hn, UInt64.ofNat_add]; rfl

/-- The store's part of events.bin in front of the torn record. -/
theorem Store.Tracked.events (h : s.Tracked E recs old orphans P J live) :
    s.events.bytes = (E ++ records s.vectorDim orphans) ++ P := by
  rw [List.append_assoc]
  exact h.trailing.events

theorem Store.Tracked.covered_le (h : s.Tracked E recs old orphans P J live) :
    E.length ≤ s.eventsBytes := by
  rw [h.eventsBytes, List.length_append]; omega

/-- The index covers events.bin up to the byte where the next record goes. -/
def Store.Covered (s : Store) : Prop := ∃ c, s.coveredEnd = .ok c ∧ c.toNat = s.eventsBytes

theorem Store.Tracked.orphans_nil (h : s.Tracked E recs old orphans P J live)
    (hc : s.Covered) : orphans = [] ∧ J = [] := by
  obtain ⟨c, hok, hcn⟩ := hc
  obtain ⟨c', hok', hcn'⟩ := coveredEnd_eq h.trailing.indexed s h.trailing.idx h.idxBytes
  rw [hok] at hok'
  cases hok'
  have htrail := h.trailing.trail
  cases htrail with
  | clean => exact ⟨rfl, rfl⟩
  | torn p hev hq => exact ⟨rfl, rfl⟩
  | @orphan o ev p j ho hq hev hp hj =>
    exfalso
    have hlen := h.eventsBytes
    have hpos := ho.record_ge
    simp only [records, List.flatMap_cons, List.flatMap_nil, List.length_append, List.length_nil,
      eventHeaderSize] at hlen hpos
    omega

theorem Trail.idx_le {dim : UInt16} {Q : Event → Prop} {off : Nat}
    (h : Trail dim Q off orphans P J) : J.length ≤ idxRecordSize := by
  cases h with
  | clean => simp
  | torn p hev hq => simp
  | orphan p j ho hq hev hp hj => rw [List.length_take]; simp

/-! Steps. -/

variable {now : DateTime} {ev : Event}

/-- A record torn in events.bin replaces the one torn before it. -/
theorem Store.Tracked.tearEvents (h : s.Tracked E recs old orphans P J live)
    (hev : Encodable (s.prepare now ev) s.vectorDim) {n : Nat}
    (hn : n ≤ (s.recordOf now ev).length) (hfit : n ≤ maxFileLen - s.eventsBytes)
    (hover : s.events.bytes.length ≤ s.eventsBytes + n)
    (hwhole : orphans = [] ∨ n < (s.recordOf now ev).length) :
    (s.tearEvents (s.recordOf now ev) n).Tracked E recs old orphans ((s.recordOf now ev).take n) J
      live := by
  have hlen : ((s.recordOf now ev).take n).length = n := by rw [List.length_take]; omega
  have hP : P.length ≤ n := by
    rw [h.events, List.length_append, ← h.eventsBytes] at hover
    omega
  have hmax : s.eventsBytes ≤ maxFileLen := by
    have := s.events.fits
    rw [h.events, List.length_append, ← h.eventsBytes] at this
    omega
  have hw := s.events.writeAt_over _ _ ((s.recordOf now ev).take n) h.events
    (by rw [← h.eventsBytes, hlen]; omega) (by rw [hlen]; exact hP)
  rw [← h.eventsBytes] at hw
  have htrail : Trail s.vectorDim (·.id = s.nextEventId) E.length orphans
      ((s.recordOf now ev).take n) J := by
    have ht := h.trailing.trail
    cases ht with
    | clean => exact .torn n hev rfl
    | torn p hev' hq => exact .torn n hev rfl
    | orphan p j ho hq hev' hp hj => exact .orphan n j ho hq hev (hwhole.resolve_left (by simp)) hj
  refine ⟨⟨h.trailing.metaBin, h.trailing.indexed, ?_, h.trailing.idx, htrail⟩, h.eventsBytes,
    h.idxBytes, h.numbered, h.next, h.graph, h.live, h.header⟩
  show (s.events.writeAt _ _).bytes = _
  rw [hw, List.append_assoc]
  rfl

/-- The events.bin write of an append whose record reaches the end of the file. -/
theorem Store.Tracked.writeRecord (h : s.Tracked E recs old orphans P J live)
    (hfit : s.eventsBytes + (s.recordOf now ev).length ≤ maxFileLen)
    (hover : s.events.bytes.length ≤ s.eventsBytes + (s.recordOf now ev).length) :
    (s.events.writeAt s.eventsBytes (s.recordOf now ev)).bytes =
      E ++ records s.vectorDim orphans ++ s.recordOf now ev := by
  rw [h.events, List.length_append, ← h.eventsBytes] at hover
  have hw := s.events.writeAt_over _ _ (s.recordOf now ev) h.events (by rw [← h.eventsBytes]; omega)
    (by omega)
  rw [← h.eventsBytes] at hw
  exact hw

theorem Store.Tracked.idxRoom (h : s.Tracked E recs old orphans P J live)
    (hev : Encodable (s.prepare now ev) s.vectorDim)
    (hfit : s.eventsBytes + (s.recordOf now ev).length ≤ maxFileLen) :
    s.idxBytes + idxRecordSize ≤ maxFileLen := by
  rw [h.idxBytes]
  exact h.trailing.indexed.idxRoom hev h.covered_le hfit

/-- A failed index write orphans the record. -/
theorem Store.Tracked.tearIdx (h : s.Tracked E recs old [] P [] live)
    (hev : Encodable (s.prepare now ev) s.vectorDim)
    (hfit : s.eventsBytes + (s.recordOf now ev).length ≤ maxFileLen)
    (hover : s.events.bytes.length ≤ s.eventsBytes + (s.recordOf now ev).length) {j : Nat}
    (hj : j ≤ idxRecordSize) :
    (s.tearIdx (s.prepare now ev) (s.recordOf now ev) j).Tracked E recs old [s.prepare now ev] []
      ((encodeIdxRecord (idxFor s.vectorDim E.length (s.prepare now ev))).take j) live := by
  have hroom := h.idxRoom hev hfit
  have hoff : s.eventsBytes = E.length := by rw [h.eventsBytes]; simp [records]
  have hidx := s.idx.writeAt_over (idxBytesOf recs) []
    ((encodeIdxRecord (idxFor s.vectorDim E.length (s.prepare now ev))).take j) h.trailing.idx
    (by
      have := List.length_take_le j (encodeIdxRecord (idxFor s.vectorDim E.length (s.prepare now ev)))
      rw [List.length_take, encodeIdxRecord_length, idxBytesOf_length, ← h.idxBytes]
      omega) (Nat.zero_le _)
  rw [idxBytesOf_length, ← h.idxBytes] at hidx
  have hrec : records s.vectorDim [s.prepare now ev] = s.recordOf now ev := by
    simp [records, Store.recordOf]
  constructor
  · rw [Store.tearIdx_disk, Store.tearIdx_vectorDim, Store.tearIdx_nextEventId]
    refine ⟨h.trailing.metaBin, h.trailing.indexed, ?_, ?_, .orphan 0 j hev rfl hev hev.record_pos hj⟩
    · show (s.events.writeAt _ _).bytes = _
      rw [h.writeRecord hfit hover, hrec]
      simp [records]
    · show (s.idx.writeAt _ _).bytes = _
      rw [Store.recordOf, encodeIdxRecord_for, hoff]
      exact hidx
  · rw [Store.tearIdx_eventsBytes, Store.tearIdx_vectorDim, hrec, hoff, List.length_append]
  · rw [Store.tearIdx_idxBytes, h.idxBytes]
  · exact h.numbered
  · rw [Store.tearIdx_nextEventId, h.next]
  · rw [Store.tearIdx_graph, h.graph]
  · exact h.live
  · rw [Store.tearIdx_header]
    exact h.header

/-- An append that goes through buries whatever the trail held. -/
theorem Store.Tracked.commit (h : s.Tracked E recs old orphans P J live)
    (hev : Encodable (s.prepare now ev) s.vectorDim)
    (hfit : s.eventsBytes + (s.recordOf now ev).length ≤ maxFileLen)
    (hover : s.events.bytes.length ≤ s.eventsBytes + (s.recordOf now ev).length) :
    ((s.tearIdx (s.prepare now ev) (s.recordOf now ev) idxRecordSize).commit (s.prepare now ev)
        s.eventsBytes).Tracked (E ++ records s.vectorDim orphans ++ s.recordOf now ev)
      (recs ++ [idxFor s.vectorDim s.eventsBytes (s.prepare now ev)])
      (old ++ [(s.prepare now ev).loaded s.eventsBytes]) [] [] []
      (live ++ [{ s.prepare now ev with fileOffset := UInt64.ofNat s.eventsBytes }]) := by
  have hroom := h.idxRoom hev hfit
  have hcount := h.trailing.indexed.count_lt
  have hidx := s.idx.writeAt_over (idxBytesOf recs) J
    (encodeIdxRecord (idxFor s.vectorDim s.eventsBytes (s.prepare now ev))) h.trailing.idx
    (by rw [encodeIdxRecord_length, idxBytesOf_length, ← h.idxBytes]; omega)
    (by rw [encodeIdxRecord_length]; exact h.trailing.trail.idx_le)
  rw [idxBytesOf_length, ← h.idxBytes] at hidx
  have hids : upTo (recs ++ [idxFor s.vectorDim s.eventsBytes (s.prepare now ev)]).length =
      upTo recs.length ++ [s.nextEventId] := by
    rw [List.length_append, List.length_singleton, upTo_succ, h.next]
  have hin := h.trailing.indexed.snoc (records s.vectorDim orphans) hev (by
    rw [List.length_append, ← h.eventsBytes]; exact hfit)
  rw [← h.eventsBytes] at hin
  constructor
  · rw [Store.commit_disk, Store.commit_vectorDim, Store.tearIdx_disk, Store.tearIdx_vectorDim]
    refine ⟨h.trailing.metaBin, hin, ?_, ?_, .clean⟩
    · show (s.events.writeAt _ _).bytes = _
      rw [h.writeRecord hfit hover]
      simp [records]
    · show (s.idx.writeAt _ _).bytes = _
      rw [Store.recordOf, encodeIdxRecord_for, List.take_of_length_le (by simp), hidx,
        idxBytesOf_append]
      simp [idxBytesOf]
  · rw [Store.commit, Store.tearIdx_eventsBytes, h.eventsBytes]
    simp [records, Nat.add_assoc]
  · rw [Store.commit, Store.tearIdx_idxBytes, h.idxBytes, List.length_append, List.length_singleton,
      Nat.succ_mul]
  · rw [List.map_append, h.numbered, hids]; rfl
  · show s.nextEventId + 1 = _
    rw [h.next, List.length_append, List.length_singleton]
    exact (UInt64.ofNat_add (recs.length + 1) 1).symm
  · show s.graph.absorb _ = _
    rw [h.graph, List.foldl_append]; rfl
  · rw [List.map_append, h.live, hids]; rfl
  · exact ⟨h.header.magic, h.header.version⟩

theorem Store.Tracked.snapshot (h : s.Tracked E recs old orphans P J live) (now : DateTime) :
    (s.snapshot now).Tracked E recs old orphans P J live := by
  have hok : HeaderOk (s.snapshot now).header := ⟨h.header.magic, h.header.version⟩
  obtain ⟨hm, hr, hd, -⟩ := readMeta_encode hok
  exact ⟨⟨⟨_, hm, rfl, hr, hd⟩, h.trailing.indexed, h.trailing.events, h.trailing.idx,
    h.trailing.trail⟩, h.eventsBytes, h.idxBytes, h.numbered, h.next, h.graph, h.live, hok⟩

/-- An append that can do no harm to the ids, judged by the state before it. Bytes that an
earlier failure left behind the write position are overwritten to the end of the file, or
nothing is written; and a record is not completed behind an orphaned one unless its
append goes through. -/
def Store.AppendSafe (s : Store) (now : DateTime) (fault : Option IoFault) (ev : Event) : Prop :=
  Encodable (s.prepare now ev) s.vectorDim →
    (s.written fault (s.recordOf now ev) = 0 ∨
      s.events.bytes.length ≤ s.eventsBytes + s.written fault (s.recordOf now ev)) ∧
    (s.written fault (s.recordOf now ev) < (s.recordOf now ev).length ∨ fault = none ∨ s.Covered)

theorem Store.tearEvents_zero (s : Store) (buf : Bytes) : s.tearEvents buf 0 = s := by
  simp [Store.tearEvents, File.writeAt]

theorem Store.written_all {s : Store} {fault : Option IoFault} {buf : Bytes}
    (hstop : IoFault.eventsStop fault = none) (hfit : s.eventsBytes + buf.length ≤ maxFileLen) :
    s.written fault buf = buf.length := by
  simp only [Store.written, hstop, Option.getD_none]
  omega

/-- The whole record reaches events.bin, so a safe append overwrites the trail there. -/
theorem Store.AppendSafe.over {fault : Option IoFault} (hsafe : s.AppendSafe now fault ev)
    (hev : Encodable (s.prepare now ev) s.vectorDim)
    (hstop : IoFault.eventsStop fault = none)
    (hfit : s.eventsBytes + (s.recordOf now ev).length ≤ maxFileLen) :
    s.events.bytes.length ≤ s.eventsBytes + (s.recordOf now ev).length ∧
      (fault = none ∨ s.Covered) := by
  have hpos : 0 < (s.recordOf now ev).length := hev.record_pos
  obtain ⟨hover, hcov⟩ := hsafe hev
  rw [Store.written_all hstop hfit] at hover hcov
  exact ⟨hover.resolve_left (by omega), hcov.resolve_left (Nat.lt_irrefl _)⟩

theorem Store.Tracked.append (h : s.Tracked E recs old orphans P J live) {fault : Option IoFault}
    (hsafe : s.AppendSafe now fault ev) :
    ∃ E' recs' old' orphans' P' J' live',
      (s.appendEvent now fault ev).1.Tracked E' recs' old' orphans' P' J' live' := by
  by_cases hev : Encodable (s.prepare now ev) s.vectorDim
  · obtain ⟨hno, -⟩ | ⟨-, ⟨hf, he⟩ | ⟨hfit, ⟨j, hj, hjn, he⟩ | ⟨hnone, he⟩⟩⟩ :=
      appendEvent_cases s now fault ev (h.idxRoom hev)
    · exact absurd hev hno
    · -- the write to events.bin failed, or its sync did
      obtain ⟨hle, hle'⟩ := s.written_le fault (s.recordOf now ev)
      obtain ⟨hover, hcov⟩ := hsafe hev
      rw [he]
      by_cases h0 : s.written fault (s.recordOf now ev) = 0
      · rw [h0, Store.tearEvents_zero]
        exact ⟨_, _, _, _, _, _, _, h⟩
      · refine ⟨_, _, _, _, _, _, _,
          h.tearEvents hev hle hle' (hover.resolve_left h0) ?_⟩
        obtain hlt | rfl | hc := hcov
        · exact Or.inr hlt
        · have hlim : maxFileLen < s.eventsBytes + (s.recordOf now ev).length := by
            obtain ⟨n, hn⟩ | hs | hl := hf
            · cases hn
            · cases hs
            · exact hl
          exact Or.inr (by omega)
        · exact Or.inl (h.orphans_nil hc).1
    · -- the record is in events.bin, its index record is not acknowledged
      have hstop : IoFault.eventsStop fault = none ∧ fault ≠ none := by
        obtain ⟨rfl, -⟩ | ⟨n, rfl, -⟩ := hjn
        · exact ⟨rfl, by simp⟩
        · exact ⟨rfl, by simp⟩
      obtain ⟨hover, hcov⟩ := hsafe.over hev hstop.1 hfit
      obtain ⟨rfl, rfl⟩ := h.orphans_nil (hcov.resolve_left hstop.2)
      rw [he]
      exact ⟨_, _, _, _, _, _, _, h.tearIdx hev hfit hover hj⟩
    · obtain ⟨hover, -⟩ := hsafe.over hev (by rw [hnone]; rfl) hfit
      rw [he]
      exact ⟨_, _, _, _, _, _, _, h.commit hev hfit hover⟩
  · obtain ⟨e, he⟩ := appendEvent_rejected s now fault ev hev
    rw [he]
    exact ⟨_, _, _, _, _, _, _, h⟩

end

/-- Every state of a run: nothing created yet, or an indexed part and a trail, with ids
counting up from 1. -/
def Proc.Tracked : Proc → Prop
  | .running s => ∃ E recs old orphans P J live, s.Tracked E recs old orphans P J live
  | .down d => d = .blank ∨ ∃ dim E recs old orphans P J,
      d.Trailing dim (·.id = UInt64.ofNat (recs.length + 1)) E recs old orphans P J ∧
        recs.map IdxRecord.eventId = upTo recs.length

theorem Store.Tracked.down {s : Store} {E : Bytes} {recs : List IdxRecord}
    {old orphans live : List Event} {P J : Bytes} (h : s.Tracked E recs old orphans P J live) :
    Proc.Tracked (.down s.disk) := by
  have ht := h.trailing
  rw [h.next] at ht
  exact Or.inr ⟨_, _, _, _, _, _, _, ht, h.numbered⟩

theorem reopened_tracked {d : Disk} (h : Proc.Tracked (.down d)) (dim : UInt16) (now : DateTime) :
    (reopened d dim now).Tracked := by
  obtain rfl | ⟨dim', E, recs, old, orphans, P, J, ht, hnum⟩ := h
  · obtain ⟨rep, ho⟩ := openOrCreate_blank dim now
    rw [reopened, ho]
    exact ⟨_, _, _, _, _, _, _, (fresh_settled dim now).tracked rfl rfl rfl⟩
  · obtain ⟨-, -, ho⟩ | ⟨-, found, hfound, s, rep, ho, hd, hs, hg, hn⟩ := ht.reopen dim now
    · rw [reopened, ho]
      exact Or.inr ⟨_, _, _, _, _, _, _, ht, hnum⟩
    · rw [reopened, ho]
      refine ⟨_, _, _, _, _, _, _, hs.tracked ?_ hg hn⟩
      obtain rfl | ⟨x, rfl, -, hx⟩ := hfound
      · simpa [idxFrom] using hnum
      · rw [List.map_append, List.length_append, hnum]
        simp [idxFrom, upTo_succ, idxFor, hx]

/-- Steps that keep ids apart: any step, where an append is safe in the state it starts in. -/
def Proc.StepSafe (p : Proc) : Act → Prop
  | .append now fault ev => ∀ s, p = .running s → s.AppendSafe now fault ev
  | _ => True

theorem step_tracked (p : Proc) (a : Act) (h : p.Tracked) (hsafe : p.StepSafe a) :
    (p.step a).Tracked := by
  cases p with
  | down d =>
    cases a with
    | append now fault ev => exact h
    | snapshot now => exact h
    | crash => exact h
    | reopen dim now => exact reopened_tracked h dim now
  | running s =>
    obtain ⟨E, recs, old, orphans, P, J, live, ht⟩ := h
    cases a with
    | append now fault ev => exact ht.append (hsafe s rfl)
    | snapshot now => exact ⟨_, _, _, _, _, _, _, ht.snapshot now⟩
    | crash => exact ht.down
    | reopen dim now => exact reopened_tracked ht.down dim now

theorem idxIds_eq {idx : File} {recs : List IdxRecord} {J : Bytes}
    (h : idx.bytes = idxBytesOf recs ++ J) (hJ : J.length < idxRecordSize) :
    idxIds idx = recs.map IdxRecord.eventId := by
  have hlen : idx.bytes.length / idxRecordSize = recs.length := by
    rw [h, List.length_append, idxBytesOf_length]
    simp only [idxRecordSize] at *
    omega
  have hids : (recs.map IdxRecord.stored).map IdxRecord.eventId = recs.map IdxRecord.eventId := by
    rw [List.map_map]; rfl
  rw [idxIds, hlen, h, decodeIdxRecords_encode]
  exact hids

theorem Disk.Trailing.idxIds_eq_upTo {d : Disk} {dim : UInt16} {E : Bytes} {recs : List IdxRecord}
    {old orphans : List Event} {P J : Bytes}
    (h : d.Trailing dim (·.id = UInt64.ofNat (recs.length + 1)) E recs old orphans P J)
    (hnum : recs.map IdxRecord.eventId = upTo recs.length) :
    ∃ k, k < 2^64 ∧ idxIds d.idx = upTo k := by
  have hcount := h.indexed.count_lt
  by_cases hJ : J.length < idxRecordSize
  · exact ⟨recs.length, by omega, (idxIds_eq h.idx hJ).trans hnum⟩
  · refine ⟨recs.length + 1, hcount, ?_⟩
    have htrail := h.trail
    have hidx := h.idx
    cases htrail with
    | clean => exact absurd (by decide) hJ
    | torn p hev hq => exact absurd (by decide) hJ
    | @orphan o ev p j ho hq hev hp hj =>
      rw [List.length_take, encodeIdxRecord_length] at hJ
      rw [List.take_of_length_le (by rw [encodeIdxRecord_length]; omega)] at hidx
      have hwhole : d.idx.bytes = idxBytesOf (recs ++ [idxFor dim E.length o]) ++ [] := by
        rw [hidx, idxBytesOf_append]; simp [idxBytesOf]
      rw [idxIds_eq hwhole (by decide), List.map_append, hnum, upTo_succ, ← hq]
      rfl

theorem Proc.Tracked.idsUnique {p : Proc} (h : p.Tracked) : p.IdsUnique := by
  cases p with
  | down d =>
    refine ⟨?_, fun s hs => by cases hs⟩
    obtain rfl | ⟨dim, E, recs, old, orphans, P, J, ht, hnum⟩ := h
    · exact List.nodup_nil
    · obtain ⟨k, hk, hids⟩ := ht.idxIds_eq_upTo hnum
      show (idxIds d.idx).Nodup
      rw [hids]
      exact upTo_nodup hk
  | running s =>
    obtain ⟨E, recs, old, orphans, P, J, live, ht⟩ := h
    have hcount := ht.trailing.indexed.count_lt
    constructor
    · have hdisk := ht.trailing
      rw [ht.next] at hdisk
      obtain ⟨k, hk, hids⟩ := hdisk.idxIds_eq_upTo ht.numbered
      show (idxIds s.disk.idx).Nodup
      rw [hids]
      exact upTo_nodup hk
    · rintro _ ⟨⟩ k
      rw [ht.graph]
      apply byStream_pairwise
      rw [ht.live]
      exact upTo_pairwise (by omega)

/-- In every run from an empty directory whose appends are safe where they start, ids stay
apart in every state reached. -/
theorem ids_never_reused (acts : List Act)
    (h : Along Proc.step Proc.StepSafe (.down .blank) acts) :
    (run Proc.step (.down .blank) acts).IdsUnique := by
  have h0 : Proc.Tracked (.down .blank) := Or.inl rfl
  exact (run_invariant step_tracked h0 h).idsUnique

theorem ids_never_reused_one_failure :
    (run Proc.step (.down .blank) [.reopen 0 0, .append 0 (some (.idxWrite 0)) (blankEvent 0),
      .crash, .reopen 0 0]).IdsUnique := by
  obtain ⟨rep, hopen⟩ := openOrCreate_blank 0 0
  have hstep : Proc.step (.down .blank) (.reopen 0 0) = .running (Store.fresh 0 0) := by
    simp only [Proc.step, Proc.disk, reopened, hopen]
  refine ids_never_reused _ ⟨trivial, ?_, trivial, trivial, trivial⟩
  rw [hstep]
  rintro s ⟨⟩ -
  refine ⟨Or.inr (Nat.zero_le _), Or.inr (Or.inr ⟨0, ?_, rfl⟩)⟩
  simp [Store.coveredEnd, Store.fresh]

/-- An append of the blank event whose index write fails before its first byte. -/
theorem append_blank_orphan (s : Store) (hdim : s.vectorDim = 0)
    (heb : s.eventsBytes = s.events.bytes.length) (hfit : s.eventsBytes + 49 ≤ maxFileLen)
    (hroom : s.idxBytes + idxRecordSize ≤ maxFileLen) :
    ∃ s', s.appendEvent 0 (some (.idxWrite 0)) (blankEvent 0) = (s', .error .io) ∧
      s'.events.bytes = s.events.bytes ++ recordBytes (blankEvent s.nextEventId) 0 ∧
      s'.eventsBytes = s'.events.bytes.length ∧ s'.idx = s.idx ∧ s'.idxBytes = s.idxBytes ∧
      s'.nextEventId = s.nextEventId ∧ s'.metaBin = s.metaBin ∧ s'.vectorDim = 0 := by
  have hrec : s.recordOf 0 (blankEvent 0) = recordBytes (blankEvent s.nextEventId) 0 := by
    rw [Store.recordOf, prepare_blank, hdim]
  have hlen : (s.recordOf 0 (blankEvent 0)).length = 49 := by rw [hrec, blankEvent_length]; rfl
  have hev : Encodable (s.prepare 0 (blankEvent 0)) s.vectorDim := by
    rw [prepare_blank, hdim]; exact blankEvent_encodable _
  have hw : (s.events.writeAt s.eventsBytes (s.recordOf 0 (blankEvent 0))).bytes =
      s.events.bytes ++ s.recordOf 0 (blankEvent 0) := by
    rw [heb] at hfit ⊢
    exact s.events.writeAt_end _ (by rw [hlen]; exact hfit)
  refine ⟨_, appendEvent_idxWrite hev (by rw [hlen]; exact hfit) hroom 0, ?_, ?_, ?_,
    s.tearIdx_idxBytes .., s.tearIdx_nextEventId .., s.tearIdx_metaBin ..,
    (s.tearIdx_vectorDim ..).trans hdim⟩
  · rw [← hrec]; exact hw
  · show s.eventsBytes + _ = (s.events.writeAt _ _).bytes.length
    rw [hw, List.length_append, heb]
  · simp [Store.tearIdx, File.writeAt]

/-- Two appends fail at the index, the process dies: both records come back under id 1. -/
theorem failed_index_writes_reuse_id :
    ¬ (run Proc.step (.down .blank)
      [.reopen 0 0, .append 0 (some (.idxWrite 0)) (blankEvent 0),
        .append 0 (some (.idxWrite 0)) (blankEvent 0), .crash, .reopen 0 0]).IdsUnique := by
  obtain ⟨rep, hopen⟩ := openOrCreate_blank 0 0
  obtain ⟨s₁, h₁, e₁, l₁, i₁, j₁, n₁, m₁, d₁⟩ := append_blank_orphan (Store.fresh 0 0) rfl rfl
    (by decide) (by decide)
  have hl₁ : s₁.eventsBytes = 49 := by
    rw [l₁, e₁, List.length_append, blankEvent_length]; rfl
  obtain ⟨s₂, h₂, e₂, l₂, i₂, j₂, n₂, m₂, d₂⟩ := append_blank_orphan s₁ d₁ l₁
    (by rw [hl₁]; decide) (by rw [j₁]; decide)
  obtain ⟨hm, hr, hd, -⟩ := readMeta_encode (freshHeader_ok 0 0)
  have hrec : s₂.disk.Recoverable 0 0 0 s₂.metaBin [] [] [] [blankEvent 1, blankEvent 1] [] := by
    have hmb : readMeta s₂.metaBin = .ok hm := by rw [m₂, m₁]; exact hr
    refine ⟨⟨hm, hm, openMeta_some rfl hmb 0 0, hd, readMeta_sound hmb, hmb, hd⟩, ?_, .nil 0, ?_,
      ?_, Or.inl rfl⟩
    · show s₂.idx.bytes = _
      rw [i₂, i₁]; rfl
    · show s₂.events.bytes = _
      rw [e₂, e₁, n₁]; simp [records, Store.fresh, File.empty]
    · intro ev hev
      have : ev = blankEvent 1 := by simpa using hev
      rw [this]; exact blankEvent_encodable 1
  obtain ⟨s₃, rep₃, h₃, hs₃, -⟩ := openOrCreate_recovers hrec
  have hrun : run Proc.step (.down .blank)
      [.reopen 0 0, .append 0 (some (.idxWrite 0)) (blankEvent 0),
        .append 0 (some (.idxWrite 0)) (blankEvent 0), .crash, .reopen 0 0] = .running s₃ := by
    simp only [run, List.foldl_cons, List.foldl_nil, Proc.step, Proc.disk, reopened, hopen, h₁, h₂,
      h₃]
  have hids : idxIds s₃.idx = [1, 1] := by
    rw [idxIds_eq (J := []) (by rw [hs₃.idx, List.append_nil]) (by decide)]; rfl
  rw [hrun]
  rintro ⟨hnodup, -⟩
  rw [Proc.disk, Store.disk, hids] at hnodup
  exact absurd hnodup (by decide)

end Onisin.Mem
