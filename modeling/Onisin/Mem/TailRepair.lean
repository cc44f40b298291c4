import Onisin.Mem.Open

/-!
The repair of an index that covers only the first records of events.bin. What the index
says about the time of an event is never read back, so it is left open here.
-/

set_option autoImplicit false

namespace Onisin.Mem
open Lib

/-- `r` is the index record of event `i` of events stored back to back from offset 0. -/
def EntryOf (dim : UInt16) (evs : List Event) (i : Nat) (r : IdxRecord) : Prop :=
  ∃ ev, evs[i]? = some ev ∧ r.eventId = ev.id ∧
    r.fileOffset.toNat = (records dim (evs.take i)).length ∧
    r.recordLen.toNat = (recordBytes ev dim).length

theorem records_append (dim : UInt16) (a b : List Event) :
    records dim (a ++ b) = records dim a ++ records dim b := by simp [records]

theorem idxFrom_getElem? (dim : UInt16) (evs : List Event) (off i : Nat) :
    (idxFrom dim off evs)[i]? =
      evs[i]?.map (idxFor dim (off + (records dim (evs.take i)).length)) := by
  induction evs generalizing off i with
  | nil => rfl
  | cons ev evs ih =>
    cases i with
    | zero => simp [idxFrom, records]
    | succ i => simp [idxFrom, ih, records_cons, Nat.add_assoc]

/-- The part of an index record that the loader reads. -/
def IdxRecord.place (r : IdxRecord) : UInt64 × UInt64 × UInt32 := (r.eventId, r.fileOffset, r.recordLen)

theorem encodeIdxRecord_stored (r : IdxRecord) : encodeIdxRecord r.stored = encodeIdxRecord r := by
  simp [encodeIdxRecord, IdxRecord.stored]

theorem idxBytesOf_stored (recs : List IdxRecord) :
    idxBytesOf (recs.map IdxRecord.stored) = idxBytesOf recs := by
  simp [idxBytesOf, List.flatMap_map, encodeIdxRecord_stored]

theorem Points.congr {dim : UInt16} {E : Bytes} {r r' : IdxRecord} {ev : Event}
    (h : Points dim E r ev) (hp : r'.place = r.place) : Points dim E r' ev := by
  simp only [IdxRecord.place, Prod.mk.injEq] at hp
  obtain ⟨h₁, h₂, h₃⟩ := hp
  rw [Points, h₁, h₂, h₃]
  exact h

theorem lastEnd_congr {recs recs' : List IdxRecord}
    (h : recs'.map IdxRecord.place = recs.map IdxRecord.place) : lastEnd recs' = lastEnd recs := by
  have hl (rs : List IdxRecord) : lastEnd rs =
      ((rs.map IdxRecord.place).getLast?.map fun q => q.2.1.toNat + q.2.2.toNat).getD 0 := by
    rw [lastEnd, List.getLast?_map, Option.map_map]; rfl
  rw [hl, hl, h]

theorem Indexed.congr {dim : UInt16} {E : Bytes} {recs recs' : List IdxRecord} {evs : List Event}
    (h : Indexed dim E recs evs) (hp : recs'.map IdxRecord.place = recs.map IdxRecord.place)
    (hr : ∀ r ∈ recs', InRange r.createdAt) : Indexed dim E recs' evs := by
  have hlen : recs'.length = recs.length := by
    have := congrArg List.length hp
    simpa using this
  refine ⟨h.fits, hr, ?_, (lastEnd_congr hp).trans h.covered, by rw [hlen]; exact h.room⟩
  have hpts := h.points
  clear h hr hlen
  induction hpts generalizing recs' with
  | nil =>
    rw [List.map_nil, List.map_eq_nil_iff] at hp
    rw [hp]; exact .nil
  | cons hd _ ih =>
    cases recs' with
    | nil => cases hp
    | cons r' recs' =>
      rw [List.map_cons, List.map_cons, List.cons.injEq] at hp
      exact .cons (hd.congr hp.1) (ih hp.2)

theorem place_of_entryOf {dim : UInt16} {evs : List Event} {i : Nat} {r r' : IdxRecord}
    (h : EntryOf dim evs i r) (h' : EntryOf dim evs i r') : r.place = r'.place := by
  obtain ⟨ev, he, h₁, h₂, h₃⟩ := h
  obtain ⟨ev', he', h₁', h₂', h₃'⟩ := h'
  rw [he] at he'
  cases he'
  rw [IdxRecord.place, IdxRecord.place, h₁, h₁', UInt64.toNat_inj.mp (h₂.trans h₂'.symm),
    UInt32.toNat_inj.mp (h₃.trans h₃'.symm)]

theorem entryOf_idxFor {dim : UInt16} {evs : List Event} {i : Nat} {ev : Event}
    (he : evs[i]? = some ev) (hev : Encodable ev dim)
    (hfit : (records dim (evs.take i)).length ≤ maxFileLen) :
    EntryOf dim evs i (idxFor dim (records dim (evs.take i)).length ev) :=
  ⟨ev, he, rfl, toNat_offset hfit, toNat_recordLen hev⟩

theorem records_take_le (dim : UInt16) (evs : List Event) (i : Nat) :
    (records dim (evs.take i)).length ≤ (records dim evs).length := by
  conv_rhs => rw [← List.take_append_drop i evs, records_append, List.length_append]
  exact Nat.le_add_right _ _

section
variable {dim : UInt16} {evs : List Event} {m : Nat} {covered : List IdxRecord}

/-- The records an index covering the first `m` events misses. -/
def missing (dim : UInt16) (evs : List Event) (m : Nat) : List IdxRecord :=
  idxFrom dim (records dim (evs.take m)).length (evs.drop m)

theorem missing_entryOf (hev : ∀ ev ∈ evs, Encodable ev dim)
    (hfit : (records dim evs).length ≤ maxFileLen) {i : Nat} {r : IdxRecord}
    (hr : (missing dim evs m)[i]? = some r) : EntryOf dim evs (m + i) r := by
  rw [missing, idxFrom_getElem?, List.getElem?_drop, Option.map_eq_some_iff] at hr
  obtain ⟨ev, he, rfl⟩ := hr
  have hoff : (records dim (evs.take m)).length + (records dim ((evs.drop m).take i)).length =
      (records dim (evs.take (m + i))).length := by
    rw [← List.length_append, ← records_append, List.take_add]
  rw [hoff]
  exact entryOf_idxFor he (hev ev (List.mem_of_getElem? he))
    (Nat.le_trans (records_take_le dim evs _) hfit)

/-- An index of the first `m` events covers exactly their records. -/
theorem indexed_of_entries (hev : ∀ ev ∈ evs, Encodable ev dim)
    (hfit : (records dim evs).length ≤ maxFileLen) (hm : m ≤ evs.length)
    (hlen : covered.length = m)
    (hcov : ∀ i r, covered[i]? = some r → EntryOf dim evs i r) :
    Indexed dim (records dim (evs.take m)) (covered.map IdxRecord.stored)
      (loadedFrom dim 0 (evs.take m)) := by
  have hpre := Nat.le_trans (records_take_le dim evs m) hfit
  have hbase := (Indexed.nil dim).extend (evs.take m)
    (fun ev h => hev ev (List.mem_of_mem_take h)) (by simpa using hpre)
  simp only [List.nil_append, List.length_nil] at hbase
  refine hbase.congr ?_ ?_
  · apply List.ext_getElem?
    intro i
    simp only [List.getElem?_map, Option.map_map]
    by_cases hi : i < m
    · have hc : covered[i]? = some covered[i] := List.getElem?_eq_getElem (by omega)
      have he : evs[i]? = some evs[i] := List.getElem?_eq_getElem (by omega)
      have ht : (evs.take m).take i = evs.take i := by rw [List.take_take, Nat.min_eq_left (by omega)]
      have hentry := entryOf_idxFor he (hev _ (List.mem_of_getElem? he))
        (Nat.le_trans (records_take_le dim evs i) hfit)
      rw [idxFrom_getElem?, List.getElem?_take_of_lt hi, hc, he, ht, Nat.zero_add]
      have hplace := place_of_entryOf (hcov i _ hc) hentry
      exact congrArg some hplace
    · rw [List.getElem?_eq_none (by omega), List.getElem?_eq_none (by simp; omega)]
      rfl
  · intro r hr
    obtain ⟨r₀, -, rfl⟩ := List.mem_map.mp hr
    exact nanosToTime_inRange _

/-- Opening such a disk adds the missing index records and cuts the torn record off. -/
theorem tail_repair_exact (dim reqDim : UInt16) (now : DateTime) (evs : List Event) (last : Event)
    (p m : Nat) (covered : List IdxRecord) (d : Disk)
    (hmeta : ∃ hdr mb, openMeta d reqDim now = .ok (hdr, mb) ∧ hdr.vectorDim = dim)
    (hev : ∀ ev ∈ evs, Encodable ev dim) (hlast : Encodable last dim)
    (hp : p < (recordBytes last dim).length) (hm : m ≤ evs.length) (hlen : covered.length = m)
    (hcov : ∀ i r, covered[i]? = some r → EntryOf dim evs i r)
    (hidx : d.idx.bytes = idxBytesOf covered)
    (hbytes : d.events.bytes = records dim evs ++ (recordBytes last dim).take p) :
    ∃ added : List IdxRecord, added.length = evs.length - m ∧
      (∀ i r, added[i]? = some r → EntryOf dim evs (m + i) r) ∧
      (∀ s : Store, s.events = d.events → s.idx = d.idx → s.vectorDim = dim →
        s.eventsBytes = d.events.bytes.length → s.idxBytes = d.idx.bytes.length →
        ∃ s', s.repairIdx = (s', .ok added.length) ∧
          s'.idx.bytes = d.idx.bytes ++ idxBytesOf added ∧ s'.events.bytes = records dim evs ∧
          s'.idxBytes = s'.idx.bytes.length ∧ s'.eventsBytes = s'.events.bytes.length) ∧
      ∃ s rep, Store.openOrCreate d reqDim now = (s.disk, .ok (s, rep)) ∧
        rep.repairedIdx = added.length ∧ s.idx.bytes = d.idx.bytes ++ idxBytesOf added ∧
        s.events.bytes = records dim evs ∧
        ∀ reqDim' now', ∃ s' rep',
          Store.openOrCreate s.disk reqDim' now' = (s.disk, .ok (s', rep')) := by
  have hfit : (records dim evs).length ≤ maxFileLen := by
    have := d.events.fits
    rw [hbytes, List.length_append] at this
    omega
  have hin := indexed_of_entries hev hfit hm hlen hcov
  have htail : ∀ ev ∈ evs.drop m, Encodable ev dim := fun ev h => hev ev (List.mem_of_mem_drop h)
  have hidx' : d.idx.bytes = idxBytesOf (covered.map IdxRecord.stored) := by
    rw [hidx, idxBytesOf_stored]
  have hsplit : records dim (evs.take m) ++ records dim (evs.drop m) = records dim evs := by
    rw [← records_append, List.take_append_drop]
  have hwhole : d.events.bytes = records dim (evs.take m) ++
      (records dim (evs.drop m) ++ (recordBytes last dim).take p) := by
    rw [hbytes, ← hsplit, List.append_assoc]
  have hadded : (missing dim evs m).length = evs.length - m := by simp [missing]
  refine ⟨missing dim evs m, hadded, fun i r => missing_entryOf hev hfit, ?_, ?_⟩
  · intro s he hi hdim heb hib
    obtain ⟨s', hrun, hrep⟩ := repairIdx_repaired hin s (hi ▸ hidx') (hi ▸ hib) (he ▸ heb) hdim
      (he ▸ hwhole) htail (refused_take hlast hp)
    refine ⟨s', ?_, hi ▸ hrep.idx, hrep.events.trans hsplit, hrep.idxBytes, hrep.eventsBytes⟩
    rw [hrun, hadded, List.length_drop]
  · obtain ⟨hdr, mb, hopen, hdim⟩ := hmeta
    obtain ⟨hok, h', hread, hdim'⟩ := openMeta_ok hopen
    have hr : d.Recoverable reqDim now dim mb (records dim (evs.take m))
        (covered.map IdxRecord.stored) (loadedFrom dim 0 (evs.take m)) (evs.drop m)
        ((recordBytes last dim).take p) :=
      ⟨⟨hdr, h', hopen, hdim, hok, hread, hdim'.trans hdim⟩, hidx', hin, hwhole, htail,
        refused_take hlast hp⟩
    obtain ⟨s, rep, ho, hs, -, -, he, -, -, hrep⟩ := openOrCreate_recovers hr
    refine ⟨s, rep, ho, by rw [hrep, hadded, List.length_drop], ?_, he.trans hsplit, ?_⟩
    · rw [hs.idx, idxBytesOf_append, ← hidx']; rfl
    · intro reqDim' now'
      obtain ⟨s', rep', hre, -⟩ := hs.reopen reqDim' now'
      exact ⟨s', rep', hre⟩

end

/-- One whole record and five bytes of another, with no index at all. -/
def tornDisk : Disk where
  metaBin := none
  events := ⟨records 0 [blankEvent 1] ++ (recordBytes (blankEvent 2) 0).take 5, by
    simp [records, blankEvent_length, maxFileLen, eventHeaderSize]⟩
  idx := .empty

theorem tail_repair_exact_torn :
    ∃ s rep, Store.openOrCreate tornDisk 0 0 = (s.disk, .ok (s, rep)) ∧ rep.repairedIdx = 1 ∧
      s.events.bytes = records 0 [blankEvent 1] := by
  obtain ⟨added, hl, -, -, s, rep, ho, hr, -, he, -⟩ :=
    tail_repair_exact 0 0 0 [blankEvent 1] (blankEvent 2) 5 0 [] tornDisk ⟨_, _, rfl, rfl⟩
      (by simp [blankEvent_encodable]) (blankEvent_encodable 2)
      (by simp [blankEvent_length, eventHeaderSize]) (by simp) rfl (by simp) rfl rfl
  exact ⟨s, rep, ho, by rw [hr, hl]; rfl, he⟩

end Onisin.Mem
