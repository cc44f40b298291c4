import Onisin.Mem.Recovery

/-!
`open_or_create` on a disk whose index covers a prefix of events.bin: it succeeds, it
indexes every whole record behind that prefix, and it leaves a settled store, that is one
whose counters, graph and next id are those of its files.
-/

set_option autoImplicit false

namespace Onisin.Mem
open Lib

/-! Meta header. -/

theorem encodeMetaHeader_length (h : MetaHeader) : (encodeMetaHeader h).length = metaHeaderSize := by
  simp [encodeMetaHeader, metaHeaderSize]

structure HeaderOk (h : MetaHeader) : Prop where
  magic : h.magic = fileMagic
  version : h.version ≤ formatVersion

/-- The header fields as ranges of the buffer. -/
def metaAt (buf : Bytes) : MetaHeader where
  magic := u32.dec (sub buf 0 4)
  version := u16.dec (sub buf 4 6)
  vectorDim := u16.dec (sub buf 6 8)
  lastEventId := u64.dec (sub buf 8 16)
  eventCount := u64.dec (sub buf 16 24)
  streamCount := u64.dec (sub buf 24 32)
  createdAt := nanosToTime (i64.dec (sub buf 32 40))
  lastSnapshotAt := nanosToOptTime (i64.dec (sub buf 40 48))

theorem decodeMetaHeader_ok (buf : Bytes) (hl : metaHeaderSize ≤ buf.length)
    (hok : HeaderOk (metaAt buf)) : decodeMetaHeader buf = .ok (metaAt buf) := by
  have hv : ¬ (metaAt buf).version > formatVersion := UInt16.not_lt.mpr hok.version
  have hm : rdU32 buf 0 = .ok (metaAt buf).magic :=
    rdU32_ok buf (by simp only [metaHeaderSize] at hl; omega)
  have hr : rdU16 buf 4 = .ok (metaAt buf).version :=
    rdU16_ok buf (by simp only [metaHeaderSize] at hl; omega)
  rw [decodeMetaHeader, if_neg (Nat.not_lt.mpr hl)]
  simp only [hm, hr, bind, Except.bind]
  rw [if_neg (not_not.mpr hok.magic), if_neg hv]
  simp only [metaHeaderSize] at hl
  simp (disch := omega) only [rdU16_ok, rdU64_ok, rdI64_ok]
  rfl

theorem metaAt_encode (h : MetaHeader) :
    metaAt (encodeMetaHeader h) = { h with
      createdAt := nanosToTime (timeToNanos h.createdAt)
      lastSnapshotAt := nanosToOptTime (optTimeToNanos h.lastSnapshotAt) } := by
  simp [metaAt, encodeMetaHeader, sub_append_right, u16_dec_enc, u32_dec_enc, u64_dec_enc,
    i64_dec_enc]

theorem readMeta_encode {h : MetaHeader} (hok : HeaderOk h) :
    ∃ h', readMeta (encodeMetaHeader h) = .ok h' ∧ h'.vectorDim = h.vectorDim ∧ HeaderOk h' := by
  have hs : ¬ (encodeMetaHeader h).length < metaHeaderSize := by
    rw [encodeMetaHeader_length]; exact Nat.lt_irrefl _
  have hm : HeaderOk (metaAt (encodeMetaHeader h)) := by
    rw [metaAt_encode]; exact ⟨hok.magic, hok.version⟩
  refine ⟨metaAt (encodeMetaHeader h), ?_, by rw [metaAt_encode], hm⟩
  rw [readMeta, if_neg hs, decodeMetaHeader_ok _ (Nat.not_lt.mp hs) hm]
  rfl

theorem readMeta_sound {buf : Bytes} {h : MetaHeader} (hr : readMeta buf = .ok h) : HeaderOk h := by
  unfold readMeta at hr
  split at hr
  · cases hr
  rename_i hl
  unfold decodeMetaHeader at hr
  rw [if_neg hl] at hr
  simp only [metaHeaderSize] at hl
  simp (disch := omega) only [rdU16_ok, rdU32_ok, rdU64_ok, rdI64_ok, bind, Except.bind] at hr
  split at hr
  · cases hr
  rename_i hm
  split at hr
  · cases hr
  rename_i hv
  cases hr
  exact ⟨Decidable.not_not.mp hm, UInt16.not_lt.mp hv⟩

theorem freshHeader_ok (dim : UInt16) (now : DateTime) : HeaderOk (freshHeader dim now) :=
  ⟨rfl, UInt16.le_refl _⟩

/-- Whatever header an open runs with is one that meta.bin then holds. -/
theorem openMeta_ok {d : Disk} {dim : UInt16} {now : DateTime} {hdr : MetaHeader} {mb : Bytes}
    (h : openMeta d dim now = .ok (hdr, mb)) :
    HeaderOk hdr ∧ ∃ h', readMeta mb = .ok h' ∧ h'.vectorDim = hdr.vectorDim := by
  unfold openMeta at h
  split at h
  · rename_i buf hbuf
    cases hr : readMeta buf with
    | error e => rw [hr] at h; cases h
    | ok h₀ =>
      rw [hr] at h
      cases h
      exact ⟨readMeta_sound hr, hdr, hr, rfl⟩
  · cases h
    obtain ⟨h', hr, hd, -⟩ := readMeta_encode (freshHeader_ok dim now)
    exact ⟨freshHeader_ok dim now, h', hr, hd⟩

/-! The parts of an open. -/

section
variable {dim : UInt16} {E : Bytes} {recs : List IdxRecord} {old : List Event}

theorem Indexed.stored_eq (h : Indexed dim E recs old) : recs.map IdxRecord.stored = recs := by
  conv_rhs => rw [← List.map_id recs]
  exact List.map_congr_left fun r hr => IdxRecord.stored_eq (h.inRange r hr)

/-- Only the whole records counted by `idxBytes` are looked at. -/
theorem coveredEnd_eq (h : Indexed dim E recs old) (s : Store) {J : Bytes}
    (hidx : s.idx.bytes = idxBytesOf recs ++ J) (hlen : s.idxBytes = recs.length * idxRecordSize) :
    ∃ c, s.coveredEnd = .ok c ∧ c.toNat = E.length := by
  have hcount : s.idxBytes / idxRecordSize = recs.length := by
    rw [hlen]
    exact Nat.mul_div_cancel _ (by decide)
  have hcov := h.covered
  have hfit := h.fits
  rcases List.eq_nil_or_concat recs with rfl | ⟨init, r, rfl⟩
  · refine ⟨0, ?_, by simpa [lastEnd] using hcov⟩
    rw [Store.coveredEnd, hcount]; rfl
  · have hr := h.inRange r (by simp)
    have hread : s.readIdxRecord init.length = .ok r := by
      have hb : s.idx.bytes = idxBytesOf init ++ (encodeIdxRecord r ++ J) := by
        rw [hidx, List.concat_eq_append, idxBytesOf_append]; simp [idxBytesOf]
      have hsub : sub s.idx.bytes (init.length * idxRecordSize)
          (init.length * idxRecordSize + idxRecordSize) = encodeIdxRecord r := by
        rw [hb]; exact sub_mid _ _ _ (by simp) (by simp)
      have hd := decodeIdxRecord_encode r []
      rw [List.append_nil, IdxRecord.stored_eq hr] at hd
      rw [Store.readIdxRecord, s.idx.readExactAt_ok (by rw [hb]; simp), hsub]
      simp only [bind, Except.bind, hd]
      rfl
    refine ⟨r.fileOffset + r.recordLen.toUInt64, ?_, ?_⟩
    · rw [Store.coveredEnd, hcount]
      simp only [List.concat_eq_append, List.length_append, List.length_singleton,
        Nat.add_sub_cancel, hread]
      rfl
    · simp only [List.concat_eq_append, lastEnd, List.getLast?_concat, Option.map_some,
        Option.getD_some] at hcov
      simp only [maxFileLen] at hfit
      rw [UInt64.toNat_add, UInt32.toNat_toUInt64, hcov, Nat.mod_eq_of_lt (by omega)]

theorem records_pos {evs : List Event} (hev : ∀ ev ∈ evs, Encodable ev dim) :
    evs.length * eventHeaderSize ≤ (records dim evs).length := by
  induction evs with
  | nil => simp
  | cons ev evs ih =>
    have hs := (hev ev (by simp)).record_ge
    have ht := ih (fun e he => hev e (by simp [he]))
    rw [records_cons, List.length_append, List.length_cons, Nat.succ_mul]
    omega

theorem readEventsRange_ok (s : Store) {a b : UInt64} (hab : a.toNat ≤ b.toNat)
    (hb : b.toNat ≤ s.events.bytes.length) :
    s.readEventsRange a b = .ok (sub s.events.bytes a.toNat b.toNat) := by
  have hlt : ¬ b < a := UInt64.not_lt.mpr (UInt64.le_iff_toNat_le.mpr hab)
  have hs : (b - a).toNat = b.toNat - a.toNat :=
    UInt64.toNat_sub_of_le b a (UInt64.le_iff_toNat_le.mpr hab)
  have he : a.toNat + (b.toNat - a.toNat) = b.toNat := by omega
  rw [Store.readEventsRange, if_neg hlt, hs, s.events.readExactAt_ok (by omega), he]

theorem repairIdx_eq (h : Indexed dim E recs old) (s : Store) {evs : List Event} {cut : Bytes}
    (hidx : s.idx.bytes = idxBytesOf recs) (hib : s.idxBytes = s.idx.bytes.length)
    (heb : s.eventsBytes = s.events.bytes.length) (hdim : s.vectorDim = dim)
    (hbytes : s.events.bytes = E ++ (records dim evs ++ cut))
    (hev : ∀ ev ∈ evs, Encodable ev dim) (hcut : Refused dim cut) :
    s.repairIdx = ((s.pushAll (idxFrom dim E.length evs)).cutAt
      (E.length + (records dim evs).length) cut, .ok evs.length) := by
  have hib' : s.idxBytes = recs.length * idxRecordSize := by rw [hib, hidx, idxBytesOf_length]
  obtain ⟨c, hc, hcn⟩ := coveredEnd_eq h s (J := []) (by rw [hidx, List.append_nil]) hib'
  have hlen : s.events.bytes.length = E.length + ((records dim evs).length + cut.length) := by
    rw [hbytes]; simp only [List.length_append]
  have hpos := records_pos hev
  have hfit := s.events.fits
  have hroom := h.room
  simp only [idxRecordSize, eventHeaderSize] at hib' hpos hroom
  rw [Store.repairIdx, hc]
  simp only [hcn, heb]
  rw [if_neg (by omega)]
  by_cases hend : E.length = s.events.bytes.length
  · have he : evs = [] := List.length_eq_zero_iff.mp (by omega)
    have hz : cut = [] := List.length_eq_zero_iff.mp (by omega)
    simp [hend, he, hz, Store.cutAt, idxFrom, Store.pushAll]
  · have hon : (UInt64.ofNat s.events.bytes.length).toNat = s.events.bytes.length :=
      toNat_offset hfit
    have htail : sub s.events.bytes E.length s.events.bytes.length = records dim evs ++ cut := by
      rw [sub_to_end _ _ _ (Nat.le_refl _), hbytes, List.drop_left]
    rw [if_neg hend, readEventsRange_ok s (by omega) (by omega), hon, hcn, htail, hdim]
    have hloop := repairLoop_records evs cut hev hcut E.length (records dim evs ++ cut) s 0 0
      (Nat.zero_le _) rfl (by simp only [idxRecordSize]; omega)
    simpa using hloop

theorem readAllIdxRecords_eq (h : Indexed dim E recs old) (s : Store)
    (hidx : s.idx.bytes = idxBytesOf recs) (hib : s.idxBytes = s.idx.bytes.length) :
    s.readAllIdxRecords = .ok recs := by
  have hn : s.idxBytes = recs.length * idxRecordSize := by rw [hib, hidx, idxBytesOf_length]
  unfold Store.readAllIdxRecords
  by_cases hz : s.idxBytes = 0
  · have hr : recs = [] := by
      apply List.length_eq_zero_iff.mp
      simp only [idxRecordSize] at hn; omega
    simp [hz, hr]
  · have hsub : sub s.idx.bytes 0 s.idx.bytes.length = idxBytesOf recs ++ [] := by
      rw [sub_to_end _ _ _ (Nat.le_refl _), hidx]; simp
    have hd := decodeIdxRecords_encode recs []
    rw [h.stored_eq] at hd
    rw [if_neg hz, s.idx.readExactAt_ok (by omega), hn, Nat.mul_div_cancel _ (by decide), ← hn, hib,
      Nat.zero_add, hsub]
    exact hd

def maxIdFrom (m : UInt64) (recs : List IdxRecord) : UInt64 :=
  recs.foldl (fun m r => if r.eventId > m then r.eventId else m) m

theorem loadRecords_eq (s : Store) (hp : List.Forall₂ (Points dim s.events.bytes) recs old)
    (g : Graph) (m : UInt64) :
    s.loadRecords dim recs g m = .ok (old.foldl Graph.absorb g, maxIdFrom m recs) := by
  have hfit := s.events.fits
  induction hp generalizing g m with
  | nil => rfl
  | @cons r ev recs old hhead _ ih =>
    obtain ⟨hb, -, ev₀, n, hd, rfl⟩ := hhead
    have hsum : (r.fileOffset + r.recordLen.toUInt64).toNat =
        r.fileOffset.toNat + r.recordLen.toNat := by
      simp only [maxFileLen] at hfit
      rw [UInt64.toNat_add, UInt32.toNat_toUInt64, Nat.mod_eq_of_lt (by omega)]
    have hread := readEventsRange_ok s (a := r.fileOffset)
      (b := r.fileOffset + r.recordLen.toUInt64) (by omega) (by omega)
    rw [hsum] at hread
    rw [Store.loadRecords, hread]
    simp only [bind, Except.bind, hd, Except.mapError]
    rw [ih]
    rfl

/-! Settled stores. -/

/-- The store agrees with its files: the byte counters are the file lengths and the index
covers events.bin to its end; `evs` are the events it loads. -/
structure Store.Settled (s : Store) (recs : List IdxRecord) (evs : List Event) : Prop where
  indexed : Indexed s.vectorDim s.events.bytes recs evs
  idx : s.idx.bytes = idxBytesOf recs
  eventsBytes : s.eventsBytes = s.events.bytes.length
  idxBytes : s.idxBytes = s.idx.bytes.length
  header : HeaderOk s.header
  metaBin : ∃ h, readMeta s.metaBin = .ok h ∧ h.vectorDim = s.vectorDim

/-- A disk an open can work with: behind the indexed prefix `E` stand whole records and
then nothing the decoder accepts. `mb` is the meta.bin it runs with. -/
structure Disk.Recoverable (d : Disk) (reqDim : UInt16) (now : DateTime) (dim : UInt16) (mb E : Bytes)
    (recs : List IdxRecord) (old evs : List Event) (cut : Bytes) : Prop where
  openMeta : ∃ hdr h, openMeta d reqDim now = .ok (hdr, mb) ∧ hdr.vectorDim = dim ∧ HeaderOk hdr ∧
    readMeta mb = .ok h ∧ h.vectorDim = dim
  idx : d.idx.bytes = idxBytesOf recs
  indexed : Indexed dim E recs old
  events : d.events.bytes = E ++ (records dim evs ++ cut)
  encodable : ∀ ev ∈ evs, Encodable ev dim
  refused : Refused dim cut

theorem pushAll_header (rs : List IdxRecord) (s : Store) (h : HeaderOk s.header) :
    HeaderOk (s.pushAll rs).header := by
  induction rs generalizing s with
  | nil => exact h
  | cons r rs ih => exact ih (s.pushIdx r) ⟨h.magic, h.version⟩

theorem cutAt_spec (s : Store) (stop : Nat) (cut whole : Bytes)
    (heb : s.eventsBytes = s.events.bytes.length) (hbytes : s.events.bytes = whole ++ cut)
    (hstop : stop = whole.length) :
    (s.cutAt stop cut).events.bytes = whole ∧
      (s.cutAt stop cut).eventsBytes = (s.cutAt stop cut).events.bytes.length ∧
      (s.cutAt stop cut).idx = s.idx ∧ (s.cutAt stop cut).idxBytes = s.idxBytes ∧
      (s.cutAt stop cut).graph = s.graph ∧ (s.cutAt stop cut).metaBin = s.metaBin ∧
      (s.cutAt stop cut).header = s.header := by
  unfold Store.cutAt
  by_cases hc : cut = []
  · rw [if_pos hc]
    exact ⟨by rw [hbytes, hc, List.append_nil], heb, rfl, rfl, rfl, rfl, rfl⟩
  · rw [if_neg hc]
    have hlen : (s.events.setLen stop).bytes = whole := by
      rw [File.setLen_le _ _ (by rw [hbytes, hstop]; simp), hbytes, hstop, List.take_left]
    refine ⟨hlen, ?_, rfl, rfl, rfl, rfl, rfl⟩
    show stop = (s.events.setLen stop).bytes.length
    rw [hlen, ← hstop]

/-- What a repair makes of a store: the events behind `E` are indexed, the refused rest is gone. -/
structure Store.Repaired (s s' : Store) (dim : UInt16) (E : Bytes) (evs : List Event) : Prop where
  events : s'.events.bytes = E ++ records dim evs
  eventsBytes : s'.eventsBytes = s'.events.bytes.length
  idx : s'.idx.bytes = s.idx.bytes ++ idxBytesOf (idxFrom dim E.length evs)
  idxBytes : s'.idxBytes = s'.idx.bytes.length
  graph : s'.graph = s.graph
  metaBin : s'.metaBin = s.metaBin
  vectorDim : s'.vectorDim = s.vectorDim
  header : HeaderOk s.header → HeaderOk s'.header

theorem repairIdx_repaired (h : Indexed dim E recs old) (s : Store) {evs : List Event} {cut : Bytes}
    (hidx : s.idx.bytes = idxBytesOf recs) (hib : s.idxBytes = s.idx.bytes.length)
    (heb : s.eventsBytes = s.events.bytes.length) (hdim : s.vectorDim = dim)
    (hbytes : s.events.bytes = E ++ (records dim evs ++ cut))
    (hev : ∀ ev ∈ evs, Encodable ev dim) (hcut : Refused dim cut) :
    ∃ s', s.repairIdx = (s', .ok evs.length) ∧ s.Repaired s' dim E evs := by
  refine ⟨_, repairIdx_eq h s hidx hib heb hdim hbytes hev hcut, ?_⟩
  have hroom : s.idxBytes + (idxFrom dim E.length evs).length * idxRecordSize ≤ maxFileLen := by
    have hfit := s.events.fits
    have hpos := records_pos hev
    have hcov := h.room
    rw [hbytes, List.length_append, List.length_append] at hfit
    rw [hib, hidx, idxBytesOf_length, idxFrom_length]
    simp only [eventHeaderSize, idxRecordSize] at *
    omega
  obtain ⟨p₁, p₂, p₃, p₄, p₅, p₆, p₇⟩ := pushAll_spec (idxFrom dim E.length evs) s hib hroom
  obtain ⟨c₁, c₂, c₃, c₄, c₅, c₆, c₇⟩ := cutAt_spec (s.pushAll (idxFrom dim E.length evs))
    (E.length + (records dim evs).length) cut (E ++ records dim evs)
    (by rw [p₃, p₄, heb]) (by rw [p₃, hbytes, List.append_assoc]) (by simp)
  refine ⟨c₁, c₂, by rw [c₃, p₁], by rw [c₃, c₄, p₂], c₅.trans p₅, c₆.trans p₆, ?_, fun hok => ?_⟩
  · rw [Store.vectorDim, c₇]; exact p₇
  · rw [c₇]; exact pushAll_header _ s hok

/-- A load repairs and then reads every event back. -/
theorem load_repaired (h : Indexed dim E recs old) (s s' : Store) {evs : List Event}
    (hidx : s.idx.bytes = idxBytesOf recs) (hdim : s.vectorDim = dim) (hg : s.graph = .empty)
    (hev : ∀ ev ∈ evs, Encodable ev dim) (hrun : s.repairIdx = (s', .ok evs.length))
    (hrep : s.Repaired s' dim E evs) :
    Indexed dim s'.events.bytes (recs ++ idxFrom dim E.length evs)
        (old ++ loadedFrom dim E.length evs) ∧
      s'.idx.bytes = idxBytesOf (recs ++ idxFrom dim E.length evs) ∧
      ∃ rep : LoadReport, rep.repairedIdx = evs.length ∧ s.load = ({ s' with
        graph := (old ++ loadedFrom dim E.length evs).foldl Graph.absorb .empty
        nextEventId := maxIdFrom 0 (recs ++ idxFrom dim E.length evs) + 1 }, .ok rep) := by
  have hext := h.extend evs hev (by rw [← hrep.events]; exact s'.events.fits)
  rw [← hrep.events] at hext
  have hidx' : s'.idx.bytes = idxBytesOf (recs ++ idxFrom dim E.length evs) := by
    rw [hrep.idx, hidx, idxBytesOf_append]
  have hall := readAllIdxRecords_eq hext s' hidx' hrep.idxBytes
  have hload := loadRecords_eq s' hext.points .empty 0
  let g := (old ++ loadedFrom dim E.length evs).foldl Graph.absorb .empty
  refine ⟨hext, hidx', ⟨g.byId.size, g.streams.size, g.inverseRefCount, evs.length⟩, rfl, ?_⟩
  rw [Store.load, hrun]
  simp only [hall]
  rw [hrep.vectorDim, hdim, hrep.graph, hg, hload]

/-- Opening indexes what the index did not cover, drops the refused rest and settles. -/
theorem openOrCreate_recovers {d : Disk} {reqDim : UInt16} {now : DateTime} {mb : Bytes}
    {evs : List Event} {cut : Bytes}
    (h : d.Recoverable reqDim now dim mb E recs old evs cut) :
    ∃ s rep, Store.openOrCreate d reqDim now = (s.disk, .ok (s, rep)) ∧
      s.Settled (recs ++ idxFrom dim E.length evs) (old ++ loadedFrom dim E.length evs) ∧
      s.graph = (old ++ loadedFrom dim E.length evs).foldl Graph.absorb .empty ∧
      s.nextEventId = maxIdFrom 0 (recs ++ idxFrom dim E.length evs) + 1 ∧
      s.events.bytes = E ++ records dim evs ∧ s.vectorDim = dim ∧ s.metaBin = mb ∧
      rep.repairedIdx = evs.length := by
  obtain ⟨hdr, hm, hmeta, hdim, hhok, hread, hmdim⟩ := h.openMeta
  -- the state `load` starts from
  let s₀ : Store := {
    metaBin := mb, events := d.events, idx := d.idx, header := hdr
    eventsBytes := d.events.bytes.length, idxBytes := d.idx.bytes.length
    graph := .empty, nextEventId := 1 }
  obtain ⟨s₁, hrun, hrep⟩ := repairIdx_repaired h.indexed s₀ h.idx rfl rfl hdim h.events h.encodable
    h.refused
  obtain ⟨hext, hidx, rep, hcount, hload⟩ := load_repaired h.indexed s₀ s₁ h.idx hdim rfl
    h.encodable hrun hrep
  have hd₁ : s₁.vectorDim = dim := hrep.vectorDim.trans hdim
  have hmb : s₁.metaBin = mb := hrep.metaBin
  refine ⟨{ s₁ with
      graph := (old ++ loadedFrom dim E.length evs).foldl Graph.absorb .empty
      nextEventId := maxIdFrom 0 (recs ++ idxFrom dim E.length evs) + 1 }, rep, ?_,
    ⟨?_, hidx, hrep.eventsBytes, hrep.idxBytes, hrep.header hhok, hm, ?_, ?_⟩,
    rfl, rfl, hrep.events, hd₁, hmb, hcount⟩
  · have hmod : d.idx.bytes.length % idxRecordSize = 0 := by
      rw [h.idx, idxBytesOf_length]; exact Nat.mul_mod_left _ _
    rw [Store.openOrCreate, hmeta]
    simp only [hmod, ne_eq, not_true_eq_false, if_false]
    rw [show (⟨mb, d.events, d.idx, hdr, d.events.bytes.length, d.idx.bytes.length, .empty, 1⟩ :
      Store) = s₀ from rfl, hload]
  · show Indexed s₁.vectorDim s₁.events.bytes _ _
    rw [hd₁]; exact hext
  · show readMeta s₁.metaBin = _
    rw [hmb]; exact hread
  · exact hmdim.trans hd₁.symm

/-! Opening again. -/

theorem File.ext_bytes {f g : File} (h : f.bytes = g.bytes) : f = g := by
  cases f; cases g; cases h; rfl

theorem Store.Settled.recoverable {s : Store} {evs : List Event} (h : s.Settled recs evs)
    (reqDim : UInt16) (now : DateTime) :
    s.disk.Recoverable reqDim now s.vectorDim s.metaBin s.events.bytes recs evs [] [] := by
  obtain ⟨hm, hread, hdim⟩ := h.metaBin
  refine ⟨⟨hm, hm, ?_, hdim, readMeta_sound hread, hread, hdim⟩, h.idx, h.indexed, ?_, by simp,
    Or.inl rfl⟩
  · simp only [openMeta, Store.disk, hread, bind, Except.bind]; rfl
  · simp [Store.disk, records]

/-- Reopening a settled store changes no file and loads the same events. -/
theorem Store.Settled.reopen {s : Store} {evs : List Event} (h : s.Settled recs evs)
    (reqDim : UInt16) (now : DateTime) :
    ∃ s' rep, Store.openOrCreate s.disk reqDim now = (s.disk, .ok (s', rep)) ∧
      s'.disk = s.disk ∧ s'.Settled recs evs ∧ s'.graph = evs.foldl Graph.absorb .empty ∧
      s'.nextEventId = maxIdFrom 0 recs + 1 ∧ s'.vectorDim = s.vectorDim ∧
      rep.repairedIdx = 0 := by
  obtain ⟨s', rep, ho, hs, hg, hn, he, hd, hmb, hr⟩ :=
    openOrCreate_recovers (h.recoverable reqDim now)
  simp only [idxFrom, loadedFrom, List.append_nil, records, List.flatMap_nil,
    List.length_nil] at hs hg hn he hr
  have hdisk : s'.disk = s.disk := by
    have hi : s'.idx = s.idx := File.ext_bytes (by rw [hs.idx, h.idx])
    have hv : s'.events = s.events := File.ext_bytes he
    simp only [Store.disk, hi, hv, hmb]
  exact ⟨s', rep, by rw [ho, hdisk], hdisk, hs, hg, hn, hd, hr⟩

end

/-! An empty directory. -/

def Disk.blank : Disk := ⟨none, .empty, .empty⟩

/-- The store that the first open creates. -/
def Store.fresh (dim : UInt16) (now : DateTime) : Store where
  metaBin := encodeMetaHeader (freshHeader dim now)
  events := .empty
  idx := .empty
  header := freshHeader dim now
  eventsBytes := 0
  idxBytes := 0
  graph := .empty
  nextEventId := 1

theorem fresh_settled (dim : UInt16) (now : DateTime) : (Store.fresh dim now).Settled [] [] := by
  obtain ⟨h, hr, hd, -⟩ := readMeta_encode (freshHeader_ok dim now)
  exact ⟨.nil _, rfl, rfl, rfl, freshHeader_ok dim now, h, hr, hd⟩

theorem openOrCreate_blank (dim : UInt16) (now : DateTime) :
    ∃ rep, Store.openOrCreate .blank dim now =
      ((Store.fresh dim now).disk, .ok (Store.fresh dim now, rep)) := by
  refine ⟨⟨Graph.empty.byId.size, Graph.empty.streams.size, Graph.empty.inverseRefCount, 0⟩, ?_⟩
  simp [Store.openOrCreate, openMeta, Disk.blank, File.empty, Store.load, Store.repairIdx,
    Store.coveredEnd, Store.readAllIdxRecords, Store.loadRecords, Store.fresh]

end Onisin.Mem
