import Onisin.Mem.Append

/-!
Crashes. What an unfinished append leaves on disk is at most one whole record that no
index record covers, the first bytes of another, and the first bytes of one index record.
The open path copes with all of it except a partial index record.
-/

set_option autoImplicit false

namespace Onisin.Mem
open Lib

/-- What unfinished appends leave behind the `off` indexed bytes of events.bin: orphaned
records, bytes of a further record, and bytes behind the last whole index record. `Q`
holds of every event that an open could find there. -/
inductive Trail (dim : UInt16) (Q : Event → Prop) (off : Nat) : List Event → Bytes → Bytes → Prop
  | clean : Trail dim Q off [] [] []
  | torn {ev : Event} (p : Nat) (hev : Encodable ev dim) (hq : Q ev) :
    Trail dim Q off [] ((recordBytes ev dim).take p) []
  | orphan {o ev : Event} (p j : Nat) (ho : Encodable o dim) (hq : Q o) (hev : Encodable ev dim)
    (hp : p < (recordBytes ev dim).length) (hj : j ≤ idxRecordSize) :
    Trail dim Q off [o] ((recordBytes ev dim).take p) ((encodeIdxRecord (idxFor dim off o)).take j)

/-- A disk made of an indexed part and a trail. -/
structure Disk.Trailing (d : Disk) (dim : UInt16) (Q : Event → Prop) (E : Bytes)
    (recs : List IdxRecord) (old orphans : List Event) (P J : Bytes) : Prop where
  metaBin : ∃ mb h, d.metaBin = some mb ∧ readMeta mb = .ok h ∧ h.vectorDim = dim
  indexed : Indexed dim E recs old
  events : d.events.bytes = E ++ (records dim orphans ++ P)
  idx : d.idx.bytes = idxBytesOf recs ++ J
  trail : Trail dim Q E.length orphans P J

/-- Opening `d` loads the events `old` and those of `found`, and settles. -/
def Disk.OpensWith (d : Disk) (reqDim : UInt16) (now : DateTime) (dim : UInt16) (off : Nat)
    (recs : List IdxRecord) (old found : List Event) : Prop :=
  ∃ s rep, Store.openOrCreate d reqDim now = (s.disk, .ok (s, rep)) ∧ s.vectorDim = dim ∧
    s.Settled (recs ++ idxFrom dim off found) (old ++ loadedFrom dim off found) ∧
    s.graph = (old ++ loadedFrom dim off found).foldl Graph.absorb .empty ∧
    s.nextEventId = maxIdFrom 0 (recs ++ idxFrom dim off found) + 1

section
variable {d : Disk} {dim : UInt16} {Q : Event → Prop} {E : Bytes} {recs : List IdxRecord}
  {old orphans : List Event} {P J : Bytes}

theorem openMeta_some {mb : Bytes} {h : MetaHeader} (hm : d.metaBin = some mb)
    (hr : readMeta mb = .ok h) (reqDim : UInt16) (now : DateTime) :
    openMeta d reqDim now = .ok (h, mb) := by
  simp only [openMeta, hm, hr, bind, Except.bind]; rfl

theorem Disk.Trailing.metaOk (h : d.Trailing dim Q E recs old orphans P J) (reqDim : UInt16)
    (now : DateTime) : ∃ mb hdr hm, openMeta d reqDim now = .ok (hdr, mb) ∧ hdr.vectorDim = dim ∧
      HeaderOk hdr ∧ readMeta mb = .ok hm ∧ hm.vectorDim = dim := by
  obtain ⟨mb, hdr, hm, hr, hd⟩ := h.metaBin
  exact ⟨mb, hdr, hdr, openMeta_some hm hr reqDim now, hd, readMeta_sound hr, hr, hd⟩

/-- The index stops at the last acknowledged record: the repair finds what follows. -/
theorem Disk.Trailing.opensWith (h : d.Trailing dim Q E recs old orphans P J) (found : List Event)
    (cut : Bytes) (hJ : J = []) (hev : ∀ ev ∈ found, Encodable ev dim) (hcut : Refused dim cut)
    (hsplit : records dim orphans ++ P = records dim found ++ cut) (reqDim : UInt16)
    (now : DateTime) : d.OpensWith reqDim now dim E.length recs old found := by
  obtain ⟨mb, hdr, hm, hmeta⟩ := h.metaOk reqDim now
  have hrec : d.Recoverable reqDim now dim mb E recs old found cut :=
    ⟨⟨hdr, hm, hmeta⟩, by rw [h.idx, hJ, List.append_nil], h.indexed, by rw [h.events, hsplit],
      hev, hcut⟩
  obtain ⟨s, rep, ho, hs, hg, hn, -, hdim, -⟩ := openOrCreate_recovers hrec
  exact ⟨s, rep, ho, hdim, hs, hg, hn⟩

/-- An index record that reached the disk whole counts, acknowledged or not. -/
theorem Disk.Trailing.opensWith_indexed {o : Event} (h : d.Trailing dim Q E recs old [o] P J)
    (ho : Encodable o dim) (hJ : J = encodeIdxRecord (idxFor dim E.length o))
    (hcut : Refused dim P) (reqDim : UInt16) (now : DateTime) :
    d.OpensWith reqDim now dim E.length recs old [o] := by
  obtain ⟨mb, hdr, hm, hmeta⟩ := h.metaOk reqDim now
  have hfit := d.events.fits
  rw [h.events] at hfit
  have hin := h.indexed.snoc [] ho (by
    simp only [records, List.flatMap_cons, List.flatMap_nil, List.length_append] at hfit
    simp only [List.append_nil, List.length_append]
    omega)
  rw [List.append_nil] at hin
  have hrec : d.Recoverable reqDim now dim mb (E ++ recordBytes o dim)
      (recs ++ [idxFor dim E.length o]) (old ++ [o.loaded E.length]) [] P := by
    refine ⟨⟨hdr, hm, hmeta⟩, ?_, hin, ?_, by simp, hcut⟩
    · rw [h.idx, hJ, idxBytesOf_append]; simp [idxBytesOf]
    · rw [h.events]; simp [records]
  obtain ⟨s, rep, hopen, hs, hg, hn, -, hdim, -⟩ := openOrCreate_recovers hrec
  simp only [idxFrom, loadedFrom, List.append_nil] at hs hg hn
  exact ⟨s, rep, hopen, hdim, hs, hg, hn⟩

theorem Disk.Trailing.misaligned (h : d.Trailing dim Q E recs old orphans P J)
    (hpos : 0 < J.length) (hlt : J.length < idxRecordSize) (reqDim : UInt16) (now : DateTime) :
    Store.openOrCreate d reqDim now =
      (d, .error (.idxMisaligned d.idx.bytes.length idxRecordSize)) := by
  obtain ⟨mb, hdr, hm, hr, -⟩ := h.metaBin
  have hmod : d.idx.bytes.length % idxRecordSize ≠ 0 := by
    rw [h.idx, List.length_append, idxBytesOf_length, Nat.add_comm, Nat.add_mul_mod_self_right,
      Nat.mod_eq_of_lt hlt]
    omega
  rw [Store.openOrCreate, openMeta_some hm hr]
  simp only [if_pos hmod, ← hm]

/-- The open of a disk with a trail, for every shape of the trail. -/
theorem Disk.Trailing.reopen (h : d.Trailing dim Q E recs old orphans P J) (reqDim : UInt16)
    (now : DateTime) :
    (0 < J.length ∧ J.length < idxRecordSize ∧ Store.openOrCreate d reqDim now =
      (d, .error (.idxMisaligned d.idx.bytes.length idxRecordSize))) ∨
    ((J.length = 0 ∨ J.length = idxRecordSize) ∧
      ∃ found, (found = [] ∨ ∃ ev, found = [ev] ∧ Encodable ev dim ∧ Q ev) ∧
        d.OpensWith reqDim now dim E.length recs old found) := by
  have htrail := h.trail
  cases htrail with
  | clean => exact Or.inr ⟨Or.inl rfl, [], Or.inl rfl,
      h.opensWith [] [] rfl (by simp) (Or.inl rfl) rfl reqDim now⟩
  | @torn ev p hev hq =>
    refine Or.inr ⟨Or.inl rfl, ?_⟩
    by_cases hp : p < (recordBytes ev dim).length
    · exact ⟨[], Or.inl rfl, h.opensWith [] _ rfl (by simp) (refused_take hev hp) rfl reqDim now⟩
    · refine ⟨[ev], Or.inr ⟨ev, rfl, hev, hq⟩,
        h.opensWith [ev] [] rfl (by simpa using hev) (Or.inl rfl) ?_ reqDim now⟩
      rw [List.take_of_length_le (Nat.not_lt.mp hp)]
      simp [records]
  | @orphan o ev p j ho hq hev hp hj =>
    have hlen : ((encodeIdxRecord (idxFor dim E.length o)).take j).length = j := by
      rw [List.length_take, encodeIdxRecord_length, Nat.min_eq_left hj]
    rw [hlen]
    by_cases h0 : j = 0
    · subst h0
      exact Or.inr ⟨Or.inl rfl, [o], Or.inr ⟨o, rfl, ho, hq⟩,
        h.opensWith [o] _ rfl (by simpa using ho) (refused_take hev hp) rfl reqDim now⟩
    by_cases hfull : j = idxRecordSize
    · refine Or.inr ⟨Or.inr hfull, [o], Or.inr ⟨o, rfl, ho, hq⟩,
        h.opensWith_indexed ho ?_ (refused_take hev hp) reqDim now⟩
      rw [hfull, List.take_of_length_le (by simp)]
    · exact Or.inl ⟨by omega, by omega,
        h.misaligned (by rw [hlen]; omega) (by rw [hlen]; omega) reqDim now⟩

end

/-! One append on a settled store. -/

theorem Indexed.idxRoom {dim : UInt16} {E : Bytes} {recs : List IdxRecord} {old : List Event}
    (h : Indexed dim E recs old) {ev : Event} (hev : Encodable ev dim) {n : Nat} (hn : E.length ≤ n)
    (hfit : n + (recordBytes ev dim).length ≤ maxFileLen) :
    recs.length * idxRecordSize + idxRecordSize ≤ maxFileLen := by
  have hroom := h.room
  have hlen := hev.record_ge
  simp only [eventHeaderSize, idxRecordSize] at *
  omega

theorem encodeIdxRecord_for (s : Store) (ev : Event) :
    encodeIdxRecord (s.idxRecordFor ev (recordBytes ev s.vectorDim)) =
      encodeIdxRecord (idxFor s.vectorDim s.eventsBytes ev) := by
  simp [encodeIdxRecord, Store.idxRecordFor, idxFor]

theorem Store.written_le (s : Store) (fault : Option IoFault) (buf : Bytes) :
    s.written fault buf ≤ buf.length ∧ s.written fault buf ≤ maxFileLen - s.eventsBytes := by
  simp only [Store.written]; omega

/-- The crash point lies strictly inside the index write. -/
def Store.TornIdx (s : Store) (now : DateTime) (fault : Option IoFault) (ev : Event) : Prop :=
  Encodable (s.prepare now ev) s.vectorDim ∧
    s.eventsBytes + (s.recordOf now ev).length ≤ maxFileLen ∧
    ∃ n, fault = some (.idxWrite n) ∧ 0 < n ∧ n < idxRecordSize

section
variable {s : Store} {recs : List IdxRecord} {evs : List Event}

theorem Store.Settled.trailing (h : s.Settled recs evs) (Q : Event → Prop) :
    s.disk.Trailing s.vectorDim Q s.events.bytes recs evs [] [] [] := by
  obtain ⟨hm, hr, hd⟩ := h.metaBin
  exact ⟨⟨s.metaBin, hm, rfl, hr, hd⟩, h.indexed, by simp [Store.disk, records],
    by simp [Store.disk, h.idx], .clean⟩

theorem Store.Settled.eventsFile (h : s.Settled recs evs) (buf : Bytes)
    (hfit : s.eventsBytes + buf.length ≤ maxFileLen) :
    (s.events.writeAt s.eventsBytes buf).bytes = s.events.bytes ++ buf := by
  rw [h.eventsBytes] at hfit ⊢
  exact s.events.writeAt_end buf hfit

theorem Store.Settled.tearIdx (h : s.Settled recs evs) {now : DateTime} {ev : Event}
    (hev : Encodable (s.prepare now ev) s.vectorDim)
    (hfit : s.eventsBytes + (s.recordOf now ev).length ≤ maxFileLen) {j : Nat}
    (hj : j ≤ idxRecordSize) :
    (s.tearIdx (s.prepare now ev) (s.recordOf now ev) j).disk.Trailing s.vectorDim
      (· = s.prepare now ev) s.events.bytes recs evs [s.prepare now ev] []
      ((encodeIdxRecord (idxFor s.vectorDim s.events.bytes.length (s.prepare now ev))).take j) := by
  obtain ⟨hm, hr, hd⟩ := h.metaBin
  have hroom := h.indexed.idxRoom hev (Nat.le_of_eq h.eventsBytes.symm) hfit
  have hib : s.idx.bytes.length = recs.length * idxRecordSize := by rw [h.idx, idxBytesOf_length]
  have hjl : ((encodeIdxRecord (s.idxRecordFor (s.prepare now ev) (s.recordOf now ev))).take
      j).length ≤ idxRecordSize := by rw [List.length_take]; simp
  rw [Store.tearIdx_disk]
  refine ⟨⟨s.metaBin, hm, rfl, hr, hd⟩, h.indexed, ?_, ?_, ?_⟩
  · show (s.events.writeAt _ _).bytes = _
    rw [h.eventsFile _ hfit]
    simp [records, Store.recordOf]
  · show (s.idx.writeAt _ _).bytes = _
    rw [h.idxBytes, s.idx.writeAt_end _ (by omega), h.idx, Store.recordOf, encodeIdxRecord_for,
      h.eventsBytes]
  · exact .orphan 0 j hev rfl hev hev.record_pos hj

theorem Store.Settled.tearEvents (h : s.Settled recs evs) {now : DateTime} {ev : Event}
    (hev : Encodable (s.prepare now ev) s.vectorDim) (fault : Option IoFault) :
    (s.tearEvents (s.recordOf now ev) (s.written fault (s.recordOf now ev))).disk.Trailing
      s.vectorDim (· = s.prepare now ev) s.events.bytes recs evs []
      ((s.recordOf now ev).take (s.written fault (s.recordOf now ev))) [] := by
  obtain ⟨hm, hr, hd⟩ := h.metaBin
  obtain ⟨hw, hw'⟩ := s.written_le fault (s.recordOf now ev)
  have hmax : s.eventsBytes ≤ maxFileLen := by rw [h.eventsBytes]; exact s.events.fits
  refine ⟨⟨s.metaBin, hm, rfl, hr, hd⟩, h.indexed, ?_, by simp [Store.tearEvents, Store.disk, h.idx],
    .torn _ hev rfl⟩
  show (s.events.writeAt _ _).bytes = _
  rw [h.eventsFile _ (by rw [List.length_take]; omega)]
  simp [records]

/-- The files of an append that stopped anywhere, seen from the settled store before it. -/
theorem Store.Settled.crash (h : s.Settled recs evs) (now : DateTime) (fault : Option IoFault)
    (ev : Event) :
    ∃ orphans P J, (s.appendEvent now fault ev).1.disk.Trailing s.vectorDim
        (· = s.prepare now ev) s.events.bytes recs evs orphans P J ∧
      ((0 < J.length ∧ J.length < idxRecordSize) ↔ s.TornIdx now fault ev) := by
  have hib : s.idxBytes = recs.length * idxRecordSize := by
    rw [h.idxBytes, h.idx, idxBytesOf_length]
  have htake (j : Nat) (e : IdxRecord) : ((encodeIdxRecord e).take j).length = min j idxRecordSize := by
    rw [List.length_take, encodeIdxRecord_length]
  by_cases hev : Encodable (s.prepare now ev) s.vectorDim
  · have hroom : s.eventsBytes + (s.recordOf now ev).length ≤ maxFileLen →
        s.idxBytes + idxRecordSize ≤ maxFileLen := fun hfit => by
      rw [hib]
      exact h.indexed.idxRoom hev (Nat.le_of_eq h.eventsBytes.symm) hfit
    obtain ⟨hno, -⟩ | ⟨-, ⟨hf, he⟩ | ⟨hfit, ⟨j, hj, hjn, he⟩ | ⟨hnone, he⟩⟩⟩ :=
      appendEvent_cases s now fault ev hroom
    · exact absurd hev hno
    · refine ⟨_, _, _, by rw [he]; exact h.tearEvents hev fault, ?_⟩
      refine iff_of_false (by simp) ?_
      rintro ⟨-, hfit, n, rfl, -⟩
      obtain ⟨m, hm⟩ | hs | hl := hf
      · cases hm
      · cases hs
      · omega
    · refine ⟨_, _, _, by rw [he]; exact h.tearIdx hev hfit hj, ?_⟩
      rw [htake, Nat.min_eq_left hj]
      constructor
      · rintro ⟨hpos, hlt⟩
        obtain ⟨n, hn, rfl⟩ := hjn.resolve_left (fun hs => by omega)
        exact ⟨hev, hfit, n, hn, by omega, by omega⟩
      · rintro ⟨-, -, n, rfl, hpos, hlt⟩
        obtain ⟨hsync, -⟩ | ⟨m, hm, rfl⟩ := hjn
        · cases hsync
        · cases hm
          omega
    · refine ⟨_, _, _, by rw [he, Store.commit_disk]; exact h.tearIdx hev hfit (Nat.le_refl _), ?_⟩
      rw [htake, Nat.min_self]
      refine iff_of_false (by omega) ?_
      rintro ⟨-, -, n, hn, -⟩
      rw [hnone] at hn
      cases hn
  · obtain ⟨e, he⟩ := appendEvent_rejected s now fault ev hev
    refine ⟨[], [], [], by rw [he]; exact h.trailing _, iff_of_false (by simp) ?_⟩
    exact fun ht => hev ht.1

/-- A crash at this point of the append is harmless: the store opens with the events it
had, or with those and the new one. -/
def Store.CrashSafe (s : Store) (evs : List Event) (now : DateTime) (fault : Option IoFault)
    (ev : Event) : Prop :=
  ∀ reqDim now', ∃ s' rep,
    Store.openOrCreate (s.appendEvent now fault ev).1.disk reqDim now' = (s'.disk, .ok (s', rep)) ∧
      (s'.graph = evs.foldl Graph.absorb .empty ∨
        s'.graph = (evs ++ [(s.prepare now ev).loaded s.eventsBytes]).foldl Graph.absorb .empty)

theorem Store.Settled.open_torn (h : s.Settled recs evs) {now : DateTime} {fault : Option IoFault}
    {ev : Event} (ht : s.TornIdx now fault ev) (reqDim : UInt16) (now' : DateTime) :
    ∃ size, (Store.openOrCreate (s.appendEvent now fault ev).1.disk reqDim now').2 =
      .error (.idxMisaligned size idxRecordSize) := by
  obtain ⟨orphans, P, J, htrail, htorn⟩ := h.crash now fault ev
  obtain ⟨hpos, hlt⟩ := htorn.mpr ht
  exact ⟨_, by rw [htrail.misaligned hpos hlt]⟩

theorem Store.Settled.not_crashSafe (h : s.Settled recs evs) {now : DateTime}
    {fault : Option IoFault} {ev : Event} (ht : s.TornIdx now fault ev) :
    ¬ s.CrashSafe evs now fault ev := by
  intro hsafe
  obtain ⟨s', rep, hopen, -⟩ := hsafe 0 0
  obtain ⟨size, he⟩ := h.open_torn ht 0 0
  rw [hopen] at he
  cases he

end

theorem prepare_blank (s : Store) (now : DateTime) (id : UInt64) :
    s.prepare now (blankEvent id) = blankEvent s.nextEventId := by
  have hz : timeToNanos (1 : DateTime) ≠ 0 := timeToNanos_ne_zero ⟨by decide, by decide⟩ (by decide)
  simp [Store.prepare, blankEvent, hz]

theorem tornIdx_fresh (now now' : DateTime) :
    (Store.fresh 0 now).TornIdx now' (some (.idxWrite 1)) (blankEvent 0) := by
  refine ⟨by rw [prepare_blank]; exact blankEvent_encodable _, ?_, 1, rfl, by decide, by decide⟩
  rw [Store.recordOf, prepare_blank]
  show 0 + (recordBytes (blankEvent _) 0).length ≤ maxFileLen
  rw [blankEvent_length]
  decide

end Onisin.Mem
