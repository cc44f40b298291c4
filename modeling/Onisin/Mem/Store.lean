import Mathlib.Data.Nat.Notation
import Std.Data.ExtTreeMap
import Onisin.Mem.RoundTrip

/-!
The store of `store.rs`: three files, the byte counters kept beside them, and the
in-RAM graph derived from the records. Operations pass the state explicitly and return
it together with their result, because a failed call leaves its partial effects behind.
-/

set_option autoImplicit false

namespace Onisin.Mem
open Lib

/-- File offsets are signed 64-bit words, so no file grows past this length. -/
def maxFileLen : Nat := 2^63 - 1

structure File where
  bytes : Bytes
  fits : bytes.length ≤ maxFileLen

def File.empty : File := ⟨[], Nat.zero_le _⟩

instance : Inhabited File := ⟨.empty⟩

/-- One positioned write. An empty write changes nothing, not even the length. -/
def File.writeAt (f : File) (off : Nat) (bs : Bytes) : File :=
  if h : bs ≠ [] ∧ off + bs.length ≤ maxFileLen then
    ⟨overwrite 0 f.bytes off bs, by
      rw [length_overwrite]; exact Nat.max_le.mpr ⟨f.fits, h.2⟩⟩
  else f

/-- `write_all_at`: with `stop = some n` the call fails after `n` bytes; without it, it
fails only at the length limit. The flag says whether it succeeded. -/
def File.writeAllAt (f : File) (buf : Bytes) (off : Nat) (stop : Option Nat) : File × Bool :=
  let n := min (stop.getD buf.length) (maxFileLen - off)
  (f.writeAt off (buf.take n), stop.isNone && decide (buf.length ≤ n))

def File.setLen (f : File) (n : Nat) : File :=
  if h : n ≤ f.bytes.length then
    ⟨f.bytes.take n, by rw [List.length_take]; have := f.fits; omega⟩
  else f.writeAt f.bytes.length (List.replicate (n - f.bytes.length) 0)

inductive StoreError where
  | io
  | format (e : FormatError)
  | idxMisaligned (size rec : Nat)
  | idxAhead (covered events : Nat)
  | metaShort (size : Nat)
  /-- Not an error value of the source: an index outside a buffer. -/
  | panic
  deriving DecidableEq, Repr

def StoreError.ofFault : Fault → StoreError
  | .format e => .format e
  | .panic => .panic

def File.readExactAt (f : File) (off n : Nat) : Except StoreError Bytes :=
  if n = 0 ∨ off + n ≤ f.bytes.length then .ok (sub f.bytes off (off + n)) else .error .io

/-! The in-RAM graph. -/

abbrev Map (β : Type) := Std.ExtTreeMap UInt64 β

structure Stream where
  id : UInt64
  name : String
  openedAt : DateTime
  closedAt : Option DateTime
  eventIds : List UInt64
  deriving DecidableEq, Repr

structure InverseRef where
  sourceEventId : UInt64
  kind : UInt8
  deriving DecidableEq, Repr

structure Graph where
  byId : Map Event
  byStream : Map (List UInt64)
  inverseRefs : Map (List InverseRef)
  streams : Map Stream

def Graph.empty : Graph := ⟨∅, ∅, ∅, ∅⟩

def pushAt {β : Type} (m : Map (List β)) (k : UInt64) (x : β) : Map (List β) :=
  m.insert k (m.getD k [] ++ [x])

def absorbStream (m : Map Stream) (ev : Event) : Map Stream :=
  let stream := m.getD ev.streamId
    { id := ev.streamId, name := "", openedAt := ev.createdAt, closedAt := none, eventIds := [] }
  m.insert ev.streamId
    { stream with
      openedAt := if ev.createdAt < stream.openedAt then ev.createdAt else stream.openedAt
      eventIds := stream.eventIds ++ [ev.id] }

def Graph.absorb (g : Graph) (ev : Event) : Graph where
  byStream := pushAt g.byStream ev.streamId ev.id
  streams := absorbStream g.streams ev
  inverseRefs := ev.refs.foldl
    (fun m r => pushAt m r.targetEventId ⟨ev.id, r.kind⟩) g.inverseRefs
  byId := g.byId.insert ev.id ev

structure LoadReport where
  eventsLoaded : Nat
  streamsBuilt : Nat
  inverseRefs : Nat
  repairedIdx : Nat
  deriving DecidableEq, Repr

/-- What survives the process. A missing events.bin or events.idx is created empty. -/
structure Disk where
  metaBin : Option Bytes
  events : File
  idx : File

structure Store where
  metaBin : Bytes
  events : File
  idx : File
  header : MetaHeader
  eventsBytes : Nat
  idxBytes : Nat
  graph : Graph
  nextEventId : UInt64

def Store.disk (s : Store) : Disk := ⟨some s.metaBin, s.events, s.idx⟩

def Store.vectorDim (s : Store) : UInt16 := s.header.vectorDim

/-! Low-level file helpers. -/

def Store.readEventsRange (s : Store) (start stop : UInt64) : Except StoreError Bytes :=
  if stop < start then .ok [] else s.events.readExactAt start.toNat (stop - start).toNat

def Store.readIdxRecord (s : Store) (i : Nat) : Except StoreError IdxRecord := do
  let buf ← s.idx.readExactAt (i * idxRecordSize) idxRecordSize
  (decodeIdxRecord buf).mapError .ofFault

def decodeIdxRecords : Nat → Bytes → Except StoreError (List IdxRecord)
  | 0, _ => .ok []
  | n+1, buf => do
    let r ← (decodeIdxRecord buf).mapError .ofFault
    let rest ← decodeIdxRecords n (buf.drop idxRecordSize)
    return r :: rest

def Store.readAllIdxRecords (s : Store) : Except StoreError (List IdxRecord) :=
  if s.idxBytes = 0 then .ok [] else do
    let buf ← s.idx.readExactAt 0 s.idxBytes
    decodeIdxRecords (s.idxBytes / idxRecordSize) buf

/-- Header bookkeeping shared by the append and the repair of an index record. -/
def MetaHeader.count (h : MetaHeader) (id : UInt64) : MetaHeader :=
  { h with
    lastEventId := if id > h.lastEventId then id else h.lastEventId
    eventCount := h.eventCount + 1 }

def Store.appendIdxRecord (s : Store) (rec : IdxRecord) : Store × Except StoreError Unit :=
  match s.idx.writeAllAt (encodeIdxRecord rec) s.idxBytes none with
  | (idx, false) => ({ s with idx := idx }, .error .io)
  | (idx, true) =>
    ({ s with
      idx := idx
      idxBytes := s.idxBytes + idxRecordSize
      header := s.header.count rec.eventId }, .ok ())

/-! Load and repair. -/

/-- The decoding loop over the uncovered tail. An event takes at least a header, so the
loop ends; it is not bounded by anything else. -/
def Store.repairLoop (coveredEnd : Nat) (tail : Bytes) (dim : UInt16) (s : Store)
    (off added : Nat) : Store × Except StoreError Nat :=
  if _h : off < tail.length then
    match _hd : decodeEvent (tail.drop off) dim with
    | .ok (ev, n) =>
      match s.appendIdxRecord
        { eventId := ev.id
          fileOffset := UInt64.ofNat (coveredEnd + off)
          recordLen := UInt32.ofNat n
          createdAt := ev.createdAt } with
      | (s, .error e) => (s, .error e)
      | (s, .ok ()) => s.repairLoop coveredEnd tail dim (off + n) (added + 1)
    | .error .panic => (s, .error .panic)
    | .error (.format _) =>
      ({ s with
        events := s.events.setLen (coveredEnd + off)
        eventsBytes := coveredEnd + off }, .ok added)
  else (s, .ok added)
termination_by tail.length - off
decreasing_by
  have hn := (decodeEvent_sound _hd).2.2.1
  simp only [eventHeaderSize] at hn
  omega

/-- End of the last indexed record, in the source's wrapping arithmetic. -/
def Store.coveredEnd (s : Store) : Except StoreError UInt64 :=
  if s.idxBytes / idxRecordSize > 0 then do
    let last ← s.readIdxRecord (s.idxBytes / idxRecordSize - 1)
    return last.fileOffset + last.recordLen.toUInt64
  else .ok 0

def Store.repairIdx (s : Store) : Store × Except StoreError Nat :=
  match s.coveredEnd with
  | .error e => (s, .error e)
  | .ok covered =>
    if covered.toNat > s.eventsBytes then
      (s, .error (.idxAhead covered.toNat s.eventsBytes))
    else if covered.toNat = s.eventsBytes then (s, .ok 0)
    else match s.readEventsRange covered (UInt64.ofNat s.eventsBytes) with
      | .error e => (s, .error e)
      | .ok tail => s.repairLoop covered.toNat tail s.vectorDim 0 0

/-- One pass over the index: read each record's range, decode, absorb. -/
def Store.loadRecords (s : Store) (dim : UInt16) :
    List IdxRecord → Graph → UInt64 → Except StoreError (Graph × UInt64)
  | [], g, maxId => .ok (g, maxId)
  | rec :: rest, g, maxId => do
    let buf ← s.readEventsRange rec.fileOffset (rec.fileOffset + rec.recordLen.toUInt64)
    let (ev, _) ← (decodeEvent buf dim).mapError .ofFault
    s.loadRecords dim rest (g.absorb { ev with fileOffset := rec.fileOffset })
      (if rec.eventId > maxId then rec.eventId else maxId)

def Graph.inverseRefCount (g : Graph) : Nat :=
  g.inverseRefs.foldl (fun n _ rs => n + rs.length) 0

def Store.load (s : Store) : Store × Except StoreError LoadReport :=
  match s.repairIdx with
  | (s, .error e) => (s, .error e)
  | (s, .ok repaired) =>
    match s.readAllIdxRecords with
    | .error e => (s, .error e)
    | .ok recs =>
      match s.loadRecords s.vectorDim recs s.graph 0 with
      | .error e => (s, .error e)
      | .ok (g, maxId) =>
        ({ s with graph := g, nextEventId := maxId + 1 },
          .ok {
            eventsLoaded := g.byId.size
            streamsBuilt := g.streams.size
            inverseRefs := g.inverseRefCount
            repairedIdx := repaired })

/-! Meta header on disk. The write is atomic: a temporary file renamed over the old. -/

def readMeta (buf : Bytes) : Except StoreError MetaHeader :=
  if buf.length < metaHeaderSize then .error (.metaShort metaHeaderSize)
  else (decodeMetaHeader buf).mapError .ofFault

def freshHeader (dim : UInt16) (now : DateTime) : MetaHeader where
  magic := fileMagic
  version := formatVersion
  vectorDim := dim
  lastEventId := 0
  eventCount := 0
  streamCount := 0
  createdAt := now
  lastSnapshotAt := none

/-- The header to run with and the bytes of meta.bin. -/
def openMeta (d : Disk) (dim : UInt16) (now : DateTime) : Except StoreError (MetaHeader × Bytes) :=
  match d.metaBin with
  | some buf => do return (← readMeta buf, buf)
  | none => .ok (freshHeader dim now, encodeMetaHeader (freshHeader dim now))

def Store.openOrCreate (d : Disk) (dim : UInt16) (now : DateTime) :
    Disk × Except StoreError (Store × LoadReport) :=
  match openMeta d dim now with
  | .error e => (d, .error e)
  | .ok (header, metaBin) =>
    if d.idx.bytes.length % idxRecordSize ≠ 0 then
      ({ d with metaBin := some metaBin },
        .error (.idxMisaligned d.idx.bytes.length idxRecordSize))
    else
      let s : Store := {
        metaBin := metaBin
        events := d.events
        idx := d.idx
        header := header
        eventsBytes := d.events.bytes.length
        idxBytes := d.idx.bytes.length
        graph := .empty
        nextEventId := 1 }
      match s.load with
      | (s, .error e) => (s.disk, .error e)
      | (s, .ok report) => (s.disk, .ok (s, report))

/-! Writes. -/

/-- The I/O call of an append that fails, with the bytes a failing write got through. -/
inductive IoFault where
  | eventsWrite (n : Nat)
  | eventsSync
  | idxWrite (n : Nat)
  | idxSync
  deriving DecidableEq, Repr

def IoFault.eventsStop : Option IoFault → Option Nat
  | some (.eventsWrite n) => some n
  | _ => none

def IoFault.idxStop : Option IoFault → Option Nat
  | some (.idxWrite n) => some n
  | _ => none

/-- The event as `append_event` writes it: next id, a creation time, ref offset hints. -/
def Store.prepare (s : Store) (now : DateTime) (ev : Event) : Event :=
  { ev with
    id := s.nextEventId
    createdAt := if timeToNanos ev.createdAt = 0 then now else ev.createdAt
    refs := ev.refs.map fun r =>
      match s.graph.byId[r.targetEventId]? with
      | some target => { r with targetOffsetCache := target.fileOffset }
      | none => r }

def Store.idxRecordFor (s : Store) (ev : Event) (buf : Bytes) : IdxRecord where
  eventId := ev.id
  fileOffset := UInt64.ofNat s.eventsBytes
  recordLen := UInt32.ofNat buf.length
  createdAt := ev.createdAt

/-- The state after all four I/O calls went through. -/
def Store.commit (s : Store) (ev : Event) (offset : Nat) : Store :=
  { s with
    idxBytes := s.idxBytes + idxRecordSize
    header := s.header.count ev.id
    graph := s.graph.absorb { ev with fileOffset := UInt64.ofNat offset }
    nextEventId := ev.id + 1 }

def Store.appendEvent (s : Store) (now : DateTime) (fault : Option IoFault) (ev : Event) :
    Store × Except StoreError UInt64 :=
  let ev := s.prepare now ev
  match encodeEvent ev s.vectorDim with
  | .error e => (s, .error (.format e))
  | .ok buf =>
    let offset := s.eventsBytes
    match s.events.writeAllAt buf offset (IoFault.eventsStop fault) with
    | (events, false) => ({ s with events := events }, .error .io)
    | (events, true) =>
      if fault = some .eventsSync then ({ s with events := events }, .error .io)
      else
        let record := s.idxRecordFor ev buf
        let s := { s with events := events, eventsBytes := offset + buf.length }
        match s.idx.writeAllAt (encodeIdxRecord record) s.idxBytes (IoFault.idxStop fault) with
        | (idx, false) => ({ s with idx := idx }, .error .io)
        | (idx, true) =>
          let s := { s with idx := idx }
          if fault = some .idxSync then (s, .error .io)
          else (s.commit ev offset, .ok ev.id)

def Store.snapshot (s : Store) (now : DateTime) : Store :=
  let header := { s.header with
    eventCount := UInt64.ofNat s.graph.byId.size
    streamCount := UInt64.ofNat s.graph.streams.size
    lastSnapshotAt := some now }
  { s with header := header, metaBin := encodeMetaHeader header }

end Onisin.Mem
