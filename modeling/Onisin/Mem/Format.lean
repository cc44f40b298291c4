import Onisin.Lib.LittleEndian

/-!
The on-disk layout of the event store: records, error cases and the little-endian
codec of `format.rs`. A slice or index of the source that would leave its buffer is
the fault `panic`, so that the readers below say where they read and not only what.
-/

set_option autoImplicit false

namespace Onisin.Mem
open Lib

abbrev Bytes := List UInt8

/-- An instant in nanoseconds since the epoch. -/
abbrev DateTime := Int

def fileMagic : UInt32 := 0x4F4D454D
def formatVersion : UInt16 := 2
def metaHeaderSize : Nat := 64
def idxRecordSize : Nat := 28
def eventHeaderSize : Nat := 49
def refSize : Nat := 17
def maxFieldLen : Nat := 65535

inductive FormatError where
  | shortBuffer (need got : Nat)
  | badMagic (got want : UInt32)
  | futureVersion (got supported : UInt16)
  | fieldTooLarge (field : String) (len : Nat)
  | vectorDimension (got : Nat) (want : UInt16)
  | recordLen (recordLen actual : Nat)
  deriving DecidableEq, Repr

/-- How a reader ends early: an error value, or an index outside the buffer. -/
inductive Fault where
  | format (e : FormatError)
  | panic
  deriving DecidableEq, Repr

structure Ref where
  kind : UInt8
  targetEventId : UInt64
  targetOffsetCache : UInt64
  deriving DecidableEq, Repr

structure MetaHeader where
  magic : UInt32
  version : UInt16
  vectorDim : UInt16
  lastEventId : UInt64
  eventCount : UInt64
  streamCount : UInt64
  createdAt : DateTime
  lastSnapshotAt : Option DateTime
  deriving DecidableEq, Repr

structure IdxRecord where
  eventId : UInt64
  fileOffset : UInt64
  recordLen : UInt32
  createdAt : DateTime
  deriving DecidableEq, Repr

/-- One record of events.bin. Floats are kept as their bit patterns. -/
structure Event where
  id : UInt64
  streamId : UInt64
  createdAt : DateTime
  closedAt : Option DateTime
  eventType : UInt8
  outcome : UInt8
  confidence : UInt8
  flags : UInt8
  trace : UInt8
  refs : List Ref
  content : String
  topic : String
  cost : String
  vector : List UInt32
  fileOffset : UInt64
  deriving DecidableEq, Repr

/-! Time helpers. Zero nanoseconds stands for "no time". -/

def timestampNanosOpt (t : DateTime) : Option Int64 :=
  if -2^63 ≤ t ∧ t < 2^63 then some (Int64.ofInt t) else none

def timeToNanos (t : DateTime) : Int64 := (timestampNanosOpt t).getD 0

def optTimeToNanos (t : Option DateTime) : Int64 := (t.map timeToNanos).getD 0

def nanosToTime (ns : Int64) : DateTime := ns.toInt

def nanosToOptTime (ns : Int64) : Option DateTime :=
  if ns = 0 then none else some (nanosToTime ns)

/-! Text. -/

/-- The UTF-8 bytes of a string. -/
def textBytes (s : String) : Bytes := s.toByteArray.data.toList

def ValidUtf8 (b : Bytes) : Prop := ByteArray.IsValidUTF8 ⟨b.toArray⟩

instance (b : Bytes) : Decidable (ValidUtf8 b) := inferInstanceAs (Decidable (ByteArray.IsValidUTF8 _))

def utf8Width (b : UInt8) : Nat :=
  if b < 0x80 then 1
  else if 0xC2 ≤ b ∧ b ≤ 0xDF then 2
  else if 0xE0 ≤ b ∧ b ≤ 0xEF then 3
  else if 0xF0 ≤ b ∧ b ≤ 0xF4 then 4
  else 0

def utf8Continues (b : UInt8) : Bool := 0x80 ≤ b ∧ b ≤ 0xBF

/-- Second bytes that neither overlong forms, surrogates nor values past U+10FFFF allow. -/
def utf8SecondOk (b₀ b₁ : UInt8) : Bool :=
  if b₀ = 0xE0 then 0xA0 ≤ b₁ ∧ b₁ ≤ 0xBF
  else if b₀ = 0xED then 0x80 ≤ b₁ ∧ b₁ ≤ 0x9F
  else if b₀ = 0xF0 then 0x90 ≤ b₁ ∧ b₁ ≤ 0xBF
  else if b₀ = 0xF4 then 0x80 ≤ b₁ ∧ b₁ ≤ 0x8F
  else utf8Continues b₁

def replacementChar : Char := Char.ofNat 0xFFFD

/-- Lossy decoding: every maximal ill-formed piece becomes one U+FFFD. -/
def utf8Lossy : Bytes → List Char
  | [] => []
  | [b₀] => [if utf8Width b₀ = 1 then Char.ofNat b₀.toNat else replacementChar]
  | b₀ :: b₁ :: r₁ =>
    if utf8Width b₀ = 1 then Char.ofNat b₀.toNat :: utf8Lossy (b₁ :: r₁)
    else if utf8Width b₀ = 0 ∨ ¬ utf8SecondOk b₀ b₁ then
      replacementChar :: utf8Lossy (b₁ :: r₁)
    else if utf8Width b₀ = 2 then
      Char.ofNat ((b₀.toNat % 32) * 64 + b₁.toNat % 64) :: utf8Lossy r₁
    else match r₁ with
      | [] => [replacementChar]
      | b₂ :: r₂ =>
        if ¬ utf8Continues b₂ then replacementChar :: utf8Lossy (b₂ :: r₂)
        else if utf8Width b₀ = 3 then
          Char.ofNat ((b₀.toNat % 16) * 4096 + (b₁.toNat % 64) * 64 + b₂.toNat % 64) ::
            utf8Lossy r₂
        else match r₂ with
          | [] => [replacementChar]
          | b₃ :: r₃ =>
            if ¬ utf8Continues b₃ then replacementChar :: utf8Lossy (b₃ :: r₃)
            else Char.ofNat ((b₀.toNat % 8) * 262144 + (b₁.toNat % 64) * 4096 +
              (b₂.toNat % 64) * 64 + b₃.toNat % 64) :: utf8Lossy r₃
termination_by b => b.length

def decodeUtf8 (b : Bytes) : String :=
  (String.fromUTF8? ⟨b.toArray⟩).getD (String.ofList (utf8Lossy b))

/-! Checked reads. -/

def slice (buf : Bytes) (a b : Nat) : Except Fault Bytes :=
  if a ≤ b ∧ b ≤ buf.length then .ok (sub buf a b) else .error .panic

def rdU8 (buf : Bytes) (i : Nat) : Except Fault UInt8 := do
  return u8.dec (← slice buf i (i + 1))

def rdU16 (buf : Bytes) (i : Nat) : Except Fault UInt16 := do
  return u16.dec (← slice buf i (i + 2))

def rdU32 (buf : Bytes) (i : Nat) : Except Fault UInt32 := do
  return u32.dec (← slice buf i (i + 4))

def rdU64 (buf : Bytes) (i : Nat) : Except Fault UInt64 := do
  return u64.dec (← slice buf i (i + 8))

/-- The source reads an unsigned word and casts it. -/
def rdI64 (buf : Bytes) (i : Nat) : Except Fault Int64 := do
  return (← rdU64 buf i).toInt64

/-! Meta header. -/

def encodeMetaHeader (h : MetaHeader) : Bytes :=
  u32.enc h.magic ++ (u16.enc h.version ++ (u16.enc h.vectorDim ++ (u64.enc h.lastEventId ++
    (u64.enc h.eventCount ++ (u64.enc h.streamCount ++ (i64.enc (timeToNanos h.createdAt) ++
    (i64.enc (optTimeToNanos h.lastSnapshotAt) ++ List.replicate 16 0)))))))

def decodeMetaHeader (buf : Bytes) : Except Fault MetaHeader :=
  if buf.length < metaHeaderSize then
    .error (.format (.shortBuffer metaHeaderSize buf.length))
  else do
    let magic ← rdU32 buf 0
    if magic ≠ fileMagic then .error (.format (.badMagic magic fileMagic)) else
      let version ← rdU16 buf 4
      if version > formatVersion then
        .error (.format (.futureVersion version formatVersion))
      else
        return {
          magic := magic
          version := version
          vectorDim := ← rdU16 buf 6
          lastEventId := ← rdU64 buf 8
          eventCount := ← rdU64 buf 16
          streamCount := ← rdU64 buf 24
          createdAt := nanosToTime (← rdI64 buf 32)
          lastSnapshotAt := nanosToOptTime (← rdI64 buf 40) }

/-! Index record. -/

def encodeIdxRecord (r : IdxRecord) : Bytes :=
  u64.enc r.eventId ++ (u64.enc r.fileOffset ++ (u32.enc r.recordLen ++
    i64.enc (timeToNanos r.createdAt)))

def decodeIdxRecord (buf : Bytes) : Except Fault IdxRecord :=
  if buf.length < idxRecordSize then
    .error (.format (.shortBuffer idxRecordSize buf.length))
  else do
    return {
      eventId := ← rdU64 buf 0
      fileOffset := ← rdU64 buf 8
      recordLen := ← rdU32 buf 16
      createdAt := nanosToTime (← rdI64 buf 20) }

/-! Event record. -/

def eventRecordSize (ev : Event) (dim : UInt16) : Nat :=
  eventHeaderSize + ev.refs.length * refSize + (textBytes ev.content).length +
    (textBytes ev.topic).length + (textBytes ev.cost).length + dim.toNat * 4

def encodeRef (r : Ref) : Bytes :=
  u8.enc r.kind ++ (u64.enc r.targetEventId ++ u64.enc r.targetOffsetCache)

/-- The first 49 bytes of a record as the format sees them, before interpretation. -/
structure EventHeader where
  recordLen : UInt32
  id : UInt64
  streamId : UInt64
  createdAt : Int64
  closedAt : Int64
  eventType : UInt8
  outcome : UInt8
  confidence : UInt8
  flags : UInt8
  trace : UInt8
  refsCount : UInt16
  contentLen : UInt16
  topicLen : UInt16
  costLen : UInt16
  deriving DecidableEq, Repr

def headerBytes (h : EventHeader) : Bytes :=
  u32.enc h.recordLen ++ (u64.enc h.id ++ (u64.enc h.streamId ++ (i64.enc h.createdAt ++
    (i64.enc h.closedAt ++ (u8.enc h.eventType ++ (u8.enc h.outcome ++ (u8.enc h.confidence ++
    (u8.enc h.flags ++ (u8.enc h.trace ++ (u16.enc h.refsCount ++ (u16.enc h.contentLen ++
    (u16.enc h.topicLen ++ u16.enc h.costLen))))))))))))

def eventHeader (ev : Event) (dim : UInt16) : EventHeader where
  recordLen := UInt32.ofNat (eventRecordSize ev dim)
  id := ev.id
  streamId := ev.streamId
  createdAt := timeToNanos ev.createdAt
  closedAt := optTimeToNanos ev.closedAt
  eventType := ev.eventType
  outcome := ev.outcome
  confidence := ev.confidence
  flags := ev.flags
  trace := ev.trace
  refsCount := UInt16.ofNat ev.refs.length
  contentLen := UInt16.ofNat (textBytes ev.content).length
  topicLen := UInt16.ofNat (textBytes ev.topic).length
  costLen := UInt16.ofNat (textBytes ev.cost).length

/-- The buffer is filled from front to back without gaps; the final check compares
the end of the last write with the announced size. -/
def encodeEvent (ev : Event) (dim : UInt16) : Except FormatError Bytes :=
  if ev.refs.length > maxFieldLen then
    .error (.fieldTooLarge "refs" ev.refs.length)
  else if (textBytes ev.content).length > maxFieldLen then
    .error (.fieldTooLarge "content" (textBytes ev.content).length)
  else if (textBytes ev.topic).length > maxFieldLen then
    .error (.fieldTooLarge "topic" (textBytes ev.topic).length)
  else if (textBytes ev.cost).length > maxFieldLen then
    .error (.fieldTooLarge "cost" (textBytes ev.cost).length)
  else if ev.vector.length ≠ dim.toNat then
    .error (.vectorDimension ev.vector.length dim)
  else
    let buf := headerBytes (eventHeader ev dim) ++ (ev.refs.flatMap encodeRef ++
      (textBytes ev.content ++ (textBytes ev.topic ++ (textBytes ev.cost ++
      ev.vector.flatMap u32.enc))))
    if buf.length ≠ eventRecordSize ev dim then
      .error (.recordLen (eventRecordSize ev dim) buf.length)
    else .ok buf

def decodeRefs (buf : Bytes) : Nat → Nat → Except Fault (List Ref × Nat)
  | 0, off => .ok ([], off)
  | n+1, off => do
    let kind ← rdU8 buf off
    let targetEventId ← rdU64 buf (off + 1)
    let targetOffsetCache ← rdU64 buf (off + 9)
    let (refs, last) ← decodeRefs buf n (off + refSize)
    return (⟨kind, targetEventId, targetOffsetCache⟩ :: refs, last)

def decodeVector (buf : Bytes) : Nat → Nat → Except Fault (List UInt32)
  | 0, _ => .ok []
  | n+1, off => do
    let bits ← rdU32 buf off
    let rest ← decodeVector buf n (off + 4)
    return bits :: rest

def decodeHeader (buf : Bytes) (recordLen : UInt32) : Except Fault EventHeader := do
  return {
    recordLen := recordLen
    id := ← rdU64 buf 4
    streamId := ← rdU64 buf 12
    createdAt := ← rdI64 buf 20
    closedAt := ← rdI64 buf 28
    eventType := ← rdU8 buf 36
    outcome := ← rdU8 buf 37
    confidence := ← rdU8 buf 38
    flags := ← rdU8 buf 39
    trace := ← rdU8 buf 40
    refsCount := ← rdU16 buf 41
    contentLen := ← rdU16 buf 43
    topicLen := ← rdU16 buf 45
    costLen := ← rdU16 buf 47 }

def EventHeader.expected (h : EventHeader) (dim : UInt16) : Nat :=
  eventHeaderSize + h.refsCount.toNat * refSize + h.contentLen.toNat + h.topicLen.toNat +
    h.costLen.toNat + dim.toNat * 4

/-- What follows the header checks: refs, the three texts and the vector in turn. -/
def decodeBody (buf : Bytes) (dim : UInt16) (h : EventHeader) : Except Fault Event := do
  let (refs, off) ← decodeRefs buf h.refsCount.toNat eventHeaderSize
  let content ← slice buf off (off + h.contentLen.toNat)
  let off := off + h.contentLen.toNat
  let topic ← slice buf off (off + h.topicLen.toNat)
  let off := off + h.topicLen.toNat
  let cost ← slice buf off (off + h.costLen.toNat)
  let off := off + h.costLen.toNat
  let vector ← decodeVector buf dim.toNat off
  return {
    id := h.id
    streamId := h.streamId
    createdAt := nanosToTime h.createdAt
    closedAt := nanosToOptTime h.closedAt
    eventType := h.eventType
    outcome := h.outcome
    confidence := h.confidence
    flags := h.flags
    trace := h.trace
    refs := refs
    content := decodeUtf8 content
    topic := decodeUtf8 topic
    cost := decodeUtf8 cost
    vector := vector
    fileOffset := 0 }

def decodeEvent (buf : Bytes) (dim : UInt16) : Except Fault (Event × Nat) :=
  if buf.length < eventHeaderSize then
    .error (.format (.shortBuffer eventHeaderSize buf.length))
  else do
    let recordLen ← rdU32 buf 0
    if buf.length < recordLen.toNat then
      .error (.format (.shortBuffer recordLen.toNat buf.length))
    else
      let h ← decodeHeader buf recordLen
      if h.expected dim ≠ recordLen.toNat then
        .error (.format (.recordLen recordLen.toNat (h.expected dim)))
      else
        let ev ← decodeBody buf dim h
        return (ev, recordLen.toNat)

end Onisin.Mem
