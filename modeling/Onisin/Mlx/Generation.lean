import Onisin.Lib.Incremental
import Onisin.Mlx.Routing
import Onisin.Mlx.ToolFmt

/-!
One request behind its prompt. The tokens come from the accelerated path or from the decode
loop; the captured spans are parsed into calls and the rest is decoded into the answer and
the reasoning. A streamed request also emits, after each token it keeps, what the decode of
that token's view has gained.
-/

set_option autoImplicit false

namespace Onisin.Mlx
open Lib

/-- What the decode loop and its post-processing take from a model and its tokenizer. -/
structure Family where
  /-- The flag skips special tokens. -/
  decode : List UInt32 → Bool → Except Text Text
  toolmark : Option ToolCallMarkers
  channel : Option ReasoningChannel
  channelName : Text
  stop : List Int32
  parseToolCall : Text → Except Text (Text × Text)

structure GenParams where
  maxTokens : Nat
  /-- The temperature is zero or below. -/
  greedy : Bool
  tools : List Tool

structure Generation where
  text : Text
  reasoning : Option Text
  promptTokens : Nat
  completionTokens : Nat
  finish : Text
  toolCalls : List ToolCall
  deriving DecidableEq, Repr

/-- What a decoder puts for bytes that are no character yet. -/
def replacement : Char := '\uFFFD'

section Request
variable (f : Family)

/-- The line the model opens its channel with. -/
def Family.nameLine : Option Text := f.channel.map fun _ => f.channelName ++ "\n".toList

def Family.detokenize (toks : List UInt32) : Except Text Text :=
  (f.decode toks true).mapError ("detokenize: ".toList ++ ·)

/-! The post-processing of a finished loop. -/

/-- A span still open at the end was cut off by the budget, unless the family's calls run to
the turn's end. -/
def Family.completeSpans (s : Routing) : List (List UInt32) :=
  if s.inToolCall && (f.toolmark.bind ToolCallMarkers.closes).isSome then s.toolSpans.dropLast
  else s.toolSpans

/-- The calls of the spans, numbered from `i` on. -/
def Family.toolCalls : Nat → List (List UInt32) → Except Text (List ToolCall)
  | _, [] => .ok []
  | i, span :: spans => do
    let raw ← (f.decode span false).mapError ("detokenize tool call: ".toList ++ ·)
    let (name, arguments) ← f.parseToolCall raw
    let calls ← Family.toolCalls (i + 1) spans
    return { id := "call_".toList ++ Nat.toDigits 10 i, kind := "function".toList,
             function := { name := name, arguments := arguments } } :: calls

/-- Reasoning that is blank counts as none. -/
def Family.reasoning (toks : List UInt32) : Except Text (Option Text) :=
  if toks.isEmpty then .ok none
  else do
    let raw ← f.detokenize toks
    let stripped := ((f.nameLine.bind fun p => Text.stripPrefix p raw).getD raw).trim
    return if stripped.isEmpty then none else some stripped

def Family.textAndReasoning (split : List UInt32 × List UInt32) : Except Text (Text × Option Text) := do
  let text ← f.detokenize split.1
  let reasoning ← f.reasoning split.2
  return (text, reasoning)

def finishReason (toolCalls : List ToolCall) (completion maxTokens : Nat) : Text :=
  if !toolCalls.isEmpty then "tool_calls".toList
  else if completion < maxTokens then "stop".toList
  else "length".toList

/-- Everything in `run_generation` behind the loop. -/
def Family.finish (promptTokens maxTokens : Nat) (s : Routing) : Except Text Generation := do
  let toolCalls ← f.toolCalls 0 (f.completeSpans s)
  let (text, reasoning) ←
    f.textAndReasoning (finalSplit f.toolmark f.channel s.toolSpans s.out)
  return { text := text, reasoning := reasoning, promptTokens := promptTokens,
           completionTokens := s.out.length,
           finish := finishReason toolCalls s.out.length maxTokens, toolCalls := toolCalls }

/-- `run_generation` without a listener. `generateGreedy` is the model's accelerated path and
`picks` is what the decode loop would pick, one token after the other. -/
def Family.runGeneration (generateGreedy : List Int32 → Nat → Except Text (Option (List UInt32)))
    (params : GenParams) (promptIds picks : List Int32) : Except Text Generation := do
  let accelerated ←
    (if params.greedy && params.tools.isEmpty then generateGreedy promptIds params.maxTokens
    else .ok none)
  let s : Routing := match accelerated with
    | some tokens => { out := tokens }
    | none => Mlx.runGeneration f.toolmark f.channel false f.stop params.maxTokens picks
  f.finish promptIds.length params.maxTokens s

/-- A model without an accelerated path. -/
def noGreedy (_promptIds : List Int32) (_maxTokens : Nat) : Except Text (Option (List UInt32)) :=
  .ok none

end Request

/-! Streaming. -/

/-- The part of the text from byte `emitted` on, with the count of emitted bytes behind it. A
part that ends in the stand-in for an incomplete character is held back. -/
def deltaFrom (text : Text) (emitted : Nat) : Nat × Option Text :=
  if byteLen text ≤ emitted then (emitted, none)
  else
    match Text.sliceFrom emitted text with
    | none => (emitted, none)
    | some delta =>
      if delta.getLast? = some replacement then (emitted, none) else (byteLen text, some delta)

/-- The text is the beginning of a name line that is still arriving. -/
def namePending (skipPrefix : Option Text) (text : Text) : Bool :=
  match skipPrefix with
  | some p => byteLen text < byteLen p && text.isPrefixOf p
  | none => false

/-- What `stream_delta` does once the view is decoded. -/
def nextDelta (text : Text) (emitted : Nat) (skipPrefix : Option Text) : Nat × Option Text :=
  if emitted = 0 then
    if namePending skipPrefix text then (0, none)
    else
      match skipPrefix with
      | some p => deltaFrom text (if p.isPrefixOf text then byteLen p else 0)
      | none => deltaFrom text 0
  else deltaFrom text emitted

section Stream
variable (f : Family)

def Family.streamDelta (out : List UInt32) (emitted : Nat) (skipPrefix : Option Text) :
    Except Text (Nat × Option Text) := do
  let text ← f.detokenize out
  return nextDelta text emitted skipPrefix

/-- A piece of a channel; the flag tells reasoning from answer. -/
structure Piece where
  text : Text
  reasoning : Bool
  deriving DecidableEq, Repr

/-- The locals of a streamed request. -/
structure Streaming where
  routing : Routing := {}
  emittedContent : Nat := 0
  emittedReasoning : Nat := 0
  pieces : List Piece := []
  deriving DecidableEq, Repr

/-- A streamed request that fails has already sent its pieces. -/
structure Broken where
  pieces : List Piece
  error : Text
  deriving DecidableEq, Repr

def pieceOf (reasoning : Bool) (delta : Option Text) : List Piece :=
  (delta.map fun text => { text := text, reasoning := reasoning }).toList

def Streaming.emitContent (s : Streaming) : Except Broken Streaming := do
  let (emitted, delta) ← (f.streamDelta s.routing.contentView s.emittedContent none).mapError
    (Broken.mk s.pieces)
  return { s with emittedContent := emitted, pieces := s.pieces ++ pieceOf false delta }

def Streaming.emitReasoning (s : Streaming) : Except Broken Streaming := do
  let (emitted, delta) ←
    (f.streamDelta s.routing.reasoningView s.emittedReasoning f.nameLine).mapError
      (Broken.mk s.pieces)
  return { s with emittedReasoning := emitted, pieces := s.pieces ++ pieceOf true delta }

/-- The view that routing pushes a token to, if any: the reasoning one or the answer's. -/
def Routing.viewOf (toolmark : Option ToolCallMarkers) (channel : Option ReasoningChannel)
    (s : Routing) (next : Int32) : Option Bool :=
  let outside := match toolmark with
    | some t => next != t.opens && !s.inToolCall
    | none => true
  let plain := match channel with
    | some ch => next != ch.opens && next != ch.closes
    | none => true
  if outside && plain then some s.inReasoning else none

def Streaming.accept (s : Streaming) (next : Int32) : Except Broken Streaming :=
  let routed := { s with routing := s.routing.accept f.toolmark f.channel true next }
  match s.routing.viewOf f.toolmark f.channel next with
  | some true => routed.emitReasoning f
  | some false => routed.emitContent f
  | none => .ok routed

/-- The decode loop with a listener. -/
def streamLoop : Streaming → List Int32 → Except Broken Streaming
  | s, [] => .ok s
  | s, next :: picks =>
    if !s.routing.inToolCall && !s.routing.toolSpans.isEmpty && !opensCall f.toolmark next then .ok s
    else if f.stop.contains next then .ok s
    else do
      let s ← s.accept f next
      streamLoop s picks

/-- One more delta a channel. -/
def Streaming.flush (s : Streaming) : Except Broken Streaming := do
  let s ← (if s.routing.reasoningView.isEmpty then .ok s else s.emitReasoning f)
  s.emitContent f

/-- `run_generation` with a listener: always the decode loop. -/
def Family.runStreamed (params : GenParams) (promptIds picks : List Int32) :
    Except Broken (Generation × List Piece) := do
  let s ← streamLoop f {} (picks.take params.maxTokens)
  let s ← s.flush f
  let g ← (f.finish promptIds.length params.maxTokens s.routing).mapError (Broken.mk s.pieces)
  return (g, s.pieces)

end Stream

/-! A small vocabulary with the markers of one model family. -/

def sampleSpecial (tok : UInt32) : Option Text :=
  if tok = 48 then some "<|tool_call>".toList
  else if tok = 49 then some "<tool_call|>".toList
  else if tok = 100 then some "<|channel>".toList
  else if tok = 101 then some "<channel|>".toList
  else none

/-- The byte 0xE2 begins a character and is none alone. -/
def samplePiece (skipSpecial : Bool) (tok : UInt32) : Text :=
  match sampleSpecial tok with
  | some text => if skipSpecial then [] else text
  | none =>
    if tok = 1 then "Hello".toList
    else if tok = 2 then "thought".toList
    else if tok = 3 then "\n".toList
    else if tok = 4 then "call:stop\x7b\x7d".toList
    else if tok = 226 then [replacement]
    else []

def sampleFamily : Family where
  decode toks skipSpecial := .ok (toks.flatMap (samplePiece skipSpecial))
  toolmark := some { opens := 48, closes := some 49 }
  channel := some { opens := 100, closes := 101 }
  channelName := "thought".toList
  stop := [106]
  parseToolCall span :=
    if span = "call:stop\x7b\x7d".toList then .ok ("stop".toList, "\x7b\x7d".toList)
    else .error "not a call".toList

end Onisin.Mlx
