import Onisin.Mlx.Prompt
import Onisin.Mlx.Streaming

/-!
Replies to a chat request. `chat` wraps a finished generation; `chatStream` turns a streamed
one into chunks, from which `streamChat` assembles the reply again.
-/

set_option autoImplicit false

namespace Onisin.Infer
open Lib Mlx

structure ChatMessage extends Mlx.ChatMessage where
  reasoningContent : Option Text
  deriving DecidableEq, Repr

structure Usage where
  promptTokens : Nat
  completionTokens : Nat
  totalTokens : Nat
  deriving DecidableEq, Repr

structure Choice where
  index : Nat
  message : ChatMessage
  finishReason : Text
  deriving DecidableEq, Repr

structure ChatResponse where
  model : Text
  choices : List Choice
  usage : Usage
  deriving DecidableEq, Repr

structure Delta where
  role : Option Text := none
  content : Option Text := none
  reasoningContent : Option Text := none
  toolCalls : Option (List ToolCall) := none
  deriving DecidableEq, Repr

structure ChunkChoice where
  index : Nat
  delta : Delta
  finishReason : Option Text
  deriving DecidableEq, Repr

structure ChatChunk where
  model : Text
  choices : List ChunkChoice
  usage : Option Usage
  deriving DecidableEq, Repr

def usageOf (g : Generation) : Usage where
  promptTokens := g.promptTokens
  completionTokens := g.completionTokens
  totalTokens := g.promptTokens + g.completionTokens

/-- `(!x.is_empty()).then_some(x)`. -/
def nonempty {α : Type} (xs : List α) : Option (List α) := if xs.isEmpty then none else some xs

def chat (model : Text) (generation : Except Text Generation) : Except Text ChatResponse := do
  let generation ← generation
  return {
    model := model
    choices := [{
      index := 0
      message := {
        role := roleAssistant
        content := generation.text
        reasoningContent := generation.reasoning
        toolCalls := nonempty generation.toolCalls
        toolCallId := none }
      finishReason := generation.finish }]
    usage := usageOf generation }

def chunk (model : Text) (delta : Delta) (finish : Option Text) (usage : Option Usage) : ChatChunk where
  model := model
  choices := [{ index := 0, delta := delta, finishReason := finish }]
  usage := usage

def pieceDelta (piece : Piece) : Delta :=
  if piece.reasoning then { reasoningContent := some piece.text } else { content := some piece.text }

def pieceChunks (model : Text) (pieces : List Piece) : List (Except Text ChatChunk) :=
  pieces.map fun piece => .ok (chunk model (pieceDelta piece) none none)

/-- The role preamble, the pieces as they come and a final chunk, or the error. -/
def chatStream (model : Text) (streamed : Except Broken (Generation × List Piece)) :
    List (Except Text ChatChunk) :=
  .ok (chunk model { role := some roleAssistant } none none) ::
    match streamed with
    | .ok (g, pieces) =>
      pieceChunks model pieces ++
        [.ok (chunk model { toolCalls := nonempty g.toolCalls } (some g.finish) (some (usageOf g)))]
    | .error b => pieceChunks model b.pieces ++ [.error b.error]

/-- The reply of `stream_chat`; `content` and `reasoning` are what the chunks so far gave. -/
def streamChat (content reasoning : Text) : List (Except Text ChatChunk) → Except Text ChatResponse
  | [] => .error "stream ended without a finish chunk".toList
  | .error e :: _ => .error e
  | .ok chunk :: rx =>
    match chunk.choices with
    | [] => streamChat content reasoning rx
    | choice :: _ =>
      let content := content ++ choice.delta.content.getD []
      let reasoning := reasoning ++ choice.delta.reasoningContent.getD []
      match choice.finishReason with
      | some finish => .ok {
          model := chunk.model
          choices := [{
            index := 0
            message := {
              role := roleAssistant
              content := content
              reasoningContent := nonempty reasoning
              toolCalls := choice.delta.toolCalls
              toolCallId := none }
            finishReason := finish }]
          usage := chunk.usage.getD { promptTokens := 0, completionTokens := 0, totalTokens := 0 } }
      | none => streamChat content reasoning rx

/-- The reply to a request whose generation is `g`, with the answer and the reasoning given. -/
def reply (model : Text) (g : Generation) (content : Text) (reasoning : Option Text) : ChatResponse where
  model := model
  choices := [{
    index := 0
    message := {
      role := roleAssistant
      content := content
      reasoningContent := reasoning
      toolCalls := nonempty g.toolCalls
      toolCallId := none }
    finishReason := g.finish }]
  usage := usageOf g

theorem chat_eq (model : Text) (g : Generation) :
    chat model (.ok g) = .ok (reply model g g.text g.reasoning) := rfl

theorem streamChat_pieces (model : Text) (content reasoning : Text) (pieces : List Piece)
    (rx : List (Except Text ChatChunk)) :
    streamChat content reasoning (pieceChunks model pieces ++ rx) =
      streamChat (content ++ channelText false pieces) (reasoning ++ channelText true pieces) rx := by
  induction pieces generalizing content reasoning with
  | nil => simp [pieceChunks]
  | cons p pieces ih =>
    rw [pieceChunks, List.map_cons, List.cons_append, ← pieceChunks]
    simp only [streamChat, chunk]
    rw [ih, channelText_cons, channelText_cons]
    cases hp : p.reasoning with
    | true => simp [pieceDelta, hp]
    | false => simp [pieceDelta, hp]

/-- The assembled reply differs from the plain one in nothing but the answer and the
reasoning, which are the pieces put together. -/
theorem streamChat_eq (model : Text) (g : Generation) (pieces : List Piece) :
    streamChat [] [] (chatStream model (.ok (g, pieces))) =
      .ok (reply model g (channelText false pieces) (nonempty (channelText true pieces))) := by
  have hpreamble : ∀ rx : List (Except Text ChatChunk),
      streamChat [] [] (.ok (chunk model { role := some roleAssistant } none none) :: rx) =
        streamChat [] [] rx := fun rx => rfl
  rw [chatStream, hpreamble, streamChat_pieces]
  simp [streamChat, chunk, reply]

/-! The streamed reply against the plain one. -/

def ChatResponse.contents (r : ChatResponse) : List Text := r.choices.map (·.message.content)

def ChatResponse.reasonings (r : ChatResponse) : List (Option Text) :=
  r.choices.map (·.message.reasoningContent)

/-- A longer sequence of tokens decodes to an extension of what a shorter one decodes to, a
trailing run of stand-ins aside. -/
def Extending (f : Family) : Prop := Extends replacement fun toks => f.decode toks true

theorem Extending.detokenize {f : Family} (h : Extending f) : Extends replacement f.detokenize := by
  intro view more text longer htext hlonger
  exact h view more text longer ((ok_of_mapError _).mp htext) ((ok_of_mapError _).mp hlonger)

/-- The answer does not end inside a character. -/
def AnswerWhole (f : Family) (out : List UInt32) : Prop :=
  ∀ text, f.detokenize (f.answerTokens out) = .ok text → text.getLast? ≠ some replacement

/-- There is no reasoning; or it breaks off within the name line and what there is of it is
blank; or it does not end inside a character and has no white space around it. -/
def ReasoningPlain (f : Family) (out : List UInt32) : Prop :=
  f.reasoningTokens out = [] ∨
    ∀ raw, f.detokenize (f.reasoningTokens out) = .ok raw →
      if namePending f.nameLine raw then raw.trim = []
      else raw.getLast? ≠ some replacement ∧ (body f.nameLine raw).trim = body f.nameLine raw

theorem streamed_answer_whole (f : Family) (hext : Extending f) (model : Text) (params : GenParams)
    (promptIds picks : List Int32) (g : Generation) (pieces : List Piece)
    (hrun : f.runStreamed params promptIds picks = .ok (g, pieces)) :
    (channelText false pieces = g.text ↔ AnswerWhole f (f.generated params.maxTokens picks)) ∧
    ∃ streamed plain : ChatResponse,
      streamChat [] [] (chatStream model (f.runStreamed params promptIds picks)) = .ok streamed ∧
      chat model (f.runGeneration noGreedy params promptIds picks) = .ok plain ∧
      (streamed.contents = plain.contents ↔ AnswerWhole f (f.generated params.maxTokens picks)) := by
  obtain ⟨hplain, ⟨htext, hflushed⟩, -⟩ := runStreamed_ok hext.detokenize hrun
  have hanswer : channelText false pieces = g.text ↔
      AnswerWhole f (f.generated params.maxTokens picks) := by
    constructor
    · intro hsame text ht
      rw [htext] at ht
      rw [← Except.ok.inj ht, ← hsame]
      exact hflushed.whole
    · intro hwhole
      exact hflushed.complete rfl (hwhole g.text htext)
  rw [hrun, hplain]
  refine ⟨hanswer, _, _, streamChat_eq model g pieces, chat_eq model g, ?_⟩
  simpa [ChatResponse.contents, reply] using hanswer

theorem sampleFamily_extending : Extending sampleFamily := by
  intro view more text longer htext hlonger
  obtain rfl := Except.ok.inj htext
  obtain rfl := Except.ok.inj hlonger
  have hprefix := @List.rdropWhile_prefix _ (· == replacement) (view.flatMap (samplePiece true))
  rw [List.flatMap_append]
  exact hprefix.trans (List.prefix_append _ _)

def sampleParams : GenParams := { maxTokens := 8, greedy := false, tools := [] }

def sampleGeneration (text : Text) (reasoning : Option Text) (completion : Nat) : Generation where
  text := text
  reasoning := reasoning
  promptTokens := 1
  completionTokens := completion
  finish := "stop".toList
  toolCalls := []

theorem streamed_answer_whole_hello :
    (channelText false [⟨"Hello".toList, false⟩] = "Hello".toList ↔
      AnswerWhole sampleFamily (sampleFamily.generated 8 [1, 106])) ∧
    ∃ streamed plain : ChatResponse,
      streamChat [] [] (chatStream [] (sampleFamily.runStreamed sampleParams [7] [1, 106])) = .ok streamed ∧
      chat [] (sampleFamily.runGeneration noGreedy sampleParams [7] [1, 106]) = .ok plain ∧
      (streamed.contents = plain.contents ↔
        AnswerWhole sampleFamily (sampleFamily.generated 8 [1, 106])) :=
  streamed_answer_whole sampleFamily sampleFamily_extending [] sampleParams [7] [1, 106]
    (sampleGeneration "Hello".toList none 1) [⟨"Hello".toList, false⟩] rfl

/-- A turn that ends inside a character: what the last token added is never sent. -/
theorem answer_tail_lost :
    Extending sampleFamily ∧
    ∃ g pieces, sampleFamily.runStreamed sampleParams [7] [1, 226, 106] = .ok (g, pieces) ∧
      channelText false pieces = "Hello".toList ∧ g.text = "Hello".toList ++ [replacement] :=
  ⟨sampleFamily_extending, sampleGeneration ("Hello".toList ++ [replacement]) none 2,
    [⟨"Hello".toList, false⟩], rfl, rfl, rfl⟩

/-! What a channel's pieces amount to, against its trimmed body. -/

section Reasoning
variable {skip : Option Text} {raw sent : Text}

theorem body_pending (h : namePending skip raw = true) : body skip raw = raw := by
  cases skip with
  | none => rfl
  | some p =>
    obtain ⟨hlt, -⟩ := namePending_iff.mp h
    refine body_other fun hpre => ?_
    obtain ⟨rest, rfl⟩ := hpre
    rw [byteLen_append] at hlt
    omega

/-- A text that ends in a stand-in has a body that does, for the name line does not. -/
theorem body_replaced (hskip : IsLine skip) (h : raw.getLast? = some replacement) :
    (body skip raw).getLast? = some replacement := by
  cases skip with
  | none => exact h
  | some p =>
    by_cases hpre : p <+: raw
    · obtain ⟨rest, rfl⟩ := hpre
      obtain ⟨name, rfl⟩ := hskip p rfl
      rw [body_named]
      cases hrest : rest with
      | nil =>
        rw [hrest, List.append_nil, show "\n".toList = ['\n'] from rfl, List.getLast?_concat] at h
        cases h
      | cons c rest' =>
        rw [hrest, List.getLast?_append_of_ne_nil _ (by simp)] at h
        exact h
    · rw [body_other hpre]
      exact h

/-- The reasoning assembled from the pieces and the trimmed one agree exactly if nothing was
held back and there was nothing to trim. -/
theorem flushed_iff_trimmed (hskip : IsLine skip) (h : Flushed skip raw sent) :
    nonempty sent = (if (body skip raw).trim.isEmpty then none else some (body skip raw).trim) ↔
      if namePending skip raw then raw.trim = []
      else raw.getLast? ≠ some replacement ∧ (body skip raw).trim = body skip raw := by
  cases hpending : namePending skip raw with
  | true =>
    rw [h.pending hpending, body_pending hpending]
    cases htrim : raw.trim with
    | nil => simp [nonempty]
    | cons c rest => simp [nonempty]
  | false =>
    by_cases hlast : raw.getLast? = some replacement
    · -- the last piece was held back, and trimming keeps its end
      have htrim := Text.trim_getLast (by decide) (body_replaced hskip hlast)
      have hne : (body skip raw).trim.isEmpty = false := by
        cases hb : (body skip raw).trim with
        | nil =>
          rw [hb] at htrim
          cases htrim
        | cons c rest => rfl
      have hdiffer : nonempty sent ≠ some (body skip raw).trim := by
        intro hsame
        cases hsent : sent with
        | nil =>
          rw [hsent] at hsame
          cases hsame
        | cons c rest =>
          have hall : sent = (body skip raw).trim := by
            rw [hsent] at hsame ⊢
            exact Option.some.inj hsame
          exact h.whole (hall ▸ htrim)
      simp [hne, hdiffer, hlast]
    · have hsent := h.complete hpending hlast
      rw [hsent]
      cases hbody : body skip raw with
      | nil => simp [nonempty, hlast, Text.trim]
      | cons c rest =>
        cases htrim : Text.trim (c :: rest) with
        | nil => simp [nonempty]
        | cons d rest' => simp [nonempty, hlast, eq_comm]

end Reasoning

theorem streamed_reasoning_plain (f : Family) (hext : Extending f) (model : Text) (params : GenParams)
    (promptIds picks : List Int32) (g : Generation) (pieces : List Piece)
    (hrun : f.runStreamed params promptIds picks = .ok (g, pieces)) :
    ∃ streamed plain : ChatResponse,
      streamChat [] [] (chatStream model (f.runStreamed params promptIds picks)) = .ok streamed ∧
      chat model (f.runGeneration noGreedy params promptIds picks) = .ok plain ∧
      (streamed.reasonings = plain.reasonings ↔
        ReasoningPlain f (f.generated params.maxTokens picks)) := by
  obtain ⟨hplain, -, hreasoning, hsilent, hflushed⟩ := runStreamed_ok hext.detokenize hrun
  rw [hrun, hplain]
  refine ⟨_, _, streamChat_eq model g pieces, chat_eq model g, ?_⟩
  have hreply : (reply model g (channelText false pieces) (nonempty (channelText true pieces))).reasonings =
      (reply model g g.text g.reasoning).reasonings ↔
        nonempty (channelText true pieces) = g.reasoning := by
    simp [ChatResponse.reasonings, reply]
  rw [hreply, ReasoningPlain]
  by_cases hnone : f.reasoningTokens (f.generated params.maxTokens picks) = []
  · have hboth : nonempty (channelText true pieces) = g.reasoning := by
      rw [hnone] at hreasoning
      rw [hsilent hnone]
      exact Except.ok.inj hreasoning
    exact iff_of_true hboth (Or.inl hnone)
  · obtain ⟨raw, hraw, hsent⟩ := hflushed hnone
    obtain ⟨raw', hraw', hreason⟩ := reasoning_ok hnone hreasoning
    obtain rfl : raw = raw' := Except.ok.inj (hraw.symm.trans hraw')
    rw [hreason, flushed_iff_trimmed (nameLine_isLine f) hsent]
    constructor
    · intro hcond
      refine Or.inr fun raw' h => ?_
      obtain rfl : raw = raw' := Except.ok.inj (hraw.symm.trans h)
      exact hcond
    · rintro (h | h)
      · exact absurd h hnone
      · exact h raw hraw

theorem streamed_reasoning_plain_hello :
    ∃ streamed plain : ChatResponse,
      streamChat [] [] (chatStream []
        (sampleFamily.runStreamed sampleParams [7] [100, 2, 3, 1, 101, 106])) = .ok streamed ∧
      chat [] (sampleFamily.runGeneration noGreedy sampleParams [7] [100, 2, 3, 1, 101, 106]) = .ok plain ∧
      (streamed.reasonings = plain.reasonings ↔
        ReasoningPlain sampleFamily (sampleFamily.generated 8 [100, 2, 3, 1, 101, 106])) :=
  streamed_reasoning_plain sampleFamily sampleFamily_extending [] sampleParams [7]
    [100, 2, 3, 1, 101, 106] (sampleGeneration [] (some "Hello".toList) 5) [⟨"Hello".toList, true⟩] rfl

/-- A line break at the end of the reasoning stays in the streamed reply only. -/
theorem reasoning_line_break :
    Extending sampleFamily ∧
    ∃ streamed plain : ChatResponse,
      streamChat [] [] (chatStream []
        (sampleFamily.runStreamed sampleParams [7] [100, 2, 3, 1, 3, 101, 106])) = .ok streamed ∧
      chat [] (sampleFamily.runGeneration noGreedy sampleParams [7] [100, 2, 3, 1, 3, 101, 106]) =
        .ok plain ∧
      streamed.reasonings = [some "Hello\n".toList] ∧ plain.reasonings = [some "Hello".toList] :=
  ⟨sampleFamily_extending,
    reply [] (sampleGeneration [] (some "Hello".toList) 6) [] (some "Hello\n".toList),
    reply [] (sampleGeneration [] (some "Hello".toList) 6) [] (some "Hello".toList), rfl, rfl, rfl, rfl⟩

end Onisin.Infer
