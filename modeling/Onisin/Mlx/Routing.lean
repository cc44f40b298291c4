import Mathlib.Data.List.TakeWhile
import Onisin.Lib.Runs

/-!
Token routing in the decode loop. Every token that is kept is sent, as it appears, into the
answer, the reasoning or the span of a tool call; at the end of the turn the raw output is
split once more, first along the tool markers and then along the channel markers.
-/

set_option autoImplicit false

namespace Onisin.Mlx
open Lib

structure ToolCallMarkers where
  opens : Int32
  /-- Absent for families whose calls run to the next call or to the turn's end. -/
  closes : Option Int32
  deriving DecidableEq, Repr

structure ReasoningChannel where
  opens : Int32
  closes : Int32
  deriving DecidableEq, Repr

/-- The locals of the decode loop that routing reads and writes. -/
structure Routing where
  out : List UInt32 := []
  inReasoning : Bool := false
  inToolCall : Bool := false
  toolSpans : List (List UInt32) := []
  contentView : List UInt32 := []
  reasoningView : List UInt32 := []
  deriving DecidableEq, Repr

/-- `span.push(tok)` on the last span, if there is one. -/
def pushLast (tok : UInt32) : List (List UInt32) → List (List UInt32)
  | [] => []
  | [span] => [span ++ [tok]]
  | span :: spans => span :: pushLast tok spans

section Loop
variable (toolmark : Option ToolCallMarkers) (channel : Option ReasoningChannel)

/-- The views are only built when somebody listens to the stream. -/
def Routing.channelToken (emit : Bool) (s : Routing) (next : Int32) : Routing :=
  let view : Routing :=
    if emit then
      if s.inReasoning then { s with reasoningView := s.reasoningView ++ [next.toUInt32] }
      else { s with contentView := s.contentView ++ [next.toUInt32] }
    else s
  match channel with
  | some ch =>
    if next = ch.opens then { s with inReasoning := true }
    else if next = ch.closes then { s with inReasoning := false }
    else view
  | none => view

/-- The block `'route`. -/
def Routing.route (emit : Bool) (s : Routing) (next : Int32) : Routing :=
  match toolmark with
  | some t =>
    if next = t.opens then { s with inToolCall := true, toolSpans := s.toolSpans ++ [[]] }
    else if s.inToolCall then
      if t.closes = some next then { s with inToolCall := false }
      else { s with toolSpans := pushLast next.toUInt32 s.toolSpans }
    else s.channelToken channel emit next
  | none => s.channelToken channel emit next

/-- A token that neither ends the turn nor stops the generation. -/
def Routing.accept (emit : Bool) (s : Routing) (next : Int32) : Routing :=
  Routing.route toolmark channel emit { s with out := s.out ++ [next.toUInt32] } next

def opensCall (next : Int32) : Bool := (toolmark.map fun t => next == t.opens).getD false

/-- The decode loop over what the model picks, one token a step, until the calls are
complete, a stop token is met or the budget is used up. -/
def decodeLoop (emit : Bool) (stop : List Int32) : Routing → List Int32 → Routing
  | s, [] => s
  | s, next :: picks =>
    if !s.inToolCall && !s.toolSpans.isEmpty && !opensCall toolmark next then s
    else if stop.contains next then s
    else decodeLoop emit stop (Routing.accept toolmark channel emit s next) picks

def runGeneration (emit : Bool) (stop : List Int32) (maxTokens : Nat) (picks : List Int32) :
    Routing :=
  decodeLoop toolmark channel emit stop {} (picks.take maxTokens)

end Loop

/-! The two passes over the whole output. -/

structure Stripped where
  kept : List UInt32 := []
  inside : Bool := false

def stripStep (opens : UInt32) (closes : Option UInt32) (s : Stripped) (tok : UInt32) : Stripped :=
  if tok = opens then { s with inside := true }
  else if s.inside then
    if closes = some tok then { s with inside := false } else s
  else { s with kept := s.kept ++ [tok] }

def stripToolSpans (out : List UInt32) (opens : UInt32) (closes : Option UInt32) : List UInt32 :=
  (out.foldl (stripStep opens closes) {}).kept

structure Split where
  content : List UInt32 := []
  reasoning : List UInt32 := []
  inReasoning : Bool := false

def splitStep (ch : ReasoningChannel) (s : Split) (tok : UInt32) : Split :=
  if tok.toInt32 = ch.opens then { s with inReasoning := true }
  else if tok.toInt32 = ch.closes then { s with inReasoning := false }
  else if s.inReasoning then { s with reasoning := s.reasoning ++ [tok] }
  else { s with content := s.content ++ [tok] }

def splitChannels (out : List UInt32) (ch : ReasoningChannel) : List UInt32 × List UInt32 :=
  let s := out.foldl (splitStep ch) {}
  (s.content, s.reasoning)

/-- The output without its tool blocks, which is touched only if a span was captured. -/
def textTokens (toolmark : Option ToolCallMarkers) (toolSpans : List (List UInt32))
    (out : List UInt32) : List UInt32 :=
  match toolmark with
  | some t =>
    if toolSpans.isEmpty then out
    else stripToolSpans out t.opens.toUInt32 (t.closes.map Int32.toUInt32)
  | none => out

/-- The answer and the reasoning of the reply, as tokens. -/
def finalSplit (toolmark : Option ToolCallMarkers) (channel : Option ReasoningChannel)
    (toolSpans : List (List UInt32)) (out : List UInt32) : List UInt32 × List UInt32 :=
  let toks := textTokens toolmark toolSpans out
  match channel with
  | some ch => splitChannels toks ch
  | none => (toks, [])

/-- The spans that the markers delimit in a whole output: every open marker starts one, which
reaches up to the next marker of either kind. -/
def markerSpans (opens : UInt32) (closes : Option UInt32) : List UInt32 → List (List UInt32)
  | [] => []
  | tok :: rest =>
    if tok = opens then
      rest.takeWhile (fun t => t ≠ opens ∧ closes ≠ some t) :: markerSpans opens closes rest
    else markerSpans opens closes rest

/-! Where a pass over the output stands after one more token. -/

section Spans
variable {opens : UInt32} {closes : Option UInt32}

def insideAfter (opens : UInt32) (closes : Option UInt32) (inside : Bool) (out : List UInt32) : Bool :=
  (out.foldl (stripStep opens closes) { inside := inside }).inside

theorem stripStep_inside (s : Stripped) (tok : UInt32) :
    (stripStep opens closes s tok).inside =
      (tok = opens ∨ (s.inside = true ∧ closes ≠ some tok) : Bool) := by
  rcases s with ⟨kept, inside⟩
  cases inside <;> simp only [stripStep] <;> split <;> simp_all
  split <;> simp_all

/-- Whether the pass is inside a block does not depend on what was kept. -/
theorem foldl_strip_inside (s : Stripped) (out : List UInt32) :
    (out.foldl (stripStep opens closes) s).inside = insideAfter opens closes s.inside out := by
  induction out generalizing s with
  | nil => rfl
  | cons tok out ih =>
    rw [insideAfter, List.foldl_cons, List.foldl_cons, ih, ih, stripStep_inside, stripStep_inside]

theorem insideAfter_cons (inside : Bool) (tok : UInt32) (out : List UInt32) :
    insideAfter opens closes inside (tok :: out) =
      insideAfter opens closes (tok = opens ∨ (inside = true ∧ closes ≠ some tok) : Bool) out := by
  rw [insideAfter, List.foldl_cons, foldl_strip_inside, stripStep_inside]

/-- A token that is neither marker. -/
def isPlain (opens : UInt32) (closes : Option UInt32) (tok : UInt32) : Bool :=
  tok ≠ opens ∧ closes ≠ some tok

theorem insideAfter_plain (inside : Bool) {out : List UInt32}
    (h : ∀ tok ∈ out, isPlain opens closes tok = true) :
    insideAfter opens closes inside out = inside ∧ markerSpans opens closes out = [] := by
  induction out with
  | nil => exact ⟨rfl, rfl⟩
  | cons tok out ih =>
    obtain ⟨hopen, hclose⟩ := of_decide_eq_true (h tok List.mem_cons_self)
    have hrest := ih fun t ht => h t (List.mem_cons_of_mem tok ht)
    rw [insideAfter_cons, markerSpans, if_neg hopen]
    simpa [hopen, hclose] using hrest

/-- Behind a marker it no longer matters where the pass started. -/
theorem insideAfter_marker {out : List UInt32} (h : ¬ ∀ tok ∈ out, isPlain opens closes tok = true) :
    insideAfter opens closes true out = insideAfter opens closes false out := by
  induction out with
  | nil => exact absurd (fun _ ht => absurd ht List.not_mem_nil) h
  | cons tok out ih =>
    rw [insideAfter_cons, insideAfter_cons]
    by_cases hopen : tok = opens
    · simp [hopen]
    · by_cases hclose : closes = some tok
      · simp [hclose]
      · have hplain : isPlain opens closes tok = true := decide_eq_true ⟨hopen, hclose⟩
        have hrest : ¬ ∀ t ∈ out, isPlain opens closes t = true := by
          intro hall
          exact h fun t ht => (List.mem_cons.mp ht).elim (fun e => e ▸ hplain) (hall t)
        simpa [hopen, hclose] using ih hrest

theorem markerSpans_ne_nil {out : List UInt32} (h : insideAfter opens closes false out = true) :
    markerSpans opens closes out ≠ [] := by
  induction out with
  | nil => cases h
  | cons tok out ih =>
    rw [markerSpans]
    by_cases hopen : tok = opens
    · simp [hopen]
    · rw [if_neg hopen]
      refine ih ?_
      simpa [insideAfter_cons, hopen] using h

theorem pushLast_cons {tok : UInt32} {span : List UInt32} {spans : List (List UInt32)}
    (h : spans ≠ []) : pushLast tok (span :: spans) = span :: pushLast tok spans := by
  cases spans with
  | nil => exact absurd rfl h
  | cons s spans => rfl

/-- One more token behind the output: an open marker starts a span, a token inside a block
goes to the last span, any other token changes no span. -/
def spansPush (opens : UInt32) (closes : Option UInt32) (inside : Bool) (tok : UInt32)
    (spans : List (List UInt32)) : List (List UInt32) :=
  if tok = opens then spans ++ [[]]
  else if inside = true ∧ closes ≠ some tok then pushLast tok spans
  else spans

theorem spansPush_cons {inside : Bool} {tok : UInt32} {span : List UInt32}
    {spans : List (List UInt32)} (h : inside = true → spans ≠ []) :
    spansPush opens closes inside tok (span :: spans) =
      span :: spansPush opens closes inside tok spans := by
  unfold spansPush
  split
  · rfl
  · split
    · rename_i hin
      exact pushLast_cons (h hin.1)
    · rfl

theorem takeWhile_snoc_plain {p : UInt32 → Bool} {rest : List UInt32} (tok : UInt32)
    (h : ∀ t ∈ rest, p t = true) :
    (rest ++ [tok]).takeWhile p = if p tok then rest ++ [tok] else rest := by
  rw [List.takeWhile_append_of_pos h]
  cases hp : p tok <;> simp [hp]

theorem takeWhile_snoc_marker {p : UInt32 → Bool} {rest : List UInt32} (tok : UInt32)
    (h : ¬ ∀ t ∈ rest, p t = true) : (rest ++ [tok]).takeWhile p = rest.takeWhile p := by
  induction rest with
  | nil => exact absurd (fun _ ht => absurd ht List.not_mem_nil) h
  | cons t rest ih =>
    rw [List.cons_append, List.takeWhile_cons, List.takeWhile_cons]
    by_cases hp : p t = true
    · rw [if_pos hp, if_pos hp, ih]
      intro hall
      exact h fun u hu => (List.mem_cons.mp hu).elim (fun e => e ▸ hp) (hall u)
    · rw [if_neg hp, if_neg hp]

theorem markerSpans_snoc (out : List UInt32) (tok : UInt32) :
    markerSpans opens closes (out ++ [tok]) =
      spansPush opens closes (insideAfter opens closes false out) tok (markerSpans opens closes out) := by
  induction out with
  | nil => simp [markerSpans, spansPush, insideAfter]
  | cons t out ih =>
    rw [List.cons_append, markerSpans, markerSpans, ih]
    by_cases hopen : t = opens
    · rw [if_pos hopen, if_pos hopen, insideAfter_cons]
      simp only [hopen, true_or, decide_true]
      by_cases hplain : ∀ u ∈ out, isPlain opens closes u = true
      · -- the span opened here is the last one and still open
        obtain ⟨hin, hspans⟩ := insideAfter_plain true hplain
        have hout := (insideAfter_plain false hplain).1
        have htake := List.takeWhile_eq_self_iff.mpr hplain
        unfold isPlain at htake hplain
        rw [hin, hout, hspans, takeWhile_snoc_plain tok hplain, htake]
        by_cases htok : tok = opens
        · simp [spansPush, htok]
        · by_cases hclose : closes = some tok
          · simp [spansPush, htok, hclose]
          · simp [spansPush, htok, hclose, pushLast]
      · -- a later marker has ended it
        rw [insideAfter_marker hplain, spansPush_cons markerSpans_ne_nil]
        unfold isPlain at hplain
        rw [takeWhile_snoc_marker tok hplain]
    · rw [if_neg hopen, if_neg hopen, insideAfter_cons]
      simp [hopen]

end Spans

/-! The loop keeps pace with both passes. -/

section Tracking
variable {toolmark : Option ToolCallMarkers} {channel : Option ReasoningChannel}

def stripped (toolmark : Option ToolCallMarkers) (out : List UInt32) : Stripped :=
  match toolmark with
  | some t => out.foldl (stripStep t.opens.toUInt32 (t.closes.map Int32.toUInt32)) {}
  | none => { kept := out }

def channelSplit (channel : Option ReasoningChannel) (toks : List UInt32) : Split :=
  match channel with
  | some ch => toks.foldl (splitStep ch) {}
  | none => { content := toks }

def callSpans (toolmark : Option ToolCallMarkers) (out : List UInt32) : List (List UInt32) :=
  match toolmark with
  | some t => markerSpans t.opens.toUInt32 (t.closes.map Int32.toUInt32) out
  | none => []

/-- The loop's locals are those of the two passes run on the output so far. -/
structure Tracks (toolmark : Option ToolCallMarkers) (channel : Option ReasoningChannel)
    (emit : Bool) (s : Routing) : Prop where
  inside : s.inToolCall = (stripped toolmark s.out).inside
  spans : s.toolSpans = callSpans toolmark s.out
  reasoning : s.inReasoning = (channelSplit channel (stripped toolmark s.out).kept).inReasoning
  views : emit = true →
    s.contentView = (channelSplit channel (stripped toolmark s.out).kept).content ∧
    s.reasoningView = (channelSplit channel (stripped toolmark s.out).kept).reasoning

theorem toUInt32_eq_iff {x y : Int32} : x.toUInt32 = y.toUInt32 ↔ x = y := by
  constructor
  · intro h
    have h' := congrArg UInt32.toInt32 h
    rwa [Int32.toInt32_toUInt32, Int32.toInt32_toUInt32] at h'
  · exact congrArg _

theorem map_toUInt32_eq_some {c : Option Int32} {x : Int32} :
    c.map Int32.toUInt32 = some x.toUInt32 ↔ c = some x := by
  cases c <;> simp [toUInt32_eq_iff]

theorem stripped_snoc (t : ToolCallMarkers) (out : List UInt32) (next : Int32) :
    stripped (some t) (out ++ [next.toUInt32]) =
      if next = t.opens then { stripped (some t) out with inside := true }
      else if (stripped (some t) out).inside then
        if t.closes = some next then { stripped (some t) out with inside := false }
        else stripped (some t) out
      else { stripped (some t) out with kept := (stripped (some t) out).kept ++ [next.toUInt32] } := by
  simp only [stripped, List.foldl_append, List.foldl_cons, List.foldl_nil, stripStep,
    toUInt32_eq_iff, map_toUInt32_eq_some]
  congr

theorem channelSplit_snoc (ch : ReasoningChannel) (toks : List UInt32) (next : Int32) :
    channelSplit (some ch) (toks ++ [next.toUInt32]) =
      if next = ch.opens then { channelSplit (some ch) toks with inReasoning := true }
      else if next = ch.closes then { channelSplit (some ch) toks with inReasoning := false }
      else if (channelSplit (some ch) toks).inReasoning then
        { channelSplit (some ch) toks with
          reasoning := (channelSplit (some ch) toks).reasoning ++ [next.toUInt32] }
      else
        { channelSplit (some ch) toks with
          content := (channelSplit (some ch) toks).content ++ [next.toUInt32] } := by
  simp only [channelSplit, List.foldl_append, List.foldl_cons, List.foldl_nil, splitStep,
    Int32.toInt32_toUInt32]
  congr

theorem callSpans_snoc (t : ToolCallMarkers) (out : List UInt32) (next : Int32) :
    callSpans (some t) (out ++ [next.toUInt32]) =
      if next = t.opens then callSpans (some t) out ++ [[]]
      else if (stripped (some t) out).inside = true ∧ t.closes ≠ some next then
        pushLast next.toUInt32 (callSpans (some t) out)
      else callSpans (some t) out := by
  simp only [callSpans, markerSpans_snoc, spansPush, insideAfter, stripped, toUInt32_eq_iff, ne_eq,
    map_toUInt32_eq_some]
  congr

/-- A token outside every block is routed as the second pass routes it. -/
theorem channelToken_tracks {emit : Bool} {s : Routing} {toks : List UInt32} (next : Int32)
    (hreason : s.inReasoning = (channelSplit channel toks).inReasoning)
    (hviews : emit = true → s.contentView = (channelSplit channel toks).content ∧
      s.reasoningView = (channelSplit channel toks).reasoning) :
    let s' := s.channelToken channel emit next
    s'.inReasoning = (channelSplit channel (toks ++ [next.toUInt32])).inReasoning ∧
    (emit = true → s'.contentView = (channelSplit channel (toks ++ [next.toUInt32])).content ∧
      s'.reasoningView = (channelSplit channel (toks ++ [next.toUInt32])).reasoning) := by
  cases channel with
  | none =>
    have hnot : s.inReasoning = false := hreason
    cases emit with
    | false => exact ⟨hreason, fun h => absurd h Bool.false_ne_true⟩
    | true =>
      obtain ⟨hc, hr⟩ := hviews rfl
      simp only [Routing.channelToken, hnot, channelSplit] at hc hr ⊢
      simp [hc, hr]
  | some ch =>
    rw [channelSplit_snoc]
    simp only [Routing.channelToken]
    by_cases hopen : next = ch.opens
    · rw [if_pos hopen, if_pos hopen]
      exact ⟨rfl, hviews⟩
    · rw [if_neg hopen, if_neg hopen]
      by_cases hclose : next = ch.closes
      · rw [if_pos hclose, if_pos hclose]
        exact ⟨rfl, hviews⟩
      · rw [if_neg hclose, if_neg hclose, ← hreason]
        cases emit with
        | false =>
          refine ⟨?_, fun h => absurd h Bool.false_ne_true⟩
          cases hin : s.inReasoning <;> simp [hin]
        | true =>
          obtain ⟨hc, hr⟩ := hviews rfl
          cases hin : s.inReasoning <;> simp [hc, hr]

theorem channelToken_frame (channel : Option ReasoningChannel) (emit : Bool) (s : Routing)
    (next : Int32) :
    (s.channelToken channel emit next).out = s.out ∧
    (s.channelToken channel emit next).inToolCall = s.inToolCall ∧
    (s.channelToken channel emit next).toolSpans = s.toolSpans := by
  unfold Routing.channelToken
  refine ⟨?_, ?_, ?_⟩ <;> repeat' split
  all_goals rfl

/-- A token of a tool block: the text keeps nothing of it. -/
theorem Tracks.block {emit : Bool} {s : Routing} (h : Tracks toolmark channel emit s)
    {out : List UInt32} {inside : Bool} {spans : List (List UInt32)}
    (hstrip : stripped toolmark out = { stripped toolmark s.out with inside := inside })
    (hspans : callSpans toolmark out = spans) :
    Tracks toolmark channel emit { s with out := out, inToolCall := inside, toolSpans := spans } := by
  refine ⟨?_, hspans.symm, ?_, ?_⟩
  · rw [hstrip]
  · rw [hstrip]
    exact h.reasoning
  · rw [hstrip]
    exact h.views

/-- A token outside every block: it reaches the second pass. -/
theorem Tracks.outside {emit : Bool} {s : Routing} (h : Tracks toolmark channel emit s) {next : Int32}
    (hstrip : stripped toolmark (s.out ++ [next.toUInt32]) =
      { stripped toolmark s.out with kept := (stripped toolmark s.out).kept ++ [next.toUInt32] })
    (hspans : callSpans toolmark (s.out ++ [next.toUInt32]) = callSpans toolmark s.out) :
    Tracks toolmark channel emit
      (({ s with out := s.out ++ [next.toUInt32] } : Routing).channelToken channel emit next) := by
  let pushed : Routing := { s with out := s.out ++ [next.toUInt32] }
  obtain ⟨hout, hcall, hcalls⟩ := channelToken_frame channel emit pushed next
  obtain ⟨hr, hv⟩ := channelToken_tracks (s := pushed) next h.reasoning h.views
  refine ⟨?_, ?_, ?_, ?_⟩
  · rw [hcall, hout, hstrip]
    exact h.inside
  · rw [hcalls, hout, hspans]
    exact h.spans
  · rw [hout, hstrip]
    exact hr
  · rw [hout, hstrip]
    exact hv

theorem accept_tracks {emit : Bool} {s : Routing} (h : Tracks toolmark channel emit s)
    (next : Int32) : Tracks toolmark channel emit (s.accept toolmark channel emit next) := by
  cases toolmark with
  | none => exact h.outside rfl rfl
  | some t =>
    have hstrip := stripped_snoc t s.out next
    have hspans := callSpans_snoc t s.out next
    rw [← h.inside] at hstrip hspans
    rw [← h.spans] at hspans
    simp only [Routing.accept, Routing.route]
    by_cases hopen : next = t.opens
    · rw [if_pos hopen] at hstrip hspans ⊢
      exact h.block hstrip hspans
    · rw [if_neg hopen] at hstrip hspans ⊢
      cases hcall : s.inToolCall with
      | true =>
        rw [hcall, if_pos rfl] at hstrip
        rw [hcall] at hspans
        rw [if_pos rfl]
        by_cases hclose : t.closes = some next
        · rw [if_pos hclose] at hstrip ⊢
          rw [if_neg (fun hc => hc.2 hclose)] at hspans
          exact h.block hstrip hspans
        · rw [if_neg hclose] at hstrip ⊢
          rw [if_pos ⟨rfl, hclose⟩] at hspans
          have hin : (stripped (some t) s.out).inside = true := h.inside ▸ hcall
          exact h.block (by rw [hstrip, ← hin]) hspans
      | false =>
        rw [hcall, if_neg Bool.false_ne_true] at hstrip
        rw [hcall, if_neg (fun hc => Bool.false_ne_true hc.1), h.spans] at hspans
        rw [if_neg Bool.false_ne_true]
        have hout := h.outside hstrip hspans
        rwa [hcall] at hout

theorem tracks_start (emit : Bool) : Tracks toolmark channel emit {} := by
  cases toolmark <;> cases channel <;> exact ⟨rfl, rfl, rfl, fun _ => ⟨rfl, rfl⟩⟩

theorem decodeLoop_tracks {emit : Bool} (stop : List Int32) {s : Routing}
    (h : Tracks toolmark channel emit s) (picks : List Int32) :
    Tracks toolmark channel emit (decodeLoop toolmark channel emit stop s picks) := by
  induction picks generalizing s with
  | nil => exact h
  | cons next picks ih =>
    unfold decodeLoop
    split
    · exact h
    · split
      · exact h
      · exact ih (accept_tracks h next)

theorem run_tracks (emit : Bool) (toks : List Int32) :
    Tracks toolmark channel emit (run (Routing.accept toolmark channel emit) {} toks) := by
  have hstep : ∀ s next, Tracks toolmark channel emit s →
      Tracks toolmark channel emit (s.accept toolmark channel emit next) :=
    fun _ next h => accept_tracks h next
  exact run_keeps hstep (tracks_start emit) toks

/-- The first pass leaves an output without open markers alone. -/
theorem strip_no_spans {opens : UInt32} {closes : Option UInt32} {out : List UInt32}
    (h : markerSpans opens closes out = []) (kept : List UInt32) :
    out.foldl (stripStep opens closes) { kept := kept } = { kept := kept ++ out } := by
  induction out generalizing kept with
  | nil => rw [List.foldl_nil, List.append_nil]
  | cons tok out ih =>
    rw [markerSpans] at h
    split at h
    · cases h
    · rename_i hopen
      rw [List.foldl_cons, stripStep, if_neg hopen, if_neg Bool.false_ne_true, ih h,
        List.append_assoc, List.singleton_append]

/-- `strip_tool_spans` followed by `split_channels`, on a whole output. -/
def wholeSplit (toolmark : Option ToolCallMarkers) (channel : Option ReasoningChannel)
    (out : List UInt32) : List UInt32 × List UInt32 :=
  let toks := match toolmark with
    | some t => stripToolSpans out t.opens.toUInt32 (t.closes.map Int32.toUInt32)
    | none => out
  match channel with
  | some ch => splitChannels toks ch
  | none => (toks, [])

theorem wholeSplit_eq (out : List UInt32) :
    wholeSplit toolmark channel out =
      ((channelSplit channel (stripped toolmark out).kept).content,
        (channelSplit channel (stripped toolmark out).kept).reasoning) := by
  cases toolmark <;> cases channel <;> rfl

/-- Skipping the first pass when no span was captured changes nothing. -/
theorem finalSplit_eq (out : List UInt32) :
    finalSplit toolmark channel (callSpans toolmark out) out = wholeSplit toolmark channel out := by
  have htext : textTokens toolmark (callSpans toolmark out) out = (stripped toolmark out).kept := by
    cases toolmark with
    | none => rfl
    | some t =>
      simp only [textTokens]
      by_cases hnone : callSpans (some t) out = []
      · rw [if_pos (List.isEmpty_iff.mpr hnone), stripped, strip_no_spans hnone, List.nil_append]
      · rw [if_neg (fun he => hnone (List.isEmpty_iff.mp he))]
        rfl
  rw [wholeSplit_eq]
  simp only [finalSplit, htext]
  cases channel <;> rfl

/-- What was routed token by token is what the two passes make of the whole output. -/
structure Agrees (toolmark : Option ToolCallMarkers) (channel : Option ReasoningChannel)
    (emit : Bool) (s : Routing) : Prop where
  views : emit = true → (s.contentView, s.reasoningView) = wholeSplit toolmark channel s.out
  reply : finalSplit toolmark channel s.toolSpans s.out = wholeSplit toolmark channel s.out
  spans : s.toolSpans = callSpans toolmark s.out

theorem Tracks.agrees {emit : Bool} {s : Routing} (h : Tracks toolmark channel emit s) :
    Agrees toolmark channel emit s := by
  refine ⟨?_, ?_, h.spans⟩
  · intro hemit
    obtain ⟨hcontent, hreasoning⟩ := h.views hemit
    rw [wholeSplit_eq, hcontent, hreasoning]
  · rw [h.spans, finalSplit_eq]

theorem run_accept_out (emit : Bool) (toks : List Int32) (s : Routing) :
    (run (Routing.accept toolmark channel emit) s toks).out = s.out ++ toks.map Int32.toUInt32 := by
  induction toks generalizing s with
  | nil => exact (List.append_nil s.out).symm
  | cons next toks ih =>
    have hout : (s.accept toolmark channel emit next).out = s.out ++ [next.toUInt32] := by
      unfold Routing.accept Routing.route
      repeat' split
      all_goals first | rfl | rw [(channelToken_frame channel emit _ next).1]
    rw [run, List.foldl_cons, ← run, ih, hout, List.append_assoc, List.map_cons,
      List.singleton_append]

/-- Routing any sequence of tokens, or the sequence that the decode loop keeps of what the
model picks, agrees with the split of the whole output. -/
theorem live_routing_agrees (toolmark : Option ToolCallMarkers) (channel : Option ReasoningChannel)
    (emit : Bool) :
    (∀ toks : List Int32,
      (run (Routing.accept toolmark channel emit) {} toks).out = toks.map Int32.toUInt32 ∧
      Agrees toolmark channel emit (run (Routing.accept toolmark channel emit) {} toks)) ∧
    ∀ (stop : List Int32) (maxTokens : Nat) (picks : List Int32),
      Agrees toolmark channel emit (runGeneration toolmark channel emit stop maxTokens picks) := by
  constructor
  · intro toks
    exact ⟨run_accept_out emit toks {}, (run_tracks emit toks).agrees⟩
  · intro stop maxTokens picks
    exact (decodeLoop_tracks stop (tracks_start emit) _).agrees

end Tracking

/-- A repeated open marker, a channel marker inside the block and a stray close marker. -/
example : (run (Routing.accept (some ⟨48, some 49⟩) (some ⟨100, 101⟩) true) {}
      [7, 49, 100, 8, 48, 1, 101, 48, 2, 49, 9]).toolSpans = [[1, 101], [2]] ∧
    (run (Routing.accept (some ⟨48, some 49⟩) (some ⟨100, 101⟩) true) {}
      [7, 49, 100, 8, 48, 1, 101, 48, 2, 49, 9]).reasoningView = [8, 9] := by
  decide

end Onisin.Mlx
