import Onisin.Mlx.Speculative
import Onisin.Mlx.Streaming

/-!
The accelerated path against the decode loop. Both get the target's greedy tokens, but only
the loop looks for tool blocks: it stops behind the completed calls, parses them and keeps
them out of the text, while the accelerated path hands on the whole output as text.
-/

set_option autoImplicit false

namespace Onisin.Mlx
open Lib

/-- A target with its drafter; everything around the tokens is the target's. -/
structure SpecPair (α η : Type) where
  target : Target α η
  drafter : Drafter α η
  family : Family
  stop_eq : family.stop = target.stopTokens

/-- `SpecPair::generate_greedy`; `failure` is what a failed device operation reports. -/
def SpecPair.generateGreedy {α η : Type} (m : SpecPair α η) (failure : Text) (prompt : List Int32)
    (maxTokens : Nat) : Except Text (Option (List UInt32)) :=
  match specRun m.target m.drafter prompt maxTokens with
  | some out => .ok (some out)
  | none => .error failure

/-- What the decode loop picks at temperature zero: the target's choice after each prefix. -/
def Target.picks {α η : Type} (t : Target α η) : Nat → List Int32 → List Int32
  | 0, _ => []
  | n+1, ctx => t.nextId ctx :: t.picks n (ctx ++ [t.nextId ctx])

/-! The decode loop on an output. -/

section Loop
variable {toolmark : Option ToolCallMarkers} {channel : Option ReasoningChannel} {emit : Bool}

/-- Stop tokens cut the picks before the loop looks at them. -/
theorem decodeLoop_cut (stop : List Int32) (s : Routing) (picks : List Int32) :
    decodeLoop toolmark channel emit stop s picks =
      decodeLoop toolmark channel emit [] s (picks.takeWhile fun tok => !stop.contains tok) := by
  induction picks generalizing s with
  | nil => rfl
  | cons next picks ih =>
    by_cases hstop : next ∈ stop
    · simp [decodeLoop, hstop]
    · simp [decodeLoop, hstop, ih]

/-- The loop uses up all tokens or stops behind completed calls. -/
theorem decodeLoop_rest (toolmark : Option ToolCallMarkers) (channel : Option ReasoningChannel)
    (emit : Bool) (s : Routing) (toks : List Int32) :
    ∃ rest, s.out ++ toks.map Int32.toUInt32 =
        (decodeLoop toolmark channel emit [] s toks).out ++ rest ∧
      (rest = [] ∨ (decodeLoop toolmark channel emit [] s toks).inToolCall = false ∧
        (decodeLoop toolmark channel emit [] s toks).toolSpans ≠ []) := by
  induction toks generalizing s with
  | nil => exact ⟨[], rfl, Or.inl rfl⟩
  | cons next toks ih =>
    rw [decodeLoop]
    split
    · rename_i hcalls
      simp only [Bool.and_eq_true, Bool.not_eq_true', List.isEmpty_eq_false_iff] at hcalls
      exact ⟨_, rfl, Or.inr hcalls.1⟩
    · have hnone : ¬ ([] : List Int32).contains next = true := by simp
      have hout : (s.accept toolmark channel emit next).out = s.out ++ [next.toUInt32] :=
        run_accept_out emit [next] s
      obtain ⟨rest, hrest, hend⟩ := ih (s.accept toolmark channel emit next)
      rw [if_neg hnone]
      refine ⟨rest, ?_, hend⟩
      rw [← hrest, List.map_cons, ← List.singleton_append, ← List.append_assoc]
      exact congrArg (· ++ _) hout.symm

theorem markerSpans_append (opens : UInt32) (closes : Option UInt32) (out rest : List UInt32) :
    (markerSpans opens closes (out ++ rest)).length =
      (markerSpans opens closes out).length + (markerSpans opens closes rest).length := by
  induction out with
  | nil => simp [markerSpans]
  | cons tok out ih =>
    rw [List.cons_append, markerSpans, markerSpans]
    split
    · simp only [List.length_cons, ih]
      omega
    · exact ih

theorem insideAfter_append (opens : UInt32) (closes : Option UInt32) (inside : Bool)
    (out rest : List UInt32) :
    insideAfter opens closes inside (out ++ rest) =
      insideAfter opens closes (insideAfter opens closes inside out) rest := by
  rw [insideAfter, List.foldl_append, foldl_strip_inside]
  rfl

theorem callSpans_append (toolmark : Option ToolCallMarkers) (out rest : List UInt32) :
    (callSpans toolmark (out ++ rest)).length =
      (callSpans toolmark out).length + (callSpans toolmark rest).length := by
  cases toolmark with
  | none => rfl
  | some t => exact markerSpans_append _ _ out rest

/-- Behind a closed block only an open marker leads into another one. -/
theorem stripped_append {out rest : List UInt32} (h : (stripped toolmark out).inside = false)
    (hrest : callSpans toolmark rest = []) : (stripped toolmark (out ++ rest)).inside = false := by
  cases toolmark with
  | none => rfl
  | some t =>
    have hout : insideAfter t.opens.toUInt32 (t.closes.map Int32.toUInt32) false out = false := h
    have happend := insideAfter_append t.opens.toUInt32 (t.closes.map Int32.toUInt32) false out rest
    rw [hout] at happend
    refine happend.trans (Bool.eq_false_iff.mpr fun hin => ?_)
    exact markerSpans_ne_nil hin hrest

/-- The output has no call, or a single one that is opened and never closed. -/
def Unfinished (toolmark : Option ToolCallMarkers) (out : List UInt32) : Prop :=
  callSpans toolmark out = [] ∨
    (toolmark.bind ToolCallMarkers.closes).isSome = true ∧ (callSpans toolmark out).length = 1 ∧
      (stripped toolmark out).inside = true

theorem not_unfinished_of_closed {out rest : List UInt32} (h : (stripped toolmark out).inside = false)
    (hcalls : callSpans toolmark out ≠ []) : ¬ Unfinished toolmark (out ++ rest) := by
  have hlen := callSpans_append toolmark out rest
  have hpos := List.length_pos_iff.mpr hcalls
  rintro (hnone | ⟨-, hone, hin⟩)
  · rw [hnone, List.length_nil] at hlen
    omega
  · have hrest : callSpans toolmark rest = [] := List.length_eq_zero_iff.mp (by omega)
    rw [stripped_append h hrest] at hin
    cases hin

/-- The loop has no call to return exactly if the output has none; then it keeps all of it. -/
theorem completeSpans_eq_nil (f : Family) (emit : Bool) (toks : List Int32) :
    f.completeSpans (decodeLoop f.toolmark f.channel emit [] {} toks) = [] ↔
      Unfinished f.toolmark (toks.map Int32.toUInt32) := by
  have htracks : Tracks f.toolmark f.channel emit (decodeLoop f.toolmark f.channel emit [] {} toks) :=
    decodeLoop_tracks [] (tracks_start emit) toks
  obtain ⟨rest, hrest, hend⟩ := decodeLoop_rest f.toolmark f.channel emit {} toks
  generalize decodeLoop f.toolmark f.channel emit [] {} toks = s at htracks hrest hend ⊢
  have hout : toks.map Int32.toUInt32 = s.out ++ rest := hrest
  rw [hout]
  rcases hend with rfl | ⟨hcall, hcalls⟩
  · rw [List.append_nil, Family.completeSpans, Unfinished, ← htracks.spans, ← htracks.inside]
    by_cases hdrop : (s.inToolCall && (f.toolmark.bind ToolCallMarkers.closes).isSome) = true
    · obtain ⟨hin, hcloses⟩ := Bool.and_eq_true_iff.mp hdrop
      rw [if_pos hdrop, ← List.length_eq_zero_iff, ← List.length_eq_zero_iff, List.length_dropLast]
      simp only [hin, hcloses, true_and, and_true]
      omega
    · rw [if_neg hdrop]
      constructor
      · exact Or.inl
      · rintro (hnone | ⟨hcloses, -, hin⟩)
        · exact hnone
        · exact absurd (Bool.and_eq_true_iff.mpr ⟨hin, hcloses⟩) hdrop
  · have hkeep : f.completeSpans s = s.toolSpans := by simp [Family.completeSpans, hcall]
    rw [hkeep]
    refine iff_of_false hcalls (not_unfinished_of_closed ?_ ?_)
    · rw [← htracks.inside]
      exact hcall
    · rw [← htracks.spans]
      exact hcalls

/-- Without a call to return, the loop keeps the whole output. -/
theorem decodeLoop_out {f : Family} (emit : Bool) {toks : List Int32}
    (h : Unfinished f.toolmark (toks.map Int32.toUInt32)) :
    (decodeLoop f.toolmark f.channel emit [] {} toks).out = toks.map Int32.toUInt32 := by
  have htracks : Tracks f.toolmark f.channel emit (decodeLoop f.toolmark f.channel emit [] {} toks) :=
    decodeLoop_tracks [] (tracks_start emit) toks
  obtain ⟨rest, hrest, hend⟩ := decodeLoop_rest f.toolmark f.channel emit {} toks
  rcases hend with rfl | ⟨hcall, hcalls⟩
  · rw [List.append_nil] at hrest
    exact hrest.symm
  · have hout : toks.map Int32.toUInt32 =
        (decodeLoop f.toolmark f.channel emit [] {} toks).out ++ rest := hrest
    rw [hout] at h
    rw [htracks.inside] at hcall
    rw [htracks.spans] at hcalls
    exact absurd h (not_unfinished_of_closed hcall hcalls)

/-! Unfinished outputs by their markers. -/

theorem markerSpans_length (opens : UInt32) (closes : Option UInt32) (out : List UInt32) :
    (markerSpans opens closes out).length = out.count opens := by
  induction out with
  | nil => rfl
  | cons tok out ih =>
    rw [markerSpans, List.count_cons]
    by_cases hopen : tok = opens
    · simp [hopen, ih]
    · simp [hopen, ih]

theorem markerSpans_eq_nil {opens : UInt32} {closes : Option UInt32} {out : List UInt32} :
    markerSpans opens closes out = [] ↔ opens ∉ out := by
  rw [← List.length_eq_zero_iff, markerSpans_length, List.count_eq_zero]

/-- Nothing is kept until a block is closed. -/
theorem strip_unclosed {opens : UInt32} {closes : Option UInt32} {out : List UInt32}
    (h : ∀ tok ∈ out, closes ≠ some tok) (kept : List UInt32) :
    out.foldl (stripStep opens closes) { kept := kept, inside := true } =
      { kept := kept, inside := true } := by
  induction out with
  | nil => rfl
  | cons tok out ih =>
    obtain ⟨htok, hout⟩ := List.forall_mem_cons.mp h
    have hstep : stripStep opens closes { kept := kept, inside := true } tok =
        { kept := kept, inside := true } := by
      simp [stripStep, htok]
    rw [List.foldl_cons, hstep, ih hout]

theorem unclosed_of_inside {opens : UInt32} {closes : Option UInt32} {out : List UInt32}
    (hopens : opens ∉ out) (hin : insideAfter opens closes true out = true) :
    ∀ tok ∈ out, closes ≠ some tok := by
  by_cases hplain : ∀ tok ∈ out, isPlain opens closes tok = true
  · exact fun tok htok => (of_decide_eq_true (hplain tok htok)).2
  · rw [insideAfter_marker hplain] at hin
    exact absurd (markerSpans_eq_nil.mpr hopens) (markerSpans_ne_nil hin)

/-- The output opens a single call, behind `front`, and a family with a close marker never closes
it. -/
def BreaksOff (toolmark : Option ToolCallMarkers) (front out : List UInt32) : Prop :=
  ∃ t closes back, toolmark = some t ∧ t.closes = some closes ∧
    out = front ++ t.opens.toUInt32 :: back ∧ t.opens.toUInt32 ∉ front ∧ t.opens.toUInt32 ∉ back ∧
    closes.toUInt32 ∉ back

theorem BreaksOff.stripped_eq {front out : List UInt32} (h : BreaksOff toolmark front out) :
    stripped toolmark out = { kept := front, inside := true } := by
  obtain ⟨t, closes, back, rfl, hcloses, rfl, hfront, -, hnever⟩ := h
  have hkeep : front.foldl (stripStep t.opens.toUInt32 (some closes.toUInt32)) { kept := [] } =
      { kept := [] ++ front } := strip_no_spans (markerSpans_eq_nil.mpr hfront) []
  have hdrop : ∀ tok ∈ back, some closes.toUInt32 ≠ some tok := by
    rintro _ htok ⟨⟩
    exact hnever htok
  simp only [stripped, hcloses, Option.map_some, List.foldl_append, hkeep, List.nil_append,
    List.foldl_cons, stripStep, if_true]
  exact strip_unclosed hdrop front

theorem unfinished_iff {out : List UInt32} :
    Unfinished toolmark out ↔
      (∀ t ∈ toolmark, t.opens.toUInt32 ∉ out) ∨ ∃ front, BreaksOff toolmark front out := by
  cases toolmark with
  | none => simp [Unfinished, callSpans]
  | some t =>
    have hnone : callSpans (some t) out = [] ↔ t.opens.toUInt32 ∉ out := markerSpans_eq_nil
    have hcount : (callSpans (some t) out).length = out.count t.opens.toUInt32 :=
      markerSpans_length _ _ out
    rw [Unfinished, hnone, hcount]
    simp only [Option.mem_def, Option.some.injEq, forall_eq']
    refine or_congr_right ⟨?_, ?_⟩
    · rintro ⟨hcloses, hone, hin⟩
      obtain ⟨closes, hcloses : t.closes = some closes⟩ := Option.isSome_iff_exists.mp hcloses
      have hmem : t.opens.toUInt32 ∈ out := List.count_pos_iff.mp (by omega)
      obtain ⟨front, back, rfl, hfront⟩ := List.eq_append_cons_of_mem hmem
      rw [List.count_append, List.count_cons_self, List.count_eq_zero.mpr hfront] at hone
      have hback : t.opens.toUInt32 ∉ back := List.count_eq_zero.mp (by omega)
      have hinside : insideAfter t.opens.toUInt32 (t.closes.map Int32.toUInt32) false
          (front ++ t.opens.toUInt32 :: back) = true := hin
      rw [insideAfter_append, insideAfter_cons, hcloses] at hinside
      have hnever := unclosed_of_inside hback (by simpa using hinside)
      exact ⟨front, t, closes, back, rfl, hcloses, rfl, hfront, hback,
        fun hmem => hnever _ hmem rfl⟩
    · rintro ⟨front, hbreaks⟩
      have hstripped := hbreaks.stripped_eq
      obtain ⟨t', closes, back, ht, hcloses, rfl, hfront, hback, -⟩ := hbreaks
      obtain rfl := Option.some.inj ht
      refine ⟨by simp [hcloses], ?_, by rw [hstripped]⟩
      rw [List.count_append, List.count_cons_self, List.count_eq_zero.mpr hfront,
        List.count_eq_zero.mpr hback]

end Loop

/-! The two generations. -/

theorem picks_greedy {α η : Type} (t : Target α η) (n : Nat) (ctx : List Int32) :
    ((t.picks n ctx).takeWhile fun tok => !t.stopTokens.contains tok).map Int32.toUInt32 =
      t.greedy n ctx := by
  induction n generalizing ctx with
  | zero => rfl
  | succ n ih =>
    by_cases hstop : t.nextId ctx ∈ t.stopTokens
    · simp [Target.picks, Target.greedy, hstop]
    · simp [Target.picks, Target.greedy, hstop, ← ih]

theorem picks_length {α η : Type} (t : Target α η) (n : Nat) (ctx : List Int32) :
    (t.picks n ctx).length = n := by
  induction n generalizing ctx with
  | zero => rfl
  | succ n ih => simp [Target.picks, ih]

section Finish
variable {f : Family} {promptTokens maxTokens : Nat} {s : Routing}

theorem toolCalls_length {i : Nat} {spans : List (List UInt32)} {calls : List ToolCall}
    (h : f.toolCalls i spans = .ok calls) : calls.length = spans.length := by
  induction spans generalizing i calls with
  | nil =>
    cases h
    rfl
  | cons span spans ih =>
    obtain ⟨raw, -, h⟩ := bind_eq_ok.mp h
    obtain ⟨⟨name, arguments⟩, -, h⟩ := bind_eq_ok.mp h
    obtain ⟨rest, hrest, h⟩ := bind_eq_ok.mp h
    obtain rfl := Except.ok.inj h
    rw [List.length_cons, List.length_cons, ih hrest]

/-- A generation without calls. -/
def plainGeneration (promptTokens maxTokens completion : Nat) (parts : Text × Option Text) :
    Generation where
  text := parts.1
  reasoning := parts.2
  promptTokens := promptTokens
  completionTokens := completion
  finish := finishReason [] completion maxTokens
  toolCalls := []

theorem finish_plain (h : f.completeSpans s = []) :
    f.finish promptTokens maxTokens s =
      (f.textAndReasoning (finalSplit f.toolmark f.channel s.toolSpans s.out)).map
        (plainGeneration promptTokens maxTokens s.out.length) := by
  rw [Family.finish, h]
  cases f.textAndReasoning (finalSplit f.toolmark f.channel s.toolSpans s.out) <;> rfl

theorem finish_calls {g : Generation} (h : f.completeSpans s ≠ [])
    (hg : f.finish promptTokens maxTokens s = .ok g) : g.toolCalls ≠ [] := by
  obtain ⟨calls, hcalls, -, hg⟩ := finish_ok hg
  have hlen := toolCalls_length hcalls
  have hpos := List.length_pos_iff.mpr h
  have htool : g.toolCalls = calls := by rw [hg]
  rw [htool, ← List.length_pos_iff, hlen]
  exact hpos

theorem map_plain_inj {completion : Nat} {x y : Except Text (Text × Option Text)} :
    x.map (plainGeneration promptTokens maxTokens completion) =
      y.map (plainGeneration promptTokens maxTokens completion) ↔ x = y := by
  constructor
  · intro h
    cases x with
    | error e => cases y <;> simp_all [Except.map]
    | ok parts =>
      cases y with
      | error e => cases h
      | ok parts' =>
        have hg := Except.ok.inj h
        have htext := congrArg Generation.text hg
        have hreasoning := congrArg Generation.reasoning hg
        exact congrArg Except.ok (Prod.ext htext hreasoning)
  · exact congrArg _

/-- What is left of a decoded reasoning behind the name line, without blanks around it. -/
def Family.thought (f : Family) (toks : List UInt32) : Except Text Text :=
  if toks.isEmpty then .ok []
  else (f.decode toks true).map fun raw => (body f.nameLine raw).trim

/-- The two splits read the same, the answers as they are and the reasonings as they are shown. -/
def Family.ReadAlike (f : Family) (split split' : Split) : Prop :=
  f.decode split.content true = f.decode split'.content true ∧
    f.thought split.reasoning = f.thought split'.reasoning

theorem detokenize_eq_iff {toks toks' : List UInt32} :
    f.detokenize toks = f.detokenize toks' ↔ f.decode toks true = f.decode toks' true := by
  rw [Family.detokenize, Family.detokenize]
  cases f.decode toks true <;> cases f.decode toks' true <;> simp [Except.mapError]

theorem reasoning_eq_thought (toks : List UInt32) :
    f.reasoning toks = ((f.thought toks).map fun t => if t.isEmpty then none else some t).mapError
      ("detokenize: ".toList ++ ·) := by
  rw [Family.reasoning, Family.thought]
  split
  · rfl
  · rw [Family.detokenize]
    cases f.decode toks true <;> rfl

theorem reasoning_eq_iff {toks toks' : List UInt32} :
    f.reasoning toks = f.reasoning toks' ↔ f.thought toks = f.thought toks' := by
  rw [reasoning_eq_thought, reasoning_eq_thought]
  cases hthought : f.thought toks with
  | error e => cases f.thought toks' <;> simp [Except.map, Except.mapError]
  | ok t =>
    cases hthought' : f.thought toks' with
    | error e => simp [Except.map, Except.mapError]
    | ok t' => cases t <;> cases t' <;> simp [Except.map, Except.mapError]

theorem textAndReasoning_eq_iff {split split' : Split} {parts : Text × Option Text}
    (h : f.textAndReasoning (split.content, split.reasoning) = .ok parts ∨
      f.textAndReasoning (split'.content, split'.reasoning) = .ok parts) :
    f.textAndReasoning (split.content, split.reasoning) =
        f.textAndReasoning (split'.content, split'.reasoning) ↔ f.ReadAlike split split' := by
  rw [Family.ReadAlike, ← detokenize_eq_iff, ← reasoning_eq_iff]
  constructor
  · intro hsame
    rw [hsame, or_self] at h
    obtain ⟨htext', hreasoning'⟩ := textAndReasoning_ok h
    obtain ⟨htext, hreasoning⟩ := textAndReasoning_ok (hsame.trans h)
    exact ⟨htext.trans htext'.symm, hreasoning.trans hreasoning'.symm⟩
  · rintro ⟨htext, hreasoning⟩
    simp only [Family.textAndReasoning, htext, hreasoning]

/-- The output opens no tool call; or it breaks off in the only one, and reads as it does up to
that call. -/
def Harmless (f : Family) (out : List UInt32) : Prop :=
  (∀ t ∈ f.toolmark, t.opens.toUInt32 ∉ out) ∨
    ∃ front, BreaksOff f.toolmark front out ∧
      f.ReadAlike (channelSplit f.channel out) (channelSplit f.channel front)

theorem Harmless.unfinished {out : List UInt32} (h : Harmless f out) : Unfinished f.toolmark out :=
  unfinished_iff.mpr (h.imp_right fun ⟨front, hbreaks, _⟩ => ⟨front, hbreaks⟩)

theorem finalSplit_nil (toolmark : Option ToolCallMarkers) (channel : Option ReasoningChannel)
    (out : List UInt32) :
    finalSplit toolmark channel [] out =
      ((channelSplit channel out).content, (channelSplit channel out).reasoning) := by
  cases toolmark <;> cases channel <;> rfl

/-- The text of the whole output is the text without its block where there is none, and else where
both read the same. -/
theorem text_agrees_iff {out : List UInt32} (hunfinished : Unfinished f.toolmark out)
    {parts : Text × Option Text}
    (h : f.textAndReasoning (finalSplit f.toolmark f.channel [] out) = .ok parts ∨
      f.textAndReasoning (wholeSplit f.toolmark f.channel out) = .ok parts) :
    f.textAndReasoning (finalSplit f.toolmark f.channel [] out) =
        f.textAndReasoning (wholeSplit f.toolmark f.channel out) ↔ Harmless f out := by
  rcases unfinished_iff.mp hunfinished with hnone | ⟨front, hbreaks⟩
  · refine iff_of_true ?_ (.inl hnone)
    have hspans : callSpans f.toolmark out = [] := by
      cases hmark : f.toolmark with
      | none => rfl
      | some t => exact markerSpans_eq_nil.mpr (hnone t hmark)
    rw [← finalSplit_eq, hspans]
  · rw [finalSplit_nil, wholeSplit_eq, hbreaks.stripped_eq] at h ⊢
    rw [textAndReasoning_eq_iff h]
    constructor
    · exact fun halike => .inr ⟨front, hbreaks, halike⟩
    · rintro (hnone | ⟨front', hbreaks', halike⟩)
      · obtain ⟨t, closes, back, hmark, -, rfl, -⟩ := hbreaks
        exact absurd (List.mem_append_right _ List.mem_cons_self) (hnone t hmark)
      · have hsame := hbreaks'.stripped_eq.symm.trans hbreaks.stripped_eq
        rwa [(Stripped.mk.inj hsame).1] at halike

theorem map_plain_ok {completion : Nat} {x : Except Text (Text × Option Text)} {g : Generation}
    (h : x.map (plainGeneration promptTokens maxTokens completion) = .ok g) :
    ∃ parts, x = .ok parts := by
  cases x with
  | error e => cases h
  | ok parts => exact ⟨parts, rfl⟩

end Finish

section Pair
variable {α η : Type} (m : SpecPair α η) (params : GenParams) (prompt : List Int32)

theorem accelerated_run (failure : Text) (hgreedy : params.greedy = true) (htools : params.tools = [])
    (hprompt : prompt ≠ []) (picks : List Int32) :
    m.family.runGeneration (m.generateGreedy failure) params prompt picks =
      m.family.finish prompt.length params.maxTokens
        { out := m.target.greedy params.maxTokens prompt } := by
  have hrun : m.generateGreedy failure prompt params.maxTokens =
      .ok (some (m.target.greedy params.maxTokens prompt)) := by
    rw [SpecPair.generateGreedy, speculative_transparent m.target m.drafter prompt hprompt]
  simp only [Family.runGeneration, hgreedy, htools, List.isEmpty_nil, Bool.and_self, if_true, hrun]
  rfl

theorem generic_run :
    m.family.runGeneration noGreedy params prompt (m.target.picks params.maxTokens prompt) =
      m.family.finish prompt.length params.maxTokens
        (decodeLoop m.family.toolmark m.family.channel false [] {}
          ((m.target.picks params.maxTokens prompt).takeWhile fun tok =>
            !m.target.stopTokens.contains tok)) := by
  have hlen := picks_length m.target params.maxTokens prompt
  rw [decodeLoop_run, runGeneration, List.take_of_length_le (Nat.le_of_eq hlen), decodeLoop_cut,
    m.stop_eq]

theorem accelerated_agrees_iff (failure : Text) (hgreedy : params.greedy = true)
    (htools : params.tools = []) (hprompt : prompt ≠ []) (g : Generation)
    (hg : m.family.runGeneration (m.generateGreedy failure) params prompt
        (m.target.picks params.maxTokens prompt) = .ok g ∨
      m.family.runGeneration noGreedy params prompt (m.target.picks params.maxTokens prompt) = .ok g) :
    m.family.runGeneration (m.generateGreedy failure) params prompt
        (m.target.picks params.maxTokens prompt) =
      m.family.runGeneration noGreedy params prompt (m.target.picks params.maxTokens prompt) ↔
    Harmless m.family (m.target.greedy params.maxTokens prompt) := by
  rw [accelerated_run m params prompt failure hgreedy htools hprompt, generic_run] at hg ⊢
  have hpicks := picks_greedy m.target params.maxTokens prompt
  generalize (m.target.picks params.maxTokens prompt).takeWhile
    (fun tok => !m.target.stopTokens.contains tok) = toks at hpicks hg ⊢
  rw [← hpicks] at hg ⊢
  have hcalls := completeSpans_eq_nil m.family false toks
  have hfast : m.family.completeSpans { out := toks.map Int32.toUInt32 } = [] := rfl
  by_cases hunfinished : Unfinished m.family.toolmark (toks.map Int32.toUInt32)
  · -- no call is returned, and the loop keeps the whole output
    have htracks : Tracks m.family.toolmark m.family.channel false
        (decodeLoop m.family.toolmark m.family.channel false [] {} toks) :=
      decodeLoop_tracks [] (tracks_start false) toks
    have hout := decodeLoop_out false hunfinished
    rw [finish_plain hfast, finish_plain (hcalls.mpr hunfinished), htracks.spans, hout,
      finalSplit_eq] at hg ⊢
    rw [map_plain_inj]
    rcases hg with hg | hg
    · obtain ⟨parts, hparts⟩ := map_plain_ok hg
      exact text_agrees_iff hunfinished (.inl hparts)
    · obtain ⟨parts, hparts⟩ := map_plain_ok hg
      exact text_agrees_iff hunfinished (.inr hparts)
  · -- the loop returns a call, the accelerated path never does
    refine iff_of_false (fun hsame => ?_) (fun h => hunfinished h.unfinished)
    have hne := fun hnil => hunfinished (hcalls.mp hnil)
    rw [← hsame] at hg
    have hfinish := hg.elim id id
    have hnone : g.toolCalls = [] := by
      obtain ⟨calls, hc, -, hgen⟩ := finish_ok hfinish
      rw [hfast] at hc
      obtain rfl := Except.ok.inj hc
      rw [hgen]
    rw [hsame] at hfinish
    exact finish_calls hne hfinish hnone

/-- A stack that says a word and then calls a tool nobody has offered it. -/
def caller : Gemma4 Int32 Int32 :=
  { successor with
    stopTokens := [106]
    argmax := fun h => if h = 7 then 1 else if h = 1 then 48 else if h = 48 then 4
      else if h = 4 then 49 else 106 }

def callerPair : SpecPair Int32 Int32 where
  target := caller.target
  drafter := stubborn
  family := sampleFamily
  stop_eq := rfl

def greedyParams (maxTokens : Nat) : GenParams := { maxTokens := maxTokens, greedy := true, tools := [] }

def helloGeneration : Generation where
  text := "Hello".toList
  reasoning := none
  promptTokens := 1
  completionTokens := 1
  finish := "length".toList
  toolCalls := []

theorem accelerated_agrees_iff_hello :
    callerPair.family.runGeneration (callerPair.generateGreedy []) (greedyParams 1) [7]
        (callerPair.target.picks (greedyParams 1).maxTokens [7]) =
      callerPair.family.runGeneration noGreedy (greedyParams 1) [7]
        (callerPair.target.picks (greedyParams 1).maxTokens [7]) ↔
    Harmless callerPair.family (callerPair.target.greedy (greedyParams 1).maxTokens [7]) :=
  accelerated_agrees_iff callerPair (greedyParams 1) [7] [] rfl rfl (by decide) helloGeneration
    (Or.inr rfl)

/-- The reply of the accelerated path, with the call in its text. -/
def callInText : Generation where
  text := "Hellocall:stop\x7b\x7d".toList
  reasoning := none
  promptTokens := 1
  completionTokens := 4
  finish := "stop".toList
  toolCalls := []

def callReturned : Generation where
  text := "Hello".toList
  reasoning := none
  promptTokens := 1
  completionTokens := 4
  finish := "tool_calls".toList
  toolCalls := [{
    id := "call_0".toList
    kind := "function".toList
    function := { name := "stop".toList, arguments := "\x7b\x7d".toList } }]

theorem unsolicited_call_differs :
    callerPair.family.runGeneration (callerPair.generateGreedy []) (greedyParams 8) [7]
        (callerPair.target.picks (greedyParams 8).maxTokens [7]) = .ok callInText ∧
    callerPair.family.runGeneration noGreedy (greedyParams 8) [7]
        (callerPair.target.picks (greedyParams 8).maxTokens [7]) = .ok callReturned := by
  constructor
  · rw [accelerated_run callerPair (greedyParams 8) [7] [] rfl rfl (by decide)]
    rfl
  · rfl

end Pair

end Onisin.Mlx
