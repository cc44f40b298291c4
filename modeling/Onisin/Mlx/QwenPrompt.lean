import Onisin.Lib.Occurrences
import Onisin.Mlx.QwenCalls
import Onisin.Mlx.ReusablePrefix

/-!
The prompt of the Qwen family, and what of it the next prompt repeats. The family keeps the
default, the whole prompt; but what follows the last opener is written for the generation
only, and the history has the assistant's own words in its place.
-/

set_option autoImplicit false

namespace Onisin.Mlx.Qwen
open Lib

def imStart : Text := "<|im_start|>".toList
def imEnd : Text := "<|im_end|>\n".toList
def thinkClose : Text := "</think>".toList

def TOOL_FORMAT_INSTRUCTION : Text :=
  "\n\nIf you choose to call a function ONLY reply in the following format with NO ".toList ++
    "suffix:\n\n<tool_call>\n<function=example_function_name>\n".toList ++
    "<parameter=example_parameter_1>\nvalue_1\n</parameter>\n".toList ++
    "<parameter=example_parameter_2>\nThis is the value for the second parameter\nthat ".toList ++
    "can span\nmultiple lines\n</parameter>\n</function>\n</tool_call>\n\n<IMPORTANT>\n".toList ++
    "Reminder:\n- Function calls MUST follow the specified format: an inner ".toList ++
    "<function=...></function> block must be nested within <tool_call></tool_call> XML ".toList ++
    "tags\n- Required parameters MUST be specified\n- You may provide optional reasoning ".toList ++
    "for your function call in natural language BEFORE the function call, but NOT after\n".toList ++
    "- If there is no function call available, answer the question like normal with your ".toList ++
    "current knowledge and do not tell the user about function calls\n</IMPORTANT>".toList

def stripThink (content : Text) : Text :=
  match splitLast thinkClose content with
  | some (_, after) => Text.trim after
  | none => Text.trim content

/-- A tool as serde writes it. -/
def toolJson (tool : Tool) : Json :=
  .object [
    ("type".toList, .string tool.kind),
    ("function".toList, .object [
      ("name".toList, .string tool.function.name),
      ("description".toList, .string tool.function.description),
      ("parameters".toList, tool.function.parameters.getD .null)])]

/-- The content of a leading system message. -/
def systemText (messages : List ChatMessage) : Option Text :=
  (messages.head?.filter fun m => m.role = "system".toList).map fun m => Text.trim m.content

def renderPreamble (messages : List ChatMessage) (tools : List Tool) : Text :=
  if tools ≠ [] then
    imStart ++ "system\n# Tools\n\nYou have access to the following functions:\n\n<tools>".toList ++
      (tools.flatMap fun tool => "\n".toList ++ (toolJson tool).print) ++ "\n</tools>".toList ++
      TOOL_FORMAT_INSTRUCTION ++
      (match (systemText messages).filter fun sys => sys ≠ [] with
        | some sys => "\n\n".toList ++ sys
        | none => []) ++ imEnd
  else
    match systemText messages with
    | some sys => imStart ++ "system\n".toList ++ sys ++ imEnd
    | none => []

section Render
variable (rt : Runtime)

def renderCall (call : ToolCall) : Text :=
  "<tool_call>".toList ++ qwenCallSpan rt.fromStr call.function.name call.function.arguments ++
    "</tool_call>".toList

/-- A blank line stands before the first call, but only behind real content. -/
def renderCalls (content : Text) : List ToolCall → Text
  | [] => []
  | call :: calls =>
    (if content ≠ [] then "\n\n".toList else []) ++ renderCall rt call ++
      calls.flatMap fun call => "\n".toList ++ renderCall rt call

/-- One message, between the one before it and the one behind it. -/
def renderMessage (prev : Option ChatMessage) (m : ChatMessage) (next : Option ChatMessage) : Text :=
  if m.role = roleUser then imStart ++ "user\n".toList ++ Text.trim m.content ++ imEnd
  else if m.role = roleAssistant then
    imStart ++ "assistant\n".toList ++ stripThink m.content ++
      renderCalls rt (stripThink m.content) (m.toolCalls.getD []) ++ imEnd
  else if m.role = roleTool then
    (if prev.any isTool then [] else imStart ++ "user".toList) ++ "\n<tool_response>\n".toList ++
      Text.trim m.content ++ "\n</tool_response>".toList ++
      (if next.any isTool then [] else imEnd)
  else []

def renderMessages : Option ChatMessage → List ChatMessage → Text
  | _, [] => []
  | prev, m :: rest => renderMessage rt prev m rest.head? ++ renderMessages (some m) rest

/-- What the prompt ends in, so that the model thinks or answers at once. -/
def scaffold (thinking : Bool) : Text :=
  (if thinking then "<think>\n" else "<think>\n\n</think>\n\n").toList

/-- The prompt up to the opener of the model's turn. -/
def renderHistory (messages : List ChatMessage) (tools : List Tool) : Text :=
  renderPreamble messages tools ++ renderMessages rt none messages

def renderPrompt (messages : List ChatMessage) (thinking : Bool) (tools : List Tool) : Text :=
  renderHistory rt messages tools ++ (imStart ++ "assistant\n".toList) ++ scaffold thinking

end Render

/-- The default of the trait, which this family keeps. -/
def reusablePrefixLen (rendered : Text) : Nat := byteLen rendered

/-! What the last marker leaves. -/

section Lists
theorem trim_isInfix (t : Text) : Text.trim t <:+: t := by
  have hback : (t.dropWhile isWhitespace).reverse.dropWhile isWhitespace <:+
      (t.dropWhile isWhitespace).reverse := List.dropWhile_suffix _
  have hfront : Text.trim t <+: t.dropWhile isWhitespace := by
    rw [Text.trim, ← List.reverse_suffix, List.reverse_reverse]
    exact hback
  exact hfront.isInfix.trans (List.dropWhile_suffix _).isInfix

/-- No closed thought is left in what history repeats of a turn. -/
theorem stripThink_no_close (content : Text) : ¬ thinkClose <:+: stripThink content := by
  rw [stripThink]
  split
  · next after h => exact fun hin => splitLast_some (by decide) h (hin.trans (trim_isInfix _))
  · next h => exact fun hin => splitLast_none h (hin.trans (trim_isInfix _))

/-- Neither text begins with the other. -/
def Clash (s t : Text) : Prop := ¬ s <+: t ∧ ¬ t <+: s

instance (s t : Text) : Decidable (Clash s t) := inferInstanceAs (Decidable (_ ∧ _))

theorem Clash.not_opens {s t : Text} (h : Clash s t) (rest : Text) : ¬ s <+: t ++ rest := by
  intro hp
  rcases List.prefix_or_prefix_of_prefix hp (List.prefix_append t rest) with hs | ht
  · exact h.1 hs
  · exact h.2 ht

/-- A text that continues another one either lies inside it or takes over from it. -/
theorem prefix_append_cases {s t rest : Text} :
    s <+: t ++ rest ↔ s <+: t ∨ ∃ k, k < s.length ∧ t = s.take k ∧ s.drop k <+: rest := by
  constructor
  · intro h
    by_cases hlen : s.length ≤ t.length
    · exact .inl (List.prefix_of_prefix_length_le h (List.prefix_append t rest) hlen)
    · right
      obtain ⟨u, hu⟩ : t <+: s :=
        List.prefix_of_prefix_length_le (List.prefix_append t rest) h (by omega)
      rw [← hu] at h ⊢
      refine ⟨t.length, ?_, List.take_left.symm, ?_⟩
      · rw [← hu] at hlen
        omega
      · rw [List.drop_left]
        exact (List.prefix_append_right_inj t).mp h
  · rintro (h | ⟨k, -, rfl, h⟩)
    · exact h.trans (List.prefix_append t rest)
    · have happend := (List.prefix_append_right_inj (s.take k)).mpr h
      rwa [List.take_append_drop] at happend

end Lists

/-! The turn that continues a conversation. -/

section Turn
variable {rt : Runtime} {content tail : Text} {calls : List ToolCall}

/-- What may follow the content of an assistant's turn. -/
def followers : List Text := [imEnd, "\n\n<tool_call>".toList, "<tool_call>".toList]

theorem turn_follower (rt : Runtime) (content tail : Text) (calls : List ToolCall) :
    ∃ lit ∈ followers, ∃ rest, renderCalls rt content calls ++ (imEnd ++ tail) = lit ++ rest := by
  cases calls with
  | nil => exact ⟨imEnd, .head _, tail, rfl⟩
  | cons call calls =>
    rw [renderCalls]
    by_cases hcontent : content = []
    · rw [if_neg (not_not.mpr hcontent)]
      exact ⟨_, .tail _ (.tail _ (.head _)), _, rfl⟩
    · rw [if_pos hcontent]
      exact ⟨_, .tail _ (.head _), _, rfl⟩

/-- Where the content leaves the open thought unfinished, the markup behind it does not go on
with it, except for the line break before a call. -/
theorem open_thought_repeated_iff :
    scaffold true <+: content ++ (renderCalls rt content calls ++ (imEnd ++ tail)) ↔
      scaffold true <+: content ∨ content = "<think>".toList ∧ calls ≠ [] := by
  have hclash : ∀ k, k < 7 → ∀ lit ∈ followers, Clash ((scaffold true).drop k) lit := by
    decide
  have hend : Clash ((scaffold true).drop 7) imEnd := by decide
  rw [prefix_append_cases]
  refine or_congr_right ⟨?_, ?_⟩
  · rintro ⟨k, hk, hcontent, hrest⟩
    obtain ⟨lit, hlit, rest, htail⟩ := turn_follower rt content tail calls
    have hk8 : k < 8 := hk
    by_cases hk7 : k < 7
    · rw [htail] at hrest
      exact absurd hrest ((hclash k hk7 lit hlit).not_opens rest)
    · obtain rfl : k = 7 := by omega
      refine ⟨hcontent, ?_⟩
      rintro rfl
      exact hend.not_opens tail hrest
  · rintro ⟨hcontent, hcalls⟩
    refine ⟨7, by decide, hcontent, ?_⟩
    obtain ⟨call, calls, rfl⟩ := List.exists_cons_of_ne_nil hcalls
    have hne : content ≠ [] := by
      rw [hcontent]
      decide
    rw [renderCalls, if_pos hne]
    exact ⟨_, rfl⟩

/-- History holds no closed thought, so an empty one is never repeated. -/
theorem empty_thought_not_repeated (hno : ¬ thinkClose <:+: content) :
    ¬ scaffold false <+: content ++ (renderCalls rt content calls ++ (imEnd ++ tail)) := by
  have hclash : ∀ k, k < 17 → ∀ lit ∈ followers, Clash ((scaffold false).drop k) lit := by
    decide
  have hclosed : ∀ k, 17 ≤ k → thinkClose <:+: (scaffold false).take k := by
    intro k hk
    have hpre : (scaffold false).take 17 <+: (scaffold false).take k := List.take_prefix_take_left hk
    exact List.IsInfix.trans ⟨"<think>\n\n".toList, [], rfl⟩ hpre.isInfix
  rw [prefix_append_cases]
  rintro (hin | ⟨k, -, hcontent, hrest⟩)
  · refine hno (List.IsInfix.trans ?_ hin.isInfix)
    exact ⟨"<think>\n\n".toList, "\n\n".toList, rfl⟩
  · by_cases hk : k < 17
    · obtain ⟨lit, hlit, rest, htail⟩ := turn_follower rt content tail calls
      rw [htail] at hrest
      exact (hclash k hk lit hlit).not_opens rest hrest
    · rw [hcontent] at hno
      exact hno (hclosed k (by omega))

end Turn

/-! A conversation and its continuation. -/

section Continuation
variable (rt : Runtime) {messages : List ChatMessage} {a : ChatMessage}

/-- The messages of a conversation render the same in front of an assistant's. -/
theorem renderMessages_append (ha : isTool a = false) (prev : Option ChatMessage)
    (ms more : List ChatMessage) :
    ∃ last, renderMessages rt prev (ms ++ a :: more) =
      renderMessages rt prev ms ++ renderMessages rt last (a :: more) := by
  induction ms generalizing prev with
  | nil => exact ⟨prev, rfl⟩
  | cons m ms ih =>
    obtain ⟨last, hrest⟩ := ih (some m)
    have hnext : renderMessage rt prev m (ms ++ a :: more).head? =
        renderMessage rt prev m ms.head? := by
      cases ms with
      | nil => simp [renderMessage, ha]
      | cons n ms => rfl
    refine ⟨last, ?_⟩
    rw [List.cons_append, renderMessages, renderMessages, hrest, hnext, List.append_assoc]

theorem renderHistory_append (hne : messages ≠ []) (ha : a.role = roleAssistant)
    (more : List ChatMessage) (tools : List Tool) :
    ∃ tail, renderHistory rt (messages ++ a :: more) tools =
      renderHistory rt messages tools ++ (imStart ++ "assistant\n".toList) ++
        (stripThink a.content ++
          (renderCalls rt (stripThink a.content) (a.toolCalls.getD []) ++ (imEnd ++ tail))) := by
  have htool : isTool a = false := by
    rw [isTool, ha]
    decide
  have huser : a.role ≠ roleUser := by
    rw [ha]
    decide
  have hpre : renderPreamble (messages ++ a :: more) tools = renderPreamble messages tools := by
    obtain ⟨m, ms, rfl⟩ := List.exists_cons_of_ne_nil hne
    rfl
  obtain ⟨last, hmessages⟩ := renderMessages_append rt htool none messages more
  refine ⟨renderMessages rt (some a) more, ?_⟩
  rw [renderHistory, hpre, hmessages, renderMessages, renderMessage, if_neg huser, if_pos ha,
    renderHistory]
  simp only [List.append_assoc]

/-- The prompt without its scaffold is repeated by every continuation. -/
theorem opener_repeated (hne : messages ≠ []) (ha : a.role = roleAssistant) (more : List ChatMessage)
    (thinking : Bool) (tools : List Tool) :
    renderHistory rt messages tools ++ (imStart ++ "assistant\n".toList) <+:
      renderPrompt rt (messages ++ a :: more) thinking tools := by
  obtain ⟨tail, htail⟩ := renderHistory_append rt hne ha more tools
  rw [renderPrompt, htail]
  simp only [List.append_assoc]
  exact (List.prefix_append_right_inj _).mpr (List.prefix_append _ _)

/-- The reusable prefix is reproduced exactly if the model was left to think and the words of the
history happen to begin with the open thought themselves. -/
theorem qwen_prefix_reproduced_iff (messages : List ChatMessage) (thinking : Bool)
    (tools : List Tool) (a : ChatMessage) (more : List ChatMessage)
    (hwait : AwaitsModel messages) (ha : a.role = roleAssistant) :
    (utf8 (renderPrompt rt messages thinking tools)).take
        (reusablePrefixLen (renderPrompt rt messages thinking tools)) <+:
      utf8 (renderPrompt rt (messages ++ a :: more) thinking tools) ↔
      thinking = true ∧ ("<think>\n".toList <+: stripThink a.content ∨
        stripThink a.content = "<think>".toList ∧ a.toolCalls.getD [] ≠ []) := by
  have hne : messages ≠ [] := by
    rintro rfl
    obtain ⟨m, hm, -⟩ := hwait
    cases hm
  obtain ⟨tail, htail⟩ := renderHistory_append rt hne ha more tools
  have hwhole : (utf8 (renderPrompt rt messages thinking tools)).take
      (reusablePrefixLen (renderPrompt rt messages thinking tools)) =
      utf8 (renderPrompt rt messages thinking tools) := List.take_length
  rw [hwhole, utf8_prefix_iff, renderPrompt, renderPrompt, htail]
  simp only [List.append_assoc]
  rw [List.prefix_append_right_inj, List.prefix_append_right_inj, List.prefix_append_right_inj]
  cases thinking with
  | true =>
    rw [open_thought_repeated_iff]
    exact (and_iff_right rfl).symm
  | false =>
    refine iff_of_false ?_ fun h => Bool.false_ne_true h.1
    exact empty_thought_not_repeated (stripThink_no_close a.content)

end Continuation

/-- A turn that thinks aloud before it calls a tool. -/
theorem qwen_prefix_reproduced_iff_think :
    (utf8 (renderPrompt emptyObjectRuntime [.plain "user" "Hello"] true [])).take
        (reusablePrefixLen (renderPrompt emptyObjectRuntime [.plain "user" "Hello"] true [])) <+:
      utf8 (renderPrompt emptyObjectRuntime
        ([.plain "user" "Hello"] ++ [.plain "assistant" "<think>\nhm"]) true []) :=
  (qwen_prefix_reproduced_iff emptyObjectRuntime [.plain "user" "Hello"] true []
    (.plain "assistant" "<think>\nhm") [] (by decide) rfl).mpr ⟨rfl, .inl (by decide)⟩

/-- The plainest conversation there is. -/
theorem answer_not_extending_prompt :
    AwaitsModel [.plain "user" "Hello"] ∧ (ChatMessage.plain "assistant" "Hi.").role = roleAssistant ∧
      ¬ (utf8 (renderPrompt emptyObjectRuntime [.plain "user" "Hello"] false [])).take
          (reusablePrefixLen (renderPrompt emptyObjectRuntime [.plain "user" "Hello"] false [])) <+:
        utf8 (renderPrompt emptyObjectRuntime
          ([.plain "user" "Hello"] ++ [.plain "assistant" "Hi."]) false []) := by
  refine ⟨by decide, rfl, ?_⟩
  decide

end Onisin.Mlx.Qwen
