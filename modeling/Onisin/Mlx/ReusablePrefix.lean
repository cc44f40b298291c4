import Mathlib.Data.List.TakeWhile
import Onisin.Mlx.Prompt

/-!
What of a prompt the next prompt repeats. The walk over the messages of a conversation is the
same inside every continuation of it, since the look-ahead for results stops at the message
that continues; what differs is the opener of the next model turn, which a continuation does
not repeat when it is folded into a model turn already closed.
-/

set_option autoImplicit false

namespace Onisin.Mlx
open Lib

variable (rt : Runtime)

/-! One message. -/

/-- Where a turn is opened: not inside the model turn before it. -/
def opens (m : ChatMessage) (st : Turns) : Text :=
  if m.turnRole = roleModel ∧ (st.prevRole = some roleModel ∨ st.openModelTurn) then []
  else turnOpen ++ m.turnRole ++ "\n".toList

/-- The results that are rendered with a message. -/
def ChatMessage.follows (m : ChatMessage) (after : List ChatMessage) : List ChatMessage :=
  if m.calls.isSome then after.takeWhile isTool else []

def turnBody (rt : Runtime) (m : ChatMessage) (after : List ChatMessage) : Text :=
  renderCalls rt (m.calls.getD []) ++ renderResponses (m.calls.getD []) (m.follows after) ++
    m.turnContent

theorem renderMessage_cases (m : ChatMessage) (after : List ChatMessage) (st : Turns) :
    (m.calls.getD [] ≠ [] ∧ m.follows after = [] ∧ renderMessage rt m after st =
      { text := st.text ++ opens m st ++ turnBody rt m after ++ toolResponseOpen,
        prevRole := some m.turnRole, openModelTurn := true }) ∨
    (m.follows after ≠ [] ∧ m.turnContent = [] ∧ renderMessage rt m after st =
      { text := st.text ++ opens m st ++ turnBody rt m after,
        prevRole := some m.turnRole, openModelTurn := true }) ∨
    ((m.calls.getD [] = [] ∨ m.follows after ≠ []) ∧
      (m.follows after = [] ∨ m.turnContent ≠ []) ∧ renderMessage rt m after st =
      { text := st.text ++ opens m st ++ turnBody rt m after ++ turnClose,
        prevRole := some m.turnRole, openModelTurn := false }) := by
  have htext : ∀ x : Text, st.text ++ opens m st ++ (renderCalls rt (m.calls.getD []) ++
      renderResponses (m.calls.getD []) (m.follows after)) ++ m.turnContent ++ x =
      st.text ++ opens m st ++ turnBody rt m after ++ x := by
    intro x
    simp only [turnBody, List.append_assoc]
  by_cases h₁ : m.calls.getD [] ≠ [] ∧ m.follows after = []
  · refine .inl ⟨h₁.1, h₁.2, ?_⟩
    rw [← htext]
    exact if_pos h₁
  by_cases h₂ : m.follows after ≠ [] ∧ m.turnContent = []
  · refine .inr (.inl ⟨h₂.1, h₂.2, ?_⟩)
    rw [← List.append_nil (st.text ++ _ ++ _), ← htext, List.append_nil]
    exact (if_neg h₁).trans (if_pos h₂)
  · refine .inr (.inr ⟨?_, ?_, ?_⟩)
    · by_cases hc : m.calls.getD [] = []
      · exact .inl hc
      · exact .inr fun hf => h₁ ⟨hc, hf⟩
    · by_cases hf : m.follows after = []
      · exact .inl hf
      · exact .inr fun hc => h₂ ⟨hf, hc⟩
    · rw [← htext]
      exact (if_neg h₁).trans (if_neg h₂)

@[simp] theorem renderMessage_prevRole (m : ChatMessage) (after : List ChatMessage) (st : Turns) :
    (renderMessage rt m after st).prevRole = some m.turnRole := by
  obtain ⟨-, -, h⟩ | ⟨-, -, h⟩ | ⟨-, -, h⟩ := renderMessage_cases rt m after st
  all_goals rw [h]

theorem renderMessage_closed_iff (m : ChatMessage) (after : List ChatMessage) (st : Turns) :
    (renderMessage rt m after st).openModelTurn = false ↔
      (m.calls.getD [] = [] ∨ m.follows after ≠ []) ∧
        (m.follows after = [] ∨ m.turnContent ≠ []) := by
  obtain ⟨hc, hf, h⟩ | ⟨hf, hc, h⟩ | ⟨h₁, h₂, h⟩ := renderMessage_cases rt m after st
  · simp [h, hc, hf]
  · simp [h, hc, hf]
  · simp [h, h₁, h₂]

theorem renderMessage_text (m : ChatMessage) (after : List ChatMessage) (st : Turns) :
    st.text ++ opens m st ++ turnBody rt m after <+: (renderMessage rt m after st).text := by
  obtain ⟨-, -, h⟩ | ⟨-, -, h⟩ | ⟨-, -, h⟩ := renderMessage_cases rt m after st
  · rw [h]; exact List.prefix_append _ _
  · rw [h]
  · rw [h]; exact List.prefix_append _ _

/-- Behind a message only the results directly after it matter. -/
theorem renderMessage_after {m : ChatMessage} {after after' : List ChatMessage} {st : Turns}
    (h : after.takeWhile isTool = after'.takeWhile isTool) :
    renderMessage rt m after st = renderMessage rt m after' st := by
  simp only [renderMessage, h]

/-! The walk. -/

theorem renderMessages_text (ms : List ChatMessage) (st : Turns) :
    st.text <+: (renderMessages rt ms st).text := by
  induction ms generalizing st with
  | nil => exact List.prefix_rfl
  | cons m ms ih =>
    refine List.IsPrefix.trans ?_ (ih _)
    split
    · exact List.prefix_rfl
    · refine List.IsPrefix.trans ?_ (renderMessage_text rt m ms st)
      rw [List.append_assoc]
      exact List.prefix_append _ _

theorem takeWhile_isTool_append {a : ChatMessage} (ha : isTool a = false)
    (ms more : List ChatMessage) :
    (ms ++ a :: more).takeWhile isTool = ms.takeWhile isTool := by
  induction ms with
  | nil => simp [ha]
  | cons m ms ih =>
    rw [List.cons_append, List.takeWhile_cons, List.takeWhile_cons, ih]

/-- A conversation renders the same inside its continuations. -/
theorem renderMessages_append {a : ChatMessage} (ha : isTool a = false)
    (ms more : List ChatMessage) (st : Turns) :
    renderMessages rt (ms ++ a :: more) st =
      renderMessages rt more (renderMessage rt a more (renderMessages rt ms st)) := by
  induction ms generalizing st with
  | nil => simp [renderMessages, ha]
  | cons m ms ih =>
    rw [List.cons_append, renderMessages, ih,
      renderMessage_after rt (takeWhile_isTool_append ha ms more)]
    rfl

theorem renderMessages_tools {ms : List ChatMessage} (h : ∀ m ∈ ms, isTool m = true) (st : Turns) :
    renderMessages rt ms st = st := by
  induction ms with
  | nil => rfl
  | cons m ms ih =>
    rw [renderMessages, if_pos (h m (by simp))]
    exact ih fun m hm => h m (by simp [hm])

/-! How a prompt ends. -/

/-- An open model turn ends in a marker of tool traffic. -/
def Turns.EndsInTraffic (st : Turns) : Prop :=
  st.openModelTurn = true → toolResponseOpen <:+ st.text ∨ toolResponseClose <:+ st.text

theorem renderResponses_ends (calls : List ToolCall) {follows : List ChatMessage}
    (h : follows ≠ []) : toolResponseClose <:+ renderResponses calls follows := by
  obtain ⟨init, last, rfl⟩ := (List.eq_nil_or_concat' follows).resolve_left h
  rw [renderResponses, List.flatMap_append, List.flatMap_singleton]
  exact (List.suffix_append _ _).trans (List.suffix_append _ _)

theorem renderMessage_endsInTraffic (m : ChatMessage) (after : List ChatMessage) (st : Turns) :
    (renderMessage rt m after st).EndsInTraffic := by
  obtain ⟨-, -, h⟩ | ⟨hf, hc, h⟩ | ⟨-, -, h⟩ := renderMessage_cases rt m after st
  · refine fun _ => .inl ?_
    rw [h]
    exact List.suffix_append _ _
  · refine fun _ => .inr ?_
    rw [h, turnBody, hc, List.append_nil]
    exact (renderResponses_ends _ hf).trans
      ((List.suffix_append _ _).trans (List.suffix_append _ _))
  · intro ho
    rw [h] at ho
    cases ho

theorem renderMessages_endsInTraffic (ms : List ChatMessage) {st : Turns}
    (h : st.EndsInTraffic) : (renderMessages rt ms st).EndsInTraffic := by
  induction ms generalizing st with
  | nil => exact h
  | cons m ms ih =>
    refine ih ?_
    split
    · exact h
    · exact renderMessage_endsInTraffic rt m ms st

/-- The part of a prompt before the thought channel that only steers the next turn. -/
def promptHead (st : Turns) : Text :=
  if st.openModelTurn then st.text else st.text ++ modelOpener

theorem renderTurns_endsInTraffic (messages : List ChatMessage) (thinking : Bool)
    (tools : List Tool) : (renderTurns rt messages thinking tools).EndsInTraffic :=
  renderMessages_endsInTraffic rt _ (by intro h; cases h)

theorem not_suffix_of_ends {s e t : Text} (hlen : e.length ≤ s.length) (h : ¬ e <:+ s)
    (ht : e <:+ t) : ¬ s <:+ t :=
  fun hs => h (List.suffix_of_suffix_length_le ht hs hlen)

theorem reusablePrefixLen_of_not_suffix {t : Text} (h : ¬ thoughtPrefill <:+ t) :
    reusablePrefixLen t = byteLen t := by
  rw [reusablePrefixLen, Text.stripSuffix_none h]

/-- A prompt is its head and at most the thought channel, which is what is cut off. -/
theorem renderPrompt_head (messages : List ChatMessage) (thinking : Bool) (tools : List Tool) :
    ∃ scaffold, renderPrompt rt messages thinking tools =
        promptHead (renderTurns rt messages thinking tools) ++ scaffold ∧
      reusablePrefixLen (renderPrompt rt messages thinking tools) =
        byteLen (promptHead (renderTurns rt messages thinking tools)) ∧
      (scaffold = [] ∨ scaffold = thoughtPrefill) := by
  have hend := renderTurns_endsInTraffic rt messages thinking tools
  rw [renderPrompt, promptHead]
  generalize renderTurns rt messages thinking tools = st at hend
  cases ho : st.openModelTurn with
  | true =>
    have hno : ¬ thoughtPrefill <:+ st.text := by
      obtain hx | hx := hend ho
      · exact not_suffix_of_ends (by decide) (by decide) hx
      · exact not_suffix_of_ends (by decide) (by decide) hx
    exact ⟨[], (List.append_nil _).symm, reusablePrefixLen_of_not_suffix hno, .inl rfl⟩
  | false =>
    cases thinking with
    | true =>
      refine ⟨[], rfl, ?_, .inl rfl⟩
      have hno : ¬ thoughtPrefill <:+ st.text ++ modelOpener :=
        not_suffix_of_ends (by decide) (by decide) (List.suffix_append _ _)
      exact (congrArg reusablePrefixLen (List.append_nil _)).trans
        (reusablePrefixLen_of_not_suffix hno)
    | false =>
      refine ⟨thoughtPrefill, rfl, ?_, .inr rfl⟩
      show reusablePrefixLen (st.text ++ modelOpener ++ thoughtPrefill) = _
      rw [reusablePrefixLen, Text.stripSuffix_append]
      rfl

/-! Which conversations leave the opener to be repeated. -/

/-- The last message of a conversation that is a turn of its own. -/
def lastTurn (messages : List ChatMessage) : Option ChatMessage :=
  ((conversation messages).filter fun m => !isTool m).getLast?

/-- The last turn is none of the model, or one with calls and without content. -/
def OpenerRepeated (messages : List ChatMessage) : Prop :=
  ∀ m ∈ lastTurn messages, m.turnRole = roleModel →
    m.toolCalls.isSome ∧ stripThinking m.content = []

instance (messages : List ChatMessage) : Decidable (OpenerRepeated messages) :=
  inferInstanceAs (Decidable (∀ m ∈ lastTurn messages, _))

/-- A continuation that renders no tool traffic and spells the opener itself. -/
def EchoesOpener (a : ChatMessage) (more : List ChatMessage) : Prop :=
  a.toolCalls.getD [] = [] ∧ (a.toolCalls.isSome → more.takeWhile isTool = []) ∧
    modelOpener <+: stripThinking a.content

/-- The conversation waits for the model: its last message is a user's or a tool's. -/
def AwaitsModel (messages : List ChatMessage) : Prop :=
  ∃ m ∈ messages.getLast?, m.role = roleUser ∨ m.role = roleTool

instance (messages : List ChatMessage) : Decidable (AwaitsModel messages) :=
  inferInstanceAs (Decidable (∃ m ∈ messages.getLast?, _))

theorem tools_or_last_turn (ms : List ChatMessage) :
    (∀ m ∈ ms, isTool m = true) ∨ ∃ before m after, ms = before ++ m :: after ∧
      isTool m = false ∧ ∀ f ∈ after, isTool f = true := by
  induction ms with
  | nil => exact .inl (by simp)
  | cons m ms ih =>
    obtain h | ⟨before, t, after, rfl, ht, hafter⟩ := ih
    · cases hm : isTool m with
      | true => exact .inl (by simpa [hm] using h)
      | false => exact .inr ⟨[], m, ms, rfl, hm, h⟩
    · exact .inr ⟨m :: before, t, after, rfl, ht, hafter⟩

theorem turnRole_of_user {m : ChatMessage} (h : m.role = roleUser) : m.turnRole ≠ roleModel := by
  rw [ChatMessage.turnRole, h]
  decide

theorem conversation_getLast {messages ms : List ChatMessage} {m : ChatMessage}
    (h : conversation messages = ms ++ [m]) : messages.getLast? = some m := by
  unfold conversation at h
  split at h
  · cases messages with
    | nil => simp at h
    | cons first messages =>
      rw [List.tail_cons] at h
      rw [h, ← List.cons_append, List.getLast?_concat]
  · rw [h, List.getLast?_concat]

/-- The state that the walk over a waiting conversation ends in, read off its last turn. -/
theorem renderTurns_closed_iff {messages : List ChatMessage} (hwait : AwaitsModel messages)
    (thinking : Bool) (tools : List Tool) :
    ((renderTurns rt messages thinking tools).openModelTurn = false ∧
      (renderTurns rt messages thinking tools).prevRole = some roleModel) ↔
      ¬ OpenerRepeated messages := by
  rw [renderTurns]
  obtain h | ⟨before, m, after, hconv, hm, hafter⟩ := tools_or_last_turn (conversation messages)
  · have hlast : lastTurn messages = none := by
      rw [lastTurn, List.filter_eq_nil_iff.mpr (by simpa using h)]
      rfl
    rw [renderMessages_tools rt h, OpenerRepeated, hlast]
    simp
  have hnone : after.filter (fun m => !isTool m) = [] := by simpa using hafter
  have hlast : lastTurn messages = some m := by
    rw [lastTurn, hconv, List.filter_append, List.filter_cons_of_pos (by simp [hm]), hnone,
      List.getLast?_concat]
  rw [hconv, renderMessages_append rt hm, renderMessages_tools rt hafter]
  rw [renderMessage_prevRole, OpenerRepeated, hlast]
  by_cases hrole : m.turnRole = roleModel
  · -- a model turn cannot be the last message, so results follow it
    have hne : after ≠ [] := by
      rintro rfl
      obtain ⟨l, hl, hl'⟩ := hwait
      rw [conversation_getLast hconv, Option.mem_some_iff] at hl
      subst hl
      obtain hu | ht := hl'
      · exact turnRole_of_user hu hrole
      · simp [isTool, ht] at hm
    have htake : after.takeWhile isTool = after := List.takeWhile_eq_self_iff.mpr hafter
    have hcalls : m.calls = m.toolCalls := if_pos hrole
    have hcontent : m.turnContent = stripThinking m.content := if_pos hrole
    rw [renderMessage_closed_iff, ChatMessage.follows, hcalls, hcontent, htake]
    cases htc : m.toolCalls with
    | none => simp [hrole, htc]
    | some calls => simp [hrole, hne, htc]
  · simp [hrole]

/-! A conversation and its continuation. -/

theorem firstIsSystem_append {messages : List ChatMessage} (h : messages ≠ [])
    (more : List ChatMessage) : firstIsSystem (messages ++ more) = firstIsSystem messages := by
  cases messages with
  | nil => exact absurd rfl h
  | cons m messages => rfl

theorem renderTurns_append {messages : List ChatMessage} (h : messages ≠ []) {a : ChatMessage}
    (ha : isTool a = false) (more : List ChatMessage) (thinking : Bool) (tools : List Tool) :
    renderTurns rt (messages ++ a :: more) thinking tools =
      renderMessages rt more
        (renderMessage rt a more (renderTurns rt messages thinking tools)) := by
  have hpre : renderPreamble rt (messages ++ a :: more) thinking tools =
      renderPreamble rt messages thinking tools := by
    have hhead : (messages ++ a :: more).head? = messages.head? := by
      cases messages with
      | nil => exact absurd rfl h
      | cons m messages => rfl
    unfold renderPreamble
    rw [firstIsSystem_append h, hhead]
  have hconv : conversation (messages ++ a :: more) = conversation messages ++ a :: more := by
    simp only [conversation, firstIsSystem_append h, List.tail_append_of_ne_nil h]
    split <;> rfl
  rw [renderTurns, hpre, hconv, renderMessages_append rt ha]
  rfl

/-- What stands before the thought channel also continues the text of the walk. -/
theorem renderPrompt_text (messages : List ChatMessage) (thinking : Bool) (tools : List Tool) :
    (renderTurns rt messages thinking tools).text <+: renderPrompt rt messages thinking tools := by
  rw [renderPrompt]
  split
  · exact List.prefix_rfl
  · rw [List.append_assoc]
    exact List.prefix_append _ _

theorem opener_not_prefix_traffic {marker : Text} (hlen : modelOpener.length ≤ marker.length)
    (h : ¬ modelOpener <+: marker) (t : Text) : ¬ modelOpener <+: marker ++ t :=
  fun hp => h (List.prefix_of_prefix_length_le hp (List.prefix_append _ _) hlen)

/-- A turn that closes cannot complete an opener that its content left unfinished. -/
theorem opener_prefix_closed {content t : Text} :
    modelOpener <+: content ++ (turnClose ++ t) ↔ modelOpener <+: content := by
  refine ⟨fun h => ?_, fun h => h.trans (List.prefix_append _ _)⟩
  by_cases hlen : modelOpener.length ≤ content.length
  · exact List.prefix_of_prefix_length_le h (List.prefix_append _ _) hlen
  obtain ⟨rest, hrest⟩ : content <+: modelOpener :=
    List.prefix_of_prefix_length_le (List.prefix_append _ _) h (by omega)
  have htail : rest <+: turnClose ++ t := by
    rw [← hrest] at h
    exact (List.prefix_append_right_inj content).mp h
  have htwo : rest.take 2 <+: turnClose :=
    List.prefix_of_prefix_length_le ((List.take_prefix 2 rest).trans htail)
      (List.prefix_append _ _) ((List.length_take_le 2 rest).trans (by decide))
  have hdrop : rest = modelOpener.drop content.length := by rw [← hrest, List.drop_left]
  have hnever : ∀ k < modelOpener.length, ¬ (modelOpener.drop k).take 2 <+: turnClose := by decide
  exact absurd (hdrop ▸ htwo) (hnever content.length (by omega))

/-- A message folded into a closed model turn repeats the opener only by spelling it. -/
theorem opener_prefix_folded {a : ChatMessage} (ha : a.role = roleAssistant)
    (more : List ChatMessage) {st : Turns} (hprev : st.prevRole = some roleModel) (t : Text) :
    st.text ++ modelOpener <+: (renderMessage rt a more st).text ++ t ↔ EchoesOpener a more := by
  have hrole : a.turnRole = roleModel := if_pos ha
  have hopens : opens a st = [] := if_pos ⟨hrole, .inl hprev⟩
  have hcalls : a.calls = a.toolCalls := if_pos hrole
  have hcontent : a.turnContent = stripThinking a.content := if_pos hrole
  have hbody : ∃ u, (renderMessage rt a more st).text = st.text ++ (turnBody rt a more ++ u) ∧
      (a.calls.getD [] = [] → a.follows more = [] → u = turnClose) := by
    obtain ⟨hc, -, h⟩ | ⟨hf, -, h⟩ | ⟨-, -, h⟩ := renderMessage_cases rt a more st
    · exact ⟨toolResponseOpen, by simp [h, hopens], fun h' => absurd h' hc⟩
    · exact ⟨[], by simp [h, hopens], fun _ h' => absurd h' hf⟩
    · exact ⟨turnClose, by simp [h, hopens], fun _ _ => rfl⟩
  obtain ⟨u, htext, hu⟩ := hbody
  rw [htext, List.append_assoc, List.prefix_append_right_inj, List.append_assoc, turnBody,
    EchoesOpener, ← hcalls, ← hcontent]
  have hfollows : a.follows more = [] ↔ (a.calls.isSome → more.takeWhile isTool = []) := by
    rw [ChatMessage.follows]
    split <;> simp_all
  rw [← hfollows]
  cases hc : a.calls.getD [] with
  | cons call calls =>
    simp only [renderCalls, List.flatMap_cons, List.append_assoc]
    simp only [reduceCtorEq, false_and, iff_false]
    exact opener_not_prefix_traffic (by decide) (by decide) _
  | nil =>
    cases hf : a.follows more with
    | cons follow follows =>
      simp only [renderCalls, renderResponses, renderResponseBlock, List.flatMap_nil,
        List.flatMap_cons, List.append_assoc, List.nil_append]
      simp only [reduceCtorEq, false_and, and_false, iff_false]
      exact opener_not_prefix_traffic (by decide) (by decide) _
    | nil =>
      rw [hu hc hf]
      simp only [renderCalls, renderResponses, List.flatMap_nil, List.nil_append, true_and]
      exact opener_prefix_closed

/-- The reusable part of a prompt is a prefix of the next prompt exactly when the last turn
leaves its opener to be repeated, or the continuation happens to spell it. -/
theorem reusable_prefix_reproduced_iff (messages : List ChatMessage) (thinking : Bool)
    (tools : List Tool) (a : ChatMessage) (more : List ChatMessage)
    (hwait : AwaitsModel messages) (ha : a.role = roleAssistant) :
    (utf8 (renderPrompt rt messages thinking tools)).take
        (reusablePrefixLen (renderPrompt rt messages thinking tools)) <+:
      utf8 (renderPrompt rt (messages ++ a :: more) thinking tools) ↔
      OpenerRepeated messages ∨ EchoesOpener a more := by
  have hne : messages ≠ [] := by
    rintro rfl
    obtain ⟨m, hm, -⟩ := hwait
    cases hm
  have hrole : a.turnRole = roleModel := if_pos ha
  have htool : isTool a = false := by rw [isTool, ha]; decide
  obtain ⟨scaffold, hprompt, hlen, -⟩ := renderPrompt_head rt messages thinking tools
  obtain ⟨tail, htail⟩ : (renderMessage rt a more (renderTurns rt messages thinking tools)).text <+:
      renderPrompt rt (messages ++ a :: more) thinking tools := by
    refine List.IsPrefix.trans ?_ (renderPrompt_text rt _ thinking tools)
    rw [renderTurns_append rt hne htool]
    exact renderMessages_text rt _ _
  rw [hlen, hprompt, utf8_take_byteLen, utf8_prefix_iff, ← htail]
  have hclosed := renderTurns_closed_iff rt hwait thinking tools
  generalize renderTurns rt messages thinking tools = st at hclosed htail ⊢
  have hgrows := (renderMessage_text rt a more st).trans (List.prefix_append _ tail)
  rw [List.append_assoc] at hgrows
  cases ho : st.openModelTurn with
  | true =>
    have hrep : OpenerRepeated messages := by
      by_contra h
      rw [(hclosed.mpr h).1] at ho
      cases ho
    simp only [promptHead, ho, if_true, hrep, true_or, iff_true]
    exact (List.prefix_append _ _).trans hgrows
  | false =>
    simp only [promptHead, ho, Bool.false_eq_true, if_false]
    by_cases hprev : st.prevRole = some roleModel
    · have hrep : ¬ OpenerRepeated messages := hclosed.mp ⟨ho, hprev⟩
      rw [opener_prefix_folded rt ha more hprev tail]
      simp [hrep]
    · have hrep : OpenerRepeated messages := by
        by_contra h
        exact hprev (hclosed.mpr h).2
      have hopens : opens a st = modelOpener := by
        rw [opens, if_neg (by simp [hprev, ho]), hrole]
        rfl
      rw [hopens, ← List.append_assoc] at hgrows
      simp only [hrep, true_or, iff_true]
      exact (List.prefix_append _ _).trans hgrows

/-- Reads the one document that the conversations below hold. -/
def emptyObjectRuntime : Runtime where
  toUppercase t := t.map Char.toUpper
  fromStr t := if t = braced [] then some (.object []) else none

def ChatMessage.plain (role content : String) : ChatMessage where
  role := role.toList
  content := content.toList
  toolCalls := none
  toolCallId := none

def weatherCall : ToolCall where
  id := "c1".toList
  kind := "function".toList
  function := { name := "weather".toList, arguments := braced [] }

def weatherTalk : List ChatMessage :=
  [.plain "user" "Is it raining?",
    { ChatMessage.plain "assistant" "Let me look." with toolCalls := some [weatherCall] },
    { ChatMessage.plain "tool" "no" with toolCallId := some weatherCall.id }]

theorem reusable_prefix_reproduced_first_turn :
    AwaitsModel [.plain "user" "Hello"] ∧ (ChatMessage.plain "assistant" "Hi.").role = roleAssistant ∧
      ((utf8 (renderPrompt emptyObjectRuntime [.plain "user" "Hello"] false [])).take
          (reusablePrefixLen (renderPrompt emptyObjectRuntime [.plain "user" "Hello"] false [])) <+:
        utf8 (renderPrompt emptyObjectRuntime
          ([.plain "user" "Hello"] ++ [.plain "assistant" "Hi."]) false [])) :=
  ⟨by decide, rfl, (reusable_prefix_reproduced_iff emptyObjectRuntime [.plain "user" "Hello"] false []
    (.plain "assistant" "Hi.") [] (by decide) rfl).mpr (.inl (by decide))⟩

set_option maxRecDepth 4000 in
/-- A call that came with content closes its turn, and the answer to its result is folded into
it without the opener that the prompt ended in. -/
theorem content_beside_call_not_reproduced :
    AwaitsModel weatherTalk ∧ (ChatMessage.plain "assistant" "It is dry.").role = roleAssistant ∧
      ¬ (utf8 (renderPrompt emptyObjectRuntime weatherTalk false [])).take
          (reusablePrefixLen (renderPrompt emptyObjectRuntime weatherTalk false [])) <+:
        utf8 (renderPrompt emptyObjectRuntime
          (weatherTalk ++ [.plain "assistant" "It is dry."]) false []) := by
  refine ⟨by decide, rfl, ?_⟩
  decide

end Onisin.Mlx
