import Mathlib.Data.List.Forall2
import Onisin.Agent.Chat
import Onisin.Lib.JsonParse
import Onisin.Lib.JsonText

/-!
What a chat turn sends and streams, over every run of its loop: the shape of each transcript
the model is asked with, the number of times it is asked, and the order of the events.
-/

set_option autoImplicit false

namespace Onisin.Agent
open Lib

@[simp] def Action.asked : Action → Option (List Message)
  | .chatCompletion messages => some messages
  | _ => none

@[simp] def Action.emitted : Action → Option AgentEvent
  | .emit _ event => some event
  | _ => none

@[simp] def looked : Exchange Action Answer → Option Bool
  | ⟨.aborted _, b⟩ => some b
  | _ => none

def requests (h : History) : List (List Message) := h.filterMap fun x => x.action.asked

def events (h : History) : List AgentEvent := h.filterMap fun x => x.action.emitted

/-- The answers to the turn's looks at its flag. -/
def checks (h : History) : List Bool := h.filterMap looked

@[simp] theorem requests_append (h k : History) : requests (h ++ k) = requests h ++ requests k :=
  List.filterMap_append

@[simp] theorem events_append (h k : History) : events (h ++ k) = events h ++ events k :=
  List.filterMap_append

@[simp] theorem checks_append (h k : History) : checks (h ++ k) = checks h ++ checks k :=
  List.filterMap_append

@[simp] theorem requests_cons (x : Exchange Action Answer) (h : History) :
    requests (x :: h) = x.action.asked.toList ++ requests h := by
  obtain ⟨a, r⟩ := x
  cases a <;> rfl

@[simp] theorem events_cons (x : Exchange Action Answer) (h : History) :
    events (x :: h) = x.action.emitted.toList ++ events h := by
  obtain ⟨a, r⟩ := x
  cases a <;> rfl

@[simp] theorem checks_cons (x : Exchange Action Answer) (h : History) :
    checks (x :: h) = (looked x).toList ++ checks h := by
  obtain ⟨a, r⟩ := x
  cases a <;> rfl

@[simp] theorem requests_nil : requests [] = [] := rfl

@[simp] theorem events_nil : events [] = [] := rfl

@[simp] theorem checks_nil : checks [] = [] := rfl

/-! The shape of a transcript. -/

/-- A message that neither asks for a tool nor answers such a call. -/
def Message.Plain : Message → Prop
  | .system _ => True
  | .user _ => True
  | .assistant _ toolCalls => toolCalls.getD [] = []
  | .tool _ _ => False

def Replies (call : ToolCall) (m : Message) : Prop := ∃ content, m = .tool call.id content

/-- An assistant message with tool calls and one reply to each of them, in order. -/
def IsGroup (ms : List Message) : Prop :=
  ∃ content calls replies, calls ≠ [] ∧ ms = .assistant content (some calls) :: replies ∧
    List.Forall₂ Replies calls replies

inductive WellFormed : List Message → Prop
  | nil : WellFormed []
  | plain {m : Message} {ms : List Message} (hm : m.Plain) (h : WellFormed ms) : WellFormed (m :: ms)
  | group {g ms : List Message} (hg : IsGroup g) (h : WellFormed ms) : WellFormed (g ++ ms)

theorem WellFormed.append {ms ns : List Message} (h : WellFormed ms) (hn : WellFormed ns) :
    WellFormed (ms ++ ns) := by
  induction h with
  | nil => exact hn
  | plain hm _ ih => exact .plain hm ih
  | @group g ms hg _ ih =>
    rw [List.append_assoc]
    exact .group hg ih

theorem wellFormed_flatten {groups : List (List Message)} (h : ∀ g ∈ groups, IsGroup g) :
    WellFormed groups.flatten := by
  induction groups with
  | nil => exact .nil
  | cons g groups ih =>
    simp only [List.mem_cons, forall_eq_or_imp] at h
    exact .group h.1 (ih h.2)

/-- System, history and user, and behind them groups only. -/
def Sendable (history : List Message) (user : Text) (ms : List Message) : Prop :=
  ∃ system groups, ms = .system system :: history ++ .user user :: List.flatten groups ∧
    ∀ g ∈ groups, IsGroup g

theorem Sendable.wellFormed {history ms : List Message} {user : Text} (hh : WellFormed history)
    (h : Sendable history user ms) : WellFormed ms := by
  obtain ⟨system, groups, rfl, hg⟩ := h
  exact .plain trivial (hh.append (.plain trivial (wellFormed_flatten hg)))

theorem Sendable.group {history ms g : List Message} {user : Text}
    (h : Sendable history user ms) (hg : IsGroup g) : Sendable history user (ms ++ g) := by
  obtain ⟨system, groups, rfl, hgs⟩ := h
  refine ⟨system, groups ++ [g], by simp, ?_⟩
  simp only [List.mem_append, List.mem_singleton]
  rintro g' (h | rfl)
  · exact hgs g' h
  · exact hg

/-! The shape of an event stream. -/

def AtMostOneTab (es : List AgentEvent) : Prop :=
  es = [] ∨ ∃ contextName rows viewName, es = [.tabOpen contextName rows viewName]

inductive ToolEvents : List AgentEvent → Prop
  | nil : ToolEvents []
  | call {es tabs : List AgentEvent} (h : ToolEvents es) (htabs : AtMostOneTab tabs)
      (callId name : Text) (args : Json) (ok : Bool) (summary : Text) :
      ToolEvents (es ++ (.toolCallStart callId name args :: tabs ++
        [.toolCallEnd callId name ok summary]))

/-- The events that end a turn, by the status it is recorded with. -/
def ChatResult.outcome (r : ChatResult) : List AgentEvent :=
  match r.trace.status with
  | .success | .stepLimit => [.assistantMessage r.text]
  | .error => [.agentError (r.error.getD [])]
  | .cancelled => [.cancelled, .assistantMessage r.text]

/-- What a turn has done by its end. -/
structure Ended (r : ChatResult) (h : History) : Prop where
  events : ∃ tools, ToolEvents tools ∧ Agent.events h = tools ++ r.outcome
  status : r.trace.status = .cancelled ↔ true ∈ checks h

/-! The parts of a turn that neither ask the model nor look at the flag. -/

/-- From `h` to `h'` nothing was asked and no flag looked at; the events since satisfy `E`. -/
structure Since (h h' : History) (E : List AgentEvent → Prop) : Prop where
  requests : requests h' = requests h
  checks : checks h' = checks h
  events : ∃ es, E es ∧ Agent.events h' = Agent.events h ++ es

theorem Since.refl (h : History) : Since h h (· = []) := ⟨rfl, rfl, [], rfl, by simp⟩

theorem Since.request {h h' : History} {E : List AgentEvent → Prop} (hs : Since h h' E)
    (subject : Text) (payload : Json) (r : Answer (.request subject payload)) :
    Since h (h' ++ [⟨.request subject payload, r⟩]) E := by
  obtain ⟨hr, hc, es, hE, he⟩ := hs
  exact ⟨by simpa using hr, by simpa using hc, es, hE, by simpa using he⟩

theorem Since.emit {h h' : History} (hs : Since h h' (· = [])) (turnId : Text)
    (event : AgentEvent) : Since h (h' ++ [⟨.emit turnId event, ()⟩]) (· = [event]) := by
  obtain ⟨hr, hc, es, rfl, he⟩ := hs
  exact ⟨by simpa using hr, by simpa using hc, _, rfl, by simpa using he⟩

theorem Since.mono {h h' : History} {E E' : List AgentEvent → Prop} (hs : Since h h' E)
    (hE : ∀ es, E es → E' es) : Since h h' E' := by
  obtain ⟨hr, hc, es, he, heq⟩ := hs
  exact ⟨hr, hc, es, hE es he, heq⟩

/-- Each request so far was sendable, and they are within the limit. -/
structure Asked (history : List Message) (user : Text) (h : History) : Prop where
  sendable : ∀ m ∈ requests h, Sendable history user m
  count : (requests h).length ≤ MAX_STEPS

theorem Asked.of_requests {history : List Message} {user : Text} {h h' : History}
    (ha : Asked history user h) (he : requests h' = requests h) : Asked history user h' :=
  ⟨he ▸ ha.sendable, he ▸ ha.count⟩

section Parts
variable {history : List Message} {user : Text} {h : History} (ctx : AgentCtx)

theorem runSchemaSearch_holds (args : Json) (ha : Asked history user h) :
    (runSchemaSearch ctx args).Holds (Asked history user)
      (fun _ h' => Since h h' (· = [])) h := by
  dsimp only [runSchemaSearch]
  split
  · exact .pure ha (.refl h)
  · refine .next ha fun r => ?_
    have hs := (Since.refl h).request _ _ r
    have ha' := ha.of_requests hs.requests
    cases r with
    | error e => exact .pure ha' hs
    | ok reply =>
      dsimp only
      split
      · exact .pure ha' hs
      · exact .pure ha' hs

theorem atMostOneTab_nil {es : List AgentEvent} (h : es = []) : AtMostOneTab es := .inl h

theorem runQuery_holds (args : Json) (ha : Asked history user h) :
    (runQuery ctx args).Holds (Asked history user) (fun _ h' => Since h h' AtMostOneTab) h := by
  have hquiet := fun h' (hs : Since h h' (· = [])) => hs.mono fun _ => atMostOneTab_nil
  dsimp only [runQuery]
  split
  · exact .pure ha (hquiet _ (.refl h))
  · refine .next ha fun r => ?_
    have hs := (Since.refl h).request _ _ r
    have ha' := ha.of_requests hs.requests
    cases r with
    | error e => exact .pure ha' (hquiet _ hs)
    | ok reply =>
      dsimp only
      split
      · exact .pure ha' (hquiet _ hs)
      · refine .next ha' fun _ => ?_
        have htab := fun event => hs.emit ctx.turnId event
        exact .pure (ha.of_requests (htab _).requests)
          ((htab _).mono fun es he => .inr ⟨_, _, _, he⟩)

theorem runTool_holds (name : Text) (args : Json) (ha : Asked history user h) :
    (runTool ctx name args).Holds (Asked history user) (fun _ h' => Since h h' AtMostOneTab) h := by
  have hquiet := fun h' (hs : Since h h' (· = [])) => hs.mono fun _ => atMostOneTab_nil
  dsimp only [runTool]
  split
  · exact (runSchemaSearch_holds ctx args ha).mono fun _ => hquiet
  · split
    · exact runQuery_holds ctx args ha
    · exact .pure ha (hquiet _ (.refl h))

theorem fetchGlobals_holds (ha : Asked history user h) :
    (fetchGlobals ctx).Holds (Asked history user) (fun _ h' => Since h h' (· = [])) h := by
  refine .next ha fun r => ?_
  have hs := (Since.refl h).request _ _ r
  cases r with
  | error e => exact .pure (ha.of_requests hs.requests) hs
  | ok v => exact .pure (ha.of_requests hs.requests) hs

theorem fetchDomainIndex_holds (ha : Asked history user h) :
    (fetchDomainIndex ctx).Holds (Asked history user) (fun _ h' => Since h h' (· = [])) h := by
  refine .next ha fun r => ?_
  have hs := (Since.refl h).request _ _ r
  cases r with
  | error e => exact .pure (ha.of_requests hs.requests) hs
  | ok v => exact .pure (ha.of_requests hs.requests) hs

theorem Since.trans {h h' h'' : History} (hs : Since h h' (· = [])) (hs' : Since h' h'' (· = [])) :
    Since h h'' (· = []) := by
  obtain ⟨hr, hc, es, rfl, he⟩ := hs
  obtain ⟨hr', hc', es', rfl, he'⟩ := hs'
  exact ⟨hr'.trans hr, hc'.trans hc, [], rfl, by simpa [he] using he'⟩

theorem buildSystemPrompt_holds (ha : Asked history user h) :
    (buildSystemPrompt ctx).Holds (Asked history user) (fun _ h' => Since h h' (· = [])) h := by
  refine .bind ((fetchGlobals_holds ctx ha).mono fun globals h₁ hs₁ => ?_)
  have ha₁ := ha.of_requests hs₁.requests
  refine .bind ((fetchDomainIndex_holds ctx ha₁).mono fun domains h₂ hs₂ => ?_)
  have hs := hs₁.trans hs₂
  exact .pure (ha.of_requests hs.requests) hs

theorem cancelled_holds (usage : Usage) (toolTraces : List ToolTrace) (ha : Asked history user h)
    (ht : ToolEvents (events h)) (hc : true ∈ checks h) :
    (cancelled ctx usage toolTraces).Holds (Asked history user) Ended h := by
  refine .next ha fun _ => ?_
  have hs := (Since.refl h).emit ctx.turnId .cancelled
  refine .next (ha.of_requests hs.requests) fun _ => ?_
  refine .pure (ha.of_requests ?_) ⟨⟨events h, ht, ?_⟩, ?_⟩
  · simp
  · simp [ChatResult.outcome]
  · simp [hc]

variable (serde : SerdeJson)

theorem dispatchToolCall_holds (call : ToolCall) (messages : List Message)
    (toolTraces : List ToolTrace) (ha : Asked history user h) (ht : ToolEvents (events h)) :
    (dispatchToolCall serde ctx call messages toolTraces).Holds (Asked history user)
      (fun p h' => requests h' = requests h ∧ checks h' = checks h ∧ ToolEvents (events h') ∧
        ∃ m, Replies call m ∧ p.1 = messages ++ [m]) h := by
  refine .next ha fun _ => ?_
  have hs₁ := (Since.refl h).emit ctx.turnId 
    (.toolCallStart call.id call.name (parseArgs serde call.arguments))
  refine .bind ((runTool_holds ctx call.name _ (ha.of_requests hs₁.requests)).mono
    fun result h₂ hs => ?_)
  obtain ⟨hr, hc, tabs, htabs, he⟩ := hs
  simp at hr hc he
  refine .next (ha.of_requests hr) fun _ => ?_
  refine .pure (ha.of_requests (by simpa using hr))
    ⟨by simpa using hr, by simpa using hc, ?_, _, ⟨_, rfl⟩, rfl⟩
  have hcall := ht.call htabs call.id call.name (parseArgs serde call.arguments)
    ((result.get "error".toList).isNone) (summariseResult result)
  simpa [he] using hcall

/-- What the inner loop leaves behind when it started at `h` on `calls`. -/
def AfterTools (calls : List ToolCall) (messages : List Message) (h : History) (e : ToolsEnd)
    (h' : History) : Prop :=
  requests h' = requests h ∧ ToolEvents (events h') ∧
    match e with
    | .cut _ => true ∈ checks h'
    | .done messages' _ => true ∉ checks h' ∧
      ∃ replies, List.Forall₂ Replies calls replies ∧ messages' = messages ++ replies

theorem dispatchToolCalls_holds (calls : List ToolCall) (messages : List Message)
    (toolTraces : List ToolTrace) (ha : Asked history user h) (ht : ToolEvents (events h))
    (hc : true ∉ checks h) :
    (dispatchToolCalls serde ctx calls messages toolTraces).Holds (Asked history user)
      (AfterTools calls messages h) h := by
  induction calls generalizing h messages toolTraces with
  | nil => exact .pure ha ⟨rfl, ht, hc, [], .nil, by simp⟩
  | cons call calls ih =>
    refine .next ha fun b => ?_
    have ha₁ : Asked history user (h ++ [⟨.aborted ctx.cancel, b⟩]) := ha.of_requests (by simp)
    have ht₁ : ToolEvents (events (h ++ [⟨.aborted ctx.cancel, b⟩])) := by simpa using ht
    cases b with
    | true => exact .pure ha₁ ⟨by simp, ht₁, by simp⟩
    | false =>
      refine .bind ((dispatchToolCall_holds ctx serde call messages toolTraces ha₁ ht₁).mono ?_)
      rintro ⟨messages', toolTraces'⟩ h₂ ⟨hr, hk, ht₂, m, hm, rfl⟩
      have hc₂ : true ∉ checks h₂ := by simpa [hk] using hc
      refine (ih _ _ (ha₁.of_requests hr) ht₂ hc₂).mono fun e h₃ he => ?_
      obtain ⟨hr₃, ht₃, hend⟩ := he
      refine ⟨by simpa using hr₃.trans hr, ht₃, ?_⟩
      cases e with
      | cut _ => exact hend
      | done messages'' _ =>
        obtain ⟨hc₃, replies, hreplies, rfl⟩ := hend
        exact ⟨hc₃, m :: replies, .cons hm hreplies, by simp⟩

/-- The raw message of a reply carries the reply's own tool calls. -/
theorem ofResponse_rawMessage {parsed : CompletionResponse} {reply : ChatReply}
    (h : ChatReply.ofResponse parsed = .ok reply) :
    ∃ content, reply.rawMessage =
      .assistant content (if reply.toolCalls.isEmpty then none else some reply.toolCalls) := by
  unfold ChatReply.ofResponse at h
  split at h
  · simp at h
  · rename_i choice _ _
    cases h
    exact ⟨choice.content, rfl⟩

/-- What one call of the model adds to a history that it found at `h`. -/
structure Completed (messages : List Message) (h : History) (r : Except Text ChatReply)
    (h' : History) : Prop where
  requests : requests h' = requests h ++ [messages]
  events : events h' = events h
  checks : checks h' = checks h
  raw : ∀ reply, r = .ok reply → ∃ content, reply.rawMessage =
    .assistant content (if reply.toolCalls.isEmpty then none else some reply.toolCalls)

theorem Asked.completed {messages : List Message} {h' : History} {r : Except Text ChatReply}
    (ha : Asked history user h) (hm : Sendable history user messages)
    (hn : (requests h).length < MAX_STEPS) (hc : Completed messages h r h') :
    Asked history user h' := by
  constructor
  · intro m hmem
    rw [hc.requests, List.mem_append, List.mem_singleton] at hmem
    rcases hmem with hmem | rfl
    · exact ha.sendable m hmem
    · exact hm
  · rw [hc.requests, List.length_append, List.length_singleton]
    exact hn

theorem chatCompletion_holds (messages : List Message) (ha : Asked history user h)
    (hm : Sendable history user messages) (hn : (requests h).length < MAX_STEPS) :
    (chatCompletion messages).Holds (Asked history user) (Completed messages h) h := by
  refine .next ha fun answer => ?_
  cases answer with
  | error e =>
    have hc : Completed messages h (.error e) (h ++ [⟨.chatCompletion messages, .error e⟩]) :=
      ⟨by simp, by simp, by simp, by simp⟩
    exact .pure (ha.completed hm hn hc) hc
  | ok parsed =>
    have hc : Completed messages h (ChatReply.ofResponse parsed)
        (h ++ [⟨.chatCompletion messages, .ok parsed⟩]) :=
      ⟨by simp, by simp, by simp, fun reply => ofResponse_rawMessage⟩
    exact .pure (ha.completed hm hn hc) hc

theorem agentLoop_holds (steps : Nat) (messages : List Message) (usage : Usage)
    (toolTraces : List ToolTrace) (ha : Asked history user h) (ht : ToolEvents (events h))
    (hc : true ∉ checks h) (hm : Sendable history user messages)
    (hn : (requests h).length + steps ≤ MAX_STEPS) :
    (agentLoop serde ctx steps messages usage toolTraces).Holds (Asked history user) Ended h := by
  induction steps generalizing h messages usage toolTraces with
  | zero =>
    refine .next ha fun _ => ?_
    exact .pure (ha.of_requests (by simp))
      ⟨⟨events h, ht, by simp [ChatResult.outcome]⟩, by simpa using hc⟩
  | succ steps ih =>
    refine .next ha fun b => ?_
    have ha₁ : Asked history user (h ++ [⟨.aborted ctx.cancel, b⟩]) := ha.of_requests (by simp)
    have ht₁ : ToolEvents (events (h ++ [⟨.aborted ctx.cancel, b⟩])) := by simpa using ht
    cases b with
    | true => exact cancelled_holds ctx usage toolTraces ha₁ ht₁ (by simp)
    | false =>
      have hn₁ : (requests (h ++ [⟨.aborted ctx.cancel, false⟩])).length < MAX_STEPS := by
        simp
        omega
      refine .bind ((chatCompletion_holds messages ha₁ hm hn₁).mono fun r h₂ hr => ?_)
      have ha₂ := ha₁.completed hm hn₁ hr
      have ht₂ : ToolEvents (events h₂) := hr.events ▸ ht₁
      have hc₂ : true ∉ checks h₂ := by simpa [hr.checks] using hc
      cases r with
      | error msg =>
        -- a failed call looks at the flag once more
        refine .next ha₂ fun b => ?_
        have ha₃ : Asked history user (h₂ ++ [⟨.aborted ctx.cancel, b⟩]) :=
          ha₂.of_requests (by simp)
        have ht₃ : ToolEvents (events (h₂ ++ [⟨.aborted ctx.cancel, b⟩])) := by simpa using ht₂
        cases b with
        | true => exact cancelled_holds ctx usage toolTraces ha₃ ht₃ (by simp)
        | false =>
          refine .next ha₃ fun _ => ?_
          exact .pure (ha₃.of_requests (by simp))
            ⟨⟨events h₂, ht₂, by simp [ChatResult.outcome]⟩, by simpa using hc₂⟩
      | ok reply =>
        obtain ⟨content, hraw⟩ := hr.raw reply rfl
        dsimp only
        split
        · refine .next ha₂ fun _ => ?_
          exact .pure (ha₂.of_requests (by simp))
            ⟨⟨events h₂, ht₂, by simp [ChatResult.outcome]⟩, by simpa using hc₂⟩
        · rename_i hcalls
          refine .bind ((dispatchToolCalls_holds ctx serde reply.toolCalls _ toolTraces ha₂ ht₂
            hc₂).mono fun e h₃ he => ?_)
          obtain ⟨hr₃, ht₃, hend⟩ := he
          have ha₃ := ha₂.of_requests hr₃
          cases e with
          | cut toolTraces' => exact cancelled_holds ctx _ toolTraces' ha₃ ht₃ hend
          | done messages' toolTraces' =>
            obtain ⟨hc₃, replies, hreplies, rfl⟩ := hend
            refine ih _ _ _ ha₃ ht₃ hc₃ ?_ ?_
            · rw [hraw, if_neg hcalls, List.append_assoc]
              exact hm.group ⟨content, _, replies, by simpa using hcalls, rfl, hreplies⟩
            · rw [hr₃, hr.requests]
              simp
              omega

theorem runAgent_holds :
    (runAgent serde ctx history user).Holds (Asked history user) Ended [] := by
  have ha : Asked history user [] := ⟨by simp, by simp⟩
  refine .bind ((buildSystemPrompt_holds ctx ha).mono fun system h₁ hs => ?_)
  obtain ⟨hr, hc, es, rfl, he⟩ := hs
  refine agentLoop_holds ctx serde MAX_STEPS _ _ _ (ha.of_requests hr) ?_ ?_ ?_ ?_
  · rw [he]
    exact .nil
  · rw [hc]
    simp
  · exact ⟨system, [], by simp, by simp⟩
  · rw [hr]
    simp

end Parts

/-- Over every run of a chat turn, whatever the model and the tools answer and whenever it is
cancelled: each transcript sent is well formed, at most eight are sent, and the events of a
turn that has ended are paired tool events followed by its one outcome. -/
theorem runAgent_transcript (serde : SerdeJson) (ctx : AgentCtx) {history : List Message}
    (user : Text) (hh : WellFormed history) {h : History} {p : Task ChatResult}
    (hrun : (runAgent serde ctx history user).Steps h p) :
    (∀ ms ∈ requests h, Sendable history user ms ∧ WellFormed ms) ∧ (requests h).length ≤ 8 ∧
      ∀ r, p = .ret r → ∃ tools, ToolEvents tools ∧ events h = tools ++ r.outcome := by
  have hholds : (runAgent serde ctx history user).Holds (Asked history user) Ended [] :=
    runAgent_holds ctx serde
  have ha := hholds.invariant hrun
  refine ⟨fun ms hms => ?_, ha.count, ?_⟩
  · have hs := ha.sendable ms hms
    exact ⟨hs, hs.wellFormed hh⟩
  · rintro r rfl
    exact (hholds.result hrun).events

def sampleCtx (cancel : Nat) : AgentCtx := ⟨['t'], [], [], none, 10, cancel⟩

def sampleSerde : SerdeJson := ⟨parseJson some, Json.print⟩

/-- A model that answers in prose at once, on a bus that is down. -/
def prose : (a : Action) → Answer a
  | .register _ => (0 : Nat)
  | .deregister _ => ()
  | .aborted _ => false
  | .emit _ _ => ()
  | .request _ _ => Except.error []
  | .chatCompletion _ => Except.ok ⟨[⟨some ['d'], none⟩], none⟩

def searchCall (id : Char) : ToolCall :=
  ⟨[id], "function".toList, "oos_schema_search".toList, "\x7b\"query\":\"q\"\x7d".toList⟩

/-- A model that asks for one search and then for two more, and a cancel between these two. -/
def searching (n : Nat) : (a : Action) → Answer a
  | .chatCompletion _ =>
    let calls := if n = 3 then [searchCall 'x'] else [searchCall 'y', searchCall 'z']
    Except.ok ⟨[⟨none, some calls⟩], none⟩
  | .aborted _ => (decide (14 ≤ n) : Bool)
  | a => prose a

theorem runAgent_transcript_searching :
    let history := [.user ['a'], .assistant (some ['b']) none]
    let run := (runAgent sampleSerde (sampleCtx 0) history ['c']).answered searching
    ((requests run.1).length = 2 ∧ (events run.1).length = 6 ∧ run.2.trace.status = .cancelled) ∧
      (∀ ms ∈ requests run.1, Sendable history ['c'] ms ∧ WellFormed ms) ∧
      ∃ tools, ToolEvents tools ∧ events run.1 = tools ++ run.2.outcome := by
  have hh : WellFormed [.user ['a'], .assistant (some ['b']) none] :=
    .plain trivial (.plain rfl .nil)
  have hshape := runAgent_transcript sampleSerde (sampleCtx 0) ['c'] hh
    (Process.steps_answered searching _)
  exact ⟨by decide +kernel, hshape.1, hshape.2.2 _ rfl⟩

end Onisin.Agent
