import Mathlib.Logic.Function.Basic
import Onisin.Ui.ChatEvents

/-!
How the chats of a client are kept. The record of a turn and the row of its chat are both written
when the turn is over, from what the hook holds then: the record names the chat that is active at
that moment, and the row is saved behind the render that shows no turn under way any more.
-/

set_option autoImplicit false

namespace Onisin.Ui
open Lib

structure TurnRecord where
  turn : Turn
  chatId : Option Text
  userText : Text
  finalText : Text
  deriving DecidableEq, Repr

/-- A turn that is over, with the text that it left in its bubble. -/
structure Settled where
  sending : Sending
  text : Text
  deriving DecidableEq, Repr

structure Hook where
  client : Client := {}
  /-- The reference to the active chat. -/
  chatId : Option Text := none
  /-- The messages of the last render. -/
  shown : List ChatMessage := []
  /-- The auto-save effect of the last render is still to run. -/
  effect : Bool := false
  rows : Text → Option (List ChatMessage)
  /-- Rows that were read and are not shown yet. -/
  loads : List (Text × List ChatMessage) := []
  turns : List TurnRecord := []
  -- history: the chat that each turn was sent in, and the turns that are over
  sentIn : List Text := []
  settled : List Settled := []

/-- `newId` is the id that is minted if no chat is active. -/
def Hook.send (h : Hook) (now : Nat) (newId text : Text) (mode : Mode) : Hook :=
  if h.client.blocked text then h
  else
    let id := h.chatId.getD newId
    { h with
      client := h.client.send 0 now text mode
      chatId := some id
      sentIn := h.sentIn ++ [id] }

def Reply.finalText (r : Reply) : Text :=
  match r.failure with
  | some e => fehler e
  | none => r.text

/-- What is recorded of a turn: nothing of one over events, and of an asked one only its reply. -/
def Outcome.records (s : Sending) (chatId : Option Text) : Outcome → List TurnRecord
  | .resolved r => if s.mode = .event then [] else [⟨s.turn, chatId, s.question, r.finalText⟩]
  | .thrown message => if s.mode = .chat then [⟨s.turn, chatId, s.question, fehler message⟩] else []

def Hook.settle (h : Hook) (i : Nat) (askToTab : Bool) (outcome : Outcome) : Hook :=
  match h.client.sending[i]? with
  | none => h
  | some s =>
    { h with
      client := h.client.settle i askToTab outcome
      turns := h.turns ++ outcome.records s h.chatId
      settled := h.settled ++ ((outcome.text s askToTab).map fun text => ⟨s, text⟩).toList }

/-- The auto-save: the messages of the last render, under the chat that is active now. -/
def Hook.autoSave (h : Hook) : Hook :=
  if h.client.rendered then h
  else
    match h.chatId with
    | none => h
    | some id =>
      if h.shown.isEmpty then h else { h with rows := Function.update h.rows id (some h.shown) }

def Hook.runEffect (h : Hook) : Hook :=
  if h.effect then { h.autoSave with effect := false } else h

/-- A render runs an effect that is still open, and leaves one if `busy` has changed. -/
def Hook.render (h : Hook) : Hook :=
  let h' := h.runEffect
  { h' with
    client := { h'.client with rendered := h'.client.busy }
    shown := h'.client.messages
    effect := h'.client.busy != h'.client.rendered }

def Hook.newChat (h : Hook) : Hook :=
  { h with client := { h.client with messages := [] }, chatId := none }

def Hook.loadChat (h : Hook) (id : Text) : Hook :=
  match h.rows id with
  | none => h
  | some messages => { h with loads := h.loads ++ [(id, messages)] }

/-- A row that was read takes the place of what is shown. -/
def Hook.loaded (h : Hook) (i : Nat) : Hook :=
  match h.loads[i]? with
  | none => h
  | some (id, messages) =>
    { h with
      client := { h.client with messages := messages }
      chatId := some id
      loads := h.loads.eraseIdx i }

inductive HookAct where
  | send (now : Nat) (newId text : Text) (mode : Mode)
  | event (p : Published)
  | settle (i : Nat) (askToTab : Bool) (outcome : Outcome)
  | render
  | effect
  | newChat
  | loadChat (id : Text)
  | loaded (i : Nat)

def Hook.step (h : Hook) : HookAct → Hook
  | .send now newId text mode => h.send now newId text mode
  | .event p => { h with client := onAgentEvent h.client p }
  | .settle i askToTab outcome => h.settle i askToTab outcome
  | .render => h.render
  | .effect => h.runEffect
  | .newChat => h.newChat
  | .loadChat id => h.loadChat id
  | .loaded i => h.loaded i

def Hook.start (rows : Text → Option (List ChatMessage)) : Hook := { rows }

/-! What is to be kept of a turn. -/

/-- The chat that a turn was sent in. -/
def Hook.chatOf (h : Hook) (turn : Turn) : Option Text := h.sentIn[turn.serial]?

/-- The messages hold the question of the turn and its bubble. -/
def Asked (messages : List ChatMessage) (s : Sending) : Prop :=
  ∃ now, s.placeholderId = placeholderId now ∧
    (∃ m ∈ messages, m.id = userId now ∧ m.assistant = false ∧ m.text = s.question) ∧
      ∃ m ∈ messages, m.id = s.placeholderId

/-- The messages hold the question of the turn and the text it was answered with. -/
def Answered (messages : List ChatMessage) (d : Settled) : Prop :=
  Asked messages d.sending ∧ ∀ m ∈ messages, m.id = d.sending.placeholderId → m.text = d.text

/-- A turn has settled and the auto-save behind it has not run yet. -/
def Hook.SavePending (h : Hook) : Prop :=
  (h.client.busy = false ∧ h.client.rendered = true) ∨ (h.effect = true ∧ h.client.rendered = false)

/-- No turn is under way, and the last one is saved. -/
def Hook.AtRest (h : Hook) : Prop := h.client.sending = [] ∧ ¬h.SavePending

structure Hook.TurnsKept (h : Hook) : Prop where
  record : ∀ r ∈ h.turns, ∃ chat, h.chatOf r.turn = some chat ∧ r.chatId = some chat
  row : ¬h.SavePending → ∀ d ∈ h.settled, ∃ chat messages,
    h.chatOf d.sending.turn = some chat ∧ h.rows chat = some messages ∧ Answered messages d

/-- The condition on a step, in the state in which it is taken. -/
def Hook.Steady (h : Hook) : HookAct → Prop
  | .send now newId text _ => h.client.blocked text = false →
      (∀ m ∈ h.client.messages, m.id ≠ placeholderId now) ∧ (h.chatId = none → h.rows newId = none)
  | .settle i askToTab outcome => ∀ s, h.client.sending[i]? = some s →
      h.client.rendered = true ∧ (outcome.text s askToTab).isSome
  | .newChat => h.AtRest
  | .loaded i => ∀ row, h.loads[i]? = some row → h.AtRest ∧
      ∀ d ∈ h.settled, h.chatOf d.sending.turn = some row.1 → Answered row.2 d
  | _ => True

/-- What every turn is promised: while it runs its chat is the active one, and behind it its
messages are in the row or on their way there. -/
structure Hook.Inv (h : Hook) : Prop where
  serial : h.sentIn.length = h.client.serial
  idle : h.client.sending = [] → h.client.busy = false
  distinct : (h.client.sending.map Sending.placeholderId).Nodup
  pending : ∀ id, h.client.pendingId = some id → ∃ f ∈ h.client.sending, f.placeholderId = id
  record : ∀ r ∈ h.turns, ∃ chat, h.chatOf r.turn = some chat ∧ r.chatId = some chat
  flight : ∀ f ∈ h.client.sending, ∃ chat, h.chatId = some chat ∧ h.chatOf f.turn = some chat ∧
    Asked h.client.messages f
  chat : ∀ d ∈ h.settled, ∃ chat, h.chatOf d.sending.turn = some chat
  active : ∀ d ∈ h.settled, h.chatId.isSome → h.chatOf d.sending.turn = h.chatId →
    Answered h.client.messages d ∧ ∀ f ∈ h.client.sending, f.placeholderId ≠ d.sending.placeholderId
  unsaved : h.effect = true → h.client.rendered = false → ∀ d ∈ h.settled, h.chatId.isSome →
    h.chatOf d.sending.turn = h.chatId → Answered h.shown d
  kept : ∀ d ∈ h.settled, (h.SavePending ∧ h.chatId.isSome ∧ h.chatOf d.sending.turn = h.chatId) ∨
    ∃ chat messages, h.chatOf d.sending.turn = some chat ∧ h.rows chat = some messages ∧
      Answered messages d

section Messages
variable {messages : List ChatMessage} {s : Sending} {d : Settled} {text : Text} {source : Turn}

/-- A patch of a bubble leaves the questions alone. -/
theorem Asked.patch (h : Asked messages s) (n : Nat) :
    Asked (patchAssistant messages (placeholderId n) text source) s := by
  obtain ⟨now, hid, ⟨q, hq, hqid, hquser, hqtext⟩, b, hb, hbid⟩ := h
  refine ⟨now, hid, ⟨q, ?_, hqid, hquser, hqtext⟩, ?_⟩
  · refine List.mem_map.mpr ⟨q, hq, if_neg ?_⟩
    rw [hqid]
    exact userId_ne_placeholderId now n
  · refine ⟨_, List.mem_map_of_mem hb, ?_⟩
    split <;> exact hbid

theorem Asked.append (h : Asked messages s) (new : List ChatMessage) : Asked (messages ++ new) s := by
  obtain ⟨now, hid, ⟨q, hq, hquestion⟩, b, hb, hbid⟩ := h
  exact ⟨now, hid, ⟨q, List.mem_append_left _ hq, hquestion⟩, b, List.mem_append_left _ hb, hbid⟩

/-- The text of a turn is in its bubble once it is patched there. -/
theorem Asked.answer (h : Asked messages s) :
    Answered (patchAssistant messages s.placeholderId text source) ⟨s, text⟩ := by
  obtain ⟨now, hid, -⟩ := id h
  refine ⟨hid ▸ h.patch now, fun m hm hmid => ?_⟩
  obtain ⟨m', hm', rfl⟩ := List.mem_map.mp hm
  split at hmid
  · rename_i hpatched
    rw [if_pos hpatched]
  · rename_i hother
    exact absurd hmid hother

theorem Answered.patch (h : Answered messages d) {n : Nat}
    (hne : placeholderId n ≠ d.sending.placeholderId) :
    Answered (patchAssistant messages (placeholderId n) text source) d := by
  refine ⟨h.1.patch n, fun m hm hmid => ?_⟩
  obtain ⟨m', hm', rfl⟩ := List.mem_map.mp hm
  split at hmid
  · rename_i hpatched
    exact absurd (hpatched.symm.trans hmid) hne
  · rename_i hother
    rw [if_neg hother]
    exact h.2 m' hm' hmid

theorem Answered.append (h : Answered messages d) {new : List ChatMessage}
    (hne : ∀ m ∈ new, m.id ≠ d.sending.placeholderId) : Answered (messages ++ new) d := by
  refine ⟨h.1.append new, fun m hm hmid => ?_⟩
  rcases List.mem_append.mp hm with hm | hm
  · exact h.2 m hm hmid
  · exact absurd hmid (hne m hm)

end Messages

variable {h : Hook}

theorem Hook.Inv.turnsKept (hi : h.Inv) : h.TurnsKept := by
  refine ⟨hi.record, fun hsaved d hd => ?_⟩
  rcases hi.kept d hd with ⟨hpending, -⟩ | hrow
  · exact absurd hpending hsaved
  · exact hrow

theorem inv_start (rows : Text → Option (List ChatMessage)) : (Hook.start rows).Inv := by
  constructor <;> simp [Hook.start]

/-- A turn whose row is not outstanding has one. -/
theorem Hook.Inv.row (hi : h.Inv) {d : Settled} (hd : d ∈ h.settled)
    (hsaved : h.chatId = none ∨ ¬h.SavePending) :
    ∃ chat messages, h.chatOf d.sending.turn = some chat ∧ h.rows chat = some messages ∧
      Answered messages d := by
  rcases hi.kept d hd with ⟨hpending, hsome, -⟩ | hrow
  · rcases hsaved with hnone | hsaved
    · simp [hnone] at hsome
    · exact absurd hpending hsaved
  · exact hrow

/-! Sending. -/

theorem chatOf_append {sentIn : List Text} {turn : Turn} {chat id : Text}
    (h : sentIn[turn.serial]? = some chat) : (sentIn ++ [id])[turn.serial]? = some chat := by
  obtain ⟨hlt, -⟩ := List.getElem?_eq_some_iff.mp h
  rw [List.getElem?_append_left hlt]
  exact h

theorem inv_send (hi : h.Inv) {now : Nat} {newId text : Text} {mode : Mode}
    (hok : h.Steady (.send now newId text mode)) : (h.send now newId text mode).Inv := by
  unfold Hook.send
  split
  · exact hi
  rename_i hgo
  obtain ⟨hfresh, hmint⟩ := hok (by simpa using hgo)
  have hrendered : h.client.rendered = false := by
    simp only [Client.blocked, Bool.or_eq_true, not_or, Bool.not_eq_true] at hgo
    exact hgo.2
  let id := h.chatId.getD newId
  let placeholder : ChatMessage := ⟨placeholderId now, true, "…".toList, some ⟨0, h.client.serial⟩, []⟩
  let question : ChatMessage := ⟨userId now, false, text.jsTrim, none, []⟩
  let f : Sending := ⟨⟨0, h.client.serial⟩, placeholderId now, mode, text.jsTrim⟩
  have hclient : h.client.send 0 now text mode =
      { h.client with
        pendingId := some (placeholderId now)
        messages := h.client.messages ++ [question, placeholder]
        busy := true
        sending := h.client.sending ++ [f]
        serial := h.client.serial + 1 } := by
    unfold Client.send
    exact if_neg hgo
  rw [hclient]
  -- a turn that is over and was sent in the chat that is active now was sent in it before
  have hsame : ∀ d ∈ h.settled, (h.sentIn ++ [id])[d.sending.turn.serial]? = some id →
      h.chatId.isSome ∧ h.chatOf d.sending.turn = h.chatId := by
    intro d hd hchat
    obtain ⟨chat, hold⟩ := hi.chat d hd
    rw [chatOf_append hold] at hchat
    obtain rfl : chat = id := Option.some.inj hchat
    cases hactive : h.chatId with
    | some c =>
      have hid : id = c := by simp [id, hactive]
      exact ⟨rfl, hid ▸ hold⟩
    | none =>
      obtain ⟨chat', messages, hchat', hrow, -⟩ := hi.row hd (.inl hactive)
      have hid : id = newId := by simp [id, hactive]
      rw [hold, hid] at hchat'
      rw [← Option.some.inj hchat', hmint hactive] at hrow
      cases hrow
  have hother : ∀ d : Settled, Asked h.client.messages d.sending →
      placeholderId now ≠ d.sending.placeholderId := by
    intro d hasked hid
    obtain ⟨n, -, -, b, hb, hbid⟩ := hasked
    exact hfresh b hb (hbid.trans hid.symm)
  have hasked : Asked (h.client.messages ++ [question, placeholder]) f :=
    ⟨now, rfl, ⟨question, by simp, rfl, rfl, rfl⟩, placeholder, by simp, rfl⟩
  constructor
  case serial => simp [hi.serial]
  case idle => simp
  case distinct =>
    rw [List.map_append, List.map_singleton]
    refine List.nodup_append'.mpr ⟨hi.distinct, List.nodup_singleton _, ?_⟩
    intro x hx hnew
    obtain ⟨g, hg, rfl⟩ := List.mem_map.mp hx
    obtain ⟨-, -, -, hg'⟩ := hi.flight g hg
    exact hother ⟨g, []⟩ hg' (List.mem_singleton.mp hnew).symm
  case pending =>
    rintro x hx
    exact ⟨f, by simp, Option.some.inj hx⟩
  case record =>
    intro r hr
    obtain ⟨chat, hchat, hid⟩ := hi.record r hr
    exact ⟨chat, chatOf_append hchat, hid⟩
  case flight =>
    intro g hg
    rcases List.mem_append.mp hg with hg | hg
    · obtain ⟨chat, hactive, hchat, hg'⟩ := hi.flight g hg
      exact ⟨chat, by simp [hactive], chatOf_append hchat, hg'.append _⟩
    · rw [List.mem_singleton.mp hg]
      exact ⟨id, rfl, by simp [Hook.chatOf, f, ← hi.serial, id], hasked⟩
  case chat =>
    intro d hd
    obtain ⟨chat, hchat⟩ := hi.chat d hd
    exact ⟨chat, chatOf_append hchat⟩
  case active =>
    intro d hd _ hchat
    obtain ⟨hsome, hold⟩ := hsame d hd hchat
    obtain ⟨hanswered, hne⟩ := hi.active d hd hsome hold
    have hnew := hother d hanswered.1
    refine ⟨hanswered.append fun m hm => ?_, fun g hg => ?_⟩
    · rcases List.mem_cons.mp hm with rfl | hm
      · obtain ⟨n, hid, -⟩ := hanswered.1
        exact hid ▸ userId_ne_placeholderId now n
      · rw [List.mem_singleton.mp hm]
        exact hnew
    · rcases List.mem_append.mp hg with hg | hg
      · exact hne g hg
      · rw [List.mem_singleton.mp hg]
        exact hnew
  case unsaved =>
    intro heffect _ d hd _ hchat
    obtain ⟨hsome, hold⟩ := hsame d hd hchat
    exact hi.unsaved heffect hrendered d hd hsome hold
  case kept =>
    intro d hd
    rcases hi.kept d hd with ⟨hpending, hsome, hchat⟩ | ⟨chat, messages, hchat, hrow⟩
    · obtain ⟨c, hactive⟩ := Option.isSome_iff_exists.mp hsome
      have hid : id = c := by simp [id, hactive]
      refine .inl ⟨?_, rfl, ?_⟩
      · rcases hpending with ⟨-, hshown⟩ | heffect
        · rw [hrendered] at hshown
          cases hshown
        · exact .inr heffect
      · show (h.sentIn ++ [id])[d.sending.turn.serial]? = some id
        rw [hid]
        exact chatOf_append (hchat.trans hactive)
    · exact .inr ⟨chat, messages, chatOf_append hchat, hrow⟩

/-! Events, and the end of a turn. -/

theorem fillPending_eq (cl : Client) (text : Text) (source : Turn) :
    cl.fillPending text source = cl ∨ ∃ id, cl.pendingId = some id ∧
      cl.fillPending text source = { cl with messages := patchAssistant cl.messages id text source } := by
  unfold Client.fillPending
  cases hpending : cl.pendingId with
  | none => exact .inl rfl
  | some id => exact .inr ⟨id, rfl, rfl⟩

/-- An event opens a tab, fills the bubble that is pending, or does nothing. -/
theorem onAgentEvent_cases (cl : Client) (p : Published) :
    (∃ tabs, onAgentEvent cl p = { cl with tabs := tabs }) ∨ ∃ id text, cl.pendingId = some id ∧
      onAgentEvent cl p = { cl with messages := patchAssistant cl.messages id text p.turn } := by
  have hfill : ∀ text, (∃ tabs, cl.fillPending text p.turn = { cl with tabs := tabs }) ∨
      ∃ id text', cl.pendingId = some id ∧ cl.fillPending text p.turn =
        { cl with messages := patchAssistant cl.messages id text' p.turn } := by
    intro text
    rcases fillPending_eq cl text p.turn with hsame | ⟨id, hid, hfilled⟩
    · exact .inl ⟨cl.tabs, hsame⟩
    · exact .inr ⟨id, text, hid, hfilled⟩
  unfold onAgentEvent
  split
  · exact .inl ⟨_, rfl⟩
  · exact hfill _
  · exact hfill _
  all_goals exact .inl ⟨cl.tabs, rfl⟩

theorem inv_event (hi : h.Inv) (p : Published) : ({ h with client := onAgentEvent h.client p } : Hook).Inv := by
  rcases onAgentEvent_cases h.client p with ⟨tabs, htabs⟩ | ⟨id, text, hpending, hfilled⟩
  · rw [htabs]
    exact ⟨hi.serial, hi.idle, hi.distinct, hi.pending, hi.record, hi.flight, hi.chat, hi.active,
      hi.unsaved, hi.kept⟩
  · rw [hfilled]
    obtain ⟨f, hf, hid⟩ := hi.pending id hpending
    obtain ⟨-, -, -, now, hnow, -⟩ := hi.flight f hf
    obtain rfl : placeholderId now = id := hnow.symm.trans hid
    refine ⟨hi.serial, hi.idle, hi.distinct, hi.pending, hi.record, ?_, hi.chat, ?_, hi.unsaved, hi.kept⟩
    · intro g hg
      obtain ⟨chat, hactive, hchat, hasked⟩ := hi.flight g hg
      exact ⟨chat, hactive, hchat, hasked.patch now⟩
    · intro d hd hsome hchat
      obtain ⟨hanswered, hne⟩ := hi.active d hd hsome hchat
      exact ⟨hanswered.patch (hid ▸ hne f hf), hne⟩

theorem mem_records {s : Sending} {chatId : Option Text} {outcome : Outcome} {r : TurnRecord}
    (h : r ∈ outcome.records s chatId) : r.turn = s.turn ∧ r.chatId = chatId := by
  unfold Outcome.records at h
  split at h
  · split at h
    · cases h
    · rw [List.mem_singleton.mp h]
      exact ⟨rfl, rfl⟩
  · split at h
    · rw [List.mem_singleton.mp h]
      exact ⟨rfl, rfl⟩
    · cases h

/-- The record of a chat turn has the text that the turn left in its bubble. -/
theorem records_text {s : Sending} {chatId : Option Text} {outcome : Outcome} {askToTab : Bool}
    {text : Text} (hchat : s.mode = .chat) (htext : outcome.text s askToTab = some text) :
    outcome.records s chatId = [⟨s.turn, chatId, s.question, text⟩] := by
  cases outcome with
  | thrown message =>
    simp only [Outcome.text, Option.some.injEq] at htext
    simp [Outcome.records, hchat, htext]
  | resolved r =>
    simp only [Outcome.text, replyText, hchat] at htext
    simp only [Outcome.records, hchat, Reply.finalText]
    cases hfailure : r.failure with
    | some e => simp_all
    | none =>
      simp only [hfailure] at htext
      split at htext
      · cases htext
      · simp_all

theorem inv_settle (hi : h.Inv) {i : Nat} {askToTab : Bool} {outcome : Outcome} {f : Sending}
    (hf : h.client.sending[i]? = some f) (hrendered : h.client.rendered = true) {text : Text}
    (htext : outcome.text f askToTab = some text) : (h.settle i askToTab outcome).Inv := by
  have hmem : f ∈ h.client.sending := List.mem_of_getElem? hf
  have hclient : h.client.settle i askToTab outcome =
      { h.client with
        messages := patchAssistant h.client.messages f.placeholderId text f.turn
        tabs := h.client.tabs ++ outcome.tabs f askToTab
        pendingId := none
        busy := false
        sending := h.client.sending.eraseIdx i } := by
    simp only [Client.settle, hf, htext, Client.fillPlaceholder]
  have hsettle : h.settle i askToTab outcome =
      { h with
        client := h.client.settle i askToTab outcome
        turns := h.turns ++ outcome.records f h.chatId
        settled := h.settled ++ [⟨f, text⟩] } := by
    simp only [Hook.settle, hf, htext, Option.map_some, Option.toList_some]
  rw [hsettle, hclient]
  obtain ⟨chat, hactive, hchat, hasked⟩ := hi.flight f hmem
  obtain ⟨now, hnow, -⟩ := id hasked
  have hrest : ∀ g ∈ h.client.sending.eraseIdx i, g ∈ h.client.sending ∧ g.placeholderId ≠ f.placeholderId := by
    intro g hg
    obtain ⟨j, hne, hj⟩ := List.mem_eraseIdx_iff_getElem?.mp hg
    refine ⟨List.mem_of_getElem? hj, fun hsame => hne ?_⟩
    have hlt : j < (h.client.sending.map Sending.placeholderId).length := by
      rw [List.length_map]
      exact (List.getElem?_eq_some_iff.mp hj).1
    refine (List.getElem?_inj hlt hi.distinct).mp ?_
    simp [hj, hf, hsame]
  have hpatch : ∀ d ∈ h.settled, h.chatId.isSome → h.chatOf d.sending.turn = h.chatId →
      Answered (patchAssistant h.client.messages f.placeholderId text f.turn) d := by
    intro d hd hsome hsame
    obtain ⟨hanswered, hne⟩ := hi.active d hd hsome hsame
    rw [hnow]
    exact hanswered.patch (hnow ▸ hne f hmem)
  constructor
  case serial => exact hi.serial
  case idle => exact fun _ => rfl
  case distinct =>
    exact hi.distinct.sublist ((List.eraseIdx_sublist _ _).map _)
  case pending =>
    rintro x hx
    cases hx
  case record =>
    intro r hr
    rcases List.mem_append.mp hr with hr | hr
    · exact hi.record r hr
    · obtain ⟨hturn, hid⟩ := mem_records hr
      exact ⟨chat, hturn ▸ hchat, hid.trans hactive⟩
  case flight =>
    intro g hg
    obtain ⟨chat', hactive', hchat', hasked'⟩ := hi.flight g (hrest g hg).1
    exact ⟨chat', hactive', hchat', hnow ▸ hasked'.patch now⟩
  case chat =>
    intro d hd
    rcases List.mem_append.mp hd with hd | hd
    · exact hi.chat d hd
    · rw [List.mem_singleton.mp hd]
      exact ⟨chat, hchat⟩
  case active =>
    intro d hd hsome hsame
    rcases List.mem_append.mp hd with hd | hd
    · exact ⟨hpatch d hd hsome hsame, fun g hg => (hi.active d hd hsome hsame).2 g (hrest g hg).1⟩
    · rw [List.mem_singleton.mp hd]
      exact ⟨hasked.answer, fun g hg => (hrest g hg).2⟩
  case unsaved =>
    intro _ hshown
    exact absurd (hrendered.symm.trans hshown) (by decide)
  case kept =>
    intro d hd
    rcases List.mem_append.mp hd with hd | hd
    · rcases hi.kept d hd with ⟨-, hsome, hsame⟩ | hrow
      · exact .inl ⟨.inl ⟨rfl, hrendered⟩, hsome, hsame⟩
      · exact .inr hrow
    · rw [List.mem_singleton.mp hd]
      exact .inl ⟨.inl ⟨rfl, hrendered⟩, by simp [hactive], hchat.trans hactive.symm⟩

/-! Rendering and saving. -/

theorem Answered.ne_nil {messages : List ChatMessage} {d : Settled} (h : Answered messages d) :
    messages ≠ [] := by
  obtain ⟨⟨-, -, -, b, hb, -⟩, -⟩ := h
  exact List.ne_nil_of_mem hb

/-- No save is outstanding any more once every turn that is over has its row. -/
theorem inv_saved (hi : h.Inv) (rows : Text → Option (List ChatMessage))
    (hrows : ∀ d ∈ h.settled, ∃ chat messages, h.chatOf d.sending.turn = some chat ∧
      rows chat = some messages ∧ Answered messages d) :
    ({ h with rows := rows, effect := false } : Hook).Inv :=
  ⟨hi.serial, hi.idle, hi.distinct, hi.pending, hi.record, hi.flight, hi.chat, hi.active,
    fun heffect => absurd heffect Bool.false_ne_true, fun d hd => .inr (hrows d hd)⟩

/-- The effect saves every turn whose save was outstanding because of it. -/
theorem inv_runEffect (hi : h.Inv) : h.runEffect.Inv := by
  unfold Hook.runEffect
  split
  swap
  · exact hi
  rename_i heffect
  unfold Hook.autoSave
  cases hrendered : h.client.rendered with
  | true =>
    refine ⟨hi.serial, hi.idle, hi.distinct, hi.pending, hi.record, hi.flight, hi.chat, hi.active,
      fun heffect => absurd heffect Bool.false_ne_true, fun d hd => ?_⟩
    rcases hi.kept d hd with ⟨hpending | ⟨-, hshown⟩, hsent⟩ | hrow
    · exact .inl ⟨.inl hpending, hsent⟩
    · exact absurd (hrendered.symm.trans hshown) (by decide)
    · exact .inr hrow
  | false =>
    simp only [Bool.false_eq_true, if_false]
    cases hactive : h.chatId with
    | none => exact inv_saved hi h.rows fun d hd => hi.row hd (.inl hactive)
    | some id =>
      have hshown : ∀ d ∈ h.settled, h.chatOf d.sending.turn = some id → Answered h.shown d :=
        fun d hd hsame => hi.unsaved heffect hrendered d hd (by simp [hactive]) (hsame.trans hactive.symm)
      have hother : ∀ d ∈ h.settled, h.chatOf d.sending.turn ≠ some id → ∃ chat messages,
          h.chatOf d.sending.turn = some chat ∧ h.rows chat = some messages ∧ Answered messages d := by
        intro d hd hne
        rcases hi.kept d hd with ⟨-, -, hsame⟩ | hrow
        · exact absurd (hsame.trans hactive) hne
        · exact hrow
      dsimp only
      split
      · rename_i hempty
        refine inv_saved hi h.rows fun d hd => hother d hd fun hsame => ?_
        exact (hshown d hd hsame).ne_nil (List.isEmpty_iff.mp hempty)
      · have hsaved := inv_saved hi (Function.update h.rows id (some h.shown)) fun d hd => by
          by_cases hsame : h.chatOf d.sending.turn = some id
          · exact ⟨id, h.shown, hsame, Function.update_self .., hshown d hd hsame⟩
          · obtain ⟨chat, messages, hchat, hrow, hanswered⟩ := hother d hd hsame
            have hne : chat ≠ id := by
              rintro rfl
              exact hsame hchat
            exact ⟨chat, messages, hchat, (Function.update_of_ne hne ..).trans hrow, hanswered⟩
        simpa only [hactive] using hsaved

theorem runEffect_effect (h : Hook) : h.runEffect.effect = false := by
  unfold Hook.runEffect
  split
  · rfl
  · rename_i heffect
    simpa using heffect

/-- What a render shows has every turn of the active chat that is over. -/
theorem inv_commit (hi : h.Inv) (heffect : h.effect = false) :
    ({ h with
      client := { h.client with rendered := h.client.busy }
      shown := h.client.messages
      effect := h.client.busy != h.client.rendered } : Hook).Inv := by
  refine ⟨hi.serial, hi.idle, hi.distinct, hi.pending, hi.record, hi.flight, hi.chat, hi.active,
    fun _ _ d hd hsome hsame => (hi.active d hd hsome hsame).1, fun d hd => ?_⟩
  rcases hi.kept d hd with ⟨⟨hbusy, hrendered⟩ | ⟨hpending, -⟩, hsent⟩ | hrow
  · exact .inl ⟨.inr ⟨by simp [hbusy, hrendered], hbusy⟩, hsent⟩
  · exact absurd (heffect.symm.trans hpending) Bool.false_ne_true
  · exact .inr hrow

theorem inv_render (hi : h.Inv) : h.render.Inv :=
  inv_commit (inv_runEffect hi) (runEffect_effect h)

/-! Switching chats. -/

theorem Hook.AtRest.effect (hrest : h.AtRest) (hi : h.Inv) :
    h.client.rendered = false ∧ h.effect = false := by
  have hbusy := hi.idle hrest.1
  have hrendered : h.client.rendered = false := by
    cases hr : h.client.rendered with
    | false => rfl
    | true => exact absurd (.inl ⟨hbusy, hr⟩) hrest.2
  refine ⟨hrendered, ?_⟩
  cases he : h.effect with
  | false => rfl
  | true => exact absurd (.inr ⟨he, hrendered⟩) hrest.2

/-- At rest the chat can be left for another whose messages have its turns. -/
theorem inv_switch (hi : h.Inv) (hrest : h.AtRest) (chatId : Option Text) (messages : List ChatMessage)
    (loads : List (Text × List ChatMessage))
    (hmessages : ∀ d ∈ h.settled, chatId.isSome → h.chatOf d.sending.turn = chatId → Answered messages d) :
    ({ h with client := { h.client with messages := messages }, chatId := chatId, loads := loads } : Hook).Inv := by
  obtain ⟨hidle, hsaved⟩ := id hrest
  have heffect := (hrest.effect hi).2
  refine ⟨hi.serial, hi.idle, hi.distinct, hi.pending, hi.record, ?_, hi.chat, ?_, ?_, ?_⟩
  · intro f hf
    replace hf : f ∈ h.client.sending := hf
    simp [hidle] at hf
  · intro d hd hsome hsame
    refine ⟨hmessages d hd hsome hsame, fun f hf => ?_⟩
    replace hf : f ∈ h.client.sending := hf
    simp [hidle] at hf
  · exact fun hpending => absurd (heffect.symm.trans hpending) Bool.false_ne_true
  · exact fun d hd => .inr (hi.row hd (.inr hsaved))

theorem inv_loaded (hi : h.Inv) {i : Nat} (hok : h.Steady (.loaded i)) : (h.loaded i).Inv := by
  unfold Hook.loaded
  split
  · exact hi
  · rename_i id messages hrow
    obtain ⟨hrest, hhas⟩ := hok _ hrow
    exact inv_switch hi hrest _ _ _ fun d hd _ hsame => hhas d hd hsame

theorem inv_loadChat (hi : h.Inv) (id : Text) : (h.loadChat id).Inv := by
  unfold Hook.loadChat
  split
  · exact hi
  · exact ⟨hi.serial, hi.idle, hi.distinct, hi.pending, hi.record, hi.flight, hi.chat, hi.active,
      hi.unsaved, hi.kept⟩

theorem inv_hookStep (h : Hook) (a : HookAct) (hi : h.Inv) (hok : h.Steady a) : (h.step a).Inv := by
  cases a with
  | send now newId text mode => exact inv_send hi hok
  | event p => exact inv_event hi p
  | settle i askToTab outcome =>
    cases hf : h.client.sending[i]? with
    | none =>
      simp only [Hook.step, Hook.settle, hf]
      exact hi
    | some f =>
      obtain ⟨hrendered, hsome⟩ := hok f hf
      obtain ⟨text, htext⟩ := Option.isSome_iff_exists.mp hsome
      exact inv_settle hi hf hrendered htext
  | render => exact inv_render hi
  | effect => exact inv_runEffect hi
  | newChat => exact inv_switch hi hok none [] h.loads fun _ _ hsome => absurd hsome (by decide)
  | loadChat id => exact inv_loadChat hi id
  | loaded i => exact inv_loaded hi hok

/-- In every run that switches chats only at rest, a turn's record names the chat it was sent in,
and once the turn is over and the auto-save behind it has run, the row of that chat has its
question and its answer. -/
theorem turns_stay_in_chat (rows : Text → Option (List ChatMessage)) (acts : List HookAct)
    (hacts : Along Hook.step Hook.Steady (Hook.start rows) acts) :
    (run Hook.step (Hook.start rows) acts).TurnsKept :=
  (run_invariant inv_hookStep (inv_start rows) hacts).turnsKept

def reply42 : Outcome := .resolved ⟨['4', '2'], none, 0⟩

/-- A turn that is rendered, answered and saved before the chat is left. A second question, put
too early, is not sent. -/
def patientRun : List HookAct :=
  [.send 1 ['c'] ['q'] .chat, .render, .effect, .send 1 ['c'] ['r'] .chat, .settle 0 false reply42, .render,
    .effect, .newChat]

/-- A turn whose chat is left before it is answered. -/
def hastyRun : List HookAct :=
  [.send 1 ['c'] ['q'] .chat, .render, .effect, .newChat, .settle 0 false reply42, .render, .effect]

/-- A turn whose chat is left between the answer and the save. -/
def lateRun : List HookAct :=
  [.send 1 ['c'] ['q'] .chat, .render, .effect, .settle 0 false reply42, .render, .newChat, .effect]

theorem patientRun_kept : Along Hook.step Hook.Steady (Hook.start fun _ => none) patientRun ∧
    (run Hook.step (Hook.start fun _ => none) patientRun).TurnsKept := by
  have hsteady : Along Hook.step Hook.Steady (Hook.start fun _ => none) patientRun := by
    refine ⟨fun _ => ⟨fun m hm => absurd hm List.not_mem_nil, fun _ => rfl⟩, trivial, trivial,
      fun hgo => absurd hgo (by decide), ?_, trivial, trivial, ⟨rfl, ?_⟩, trivial⟩
    · intro s hs
      obtain rfl : ⟨⟨0, 0⟩, placeholderId 1, .chat, ['q']⟩ = s := Option.some.inj hs
      exact ⟨rfl, rfl⟩
    · rintro (⟨-, hrendered⟩ | ⟨heffect, -⟩)
      · cases hrendered
      · cases heffect
  exact ⟨hsteady, turns_stay_in_chat (fun _ => none) patientRun hsteady⟩

/-- Left too early, the turn is recorded for no chat; left too late for that, its row is not there. -/
theorem left_chat_loses_turn :
    ¬(run Hook.step (Hook.start fun _ => none) hastyRun).TurnsKept ∧
      ¬(run Hook.step (Hook.start fun _ => none) lateRun).TurnsKept := by
  constructor
  · intro hkept
    obtain ⟨chat, -, hid⟩ := hkept.record ⟨⟨0, 0⟩, none, ['q'], ['4', '2']⟩ (.head _)
    cases hid
  · intro hkept
    have hsaved : ¬(run Hook.step (Hook.start fun _ => none) lateRun).SavePending := by
      rintro (⟨-, hrendered⟩ | ⟨heffect, -⟩)
      · cases hrendered
      · cases heffect
    obtain ⟨chat, messages, -, hrow, -⟩ :=
      hkept.row hsaved ⟨⟨⟨0, 0⟩, placeholderId 1, .chat, ['q']⟩, ['4', '2']⟩ (.head _)
    cases hrow

end Onisin.Ui
