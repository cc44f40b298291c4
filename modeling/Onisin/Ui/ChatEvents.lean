import Onisin.Lib.Js
import Onisin.Lib.Json
import Onisin.Lib.Runs

/-!
Chat turns on the bus. A client starts a turn by sending a request to the headless agent; the
agent publishes what happens in the turn on the turn's own subject and answers the request at
the end. A client that has booted holds one wildcard subscription to these subjects and applies
each event through the bubble it has pending at that moment.
-/

set_option autoImplicit false

namespace Onisin.Ui
open Lib

/-- The identity of a turn: the client that started it and how many it had started before.
No client sees it; it is there to say where a text comes from. -/
structure Turn where
  client : Nat
  serial : Nat
  deriving DecidableEq, Repr

inductive AgentEvent where
  | toolCallStart (callId name : Text)
  | toolCallEnd (callId name : Text) (ok : Bool) (summary : Text)
  | tabOpen (contextName : Text) (rows : Json) (viewName : Option Text)
  | assistantMessage (text : Text)
  | agentError (message : Text)
  | cancelled

def AgentEvent.opensTab : AgentEvent → Bool
  | .tabOpen _ _ _ => true
  | _ => false

def AgentEvent.fillsBubble : AgentEvent → Bool
  | .assistantMessage _ => true
  | .agentError _ => true
  | _ => false

/-- An event on the subject of a turn. -/
structure Published where
  turnId : Text
  event : AgentEvent
  turn : Turn

structure ChatMessage where
  id : Text
  assistant : Bool
  text : Text
  -- history: the turn it was made for, and the turns its text was taken from
  turn : Option Turn
  filledBy : List Turn
  deriving DecidableEq, Repr

inductive Tab where
  | graphqlResult (contextName : Text) (data : Json) (viewName : Option Text) (turn : Turn)
  | askResult (question answer : Text) (turn : Turn)
  | eventResult (question answer : Text) (hits : Nat) (turn : Turn)

def Tab.turn : Tab → Turn
  | .graphqlResult _ _ _ t => t
  | .askResult _ _ t => t
  | .eventResult _ _ _ t => t

inductive Mode where
  | chat
  | ask
  | event
  deriving DecidableEq, Repr

/-- What a call of `send` holds on to while it waits for its reply. -/
structure Sending where
  turn : Turn
  placeholderId : Text
  mode : Mode
  question : Text
  deriving DecidableEq, Repr

structure Reply where
  text : Text
  error : Option Text
  hits : Nat
  deriving DecidableEq, Repr

inductive Outcome where
  | resolved (r : Reply)
  | thrown (message : Text)

structure Client where
  messages : List ChatMessage := []
  busy : Bool := false
  /-- `busy` as the callbacks of the last render see it. -/
  rendered : Bool := false
  pendingId : Option Text := none
  sending : List Sending := []
  tabs : List Tab := []
  saved : List (List ChatMessage) := []
  /-- Messages of the wildcard subscription that are not handled yet. -/
  inbox : List Published := []
  serial : Nat := 0

def fehler (message : Text) : Text := "Fehler: ".toList ++ message

def patchAssistant (messages : List ChatMessage) (id text : Text) (source : Turn) : List ChatMessage :=
  messages.map fun m =>
    if m.id = id then { m with text := text, filledBy := m.filledBy ++ [source] } else m

def userId (now : Nat) : Text := "u_".toList ++ (toString now).toList

def placeholderId (now : Nat) : Text := "a_".toList ++ (toString now).toList

def turnId (now : Nat) : Text := "turn_".toList ++ (toString now).toList

/-- There is nothing to send, or the last render shows a turn under way. -/
def Client.blocked (cl : Client) (text : Text) : Bool := text.jsTrim.isEmpty || cl.rendered

/-- `send` up to its first wait. -/
def Client.send (c : Nat) (cl : Client) (now : Nat) (text : Text) (mode : Mode) : Client :=
  let trimmed := text.jsTrim
  if cl.blocked text then cl
  else
    let turn : Turn := ⟨c, cl.serial⟩
    let userMsg : ChatMessage := ⟨userId now, false, trimmed, none, []⟩
    let placeholder : ChatMessage := ⟨placeholderId now, true, "…".toList, some turn, []⟩
    { cl with
      pendingId := some (placeholderId now)
      messages := cl.messages ++ [userMsg, placeholder]
      busy := true
      sending := cl.sending ++ [⟨turn, placeholderId now, mode, trimmed⟩]
      serial := cl.serial + 1 }

/-- An error or a text counts only if it is not empty. -/
def Reply.failure (r : Reply) : Option Text :=
  match r.error with
  | some e => if e.isEmpty then none else some e
  | none => none

def hitsTail (hits : Nat) : Text :=
  if hits = 1 then "1 Treffer im neuen Tab.".toList
  else (toString hits).toList ++ " Treffer im neuen Tab.".toList

/-- The text that the reply leaves in the placeholder. -/
def replyText (mode : Mode) (askToTab : Bool) (r : Reply) : Option Text :=
  match r.failure with
  | some e => some (fehler e)
  | none =>
    match mode with
    | .chat => if r.text.isEmpty then none else some r.text
    | .ask => some (if askToTab then "_Antwort in neuem Tab geöffnet._".toList else r.text)
    | .event =>
      some (if r.text.isEmpty then "_".toList ++ hitsTail r.hits ++ "_".toList
        else r.text ++ "\n\n_".toList ++ hitsTail r.hits ++ "_".toList)

def replyTab (s : Sending) (askToTab : Bool) (r : Reply) : List Tab :=
  match r.failure with
  | some _ => []
  | none =>
    match s.mode with
    | .chat => []
    | .ask => if askToTab then [.askResult s.question r.text s.turn] else []
    | .event => [.eventResult s.question r.text r.hits s.turn]

def Outcome.text (s : Sending) (askToTab : Bool) : Outcome → Option Text
  | .resolved r => replyText s.mode askToTab r
  | .thrown message => some (fehler message)

def Outcome.tabs (s : Sending) (askToTab : Bool) : Outcome → List Tab
  | .resolved r => replyTab s askToTab r
  | .thrown _ => []

def Client.fillPlaceholder (cl : Client) (s : Sending) : Option Text → Client
  | some text => { cl with messages := patchAssistant cl.messages s.placeholderId text s.turn }
  | none => cl

/-- The rest of `send`: the outcome fills the placeholder, and no bubble is pending any more. -/
def Client.settle (cl : Client) (i : Nat) (askToTab : Bool) (outcome : Outcome) : Client :=
  match cl.sending[i]? with
  | none => cl
  | some s =>
    { cl.fillPlaceholder s (outcome.text s askToTab) with
      tabs := cl.tabs ++ outcome.tabs s askToTab
      pendingId := none
      busy := false
      sending := cl.sending.eraseIdx i }

def Client.fillPending (cl : Client) (text : Text) (source : Turn) : Client :=
  match cl.pendingId with
  | some id => { cl with messages := patchAssistant cl.messages id text source }
  | none => cl

def onAgentEvent (cl : Client) (p : Published) : Client :=
  match p.event with
  | .tabOpen contextName rows viewName =>
    { cl with
      tabs := cl.tabs ++ [.graphqlResult contextName (.object [(contextName, rows)]) viewName p.turn] }
  | .assistantMessage text =>
    cl.fillPending (if text.isEmpty then "(leere Antwort)".toList else text) p.turn
  | .agentError message => cl.fillPending (fehler message) p.turn
  | .toolCallStart _ _ => cl
  | .toolCallEnd _ _ _ _ => cl
  | .cancelled => cl

/-- The loop over the wildcard subscription, one message at a time. -/
def Client.deliver (cl : Client) : Client :=
  match cl.inbox with
  | [] => cl
  | p :: inbox => onAgentEvent { cl with inbox := inbox } p

structure System where
  clients : Nat → Client
  /-- The clients that hold the wildcard subscription. -/
  subscribers : List Nat
  /-- The turns that the agent was asked to run, each under the id its client gave it. -/
  started : List (Turn × Text)

def System.start : System := ⟨fun _ => {}, [], []⟩

def System.update (s : System) (c : Nat) (f : Client → Client) : System :=
  { s with clients := fun d => if d = c then f (s.clients c) else s.clients d }

/-- `wireBusPush`, which runs once when a client boots. -/
def System.wireBusPush (s : System) (c : Nat) : System :=
  if c ∈ s.subscribers then s else { s with subscribers := s.subscribers ++ [c] }

def Client.receive (cl : Client) (p : Published) : Client := { cl with inbox := cl.inbox ++ [p] }

/-- `AgentCtx::emit`: the event goes out on the turn's subject, to every subscriber. -/
def System.emit (s : System) (i : Nat) (event : AgentEvent) : System :=
  match s.started[i]? with
  | none => s
  | some (turn, turnId) =>
    { s with clients := fun c =>
        if c ∈ s.subscribers then (s.clients c).receive ⟨turnId, event, turn⟩ else s.clients c }

inductive Act where
  | wireBusPush (c : Nat)
  | send (c now : Nat) (text : Text) (mode : Mode)
  | render (c : Nat)
  | emit (i : Nat) (event : AgentEvent)
  | deliver (c : Nat)
  | settle (c i : Nat) (askToTab : Bool) (outcome : Outcome)
  | newChat (c : Nat)
  | saveChat (c : Nat)
  | loadChat (c i : Nat)

/-- A chat turn that gets under way is started on the agent's side too. -/
def System.send (s : System) (c now : Nat) (text : Text) (mode : Mode) : System :=
  let cl := s.clients c
  let s' := s.update c fun cl => cl.send c now text mode
  if cl.blocked text = false ∧ mode = .chat then
    { s' with started := s.started ++ [(⟨c, cl.serial⟩, turnId now)] }
  else s'

def step (s : System) : Act → System
  | .wireBusPush c => s.wireBusPush c
  | .send c now text mode => s.send c now text mode
  | .render c => s.update c fun cl => { cl with rendered := cl.busy }
  | .emit i event => s.emit i event
  | .deliver c => s.update c Client.deliver
  | .settle c i askToTab outcome => s.update c fun cl => cl.settle i askToTab outcome
  | .newChat c => s.update c fun cl => { cl with messages := [] }
  | .saveChat c => s.update c fun cl => { cl with saved := cl.saved ++ [cl.messages] }
  | .loadChat c i => s.update c fun cl => { cl with messages := cl.saved.getD i cl.messages }

/-! What the events of a turn may touch. -/

/-- Every bubble was only filled from the turn it was made for, and every tab of a client was
opened by a turn that this client started. -/
def EventsStay (s : System) : Prop :=
  ∀ c, (∀ m ∈ (s.clients c).messages, ∀ t ∈ m.filledBy, m.turn = some t) ∧
    ∀ tab ∈ (s.clients c).tabs, tab.turn.client = c

/-- Every message the client holds, on the screen or saved. -/
def Client.held (cl : Client) : List ChatMessage := cl.messages ++ cl.saved.flatten

/-- The turn that a busy client has under way, if its bubble is on the screen: of the turns that
are not over the one that was started last. -/
def Client.current (cl : Client) : Option Turn :=
  if cl.busy then
    (cl.sending.getLast?.filter fun f => cl.messages.any fun m => m.id = f.placeholderId).map Sending.turn
  else none

/-- No bubble and no waiting turn of the client has the id of this millisecond yet. -/
def FreshId (cl : Client) (now : Nat) : Prop :=
  (∀ m ∈ cl.held, m.id ≠ placeholderId now) ∧ ∀ f ∈ cl.sending, f.placeholderId ≠ placeholderId now

instance (cl : Client) (now : Nat) : Decidable (FreshId cl now) :=
  inferInstanceAs (Decidable (_ ∧ _))

/-- The condition on a step, in the state in which it is taken. -/
def Undisturbed (s : System) : Act → Prop
  | .send c now text _ => (s.clients c).blocked text = false → FreshId (s.clients c) now
  | .emit i event => event.opensTab = true →
      ∀ started ∈ s.started[i]?, ∀ c ∈ s.subscribers, c = started.1.client
  | .deliver c => ∀ p ∈ (s.clients c).inbox.head?, p.event.fillsBubble = true →
      ∀ turn ∈ (s.clients c).current, turn = p.turn
  | _ => True

instance (s : System) : (a : Act) → Decidable (Undisturbed s a)
  | .wireBusPush _ => instDecidableTrue
  | .send _ _ _ _ => inferInstanceAs (Decidable (_ → _))
  | .render _ => instDecidableTrue
  | .emit _ _ => inferInstanceAs (Decidable (_ → _))
  | .deliver c => inferInstanceAs (Decidable (∀ p ∈ (s.clients c).inbox.head?, _))
  | .settle _ _ _ _ => instDecidableTrue
  | .newChat _ => instDecidableTrue
  | .saveChat _ => instDecidableTrue
  | .loadChat _ _ => instDecidableTrue

structure ClientInv (c : Nat) (cl : Client) : Prop where
  fills : ∀ m ∈ cl.held, ∀ t ∈ m.filledBy, m.turn = some t
  bubbles : ∀ f ∈ cl.sending, ∀ m ∈ cl.held, m.id = f.placeholderId → m.turn = some f.turn
  own : ∀ f ∈ cl.sending, f.turn.client = c ∧ ∃ now, f.placeholderId = placeholderId now
  pending : ∀ id, cl.pendingId = some id → cl.busy = true ∧
    ∃ f, cl.sending.getLast? = some f ∧ f.placeholderId = id
  tabs : ∀ tab ∈ cl.tabs, tab.turn.client = c
  inbox : ∀ p ∈ cl.inbox, p.event.opensTab = true → p.turn.client = c

theorem clientInv_start (c : Nat) : ClientInv c {} :=
  ⟨nofun, nofun, nofun, nofun, nofun, nofun⟩

theorem userId_ne_placeholderId (a b : Nat) : userId a ≠ placeholderId b := by
  simp [userId, placeholderId]

section Clients
variable {c : Nat} {cl : Client}

/-- A patch keeps ids and turns, and what it adds to a bubble is its source. -/
theorem mem_patchAssistant {messages : List ChatMessage} {id text : Text} {source : Turn}
    {m : ChatMessage} (h : m ∈ patchAssistant messages id text source) :
    ∃ m' ∈ messages, m.id = m'.id ∧ m.turn = m'.turn ∧
      ∀ t ∈ m.filledBy, t ∈ m'.filledBy ∨ (m'.id = id ∧ t = source) := by
  obtain ⟨m', hm', rfl⟩ := List.mem_map.mp h
  refine ⟨m', hm', ?_⟩
  split
  · rename_i hid
    refine ⟨rfl, rfl, fun t ht => ?_⟩
    obtain ht | ht := List.mem_append.mp ht
    · exact .inl ht
    · exact .inr ⟨hid, List.mem_singleton.mp ht⟩
  · exact ⟨rfl, rfl, fun t ht => .inl ht⟩

/-- Filling a bubble from the turn it was made for keeps the invariant. -/
theorem ClientInv.patch (h : ClientInv c cl) {id text : Text} {source : Turn}
    (hid : ∀ m ∈ cl.messages, m.id = id → m.turn = some source) :
    ClientInv c { cl with messages := patchAssistant cl.messages id text source } := by
  have hheld : ∀ m ∈ patchAssistant cl.messages id text source ++ cl.saved.flatten,
      ∃ m' ∈ cl.held, m.id = m'.id ∧ m.turn = m'.turn ∧
        ∀ t ∈ m.filledBy, t ∈ m'.filledBy ∨ m'.turn = some t := by
    intro m hm
    obtain hm | hm := List.mem_append.mp hm
    · obtain ⟨m', hm', hids, hturn, hfill⟩ := mem_patchAssistant hm
      refine ⟨m', List.mem_append_left _ hm', hids, hturn, fun t ht => ?_⟩
      obtain ht | ⟨hmid, rfl⟩ := hfill t ht
      · exact .inl ht
      · exact .inr (hid m' hm' hmid)
    · exact ⟨m, List.mem_append_right _ hm, rfl, rfl, fun t ht => .inl ht⟩
  refine ⟨?_, ?_, h.own, h.pending, h.tabs, h.inbox⟩
  · intro m hm t ht
    obtain ⟨m', hm', -, hturn, hfill⟩ := hheld m hm
    rw [hturn]
    obtain ht | ht := hfill t ht
    · exact h.fills m' hm' t ht
    · exact ht
  · intro f hf m hm hmid
    obtain ⟨m', hm', hids, hturn, -⟩ := hheld m hm
    rw [hturn]
    exact h.bubbles f hf m' hm' (hids ▸ hmid)

/-- Replacing the scrollback by messages that are held anyway keeps the invariant. -/
theorem ClientInv.show_ (h : ClientInv c cl) {messages : List ChatMessage}
    (hsub : ∀ m ∈ messages, m ∈ cl.held) : ClientInv c { cl with messages := messages } := by
  have hheld : ∀ m ∈ messages ++ cl.saved.flatten, m ∈ cl.held := by
    intro m hm
    obtain hm | hm := List.mem_append.mp hm
    · exact hsub m hm
    · exact List.mem_append_right _ hm
  exact ⟨fun m hm => h.fills m (hheld m hm), fun f hf m hm => h.bubbles f hf m (hheld m hm), h.own,
    h.pending, h.tabs, h.inbox⟩

theorem ClientInv.save (h : ClientInv c cl) :
    ClientInv c { cl with saved := cl.saved ++ [cl.messages] } := by
  have hheld : ∀ m ∈ cl.messages ++ (cl.saved ++ [cl.messages]).flatten, m ∈ cl.held := by
    intro m hm
    rw [List.flatten_append, List.flatten_singleton] at hm
    obtain hm | hm := List.mem_append.mp hm
    · exact List.mem_append_left _ hm
    · obtain hm | hm := List.mem_append.mp hm
      · exact List.mem_append_right _ hm
      · exact List.mem_append_left _ hm
  exact ⟨fun m hm => h.fills m (hheld m hm), fun f hf m hm => h.bubbles f hf m (hheld m hm), h.own,
    h.pending, h.tabs, h.inbox⟩

theorem ClientInv.load (h : ClientInv c cl) (i : Nat) :
    ClientInv c { cl with messages := cl.saved.getD i cl.messages } := by
  refine h.show_ fun m hm => ?_
  rw [List.getD_eq_getElem?_getD] at hm
  cases hi : cl.saved[i]? with
  | none =>
    rw [hi] at hm
    exact List.mem_append_left _ hm
  | some chat =>
    rw [hi] at hm
    exact List.mem_append_right _ (List.mem_flatten.mpr ⟨chat, List.mem_of_getElem? hi, hm⟩)

theorem ClientInv.send (h : ClientInv c cl) {now : Nat} (text : Text) (mode : Mode)
    (hfresh : cl.blocked text = false → FreshId cl now) : ClientInv c (cl.send c now text mode) := by
  unfold Client.send
  dsimp only
  split
  · exact h
  · rename_i hgo
    obtain ⟨hids, hwaiting⟩ := hfresh (by simpa using hgo)
    let turn : Turn := ⟨c, cl.serial⟩
    let userMsg : ChatMessage := ⟨userId now, false, text.jsTrim, none, []⟩
    let placeholder : ChatMessage := ⟨placeholderId now, true, "…".toList, some turn, []⟩
    have hheld : ∀ m ∈ (cl.messages ++ [userMsg, placeholder]) ++ cl.saved.flatten,
        m ∈ cl.held ∨ m = userMsg ∨ m = placeholder := by
      intro m hm
      obtain hm | hm := List.mem_append.mp hm
      · obtain hm | hm := List.mem_append.mp hm
        · exact .inl (List.mem_append_left _ hm)
        · exact .inr (by simpa using hm)
      · exact .inl (List.mem_append_right _ hm)
    refine ⟨?_, ?_, ?_, ?_, h.tabs, h.inbox⟩
    · intro m hm t ht
      obtain hm | rfl | rfl := hheld m hm
      · exact h.fills m hm t ht
      · cases ht
      · cases ht
    · intro f hf m hm hmid
      obtain hf | hf := List.mem_append.mp hf
      · obtain hm | rfl | rfl := hheld m hm
        · exact h.bubbles f hf m hm hmid
        · obtain ⟨k, hk⟩ := (h.own f hf).2
          exact absurd (hmid.trans hk) (userId_ne_placeholderId now k)
        · exact absurd hmid.symm (hwaiting f hf)
      · obtain rfl := List.mem_singleton.mp hf
        obtain hm | rfl | rfl := hheld m hm
        · exact absurd hmid (hids m hm)
        · exact absurd hmid (userId_ne_placeholderId now now)
        · rfl
    · intro f hf
      obtain hf | hf := List.mem_append.mp hf
      · exact h.own f hf
      · rw [List.mem_singleton.mp hf]
        exact ⟨rfl, now, rfl⟩
    · intro id hid
      simp only [Option.some.injEq] at hid
      simp [hid]

theorem replyTab_turn {s : Sending} {askToTab : Bool} {r : Reply} {tab : Tab}
    (h : tab ∈ replyTab s askToTab r) : tab.turn = s.turn := by
  unfold replyTab at h
  split at h
  · cases h
  · split at h
    · cases h
    · split at h
      · rw [List.mem_singleton.mp h]
        rfl
      · cases h
    · rw [List.mem_singleton.mp h]
      rfl

theorem ClientInv.settle (h : ClientInv c cl) (i : Nat) (askToTab : Bool) (outcome : Outcome) :
    ClientInv c (cl.settle i askToTab outcome) := by
  unfold Client.settle
  split
  · exact h
  · rename_i s hi
    have hs : s ∈ cl.sending := List.mem_of_getElem? hi
    have hrest : ∀ f ∈ cl.sending.eraseIdx i, f ∈ cl.sending := fun _ => List.mem_of_mem_eraseIdx
    have hfill : ClientInv c (cl.fillPlaceholder s (outcome.text s askToTab)) := by
      unfold Client.fillPlaceholder
      split
      · exact h.patch fun m hm => h.bubbles s hs m (List.mem_append_left _ hm)
      · exact h
    have htabs : ∀ tab ∈ cl.tabs ++ outcome.tabs s askToTab, tab.turn.client = c := by
      intro tab htab
      obtain htab | htab := List.mem_append.mp htab
      · exact h.tabs tab htab
      · cases outcome with
        | resolved r =>
          rw [replyTab_turn htab]
          exact (h.own s hs).1
        | thrown message => cases htab
    have hsending : (cl.fillPlaceholder s (outcome.text s askToTab)).sending = cl.sending := by
      unfold Client.fillPlaceholder
      split <;> rfl
    refine ⟨hfill.fills, fun f hf => ?_, fun f hf => h.own f (hrest f hf), fun id hid => ?_, htabs,
      hfill.inbox⟩
    · exact hfill.bubbles f (hsending ▸ hrest f hf)
    · cases hid

/-- A bubble under the pending id is that of the turn under way. -/
theorem ClientInv.current (h : ClientInv c cl) {m : ChatMessage} (hm : m ∈ cl.messages)
    (hpending : cl.pendingId = some m.id) : ∃ turn ∈ cl.current, m.turn = some turn := by
  obtain ⟨hbusy, f, hlast, hid⟩ := h.pending m.id hpending
  have hshown : ∃ m ∈ cl.messages, m.id = f.placeholderId := ⟨m, hm, hid.symm⟩
  refine ⟨f.turn, by simp [Client.current, hbusy, hlast, hshown], ?_⟩
  exact h.bubbles f (List.mem_of_getLast? hlast) m (List.mem_append_left _ hm) hid.symm

theorem ClientInv.fillPending (h : ClientInv c cl) {text : Text} {source : Turn}
    (hsource : ∀ turn ∈ cl.current, turn = source) : ClientInv c (cl.fillPending text source) := by
  unfold Client.fillPending
  split
  · rename_i id hpending
    refine h.patch fun m hm hid => ?_
    obtain ⟨turn, hturn, hm⟩ := h.current hm (hid ▸ hpending)
    exact hsource turn hturn ▸ hm
  · exact h

theorem ClientInv.deliver (h : ClientInv c cl)
    (hown : ∀ p ∈ cl.inbox.head?, p.event.fillsBubble = true → ∀ turn ∈ cl.current, turn = p.turn) :
    ClientInv c cl.deliver := by
  unfold Client.deliver
  split
  · exact h
  · rename_i p inbox hinbox
    have hp := hown p (by simp [hinbox])
    have htab := h.inbox p (by simp [hinbox])
    have hrest : ClientInv c { cl with inbox := inbox } :=
      ⟨h.fills, h.bubbles, h.own, h.pending, h.tabs, fun q hq => h.inbox q (by simp [hinbox, hq])⟩
    unfold onAgentEvent
    split
    · rename_i hevent
      refine ⟨h.fills, h.bubbles, h.own, h.pending, fun tab hmem => ?_, hrest.inbox⟩
      obtain hmem | hmem := List.mem_append.mp hmem
      · exact h.tabs tab hmem
      · rw [List.mem_singleton.mp hmem]
        exact htab (by rw [hevent]; rfl)
    · rename_i hevent
      exact hrest.fillPending (hp (by rw [hevent]; rfl))
    · rename_i hevent
      exact hrest.fillPending (hp (by rw [hevent]; rfl))
    all_goals exact hrest

theorem ClientInv.receive (h : ClientInv c cl) {p : Published}
    (hown : p.event.opensTab = true → p.turn.client = c) : ClientInv c (cl.receive p) := by
  refine ⟨h.fills, h.bubbles, h.own, h.pending, h.tabs, fun q hq => ?_⟩
  obtain hq | hq := List.mem_append.mp hq
  · exact h.inbox q hq
  · rw [List.mem_singleton.mp hq]
    exact hown

end Clients

/-! Runs of the whole system. -/

def SystemInv (s : System) : Prop := ∀ c, ClientInv c (s.clients c)

theorem SystemInv.update {s : System} (h : SystemInv s) {c : Nat} {f : Client → Client}
    (hf : ClientInv c (f (s.clients c))) : SystemInv (s.update c f) := by
  intro d
  unfold System.update
  dsimp only
  split
  · rename_i hd
    exact hd ▸ hf
  · exact h d

theorem SystemInv.emit {s : System} (h : SystemInv s) {i : Nat} {event : AgentEvent}
    (hown : event.opensTab = true →
      ∀ started ∈ s.started[i]?, ∀ c ∈ s.subscribers, c = started.1.client) :
    SystemInv (s.emit i event) := by
  unfold System.emit
  split
  · exact h
  · rename_i turn turnId hstarted
    intro c
    dsimp only
    split
    · rename_i hc
      exact (h c).receive fun hopens => (hown hopens _ hstarted c hc).symm
    · exact h c

theorem systemInv_step (s : System) (a : Act) (h : SystemInv s) (hok : Undisturbed s a) :
    SystemInv (step s a) := by
  cases a with
  | wireBusPush c =>
    simp only [step, System.wireBusPush]
    split <;> exact h
  | send c now text mode =>
    have hsent : SystemInv (s.update c fun cl => cl.send c now text mode) := by
      refine h.update ?_
      exact (h c).send text mode hok
    simp only [step, System.send]
    split <;> exact hsent
  | render c =>
    simp only [step]
    refine h.update ?_
    exact ⟨(h c).fills, (h c).bubbles, (h c).own, (h c).pending, (h c).tabs, (h c).inbox⟩
  | emit i event => exact h.emit hok
  | deliver c =>
    simp only [step]
    refine h.update ?_
    exact (h c).deliver hok
  | settle c i askToTab outcome =>
    simp only [step]
    refine h.update ?_
    exact (h c).settle i askToTab outcome
  | newChat c =>
    simp only [step]
    refine h.update ?_
    exact (h c).show_ fun _ hm => absurd hm List.not_mem_nil
  | saveChat c =>
    simp only [step]
    refine h.update ?_
    exact (h c).save
  | loadChat c i =>
    simp only [step]
    refine h.update ?_
    exact (h c).load i

theorem SystemInv.eventsStay {s : System} (h : SystemInv s) : EventsStay s :=
  fun c => ⟨fun m hm => (h c).fills m (List.mem_append_left _ hm), (h c).tabs⟩

/-- In every run in which a client handles no text of another turn while a turn of its own is
under way, tabs are announced only where their own client alone is subscribed, and no client
starts two turns in one millisecond, the events stay with their turns. -/
theorem run_eventsStay (acts : List Act) (h : Along step Undisturbed System.start acts) :
    EventsStay (run step System.start acts) := by
  have hstart : SystemInv System.start := clientInv_start
  exact (run_invariant systemInv_step hstart h).eventsStay

/-- Two clients ask at the same time. The answer to the second one's question arrives first and
lands in the first one's bubble, together with its rows. -/
def crossedRun : List Act :=
  [.wireBusPush 0, .wireBusPush 1, .send 0 1000 "Was ist offen?".toList .chat,
    .send 1 1001 "Zeig mir alle Personen".toList .chat,
    .emit 1 (.tabOpen "person".toList (.array []) none), .emit 1 (.assistantMessage "42".toList),
    .deliver 0, .deliver 0]

theorem crossedRun_leaks : ¬ EventsStay (run step System.start crossedRun) := by
  intro h
  have hfilled := (h 0).1 ⟨placeholderId 1000, true, "42".toList, some ⟨0, 0⟩, [⟨1, 0⟩]⟩
    (by decide) ⟨1, 0⟩ (by decide)
  exact absurd hfilled (by decide)

/-- Two clients with a turn each. The first shows its rows while it alone is subscribed, and is
asked again too early; each hears the other's answer while no turn of its own is under way. -/
def politeRun : List Act :=
  [.wireBusPush 0, .send 0 1000 "Zeig mir alle Personen".toList .chat, .render 0,
    .emit 0 (.tabOpen "person".toList (.array []) none), .deliver 0,
    .send 0 1000 "Und?".toList .chat, .wireBusPush 1, .emit 0 (.assistantMessage "42".toList),
    .deliver 0, .deliver 1, .settle 0 0 false (.resolved ⟨"42".toList, none, 0⟩), .render 0,
    .send 1 1000 "Was ist offen?".toList .chat, .emit 1 (.agentError "timeout".toList),
    .deliver 0, .deliver 1, .settle 1 0 false (.thrown "timeout".toList)]

theorem politeRun_eventsStay : EventsStay (run step System.start politeRun) :=
  run_eventsStay politeRun (by decide)

end Onisin.Ui
