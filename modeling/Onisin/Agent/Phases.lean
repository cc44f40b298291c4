import Onisin.Agent.Turn

/-!
One chat turn on its own: the actions it can come to, the phases it goes through, and the looks
at its flag that stand before each call of the model and of a tool and behind a call that failed.
-/

set_option autoImplicit false

namespace Onisin.Agent
open Lib

/-- The actions of the loop of a turn: looks at its own flag, events on its own subject, and
calls that leave the table of flags alone. -/
def Inner (turnId : Text) (cancel : Nat) : Action → Prop
  | .aborted cancel' => cancel' = cancel
  | .emit turnId' _ => turnId' = turnId
  | .request _ _ => True
  | .chatCompletion _ => True
  | _ => False

/-- The events that a turn publishes only after a look at its flag: the start of a tool call,
and that a call of the model has failed. -/
def AgentEvent.needsLook : AgentEvent → Bool
  | .toolCallStart _ _ _ => true
  | .agentError _ => true
  | _ => false

/-- The actions around the calls: requests to the bus, and events that need no look. -/
def Aside (turnId : Text) : Action → Prop
  | .emit turnId' event => turnId' = turnId ∧ event.needsLook = false
  | .request _ _ => True
  | _ => False

theorem Aside.inner {turnId : Text} {a : Action} (h : Aside turnId a) (cancel : Nat) :
    Inner turnId cancel a := by
  cases a with
  | emit turnId' event => exact h.1
  | request subject payload => trivial
  | register turnId' => exact absurd h id
  | deregister turnId' => exact absurd h id
  | aborted cancel' => exact absurd h id
  | chatCompletion messages => exact absurd h id

section Actions
variable (ctx : AgentCtx)

theorem cancelled_acts (usage : Usage) (toolTraces : List ToolTrace) :
    (cancelled ctx usage toolTraces).Acts (Aside ctx.turnId) :=
  .next ⟨rfl, rfl⟩ fun _ => .next ⟨rfl, rfl⟩ fun _ => .pure _

theorem runSchemaSearch_acts (args : Json) :
    (runSchemaSearch ctx args).Acts (Aside ctx.turnId) := by
  dsimp only [runSchemaSearch]
  split
  · exact .pure _
  · refine .next trivial fun r => ?_
    cases r with
    | error e => exact .pure _
    | ok reply =>
      dsimp only
      split
      · exact .pure _
      · exact .pure _

theorem runQuery_acts (args : Json) : (runQuery ctx args).Acts (Aside ctx.turnId) := by
  dsimp only [runQuery]
  split
  · exact .pure _
  · refine .next trivial fun r => ?_
    cases r with
    | error e => exact .pure _
    | ok reply =>
      dsimp only
      split
      · exact .pure _
      · exact .next ⟨rfl, rfl⟩ fun _ => .pure _

theorem runTool_acts (name : Text) (args : Json) :
    (runTool ctx name args).Acts (Aside ctx.turnId) := by
  dsimp only [runTool]
  split
  · exact runSchemaSearch_acts ctx args
  · split
    · exact runQuery_acts ctx args
    · exact .pure _

theorem buildSystemPrompt_acts : (buildSystemPrompt ctx).Acts (Aside ctx.turnId) := by
  refine .bind (.next trivial fun r => ?_) fun globals => .bind (.next trivial fun r => ?_)
    fun domains => .pure _
  · cases r with
    | error e => exact .pure _
    | ok v => exact .pure _
  · cases r with
    | error e => exact .pure _
    | ok v => exact .pure _

theorem chatCompletion_acts (messages : List Message) :
    (chatCompletion messages).Acts (Inner ctx.turnId ctx.cancel) := by
  refine .next trivial fun r => ?_
  cases r with
  | error e => exact .pure _
  | ok parsed => exact .pure _

variable (serde : SerdeJson)

theorem dispatchToolCalls_acts (calls : List ToolCall) (messages : List Message)
    (toolTraces : List ToolTrace) :
    (dispatchToolCalls serde ctx calls messages toolTraces).Acts (Inner ctx.turnId ctx.cancel) := by
  induction calls generalizing messages toolTraces with
  | nil => exact .pure _
  | cons call calls ih =>
    refine .next rfl fun b => ?_
    cases b with
    | true => exact .pure _
    | false =>
      refine .bind ?_ fun p => ih p.1 p.2
      refine .next rfl fun _ => .bind ?_ fun _ => .next rfl fun _ => .pure _
      exact (runTool_acts ctx _ _).mono fun _ h => h.inner _

theorem agentLoop_acts (steps : Nat) (messages : List Message) (usage : Usage)
    (toolTraces : List ToolTrace) :
    (agentLoop serde ctx steps messages usage toolTraces).Acts (Inner ctx.turnId ctx.cancel) := by
  induction steps generalizing messages usage toolTraces with
  | zero => exact .next rfl fun _ => .pure _
  | succ steps ih =>
    refine .next rfl fun b => ?_
    cases b with
    | true => exact (cancelled_acts ctx usage toolTraces).mono fun _ h => h.inner _
    | false =>
      refine .bind (chatCompletion_acts ctx messages) fun r => ?_
      cases r with
      | error msg =>
        refine .next rfl fun b => ?_
        cases b with
        | true => exact (cancelled_acts ctx usage toolTraces).mono fun _ h => h.inner _
        | false => exact .next rfl fun _ => .pure _
      | ok reply =>
        dsimp only
        split
        · exact .next rfl fun _ => .pure _
        · refine .bind (dispatchToolCalls_acts ctx serde _ _ _) fun e => ?_
          cases e with
          | cut toolTraces' => exact (cancelled_acts ctx _ toolTraces').mono fun _ h => h.inner _
          | done messages' toolTraces' => exact ih _ _ _

theorem runAgent_acts (history : List Message) (user : Text) :
    (runAgent serde ctx history user).Acts (Inner ctx.turnId ctx.cancel) :=
  .bind ((buildSystemPrompt_acts ctx).mono fun _ h => h.inner _) fun _ =>
    agentLoop_acts ctx serde _ _ _ _

end Actions

section Guards

/-- A call of the model or of a tool, and the report that a call of the model has failed, comes
right after a look that found the flag down. -/
def Guarded (pre : History) (x : Exchange Action Answer) : Prop :=
  match x.action with
  | .chatCompletion _ => ∃ before cancel, pre = before ++ [⟨.aborted cancel, false⟩]
  | .emit _ event =>
    event.needsLook = true → ∃ before cancel, pre = before ++ [⟨.aborted cancel, false⟩]
  | _ => True

theorem Aside.guarded {turnId : Text} {x : Exchange Action Answer} (h : Aside turnId x.action)
    (pre : History) : Guarded pre x := by
  obtain ⟨a, r⟩ := x
  cases a with
  | emit turnId' event =>
    intro hlook
    rw [h.2] at hlook
    cases hlook
  | request subject payload => trivial
  | register turnId' => exact absurd h id
  | deregister turnId' => exact absurd h id
  | aborted cancel' => exact absurd h id
  | chatCompletion messages => exact absurd h id

variable {h : History} (ctx : AgentCtx) (serde : SerdeJson)

/-- Any result, after a history in which the calls are guarded. -/
def Kept {α : Type} (_ : α) (h : History) : Prop := Justified Guarded h

theorem kept_of_acts {α : Type} {p : Task α} (hp : p.Acts (Aside ctx.turnId))
    (hh : Justified Guarded h) : p.Holds (Justified Guarded) Kept h :=
  hp.holds (fun h _ hx hh => hh.snoc (hx.guarded h)) (fun _ _ hh => hh) hh

theorem kept_look (hh : Justified Guarded h) (cancel : Nat) (b : Bool) :
    Justified Guarded (h ++ [⟨.aborted cancel, b⟩]) := hh.snoc trivial

theorem kept_event (hh : Justified Guarded h) {turnId : Text} {e : AgentEvent}
    (he : e.needsLook = false) (r : Unit) : Justified Guarded (h ++ [⟨.emit turnId e, r⟩]) := by
  refine hh.snoc fun hlook => ?_
  rw [he] at hlook
  cases hlook

theorem kept_looked (hh : Justified Guarded h) (cancel : Nat) (turnId : Text) (e : AgentEvent)
    (r : Unit) :
    Justified Guarded (h ++ [⟨.aborted cancel, false⟩] ++ [⟨.emit turnId e, r⟩]) :=
  (kept_look hh cancel false).snoc fun _ => ⟨h, cancel, rfl⟩

theorem kept_completion (hh : Justified Guarded h) (cancel : Nat) (messages : List Message)
    (r : Answer (.chatCompletion messages)) :
    Justified Guarded (h ++ [⟨.aborted cancel, false⟩] ++ [⟨.chatCompletion messages, r⟩]) :=
  (kept_look hh cancel false).snoc ⟨h, cancel, rfl⟩

theorem chatCompletion_guarded (hh : Justified Guarded h) (cancel : Nat)
    (messages : List Message) : (chatCompletion messages).Holds (Justified Guarded) Kept
      (h ++ [⟨.aborted cancel, false⟩]) := by
  refine .next (kept_look hh _ _) fun answer => ?_
  have hcall := kept_completion hh cancel messages answer
  cases answer with
  | error msg => exact .pure hcall hcall
  | ok parsed => exact .pure hcall hcall

theorem dispatchToolCalls_guarded (calls : List ToolCall) (messages : List Message)
    (toolTraces : List ToolTrace) (hh : Justified Guarded h) :
    (dispatchToolCalls serde ctx calls messages toolTraces).Holds (Justified Guarded) Kept h := by
  induction calls generalizing h messages toolTraces with
  | nil => exact .pure hh hh
  | cons call calls ih =>
    refine .next hh fun b => ?_
    cases b with
    | true => exact .pure (kept_look hh _ _) (kept_look hh _ _)
    | false =>
      refine .bind (.next (kept_look hh _ _) fun _ => .bind ?_)
      refine (kept_of_acts ctx (runTool_acts ctx _ _) (kept_looked hh _ _ _ _)).mono ?_
      intro result h' hh'
      refine .next hh' fun _ => ?_
      have hend : ∀ ok summary, Justified Guarded
          (h' ++ [⟨.emit ctx.turnId (.toolCallEnd call.id call.name ok summary), ()⟩]) :=
        fun ok summary => kept_event hh' rfl ()
      exact .pure (hend _ _) (ih _ _ (hend _ _))

theorem agentLoop_guarded (steps : Nat) (messages : List Message) (usage : Usage)
    (toolTraces : List ToolTrace) (hh : Justified Guarded h) :
    (agentLoop serde ctx steps messages usage toolTraces).Holds (Justified Guarded) Kept h := by
  induction steps generalizing h messages usage toolTraces with
  | zero => exact .next hh fun _ => .pure (kept_event hh rfl _) (kept_event hh rfl _)
  | succ steps ih =>
    refine .next hh fun b => ?_
    cases b with
    | true => exact kept_of_acts ctx (cancelled_acts ctx usage toolTraces) (kept_look hh _ _)
    | false =>
      refine .bind ((chatCompletion_guarded hh ctx.cancel messages).mono fun r h' hh' => ?_)
      cases r with
      | error msg =>
        refine .next hh' fun b => ?_
        cases b with
        | true => exact kept_of_acts ctx (cancelled_acts ctx usage toolTraces) (kept_look hh' _ _)
        | false =>
          refine .next (kept_look hh' _ _) fun _ => ?_
          exact .pure (kept_looked hh' _ _ _ _) (kept_looked hh' _ _ _ _)
      | ok reply =>
        dsimp only
        split
        · exact .next hh' fun _ => .pure (kept_event hh' rfl _) (kept_event hh' rfl _)
        · refine .bind ((dispatchToolCalls_guarded ctx serde _ _ _ hh').mono fun e h'' hh'' => ?_)
          cases e with
          | cut toolTraces' => exact kept_of_acts ctx (cancelled_acts ctx _ toolTraces') hh''
          | done messages' toolTraces' => exact ih _ _ _ hh''

/-- Over the whole of a turn, registering and deregistering included. -/
theorem runChat_guarded (req : ChatReq) :
    (runChat serde req).Holds (Justified Guarded) Kept [] := by
  refine .next (justified_nil _) fun cancel => ?_
  have hreg : Justified Guarded [⟨.register req.turnId, cancel⟩] := (justified_nil _).snoc trivial
  have hprompt := kept_of_acts (req.ctx cancel) (buildSystemPrompt_acts (req.ctx cancel)) hreg
  refine .bind (.bind (hprompt.mono fun system h hh => ?_))
  refine (agentLoop_guarded (req.ctx cancel) serde _ _ _ _ hh).mono fun result h' hh' => ?_
  exact .next hh' fun _ => .pure (Justified.snoc hh' trivial) (Justified.snoc hh' trivial)

end Guards

section Phases
variable (serde : SerdeJson) (req : ChatReq)

/-- Deregistering behind the loop. -/
def leave (result : ChatResult) : Task ChatResult := do
  deregister req.turnId
  return result

/-- Where a turn is: not yet registered, in its loop, or done. -/
inductive Phase : History → Task ChatResult → Prop
  | idle : Phase [] (runChat serde req)
  | running (cancel : Nat) {inner : History} {p : Task ChatResult}
      (hinner : ∀ x ∈ inner, Inner req.turnId cancel x.action)
      (hrun : (runAgent serde (req.ctx cancel) req.history req.user).Steps inner p) :
      Phase (⟨.register req.turnId, cancel⟩ :: inner) (p >>= leave req)
  | left (cancel : Nat) {inner : History} {r : ChatResult}
      (hinner : ∀ x ∈ inner, Inner req.turnId cancel x.action)
      (hrun : (runAgent serde (req.ctx cancel) req.history req.user).Steps inner (.ret r)) :
      Phase (⟨.register req.turnId, cancel⟩ :: (inner ++ [⟨.deregister req.turnId, ()⟩])) (.ret r)

variable {serde req}

theorem phase_of_steps {h : History} {p : Task ChatResult} (hs : (runChat serde req).Steps h p) :
    Phase serde req h p := by
  have hbody : ∀ cancel : Nat, ∀ {h p}, (runAgent serde (req.ctx cancel) req.history req.user >>=
      leave req).Steps h p → Phase serde req (⟨.register req.turnId, cancel⟩ :: h) p := by
    intro cancel h p hs
    have hacts := runAgent_acts (req.ctx cancel) serde req.history req.user
    rcases hs.of_bind with ⟨p', hp, rfl⟩ | ⟨r, tr₁, tr₂, rfl, h₁, h₂⟩
    · exact .running cancel (hacts.steps hp).1 hp
    · have hinner := (hacts.steps h₁).1
      cases h₂ with
      | refl =>
        have hphase := Phase.running cancel hinner h₁
        rw [List.append_nil]
        exact hphase
      | act h₂ =>
        cases h₂ with
        | refl => exact .left cancel hinner h₁
  cases hs with
  | refl => exact .idle
  | act hs => exact hbody _ hs

/-- The flag a turn registered, once it has. -/
def flagOf : History → Option Nat
  | ⟨.register _, cancel⟩ :: _ => some cancel
  | _ => none

def HasLeft (h : History) : Prop := ∃ turnId, ⟨.deregister turnId, ()⟩ ∈ h

theorem not_hasLeft {turnId : Text} {cancel flag : Nat} {inner : History}
    (h : ∀ x ∈ inner, Inner turnId cancel x.action) :
    ¬ HasLeft (⟨.register turnId, flag⟩ :: inner) := by
  rintro ⟨turnId', hmem⟩
  rcases List.mem_cons.mp hmem with heq | hmem
  · cases heq
  · exact h _ hmem

/-- What a turn may do next, by where it is. -/
theorem Phase.next {h : History} {a : Action} {k : Answer a → Task ChatResult}
    (hp : Phase serde req h (.act a k)) :
    (h = [] ∧ a = .register req.turnId) ∨
      ∃ cancel, flagOf h = some cancel ∧ ¬ HasLeft h ∧
        (Inner req.turnId cancel a ∨ a = .deregister req.turnId) := by
  generalize hq : Process.act a k = q at hp
  cases hp with
  | idle =>
    cases hq
    exact .inl ⟨rfl, rfl⟩
  | left cancel hinner hrun => cases hq
  | @running cancel inner p hinner hrun =>
    refine .inr ⟨cancel, rfl, not_hasLeft hinner, ?_⟩
    have hacts := ((runAgent_acts (req.ctx cancel) serde req.history req.user).steps hrun).2
    cases p with
    | ret r =>
      cases hq
      exact .inr rfl
    | act a' k' =>
      cases hq
      exact .inl hacts.1

theorem Phase.registered {h : History} {p : Task ChatResult} (hp : Phase serde req h p)
    {turnId : Text} {cancel : Nat} (hmem : ⟨.register turnId, cancel⟩ ∈ h) :
    turnId = req.turnId ∧ flagOf h = some cancel := by
  have hinner : ∀ {inner : History} {flag : Nat}, (∀ x ∈ inner, Inner req.turnId flag x.action) →
      ⟨.register turnId, cancel⟩ ∉ inner := fun hinner hx => hinner _ hx
  cases hp with
  | idle => simp at hmem
  | running cancel' hall hrun =>
    rcases List.mem_cons.mp hmem with heq | hmem
    · cases heq
      exact ⟨rfl, rfl⟩
    · exact absurd hmem (hinner hall)
  | left cancel' hall hrun =>
    rcases List.mem_cons.mp hmem with heq | hmem
    · cases heq
      exact ⟨rfl, rfl⟩
    · rcases List.mem_append.mp hmem with hmem | hmem
      · exact absurd hmem (hinner hall)
      · cases List.mem_singleton.mp hmem

theorem Phase.flag_mem {h : History} {p : Task ChatResult} (hp : Phase serde req h p)
    {cancel : Nat} (hf : flagOf h = some cancel) : ⟨.register req.turnId, cancel⟩ ∈ h := by
  cases hp with
  | idle => simp [flagOf] at hf
  | running cancel' hall hrun =>
    cases hf
    exact List.mem_cons_self
  | left cancel' hall hrun =>
    cases hf
    exact List.mem_cons_self

theorem Phase.hasLeft_iff {h : History} {p : Task ChatResult} (hp : Phase serde req h p) :
    HasLeft h ↔ ⟨.deregister req.turnId, ()⟩ ∈ h := by
  refine ⟨?_, fun hmem => ⟨_, hmem⟩⟩
  cases hp with
  | idle =>
    rintro ⟨turnId, hmem⟩
    simp at hmem
  | running cancel hall hrun => exact fun hleft => absurd hleft (not_hasLeft hall)
  | left cancel hall hrun => exact fun _ => by simp

/-- A turn registers before it does anything else. -/
theorem Phase.starts {h₁ h₂ : History} {x : Exchange Action Answer} {p : Task ChatResult}
    (hp : Phase serde req (h₁ ++ x :: h₂) p) (hx : ∀ turnId, x.action ≠ .register turnId) :
    ∃ cancel, ⟨.register req.turnId, cancel⟩ ∈ h₁ := by
  have hfirst : ∀ {cancel : Nat} {rest : History},
      h₁ ++ x :: h₂ = ⟨.register req.turnId, cancel⟩ :: rest →
      ∃ cancel, ⟨.register req.turnId, cancel⟩ ∈ h₁ := by
    intro cancel rest heq
    cases h₁ with
    | nil =>
      cases heq
      exact absurd rfl (hx _)
    | cons y h₁ =>
      cases heq
      exact ⟨cancel, List.mem_cons_self⟩
  generalize hh : h₁ ++ x :: h₂ = h at hp
  cases hp with
  | idle => simp at hh
  | running cancel hall hrun => exact hfirst hh
  | left cancel hall hrun => exact hfirst hh

theorem Phase.emits {h : History} {p : Task ChatResult} (hp : Phase serde req h p) {turnId : Text}
    {event : AgentEvent} {r : Unit} (hmem : ⟨.emit turnId event, r⟩ ∈ h) : turnId = req.turnId := by
  cases hp with
  | idle => simp at hmem
  | running cancel hall hrun =>
    rcases List.mem_cons.mp hmem with heq | hmem
    · cases heq
    · exact hall _ hmem
  | left cancel hall hrun =>
    rcases List.mem_cons.mp hmem with heq | hmem
    · cases heq
    · rcases List.mem_append.mp hmem with hmem | hmem
      · exact hall _ hmem
      · cases List.mem_singleton.mp hmem

/-- A turn that has returned went through its loop, which is all it looked and published. -/
theorem Phase.ended {h : History} {r : ChatResult} (hp : Phase serde req h (.ret r)) :
    Ended r h := by
  generalize hq : Process.ret r = q at hp
  cases hp with
  | idle => cases hq
  | @running cancel inner p hall hrun =>
    cases p with
    | ret r' => cases hq
    | act a k => cases hq
  | @left cancel inner r' hall hrun =>
    cases hq
    obtain ⟨hevents, hstatus⟩ := (runAgent_holds (req.ctx cancel) serde).result hrun
    exact ⟨by simpa using hevents, by simpa using hstatus⟩

end Phases

end Onisin.Agent
