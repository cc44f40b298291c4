import Mathlib.Logic.Function.Basic
import Onisin.Lib.Runs
import Onisin.Agent.Transcript

/-!
The agent service: chat turns running side by side over one table of cancel flags, with cancel
requests arriving at any moment. The log records what happened, in order.
-/

set_option autoImplicit false

namespace Onisin.Agent
open Lib

def DEFAULT_TOP_HITS : Nat := 10

structure ChatReq where
  turnId : Text
  topHits : Option Nat := none
  history : List Message := []
  user : Text
  userRole : Text := []
  username : Text := []
  viewHint : Option Text := none

def ChatReq.ctx (req : ChatReq) (cancel : Nat) : AgentCtx :=
  ⟨req.turnId, req.userRole, req.username, req.viewHint, req.topHits.getD DEFAULT_TOP_HITS, cancel⟩

def register (turnId : Text) : Task Nat := perform (.register turnId)

def deregister (turnId : Text) : Task Unit := perform (.deregister turnId)

def runChat (serde : SerdeJson) (req : ChatReq) : Task ChatResult := do
  let cancel ← register req.turnId
  let result ← runAgent serde (req.ctx cancel) req.history req.user
  deregister req.turnId
  return result

structure Turn where
  req : ChatReq
  task : Task ChatResult

inductive Entry where
  | start (req : ChatReq)
  | act (i : Nat) (x : Exchange Action Answer)
  | cancel (turnId : Text) (answer : Bool)

/-- `cancels` maps a turn's id to its flag; `flags` holds the flags themselves. -/
structure Server where
  cancels : Text → Option Nat := fun _ => none
  flags : List Bool := []
  turns : List Turn := []
  log : List Entry := []

def Server.runCancel (s : Server) (turnId : Text) : Server × Bool :=
  match s.cancels turnId with
  | some flag => ({ s with flags := s.flags.set flag true }, true)
  | none => (s, false)

/-- One action of a turn: the flags answer for themselves, `o` for everything outside. -/
def Server.perform (o : (a : Action) → Answer a) (s : Server) : (a : Action) → Answer a × Server
  | .register turnId =>
    (s.flags.length, { s with
      flags := s.flags ++ [false],
      cancels := Function.update s.cancels turnId (some s.flags.length) })
  | .deregister turnId => ((), { s with cancels := Function.update s.cancels turnId none })
  | .aborted cancel => (s.flags.getD cancel false, s)
  | .emit _ _ => ((), s)
  | .request subject payload => (o (.request subject payload), s)
  | .chatCompletion messages => (o (.chatCompletion messages), s)

inductive Command where
  | start (req : ChatReq)
  | turn (i : Nat) (o : (a : Action) → Answer a)
  | cancel (turnId : Text)

/-- A turn that has ended, or was never started, has no step to take. -/
def step (serde : SerdeJson) (s : Server) : Command → Server
  | .start req =>
    { s with turns := s.turns ++ [⟨req, runChat serde req⟩], log := s.log ++ [.start req] }
  | .turn i o =>
    match s.turns[i]? with
    | some ⟨req, .act a k⟩ =>
      let (answer, s') := s.perform o a
      { s' with turns := s.turns.set i ⟨req, k answer⟩, log := s.log ++ [.act i ⟨a, answer⟩] }
    | _ => s
  | .cancel turnId =>
    let (s', answer) := s.runCancel turnId
    { s' with log := s.log ++ [.cancel turnId answer] }

/-! What a log tells. -/

def Entry.of (i : Nat) : Entry → Option (Exchange Action Answer)
  | .act j x => if j = i then some x else none
  | _ => none

/-- What turn `i` did. -/
def history (i : Nat) (log : List Entry) : History := log.filterMap (Entry.of i)

def Entry.acknowledges (turnId : Text) : Entry → Bool
  | .cancel turnId' answer => turnId' = turnId && answer
  | _ => false

/-- A cancel of the turn was answered with `cancelled: true`. -/
def acknowledged (log : List Entry) (turnId : Text) : Bool := log.any (Entry.acknowledges turnId)

def Entry.event (turnId : Text) : Entry → Option AgentEvent
  | .act _ ⟨.emit turnId' event, _⟩ => if turnId' = turnId then some event else none
  | _ => none

/-- What was published on the event subject of a turn. -/
def eventStream (turnId : Text) (log : List Entry) : List AgentEvent :=
  log.filterMap (Entry.event turnId)

/-- Some turn has registered under the id and not deregistered. -/
def InProgress (log : List Entry) (turnId : Text) : Prop :=
  ∃ i, (∃ cancel, ⟨.register turnId, cancel⟩ ∈ history i log) ∧
    ⟨.deregister turnId, ()⟩ ∉ history i log

/-- Turn `i` looked at its flag after a cancel of it had been acknowledged. -/
def LookedAfterCancel (log : List Entry) (i : Nat) (turnId : Text) : Prop :=
  ∃ pre cancel b post, log = pre ++ .act i ⟨.aborted cancel, b⟩ :: post ∧
    acknowledged pre turnId = true

/-- The turn has come to `r` as a cancelled one: its trace says so, and its event stream closes
with the cancellation and the notice that goes with it. -/
def EndsCancelled (log : List Entry) (turnId : Text) (r : ChatResult) : Prop :=
  r.trace.status = .cancelled ∧
    ∃ es, eventStream turnId log = es ++ [.cancelled, .assistantMessage r.text]

end Onisin.Agent
