import Mathlib.Algebra.Ring.Nat
import Onisin.Lib.Dict
import Onisin.Lib.Json
import Onisin.Lib.Runs

/-!
The subscriptions of `watch_subject`. A call draws an id, spawns a task that forwards messages,
and then enters the task under the id; the task takes its own entry out when it ends. Between
two steps of one of them any other call or task may take its own. The map is only reached
under its lock, so reading and changing it is one step.
-/

set_option autoImplicit false

namespace Onisin.Bench
open Lib

structure WatchSubjectArgs where
  subject : Text
  maxMessages : Option Nat
  target : Option Text

def buildSubject (subject target : Text) : Text :=
  if target = [] then subject else target ++ ['.'] ++ subject

/-- `loaded` is the target of the session. -/
def WatchSubjectArgs.fullSubject (args : WatchSubjectArgs) (loaded : Text) : Text :=
  buildSubject args.subject ((args.target.map Text.trim).getD loaded)

/-- The counter is a 64-bit word that wraps. -/
def newSubscriptionId (millis counter : Nat) : Text :=
  "watch_".toList ++ Nat.toDigits 10 millis ++ ['_'] ++ Nat.toDigits 10 (counter % 2^64)

/-- The step a call is to take next. -/
inductive CallPhase where
  | subscribing
  | inserting
  | returned
  deriving DecidableEq, Repr

/-- `leaving`: past its loop, its entry not yet taken out. -/
inductive TaskPhase where
  | unborn
  | reading (count : Nat)
  | leaving
  | finished
  deriving DecidableEq, Repr

/-- A call and the task it spawns; the number of the call is also the task's handle. -/
structure Watch where
  id : Text
  subject : Text
  maxMessages : Nat
  call : CallPhase
  task : TaskPhase
  cancelled : Bool

/-- What a message is forwarded as; `payload` is its text, before it is read as JSON. -/
structure Envelope where
  subscriptionId : Text
  subject : Text
  messageIndex : Nat
  payload : Text

structure Server where
  counter : Nat
  subs : Dict Nat
  watches : List Watch
  forwarded : List Envelope

def Server.new : Server := ⟨0, [], [], []⟩

inductive Act where
  | call (args : WatchSubjectArgs) (loaded : Text) (millis : Nat)
  /-- No client, or no subscription: the call returns with the error. -/
  | fail (i : Nat)
  | spawn (i : Nat)
  | insert (i : Nat)
  | message (i : Nat) (text : Text)
  /-- There are no more messages on the subject. -/
  | close (i : Nat)
  | remove (i : Nat)
  /-- A task that was cancelled stops where it next waits. -/
  | stop (i : Nat)
  | unwatch (id : Text)

def Watch.fail (w : Watch) : Watch :=
  if w.call = .subscribing then { w with call := .returned } else w

def Watch.spawn (w : Watch) : Watch :=
  if w.call = .subscribing then { w with call := .inserting, task := .reading 0 } else w

/-- The message is counted and forwarded before the count is looked at. -/
def Watch.message (w : Watch) : Watch :=
  match w.task with
  | .reading count =>
    { w with task := if w.maxMessages ≤ count + 1 then .leaving else .reading (count + 1) }
  | _ => w

def Watch.envelope (w : Watch) (text : Text) : List Envelope :=
  match w.task with
  | .reading count => [⟨w.id, w.subject, count + 1, text⟩]
  | _ => []

def Watch.close (w : Watch) : Watch :=
  match w.task with
  | .reading _ => { w with task := .leaving }
  | _ => w

def Watch.stop (w : Watch) : Watch :=
  if w.cancelled = true ∧ w.task ≠ .unborn then { w with task := .finished } else w

def remove (subs : Dict Nat) (id : Text) : Dict Nat := subs.filter fun e => e.1 ≠ id

def Server.step (s : Server) : Act → Server
  | .call args loaded millis =>
    { s with
      counter := s.counter + 1
      watches := s.watches ++ [
        { id := newSubscriptionId millis s.counter
          subject := args.fullSubject loaded
          maxMessages := args.maxMessages.getD 1
          call := .subscribing
          task := .unborn
          cancelled := false }] }
  | .fail i => { s with watches := s.watches.modify i Watch.fail }
  | .spawn i => { s with watches := s.watches.modify i Watch.spawn }
  | .insert i =>
    match s.watches[i]? with
    | none => s
    | some w =>
      if w.call = .inserting then
        { s with
          subs := s.subs.insert w.id i
          watches := s.watches.modify i fun w => { w with call := .returned } }
      else s
  | .message i text =>
    { s with
      watches := s.watches.modify i Watch.message
      forwarded := s.forwarded ++ (s.watches[i]?).elim [] (·.envelope text) }
  | .close i => { s with watches := s.watches.modify i Watch.close }
  | .remove i =>
    match s.watches[i]? with
    | none => s
    | some w =>
      if w.task = .leaving then
        { s with
          subs := remove s.subs w.id
          watches := s.watches.modify i fun w => { w with task := .finished } }
      else s
  | .stop i => { s with watches := s.watches.modify i Watch.stop }
  | .unwatch id =>
    match s.subs.lookup id with
    | none => s
    | some i =>
      { s with
        subs := remove s.subs id
        watches := s.watches.modify i fun w => { w with cancelled := true } }

/-- What `unwatch_subject` answers. -/
def Server.unwatchReply (s : Server) (id : Text) : Json :=
  match s.subs.lookup id with
  | some _ =>
    .object [("ok".toList, .bool true), ("subscription_id".toList, .string id),
      ("unsubscribed".toList, .bool true)]
  | none =>
    .object [("ok".toList, .bool false),
      ("error".toList, .string ("subscription ".toList ++ id ++ " not found".toList))]

/-! Registered watches are live ones. -/

/-- Spawned, not finished and not cancelled. -/
def Watch.Live (w : Watch) : Prop := w.task ≠ .unborn ∧ w.task ≠ .finished ∧ w.cancelled = false

/-- Its id is taken: the call has drawn it and the task has not finished with it. -/
def Watch.InUse (w : Watch) : Prop :=
  w.call = .subscribing ∨ w.task ≠ .unborn ∧ w.task ≠ .finished

structure Server.Registered (s : Server) : Prop where
  apart : ∀ {i j : Nat} {w v : Watch}, s.watches[i]? = some w → s.watches[j]? = some v →
    w.InUse → v.InUse → w.id = v.id → i = j
  entries : ∀ (id : Text) (i : Nat), s.subs.lookup id = some i ↔
    ∃ w, s.watches[i]? = some w ∧ w.id = id ∧ w.call = .returned ∧ w.Live
  unborn : ∀ {i : Nat} {w : Watch}, s.watches[i]? = some w → w.call = .subscribing →
    w.task = .unborn ∧ w.cancelled = false
  inserting : ∀ {i : Nat} {w : Watch}, s.watches[i]? = some w → w.call = .inserting → w.Live

theorem Server.new_registered : Server.new.Registered := by
  constructor
  · intro i j w v hi
    simp [Server.new] at hi
  · intro id i
    simp [Server.new]
  · intro i w hi
    simp [Server.new] at hi
  · intro i w hi
    simp [Server.new] at hi

theorem getElem?_modify_some {ws : List Watch} {i j : Nat} {f : Watch → Watch} {w' : Watch}
    (h : (ws.modify i f)[j]? = some w') : ∃ w, ws[j]? = some w ∧ w' = if i = j then f w else w := by
  rw [List.getElem?_modify] at h
  cases hj : ws[j]? with
  | none => simp [hj] at h
  | some w =>
    rw [hj] at h
    exact ⟨w, rfl, (Option.some.inj h).symm⟩

/-- A change of one watch keeps what is said of watches if it does for the one it changes. -/
theorem Server.Registered.change {s s' : Server} (h : s.Registered) {i : Nat} {f : Watch → Watch}
    (hwatches : s'.watches = s.watches.modify i f) (hid : ∀ w, (f w).id = w.id)
    (huse : ∀ w, s.watches[i]? = some w → (f w).InUse → w.InUse)
    (hcall : ∀ w, s.watches[i]? = some w →
      ((f w).call = .subscribing → (f w).task = .unborn ∧ (f w).cancelled = false) ∧
      ((f w).call = .inserting → (f w).Live))
    (hentries : ∀ (id : Text) (j : Nat), s'.subs.lookup id = some j ↔
      ∃ w, s'.watches[j]? = some w ∧ w.id = id ∧ w.call = .returned ∧ w.Live) : s'.Registered := by
  have hold : ∀ {j : Nat} {w' : Watch}, s'.watches[j]? = some w' → ∃ w, s.watches[j]? = some w ∧
      w'.id = w.id ∧ (w'.InUse → w.InUse) := by
    intro j w' hj
    rw [hwatches] at hj
    obtain ⟨w, hw, rfl⟩ := getElem?_modify_some hj
    by_cases hij : i = j
    · subst hij
      rw [if_pos rfl]
      exact ⟨w, hw, hid w, huse w hw⟩
    · rw [if_neg hij]
      exact ⟨w, hw, rfl, fun hu => hu⟩
  refine ⟨?_, hentries, ?_, ?_⟩
  · intro j k w v hj hk hw hv heq
    obtain ⟨w₀, hw₀, hidw, huw⟩ := hold hj
    obtain ⟨v₀, hv₀, hidv, huv⟩ := hold hk
    exact h.apart hw₀ hv₀ (huw hw) (huv hv) (by rw [← hidw, ← hidv, heq])
  · intro j w' hj hc
    rw [hwatches] at hj
    obtain ⟨w, hw, rfl⟩ := getElem?_modify_some hj
    by_cases hij : i = j
    · subst hij
      rw [if_pos rfl] at hc ⊢
      exact (hcall w hw).1 hc
    · rw [if_neg hij] at hc ⊢
      exact h.unborn hw hc
  · intro j w' hj hc
    rw [hwatches] at hj
    obtain ⟨w, hw, rfl⟩ := getElem?_modify_some hj
    by_cases hij : i = j
    · subst hij
      rw [if_pos rfl] at hc ⊢
      exact (hcall w hw).2 hc
    · rw [if_neg hij] at hc ⊢
      exact h.inserting hw hc

/-- A change that leaves the map alone and touches no watch that is or becomes live and returned. -/
theorem Server.Registered.quiet {s s' : Server} (h : s.Registered) {i : Nat} {f : Watch → Watch}
    (hwatches : s'.watches = s.watches.modify i f) (hsubs : s'.subs = s.subs)
    (hid : ∀ w, (f w).id = w.id) (huse : ∀ w, s.watches[i]? = some w → (f w).InUse → w.InUse)
    (hcall : ∀ w, s.watches[i]? = some w →
      ((f w).call = .subscribing → (f w).task = .unborn ∧ (f w).cancelled = false) ∧
      ((f w).call = .inserting → (f w).Live))
    (hlive : ∀ w, s.watches[i]? = some w →
      ((f w).call = .returned ∧ (f w).Live ↔ w.call = .returned ∧ w.Live)) : s'.Registered := by
  refine h.change hwatches hid huse hcall fun id j => ?_
  rw [hsubs, h.entries, hwatches, List.getElem?_modify]
  cases hj : s.watches[j]? with
  | none => simp
  | some w =>
    by_cases hij : i = j
    · subst hij
      simp [hid, hlive w hj]
    · simp [hij]

/-! The steps that leave the map alone. -/

section
variable {s : Server} (h : s.Registered) (i : Nat)
include h

theorem registered_fail : (s.step (.fail i)).Registered := by
  refine h.quiet rfl rfl ?_ ?_ ?_ ?_
  · intro w
    rw [Watch.fail]
    split <;> rfl
  · intro w _ hu
    rw [Watch.fail] at hu
    split at hu
    · next hc => exact .inl hc
    · exact hu
  · intro w hw
    rw [Watch.fail]
    split
    · simp
    · exact ⟨h.unborn hw, h.inserting hw⟩
  · intro w hw
    rw [Watch.fail]
    split
    · next hc => simp [Watch.Live, (h.unborn hw hc).1]
    · rfl

theorem registered_spawn : (s.step (.spawn i)).Registered := by
  refine h.quiet rfl rfl ?_ ?_ ?_ ?_
  · intro w
    rw [Watch.spawn]
    split <;> rfl
  · intro w _ hu
    rw [Watch.spawn] at hu
    split at hu
    · next hc => exact .inl hc
    · exact hu
  · intro w hw
    rw [Watch.spawn]
    split
    · next hc => simp [Watch.Live, (h.unborn hw hc).2]
    · exact ⟨h.unborn hw, h.inserting hw⟩
  · intro w hw
    rw [Watch.spawn]
    split
    · next hc => simp [hc]
    · rfl

/-- A task that moves on within its loop or out of it is as live as before. -/
theorem registered_task {f : Watch → Watch} {s' : Server} (hsubs : s'.subs = s.subs)
    (hwatches : s'.watches = s.watches.modify i f)
    (hf : ∀ w, f w = w ∨ ∃ count task, w.task = .reading count ∧ task ≠ .unborn ∧ task ≠ .finished ∧
      f w = { w with task := task }) : s'.Registered := by
  refine h.quiet hwatches hsubs ?_ ?_ ?_ ?_
  · intro w
    rcases hf w with heq | ⟨count, task, -, -, -, heq⟩
    · rw [heq]
    · rw [heq]
  · intro w _ hu
    rcases hf w with heq | ⟨count, task, hr, -, -, heq⟩
    · rwa [heq] at hu
    · exact .inr (by simp [hr])
  · intro w hw
    rcases hf w with heq | ⟨count, task, hr, hborn, hfinished, heq⟩
    · rw [heq]
      exact ⟨h.unborn hw, h.inserting hw⟩
    · rw [heq]
      constructor
      · intro hc
        have hunborn := (h.unborn hw hc).1
        rw [hr] at hunborn
        cases hunborn
      · exact fun hc => ⟨hborn, hfinished, (h.inserting hw hc).2.2⟩
  · intro w hw
    rcases hf w with heq | ⟨count, task, hr, hborn, hfinished, heq⟩
    · rw [heq]
    · rw [heq]
      simp [Watch.Live, hr, hborn, hfinished]

theorem registered_message (text : Text) : (s.step (.message i text)).Registered := by
  refine registered_task h i rfl rfl fun w => ?_
  rw [Watch.message]
  cases ht : w.task with
  | unborn => exact .inl rfl
  | leaving => exact .inl rfl
  | finished => exact .inl rfl
  | reading count =>
    refine .inr ⟨count, _, rfl, ?_, ?_, rfl⟩
    · split <;> simp
    · split <;> simp

theorem registered_close : (s.step (.close i)).Registered := by
  refine registered_task h i rfl rfl fun w => ?_
  rw [Watch.close]
  cases ht : w.task with
  | unborn => exact .inl rfl
  | leaving => exact .inl rfl
  | finished => exact .inl rfl
  | reading count => exact .inr ⟨count, .leaving, rfl, by simp, by simp, rfl⟩

theorem registered_stop : (s.step (.stop i)).Registered := by
  refine h.quiet rfl rfl ?_ ?_ ?_ ?_
  · intro w
    rw [Watch.stop]
    split <;> rfl
  · intro w hw hu
    rw [Watch.stop] at hu
    split at hu
    · next hc =>
      rcases hu with hcall | hrun
      · exact .inl hcall
      · exact absurd rfl hrun.2
    · exact hu
  · intro w hw
    rw [Watch.stop]
    split
    · next hc =>
      constructor
      · exact fun hcall => absurd (h.unborn hw hcall).1 hc.2
      · intro hcall
        have hlive := (h.inserting hw hcall).2.2
        rw [hc.1] at hlive
        cases hlive
    · exact ⟨h.unborn hw, h.inserting hw⟩
  · intro w hw
    rw [Watch.stop]
    split
    · next hc => simp [Watch.Live, hc.1]
    · rfl

end

/-! The steps under the lock that change the map. -/

theorem lookup_remove (subs : Dict Nat) (id id' : Text) :
    List.lookup id' (remove subs id) = if id' = id then none else subs.lookup id' := by
  by_cases hid : id' = id
  · rw [if_pos hid, hid, ← Option.not_isSome_iff_eq_none, Dict.lookup_isSome_iff]
    intro hmem
    obtain ⟨e, he, heq⟩ := List.mem_map.mp hmem
    have hne := (List.mem_filter.mp he).2
    simp [heq] at hne
  · rw [if_neg hid, remove, Dict.lookup_filter_ne hid]

section
variable {s : Server} (h : s.Registered)
include h

theorem registered_insert (i : Nat) : (s.step (.insert i)).Registered := by
  rw [Server.step]
  cases hi : s.watches[i]? with
  | none => exact h
  | some w =>
    dsimp only
    by_cases hc : w.call = .inserting
    · rw [if_pos hc]
      have hlive := h.inserting hi hc
      refine h.change rfl (fun _ => rfl) (fun v hv hu => ?_) (fun v hv => by simp) fun id j => ?_
      · rcases hu with hcall | hrun
        · cases hcall
        · exact .inr hrun
      · dsimp only
        rw [Dict.lookup_insert, List.getElem?_modify]
        by_cases hij : i = j
        · subst hij
          rw [hi]
          by_cases hid : id = w.id
          · rw [if_pos hid]
            refine iff_of_true rfl ⟨_, rfl, ?_⟩
            dsimp only
            rw [if_pos rfl]
            exact ⟨hid.symm, rfl, hlive⟩
          · rw [if_neg hid, h.entries]
            refine iff_of_false ?_ ?_
            · rintro ⟨v, hv, rfl, -⟩
              rw [hi] at hv
              exact hid (congrArg Watch.id (Option.some.inj hv).symm)
            · rintro ⟨v, hv, hvid, -⟩
              simp only [if_true, Option.map_eq_map, Option.map_some, Option.some.injEq] at hv
              exact hid (by rw [← hvid, ← hv])
        · by_cases hid : id = w.id
          · rw [if_pos hid]
            refine iff_of_false (by simpa using hij) ?_
            rintro ⟨v, hv, hvid, -, hvlive⟩
            simp only [hij, if_false, Option.map_eq_map, Option.map_id'] at hv
            exact hij (h.apart hi hv (.inr ⟨hlive.1, hlive.2.1⟩) (.inr ⟨hvlive.1, hvlive.2.1⟩)
              (by rw [hvid, hid]))
          · rw [if_neg hid, h.entries]
            simp [hij]
    · rw [if_neg hc]
      exact h

/-- No watch with the id is live and returned once the one that was is not. -/
theorem Server.Registered.release {s' : Server} {i : Nat} {f : Watch → Watch} {w : Watch}
    (hi : s.watches[i]? = some w) (huse : w.InUse) (hwatches : s'.watches = s.watches.modify i f)
    (hsubs : s'.subs = remove s.subs w.id) (hdead : ∀ v, ¬ (f v).Live)
    (id : Text) (j : Nat) : s'.subs.lookup id = some j ↔
      ∃ v, s'.watches[j]? = some v ∧ v.id = id ∧ v.call = .returned ∧ v.Live := by
  rw [hsubs, hwatches, lookup_remove, List.getElem?_modify]
  by_cases hij : i = j
  · subst hij
    rw [hi]
    refine iff_of_false ?_ ?_
    · by_cases hw : id = w.id
      · simp [hw]
      · rw [if_neg hw, h.entries]
        rintro ⟨v, hv, rfl, -⟩
        rw [hi] at hv
        exact hw (congrArg Watch.id (Option.some.inj hv).symm)
    · rintro ⟨v, hv, -, -, hlive⟩
      simp only [if_true, Option.map_eq_map, Option.map_some, Option.some.injEq] at hv
      exact hdead w (hv ▸ hlive)
  · by_cases hw : id = w.id
    · rw [if_pos hw]
      refine iff_of_false (by simp) ?_
      rintro ⟨v, hv, hvid, -, hlive⟩
      simp only [hij, if_false, Option.map_eq_map, Option.map_id'] at hv
      exact hij (h.apart hi hv huse (.inr ⟨hlive.1, hlive.2.1⟩) (by rw [hvid, hw]))
    · rw [if_neg hw, h.entries]
      simp [hij]

/-- A task may take its entry out once its call has put it there. -/
theorem registered_remove (i : Nat)
    (hok : ∀ w, s.watches[i]? = some w → w.task = .leaving → w.call ≠ .inserting) :
    (s.step (.remove i)).Registered := by
  rw [Server.step]
  cases hi : s.watches[i]? with
  | none => exact h
  | some w =>
    dsimp only
    by_cases ht : w.task = .leaving
    · rw [if_pos ht]
      refine h.change rfl (fun _ => rfl) ?_ ?_ ?_
      · intro v hv hu
        rcases hu with hcall | hrun
        · exact .inl hcall
        · exact absurd rfl hrun.2
      · intro v hv
        rw [hi] at hv
        cases hv
        constructor
        · intro hcall
          have hunborn := (h.unborn hi hcall).1
          rw [ht] at hunborn
          cases hunborn
        · exact fun hcall => absurd hcall (hok w hi ht)
      · exact h.release hi (.inr (by simp [ht])) rfl rfl fun _ hlive => hlive.2.1 rfl
    · rw [if_neg ht]
      exact h

theorem registered_unwatch (id : Text) : (s.step (.unwatch id)).Registered := by
  rw [Server.step]
  cases hi : s.subs.lookup id with
  | none => exact h
  | some i =>
    dsimp only
    obtain ⟨w, hw, rfl, hcall, hlive⟩ := (h.entries _ _).mp hi
    refine h.change rfl (fun _ => rfl) (fun v hv hu => hu) ?_ ?_
    · intro v hv
      rw [hw] at hv
      cases hv
      simp [hcall]
    · refine h.release hw (.inr ⟨hlive.1, hlive.2.1⟩) rfl rfl fun _ hcancelled => ?_
      have hfalse := hcancelled.2.2
      cases hfalse

omit h in
/-- The watches after a call: those from before, and the one it has drawn an id for. -/
theorem watch_of_call {args : WatchSubjectArgs} {loaded : Text} {millis i : Nat} {w : Watch}
    (hi : (s.step (.call args loaded millis)).watches[i]? = some w) :
    s.watches[i]? = some w ∨ i = s.watches.length ∧ w.id = newSubscriptionId millis s.counter ∧
      w.call = .subscribing ∧ w.task = .unborn ∧ w.cancelled = false := by
  rw [Server.step, List.getElem?_append] at hi
  split at hi
  · exact .inl hi
  · next hge =>
    rw [List.getElem?_singleton] at hi
    split at hi
    · cases Option.some.inj hi
      exact .inr ⟨by omega, rfl, rfl, rfl, rfl⟩
    · cases hi

theorem registered_call (args : WatchSubjectArgs) (loaded : Text) (millis : Nat)
    (hfresh : ∀ w ∈ s.watches, w.InUse → w.id ≠ newSubscriptionId millis s.counter) :
    (s.step (.call args loaded millis)).Registered := by
  refine ⟨?_, ?_, ?_, ?_⟩
  · intro i j w v hi hj hw hv heq
    rcases watch_of_call hi with hi | ⟨hi, hwid, -⟩
    · rcases watch_of_call hj with hj | ⟨hj, hvid, -⟩
      · exact h.apart hi hj hw hv heq
      · exact absurd (heq.trans hvid) (hfresh w (List.mem_of_getElem? hi) hw)
    · rcases watch_of_call hj with hj | ⟨hj, hvid, -⟩
      · exact absurd (heq.symm.trans hwid) (hfresh v (List.mem_of_getElem? hj) hv)
      · rw [hi, hj]
  · intro id i
    refine (h.entries id i).trans ⟨?_, ?_⟩
    · rintro ⟨w, hw, hrest⟩
      refine ⟨w, ?_, hrest⟩
      have hlt := (List.getElem?_eq_some_iff.mp hw).1
      rw [Server.step, List.getElem?_append_left hlt, hw]
    · rintro ⟨w, hw, hid, hcall, hlive⟩
      rcases watch_of_call hw with hw | ⟨-, -, hsub, -⟩
      · exact ⟨w, hw, hid, hcall, hlive⟩
      · rw [hsub] at hcall
        cases hcall
  · intro i w hi hcall
    rcases watch_of_call hi with hi | ⟨-, -, -, hunborn⟩
    · exact h.unborn hi hcall
    · exact hunborn
  · intro i w hi hcall
    rcases watch_of_call hi with hi | ⟨-, -, hsub, -⟩
    · exact h.inserting hi hcall
    · rw [hsub] at hcall
      cases hcall

end

/-! Whole runs. -/

/-- No task takes its entry out before its call has put it there, and no id is drawn that is
still in use. -/
def Server.StepOk (s : Server) : Act → Prop
  | .call _ _ millis => ∀ w ∈ s.watches, w.InUse → w.id ≠ newSubscriptionId millis s.counter
  | .remove i => ∀ w, s.watches[i]? = some w → w.task = .leaving → w.call ≠ .inserting
  | _ => True

theorem step_registered (s : Server) (a : Act) (h : s.Registered) (hok : s.StepOk a) :
    (s.step a).Registered := by
  cases a with
  | call args loaded millis => exact registered_call h args loaded millis hok
  | fail i => exact registered_fail h i
  | spawn i => exact registered_spawn h i
  | insert i => exact registered_insert h i
  | message i text => exact registered_message h i text
  | close i => exact registered_close h i
  | remove i => exact registered_remove h i hok
  | stop i => exact registered_stop h i
  | unwatch id => exact registered_unwatch h id

/-- No call is in progress. -/
def Server.Idle (s : Server) : Prop := ∀ w ∈ s.watches, w.call = .returned

def Server.Unsubscribes (s : Server) (id : Text) : Prop :=
  (s.unwatchReply id).get "unsubscribed".toList = some (.bool true)

/-- While no call is in progress the ids of the map are those of the live watches, and at no
time is a watch reported as cancelled that was not live. -/
structure Server.Matches (s : Server) : Prop where
  idle : s.Idle → ∀ id, (s.subs.lookup id).isSome ↔ ∃ w ∈ s.watches, w.id = id ∧ w.Live
  reported : ∀ id, s.Unsubscribes id → ∃ w ∈ s.watches, w.id = id ∧ w.Live

theorem unsubscribes_iff {s : Server} {id : Text} : s.Unsubscribes id ↔ (s.subs.lookup id).isSome := by
  rw [Server.Unsubscribes, Server.unwatchReply]
  cases s.subs.lookup id with
  | none => simp [Json.get]
  | some i => simp [Json.get]

theorem Server.Registered.matches {s : Server} (h : s.Registered) : s.Matches := by
  have hlive : ∀ id, (s.subs.lookup id).isSome → ∃ w ∈ s.watches, w.id = id ∧ w.Live := by
    intro id hsome
    obtain ⟨i, hi⟩ := Option.isSome_iff_exists.mp hsome
    obtain ⟨w, hw, hid, -, hlive⟩ := (h.entries id i).mp hi
    exact ⟨w, List.mem_of_getElem? hw, hid, hlive⟩
  constructor
  case idle =>
    refine fun hidle id => ⟨hlive id, ?_⟩
    rintro ⟨w, hw, hid, hwlive⟩
    obtain ⟨i, hi⟩ := List.getElem?_of_mem hw
    exact Option.isSome_iff_exists.mpr ⟨i, (h.entries id i).mpr ⟨w, hi, hid, hidle w hw, hwlive⟩⟩
  case reported => exact fun id hun => hlive id (unsubscribes_iff.mp hun)

/-- In a run in which no task overtakes its call, the map and the live watches match. -/
theorem watches_match (acts : List Act) (h : Along Server.step Server.StepOk Server.new acts) :
    (run Server.step Server.new acts).Matches :=
  (run_invariant step_registered Server.new_registered h).matches

/-- One call, cancelled before its message comes. -/
theorem watches_match_cancelled :
    Along Server.step Server.StepOk Server.new
        [.call ⟨['a'], none, none⟩ [] 0, .spawn 0, .insert 0, .unwatch (newSubscriptionId 0 0)] ∧
      (run Server.step Server.new
        [.call ⟨['a'], none, none⟩ [] 0, .spawn 0, .insert 0,
          .unwatch (newSubscriptionId 0 0)]).Matches := by
  have h : Along Server.step Server.StepOk Server.new
      [.call ⟨['a'], none, none⟩ [] 0, .spawn 0, .insert 0, .unwatch (newSubscriptionId 0 0)] :=
    ⟨fun w hw => absurd hw List.not_mem_nil, trivial, trivial, trivial, trivial⟩
  exact ⟨h, watches_match _ h⟩

/-- The one message comes, and the task ends, before the call has entered it. -/
def overtaken : List Act :=
  [.call ⟨['a'], none, none⟩ [] 0, .spawn 0, .message 0 ['m'], .remove 0, .insert 0]

/-- The entry stays behind, and is later reported as a watch that was cancelled. -/
theorem overtaken_stays :
    (run Server.step Server.new overtaken).Idle ∧
      (run Server.step Server.new overtaken).Unsubscribes (newSubscriptionId 0 0) ∧
      ¬ (run Server.step Server.new overtaken).Matches := by
  have hend : run Server.step Server.new overtaken =
      ⟨1, [(newSubscriptionId 0 0, 0)],
        [⟨newSubscriptionId 0 0, ['a'], 1, .returned, .finished, false⟩],
        [⟨newSubscriptionId 0 0, ['a'], 1, ['m']⟩]⟩ := rfl
  have hidle : (run Server.step Server.new overtaken).Idle := by
    simp [hend, Server.Idle]
  have hun : (run Server.step Server.new overtaken).Unsubscribes (newSubscriptionId 0 0) := by
    rw [unsubscribes_iff, hend]
    simp
  refine ⟨hidle, hun, fun h => ?_⟩
  obtain ⟨w, hw, -, hlive⟩ := h.reported _ hun
  rw [hend] at hw
  rw [List.mem_singleton.mp hw] at hlive
  exact hlive.2.1 rfl

/-- A task that has overtaken its call spoils the map as soon as the call enters it. -/
theorem overtaking_spoils {s : Server} (h : s.Registered) {i : Nat} {w : Watch}
    (hi : s.watches[i]? = some w) (ht : w.task = .leaving) (hc : w.call = .inserting) :
    ¬ (run Server.step s [.remove i, .insert i]).Matches := by
  have hfirst : s.step (.remove i) = { s with
      subs := remove s.subs w.id
      watches := s.watches.modify i fun w => { w with task := .finished } } := by
    rw [Server.step, hi]
    exact if_pos ht
  have hat : (s.watches.modify i fun w => { w with task := TaskPhase.finished })[i]? =
      some { w with task := .finished } := by
    rw [List.getElem?_modify, hi]
    simp
  have hend : run Server.step s [.remove i, .insert i] = { s with
      subs := (remove s.subs w.id).insert w.id i
      watches := (s.watches.modify i fun w => { w with task := .finished }).modify i
        fun w => { w with call := .returned } } := by
    rw [run, List.foldl_cons, List.foldl_cons, List.foldl_nil, hfirst, Server.step, hat]
    exact if_pos hc
  intro hmatches
  have hun : (run Server.step s [.remove i, .insert i]).Unsubscribes w.id := by
    rw [unsubscribes_iff, hend, Dict.lookup_insert, if_pos rfl]
    rfl
  obtain ⟨v', hmem, hid, hlive⟩ := hmatches.reported w.id hun
  obtain ⟨j, hj⟩ := List.getElem?_of_mem hmem
  rw [hend] at hj
  obtain ⟨v₁, hj₁, rfl⟩ := getElem?_modify_some hj
  obtain ⟨v, hv, rfl⟩ := getElem?_modify_some hj₁
  by_cases hij : i = j
  · simp only [hij, if_true] at hlive
    exact hlive.2.1 rfl
  · simp only [hij, if_false] at hid hlive
    exact hij (h.apart hi hv (.inr (by simp [ht])) (.inr ⟨hlive.1, hlive.2.1⟩) hid.symm)

/-! Ids are in use twice only after the counter has wrapped. -/

theorem stamped_inj {pre : Text} {m n m' n' : Nat}
    (h : pre ++ Nat.toDigits 10 m ++ ['_'] ++ Nat.toDigits 10 n =
      pre ++ Nat.toDigits 10 m' ++ ['_'] ++ Nat.toDigits 10 n') : n = n' := by
  have hspan : ∀ k t, (Nat.toDigits 10 k ++ '_' :: t).span (· != '_') = (Nat.toDigits 10 k, '_' :: t) := by
    intro k t
    refine span_append (fun c hc => bne_iff_ne.mpr fun heq => ?_) (by simp)
    rw [heq] at hc
    exact Nat.underscore_not_in_toDigits hc
  simp only [List.append_assoc, List.append_cancel_left_eq, List.singleton_append] at h
  have hrest := congrArg (fun t => (t.span (· != '_')).2) h
  simp only [hspan, List.cons.injEq, true_and] at hrest
  have hvalue := congrArg (fun t => Nat.ofDigitChars 10 t 0) hrest
  simpa only [Nat.ofDigitChars_ten_toDigits] using hvalue

theorem newSubscriptionId_inj {m n m' n' : Nat} (h : newSubscriptionId m n = newSubscriptionId m' n') :
    n % 2^64 = n' % 2^64 := stamped_inj h

/-- Every id was drawn with a count below the next one. -/
def Server.Numbered (s : Server) : Prop :=
  ∀ id ∈ s.watches.map Watch.id, ∃ millis n, n < s.counter ∧ id = newSubscriptionId millis n

theorem map_id_modify {ws : List Watch} {i : Nat} {f : Watch → Watch} (hf : ∀ w, (f w).id = w.id) :
    (ws.modify i f).map Watch.id = ws.map Watch.id := by
  refine List.ext_getElem? fun j => ?_
  rw [List.getElem?_map, List.getElem?_map, List.getElem?_modify]
  cases ws[j]? with
  | none => rfl
  | some w =>
    by_cases hij : i = j
    · simp [hij, hf]
    · simp [hij]

theorem step_ids (s : Server) (a : Act) :
    ((s.step a).watches.map Watch.id = s.watches.map Watch.id ∧ (s.step a).counter = s.counter) ∨
      ∃ millis, (s.step a).watches.map Watch.id =
        s.watches.map Watch.id ++ [newSubscriptionId millis s.counter] ∧
        (s.step a).counter = s.counter + 1 := by
  cases a with
  | call args loaded millis => exact .inr ⟨millis, by simp [Server.step], rfl⟩
  | fail i =>
    refine .inl ⟨map_id_modify fun w => ?_, rfl⟩
    rw [Watch.fail]
    split <;> rfl
  | spawn i =>
    refine .inl ⟨map_id_modify fun w => ?_, rfl⟩
    rw [Watch.spawn]
    split <;> rfl
  | insert i =>
    rw [Server.step]
    split
    · exact .inl ⟨rfl, rfl⟩
    · split
      · exact .inl ⟨map_id_modify fun _ => rfl, rfl⟩
      · exact .inl ⟨rfl, rfl⟩
  | message i text =>
    refine .inl ⟨map_id_modify fun w => ?_, rfl⟩
    rw [Watch.message]
    split <;> rfl
  | close i =>
    refine .inl ⟨map_id_modify fun w => ?_, rfl⟩
    rw [Watch.close]
    split <;> rfl
  | remove i =>
    rw [Server.step]
    split
    · exact .inl ⟨rfl, rfl⟩
    · split
      · exact .inl ⟨map_id_modify fun _ => rfl, rfl⟩
      · exact .inl ⟨rfl, rfl⟩
  | stop i =>
    refine .inl ⟨map_id_modify fun w => ?_, rfl⟩
    rw [Watch.stop]
    split <;> rfl
  | unwatch id =>
    rw [Server.step]
    split
    · exact .inl ⟨rfl, rfl⟩
    · exact .inl ⟨map_id_modify fun _ => rfl, rfl⟩

theorem step_numbered (s : Server) (a : Act) (h : s.Numbered) : (s.step a).Numbered := by
  rcases step_ids s a with ⟨hids, hcounter⟩ | ⟨millis, hids, hcounter⟩
  · rwa [Server.Numbered, hids, hcounter]
  · rw [Server.Numbered, hids, hcounter]
    intro id hid
    rcases List.mem_append.mp hid with hid | hid
    · obtain ⟨m, n, hn, heq⟩ := h id hid
      exact ⟨m, n, by omega, heq⟩
    · exact ⟨millis, s.counter, by omega, List.mem_singleton.mp hid⟩

/-- Until 2⁶⁴ calls were made, every id drawn is a new one, whatever the clock says. -/
theorem drawn_unused (acts : List Act) (millis : Nat)
    (hcount : (run Server.step Server.new acts).counter < 2^64) :
    ∀ w ∈ (run Server.step Server.new acts).watches,
      w.id ≠ newSubscriptionId millis (run Server.step Server.new acts).counter := by
  have hnew : Server.new.Numbered := fun id hid => absurd hid List.not_mem_nil
  intro w hw heq
  obtain ⟨m, n, hn, hid⟩ := run_keeps step_numbered hnew acts w.id (List.mem_map_of_mem hw)
  have hmod := newSubscriptionId_inj (hid.symm.trans heq)
  rw [Nat.mod_eq_of_lt hcount, Nat.mod_eq_of_lt (by omega)] at hmod
  omega

end Onisin.Bench
