import Onisin.Mem.Runs

/-!
The graph in memory against the files. Along runs without failures the trail stays empty,
and the incremental path absorbs exactly the events that a load would decode.
-/

set_option autoImplicit false

namespace Onisin.Mem
open Lib

theorem inRange_of_timeToNanos {t : DateTime} (h : timeToNanos t ≠ 0) : InRange t := by
  by_contra hr
  have hnone : timestampNanosOpt t = none := if_neg hr
  exact h (by rw [timeToNanos, hnone]; rfl)

theorem prepare_timesOk (s : Store) {now : DateTime} {ev : Event} (hnow : InRange now)
    (hclosed : ClosedOk ev.closedAt) : TimesOk (s.prepare now ev) := by
  refine ⟨?_, hclosed⟩
  show InRange (if timeToNanos ev.createdAt = 0 then now else ev.createdAt)
  split
  · exact hnow
  · rename_i h
    exact inRange_of_timeToNanos h

theorem loaded_eq {ev : Event} (h : TimesOk ev) (off : Nat) :
    ev.loaded off = { ev with fileOffset := UInt64.ofNat off } := by
  rw [Event.loaded, stored_eq h]

section
variable {s : Store} {E : Bytes} {recs : List IdxRecord} {old live : List Event}

theorem Store.Tracked.settled (h : s.Tracked E recs old [] [] [] live) : s.Settled recs old := by
  have hE : s.events.bytes = E := by
    have := h.events
    simpa [records] using this
  have hidx : s.idx.bytes = idxBytesOf recs := by
    have := h.trailing.idx
    simpa [Store.disk] using this
  obtain ⟨mb, hm, hmb, hr, hd⟩ := h.trailing.metaBin
  cases hmb
  refine ⟨hE ▸ h.trailing.indexed, hidx, ?_, ?_, h.header, hm, hr, hd⟩
  · rw [h.eventsBytes, hE]; simp [records]
  · rw [h.idxBytes, hidx, idxBytesOf_length]

/-- A successful append met no failure and fits. -/
theorem appendEvent_success (h : s.Tracked E recs old [] [] [] live) {now : DateTime}
    {fault : Option IoFault} {ev : Event} {id : UInt64}
    (hok : (s.appendEvent now fault ev).2 = .ok id) :
    Encodable (s.prepare now ev) s.vectorDim ∧
      s.eventsBytes + (s.recordOf now ev).length ≤ maxFileLen ∧
      (s.appendEvent now fault ev).1 =
        (s.tearIdx (s.prepare now ev) (s.recordOf now ev) idxRecordSize).commit (s.prepare now ev)
          s.eventsBytes := by
  by_cases hev : Encodable (s.prepare now ev) s.vectorDim
  · obtain ⟨hno, -⟩ | ⟨-, ⟨-, he⟩ | ⟨hfit, ⟨j, -, -, he⟩ | ⟨-, he⟩⟩⟩ :=
      appendEvent_cases s now fault ev (h.idxRoom hev)
    · exact absurd hev hno
    · rw [he] at hok; cases hok
    · rw [he] at hok; cases hok
    · exact ⟨hev, hfit, by rw [he]⟩
  · obtain ⟨e, he⟩ := appendEvent_rejected s now fault ev hev
    rw [he] at hok; cases hok

end

/-- States whose files hold no trail and whose graph is the one the files give. -/
def Proc.Refined : Proc → Prop
  | .running s => ∃ E recs old, s.Tracked E recs old [] [] [] old
  | .down d => d = .blank ∨ ∃ dim E recs old,
      d.Trailing dim (·.id = UInt64.ofNat (recs.length + 1)) E recs old [] [] [] ∧
        recs.map IdxRecord.eventId = upTo recs.length

/-- Successful steps: the clock reads a time that fits 64-bit nanoseconds, and closing
times survive the sentinel. -/
def Proc.StepOk (p : Proc) : Act → Prop
  | .append now fault ev => ∃ s id, p = .running s ∧ (s.appendEvent now fault ev).2 = .ok id ∧
      InRange now ∧ ClosedOk ev.closedAt
  | _ => True

theorem reopened_refined {d : Disk} (h : Proc.Refined (.down d)) (dim : UInt16) (now : DateTime) :
    (reopened d dim now).Refined := by
  obtain rfl | ⟨dim', E, recs, old, ht, hnum⟩ := h
  · obtain ⟨rep, ho⟩ := openOrCreate_blank dim now
    rw [reopened, ho]
    exact ⟨_, _, _, (fresh_settled dim now).tracked rfl rfl rfl⟩
  · obtain ⟨s, rep, ho, -, hs, hg, hn⟩ := ht.opensWith [] [] rfl (by simp)
      (Or.inl rfl) rfl dim now
    simp only [idxFrom, loadedFrom, List.append_nil] at hs hg hn
    rw [reopened, ho]
    exact ⟨_, _, _, hs.tracked hnum hg hn⟩

theorem step_refined (p : Proc) (a : Act) (h : p.Refined) (hok : p.StepOk a) : (p.step a).Refined := by
  have hdown : Proc.Refined (.down p.disk) := by
    cases p with
    | down d => exact h
    | running s =>
      obtain ⟨E, recs, old, ht⟩ := h
      have htr := ht.trailing
      rw [ht.next] at htr
      exact Or.inr ⟨_, _, _, _, htr, ht.numbered⟩
  cases a with
  | append now fault ev =>
    obtain ⟨s, id, rfl, hid, hnow, hclosed⟩ := hok
    obtain ⟨E, recs, old, ht⟩ := h
    obtain ⟨hev, hfit, he⟩ := appendEvent_success ht hid
    have hover : s.events.bytes.length ≤ s.eventsBytes + (s.recordOf now ev).length := by
      rw [ht.settled.eventsBytes]; omega
    have hnext := ht.commit hev hfit hover
    rw [← loaded_eq (prepare_timesOk s hnow hclosed)] at hnext
    show ∃ E recs old, (s.appendEvent now fault ev).1.Tracked E recs old [] [] [] old
    rw [he]
    exact ⟨_, _, _, hnext⟩
  | snapshot now =>
    cases p with
    | down d => exact h
    | running s =>
      obtain ⟨E, recs, old, ht⟩ := h
      exact ⟨_, _, _, ht.snapshot now⟩
  | crash => exact hdown
  | reopen dim now => exact reopened_refined hdown dim now

/-- In a store without a trail an append may fail anywhere. -/
theorem Proc.Refined.stepSafe {p : Proc} (h : p.Refined) (a : Act) : p.StepSafe a := by
  cases a with
  | append now fault ev =>
    rintro s rfl -
    obtain ⟨E, recs, old, ht⟩ := h
    obtain ⟨c, hok, hc⟩ := coveredEnd_eq ht.trailing.indexed s ht.trailing.idx ht.idxBytes
    have hend : s.eventsBytes = E.length := by simpa [records] using ht.eventsBytes
    have hover : s.events.bytes.length ≤ s.eventsBytes := Nat.le_of_eq ht.settled.eventsBytes.symm
    exact ⟨.inr (by omega), .inr (.inr ⟨c, hok, by omega⟩)⟩
  | snapshot now => trivial
  | crash => trivial
  | reopen dim now => trivial

theorem along_stepSafe {acts : List Act} (h : Along Proc.step Proc.StepOk (.down .blank) acts) :
    Along Proc.step Proc.StepSafe (.down .blank) acts :=
  h.weaken step_refined (fun _ a hp _ => hp.stepSafe a) (.inl rfl)

/-- Whatever successful steps led there, a running store is settled and holds what its files do. -/
theorem run_refined {acts : List Act} (h : Along Proc.step Proc.StepOk (.down .blank) acts)
    {s : Store} (hs : run Proc.step (.down .blank) acts = .running s) :
    ∃ E recs old, s.Tracked E recs old [] [] [] old := by
  have h0 : Proc.Refined (.down .blank) := Or.inl rfl
  have hinv := run_invariant step_refined h0 h
  rw [hs] at hinv
  exact hinv

/-- After any run of successful steps, loading the files rebuilds the graph and the next id
that the running store holds, and changes no file. -/
theorem graph_refines_files (acts : List Act)
    (h : Along Proc.step Proc.StepOk (.down .blank) acts) (s : Store)
    (hs : run Proc.step (.down .blank) acts = .running s) (dim : UInt16) (now : DateTime) :
    ∃ s' rep, Store.openOrCreate s.disk dim now = (s.disk, .ok (s', rep)) ∧
      s'.graph = s.graph ∧ s'.nextEventId = s.nextEventId := by
  obtain ⟨E, recs, old, ht⟩ := run_refined h hs
  obtain ⟨s', rep, ho, -, -, hg, hn, -⟩ := ht.settled.reopen dim now
  have hcount := ht.trailing.indexed.count_lt
  refine ⟨s', rep, ho, by rw [hg, ht.graph], ?_⟩
  rw [hn, ht.next, maxIdFrom_upTo (by omega) ht.numbered]
  exact (UInt64.ofNat_add recs.length 1).symm

/-! A run with two streams: the second event closes the first one and points at it, the third
points at the second, and the header is written between them. -/

instance (p : Proc) (a : Act) : Decidable (p.StepOk a) :=
  match p, a with
  | .running s, .append now fault ev =>
    match hres : (s.appendEvent now fault ev).2 with
    | .ok id => decidable_of_iff (InRange now ∧ ClosedOk ev.closedAt) (by simp [Proc.StepOk, hres])
    | .error e => isFalse (by simp [Proc.StepOk, hres])
  | .down _, .append _ _ _ => isFalse (by simp [Proc.StepOk])
  | _, .snapshot _ => isTrue trivial
  | _, .crash => isTrue trivial
  | _, .reopen _ _ => isTrue trivial

def sampleEvent (streamId : UInt64) (closedAt : Option DateTime) (refs : List Ref) : Event :=
  { blankEvent 0 with
    streamId := streamId
    createdAt := 0
    closedAt := closedAt
    refs := refs
    content := "opened"
    topic := "shelf"
    vector := [0x3f800000, 0] }

def sampleActs : List Act :=
  [.reopen 2 10, .append 20 none (sampleEvent 7 none []), .snapshot 30,
    .append 40 none (sampleEvent 7 (some 50) [⟨1, 1, 0⟩]),
    .append 60 none (sampleEvent 9 none [⟨2, 2, 0⟩])]

def Proc.store? : Proc → Option Store
  | .running s => some s
  | .down _ => none

def sampleStore : Store := (run Proc.step (.down .blank) sampleActs).store?.getD (.fresh 2 10)

theorem sampleActs_ok : Along Proc.step Proc.StepOk (.down .blank) sampleActs := by
  decide +kernel

theorem run_sampleActs : run Proc.step (.down .blank) sampleActs = .running sampleStore := by
  have hup : (run Proc.step (.down .blank) sampleActs).store?.isSome := by decide +kernel
  unfold sampleStore
  cases hrun : run Proc.step (.down .blank) sampleActs with
  | down d =>
    rw [hrun] at hup
    cases hup
  | running s => rfl

/-- A load finds the third event under its id, with the time, the place and the target's place
that the append filled in. -/
theorem graph_refines_files_sample :
    ∃ s rep, Store.openOrCreate sampleStore.disk 2 70 = (sampleStore.disk, .ok (s, rep)) ∧
      s.nextEventId = 4 ∧
      s.graph.byId[(3 : UInt64)]? = some { sampleEvent 9 none [⟨2, 2, 68⟩] with
        id := 3
        createdAt := 60
        fileOffset := 153 } := by
  obtain ⟨s, rep, hopen, hgraph, hnext⟩ := graph_refines_files _ sampleActs_ok _ run_sampleActs 2 70
  refine ⟨s, rep, hopen, ?_, ?_⟩
  · rw [hnext]
    decide +kernel
  · rw [hgraph]
    decide +kernel

end Onisin.Mem
