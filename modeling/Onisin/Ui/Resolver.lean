import Mathlib.Data.List.Basic
import Onisin.Lib.Json
import Onisin.Lib.Runs

/-!
The index of domains and views that the input is matched against. Every call of
`loadResolverIndex` that does not find it ready sends its own requests, and what they answer
replaces what is there.
-/

set_option autoImplicit false

namespace Onisin.Ui.Resolver
open Lib

inductive ResolverState where
  | loading
  | ready (domains views : List Json)
  | error (message : Text)

/-- A reply of the seam, with what `JSON.parse` makes of its text or the message it throws. -/
structure Reply where
  json : Except Text Json
  error : Option Text := none

/-- The await a call of `loadResolverIndex` is at. -/
inductive Load where
  | settings
  | requests

structure Session where
  state : ResolverState := .loading
  loads : List Load := []

def ResolverState.isReady : ResolverState → Bool
  | .ready _ _ => true
  | _ => false

def ResolverState.isLoading : ResolverState → Bool
  | .loading => true
  | _ => false

/-! What the two replies come to. -/

/-- An empty error is no error. -/
def failed (path : Text) (reply : Reply) : Except Text Unit :=
  match reply.error with
  | some (c :: cs) => .error (path ++ ": ".toList ++ c :: cs)
  | _ => .ok ()

/-- Reading a key throws on null; anything that is not an array counts as an empty one. -/
def readList (key : Text) : Json → Except Text (List Json)
  | .null => .error ("Cannot read properties of null (reading '".toList ++ key ++ "')".toList)
  | v => .ok ((v.getArray key).getD [])

def readIndex (domainsRes viewsRes : Reply) : Except Text (List Json × List Json) := do
  failed "/domains".toList domainsRes
  failed "/views".toList viewsRes
  let domainsJson ← domainsRes.json
  let viewsJson ← viewsRes.json
  let domains ← readList "domains".toList domainsJson
  let views ← readList "views".toList viewsJson
  return (domains, views)

def finished (domainsRes viewsRes : Reply) : ResolverState :=
  match readIndex domainsRes viewsRes with
  | .ok (domains, views) => .ready domains views
  | .error message => .error message

/-! The session. -/

inductive Action where
  /-- The load of the application's start, or any other call. -/
  | load
  /-- A component that uses the resolver is mounted. -/
  | mount
  | settings (i : Nat)
  | answered (i : Nat) (domainsRes viewsRes : Reply)

def Session.loadResolverIndex (s : Session) : Session :=
  if s.state.isReady then s else { s with loads := s.loads ++ [.settings] }

def Session.step (s : Session) : Action → Session
  | .load => s.loadResolverIndex
  | .mount => if s.state.isLoading then s.loadResolverIndex else s
  | .settings i =>
    match s.loads[i]? with
    | some .settings => { s with loads := s.loads.set i .requests }
    | _ => s
  | .answered i domainsRes viewsRes =>
    match s.loads[i]? with
    | some .requests =>
      { state := finished domainsRes viewsRes, loads := s.loads.eraseIdx i }
    | _ => s

def after (acts : List Action) : Session := run Session.step {} acts

/-- Once there is an index, it stays as it is. -/
def StaysReady (acts : List Action) : Prop :=
  ∀ pre mid post domains views, acts = pre ++ mid ++ post →
    (after pre).state = .ready domains views → (after (pre ++ mid)).state = .ready domains views

/-- A call while a load is in flight changes nothing. -/
def LoadsOnce (acts : List Action) : Prop :=
  ∀ pre a post, acts = pre ++ a :: post → (a = .load ∨ a = .mount) → (after pre).loads ≠ [] →
    after (pre ++ [a]) = after pre

/-- The action calls `loadResolverIndex`, and the call gets past its guard. -/
def Session.passesGuard (s : Session) : Action → Bool
  | .load => !s.state.isReady
  | .mount => s.state.isLoading
  | .settings _ | .answered _ _ _ => false

/-- No call gets past the guard while a load is in flight. -/
def OneLoad (s : Session) (a : Action) : Prop := s.passesGuard a = true → s.loads = []

variable {s : Session} {a : Action}

/-! One load at a time. -/

/-- At most one load is in flight, and none once there is an index. -/
structure Single (s : Session) : Prop where
  one : s.loads.length ≤ 1
  unready : s.loads ≠ [] → s.state.isReady = false

theorem single_start : Single {} where
  one := Nat.zero_le _
  unready := fun h => absurd rfl h

theorem loadResolverIndex_of_ready (h : s.state.isReady = true) : s.loadResolverIndex = s := if_pos h

theorem Single.loadResolverIndex (h : s.state.isReady = false → s.loads = []) (hs : Single s) :
    Single s.loadResolverIndex := by
  cases hready : s.state.isReady with
  | true => rwa [loadResolverIndex_of_ready hready]
  | false =>
    rw [Session.loadResolverIndex, hready, h hready]
    exact ⟨Nat.le_refl _, fun _ => hready⟩

theorem Single.step (hs : Single s) (h : OneLoad s a) : Single (s.step a) := by
  cases a with
  | load =>
    refine hs.loadResolverIndex fun hready => h ?_
    rw [Session.passesGuard, hready]
    rfl
  | mount =>
    rw [Session.step]
    split
    · next hloading => exact hs.loadResolverIndex fun _ => h hloading
    · exact hs
  | settings i =>
    rw [Session.step]
    split
    · next hload =>
      refine ⟨by simpa using hs.one, fun _ => hs.unready ?_⟩
      exact List.ne_nil_of_mem (List.mem_of_getElem? hload)
    · exact hs
  | answered i domainsRes viewsRes =>
    rw [Session.step]
    split
    · next hload =>
      -- the load that answers was the only one
      have hlast : s.loads.eraseIdx i = [] := by
        have hi := (List.getElem?_eq_some_iff.mp hload).1
        have hone := hs.one
        rw [List.eq_nil_iff_length_eq_zero, List.length_eraseIdx_of_lt hi]
        omega
      exact ⟨by simp [hlast], fun hne => absurd hlast hne⟩
    · exact hs

/-- With one load at most, nothing is left that could replace an index. -/
theorem Single.ready_step (hs : Single s) {domains views : List Json}
    (h : s.state = .ready domains views) (a : Action) : s.step a = s := by
  have hready : s.state.isReady = true := by rw [h]; rfl
  have hnone : s.loads = [] := by
    by_contra hne
    rw [hs.unready hne] at hready
    cases hready
  cases a with
  | load => exact loadResolverIndex_of_ready hready
  | mount => rw [Session.step, h]; rfl
  | settings i => rw [Session.step, hnone]; rfl
  | answered i domainsRes viewsRes => rw [Session.step, hnone]; rfl

theorem passesGuard_loads (h : s.passesGuard a = true) : (s.step a).loads = s.loads ++ [.settings] := by
  cases a with
  | load =>
    have hready : s.state.isReady = false := by simpa [Session.passesGuard] using h
    rw [Session.step, Session.loadResolverIndex, hready]
    rfl
  | mount =>
    have hloading : s.state.isLoading = true := h
    have hready : s.state.isReady = false := by
      cases hstate : s.state with
      | ready domains views => rw [hstate] at hloading; cases hloading
      | loading => rfl
      | error message => rfl
    rw [Session.step, if_pos hloading, Session.loadResolverIndex, hready]
    rfl
  | settings i => cases h
  | answered i domainsRes viewsRes => cases h

/-- A call that the guard stops does nothing. -/
theorem step_of_stopped (hcall : a = .load ∨ a = .mount) (h : s.passesGuard a = false) :
    s.step a = s := by
  rcases hcall with rfl | rfl
  · exact loadResolverIndex_of_ready (by simpa [Session.passesGuard] using h)
  · exact if_neg (by simpa [Session.passesGuard] using h)

theorem after_snoc (pre : List Action) (a : Action) : after (pre ++ [a]) = (after pre).step a :=
  run_append ..

theorem passes_or (h : s.passesGuard a = true) : a = .load ∨ a = .mount := by
  cases a with
  | load => exact .inl rfl
  | mount => exact .inr rfl
  | settings i => cases h
  | answered i domainsRes viewsRes => cases h

theorem loadsOnce_iff (acts : List Action) :
    LoadsOnce acts ↔ Along Session.step OneLoad {} acts := by
  rw [along_iff]
  constructor
  · intro h pre a post hsplit (hpass : (after pre).passesGuard a = true)
    by_contra hne
    have hsame := h pre a post hsplit (passes_or hpass) hne
    rw [after_snoc] at hsame
    have hloads := congrArg Session.loads hsame
    rw [passesGuard_loads hpass] at hloads
    simp at hloads
  · intro h pre a post hsplit hcall hne
    have hloads : (after pre).passesGuard a = true → (after pre).loads = [] := h pre a post hsplit
    have hstopped : (after pre).passesGuard a = false := by
      by_contra hpass
      exact hne (hloads (by simpa using hpass))
    rw [after_snoc, step_of_stopped hcall hstopped]

theorem staysReady_of_oneLoad {acts : List Action} (h : Along Session.step OneLoad {} acts) :
    StaysReady acts := by
  intro pre mid post domains views hsplit hready
  rw [hsplit, along_append, along_append] at h
  obtain ⟨⟨hpre, hmid⟩, -⟩ := h
  have hstep : ∀ s a, (Single s ∧ s.state = .ready domains views) → OneLoad s a →
      Single (s.step a) ∧ (s.step a).state = .ready domains views := by
    rintro s a ⟨hs, hstate⟩ -
    rw [hs.ready_step hstate a]
    exact ⟨hs, hstate⟩
  have hsingle : Single (after pre) := run_invariant (fun _ _ hs hc => hs.step hc) single_start hpre
  rw [after, run_append]
  exact (run_invariant hstep ⟨hsingle, hready⟩ hmid).2

/-- The index stays and calls under way are not doubled, exactly in the runs where no call gets
past the guard while a load is in flight. -/
theorem stays_loaded_iff (acts : List Action) :
    (StaysReady acts ∧ LoadsOnce acts) ↔ Along Session.step OneLoad {} acts := by
  constructor
  · exact fun h => (loadsOnce_iff acts).mp h.2
  · exact fun h => ⟨staysReady_of_oneLoad h, (loadsOnce_iff acts).mpr h⟩

/-- Both calls find no index; the second one's failure replaces the first one's index. -/
theorem second_load_fails : ¬ ∀ acts, StaysReady acts ∧ LoadsOnce acts := by
  intro hall
  let domains : Reply := ⟨.ok (.object [("domains".toList, .array [])]), none⟩
  let views : Reply := ⟨.ok (.object [("views".toList, .array [])]), none⟩
  let offline : Reply := ⟨.error [], some "offline".toList⟩
  let pre : List Action :=
    [.load, .mount, .settings 0, .settings 1, .answered 0 domains views]
  obtain ⟨hstays, -⟩ := hall (pre ++ [.answered 0 offline views])
  have hready : (after pre).state = .ready [] [] := rfl
  have hgone : (after (pre ++ [.answered 0 offline views])).state = .ready [] [] :=
    hstays pre [.answered 0 offline views] [] [] [] (List.append_nil _).symm hready
  cases hgone

end Onisin.Ui.Resolver
