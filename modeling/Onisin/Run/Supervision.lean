import Onisin.Run.Supervisor

/-!
What the supervisor keeps up over a session: who holds which child, to whom signals go, and that
nothing is left running when the session is over.
-/

set_option autoImplicit false

namespace Onisin.Run
open Lib

/-! Owners of children. -/

def Call.pid : Call → Option Pid
  | .spawn pid _ | .term pid | .kill pid | .reap pid => some pid
  | .pkill _ => none

/-- The child was spawned and not reaped, so its number belongs to no other process. -/
def Unreaped (calls : List Call) (pid : Pid) : Prop :=
  (∃ cmd, .spawn pid cmd ∈ calls) ∧ .reap pid ∉ calls

/-- No child is spawned twice, and signals go only to children that are not reaped. -/
def SafeCall (earlier : List Call) : Call → Prop
  | .spawn pid _ => ∀ cmd, .spawn pid cmd ∉ earlier
  | .term pid | .kill pid | .reap pid => Unreaped earlier pid
  | .pkill _ => True

/-- The holders of the children in `held` account for every child that is there. -/
structure Supervised (sys : System) (held : List Pid) : Prop where
  nodup : held.Nodup
  unreaped : ∀ pid ∈ held, Unreaped sys.calls pid
  present : ∀ pid ∈ held, sys.Present pid
  accounted : ∀ pid, sys.Present pid → pid ∈ held ∨ pid ∈ sys.lost
  numbered : ∀ c ∈ sys.calls, ∀ pid, c.pid = some pid → pid < sys.next
  below : ∀ pid, sys.Present pid → pid < sys.next
  safe : Justified SafeCall sys.calls

variable {sys : System} {held held' others : List Pid} {pid : Pid} {p : Proc} {l : Launch}
  {waits : Pid → Nat → Bool} {cmd : Command} {code : Nat}

theorem Supervised.perm (h : Supervised sys held) (hp : held.Perm held') : Supervised sys held' where
  nodup := hp.nodup h.nodup
  unreaped pid hpid := h.unreaped pid (hp.mem_iff.mpr hpid)
  present pid hpid := h.present pid (hp.mem_iff.mpr hpid)
  accounted pid hpid := (h.accounted pid hpid).imp_left hp.mem_iff.mp
  numbered := h.numbered
  below := h.below
  safe := h.safe

theorem Unreaped.mono {calls : List Call} {c : Call} (h : Unreaped calls pid) (hc : c ≠ .reap pid) :
    Unreaped (calls ++ [c]) pid := by
  obtain ⟨⟨cmd, hspawn⟩, hreap⟩ := h
  refine ⟨⟨cmd, List.mem_append_left _ hspawn⟩, fun hmem => ?_⟩
  rcases List.mem_append.mp hmem with hmem | hmem
  · exact hreap hmem
  · exact hc (List.mem_singleton.mp hmem).symm

theorem numbered_snoc {next n : Nat} {calls : List Call} {c : Call}
    (h : ∀ c ∈ calls, ∀ pid, c.pid = some pid → pid < next) (hn : next ≤ n)
    (hc : ∀ pid, c.pid = some pid → pid < n) :
    ∀ c' ∈ calls ++ [c], ∀ pid, c'.pid = some pid → pid < n := by
  intro c' hc' pid hpid
  rcases List.mem_append.mp hc' with hmem | hmem
  · exact Nat.lt_of_lt_of_le (h c' hmem pid hpid) hn
  · exact hc pid (List.mem_singleton.mp hmem ▸ hpid)

theorem Supervised.held_lt (h : Supervised sys held) (hpid : pid ∈ held) : pid < sys.next :=
  h.below pid (h.present pid hpid)

theorem present_spawn : (sys.spawn cmd).Present pid ↔ sys.Present pid ∨ pid = sys.next := by
  simp [System.Present, System.spawn, or_right_comm]

theorem present_reap {q : Pid} : (sys.reap q).Present pid ↔ sys.Present pid ∧ pid ≠ q := by
  simp [System.Present, System.reap, or_and_right]

theorem present_exit : (sys.exit pid code).Present = sys.Present := by
  funext q
  by_cases hpid : pid ∈ sys.alive
  · by_cases hq : q = pid
    · subst hq
      simp [System.Present, System.exit, hpid]
    · simp [System.Present, System.exit, hpid, hq]
  · simp [System.Present, System.exit, hpid]

theorem Supervised.spawn (h : Supervised sys held) (cmd : Command) :
    Supervised (sys.spawn cmd) (sys.next :: held) where
  nodup := List.nodup_cons.mpr ⟨fun hmem => Nat.lt_irrefl _ (h.held_lt hmem), h.nodup⟩
  unreaped pid hpid := by
    rcases List.mem_cons.mp hpid with rfl | hpid
    · refine ⟨⟨cmd, by simp [System.spawn]⟩, fun hmem => ?_⟩
      have hold : Call.reap sys.next ∈ sys.calls := by simpa [System.spawn] using hmem
      exact Nat.lt_irrefl _ (h.numbered _ hold _ rfl)
    · exact (h.unreaped pid hpid).mono (by simp)
  present pid hpid := by
    rw [present_spawn]
    rcases List.mem_cons.mp hpid with rfl | hpid
    · exact .inr rfl
    · exact .inl (h.present pid hpid)
  accounted pid hpid := by
    rcases present_spawn.mp hpid with hold | rfl
    · exact (h.accounted pid hold).imp_left (List.mem_cons_of_mem _)
    · exact .inl List.mem_cons_self
  numbered := numbered_snoc h.numbered (Nat.le_succ _) fun pid hpid => by
    cases hpid
    exact Nat.lt_succ_self _
  below pid hpid := by
    rcases present_spawn.mp hpid with hold | rfl
    · exact Nat.lt_succ_of_lt (h.below pid hold)
    · exact Nat.lt_succ_self _
  safe := h.safe.snoc fun cmd' hmem => Nat.lt_irrefl _ (h.numbered _ hmem _ rfl)

/-- A call that neither spawns nor reaps. -/
theorem Supervised.call {c : Call} (h : Supervised sys held) (hsafe : SafeCall sys.calls c)
    (hc : ∀ pid, c ≠ .reap pid) (hnum : ∀ pid, c.pid = some pid → pid ∈ held) :
    Supervised (sys.call c) held where
  nodup := h.nodup
  unreaped pid hpid := (h.unreaped pid hpid).mono (hc pid)
  present := h.present
  accounted := h.accounted
  numbered := numbered_snoc h.numbered (Nat.le_refl _) fun pid hpid => h.held_lt (hnum pid hpid)
  below := h.below
  safe := h.safe.snoc hsafe

theorem Supervised.pkill (h : Supervised sys held) (exe : Text) :
    Supervised (sys.call (.pkill exe)) held :=
  h.call trivial (fun _ => by simp) (fun pid hpid => by cases hpid)

theorem Supervised.term (h : Supervised sys held) (hpid : pid ∈ held) :
    Supervised (sys.call (.term pid)) held :=
  h.call (h.unreaped pid hpid) (fun _ => by simp) (fun q hq => by cases hq; exact hpid)

theorem Supervised.kill (h : Supervised sys held) (hpid : pid ∈ held) :
    Supervised (sys.call (.kill pid)) held :=
  h.call (h.unreaped pid hpid) (fun _ => by simp) (fun q hq => by cases hq; exact hpid)

theorem Supervised.reap (h : Supervised sys (pid :: held)) : Supervised (sys.reap pid) held where
  nodup := (List.nodup_cons.mp h.nodup).2
  unreaped q hq := by
    refine (h.unreaped q (List.mem_cons_of_mem _ hq)).mono ?_
    rintro ⟨⟩
    exact (List.nodup_cons.mp h.nodup).1 hq
  present q hq := by
    refine present_reap.mpr ⟨h.present q (List.mem_cons_of_mem _ hq), ?_⟩
    rintro rfl
    exact (List.nodup_cons.mp h.nodup).1 hq
  accounted q hq := by
    obtain ⟨hold, hne⟩ := present_reap.mp hq
    rcases h.accounted q hold with hheld | hlost
    · exact .inl ((List.mem_cons.mp hheld).resolve_left hne)
    · exact .inr hlost
  numbered := numbered_snoc h.numbered (Nat.le_refl _) fun q hq => by
    cases hq
    exact h.held_lt List.mem_cons_self
  below q hq := h.below q (present_reap.mp hq).1
  safe := h.safe.snoc (h.unreaped pid List.mem_cons_self)

/-- A handle that is let go makes its child a lost one. -/
theorem Supervised.drop (h : Supervised sys (pid :: held)) : Supervised (sys.drop (some pid)) held where
  nodup := (List.nodup_cons.mp h.nodup).2
  unreaped q hq := h.unreaped q (List.mem_cons_of_mem _ hq)
  present q hq := h.present q (List.mem_cons_of_mem _ hq)
  accounted q hq := by
    rcases h.accounted q hq with hheld | hlost
    · rcases List.mem_cons.mp hheld with rfl | hheld
      · exact .inr (by simp [System.drop])
      · exact .inl hheld
    · exact .inr (List.mem_append_left _ hlost)
  numbered := h.numbered
  below := h.below
  safe := h.safe

theorem Supervised.exit (h : Supervised sys held) (pid : Pid) (code : Nat) :
    Supervised (sys.exit pid code) held := by
  have hcalls : (sys.exit pid code).calls = sys.calls := by
    unfold System.exit
    split <;> rfl
  have hnext : (sys.exit pid code).next = sys.next := by
    unfold System.exit
    split <;> rfl
  have hlost : (sys.exit pid code).lost = sys.lost := by
    unfold System.exit
    split <;> rfl
  constructor
  · exact h.nodup
  · rw [hcalls]
    exact h.unreaped
  · rw [present_exit]
    exact h.present
  · rw [present_exit, hlost]
    exact h.accounted
  · rw [hcalls, hnext]
    exact h.numbered
  · rw [present_exit, hnext]
    exact h.below
  · rw [hcalls]
    exact h.safe

/-! One process. -/

/-- A process runs exactly while the supervisor holds its child and its terminal. -/
structure Proc.Good (p : Proc) : Prop where
  running : p.status = .running ↔ p.child.isSome = true
  master : p.master = p.child.isSome

def heldBy (ps : List Proc) : List Pid := ps.filterMap Proc.child

/-- An operation on one process keeps the account, whoever holds the other children. -/
def Keeps (f : Proc → System → Proc × System) : Prop :=
  ∀ p sys others, p.Good → Supervised sys (p.child.toList ++ others) →
    (f p sys).1.Good ∧ Supervised (f p sys).2 ((f p sys).1.child.toList ++ others)

theorem Proc.Good.idle (h : p.Good) (hrun : p.isRunning = false) : p.child = none := by
  cases hchild : p.child with
  | none => rfl
  | some pid =>
    have hstatus := h.running.mpr (by simp [hchild])
    simp [Proc.isRunning, hstatus] at hrun

theorem terminate_child : (p.terminate waits sys).1.child = none := by
  unfold Proc.terminate
  cases p.child <;> rfl

theorem terminate_master : (p.terminate waits sys).1.master = false := by
  unfold Proc.terminate
  cases p.child <;> rfl

theorem reapChild_supervised {looks : Nat → Bool} (h : Supervised sys (pid :: others)) :
    Supervised (reapChild looks pid sys) others := by
  unfold reapChild
  split
  · exact h.reap
  · exact (h.kill List.mem_cons_self).reap

/-- The child that a process holds is told to stop and waited for. -/
theorem term_supervised (hchild : p.child = some pid) (h : Supervised sys (p.child.toList ++ others)) :
    Supervised (reapChild (waits pid) pid (sys.call (.term pid))) others := by
  rw [hchild] at h
  exact reapChild_supervised (h.term List.mem_cons_self)

theorem idle_supervised (hchild : p.child = none) (h : Supervised sys (p.child.toList ++ others)) :
    Supervised sys others := by
  rw [hchild] at h
  exact h

theorem terminate_supervised (h : Supervised sys (p.child.toList ++ others)) :
    Supervised (p.terminate waits sys).2 others := by
  unfold Proc.terminate
  cases p.appExe with
  | none =>
    cases hchild : p.child with
    | none => exact idle_supervised hchild h
    | some pid => exact term_supervised hchild h
  | some exe =>
    cases hchild : p.child with
    | none => exact idle_supervised hchild (h.pkill exe)
    | some pid => exact term_supervised hchild (h.pkill exe)

/-- A process that holds no child may be started. -/
theorem start_keeps (hchild : p.child = none) (hmaster : p.master = false)
    (h : Supervised sys others) :
    (p.start l sys).1.Good ∧ Supervised (p.start l sys).2 ((p.start l sys).1.child.toList ++ others) := by
  unfold Proc.start Proc.tryStart
  cases l.outcome with
  | ptyFailed reason => exact ⟨⟨by simp [hchild], by simp [hchild, hmaster]⟩, by simpa [hchild] using h⟩
  | spawnFailed reason => exact ⟨⟨by simp [hchild], by simp [hchild, hmaster]⟩, by simpa [hchild] using h⟩
  | readerFailed reason =>
    refine ⟨⟨by simp [hchild], by simp [hchild, hmaster]⟩, ?_⟩
    simpa [hchild] using (h.spawn (p.command l)).drop
  | started =>
    refine ⟨⟨by simp, by simp⟩, ?_⟩
    simpa [hchild, System.drop] using h.spawn (p.command l)

theorem stop_keeps : Keeps (Proc.stop waits) := by
  intro p sys others _ h
  refine ⟨⟨by simp [Proc.stop, terminate_child], by simp [Proc.stop, terminate_child, terminate_master]⟩, ?_⟩
  simpa [Proc.stop, terminate_child] using terminate_supervised h

theorem restart_keeps : Keeps (Proc.restart waits l) :=
  fun _ _ _ _ h => start_keeps terminate_child terminate_master (terminate_supervised h)

theorem startIdle_keeps : Keeps fun p sys => if p.isRunning then (p, sys) else p.start l sys := by
  intro p sys others hp h
  cases hrun : p.isRunning with
  | true => exact ⟨by simpa [hrun] using hp, by simpa [hrun] using h⟩
  | false =>
    have hchild := hp.idle hrun
    have hmaster : p.master = false := by simp [hp.master, hchild]
    rw [hchild] at h
    simpa [hrun] using start_keeps hchild hmaster h

theorem poll_keeps {answers : Pid → Bool} : Keeps (Proc.poll answers) := by
  intro p sys others hp h
  unfold Proc.poll
  cases hfound : p.child.bind fun pid => sys.ended.find? fun e => e.1 == pid && answers pid with
  | none => exact ⟨hp, h⟩
  | some e =>
    obtain ⟨q, code⟩ := e
    obtain ⟨pid, hchild, hfind⟩ := Option.bind_eq_some_iff.mp hfound
    have hkey := List.find?_some hfind
    simp only [Bool.and_eq_true, beq_iff_eq] at hkey
    obtain ⟨rfl, -⟩ := hkey
    have hrun : p.isRunning = true := by simp [Proc.isRunning, hp.running.mpr (by simp [hchild])]
    rw [hchild] at h
    exact ⟨⟨by simp [hrun], by simp⟩, Supervised.reap h⟩

/-! All processes. -/

theorem heldBy_cons (p : Proc) (ps : List Proc) : heldBy (p :: ps) = p.child.toList ++ heldBy ps := by
  cases hchild : p.child <;> simp [heldBy, hchild]

theorem onEach_keeps {f : Proc → System → Proc × System} (hf : Keeps f) {ps : List Proc}
    (hps : ∀ p ∈ ps, p.Good) (h : Supervised sys (heldBy ps ++ others)) :
    (∀ p ∈ (onEach f ps sys).1, p.Good) ∧
      Supervised (onEach f ps sys).2 (heldBy (onEach f ps sys).1 ++ others) := by
  induction ps generalizing sys others with
  | nil => exact ⟨hps, h⟩
  | cons p ps ih =>
    obtain ⟨hp, hps⟩ := List.forall_mem_cons.mp hps
    rw [heldBy_cons, List.append_assoc] at h
    obtain ⟨hp', h'⟩ := hf p sys _ hp h
    obtain ⟨hps', h''⟩ := ih hps (h'.perm (List.perm_append_comm_assoc _ _ _))
    refine ⟨List.forall_mem_cons.mpr ⟨hp', hps'⟩, ?_⟩
    rw [onEach, heldBy_cons, List.append_assoc]
    exact h''.perm (List.perm_append_comm_assoc _ _ _)

theorem onAt_keeps {f : Proc → System → Proc × System} (hf : Keeps f) (i : Nat) {ps : List Proc}
    (hps : ∀ p ∈ ps, p.Good) (h : Supervised sys (heldBy ps ++ others)) :
    (∀ p ∈ (onAt f i ps sys).1, p.Good) ∧
      Supervised (onAt f i ps sys).2 (heldBy (onAt f i ps sys).1 ++ others) := by
  induction ps generalizing i others with
  | nil => cases i <;> exact ⟨hps, h⟩
  | cons p ps ih =>
    obtain ⟨hp, hps⟩ := List.forall_mem_cons.mp hps
    rw [heldBy_cons, List.append_assoc] at h
    cases i with
    | zero =>
      obtain ⟨hp', h'⟩ := hf p sys _ hp h
      refine ⟨List.forall_mem_cons.mpr ⟨hp', hps⟩, ?_⟩
      rw [onAt, heldBy_cons, List.append_assoc]
      exact h'
    | succ i =>
      obtain ⟨hps', h'⟩ := ih i hps (h.perm (List.perm_append_comm_assoc _ _ _))
      refine ⟨List.forall_mem_cons.mpr ⟨hp, hps'⟩, ?_⟩
      rw [onAt, heldBy_cons, List.append_assoc]
      exact h'.perm (List.perm_append_comm_assoc _ _ _)

theorem new_keeps (root : Text) (size : Nat × Nat) (spec : ProcSpec) (h : Supervised sys others) :
    (Proc.new root size spec l sys).1.Good ∧
      Supervised (Proc.new root size spec l sys).2
        ((Proc.new root size spec l sys).1.child.toList ++ others) := by
  unfold Proc.new
  split
  · exact start_keeps rfl rfl h
  · exact ⟨⟨by simp, rfl⟩, h⟩

theorem newProcs_keeps (root : Text) (size : Nat × Nat) {specs : List (ProcSpec × Launch)}
    (h : Supervised sys others) :
    (∀ p ∈ (newProcs root size specs sys).1, p.Good) ∧
      Supervised (newProcs root size specs sys).2
        (heldBy (newProcs root size specs sys).1 ++ others) := by
  induction specs generalizing sys others with
  | nil => exact ⟨fun p hp => by simp [newProcs] at hp, h⟩
  | cons spec specs ih =>
    obtain ⟨hp, h'⟩ := new_keeps root size spec.1 (l := spec.2) h
    obtain ⟨hps, h''⟩ := ih h'
    refine ⟨List.forall_mem_cons.mpr ⟨hp, hps⟩, ?_⟩
    rw [newProcs, heldBy_cons, List.append_assoc]
    exact h''.perm (List.perm_append_comm_assoc _ _ _)

/-! Sessions. -/

structure Session.Supervises (s : Session) : Prop where
  good : ∀ p ∈ s.app.procs, p.Good
  account : Supervised s.sys (heldBy s.app.procs)

/-- What the account depends on in a process. -/
def Proc.role (p : Proc) : Status × Option Pid × Bool := (p.status, p.child, p.master)

theorem Proc.Good.of_role {q : Proc} (h : p.Good) (hrole : q.role = p.role) : q.Good := by
  simp only [Proc.role, Prod.mk.injEq] at hrole
  obtain ⟨hstatus, hchild, hmaster⟩ := hrole
  exact ⟨by rw [hstatus, hchild]; exact h.running, by rw [hmaster, hchild]; exact h.master⟩

theorem Session.Supervises.of_roles {s s' : Session} (h : s.Supervises) (hsys : s'.sys = s.sys)
    (hroles : s'.app.procs.map Proc.role = s.app.procs.map Proc.role) : s'.Supervises where
  good p hp := by
    have hmem : p.role ∈ s.app.procs.map Proc.role := hroles ▸ List.mem_map_of_mem hp
    obtain ⟨q, hq, hrole⟩ := List.mem_map.mp hmem
    exact (h.good q hq).of_role hrole.symm
  account := by
    have hheld (ps : List Proc) : heldBy ps = (ps.map Proc.role).filterMap fun r => r.2.1 := by
      simp [heldBy, List.filterMap_map, Function.comp_def, Proc.role]
    rw [hsys, hheld, hroles, ← hheld]
    exact h.account

theorem role_resize (rows cols : Nat) (p : Proc) : (p.resize rows cols).role = p.role := by
  unfold Proc.resize
  split <;> rfl

theorem role_reads (runs : Nat) (chunk : List UInt8) (p : Proc) : (p.reads runs chunk).role = p.role := rfl

theorem role_marks (p : Proc) : p.marks.role = p.role := by
  unfold Proc.marks
  split <;> rfl

theorem roles_map {f : Proc → Proc} (hf : ∀ p, (f p).role = p.role) (ps : List Proc) :
    (ps.map f).map Proc.role = ps.map Proc.role := by
  simp [Function.comp_def, hf]

theorem roles_modify {f : Proc → Proc} (hf : ∀ p, (f p).role = p.role) (i : Nat) (ps : List Proc) :
    (ps.modify i f).map Proc.role = ps.map Proc.role := by
  induction ps generalizing i with
  | nil => simp
  | cons p ps ih => cases i <;> simp [hf, ih]

theorem roles_takeDirty (ps : List Proc) : (takeDirty ps).2.map Proc.role = ps.map Proc.role := by
  induction ps with
  | nil => rfl
  | cons p ps ih =>
    unfold takeDirty
    split
    · rfl
    · simp [ih]

theorem onSelected_supervises {s : Session} {f : Proc → System → Proc × System} (hf : Keeps f)
    (h : s.Supervises) :
    { s with app := (s.app.onSelected f s.sys).1, sys := (s.app.onSelected f s.sys).2 }.Supervises := by
  have haccount : Supervised s.sys (heldBy s.app.procs ++ []) := by simpa using h.account
  obtain ⟨hgood, haccount'⟩ := onAt_keeps hf s.app.selected h.good haccount
  rw [List.append_nil] at haccount'
  exact ⟨hgood, haccount'⟩

theorem onEach_supervises {s : Session} {f : Proc → System → Proc × System} (hf : Keeps f)
    (h : s.Supervises) :
    { s with
      app := { s.app with procs := (onEach f s.app.procs s.sys).1 }
      sys := (onEach f s.app.procs s.sys).2 }.Supervises := by
  have haccount : Supervised s.sys (heldBy s.app.procs ++ []) := by simpa using h.account
  obtain ⟨hgood, haccount'⟩ := onEach_keeps hf h.good haccount
  rw [List.append_nil] at haccount'
  exact ⟨hgood, haccount'⟩

theorem onKey_supervises {s : Session} (k : KeyEvent) (ans : Answers) (h : s.Supervises) :
    { s with app := (s.app.onKey k ans s.sys).1, sys := (s.app.onKey k ans s.sys).2 }.Supervises := by
  have hselect {a : App} (ha : a.procs = s.app.procs) :
      { s with app := a, sys := s.sys }.Supervises := h.of_roles rfl (by rw [ha])
  have hnext : s.app.selectNext.procs = s.app.procs := by
    unfold App.selectNext
    split <;> rfl
  have hprev : s.app.selectPrev.procs = s.app.procs := by
    unfold App.selectPrev
    split <;> rfl
  unfold App.onKey
  split
  · exact h
  cases k.code with
  | esc => exact hselect rfl
  | down | tab => exact hselect hnext
  | up | backTab => exact hselect hprev
  | other => exact h
  | char c =>
    dsimp only
    split
    · exact hselect rfl
    split
    · exact hselect hnext
    split
    · exact hselect hprev
    split
    · split
      · exact hselect rfl
      · exact h
    split
    · exact onSelected_supervises restart_keeps h
    split
    · exact onSelected_supervises stop_keeps h
    split
    · exact onSelected_supervises startIdle_keeps h
    · exact h

theorem onInput_supervises {s : Session} (i : Input) (h : s.Supervises) : (s.onInput i).Supervises := by
  cases i with
  | key k ans => exact (onKey_supervises k ans h).of_roles rfl rfl
  | timeout | resize | other => exact h.of_roles rfl rfl

theorem step_supervises (s : Session) (e : Event) (h : s.Supervises) : (step s e).Supervises := by
  unfold step
  split
  · exact h.of_roles rfl rfl
  · exact h.of_roles rfl rfl
  · exact h.of_roles rfl rfl
  · exact h.of_roles rfl (roles_map (role_resize _ _) _)
  · exact (onEach_supervises poll_keeps h).of_roles rfl rfl
  · exact h.of_roles rfl (roles_takeDirty _)
  · exact h.of_roles rfl rfl
  · exact (onInput_supervises _ h).of_roles rfl rfl
  · exact (onEach_supervises stop_keeps h).of_roles rfl rfl
  · exact ⟨h.good, h.account.exit _ _⟩
  · exact h.of_roles rfl (roles_modify (role_reads _ _) _ _)
  · exact h.of_roles rfl (roles_modify role_marks _ _)
  · exact h

theorem start_supervises (specs : List (ProcSpec × Launch)) (root : Text) :
    (Session.start specs root).Supervises := by
  have hempty : Supervised {} [] :=
    ⟨List.nodup_nil, by simp, by simp, by simp [System.Present], by simp, by simp [System.Present],
      justified_nil _⟩
  obtain ⟨hgood, haccount⟩ := @newProcs_keeps _ _ root (24, 80) specs hempty
  rw [List.append_nil] at haccount
  exact ⟨hgood, haccount⟩

/-! Lost children. -/

def Launch.KeepsReader (l : Launch) : Prop := ∀ reason, l.outcome ≠ .readerFailed reason

def Event.KeepsReader : Event → Prop
  | .input (some (.key _ ans)) => ans.launch.KeepsReader
  | _ => True

/-- No child is lost but one just spawned whose reader could not be made. -/
def Loses (l : Launch) (sys sys' : System) : Prop :=
  sys'.lost = sys.lost ∨ ¬l.KeepsReader ∧ sys'.lost = sys.lost ++ [sys.next]

theorem reapChild_lost {looks : Nat → Bool} : (reapChild looks pid sys).lost = sys.lost := by
  unfold reapChild
  split <;> rfl

theorem reapChild_next {looks : Nat → Bool} : (reapChild looks pid sys).next = sys.next := by
  unfold reapChild
  split <;> rfl

theorem terminate_lost : (p.terminate waits sys).2.lost = sys.lost := by
  unfold Proc.terminate
  cases p.child <;> cases p.appExe <;> simp [reapChild_lost, System.call]

theorem terminate_next : (p.terminate waits sys).2.next = sys.next := by
  unfold Proc.terminate
  cases p.child <;> cases p.appExe <;> simp [reapChild_next, System.call]

theorem start_loses (hchild : p.child = none) : Loses l sys (p.start l sys).2 := by
  unfold Proc.start Proc.tryStart
  cases houtcome : l.outcome with
  | readerFailed reason => exact .inr ⟨fun h => h reason houtcome, rfl⟩
  | started => exact .inl (by simp [System.drop, System.spawn, hchild])
  | ptyFailed reason | spawnFailed reason => exact .inl rfl

theorem restart_loses : Loses l sys (p.restart waits l sys).2 := by
  have hstart : Loses l (p.terminate waits sys).2 (p.restart waits l sys).2 := start_loses terminate_child
  rwa [Loses, terminate_lost, terminate_next] at hstart

theorem startIdle_loses (hp : p.Good) :
    Loses l sys (if p.isRunning then (p, sys) else p.start l sys).2 := by
  cases hrun : p.isRunning with
  | true => exact .inl rfl
  | false => exact start_loses (hp.idle hrun)

theorem poll_lost {answers : Pid → Bool} : (p.poll answers sys).2.lost = sys.lost := by
  unfold Proc.poll
  split <;> rfl

theorem stop_lost : (p.stop waits sys).2.lost = sys.lost := terminate_lost

theorem onEach_lost {f : Proc → System → Proc × System} (hf : ∀ p sys, (f p sys).2.lost = sys.lost)
    {ps : List Proc} : (onEach f ps sys).2.lost = sys.lost := by
  induction ps generalizing sys with
  | nil => rfl
  | cons p ps ih => rw [onEach, ih, hf p sys]

theorem onAt_loses {f : Proc → System → Proc × System} (hf : ∀ p sys, p.Good → Loses l sys (f p sys).2)
    (i : Nat) {ps : List Proc} (hps : ∀ p ∈ ps, p.Good) : Loses l sys (onAt f i ps sys).2 := by
  induction ps generalizing i with
  | nil => cases i <;> exact .inl rfl
  | cons p ps ih =>
    obtain ⟨hp, hps⟩ := List.forall_mem_cons.mp hps
    cases i with
    | zero => exact hf p sys hp
    | succ i => exact ih i hps

theorem onKey_loses {s : Session} (k : KeyEvent) {ans : Answers} (h : s.Supervises) :
    Loses ans.launch s.sys (s.app.onKey k ans s.sys).2 := by
  unfold App.onKey
  split
  · exact .inl rfl
  cases k.code with
  | esc | down | tab | up | backTab | other => exact .inl rfl
  | char c =>
    dsimp only
    split
    · exact .inl rfl
    split
    · exact .inl rfl
    split
    · exact .inl rfl
    split
    · exact .inl rfl
    split
    · exact onAt_loses (fun _ _ _ => restart_loses) _ h.good
    split
    · exact onAt_loses (fun _ _ _ => .inl stop_lost) _ h.good
    split
    · exact onAt_loses (fun _ _ hp => startIdle_loses hp) _ h.good
    · exact .inl rfl

theorem onInput_loses {s : Session} (i : Input) (h : s.Supervises) : (s.onInput i).sys.lost = s.sys.lost ∨
    ¬(Event.input (some i)).KeepsReader ∧ (s.onInput i).sys.lost = s.sys.lost ++ [s.sys.next] := by
  cases i with
  | key k ans => exact onKey_loses k h
  | timeout | resize | other => exact .inl rfl

/-- In a step of the loop no child is lost but one that is spawned in it, whose reader could not be
made. -/
theorem step_loses {s : Session} (e : Event) (h : s.Supervises) : (step s e).sys.lost = s.sys.lost ∨
    ¬e.KeepsReader ∧ (step s e).sys.lost = s.sys.lost ++ [s.sys.next] := by
  unfold step
  split
  · exact .inl rfl
  · exact .inl rfl
  · exact .inl rfl
  · exact .inl rfl
  · exact .inl (onEach_lost fun _ _ => poll_lost)
  · exact .inl rfl
  · exact .inl rfl
  · exact onInput_loses _ h
  · exact .inl (onEach_lost fun _ _ => stop_lost)
  · refine .inl ?_
    unfold System.exit
    split <;> rfl
  · exact .inl rfl
  · exact .inl rfl
  · exact .inl rfl

/-- A process that starts at once is one of those whose readers fail. -/
def FailsAtStart (x : ProcSpec × Launch) : Prop := x.1.autostart = true ∧ ¬x.2.KeepsReader

theorem new_loses {root : Text} {size : Nat × Nat} {spec : ProcSpec} :
    (Proc.new root size spec l sys).2.lost = sys.lost ∨
      FailsAtStart (spec, l) ∧ (Proc.new root size spec l sys).2.lost = sys.lost ++ [sys.next] := by
  unfold Proc.new
  split
  · next hauto => exact (start_loses rfl).imp_right fun ⟨hfails, hlost⟩ => ⟨⟨hauto, hfails⟩, hlost⟩
  · exact .inl rfl

theorem newProcs_loses {root : Text} {size : Nat × Nat} {specs : List (ProcSpec × Launch)}
    (h : pid ∈ (newProcs root size specs sys).2.lost) : pid ∈ sys.lost ∨
      ∃ pre x post, specs = pre ++ x :: post ∧ FailsAtStart x ∧ pid = (newProcs root size pre sys).2.next := by
  induction specs generalizing sys with
  | nil => exact .inl h
  | cons x specs ih =>
    have hrest : pid ∈ (newProcs root size specs (Proc.new root size x.1 x.2 sys).2).2.lost := h
    have hnew : (Proc.new root size x.1 x.2 sys).2.lost = sys.lost ∨
        FailsAtStart x ∧ (Proc.new root size x.1 x.2 sys).2.lost = sys.lost ++ [sys.next] := new_loses
    obtain hmid | ⟨pre, y, post, rfl, hy, hpid⟩ := ih hrest
    · obtain hsame | ⟨hfails, hlost⟩ := hnew
      · exact .inl (hsame ▸ hmid)
      · rw [hlost] at hmid
        obtain hold | hnew := List.mem_append.mp hmid
        · exact .inl hold
        · exact .inr ⟨[], x, specs, rfl, hfails, List.mem_singleton.mp hnew⟩
    · exact .inr ⟨x :: pre, y, post, rfl, hy, hpid⟩

/-- The child was spawned at the start or by a key, and the reader of its output could not be made. -/
def ReaderFailed (specs : List (ProcSpec × Launch)) (root : Text) (events : List Event) (pid : Pid) : Prop :=
  (∃ pre x post, specs = pre ++ x :: post ∧ FailsAtStart x ∧ pid = (Session.start pre root).sys.next) ∨
    ∃ pre e post, events = pre ++ e :: post ∧ ¬e.KeepsReader ∧
      pid = (run step (Session.start specs root) pre).sys.next

theorem run_loses {specs : List (ProcSpec × Launch)} {root : Text} {events : List Event}
    (h : pid ∈ (run step (Session.start specs root) events).sys.lost) : ReaderFailed specs root events pid := by
  have hstep : ∀ s e, s.Supervises → pid ∈ (step s e).sys.lost →
      pid ∈ s.sys.lost ∨ ¬e.KeepsReader ∧ pid = s.sys.next := by
    intro s e hs hmem
    obtain hsame | ⟨hfails, hlost⟩ := step_loses e hs
    · exact .inl (hsame ▸ hmem)
    · rw [hlost] at hmem
      exact (List.mem_append.mp hmem).imp_right fun hnew => ⟨hfails, List.mem_singleton.mp hnew⟩
  obtain hstart | hrun := run_origin (P := fun s => pid ∈ s.sys.lost) step_supervises hstep
    (start_supervises specs root) h
  · obtain hnone | hspec := newProcs_loses hstart
    · cases hnone
    · exact .inl hspec
  · exact .inr hrun

/-- In every state of every session: a process runs exactly while its child and its terminal are
held, no child has two holders, every child that is there is held or was lost, and no signal went
to a number that was given back. A child is lost only in the launch that spawned it, if the reader
of its output could not be made. -/
theorem run_supervises (specs : List (ProcSpec × Launch)) (root : Text) (events : List Event) :
    (run step (Session.start specs root) events).Supervises ∧
      ∀ pid ∈ (run step (Session.start specs root) events).sys.lost, ReaderFailed specs root events pid :=
  ⟨run_keeps step_supervises (start_supervises specs root) events, fun _ => run_loses⟩

/-! The end of a session. -/

theorem stop_releases {ps : List Proc} : ∀ p ∈ (onEach (Proc.stop waits) ps sys).1, p.child = none := by
  induction ps generalizing sys with
  | nil => simp [onEach]
  | cons p ps ih =>
    rw [onEach]
    exact List.forall_mem_cons.mpr ⟨terminate_child, ih⟩

/-- When the session is over no child is held. -/
def Session.Released (s : Session) : Prop := s.phase = .gone → ∀ p ∈ s.app.procs, p.child = none

theorem modify_released {f : Proc → Proc} (hf : ∀ p, (f p).role = p.role) (i : Nat) {ps : List Proc}
    (h : ∀ p ∈ ps, p.child = none) : ∀ p ∈ ps.modify i f, p.child = none := by
  intro p hp
  have hmem : p.role ∈ ps.map Proc.role := roles_modify hf i ps ▸ List.mem_map_of_mem hp
  obtain ⟨q, hq, hrole⟩ := List.mem_map.mp hmem
  simp only [Proc.role, Prod.mk.injEq] at hrole
  exact hrole.2.1 ▸ h q hq

theorem step_released (s : Session) (e : Event) (h : s.Released) : (step s e).Released := by
  unfold step
  split
  · rintro ⟨⟩
  · rintro ⟨⟩
  · rintro ⟨⟩
  · rintro ⟨⟩
  · rintro ⟨⟩
  · intro hphase
    dsimp only at hphase
    split at hphase <;> cases hphase
  · rintro ⟨⟩
  · intro hphase
    dsimp only at hphase
    split at hphase <;> cases hphase
  · exact fun _ => stop_releases
  · exact h
  · exact fun hphase => modify_released (role_reads _ _) _ (h hphase)
  · exact fun hphase => modify_released role_marks _ (h hphase)
  · exact h

/-- A session that was quit leaves no child behind, whatever was started, stopped, ended on its own
or failed to start, unless the reader of a child just spawned could not be made. -/
theorem quit_leaves_none {specs : List (ProcSpec × Launch)} {root : Text} {events : List Event}
    (hspecs : ∀ x ∈ specs, x.2.KeepsReader) (hevents : ∀ e ∈ events, e.KeepsReader)
    (hover : (run step (Session.start specs root) events).phase = .gone) (pid : Pid) :
    ¬ (run step (Session.start specs root) events).sys.Present pid := by
  have hsupervises := run_keeps step_supervises (start_supervises specs root) events
  have hreleased : (run step (Session.start specs root) events).Released :=
    run_keeps step_released (by rintro ⟨⟩) events
  intro hpresent
  have hheld : heldBy (run step (Session.start specs root) events).app.procs = [] :=
    List.filterMap_eq_nil_iff.mpr (hreleased hover)
  obtain hmem | hmem := hsupervises.account.accounted pid hpresent
  · rw [hheld] at hmem
    cases hmem
  · obtain ⟨pre, x, post, rfl, hfails, -⟩ | ⟨pre, e, post, rfl, hfails, -⟩ := run_loses hmem
    · exact hfails.2 (hspecs x (by simp))
    · exact hfails (hevents e (by simp))

def shellSpec : ProcSpec :=
  { name := "api".toList, argv := shellArgv "sleep 9".toList, cwd := none, env := [], autostart := true }

/-- A process is restarted, ends on its own, is started again and runs when the session is quit. -/
def restartedSession : List Event :=
  let press (c : Char) : Event := .input (some (.key { code := .char c } {}))
  let pass : List Event := [.size (some (80, 24)), .poll fun _ => true, .check, .draw true]
  pass ++ [press 'r', .exits 1 3] ++ pass ++ [press 'a'] ++ pass ++
    [press 'q', .quit fun _ _ => false]

theorem quit_leaves_none_restarted :
    ¬ (run step (Session.start [(shellSpec, {})] "/srv".toList) restartedSession).sys.Present 2 :=
  quit_leaves_none (by simp [Launch.KeepsReader])
    (by simp [restartedSession, Event.KeepsReader, Launch.KeepsReader]) (by decide) 2

/-! The screen. -/

/-- The process has asked for a redraw, or its reader is about to. -/
def Proc.Due (p : Proc) : Prop := p.dirty = true ∨ 0 < p.unmarked

/-- What is drawn is what there is to see, or a redraw is due. -/
def Session.Fresh (s : Session) : Prop :=
  s.redraw = true ∨ (∃ p ∈ s.app.procs, p.Due) ∨ s.drawn = some s.app.view

/-- Each process is as it was or asks for a redraw. -/
def Marks (ps qs : List Proc) : Prop := List.Forall₂ (fun p q => q = p ∨ q.Due) ps qs

theorem Marks.same_or_due {ps qs : List Proc} (h : Marks ps qs) : qs = ps ∨ ∃ q ∈ qs, q.Due := by
  induction h with
  | nil => exact .inl rfl
  | cons hfirst _ ih =>
    rcases hfirst with rfl | hdue
    · rcases ih with rfl | ⟨q, hq, hdue⟩
      · exact .inl rfl
      · exact .inr ⟨q, List.mem_cons_of_mem _ hq, hdue⟩
    · exact .inr ⟨_, List.mem_cons_self, hdue⟩

theorem Session.Fresh.marks {s s' : Session} (h : s.Fresh) (hredraw : s'.redraw = s.redraw)
    (hdrawn : s'.drawn = s.drawn) (hselected : s'.app.selected = s.app.selected)
    (hmarks : Marks s.app.procs s'.app.procs) : s'.Fresh := by
  rcases hmarks.same_or_due with hsame | hdue
  · have hview : s'.app.view = s.app.view := by simp [App.view, hsame, hselected]
    rw [Session.Fresh, hredraw, hdrawn, hsame, hview]
    exact h
  · exact .inr (.inl hdue)

theorem marks_refl (ps : List Proc) : Marks ps ps := by
  induction ps with
  | nil => exact .nil
  | cons p ps ih => exact .cons (.inl rfl) ih

theorem marks_map {f : Proc → Proc} (hf : ∀ p, f p = p ∨ (f p).Due) (ps : List Proc) :
    Marks ps (ps.map f) := by
  induction ps with
  | nil => exact .nil
  | cons p ps ih => exact .cons (hf p) ih

theorem marks_modify {f : Proc → Proc} (hf : ∀ p, f p = p ∨ (f p).Due) (i : Nat) (ps : List Proc) :
    Marks ps (ps.modify i f) := by
  induction ps generalizing i with
  | nil => simpa using marks_refl []
  | cons p ps ih =>
    cases i with
    | zero => exact .cons (hf p) (marks_refl ps)
    | succ i => exact .cons (.inl rfl) (ih i)

theorem marks_onEach {f : Proc → System → Proc × System}
    (hf : ∀ p sys, (f p sys).1 = p ∨ (f p sys).1.Due) (ps : List Proc) (sys : System) :
    Marks ps (onEach f ps sys).1 := by
  induction ps generalizing sys with
  | nil => exact .nil
  | cons p ps ih => exact .cons (hf p sys) (ih _)

theorem resize_marks (rows cols : Nat) (p : Proc) :
    p.resize rows cols = p ∨ (p.resize rows cols).Due := by
  unfold Proc.resize
  split
  · exact .inl rfl
  · exact .inr (.inl rfl)

theorem poll_marks (answers : Pid → Bool) (p : Proc) (sys : System) :
    (p.poll answers sys).1 = p ∨ (p.poll answers sys).1.Due := by
  unfold Proc.poll
  split
  · exact .inr (.inl rfl)
  · exact .inl rfl

theorem reads_marks (runs : Nat) (chunk : List UInt8) (p : Proc) :
    p.reads runs chunk = p ∨ (p.reads runs chunk).Due := .inr (.inr (Nat.succ_pos _))

theorem marks_marks (p : Proc) : p.marks = p ∨ p.marks.Due := by
  unfold Proc.marks
  split
  · exact .inl rfl
  · exact .inr (.inl rfl)

theorem takeDirty_none {ps : List Proc} (h : (takeDirty ps).1 = false) :
    (takeDirty ps).2 = ps ∧ ∀ p ∈ ps, p.dirty = false := by
  induction ps with
  | nil => exact ⟨rfl, by simp⟩
  | cons p ps ih =>
    unfold takeDirty at h ⊢
    cases hdirty : p.dirty with
    | true => simp [hdirty] at h
    | false =>
      simp only [hdirty, Bool.false_eq_true, if_false] at h ⊢
      obtain ⟨hsame, hall⟩ := ih h
      exact ⟨by rw [hsame], List.forall_mem_cons.mpr ⟨hdirty, hall⟩⟩

theorem onInput_fresh {s : Session} (i : Input) (h : s.Fresh) : (s.onInput i).Fresh := by
  cases i with
  | key k ans => exact .inl rfl
  | resize => exact .inl rfl
  | timeout | other => exact h

theorem step_fresh (s : Session) (e : Event) (h : s.Fresh) : (step s e).Fresh := by
  unfold step
  split
  · exact h
  · exact h
  · exact h
  · exact h.marks rfl rfl rfl (marks_map (resize_marks _ _) _)
  · exact h.marks rfl rfl rfl (marks_onEach (poll_marks _) _ _)
  · cases hfound : (takeDirty s.app.procs).1 with
    | true => exact .inl (by simp [hfound])
    | false =>
      have hsame := (takeDirty_none hfound).1
      exact h.marks (by simp [hfound]) rfl rfl (by simpa [hsame] using marks_refl s.app.procs)
  · exact .inr (.inr rfl)
  · exact onInput_fresh _ h
  · exact h.marks rfl rfl rfl (marks_onEach (fun _ _ => .inr (.inl rfl)) _ _)
  · exact h
  · exact h.marks rfl rfl rfl (marks_modify (reads_marks _ _) _ _)
  · exact h.marks rfl rfl rfl (marks_modify marks_marks _ _)
  · exact h

/-- One undisturbed pass of the loop. -/
def pass (area : Nat × Nat) (answers : Pid → Bool) : List Event :=
  [.size (some area), .poll answers, .check, .draw true]

def Session.Quiet (s : Session) : Prop := ∀ p ∈ s.app.procs, p.unmarked = 0

theorem resize_unmarked (rows cols : Nat) (p : Proc) : (p.resize rows cols).unmarked = p.unmarked := by
  unfold Proc.resize
  split <;> rfl

theorem poll_unmarked {answers : Pid → Bool} : (p.poll answers sys).1.unmarked = p.unmarked := by
  unfold Proc.poll
  split <;> rfl

theorem onEach_unmarked {f : Proc → System → Proc × System} {ps : List Proc}
    (hf : ∀ p sys, (f p sys).1.unmarked = p.unmarked) (h : ∀ p ∈ ps, p.unmarked = 0) :
    ∀ p ∈ (onEach f ps sys).1, p.unmarked = 0 := by
  induction ps generalizing sys with
  | nil => simp [onEach]
  | cons p ps ih =>
    obtain ⟨hp, hps⟩ := List.forall_mem_cons.mp h
    rw [onEach]
    exact List.forall_mem_cons.mpr ⟨(hf p sys).trans hp, ih hps⟩

theorem size_quiet {s : Session} (area : Nat × Nat) (hphase : s.phase = .sizing) (hquiet : s.Quiet) :
    (step s (.size (some area))).phase = .polling ∧ (step s (.size (some area))).Quiet := by
  simp only [step, hphase, true_and]
  intro p hp
  obtain ⟨q, hq, rfl⟩ := List.mem_map.mp hp
  rw [resize_unmarked]
  exact hquiet q hq

theorem poll_quiet {s : Session} (answers : Pid → Bool) (hphase : s.phase = .polling)
    (hquiet : s.Quiet) :
    (step s (.poll answers)).phase = .checking ∧ (step s (.poll answers)).Quiet := by
  simp only [step, hphase, true_and]
  exact onEach_unmarked (fun _ _ => poll_unmarked) hquiet

theorem check_draws {s : Session} (hphase : s.phase = .checking) (hfresh : s.Fresh) (hquiet : s.Quiet) :
    (step (step s .check) (.draw true)).phase = .waiting ∧
      (step (step s .check) (.draw true)).drawn = some (step (step s .check) (.draw true)).app.view := by
  cases hredraw : s.redraw || (takeDirty s.app.procs).1 with
  | true => simp [step, hphase, hredraw]
  | false =>
    obtain ⟨hold, hfound⟩ := Bool.or_eq_false_iff.mp hredraw
    obtain ⟨hsame, hclean⟩ := takeDirty_none hfound
    have hdrawn : s.drawn = some s.app.view := by
      rcases hfresh with hset | ⟨p, hp, hdirty | hunmarked⟩ | hdrawn
      · simp [hold] at hset
      · simp [hclean p hp] at hdirty
      · simp [hquiet p hp] at hunmarked
      · exact hdrawn
    simpa [step, hphase, hredraw, hsame] using hdrawn

/-- Whatever happened before, and however it fell between the steps of the loop, the next pass
through the loop leaves on the screen what there is to see. -/
theorem pass_draws (specs : List (ProcSpec × Launch)) (root : Text) (events : List Event)
    (area : Nat × Nat) (answers : Pid → Bool)
    (hphase : (run step (Session.start specs root) events).phase = .sizing)
    (hquiet : (run step (Session.start specs root) events).Quiet) :
    (run step (Session.start specs root) (events ++ pass area answers)).phase = .waiting ∧
      (run step (Session.start specs root) (events ++ pass area answers)).drawn =
        some (run step (Session.start specs root) (events ++ pass area answers)).app.view := by
  have hfresh : (run step (Session.start specs root) events).Fresh :=
    run_keeps step_fresh (.inl rfl) events
  rw [run_append]
  obtain ⟨hpolling, hquiet⟩ := size_quiet area hphase hquiet
  obtain ⟨hchecking, hquiet⟩ := poll_quiet answers hpolling hquiet
  exact check_draws hchecking (step_fresh _ _ (step_fresh _ _ hfresh)) hquiet

/-- A chunk is read while the loop waits, and its reader asks for a redraw. -/
def readSession : List Event :=
  pass (80, 24) (fun _ => true) ++ [.reads 0 1 [104, 105], .marks 0, .input (some .timeout)]

theorem pass_draws_read :
    (run step (Session.start [(shellSpec, {})] "/srv".toList)
        (readSession ++ pass (80, 24) fun _ => true)).phase = .waiting ∧
      (run step (Session.start [(shellSpec, {})] "/srv".toList)
        (readSession ++ pass (80, 24) fun _ => true)).drawn =
          some (run step (Session.start [(shellSpec, {})] "/srv".toList)
            (readSession ++ pass (80, 24) fun _ => true)).app.view :=
  pass_draws _ _ readSession (80, 24) (fun _ => true) (by decide) (by unfold Session.Quiet; decide)

end Onisin.Run
