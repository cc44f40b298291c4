import Mathlib.Logic.Function.Basic
import Onisin.Dsl.DomainLexer
import Onisin.Lib.Runs

/-!
The cache of parsed domains: filled once at boot, then kept up row by row from notifications. A
notification reaches the service only if it is published once the service has subscribed.
-/

set_option autoImplicit false

namespace Onisin.Gql
open Lib

/-- The boot of the service, in the order of `main`. -/
inductive Boot where
  | start
  | selected (rows : Text → Option Text)
  | loaded
  | serving
  | live

def Boot.isLive : Boot → Bool
  | .live => true
  | _ => false

/-- The one task that takes notifications, between its reads of the database. -/
inductive Listener where
  | idle
  | reading (id : Text)
  | applying (id : Text) (row : Option Text)

/-- The service between its table and the writers of it. `pending` are the writes whose
notification is not published yet, `queue` the notifications that the subscription holds. -/
structure Service where
  table : Text → Option Text
  pending : List Text
  boot : Boot
  queue : List Text
  listener : Listener
  cache : Text → Option Domain.DomainDef

inductive Act where
  | write (id : Text) (row : Option Text)
  | publish (id : Text)
  | boot
  | listen

/-- What the cache keeps of a row: nothing if there is none or its source does not parse. -/
def parsedRow (row : Option Text) : Option Domain.DomainDef :=
  row.bind fun source => (Domain.parseDomain source).toOption

def Service.write (s : Service) (id : Text) (row : Option Text) : Service :=
  { s with table := Function.update s.table id row, pending := id :: s.pending }

def Service.publish (s : Service) (id : Text) : Service :=
  if s.pending.contains id then
    { s with
      pending := s.pending.erase id
      queue := if s.boot.isLive then s.queue ++ [id] else s.queue }
  else s

/-- `load_all`, the command handlers, and the subscription. -/
def Service.bootStep (s : Service) : Service :=
  match s.boot with
  | .start => { s with boot := .selected s.table }
  | .selected rows => { s with boot := .loaded, cache := fun id => parsedRow (rows id) }
  | .loaded => { s with boot := .serving }
  | .serving => { s with boot := .live }
  | .live => s

/-- The payload is trimmed, and passed over if nothing is left. -/
def Service.receive (s : Service) (payload : Text) (rest : List Text) : Service :=
  { s with
    queue := rest
    listener := if payload.trim.isEmpty then .idle else .reading payload.trim }

/-- The next message, or the next half of `load_one`. -/
def Service.listen (s : Service) : Service :=
  match s.listener with
  | .idle =>
    match s.queue with
    | [] => s
    | payload :: rest => s.receive payload rest
  | .reading id => { s with listener := .applying id (s.table id) }
  | .applying id row =>
    { s with listener := .idle, cache := Function.update s.cache id (parsedRow row) }

def Service.step (s : Service) : Act → Service
  | .write id row => s.write id row
  | .publish id => s.publish id
  | .boot => s.bootStep
  | .listen => s.listen

/-! What the cache is going to have. -/

/-- What the cache has of a row once the reads already made are applied. Before the bulk query
that is what the query is going to find. -/
def Service.seen (s : Service) (id : Text) : Option Domain.DomainDef :=
  match s.boot, s.listener with
  | .start, _ => parsedRow (s.table id)
  | .selected rows, _ => parsedRow (rows id)
  | _, .applying id' row => if id = id' then parsedRow row else s.cache id
  | _, _ => s.cache id

def Service.UpToDate (s : Service) (id : Text) : Prop := s.seen id = parsedRow (s.table id)

/-- The row is going to be read again. -/
def Service.Due (s : Service) (id : Text) : Prop :=
  id ∈ s.pending ∨ (∃ payload ∈ s.queue, payload.trim = id ∧ id ≠ []) ∨ s.listener = .reading id

def Service.Covered (s : Service) : Prop := ∀ id, s.UpToDate id ∨ s.Due id

/-- Nothing is listened to before the subscription. -/
def Service.Silent (s : Service) : Prop := s.boot.isLive = false → s.queue = [] ∧ s.listener = .idle

/-- The payload names the row, also when it is trimmed. -/
def PlainId (id : Text) : Prop := id.trim = id ∧ id ≠ []

/-- A notification may be lost only where nothing depends on it. -/
def Service.Heard (s : Service) : Act → Prop
  | .publish id => id ∈ s.pending →
      (s.boot.isLive = true ∧ PlainId id) ∨ s.UpToDate id ∨
        { s with pending := s.pending.erase id }.Due id
  | _ => True

structure Service.Fresh (s : Service) : Prop where
  boot : s.boot = .start
  queue : s.queue = []
  listener : s.listener = .idle

/-- Boot is over, and what was published is processed. -/
structure Service.Quiet (s : Service) : Prop where
  boot : s.boot = .live
  pending : s.pending = []
  queue : s.queue = []
  listener : s.listener = .idle

variable {s : Service}

theorem silent_publish (h : s.Silent) (id : Text) : (s.publish id).Silent := by
  unfold Service.publish
  split
  · intro hlive
    replace hlive : s.boot.isLive = false := hlive
    simpa [hlive] using h hlive
  · exact h

theorem silent_boot (h : s.Silent) : s.bootStep.Silent := by
  unfold Service.bootStep
  cases hboot : s.boot with
  | live => exact h
  | start => exact fun _ => h (by rw [hboot]; rfl)
  | selected rows => exact fun _ => h (by rw [hboot]; rfl)
  | loaded => exact fun _ => h (by rw [hboot]; rfl)
  | serving => exact fun _ => h (by rw [hboot]; rfl)

/-- The listener does nothing while the service is silent. -/
theorem listen_silent (h : s.Silent) (hlive : s.boot.isLive = false) : s.listen = s := by
  obtain ⟨hqueue, hlistener⟩ := h hlive
  simp [Service.listen, hqueue, hlistener]

theorem listen_boot (s : Service) : s.listen.boot = s.boot := by
  unfold Service.listen
  cases s.listener with
  | idle => cases s.queue <;> rfl
  | reading id => rfl
  | applying id row => rfl

theorem silent_step (s : Service) (a : Act) (h : s.Silent) : (s.step a).Silent := by
  cases a with
  | write id row => exact h
  | publish id => exact silent_publish h id
  | boot => exact silent_boot h
  | listen =>
    intro hlive
    replace hlive : s.boot.isLive = false := listen_boot s ▸ hlive
    simpa only [Service.step, listen_silent h hlive] using h hlive

/-- A write concerns its own row, which is read again. -/
theorem covered_write (h : s.Covered) (id : Text) (row : Option Text) : (s.write id row).Covered := by
  intro id'
  by_cases hid : id' = id
  · exact .inr (.inl (by simp [Service.write, hid]))
  · rcases h id' with hup | hdue
    · left
      have htable : (s.write id row).table id' = s.table id' := Function.update_of_ne hid _ _
      have hseen : (s.write id row).seen id' = s.seen id' := by
        unfold Service.seen
        simp only [htable]
        rfl
      exact hseen.trans (hup.trans (congrArg parsedRow htable.symm))
    · right
      rcases hdue with hpending | hrest
      · exact .inl (List.mem_cons_of_mem _ hpending)
      · exact .inr hrest

/-- The loading is of the rows as they were selected. -/
theorem covered_boot (hs : s.Silent) (h : s.Covered) : s.bootStep.Covered := by
  intro id
  unfold Service.bootStep
  cases hboot : s.boot with
  | start => exact .inl rfl
  | selected rows =>
    have hsilent := hs (by rw [hboot]; rfl)
    rcases h id with hup | hdue
    · left
      simpa [Service.UpToDate, Service.seen, hboot, hsilent.2] using hup
    · exact .inr hdue
  | loaded =>
    have hsilent := hs (by rw [hboot]; rfl)
    rcases h id with hup | hdue
    · left
      simpa [Service.UpToDate, Service.seen, hboot, hsilent.2] using hup
    · exact .inr hdue
  | serving =>
    have hsilent := hs (by rw [hboot]; rfl)
    rcases h id with hup | hdue
    · left
      simpa [Service.UpToDate, Service.seen, hboot, hsilent.2] using hup
    · exact .inr hdue
  | live => exact h id

/-- Between two reads the cache is as it was. -/
theorem seen_live (hboot : s.boot = .live) (hread : ∀ id row, s.listener ≠ .applying id row) (id : Text) :
    s.seen id = s.cache id := by
  unfold Service.seen
  rw [hboot]
  cases hlistener : s.listener with
  | idle => rfl
  | reading id' => rfl
  | applying id' row => exact absurd hlistener (hread id' row)

theorem covered_receive (hboot : s.boot = .live) (hidle : s.listener = .idle) {payload : Text}
    {rest : List Text} (hqueue : s.queue = payload :: rest) (h : s.Covered) :
    (s.receive payload rest).Covered := by
  intro id
  rcases h id with hup | hpending | ⟨p, hp, htrim, hid⟩ | hreading
  · left
    have hafter : (s.receive payload rest).seen id = s.cache id := by
      refine seen_live (s := s.receive payload rest) hboot (fun id' row => ?_) id
      unfold Service.receive
      split <;> simp
    have hbefore : s.seen id = s.cache id := seen_live hboot (by simp [hidle]) id
    exact hafter.trans (hbefore.symm.trans hup)
  · exact .inr (.inl hpending)
  · rw [hqueue] at hp
    rcases List.mem_cons.mp hp with rfl | hp
    · exact .inr (.inr (.inr (by simp [Service.receive, htrim, hid])))
    · exact .inr (.inr (.inl ⟨p, hp, htrim, hid⟩))
  · simp [hidle] at hreading

theorem covered_listen (hs : s.Silent) (h : s.Covered) : s.listen.Covered := by
  cases hlive : s.boot.isLive with
  | false => rwa [listen_silent hs hlive]
  | true =>
    have hboot : s.boot = .live := by
      cases hb : s.boot <;> simp_all [Boot.isLive]
    unfold Service.listen
    cases hlistener : s.listener with
    | idle =>
      cases hqueue : s.queue with
      | nil => exact h
      | cons payload rest => exact covered_receive hboot hlistener hqueue h
    | reading id =>
      intro id'
      by_cases hid : id' = id
      · left
        simp [Service.UpToDate, Service.seen, hboot, hid]
      · rcases h id' with hup | hpending | hqueued | hreading
        · left
          simpa [Service.UpToDate, Service.seen, hboot, hlistener, hid] using hup
        · exact .inr (.inl hpending)
        · exact .inr (.inr (.inl hqueued))
        · rw [hlistener, Listener.reading.injEq] at hreading
          exact absurd hreading.symm hid
    | applying id row =>
      intro id'
      rcases h id' with hup | hpending | hqueued | hreading
      · left
        simpa [Service.UpToDate, Service.seen, hboot, hlistener, Function.update_apply] using hup
      · exact .inr (.inl hpending)
      · exact .inr (.inr (.inl hqueued))
      · simp [hlistener] at hreading

/-- A published notification is in the queue if the service is live, and gone otherwise. -/
theorem due_publish {id : Text} (hmem : id ∈ s.pending) (id' : Text) :
    (s.publish id).Due id' ↔
      { s with pending := s.pending.erase id }.Due id' ∨
        (s.boot.isLive = true ∧ id.trim = id' ∧ id' ≠ []) := by
  unfold Service.publish
  rw [if_pos (List.contains_iff_mem.mpr hmem)]
  cases hlive : s.boot.isLive with
  | false => simp [Service.Due]
  | true =>
    simp only [Service.Due, if_true, List.mem_append, List.mem_singleton]
    constructor
    · rintro (hpending | ⟨payload, hqueued | rfl, hid⟩ | hreading)
      · exact .inl (.inl hpending)
      · exact .inl (.inr (.inl ⟨payload, hqueued, hid⟩))
      · exact .inr ⟨trivial, hid⟩
      · exact .inl (.inr (.inr hreading))
    · rintro ((hpending | ⟨payload, hqueued, hid⟩ | hreading) | ⟨-, hid⟩)
      · exact .inl hpending
      · exact .inr (.inl ⟨payload, .inl hqueued, hid⟩)
      · exact .inr (.inr hreading)
      · exact .inr (.inl ⟨id, .inr rfl, hid⟩)

theorem upToDate_publish (id id' : Text) : (s.publish id).UpToDate id' ↔ s.UpToDate id' := by
  unfold Service.publish
  split <;> rfl

theorem covered_publish (h : s.Covered) (id : Text) :
    (s.publish id).Covered ↔ s.Heard (.publish id) := by
  by_cases hmem : id ∈ s.pending
  swap
  · simp [Service.publish, Service.Heard, hmem, h]
  constructor
  · intro hafter _
    rcases hafter id with hup | hdue
    · exact .inr (.inl ((upToDate_publish id id).mp hup))
    · rcases (due_publish hmem id).mp hdue with hdue | hplain
      · exact .inr (.inr hdue)
      · exact .inl hplain
  · intro hheard id'
    by_cases hid : id' = id
    · subst hid
      rcases hheard hmem with hplain | hup | hdue
      · exact .inr ((due_publish hmem id').mpr (.inr hplain))
      · exact .inl ((upToDate_publish id' id').mpr hup)
      · exact .inr ((due_publish hmem id').mpr (.inl hdue))
    · rcases h id' with hup | hpending | hrest
      · exact .inl ((upToDate_publish id id').mpr hup)
      · have hkept : id' ∈ s.pending.erase id := (List.mem_erase_of_ne hid).mpr hpending
        exact .inr ((due_publish hmem id').mpr (.inl (.inl hkept)))
      · exact .inr ((due_publish hmem id').mpr (.inl (.inr hrest)))

theorem covered_step (s : Service) (a : Act) (hs : s.Silent) (h : s.Covered) :
    (s.step a).Covered ↔ s.Heard a := by
  cases a with
  | write id row => exact iff_of_true (covered_write h id row) trivial
  | publish id => exact covered_publish h id
  | boot => exact iff_of_true (covered_boot hs h) trivial
  | listen => exact iff_of_true (covered_listen hs h) trivial

theorem Service.Fresh.silent (h : s.Fresh) : s.Silent := fun _ => ⟨h.queue, h.listener⟩

theorem Service.Fresh.covered (h : s.Fresh) : s.Covered := by
  intro id
  left
  simp [Service.UpToDate, Service.seen, h.boot]

/-- The runs in which every row is up to date or still to be read are those that lose no
notification something depends on. -/
theorem covered_run_iff (h : s.Fresh) (acts : List Act) :
    (∀ n, (run Service.step s (acts.take n)).Covered) ↔ Along Service.step Service.Heard s acts :=
  good_run_iff silent_step covered_step h.silent h.covered

theorem Service.Covered.converged (h : s.Covered) (hq : s.Quiet) (id : Text) :
    s.cache id = parsedRow (s.table id) := by
  rcases h id with hup | hpending | ⟨payload, hqueued, -⟩ | hreading
  · exact (seen_live hq.boot (by simp [hq.listener]) id).symm.trans hup
  · simp [hq.pending] at hpending
  · simp [hq.queue] at hqueued
  · simp [hq.listener] at hreading

/-- From boot on, whatever is written and however the notifications, the boot and the reloads
fall between each other: if no notification is lost that a row depends on, then the cache of a
service at rest is the parse of its table. -/
theorem cache_converges (h : s.Fresh) {acts : List Act}
    (hacts : Along Service.step Service.Heard s acts) (hq : (run Service.step s acts).Quiet) :
    ∀ id, (run Service.step s acts).cache id = parsedRow ((run Service.step s acts).table id) := by
  have hcovered := (covered_run_iff h acts).mpr hacts acts.length
  rw [List.take_length] at hcovered
  exact hcovered.converged hq

def blankService : Service := ⟨fun _ => none, [], .start, [], .idle, fun _ => none⟩

/-- A row written and announced between the bulk query and the subscription. -/
def lostRun (id source : Text) : List Act :=
  [.boot, .boot, .write id (some source), .publish id, .boot, .boot]

theorem lostRun_rests (id source : Text) : (run Service.step blankService (lostRun id source)).Quiet := by
  constructor <;>
    simp [run, lostRun, Service.step, Service.bootStep, Service.write, Service.publish, blankService,
      Boot.isLive]

theorem lostRun_stale (id source : Text) :
    (run Service.step blankService (lostRun id source)).cache id = none ∧
      (run Service.step blankService (lostRun id source)).table id = some source := by
  simp [run, lostRun, Service.step, Service.bootStep, Service.write, Service.publish, blankService,
    Boot.isLive, parsedRow]

/-- A row written and announced once the service is live. -/
def heardRun (id source : Text) : List Act :=
  [.boot, .boot, .boot, .boot, .write id (some source), .publish id, .listen, .listen, .listen]

theorem heardRun_heard {id : Text} (h : PlainId id) (source : Text) :
    Along Service.step Service.Heard blankService (heardRun id source) := by
  refine ⟨trivial, trivial, trivial, trivial, trivial, fun _ => .inl ⟨rfl, h⟩, trivial, trivial, trivial, trivial⟩

theorem heardRun_rests {id : Text} (h : PlainId id) (source : Text) :
    (run Service.step blankService (heardRun id source)).Quiet := by
  constructor <;>
    simp [run, heardRun, Service.step, Service.bootStep, Service.write, Service.publish,
      Service.listen, Service.receive, blankService, Boot.isLive, h.1, h.2]

theorem book_plain : PlainId "book".toList := ⟨by decide, by decide⟩

/-- A domain saved to a running service is in its cache. -/
theorem cache_converges_book :
    (run Service.step blankService (heardRun "book".toList Domain.bookSource)).Quiet ∧
    ∀ id, (run Service.step blankService (heardRun "book".toList Domain.bookSource)).cache id =
      parsedRow ((run Service.step blankService (heardRun "book".toList Domain.bookSource)).table id) :=
  ⟨heardRun_rests book_plain _,
    cache_converges ⟨rfl, rfl, rfl⟩ (heardRun_heard book_plain _) (heardRun_rests book_plain _)⟩

/-- A domain saved while the service boots is missing from its cache. -/
theorem write_during_boot_lost :
    ¬∀ acts : List Act, (run Service.step blankService acts).Quiet →
      ∀ id, (run Service.step blankService acts).cache id =
        parsedRow ((run Service.step blankService acts).table id) := by
  intro h
  have hbook := h _ (lostRun_rests "book".toList Domain.bookSource) "book".toList
  obtain ⟨hcache, htable⟩ := lostRun_stale "book".toList Domain.bookSource
  rw [hcache, htable, parsedRow, Option.bind_some, Domain.bookSource_parsed] at hbook
  cases hbook

end Onisin.Gql
