import Onisin.Lib.Paging
import Onisin.Mem.Refinement

/-!
Reading a stream page by page while events are appended: what `stream.events` answers, and what
a client has after paging until an empty page.
-/

set_option autoImplicit false

namespace Onisin.Mem
open Lib

/-! The wire shape of an event. -/

inductive EventTrace where
  | unknown
  | space
  | time
  | action
  deriving DecidableEq, Repr

def EventTrace.fromU8 (b : UInt8) : EventTrace :=
  if b = 1 then .space else if b = 2 then .time else if b = 3 then .action else .unknown

def EventTrace.asStr : EventTrace → String
  | .space => "space"
  | .time => "time"
  | .action => "action"
  | .unknown => "unknown"

structure RefJson where
  targetEventId : UInt64
  kind : UInt8

structure EventJson where
  id : UInt64
  streamId : UInt64
  createdAt : DateTime
  closedAt : Option DateTime
  typ : UInt8
  outcome : UInt8
  confidence : UInt8
  flags : UInt8
  trace : String
  content : String
  topic : String
  cost : String
  refs : List RefJson

def toEventJson (e : Event) : EventJson where
  id := e.id
  streamId := e.streamId
  createdAt := e.createdAt
  closedAt := e.closedAt
  typ := e.eventType
  outcome := e.outcome
  confidence := e.confidence
  flags := e.flags
  trace := (EventTrace.fromU8 e.trace).asStr
  content := e.content
  topic := e.topic
  cost := e.cost
  refs := e.refs.map fun r => ⟨r.targetEventId, r.kind⟩

/-! The handler. -/

/-- `limit` 0 is no limit, `before` 0 no bound. -/
structure StreamEventsRequest where
  streamId : UInt64 := 0
  limit : Nat := 0
  before : UInt64 := 0

def Graph.streamEventIds (g : Graph) (streamId : UInt64) : List UInt64 :=
  g.byStream.getD streamId []

def Graph.collect (g : Graph) (req : StreamEventsRequest) :
    List UInt64 → List EventJson → List EventJson
  | [], out => out
  | id :: ids, out =>
    if req.before ≠ 0 ∧ id ≥ req.before then g.collect req ids out
    else
      match g.byId[id]? with
      | none => g.collect req ids out
      | some ev =>
        let out := out ++ [toEventJson ev]
        if req.limit > 0 ∧ out.length ≥ req.limit then out else g.collect req ids out

def Graph.streamEvents (g : Graph) (req : StreamEventsRequest) : List EventJson :=
  g.collect req ((g.streamEventIds req.streamId).mergeSort fun a b => decide (b ≤ a)) []

/-! A client that pages through a stream. -/

structure AppendCall where
  now : DateTime
  fault : Option IoFault
  ev : Event

def appendAll (s : Store) (calls : List AppendCall) : Store :=
  calls.foldl (fun s c => (s.appendEvent c.now c.fault c.ev).1) s

/-- `batches n` is appended between the requests `n` and `n + 1`; an empty page ends it. -/
def pageThrough (streamId : UInt64) (limit : Nat) (batches : Nat → List AppendCall) :
    Nat → Nat → Store → UInt64 → Option (List EventJson)
  | 0, _, _, _ => none
  | fuel + 1, n, s, before =>
    let events := s.graph.streamEvents ⟨streamId, limit, before⟩
    match events.getLast? with
    | none => some []
    | some last =>
      (pageThrough streamId limit batches fuel (n + 1) (appendAll s (batches n)) last.id).map
        (events ++ ·)

/-! Stores whose ids ascend. -/

def Event.num (ev : Event) : Nat := ev.id.toNat

/-- The graph was built from events with ascending ids from 1 on, the next id lies above them,
and each id handed out has its record in the index. -/
structure Store.IdsAscend (s : Store) (live : List Event) : Prop where
  graph : s.graph = live.foldl Graph.absorb .empty
  ids : Ascends Event.num live
  next : 0 < s.nextEventId
  bounds : ∀ ev ∈ live, 0 < ev.id ∧ ev.id < s.nextEventId
  numbered : s.nextEventId.toNat * idxRecordSize ≤ s.idxBytes + idxRecordSize

/-- The events a stream holds, in the order they were absorbed. -/
def Graph.held (g : Graph) (streamId : UInt64) : List Event :=
  (g.streamEventIds streamId).filterMap fun id => g.byId[id]?

theorem byId_foldl (evs : List Event) (g : Graph) (id : UInt64)
    (hids : (evs.map Event.id).Nodup) :
    (evs.foldl Graph.absorb g).byId[id]? = (evs.find? (·.id = id)).or g.byId[id]? := by
  induction evs generalizing g with
  | nil => simp
  | cons ev evs ih =>
    rw [List.map_cons, List.nodup_cons] at hids
    rw [List.foldl_cons, ih _ hids.2]
    have habsorb : (g.absorb ev).byId[id]? = if ev.id = id then some ev else g.byId[id]? := by
      simp only [Graph.absorb, Std.ExtTreeMap.getElem?_insert]
      by_cases hid : ev.id = id
      · subst hid
        simp
      · have hc : compare ev.id id ≠ .eq := fun he => hid (Std.LawfulEqOrd.eq_of_compare he)
        simp [hid, hc]
    rw [habsorb, List.find?_cons]
    by_cases hid : ev.id = id
    · subst hid
      have hnone : evs.find? (·.id = ev.id) = none := by
        rw [List.find?_eq_none]
        intro ev' hev' heq
        exact hids.1 (List.mem_map.mpr ⟨ev', hev', by simpa using heq⟩)
      simp [hnone]
    · simp [hid]

section Ascending
variable {s : Store} {live : List Event}

theorem Store.IdsAscend.nodup (h : s.IdsAscend live) : (live.map Event.id).Nodup := by
  refine List.pairwise_map.mpr (h.ids.imp ?_)
  intro a b hab heq
  exact absurd (congrArg UInt64.toNat heq) (Nat.ne_of_lt hab)

theorem Store.IdsAscend.byId (h : s.IdsAscend live) (id : UInt64) :
    s.graph.byId[id]? = live.find? (·.id = id) := by
  rw [h.graph, byId_foldl live .empty id h.nodup]
  simp [Graph.empty]

theorem Store.IdsAscend.byId_mem (h : s.IdsAscend live) {ev : Event} (hev : ev ∈ live) :
    s.graph.byId[ev.id]? = some ev := by
  rw [h.byId]
  cases hf : live.find? (·.id = ev.id) with
  | none =>
    have hne := List.find?_eq_none.mp hf ev hev
    simp at hne
  | some ev' =>
    have hid : ev'.id = ev.id := by simpa using List.find?_some hf
    have hmem := List.mem_of_find?_eq_some hf
    exact congrArg some (List.inj_on_of_nodup_map h.nodup hmem hev hid)

theorem Store.IdsAscend.held (h : s.IdsAscend live) (streamId : UInt64) :
    s.graph.held streamId = live.filter (·.streamId = streamId) := by
  have hids : s.graph.streamEventIds streamId =
      (live.filter (·.streamId = streamId)).map Event.id := by
    rw [Graph.streamEventIds, h.graph, byStream_foldl]
    simp [Graph.empty]
  rw [Graph.held, hids, List.filterMap_map]
  refine (List.filterMap_congr fun ev hev => ?_).trans List.filterMap_some
  exact h.byId_mem (List.mem_filter.mp hev).1

theorem Store.IdsAscend.mem_held (h : s.IdsAscend live) {streamId : UInt64} {ev : Event} :
    ev ∈ s.graph.held streamId ↔ s.graph.byId[ev.id]? = some ev ∧ ev.streamId = streamId := by
  rw [h.held, List.mem_filter, decide_eq_true_eq]
  constructor
  · rintro ⟨hmem, hk⟩
    exact ⟨h.byId_mem hmem, hk⟩
  · rintro ⟨hid, hk⟩
    rw [h.byId] at hid
    exact ⟨List.mem_of_find?_eq_some hid, hk⟩

theorem Store.IdsAscend.held_ascends (h : s.IdsAscend live) (streamId : UInt64) :
    Ascends Event.num (s.graph.held streamId) := by
  rw [h.held]
  exact h.ids.filter _

end Ascending

theorem Store.Tracked.idsAscend {s : Store} {E : Bytes} {recs : List IdxRecord}
    {old orphans live : List Event} {P J : Bytes} (h : s.Tracked E recs old orphans P J live) :
    s.IdsAscend live := by
  have hcount := h.trailing.indexed.count_lt
  have hnext : s.nextEventId.toNat = recs.length + 1 := by
    rw [h.next]
    exact UInt64.toNat_ofNat_of_lt' hcount
  refine ⟨h.graph, ?_, ?_, ?_, ?_⟩
  · have hids : (live.map Event.id).Pairwise (· < ·) := by
      rw [h.live]
      exact upTo_pairwise (by omega)
    exact (List.pairwise_map.mp hids).imp fun hab => UInt64.lt_iff_toNat_lt.mp hab
  · rw [UInt64.lt_iff_toNat_lt, hnext]
    exact Nat.succ_pos _
  · intro ev hev
    have hid : ev.id ∈ upTo recs.length := by
      rw [← h.live]
      exact List.mem_map_of_mem hev
    obtain ⟨i, hi, heq⟩ := List.mem_map.mp hid
    rw [List.mem_range] at hi
    have hnat : ev.id.toNat = i + 1 := by
      rw [← heq]
      exact UInt64.toNat_ofNat_of_lt' (show i + 1 < 2 ^ 64 by omega)
    rw [UInt64.lt_iff_toNat_lt, UInt64.lt_iff_toNat_lt, hnext, hnat]
    exact ⟨Nat.succ_pos _, by omega⟩
  · rw [hnext, h.idxBytes, Nat.succ_mul]

/-- Steps that keep ids apart lead to stores whose ids ascend. -/
theorem run_idsAscend (acts : List Act) (h : Along Proc.step Proc.StepSafe (.down .blank) acts)
    {s : Store} (hs : run Proc.step (.down .blank) acts = .running s) :
    ∃ live, s.IdsAscend live := by
  have h0 : Proc.Tracked (.down .blank) := Or.inl rfl
  have hinv := run_invariant step_tracked h0 h
  rw [hs] at hinv
  obtain ⟨E, recs, old, orphans, P, J, live, ht⟩ := hinv
  exact ⟨live, ht.idsAscend⟩

/-! One page. -/

def cursor (before : UInt64) : Option Nat := if before = 0 then none else some before.toNat

theorem isBelow_cursor (before : UInt64) (ev : Event) :
    isBelow Event.num (cursor before) ev = true ↔ ¬ (before ≠ 0 ∧ ev.id ≥ before) := by
  by_cases hb : before = 0
  · simp [cursor, hb, isBelow]
  · simp only [cursor, isBelow, Event.num, UInt64.lt_iff_toNat_lt, ne_eq, hb,
      not_false_eq_true, true_and, ge_iff_le, UInt64.not_le]
    exact decide_eq_true_iff

theorem collect_eq {g : Graph} {req : StreamEventsRequest} {evs : List Event}
    (hg : ∀ ev ∈ evs, g.byId[ev.id]? = some ev) {out : List EventJson}
    (hout : out.length < req.limit) :
    g.collect req (evs.map Event.id) out =
      out ++ ((below Event.num (cursor req.before) evs).map toEventJson).take
        (req.limit - out.length) := by
  induction evs generalizing out with
  | nil => simp [Graph.collect, below]
  | cons ev evs ih =>
    simp only [List.mem_cons, forall_eq_or_imp] at hg
    rw [List.map_cons, Graph.collect]
    by_cases hskip : req.before ≠ 0 ∧ ev.id ≥ req.before
    · rw [if_pos hskip, ih hg.2 hout, below, below, List.filter_cons_of_neg]
      exact fun hb => (isBelow_cursor _ _).mp hb hskip
    · have hb := (isBelow_cursor req.before ev).mpr hskip
      rw [if_neg hskip, hg.1, below, List.filter_cons_of_pos hb]
      dsimp only
      have hlen : (out ++ [toEventJson ev]).length = out.length + 1 := by simp
      have htake : req.limit - out.length = req.limit - (out.length + 1) + 1 := by omega
      rw [hlen, List.map_cons, htake, List.take_succ_cons]
      by_cases hfull : req.limit > 0 ∧ out.length + 1 ≥ req.limit
      · rw [if_pos hfull]
        have hz : req.limit - (out.length + 1) = 0 := by omega
        simp [hz]
      · rw [if_neg hfull, ih hg.2 (by rw [hlen]; omega), hlen, List.append_assoc]
        rfl

theorem mergeSort_desc {ids : List UInt64} (h : ids.Pairwise (· < ·)) :
    ids.mergeSort (fun a b => decide (b ≤ a)) = ids.reverse := by
  have hsorted : (ids.mergeSort fun a b => decide (b ≤ a)).Pairwise fun a b =>
      decide (b ≤ a) = true := by
    refine List.pairwise_mergeSort (fun a b c hab hbc => ?_) (fun a b => ?_) ids
    · simp only [decide_eq_true_eq] at *
      exact UInt64.le_trans hbc hab
    · simpa using UInt64.le_total b a
  have hreverse : ids.reverse.Pairwise fun a b => decide (b ≤ a) = true := by
    rw [List.pairwise_reverse]
    exact h.imp fun hab => by simpa using UInt64.le_of_lt hab
  refine List.Perm.eq_of_pairwise ?_ hsorted hreverse
    ((List.mergeSort_perm ids _).trans (List.reverse_perm ids).symm)
  intro a b _ _ hab hba
  simp only [decide_eq_true_eq] at hab hba
  exact UInt64.le_antisymm hba hab

theorem streamEvents_eq {s : Store} {live : List Event} (h : s.IdsAscend live)
    {streamId before : UInt64} {limit : Nat} (hlimit : 0 < limit) :
    s.graph.streamEvents ⟨streamId, limit, before⟩ =
      (page Event.num limit (cursor before) (s.graph.held streamId)).map toEventJson := by
  have hids : s.graph.streamEventIds streamId = (s.graph.held streamId).map Event.id := by
    rw [h.held, Graph.streamEventIds, h.graph, byStream_foldl]
    simp [Graph.empty]
  have hasc : ((s.graph.held streamId).map Event.id).Pairwise (· < ·) :=
    List.pairwise_map.mpr ((h.held_ascends streamId).imp fun hab => UInt64.lt_iff_toNat_lt.mpr hab)
  have hby : ∀ ev ∈ (s.graph.held streamId).reverse, s.graph.byId[ev.id]? = some ev :=
    fun ev hev => (h.mem_held.mp (List.mem_reverse.mp hev)).1
  rw [Graph.streamEvents, hids, mergeSort_desc hasc, ← List.map_reverse,
    collect_eq hby (by simpa using hlimit)]
  simp [page, below, List.map_take, List.filter_reverse]

/-! Appends between the pages. -/

/-- Seen from the graph, an append fails without a trace or adds its event under the next id. -/
theorem appendEvent_graph (s : Store) (now : DateTime) (fault : Option IoFault) (ev : Event) :
    ((s.appendEvent now fault ev).1.graph = s.graph ∧
      (s.appendEvent now fault ev).1.nextEventId = s.nextEventId ∧
      (s.appendEvent now fault ev).1.idxBytes = s.idxBytes) ∨
    ∃ added, added.id = s.nextEventId ∧ s.idxBytes + idxRecordSize ≤ maxFileLen ∧
      (s.appendEvent now fault ev).1.graph = s.graph.absorb added ∧
      (s.appendEvent now fault ev).1.nextEventId = s.nextEventId + 1 ∧
      (s.appendEvent now fault ev).1.idxBytes = s.idxBytes + idxRecordSize := by
  simp only [Store.appendEvent]
  split
  · exact .inl ⟨rfl, rfl, rfl⟩
  · split
    · exact .inl ⟨rfl, rfl, rfl⟩
    · split
      · exact .inl ⟨rfl, rfl, rfl⟩
      · split
        · exact .inl ⟨rfl, rfl, rfl⟩
        · rename_i idx hidx
          split
          · exact .inl ⟨rfl, rfl, rfl⟩
          · refine .inr ⟨_, rfl, ?_, rfl, rfl, rfl⟩
            have hwhole := congrArg Prod.snd hidx
            simp only [File.writeAllAt, Bool.and_eq_true, decide_eq_true_eq,
              encodeIdxRecord_length] at hwhole
            have hpos : 0 < idxRecordSize := by decide
            omega

theorem Store.IdsAscend.append {s : Store} {live : List Event} (h : s.IdsAscend live)
    (now : DateTime) (fault : Option IoFault) (ev : Event) :
    ∃ more, (s.appendEvent now fault ev).1.IdsAscend (live ++ more) := by
  rcases appendEvent_graph s now fault ev with
    ⟨hg, hn, hi⟩ | ⟨added, hid, hroom, hg, hn, hi⟩
  · refine ⟨[], ?_⟩
    rw [List.append_nil]
    exact ⟨hg ▸ h.graph, h.ids, hn ▸ h.next, hn ▸ h.bounds, by rw [hn, hi]; exact h.numbered⟩
  · have hnum := h.numbered
    have hsmall : s.nextEventId.toNat + 1 < 2 ^ 64 := by
      simp only [idxRecordSize, maxFileLen] at hnum hroom
      omega
    have hnext : (s.nextEventId + 1).toNat = s.nextEventId.toNat + 1 := by
      rw [UInt64.toNat_add]
      exact Nat.mod_eq_of_lt hsmall
    refine ⟨[added], ?_, ?_, ?_, ?_, ?_⟩
    · rw [hg, h.graph, List.foldl_append]
      rfl
    · refine List.pairwise_append.mpr ⟨h.ids, List.pairwise_singleton _ _, ?_⟩
      intro a ha b hb
      rw [List.mem_singleton.mp hb, Event.num, Event.num, hid]
      exact UInt64.lt_iff_toNat_lt.mp (h.bounds a ha).2
    · rw [hn, UInt64.lt_iff_toNat_lt, hnext]
      exact Nat.succ_pos _
    · intro a ha
      rw [hn]
      rcases List.mem_append.mp ha with ha | ha
      · obtain ⟨hpos, hlt⟩ := h.bounds a ha
        rw [UInt64.lt_iff_toNat_lt] at hlt
        exact ⟨hpos, UInt64.lt_iff_toNat_lt.mpr (by omega)⟩
      · rw [List.mem_singleton.mp ha, hid]
        exact ⟨h.next, UInt64.lt_iff_toNat_lt.mpr (by omega)⟩
    · rw [hn, hi, hnext, Nat.succ_mul]
      omega

theorem Store.IdsAscend.appendAll {s : Store} {live : List Event} (h : s.IdsAscend live)
    (calls : List AppendCall) : ∃ more, (appendAll s calls).IdsAscend (live ++ more) := by
  induction calls generalizing s live with
  | nil => exact ⟨[], by simpa [Mem.appendAll] using h⟩
  | cons c calls ih =>
    obtain ⟨more, hc⟩ := h.append c.now c.fault c.ev
    obtain ⟨more', hcs⟩ := ih hc
    exact ⟨more ++ more', by simpa [Mem.appendAll] using hcs⟩

/-- The store when request `n` is answered. -/
def storeAt (s : Store) (batches : Nat → List AppendCall) : Nat → Store
  | 0 => s
  | n + 1 => appendAll (storeAt s batches n) (batches n)

theorem storeAt_ascend {s : Store} {live : List Event} (h : s.IdsAscend live)
    (batches : Nat → List AppendCall) (n : Nat) :
    ∃ live', (storeAt s batches n).IdsAscend live' := by
  induction n with
  | zero => exact ⟨live, h⟩
  | succ n ih =>
    obtain ⟨live', hn⟩ := ih
    obtain ⟨more, hmore⟩ := hn.appendAll (batches n)
    exact ⟨_, hmore⟩

theorem held_grows {s : Store} {live : List Event} (h : s.IdsAscend live)
    (batches : Nat → List AppendCall) (streamId : UInt64) (n : Nat) :
    (storeAt s batches n).graph.held streamId <+:
      (storeAt s batches (n + 1)).graph.held streamId := by
  obtain ⟨live', hn⟩ := storeAt_ascend h batches n
  obtain ⟨more, hmore⟩ := hn.appendAll (batches n)
  rw [hn.held, storeAt, hmore.held, List.filter_append]
  exact List.prefix_append _ _

/-- The client's pages are the pages of the growing list of held events. -/
theorem pageThrough_drain {s : Store} {live : List Event} (h : s.IdsAscend live)
    (batches : Nat → List AppendCall) (streamId : UInt64) {limit : Nat} (hlimit : 0 < limit)
    (fuel n : Nat) (before : UInt64) :
    pageThrough streamId limit batches fuel n (storeAt s batches n) before =
      (drain Event.num (fun n => (storeAt s batches n).graph.held streamId) limit fuel n
        (cursor before)).map (List.map toEventJson) := by
  induction fuel generalizing n before with
  | zero => rfl
  | succ fuel ih =>
    obtain ⟨live', hn⟩ := storeAt_ascend h batches n
    simp only [pageThrough, drain, streamEvents_eq hn hlimit, List.getLast?_map]
    cases hl : (page Event.num limit (cursor before)
        ((storeAt s batches n).graph.held streamId)).getLast? with
    | none => rfl
    | some last =>
      have hmem : last ∈ (storeAt s batches n).graph.held streamId := by
        have hpage := List.mem_of_getLast? hl
        exact (List.mem_filter.mp (List.mem_reverse.mp (List.mem_of_mem_take hpage))).1
      have hlive : last ∈ live' := by
        rw [hn.held] at hmem
        exact (List.mem_filter.mp hmem).1
      have hcursor : cursor last.id = some (Event.num last) := by
        refine if_neg fun hzero => ?_
        have hpos := (hn.bounds last hlive).1
        rw [hzero] at hpos
        exact absurd hpos (by decide)
      have hnext := ih (n + 1) last.id
      rw [hcursor] at hnext
      simp only [Option.map_some]
      change (pageThrough streamId limit batches fuel (n + 1) (storeAt s batches (n + 1))
        last.id).map _ = _
      rw [hnext, Option.map_map, Option.map_map]
      congr 1
      funext evs
      simp

/-- Paging until an empty page, with anything appended in between, ends, and gives the events
the stream held at the first request: each of them once, the newest first. -/
theorem paging_complete {s : Store} {live : List Event} (h : s.IdsAscend live)
    (streamId : UInt64) (limit : Nat) (hlimit : 1 ≤ limit) (batches : Nat → List AppendCall) :
    ∃ (evs : List Event) (fuel : Nat), (∀ more, pageThrough streamId limit batches (fuel + more) 0 s 0 =
        some (evs.map toEventJson)) ∧
      evs.Pairwise (fun a b => b.id < a.id) ∧
      ∀ ev, ev ∈ evs ↔ s.graph.byId[ev.id]? = some ev ∧ ev.streamId = streamId := by
  refine ⟨(s.graph.held streamId).reverse, (s.graph.held streamId).length + 1, ?_, ?_, ?_⟩
  · intro more
    have hall : below Event.num (cursor 0) (s.graph.held streamId) = s.graph.held streamId := by
      rw [below, List.filter_eq_self]
      exact fun _ _ => rfl
    have hasc : ∀ n, Ascends Event.num ((storeAt s batches n).graph.held streamId) := by
      intro n
      obtain ⟨live', hn⟩ := storeAt_ascend h batches n
      exact hn.held_ascends streamId
    have hdrain := drain_eq hlimit hasc (held_grows h batches streamId)
      ((s.graph.held streamId).length + 1 + more) 0 (cursor 0)
    simp only [storeAt, hall] at hdrain
    have hpages := pageThrough_drain h batches streamId hlimit
      ((s.graph.held streamId).length + 1 + more) 0 0
    rw [hdrain (by omega)] at hpages
    exact hpages
  · rw [List.pairwise_reverse]
    exact (h.held_ascends streamId).imp fun hab => UInt64.lt_iff_toNat_lt.mpr hab
  · intro ev
    rw [List.mem_reverse, h.mem_held]

/-- The stream of two events in pages of one. What is appended after the first page comes too
late to be read. -/
theorem paging_complete_sample :
    ∃ (evs : List Event) (fuel : Nat),
      (∀ more, pageThrough 7 1 (fun _ => [⟨80, none, sampleEvent 7 none []⟩]) (fuel + more) 0
        sampleStore 0 = some (evs.map toEventJson)) ∧
      evs.map Event.id = [2, 1] := by
  obtain ⟨live, hlive⟩ := run_idsAscend _ (along_stepSafe sampleActs_ok) run_sampleActs
  obtain ⟨evs, fuel, hpages, horder, hmem⟩ := paging_complete hlive 7 1 (Nat.le_refl 1)
    (fun _ => [⟨80, none, sampleEvent 7 none []⟩])
  refine ⟨evs, fuel, hpages, ?_⟩
  have hdesc : (evs.map Event.id).Pairwise (fun a b => b < a) := List.pairwise_map.mpr horder
  have hirrefl : Std.Irrefl fun a b : UInt64 => b < a := ⟨fun a => UInt64.lt_irrefl a⟩
  refine hdesc.eq_of_mem_iff (by decide) fun id => ?_
  rw [List.mem_map]
  constructor
  · rintro ⟨ev, hev, rfl⟩
    obtain ⟨hheld, hstream⟩ := (hmem ev).mp hev
    have hkeys : sampleStore.graph.byId.keys = [1, 2, 3] := by decide +kernel
    have hother : (sampleStore.graph.byId[(3 : UInt64)]?).map Event.streamId = some 9 := by
      decide +kernel
    have hid : ev.id ∈ sampleStore.graph.byId.keys :=
      Std.ExtTreeMap.mem_keys.mpr (Std.ExtTreeMap.mem_iff_isSome_getElem?.mpr (by simp [hheld]))
    rw [hkeys] at hid
    have hthird : ev.id ≠ 3 := by
      intro hid
      rw [← hid, hheld, Option.map_some, hstream] at hother
      exact absurd hother (by decide)
    simp at hid ⊢
    tauto
  · intro hid
    have hfound : (([2, 1] : List UInt64).all fun id => (sampleStore.graph.byId[id]?).any fun ev =>
        ev.id == id && ev.streamId == 7) = true := by
      decide +kernel
    obtain ⟨ev, hheld, hev⟩ := (Option.any_eq_true _ _).mp (List.all_eq_true.mp hfound id hid)
    obtain ⟨heq, hstream⟩ := Bool.and_eq_true_iff.mp hev
    obtain rfl := eq_of_beq heq
    exact ⟨ev, (hmem ev).mpr ⟨hheld, eq_of_beq hstream⟩, rfl⟩

end Onisin.Mem
