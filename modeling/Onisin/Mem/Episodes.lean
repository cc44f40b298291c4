import Mathlib.Algebra.BigOperators.Group.List.Basic
import Onisin.Lib.Grouping
import Onisin.Mem.Search

/-!
Episode lookup as the handler computes it: sums per stream in a vector with an index beside it,
a sort, a cut, and the events of each stream sorted into buckets. The buckets are filled the
same way for a summary.
-/

set_option autoImplicit false

namespace Onisin.Mem
open Lib

/-! The buckets. -/

structure Buckets (α : Type) where
  space : List α
  time : List α
  action : List α
  untracked : List α

def Buckets.empty {α : Type} : Buckets α := ⟨[], [], [], []⟩

def Buckets.push {α : Type} (b : Buckets α) (trace : UInt8) (x : α) : Buckets α :=
  if trace = 1 then { b with space := b.space ++ [x] }
  else if trace = 2 then { b with time := b.time ++ [x] }
  else if trace = 3 then { b with action := b.action ++ [x] }
  else { b with untracked := b.untracked ++ [x] }

/-- The loop over the events of a stream; `f` is what is kept of an event. -/
def Graph.bucket {α : Type} (g : Graph) (f : Event → α) (ids : List UInt64) : Buckets α :=
  ids.foldl (fun b id => (g.byId[id]?).elim b fun ev => b.push ev.trace (f ev)) .empty

/-- What a summary is made from. -/
structure Episode where
  streamId : UInt64
  name : String
  space : List Event
  time : List Event
  action : List Event
  untracked : List Event

def buildEpisode (g : Graph) (streamId : UInt64) : Episode :=
  let b := g.bucket (fun ev => ev) (g.streamEventIds streamId).mergeSort
  { streamId := streamId
    name := ((g.streams[streamId]?).map Stream.name).getD ""
    space := b.space
    time := b.time
    action := b.action
    untracked := b.untracked }

/-! The sums per stream. -/

section
variable {S : Type}

/-- The sums, and for a stream that has one the place of its sum. -/
structure Sums (S : Type) where
  aggs : List (Agg S)
  index : Map Nat

def Sums.empty : Sums S := ⟨[], ∅⟩

def Sums.add [Add S] (g : Graph) (t : Sums S) (hit : UInt64 × S) : Sums S :=
  match g.byId[hit.1]? with
  | none => t
  | some ev =>
    match t.index[ev.streamId]? with
    | some i =>
      { t with aggs := t.aggs.modify i fun a =>
          { a with score := a.score + hit.2, hitCount := a.hitCount + 1 } }
    | none =>
      { aggs := t.aggs ++ [⟨ev.streamId, hit.2, 1, t.aggs.length⟩]
        index := t.index.insert ev.streamId t.aggs.length }

/-- One episode of the reply. -/
def episodeOf (g : Graph) (a : Agg S) : EpisodeJson S :=
  let header := g.streams[a.streamId]?
  let b := g.bucket toEventJson (g.streamEventIds a.streamId).mergeSort
  { streamId := a.streamId
    name := (header.map Stream.name).getD ""
    openedAt := (header.map Stream.openedAt).getD 0
    closedAt := header.bind Stream.closedAt
    score := a.score
    hitCount := a.hitCount
    space := b.space
    time := b.time
    action := b.action
    untracked := b.untracked }

/-- What is made of the hits; `k` is the request's after it is clamped. -/
def episodes [LinearOrder S] [Add S] (k : Nat) (g : Graph) (hits : List (UInt64 × S)) :
    List (EpisodeJson S) :=
  let aggs := (hits.foldl (Sums.add g) .empty).aggs.mergeSort Agg.before
  (aggs.take k).map (episodeOf g)

end

/-! What the buckets hold. -/

theorem bucket_foldl {α : Type} (g : Graph) (f : Event → α) (ids : List UInt64) (b : Buckets α) :
    ids.foldl (fun b id => (g.byId[id]?).elim b fun ev => b.push ev.trace (f ev)) b =
      let evs := ids.filterMap fun id => g.byId[id]?
      { space := b.space ++ (evs.filter (·.trace = 1)).map f
        time := b.time ++ (evs.filter (·.trace = 2)).map f
        action := b.action ++ (evs.filter (·.trace = 3)).map f
        untracked := b.untracked ++
          (evs.filter fun ev => ev.trace ≠ 1 ∧ ev.trace ≠ 2 ∧ ev.trace ≠ 3).map f } := by
  induction ids generalizing b with
  | nil => simp
  | cons id ids ih =>
    rw [List.foldl_cons, ih, List.filterMap_cons]
    cases hev : g.byId[id]? with
    | none => rfl
    | some ev =>
      by_cases h1 : ev.trace = 1
      · simp [Buckets.push, h1]
      · by_cases h2 : ev.trace = 2
        · simp [Buckets.push, h2]
        · by_cases h3 : ev.trace = 3
          · simp [Buckets.push, h3]
          · simp [Buckets.push, h1, h2, h3]

theorem bucket_eq {α : Type} (g : Graph) (f : Event → α) (ids : List UInt64) :
    g.bucket f ids =
      let evs := ids.filterMap fun id => g.byId[id]?
      { space := (evs.filter (·.trace = 1)).map f
        time := (evs.filter (·.trace = 2)).map f
        action := (evs.filter (·.trace = 3)).map f
        untracked := (evs.filter fun ev => ev.trace ≠ 1 ∧ ev.trace ≠ 2 ∧ ev.trace ≠ 3).map f } := by
  rw [Graph.bucket, bucket_foldl]
  simp [Buckets.empty]

theorem episodeOf_eq {S : Type} (g : Graph) (a : Agg S) : episodeOf g a = toEpisode g a := by
  rw [episodeOf, bucket_eq, toEpisode]

/-- The same buckets, of whole events in a summary and of their wire shapes in a reply. -/
theorem episodeOf_buckets {S : Type} (g : Graph) (a : Agg S) :
    (episodeOf g a).space = (buildEpisode g a.streamId).space.map toEventJson ∧
      (episodeOf g a).time = (buildEpisode g a.streamId).time.map toEventJson ∧
      (episodeOf g a).action = (buildEpisode g a.streamId).action.map toEventJson ∧
      (episodeOf g a).untracked = (buildEpisode g a.streamId).untracked.map toEventJson := by
  simp only [episodeOf, buildEpisode, bucket_eq, List.map_id', and_self]

/-- The events of a stream in four buckets: each bucket in the order of the ids and of its own
trace, and every event of the stream in exactly one place. -/
structure Episode.Holds (ep : Episode) (g : Graph) : Prop where
  space : Ascends Event.num ep.space ∧ ∀ ev ∈ ep.space, ev.trace = 1
  time : Ascends Event.num ep.time ∧ ∀ ev ∈ ep.time, ev.trace = 2
  action : Ascends Event.num ep.action ∧ ∀ ev ∈ ep.action, ev.trace = 3
  untracked : Ascends Event.num ep.untracked ∧
    ∀ ev ∈ ep.untracked, ev.trace ≠ 1 ∧ ev.trace ≠ 2 ∧ ev.trace ≠ 3
  once : ((ep.space ++ ep.time ++ ep.action ++ ep.untracked).map Event.id).Nodup
  all : ∀ ev, ev ∈ ep.space ++ ep.time ++ ep.action ++ ep.untracked ↔
    g.byId[ev.id]? = some ev ∧ ev.streamId = ep.streamId

theorem mergeSort_asc {ids : List UInt64} (h : ids.Pairwise (· < ·)) : ids.mergeSort = ids :=
  List.mergeSort_of_pairwise (h.imp fun hab => by simpa using UInt64.le_of_lt hab)

/-- Every event is in exactly one bucket. -/
theorem buckets_perm (evs : List Event) :
    ((evs.filter (·.trace = 1)) ++ (evs.filter (·.trace = 2)) ++ (evs.filter (·.trace = 3)) ++
      (evs.filter fun ev => ev.trace ≠ 1 ∧ ev.trace ≠ 2 ∧ ev.trace ≠ 3)).Perm evs := by
  induction evs with
  | nil => exact List.Perm.nil
  | cons ev evs ih =>
    have hcons := ih.cons ev
    by_cases h1 : ev.trace = 1
    · simpa [h1] using hcons
    · by_cases h2 : ev.trace = 2
      · rw [List.append_assoc, List.append_assoc] at hcons
        simpa [h1, h2] using List.perm_middle.trans hcons
      · by_cases h3 : ev.trace = 3
        · rw [List.append_assoc] at hcons
          simpa [h1, h2, h3] using List.perm_middle.trans hcons
        · simpa [h1, h2, h3] using List.perm_middle.trans hcons

section
variable {s : Store} {live : List Event}

theorem Store.IdsAscend.sorted_held (h : s.IdsAscend live) (streamId : UInt64) :
    ((s.graph.streamEventIds streamId).mergeSort.filterMap fun id => s.graph.byId[id]?) =
      s.graph.held streamId := by
  have hids : s.graph.streamEventIds streamId = (s.graph.held streamId).map Event.id := by
    rw [h.held, Graph.streamEventIds, h.graph, byStream_foldl]
    simp [Graph.empty]
  have hasc : (s.graph.streamEventIds streamId).Pairwise (· < ·) := by
    rw [hids]
    exact List.pairwise_map.mpr
      ((h.held_ascends streamId).imp fun hab => UInt64.lt_iff_toNat_lt.mpr hab)
  rw [mergeSort_asc hasc, Graph.held]

theorem buildEpisode_holds (h : s.IdsAscend live) (streamId : UInt64) :
    (buildEpisode s.graph streamId).Holds s.graph := by
  have hasc := h.held_ascends streamId
  have hmem : ∀ ev, ev ∈ s.graph.held streamId ↔
      s.graph.byId[ev.id]? = some ev ∧ ev.streamId = streamId := fun ev => h.mem_held
  have hbuckets := h.sorted_held streamId
  generalize s.graph.held streamId = evs at hasc hmem hbuckets
  have hnodup : (evs.map Event.id).Nodup := by
    refine List.pairwise_map.mpr (hasc.imp fun hab heq => ?_)
    exact absurd (congrArg UInt64.toNat heq) (Nat.ne_of_lt hab)
  have hperm := buckets_perm evs
  simp only [buildEpisode, bucket_eq, List.map_id', hbuckets]
  constructor
  · exact ⟨hasc.filter _, fun ev hev => by simpa using (List.mem_filter.mp hev).2⟩
  · exact ⟨hasc.filter _, fun ev hev => by simpa using (List.mem_filter.mp hev).2⟩
  · exact ⟨hasc.filter _, fun ev hev => by simpa using (List.mem_filter.mp hev).2⟩
  · exact ⟨hasc.filter _, fun ev hev => by simpa using (List.mem_filter.mp hev).2⟩
  · exact (hperm.map Event.id).nodup_iff.mpr hnodup
  · exact fun ev => hperm.mem_iff.trans (hmem ev)

end

/-! The sums. -/

section
variable {S : Type}

/-- The index says where the sum of each stream is. -/
def Sums.Indexed (t : Sums S) : Prop :=
  ∀ (k : UInt64) (i : Nat), t.index[k]? = some i ↔ (t.aggs.map Agg.streamId)[i]? = some k

theorem Sums.empty_indexed : (Sums.empty : Sums S).Indexed := by
  intro k i
  simp [Sums.empty]

/-- Where the index points is the only sum of its stream. -/
theorem Sums.Indexed.modify_eq {t : Sums S} (h : t.Indexed) {k : UInt64} {i : Nat}
    (hi : t.index[k]? = some i) (f : Agg S → Agg S) :
    t.aggs.modify i f = t.aggs.map fun a => if a.streamId = k then f a else a := by
  have hat := (h k i).mp hi
  refine List.ext_getElem? fun j => ?_
  rw [List.getElem?_modify, List.getElem?_map]
  cases hj : t.aggs[j]? with
  | none => rfl
  | some a =>
    by_cases hij : i = j
    · subst hij
      have hk : a.streamId = k := by
        rw [List.getElem?_map, hj] at hat
        simpa using hat
      simp [hk]
    · have hk : a.streamId ≠ k := by
        intro hk
        have hother : t.index[k]? = some j := by
          rw [h k j, List.getElem?_map, hj, Option.map_some, hk]
        rw [hi] at hother
        exact hij (Option.some.inj hother)
      simp [hij, hk]

theorem Sums.Indexed.modify {t : Sums S} (h : t.Indexed) (i : Nat) {f : Agg S → Agg S}
    (hf : ∀ a, (f a).streamId = a.streamId) : Sums.Indexed { t with aggs := t.aggs.modify i f } := by
  have hstreams : (t.aggs.modify i f).map Agg.streamId = t.aggs.map Agg.streamId := by
    refine List.ext_getElem? fun j => ?_
    rw [List.getElem?_map, List.getElem?_map, List.getElem?_modify]
    cases t.aggs[j]? with
    | none => rfl
    | some a =>
      by_cases hij : i = j
      · simp [hij, hf]
      · simp [hij]
  intro k j
  dsimp only
  rw [hstreams, h k j]

theorem Sums.Indexed.absent {t : Sums S} (h : t.Indexed) {k : UInt64} (hk : t.index[k]? = none)
    {a : Agg S} (ha : a ∈ t.aggs) : a.streamId ≠ k := by
  intro hs
  obtain ⟨j, hj⟩ := List.getElem?_of_mem ha
  have hat : t.index[k]? = some j := by rw [h k j, List.getElem?_map, hj, Option.map_some, hs]
  rw [hk] at hat
  cases hat

/-- The sum of a new stream goes to the end, and the index learns where that is. -/
theorem Sums.Indexed.push {t : Sums S} (h : t.Indexed) {a : Agg S}
    (hk : t.index[a.streamId]? = none) :
    Sums.Indexed ⟨t.aggs ++ [a], t.index.insert a.streamId t.aggs.length⟩ := by
  intro k j
  dsimp only
  rw [List.map_append, List.map_cons, List.map_nil, Std.ExtTreeMap.getElem?_insert,
    List.getElem?_append, List.length_map, List.getElem?_singleton]
  by_cases hs : a.streamId = k
  · subst hs
    simp only [Std.compare_self, if_true, Option.some.injEq]
    by_cases hj : j < t.aggs.length
    · rw [if_pos hj]
      refine iff_of_false (by omega) fun hat => ?_
      rw [← h, hk] at hat
      cases hat
    · rw [if_neg hj]
      by_cases hlast : j - t.aggs.length = 0
      · rw [if_pos hlast]
        exact iff_of_true (by omega) rfl
      · rw [if_neg hlast]
        exact iff_of_false (by omega) (by simp)
  · have hc : compare a.streamId k ≠ .eq := fun he => hs (Std.LawfulEqOrd.eq_of_compare he)
    rw [if_neg hc, h k j]
    by_cases hj : j < t.aggs.length
    · rw [if_pos hj]
    · rw [if_neg hj, List.getElem?_eq_none (by rw [List.length_map]; omega)]
      refine iff_of_false (by simp) fun hat => ?_
      split at hat
      · exact hs (Option.some.inj hat)
      · cases hat

theorem Sums.add_spec [Add S] {g : Graph} {t : Sums S} (h : t.Indexed) (hit : UInt64 × S) :
    (t.add g hit).aggs = aggregate g t.aggs hit ∧ (t.add g hit).Indexed := by
  rw [Sums.add, aggregate]
  cases hev : g.byId[hit.1]? with
  | none => exact ⟨rfl, h⟩
  | some ev =>
    dsimp only
    cases hi : t.index[ev.streamId]? with
    | some i =>
      have hsome : (t.aggs.any fun a => a.streamId = ev.streamId) = true := by
        have hat := (h _ _).mp hi
        rw [List.getElem?_map, Option.map_eq_some_iff] at hat
        obtain ⟨a, ha, hk⟩ := hat
        exact List.any_eq_true.mpr ⟨a, List.mem_of_getElem? ha, decide_eq_true hk⟩
      rw [if_pos hsome]
      exact ⟨h.modify_eq hi _, h.modify i fun _ => rfl⟩
    | none =>
      have hnone : ¬ (t.aggs.any fun a => a.streamId = ev.streamId) = true := by
        rw [List.any_eq_true]
        rintro ⟨a, ha, hk⟩
        exact h.absent hi ha (of_decide_eq_true hk)
      rw [if_neg hnone]
      exact ⟨rfl, h.push hi⟩

/-- The vector with its index and the list without one have the same sums. -/
theorem sums_eq_aggregate [Add S] (g : Graph) (hits : List (UInt64 × S)) {t : Sums S}
    (h : t.Indexed) : (hits.foldl (Sums.add g) t).aggs = hits.foldl (aggregate g) t.aggs := by
  induction hits generalizing t with
  | nil => rfl
  | cons hit hits ih =>
    obtain ⟨haggs, hindexed⟩ := Sums.add_spec h hit
    rw [List.foldl_cons, List.foldl_cons, ih hindexed, haggs]

theorem episodeLookup_eq [LinearOrder S] [Add S] (cosine : List UInt32 → List UInt32 → S)
    (query : List UInt32) (k : Nat) (g : Graph) (values : List Event) :
    episodeLookup cosine query k g values =
      episodes (clampK k episodeKDefault episodeKCap) g
        (search cosine query (episodeFetch k) none values) := by
  rw [episodeLookup, episodes, sums_eq_aggregate g _ Sums.empty_indexed]
  exact List.map_congr_left fun a _ => (episodeOf_eq g a).symm

/-- The hits with their streams; a hit whose event is gone has none. -/
def streamHits (g : Graph) (hits : List (UInt64 × S)) : List (UInt64 × S) :=
  hits.filterMap fun hit => (g.byId[hit.1]?).map fun ev => (ev.streamId, hit.2)

/-- What the sums are when the hits `l` are counted. -/
structure Tallied [AddCommMonoid S] (l : List (UInt64 × S)) (aggs : List (Agg S)) : Prop where
  streams : aggs.map Agg.streamId = keysSeen l
  sums : ∀ a ∈ aggs, a.score = (valuesOf a.streamId l).sum ∧
    a.hitCount = (valuesOf a.streamId l).length
  seen : aggs.map Agg.firstSeen = List.range aggs.length

theorem Tallied.step [AddCommMonoid S] {g : Graph} {l : List (UInt64 × S)} {aggs : List (Agg S)}
    (h : Tallied l aggs) {hit : UInt64 × S} {ev : Event} (hev : g.byId[hit.1]? = some ev) :
    Tallied (l ++ [(ev.streamId, hit.2)]) (aggregate g aggs hit) := by
  have hany : (aggs.any fun a => a.streamId = ev.streamId) = true ↔ ev.streamId ∈ keysSeen l := by
    simp [← h.streams]
  rw [aggregate, hev]
  dsimp only
  by_cases hk : ev.streamId ∈ keysSeen l
  · rw [if_pos (hany.mpr hk)]
    constructor
    · rw [keysSeen_snoc, if_pos hk, ← h.streams, List.map_map]
      refine List.map_congr_left fun a _ => ?_
      dsimp only [Function.comp]
      split <;> rfl
    · intro a ha
      obtain ⟨a', ha', rfl⟩ := List.mem_map.mp ha
      obtain ⟨hscore, hcount⟩ := h.sums a' ha'
      rw [valuesOf_snoc]
      by_cases hs : a'.streamId = ev.streamId
      · rw [hs] at hscore hcount
        simp [hs, hscore, hcount]
      · simp [hs, Ne.symm hs, hscore, hcount]
    · rw [List.length_map, List.map_map, ← h.seen]
      refine List.map_congr_left fun a _ => ?_
      dsimp only [Function.comp]
      split <;> rfl
  · rw [if_neg fun h => hk (hany.mp h)]
    constructor
    · rw [keysSeen_snoc, if_neg hk, ← h.streams, List.map_append]
      rfl
    · intro a ha
      rw [valuesOf_snoc]
      rcases List.mem_append.mp ha with ha | ha
      · have hs : ev.streamId ≠ a.streamId := by
          intro hs
          rw [hs, ← h.streams] at hk
          exact hk (List.mem_map_of_mem ha)
        rw [if_neg hs]
        exact h.sums a ha
      · rw [List.mem_singleton.mp ha, if_pos rfl, valuesOf_eq_nil.mpr hk]
        simp
    · rw [List.map_append, h.seen, List.length_append]
      exact List.range_succ.symm

theorem tallied [AddCommMonoid S] (g : Graph) (hits : List (UInt64 × S)) :
    Tallied (streamHits g hits) (hits.foldl (aggregate g) []) := by
  induction hits using List.reverseRecOn with
  | nil => exact ⟨rfl, fun a ha => absurd ha List.not_mem_nil, rfl⟩
  | append_singleton hits hit ih =>
    rw [List.foldl_append, List.foldl_cons, List.foldl_nil, streamHits, List.filterMap_append,
      ← streamHits]
    cases hev : g.byId[hit.1]? with
    | none => simpa [hev, aggregate] using ih
    | some ev => simpa [hev] using ih.step hev

/-- A stream stands before another: its sum is better, or the same and it is hit earlier. -/
def Outranks [LinearOrder S] [AddCommMonoid S] (l : List (UInt64 × S)) (k k' : UInt64) : Prop :=
  (valuesOf k' l).sum < (valuesOf k l).sum ∨
    (valuesOf k l).sum = (valuesOf k' l).sum ∧ firstAt k l < firstAt k' l

theorem Outranks.asymm [LinearOrder S] [AddCommMonoid S] {l : List (UInt64 × S)} {k k' : UInt64}
    (h : Outranks l k k') : ¬ Outranks l k' k := by
  rcases h with h | ⟨h, hfirst⟩
  · rintro (h' | ⟨h', -⟩)
    · exact lt_asymm h h'
    · exact absurd h' (ne_of_lt h)
  · rintro (h' | ⟨-, hfirst'⟩)
    · exact absurd h (ne_of_lt h')
    · omega

theorem Agg.before_trans [LinearOrder S] (a b c : Agg S) (hab : a.before b = true)
    (hbc : b.before c = true) : a.before c = true := by
  simp only [Agg.before, decide_eq_true_eq] at *
  rcases hab with hab | ⟨hab, hseen⟩
  · rcases hbc with hbc | ⟨hbc, -⟩
    · exact .inl (lt_trans hbc hab)
    · exact .inl (hbc ▸ hab)
  · rcases hbc with hbc | ⟨hbc, hseen'⟩
    · exact .inl (hab ▸ hbc)
    · exact .inr ⟨hab.trans hbc, Nat.le_trans hseen hseen'⟩

theorem Agg.before_total [LinearOrder S] (a b : Agg S) : (a.before b || b.before a) = true := by
  simp only [Agg.before, Bool.or_eq_true, decide_eq_true_eq]
  rcases lt_trichotomy a.score b.score with h | h | h
  · exact .inr (.inl h)
  · rcases Nat.le_total a.firstSeen b.firstSeen with hseen | hseen
    · exact .inl (.inr ⟨h, hseen⟩)
    · exact .inr (.inr ⟨h.symm, hseen⟩)
  · exact .inl (.inl h)

/-- The sum of a stream stands in the vector where the stream stands among the streams. -/
theorem Tallied.getElem_streamId [AddCommMonoid S] {l : List (UInt64 × S)} {aggs : List (Agg S)}
    (h : Tallied l aggs) {i : Nat} (hi : i < aggs.length) :
    ∃ hk : i < (keysSeen l).length, aggs[i].streamId = (keysSeen l)[i] ∧ aggs[i].firstSeen = i := by
  have hk : i < (keysSeen l).length := by
    rw [← h.streams, List.length_map]
    exact hi
  have hstream := List.getElem_map Agg.streamId (l := aggs) (i := i) (h := by simpa using hi)
  have hseen := List.getElem_map Agg.firstSeen (l := aggs) (i := i) (h := by simpa using hi)
  simp only [h.streams] at hstream
  simp only [h.seen, List.getElem_range] at hseen
  exact ⟨hk, hstream.symm, hseen.symm⟩

section
variable [LinearOrder S] [AddCommMonoid S] {l : List (UInt64 × S)} {aggs : List (Agg S)}

theorem Tallied.outranks (h : Tallied l aggs) {a b : Agg S} (ha : a ∈ aggs) (hb : b ∈ aggs)
    (hne : a.streamId ≠ b.streamId) (hbefore : a.before b = true) :
    Outranks l a.streamId b.streamId := by
  simp only [Agg.before, decide_eq_true_eq] at hbefore
  rw [Outranks, ← (h.sums a ha).1, ← (h.sums b hb).1]
  rcases hbefore with hlt | ⟨heq, hseen⟩
  · exact .inl hlt
  · refine .inr ⟨heq, ?_⟩
    obtain ⟨i, hi, rfl⟩ := List.getElem_of_mem ha
    obtain ⟨j, hj, rfl⟩ := List.getElem_of_mem hb
    obtain ⟨hik, hi', hseen_i⟩ := h.getElem_streamId hi
    obtain ⟨hjk, hj', hseen_j⟩ := h.getElem_streamId hj
    rw [hseen_i, hseen_j] at hseen
    have hij : i ≠ j := by
      intro hij
      subst hij
      exact hne rfl
    rw [hi', hj']
    exact List.pairwise_iff_getElem.mp (keysSeen_pairwise l) i j hik hjk (by omega)

/-- The sums in the order of the reply. -/
theorem Tallied.sorted (h : Tallied l aggs) :
    ((aggs.mergeSort Agg.before).map Agg.streamId).Pairwise (Outranks l) := by
  have hperm := List.mergeSort_perm aggs Agg.before
  have hnodup : ((aggs.mergeSort Agg.before).map Agg.streamId).Nodup := by
    rw [(hperm.map _).nodup_iff, h.streams]
    exact keysSeen_nodup l
  have hsorted := List.pairwise_mergeSort Agg.before_trans Agg.before_total aggs
  rw [List.pairwise_map]
  refine ((List.pairwise_map.mp hnodup).and hsorted).imp_of_mem fun ha hb hab => ?_
  exact h.outranks (hperm.mem_iff.mp ha) (hperm.mem_iff.mp hb) hab.1 hab.2

end

end

/-! Stores reached by appends that succeed. -/

/-- Every append goes through; anything else may happen in between. -/
def Proc.Appends (p : Proc) : Act → Prop
  | .append now fault ev => ∃ s id, p = .running s ∧ (s.appendEvent now fault ev).2 = .ok id
  | _ => True

theorem Proc.StepOk.appends {p : Proc} {a : Act} (h : p.StepOk a) : p.Appends a := by
  cases a with
  | append now fault ev =>
    obtain ⟨s, id, hs, hid, -⟩ := h
    exact ⟨s, id, hs, hid⟩
  | snapshot now => trivial
  | crash => trivial
  | reopen dim now => trivial

/-- No trail behind what is indexed. -/
def Proc.Clean : Proc → Prop
  | .running s => ∃ E recs old live, s.Tracked E recs old [] [] [] live
  | .down d => Proc.Refined (.down d)

theorem step_clean (p : Proc) (a : Act) (h : p.Clean) (hok : p.Appends a) : (p.step a).Clean := by
  have hdown : Proc.Refined (.down p.disk) := by
    cases p with
    | down d => exact h
    | running s =>
      obtain ⟨E, recs, old, live, ht⟩ := h
      have htr := ht.trailing
      rw [ht.next] at htr
      exact Or.inr ⟨_, _, _, _, htr, ht.numbered⟩
  cases a with
  | append now fault ev =>
    obtain ⟨s, id, rfl, hid⟩ := hok
    obtain ⟨E, recs, old, live, ht⟩ := h
    obtain ⟨hev, hfit, he⟩ := appendEvent_success ht hid
    have hover : s.events.bytes.length ≤ s.eventsBytes + (s.recordOf now ev).length := by
      rw [ht.settled.eventsBytes]
      omega
    show ∃ E recs old live, (s.appendEvent now fault ev).1.Tracked E recs old [] [] [] live
    rw [he]
    exact ⟨_, _, _, _, ht.commit hev hfit hover⟩
  | snapshot now =>
    cases p with
    | down d => exact h
    | running s =>
      obtain ⟨E, recs, old, live, ht⟩ := h
      exact ⟨_, _, _, _, ht.snapshot now⟩
  | crash => exact hdown
  | reopen dim now =>
    have hre := reopened_refined hdown dim now
    show (reopened p.disk dim now).Clean
    cases hp : reopened p.disk dim now with
    | down d =>
      rw [hp] at hre
      exact hre
    | running s =>
      rw [hp] at hre
      obtain ⟨E, recs, old, ht⟩ := hre
      exact ⟨_, _, _, _, ht⟩

theorem run_appends (acts : List Act) (h : Along Proc.step Proc.Appends (.down .blank) acts)
    {s : Store} (hs : run Proc.step (.down .blank) acts = .running s) :
    ∃ live, s.IdsAscend live := by
  have h0 : Proc.Clean (.down .blank) := Or.inl rfl
  have hinv := run_invariant step_clean h0 h
  rw [hs] at hinv
  obtain ⟨E, recs, old, live, ht⟩ := hinv
  exact ⟨live, ht.idsAscend⟩

section
variable {S : Type} [LinearOrder S] [AddCommMonoid S]

theorem episodes_streams (k : Nat) (g : Graph) (hits : List (UInt64 × S)) :
    (episodes k g hits).map EpisodeJson.streamId =
      (((hits.foldl (aggregate g) []).mergeSort Agg.before).map Agg.streamId).take k := by
  rw [episodes, sums_eq_aggregate g hits Sums.empty_indexed, List.map_map, List.map_take]
  rfl

/-- Streams that are hit and do not come back stand behind all that do. -/
theorem episodes_left_out {k : Nat} {g : Graph} {hits : List (UInt64 × S)} {streamId : UInt64}
    (hhit : valuesOf streamId (streamHits g hits) ≠ [])
    (hout : streamId ∉ (episodes k g hits).map EpisodeJson.streamId) :
    (episodes k g hits).length = k ∧
      ∀ ep ∈ episodes k g hits, Outranks (streamHits g hits) ep.streamId streamId := by
  have ht := tallied g hits
  have hsorted := ht.sorted
  have hmem : streamId ∈
      ((hits.foldl (aggregate g) []).mergeSort Agg.before).map Agg.streamId := by
    rw [((List.mergeSort_perm _ _).map _).mem_iff, ht.streams]
    by_contra habsent
    exact hhit (valuesOf_eq_nil.mpr habsent)
  rw [episodes_streams] at hout
  have hlen := congrArg List.length (episodes_streams k g hits)
  rw [List.length_map, List.length_take] at hlen
  generalize hr : ((hits.foldl (aggregate g) []).mergeSort Agg.before).map Agg.streamId = streams
    at hsorted hmem hout hlen
  have hdrop : streamId ∈ streams.drop k := by
    rw [← List.take_append_drop k streams, List.mem_append] at hmem
    exact hmem.resolve_left hout
  constructor
  · have hpos := List.length_pos_of_mem hdrop
    rw [List.length_drop] at hpos
    omega
  · intro ep hep
    have hin : ep.streamId ∈ streams.take k := by
      rw [← hr, ← episodes_streams]
      exact List.mem_map_of_mem hep
    rw [← List.take_append_drop k streams] at hsorted
    exact (List.pairwise_append.mp hsorted).2.2 _ hin _ hdrop

end

/-- What the episodes of a reply are. -/
structure Gathered {S : Type} [LinearOrder S] [AddCommMonoid S] (k : Nat) (g : Graph)
    (hits : List (UInt64 × S)) : Prop where
  count : (episodes k g hits).length ≤ k
  distinct : ((episodes k g hits).map EpisodeJson.streamId).Nodup
  sums : ∀ ep ∈ episodes k g hits, 0 < ep.hitCount ∧
    ep.hitCount = (valuesOf ep.streamId (streamHits g hits)).length ∧
    ep.score = (valuesOf ep.streamId (streamHits g hits)).sum
  order : ((episodes k g hits).map EpisodeJson.streamId).Pairwise (Outranks (streamHits g hits))
  /-- A stream is left out for want of room only, and stands before none that is not. -/
  leftOut : ∀ streamId, valuesOf streamId (streamHits g hits) ≠ [] →
    streamId ∉ (episodes k g hits).map EpisodeJson.streamId →
    (episodes k g hits).length = k ∧
      ∀ ep ∈ episodes k g hits, ¬ Outranks (streamHits g hits) streamId ep.streamId
  summary : ∀ streamId, (buildEpisode g streamId).streamId = streamId ∧
    (buildEpisode g streamId).Holds g
  buckets : ∀ ep ∈ episodes k g hits,
    ep.space = (buildEpisode g ep.streamId).space.map toEventJson ∧
    ep.time = (buildEpisode g ep.streamId).time.map toEventJson ∧
    ep.action = (buildEpisode g ep.streamId).action.map toEventJson ∧
    ep.untracked = (buildEpisode g ep.streamId).untracked.map toEventJson

/-- At most as many episodes as asked for, each of another stream, with the count and the sum of
the stream's hits, the better ones first and of equal ones the one hit earlier; and each with all
events of its stream in four buckets, as a summary has them. -/
theorem episodes_gather_streams {S : Type} [LinearOrder S] [AddCommMonoid S] (acts : List Act)
    (h : Along Proc.step Proc.Appends (.down .blank) acts) (s : Store)
    (hs : run Proc.step (.down .blank) acts = .running s) (hits : List (UInt64 × S)) (k : Nat) :
    Gathered k s.graph hits := by
  obtain ⟨live, hlive⟩ := run_appends acts h hs
  have ht := tallied s.graph hits
  have hperm := List.mergeSort_perm (hits.foldl (aggregate s.graph) []) Agg.before
  have hof : ∀ ep ∈ episodes k s.graph hits,
      ∃ a ∈ hits.foldl (aggregate s.graph) [], episodeOf s.graph a = ep := by
    intro ep hep
    rw [episodes, sums_eq_aggregate _ hits Sums.empty_indexed] at hep
    obtain ⟨a, ha, rfl⟩ := List.mem_map.mp hep
    exact ⟨a, hperm.mem_iff.mp (List.mem_of_mem_take ha), rfl⟩
  constructor
  case count =>
    rw [episodes, List.length_map, List.length_take]
    exact Nat.min_le_left _ _
  case distinct =>
    have hnodup : ((hits.foldl (aggregate s.graph) []).map Agg.streamId).Nodup := by
      rw [ht.streams]
      exact keysSeen_nodup _
    rw [episodes_streams]
    exact ((hperm.map _).nodup_iff.mpr hnodup).sublist (List.take_sublist _ _)
  case sums =>
    intro ep hep
    obtain ⟨a, ha, rfl⟩ := hof ep hep
    obtain ⟨hscore, hcount⟩ := ht.sums a ha
    refine ⟨?_, hcount, hscore⟩
    have hkey : a.streamId ∈ keysSeen (streamHits s.graph hits) := by
      rw [← ht.streams]
      exact List.mem_map_of_mem ha
    show 0 < a.hitCount
    rw [hcount, List.length_pos_iff]
    exact fun hnil => valuesOf_eq_nil.mp hnil hkey
  case order =>
    rw [episodes_streams]
    exact ht.sorted.sublist (List.take_sublist _ _)
  case leftOut =>
    intro streamId hhit hout
    obtain ⟨hlen, hbehind⟩ := episodes_left_out hhit hout
    exact ⟨hlen, fun ep hep => (hbehind ep hep).asymm⟩
  case summary => exact fun streamId => ⟨rfl, buildEpisode_holds hlive streamId⟩
  case buckets =>
    intro ep hep
    obtain ⟨a, -, rfl⟩ := hof ep hep
    exact episodeOf_buckets s.graph a

/-- Two hits of one stream and a better one of another, in between. -/
def sampleHits : List (UInt64 × Nat) := [(1, 3), (3, 10), (2, 4)]

/-- The better stream comes first although it was hit later, and alone where there is room for
one. -/
theorem episodes_gather_streams_sample :
    Gathered 1 sampleStore.graph sampleHits ∧
      ∀ k, (episodes k sampleStore.graph sampleHits).map EpisodeJson.streamId = [9, 7].take k := by
  have happends : Along Proc.step Proc.Appends (.down .blank) sampleActs :=
    sampleActs_ok.weaken step_refined (fun _ _ _ hok => hok.appends) (.inl rfl)
  constructor
  · exact episodes_gather_streams _ happends _ run_sampleActs _ 1
  · intro k
    have hsums : sampleHits.foldl (aggregate sampleStore.graph) [] =
        [⟨7, 7, 2, 0⟩, ⟨9, 10, 1, 1⟩] := by
      decide +kernel
    rw [episodes_streams, hsums]
    congr 1
    simp [List.mergeSort, Agg.before]

end Onisin.Mem
