import Onisin.Lib.Ranking
import Onisin.Mem.StreamEvents

/-!
Searching the events by score and gathering the hits into episodes. The scan reads the map of
events in the order in which the map happens to give them; scores are any linearly ordered
type with a sum, since rounding is not looked into.
-/

set_option autoImplicit false

namespace Onisin.Mem
open Lib

section
variable {S : Type} [LinearOrder S]

/-- Whether a float is not zero, by its bits; there are two zeros. -/
def nonzero (bits : UInt32) : Bool := bits ≠ 0 ∧ bits ≠ 0x80000000

/-- The hits before they are ranked, of the events in the order they are read in. -/
def scored (cosine : List UInt32 → List UInt32 → S) (query : List UInt32) (streamId : Option UInt64)
    (values : List Event) : List (UInt64 × S) :=
  ((values.filter fun ev => streamId.all (ev.streamId = ·)).filter fun ev =>
    ev.vector.any nonzero).map fun ev => (ev.id, cosine query ev.vector)

def search (cosine : List UInt32 → List UInt32 → S) (query : List UInt32) (k : Nat)
    (streamId : Option UInt64) (values : List Event) : List (UInt64 × S) :=
  best Prod.snd k (scored cosine query streamId values)

/-! Episodes. -/

def searchKCap : Nat := 256

def episodeKDefault : Nat := 5

def episodeKCap : Nat := 20

def episodeOverfetch : Nat := 6

def clampK (k default cap : Nat) : Nat := if k = 0 then default else min k cap

/-- How many events are searched for the episodes asked for. -/
def episodeFetch (k : Nat) : Nat :=
  min (clampK k episodeKDefault episodeKCap * episodeOverfetch) searchKCap

structure Agg (S : Type) where
  streamId : UInt64
  score : S
  hitCount : Nat
  firstSeen : Nat
  deriving DecidableEq

structure EpisodeJson (S : Type) where
  streamId : UInt64
  name : String
  openedAt : DateTime
  closedAt : Option DateTime
  score : S
  hitCount : Nat
  space : List EventJson
  time : List EventJson
  action : List EventJson
  untracked : List EventJson

variable [Add S]

/-- One hit: added to its stream, or the first of a new one. -/
def aggregate (g : Graph) (aggs : List (Agg S)) (hit : UInt64 × S) : List (Agg S) :=
  match g.byId[hit.1]? with
  | none => aggs
  | some ev =>
    if aggs.any fun a => a.streamId = ev.streamId then
      aggs.map fun a =>
        if a.streamId = ev.streamId then { a with score := a.score + hit.2, hitCount := a.hitCount + 1 }
        else a
    else aggs ++ [⟨ev.streamId, hit.2, 1, aggs.length⟩]

/-- Better score first; of equal scores the stream first seen. -/
def Agg.before (a b : Agg S) : Bool := b.score < a.score ∨ a.score = b.score ∧ a.firstSeen ≤ b.firstSeen

def toEpisode (g : Graph) (a : Agg S) : EpisodeJson S :=
  let header := g.streams[a.streamId]?
  let evs := ((g.streamEventIds a.streamId).mergeSort).filterMap fun id => g.byId[id]?
  let bucket (p : Event → Bool) : List EventJson := (evs.filter p).map toEventJson
  { streamId := a.streamId
    name := (header.map Stream.name).getD ""
    openedAt := (header.map Stream.openedAt).getD 0
    closedAt := header.bind Stream.closedAt
    score := a.score
    hitCount := a.hitCount
    space := bucket (·.trace = 1)
    time := bucket (·.trace = 2)
    action := bucket (·.trace = 3)
    untracked := bucket fun ev => ev.trace ≠ 1 ∧ ev.trace ≠ 2 ∧ ev.trace ≠ 3 }

/-- `k` is the request's. -/
def episodeLookup (cosine : List UInt32 → List UInt32 → S) (query : List UInt32) (k : Nat) (g : Graph)
    (values : List Event) : List (EpisodeJson S) :=
  let hits := search cosine query (episodeFetch k) none values
  let aggs := (hits.foldl (aggregate g) []).mergeSort Agg.before
  (aggs.take (clampK k episodeKDefault episodeKCap)).map (toEpisode g)

end

/-! The order of the scan. -/

def Graph.values (g : Graph) : List Event := g.byId.toList.map Prod.snd

/-- An order in which a hash map may give the events. -/
def Iterates (g : Graph) (values : List Event) : Prop := values.Perm g.values

theorem scored_perm {S : Type} {cosine : List UInt32 → List UInt32 → S} {query : List UInt32}
    {streamId : Option UInt64} {values values' : List Event} (h : values.Perm values') :
    (scored cosine query streamId values).Perm (scored cosine query streamId values') :=
  ((h.filter _).filter _).map _

section
variable {S : Type} [LinearOrder S] (cosine : List UInt32 → List UInt32 → S) (query : List UInt32)

def SearchSame (k : Nat) (streamId : Option UInt64) (g : Graph) : Prop :=
  ∀ values values', Iterates g values → Iterates g values' →
    search cosine query k streamId values = search cosine query k streamId values'

def EpisodesSame [Add S] (k : Nat) (g : Graph) : Prop :=
  ∀ values values', Iterates g values → Iterates g values' →
    episodeLookup cosine query k g values = episodeLookup cosine query k g values'

variable {cosine query} {k : Nat} {streamId : Option UInt64} {g : Graph}

/-- An event read first is the first of the hits. -/
theorem scored_first {values : List Event} {hit : UInt64 × S}
    (h : hit ∈ scored cosine query streamId values) :
    ∃ values', values'.Perm values ∧
      (scored cosine query streamId values').find? (fun a => a.2 = hit.2) = some hit := by
  obtain ⟨ev, hev, rfl⟩ := List.mem_map.mp h
  obtain ⟨hev, hnonzero⟩ := List.mem_filter.mp hev
  obtain ⟨hmem, hstream⟩ := List.mem_filter.mp hev
  obtain ⟨s, t, rfl⟩ := List.append_of_mem hmem
  refine ⟨ev :: (s ++ t), List.perm_middle.symm, ?_⟩
  simp [scored, hstream, hnonzero]

theorem search_same_iff :
    SearchSame cosine query k streamId g ↔
      TiesBelow Prod.snd k (scored cosine query streamId g.values) := by
  constructor
  · intro hsame x hx y hy hne htie
    by_contra hlt
    obtain ⟨values, hp, hfirst⟩ := scored_first hx
    obtain ⟨values', hp', hfirst'⟩ := scored_first hy
    rw [← htie] at hfirst'
    have hcount : (scored cosine query streamId values).countP (fun z => x.2 < z.2) < k := by
      rw [(scored_perm hp).countP_eq]
      omega
    have hcount' : (scored cosine query streamId values').countP (fun z => x.2 < z.2) < k := by
      rw [(scored_perm hp').countP_eq]
      omega
    exact best_ne hne hfirst hfirst' hcount hcount' (hsame values values' hp hp')
  · intro hties values values' hp hp'
    have h := hties.perm (scored_perm hp.symm)
    exact best_perm h (scored_perm (hp.trans hp'.symm))

/-- The episodes are made from the hits alone. -/
theorem episodes_same_of_search [Add S] (h : SearchSame cosine query (episodeFetch k) none g) :
    EpisodesSame cosine query k g := by
  intro values values' hp hp'
  rw [episodeLookup, h values values' hp hp', ← episodeLookup]

/-- No two hits tie exactly when the hits of every search are the same. -/
theorem no_ties_iff :
    (∀ hit ∈ scored cosine query none g.values, ∀ hit' ∈ scored cosine query none g.values,
      hit ≠ hit' → hit.2 ≠ hit'.2) ↔ ∀ k streamId, SearchSame cosine query k streamId g := by
  constructor
  · intro hno k streamId
    rw [search_same_iff]
    have hall : ∀ hit ∈ scored cosine query streamId g.values,
        hit ∈ scored cosine query none g.values := by
      intro hit hhit
      obtain ⟨ev, hev, rfl⟩ := List.mem_map.mp hhit
      obtain ⟨hev, hnonzero⟩ := List.mem_filter.mp hev
      have hmem := (List.mem_filter.mp hev).1
      exact List.mem_map_of_mem (List.mem_filter.mpr ⟨List.mem_filter.mpr ⟨hmem, rfl⟩, hnonzero⟩)
    intro x hx y hy hne htie
    exact absurd htie (hno x (hall x hx) y (hall y hy) hne)
  · intro hsame x hx y hy hne htie
    have hmany := search_same_iff.mp (hsame ((scored cosine query none g.values).length + 1) none)
      x hx y hy hne htie
    have hle : (scored cosine query none g.values).countP (fun z => x.2 < z.2) ≤
        (scored cosine query none g.values).length := List.countP_le_length
    omega

end

/-- The hits do not depend on the order of the map exactly when every tie is behind the cut, and
then the episodes do not either; for all cuts and streams that is when no two hits tie. -/
theorem search_order_iff {S : Type} [LinearOrder S] [Add S] (cosine : List UInt32 → List UInt32 → S)
    (query : List UInt32) (g : Graph) :
    (∀ k streamId, SearchSame cosine query k streamId g ↔
      TiesBelow Prod.snd k (scored cosine query streamId g.values)) ∧
    (∀ k, TiesBelow Prod.snd (episodeFetch k) (scored cosine query none g.values) →
      EpisodesSame cosine query k g) ∧
    (((∀ k streamId, SearchSame cosine query k streamId g) ∧ ∀ k, EpisodesSame cosine query k g) ↔
      ∀ hit ∈ scored cosine query none g.values, ∀ hit' ∈ scored cosine query none g.values,
        hit ≠ hit' → hit.2 ≠ hit'.2) := by
  refine ⟨fun k streamId => search_same_iff, fun k h => ?_, ?_⟩
  · exact episodes_same_of_search (search_same_iff.mpr h)
  · rw [no_ties_iff]
    constructor
    · exact fun h => h.1
    · exact fun h => ⟨h, fun k => episodes_same_of_search (h _ none)⟩

/-! Two events with one text. -/

def noted (id : UInt64) : Event where
  id := id
  streamId := id
  createdAt := 0
  closedAt := none
  eventType := 0
  outcome := 0
  confidence := 0
  flags := 0
  trace := 0
  refs := []
  content := "note"
  topic := ""
  cost := ""
  vector := [0x3f800000]
  fileOffset := 0

def twoNotes : Graph := [noted 1, noted 2].foldl Graph.absorb .empty

def oneScore (_ _ : List UInt32) : Nat := 1

theorem twoNotes_search (k : Nat) {values : List Event}
    (h : values = [noted 1, noted 2] ∨ values = [noted 2, noted 1]) :
    search oneScore [] k none values = (values.map fun ev => (ev.id, 1)).take k := by
  rcases h with rfl | rfl
  · rw [search, best, ranked, List.mergeSort_of_pairwise (by decide)]
    rfl
  · rw [search, best, ranked, List.mergeSort_of_pairwise (by decide)]
    rfl

/-- Of the two streams the one read first is the episode. -/
theorem twoNotes_episode {values : List Event}
    (h : values = [noted 1, noted 2] ∨ values = [noted 2, noted 1]) :
    (episodeLookup oneScore [] 1 twoNotes values).map EpisodeJson.streamId =
      (values.map Event.streamId).take 1 := by
  rw [episodeLookup, twoNotes_search _ h]
  rcases h with rfl | rfl
  · rw [List.mergeSort_of_pairwise (by decide), List.map_map]
    rfl
  · rw [List.mergeSort_of_pairwise (by decide), List.map_map]
    rfl

/-- Two events that score the same: which of them is found, and which stream is the episode,
is a matter of the order of the map. -/
theorem search_follows_order :
    ¬ SearchSame oneScore [] 1 none twoNotes ∧ ¬ EpisodesSame oneScore [] 1 twoNotes := by
  have hfirst : Iterates twoNotes [noted 1, noted 2] := by
    rw [Iterates, show twoNotes.values = [noted 1, noted 2] by decide]
  have hsecond : Iterates twoNotes [noted 2, noted 1] := (List.Perm.swap _ _ _).trans hfirst
  constructor
  · intro h
    have hsame := h _ _ hfirst hsecond
    rw [twoNotes_search 1 (Or.inl rfl), twoNotes_search 1 (Or.inr rfl)] at hsame
    exact absurd hsame (by decide)
  · intro h
    have hsame := congrArg (List.map EpisodeJson.streamId) (h _ _ hfirst hsecond)
    rw [twoNotes_episode (Or.inl rfl), twoNotes_episode (Or.inr rfl)] at hsame
    exact absurd hsame (by decide)

end Onisin.Mem
