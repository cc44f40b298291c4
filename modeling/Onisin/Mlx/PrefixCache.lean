import Onisin.Lib.Runs
import Onisin.Mlx.Forward
import Onisin.Mlx.ReusablePrefix
import Onisin.Mlx.Tokenizer

/-!
The prompt-prefix cache of a resident model. A request takes the snapshot of an earlier one
and, if its prompt extends it, resumes there; it feeds the prompt in chunks up to the reusable
boundary, freezes the cache, and feeds what is left. Whatever the requests before were and
wherever they failed, the first token is picked on a cache fed exactly the prompt.
-/

set_option autoImplicit false

namespace Onisin.Mlx
open Lib

variable {α β : Type}

structure PrefixCache (α : Type) where
  promptIds : List Int32
  cache : KvCache α

structure Request where
  messages : List ChatMessage
  thinking : Bool
  tools : List Tool
  /-- `OOSMLX_PREFILL_CHUNK`, or its default. -/
  prefillChunk : Nat
  prefixEnabled : Bool
  /-- Forwards that succeed before one fails, if one fails at all. -/
  fuse : Option Nat

/-- How a request ends before its first pick. -/
inductive Stop where
  | tokenize
  | forward
  | underflow
  | badSlice
  deriving DecidableEq, Repr

/-- What a request sets out with: its prompt, the freeze point, and where it resumes. -/
structure Plan (α : Type) where
  promptIds : List Int32
  reuseBoundary : Nat
  cache : KvCache α
  start : Nat

/-- The part behind the reusable prefix, if there is one. -/
def nonreusableSuffix (prompt : Text) : Except Stop (Option Text) :=
  if reusablePrefixLen prompt < byteLen prompt then
    match Text.sliceFrom (reusablePrefixLen prompt) prompt with
    | some suffix => .ok (some suffix)
    | none => .error .badSlice
  else .ok none

def Tokenizer.encodeIds (t : Tokenizer) (text : Text) : Except Stop (List Int32) :=
  match t.ids text with
  | some ids => .ok ids
  | none => .error .tokenize

/-- The freeze point: the tokens of the suffix count back from the end of the prompt. -/
def Tokenizer.reuseBoundary (t : Tokenizer) (promptIds : List Int32) :
    Option Text → Except Stop Nat
  | some suffix => do
    let suf ← t.encodeIds suffix
    return promptIds.length - suf.length
  | none => .ok promptIds.length

/-- Reuse only extends: the prompt has to continue the snapshot's by at least one token. -/
def resume (numLayers : Nat) (prior : Option (PrefixCache α)) (promptIds : List Int32) :
    KvCache α × Nat :=
  match prior with
  | some p =>
    if p.promptIds.length < promptIds.length ∧
        promptIds.take p.promptIds.length = p.promptIds then
      (p.cache, p.promptIds.length)
    else (.new numLayers, 0)
  | none => (.new numLayers, 0)

def Gemma4.plan (m : Gemma4 α β) (rt : Runtime) (t : Tokenizer) (prior : Option (PrefixCache α))
    (r : Request) : Except Stop (Plan α) := do
  let prompt := renderPrompt rt r.messages r.thinking r.tools
  let suffix ← nonreusableSuffix prompt
  let promptIds ← t.encodeIds prompt
  let reuseBoundary ← t.reuseBoundary promptIds suffix
  let (cache, start) := resume m.layers.length (if r.prefixEnabled then prior else none) promptIds
  return { promptIds, reuseBoundary, cache, start }

section
variable [Inhabited α]

/-- The last position's hidden row, of which the logits are a function. -/
def Gemma4.forwardLogits (m : Gemma4 α β) (ids : List Int32) (c : KvCache α) :
    Option (KvCache α × β) := do
  let (c, hidden) ← m.forwardHidden ids c
  return (c, ← hidden.getLast?)

/-- A cache in use by a request, with what is left of its fuse. -/
structure Feed (α : Type) where
  cache : KvCache α
  fuse : Option Nat

def Gemma4.feed (m : Gemma4 α β) (ids : List Int32) (f : Feed α) : Except Stop (Feed α × β) :=
  if f.fuse = some 0 then .error .forward
  else match m.forwardLogits ids f.cache with
    | some (cache, row) => .ok ({ cache := cache, fuse := f.fuse.map (· - 1) }, row)
    | none => .error .forward

/-- Whole chunks as long as more than one is left before the boundary. -/
def Gemma4.prefillChunks (m : Gemma4 α β) (ids : List Int32) (boundary chunk start : Nat)
    (f : Feed α) : Except Stop (Nat × Feed α) :=
  if start ≤ boundary then
    if _h : boundary - start > max chunk 1 then
      match m.feed ((ids.drop start).take (max chunk 1)) f with
      | .ok (f, _) => m.prefillChunks ids boundary chunk (start + max chunk 1) f
      | .error e => .error e
    else .ok (start, f)
  else .error .underflow
termination_by boundary - start
decreasing_by omega

/-- The last piece before the boundary, if anything is left of it. -/
def Gemma4.feedTo (m : Gemma4 α β) (ids : List Int32) (boundary start : Nat) (f : Feed α) :
    Except Stop (Feed α) :=
  if boundary > start then (m.feed ((ids.drop start).take (boundary - start)) f).map (·.1)
  else .ok f

/-- Feeding from the last chunk on: the snapshot that was frozen, and the cache and row of the
first pick. A failure behind the freeze point leaves the snapshot in place. -/
def Gemma4.prefillTail (m : Gemma4 α β) (ids : List Int32) (boundary start : Nat) (f : Feed α) :
    Option (PrefixCache α) × Except Stop (KvCache α × β) :=
  if boundary = ids.length then
    match m.feed (ids.drop start) f with
    | .ok (f, row) => (some ⟨ids.take boundary, f.cache⟩, .ok (f.cache, row))
    | .error e => (none, .error e)
  else
    match m.feedTo ids boundary start f with
    | .error e => (none, .error e)
    | .ok f =>
      (some ⟨ids.take boundary, f.cache⟩,
        (m.feed (ids.drop boundary) f).map fun (f, row) => (f.cache, row))

def Gemma4.prefill (m : Gemma4 α β) (p : Plan α) (chunk : Nat) (fuse : Option Nat) :
    Option (PrefixCache α) × Except Stop (KvCache α × β) :=
  match m.prefillChunks p.promptIds p.reuseBoundary chunk p.start ⟨p.cache, fuse⟩ with
  | .ok (start, f) => m.prefillTail p.promptIds p.reuseBoundary start f
  | .error e => (none, .error e)

/-- A request of the generic loop up to its first pick: the snapshot it leaves to the next
request, and its outcome. Decoding after the pick works on a cache of its own. -/
def Gemma4.runGeneration (m : Gemma4 α β) (rt : Runtime) (t : Tokenizer)
    (prior : Option (PrefixCache α)) (r : Request) :
    Option (PrefixCache α) × Except Stop (KvCache α × β) :=
  match m.plan rt t prior r with
  | .error e => (prior, .error e)
  | .ok p =>
    let (frozen, outcome) := m.prefill p r.prefillChunk r.fuse
    (if r.prefixEnabled then frozen else prior, outcome)

end

/-! Where a prompt may be cut. -/

section
variable {t : Tokenizer} {id : Marker → UInt32}

/-- The last marker of a snapshot's tokens, as far as it matters: behind it no thought channel
is opened. -/
def EndsOpen (id : Marker → UInt32) (ids : List Int32) : Prop :=
  ∃ x mk y, ids = x ++ (id mk).toInt32 :: y ∧ mk ≠ .channel ∧ (id .channel).toInt32 ∉ y

/-- The boundary stands behind such a marker and before nothing or a thought channel. -/
structure IsBoundary (id : Marker → UInt32) (ids : List Int32) (b : Nat) : Prop where
  le : b ≤ ids.length
  ends : EndsOpen id (ids.take b)
  tail : ids.drop b = [] ∨ ∃ y, ids.drop b = (id .channel).toInt32 :: y ∧
    ∀ mk ≠ .channel, (id mk).toInt32 ∉ y

theorem ends_marker (ht : t.CutsAtMarkers id) {head x b : Text} {mk : Marker} {ids : List Int32}
    (hids : t.ids head = some ids) (hhead : head = x ++ mk.text ++ b) (hmk : mk ≠ .channel)
    (hb : ¬ Marker.channel.text <:+: b) : EndsOpen id ids := by
  rw [hhead] at hids
  obtain ⟨xs, ys, -, hys, rfl⟩ := ht.ids_cut hids
  exact ⟨xs, mk, ys, rfl, hmk, ht.ids_absent hys hb⟩

theorem promptHead_ends (ht : t.CutsAtMarkers id) {st : Turns} (hst : st.EndsInTraffic)
    {ids : List Int32} (hids : t.ids (promptHead st) = some ids) : EndsOpen id ids := by
  cases ho : st.openModelTurn with
  | true =>
    have hhead : promptHead st = st.text := if_pos ho
    obtain ⟨x, hx⟩ | ⟨x, hx⟩ := hst ho
    · have : promptHead st = x ++ Marker.toolResponse.text ++ [] := by
        rw [hhead, ← hx, List.append_nil]; rfl
      exact ends_marker ht hids this (by decide) (by decide)
    · have : promptHead st = x ++ Marker.toolResponseEnd.text ++ [] := by
        rw [hhead, ← hx, List.append_nil]; rfl
      exact ends_marker ht hids this (by decide) (by decide)
  | false =>
    have : promptHead st = st.text ++ Marker.turn.text ++ (roleModel ++ "\n".toList) := by
      rw [promptHead, ho, if_neg (by decide), List.append_assoc]; rfl
    exact ends_marker ht hids this (by decide) (by decide)

/-- Nothing that ends open reaches into the thought channel behind a boundary. -/
theorem endsOpen_le_boundary (ht : t.CutsAtMarkers id) {ids snap : List Int32} {b : Nat}
    (hb : IsBoundary id ids b) (hsnap : EndsOpen id snap) (hpre : snap <+: ids) :
    snap.length ≤ b := by
  by_contra hlt
  obtain ⟨z, rfl⟩ := hpre
  obtain ⟨c, y₀, hdrop⟩ := List.exists_cons_of_ne_nil
    (show snap.drop b ≠ [] by rw [ne_eq, List.drop_eq_nil_iff]; omega)
  obtain hnil | ⟨y, hy, habs⟩ := hb.tail
  · rw [List.drop_append_of_le_length (by omega), hdrop] at hnil
    cases hnil
  rw [List.drop_append_of_le_length (by omega), hdrop, List.cons_append] at hy
  obtain ⟨rfl, rfl⟩ := List.cons.inj hy
  obtain ⟨x, mk, w, hx, hmk, hw⟩ := hsnap
  -- the channel's token and the last marker are two places of the snapshot
  have hsplit : snap.take b ++ (id .channel).toInt32 :: y₀ = x ++ (id mk).toInt32 :: w := by
    rw [← hdrop, List.take_append_drop, hx]
  obtain ⟨u, -, hu⟩ | ⟨u, -, hu⟩ := List.append_eq_append_iff.mp hsplit
  · cases u with
    | nil => exact ht.toInt32_ne hmk (List.cons.inj hu).1.symm
    | cons _ u =>
      have hmem : (id mk).toInt32 ∈ y₀ := by rw [(List.cons.inj hu).2]; simp
      exact habs mk hmk (List.mem_append_left z hmem)
  · cases u with
    | nil => exact ht.toInt32_ne hmk (List.cons.inj hu).1
    | cons _ u => exact hw (by rw [(List.cons.inj hu).2]; simp)

/-! The plan of a request. -/

theorem nonreusableSuffix_append (head scaffold : Text)
    (hlen : reusablePrefixLen (head ++ scaffold) = byteLen head)
    (hs : scaffold = [] ∨ scaffold = thoughtPrefill) :
    nonreusableSuffix (head ++ scaffold) =
      .ok (if scaffold = [] then none else some thoughtPrefill) := by
  rw [nonreusableSuffix, hlen]
  obtain rfl | rfl := hs
  · rw [List.append_nil, if_neg (Nat.lt_irrefl _), if_pos rfl]
  · have hpos : 0 < byteLen thoughtPrefill := by decide
    have hlt : byteLen head < byteLen (head ++ thoughtPrefill) := by
      rw [byteLen, byteLen, utf8_append, List.length_append]
      exact Nat.lt_add_of_pos_right hpos
    rw [if_pos hlt, Text.sliceFrom_append, if_neg (by decide)]

theorem encodeIds_ok {text : Text} {ids : List Int32} (h : t.encodeIds text = .ok ids) :
    t.ids text = some ids := by
  unfold Tokenizer.encodeIds at h
  split at h
  · next he => rw [he, Except.ok.inj h]
  · cases h

theorem encodeIds_error {text : Text} {e : Stop} (h : t.encodeIds text = .error e) :
    e = .tokenize ∧ t.ids text = none := by
  unfold Tokenizer.encodeIds at h
  split at h
  · cases h
  · next he => exact ⟨(Except.error.inj h).symm, he⟩

/-- The suffix starts at a marker, so its tokens are the last ones of the prompt. -/
theorem boundary_of_prefill (ht : t.CutsAtMarkers id) {head : Text} {ids suf : List Int32}
    (hhead : ∀ xs, t.ids head = some xs → EndsOpen id xs)
    (hids : t.ids (head ++ thoughtPrefill) = some ids) (hsuf : t.ids thoughtPrefill = some suf) :
    IsBoundary id ids (ids.length - suf.length) := by
  have hcut : ∀ a : Text, a ++ thoughtPrefill =
      a ++ Marker.channel.text ++ ("thought\n".toList ++ channelClose) := by
    intro a
    rw [thoughtPrefill, List.append_assoc, List.append_assoc]; rfl
  rw [hcut] at hids
  rw [← List.nil_append thoughtPrefill, hcut] at hsuf
  obtain ⟨xs, ys, hxs, hys, rfl⟩ := ht.ids_cut hids
  obtain ⟨xs₀, ys₀, hxs₀, hys₀, rfl⟩ := ht.ids_cut hsuf
  obtain rfl : ys = ys₀ := Option.some.inj (hys.symm.trans hys₀)
  obtain rfl : [] = xs₀ := by
    rw [Tokenizer.ids, ht.encode_nil] at hxs₀
    exact Option.some.inj hxs₀
  have hb : (xs ++ (id .channel).toInt32 :: ys).length -
      ([] ++ (id .channel).toInt32 :: ys).length = xs.length := by
    rw [List.nil_append, List.length_append, Nat.add_sub_cancel]
  rw [hb]
  refine ⟨by simp, by rw [List.take_left]; exact hhead xs hxs, .inr ⟨ys, List.drop_left, ?_⟩⟩
  intro mk hmk
  refine ht.ids_absent hys ?_
  revert hmk
  cases mk <;> decide

/-- What a request is about to work with. -/
structure Plan.Good (m : Gemma4 α β) (id : Marker → UInt32) (p : Plan α) : Prop where
  boundary : IsBoundary id p.promptIds p.reuseBoundary
  start_le : p.start ≤ p.reuseBoundary
  start_lt : p.start < p.promptIds.length
  fed : m.Fed p.cache (p.promptIds.take p.start)

/-- A snapshot stands for the tokens it was taken at, and these end open. -/
structure PrefixCache.Good (m : Gemma4 α β) (id : Marker → UInt32) (p : PrefixCache α) : Prop where
  fed : m.Fed p.cache p.promptIds
  ends : EndsOpen id p.promptIds

theorem EndsOpen.length_pos {ids : List Int32} (h : EndsOpen id ids) : 0 < ids.length := by
  obtain ⟨x, mk, y, rfl, -, -⟩ := h
  simp

theorem resume_good (ht : t.CutsAtMarkers id) (m : Gemma4 α β) {prior : Option (PrefixCache α)}
    (hprior : ∀ p ∈ prior, p.Good m id) {ids : List Int32} {b : Nat} (hb : IsBoundary id ids b) :
    Plan.Good m id ⟨ids, b, (resume m.layers.length prior ids).1,
      (resume m.layers.length prior ids).2⟩ := by
  have hpos : 0 < ids.length :=
    Nat.lt_of_lt_of_le hb.ends.length_pos (by rw [List.length_take]; exact Nat.min_le_right _ _)
  have hfresh : Plan.Good m id ⟨ids, b, .new m.layers.length, 0⟩ :=
    ⟨hb, Nat.zero_le _, hpos, build_fed m false⟩
  cases prior with
  | none => exact hfresh
  | some p =>
    have hp := hprior p rfl
    rw [resume]
    split
    · next h =>
      refine ⟨hb, endsOpen_le_boundary ht hb hp.ends ?_, h.1, ?_⟩
      · rw [← h.2]
        exact List.take_prefix _ _
      · show m.Fed p.cache (ids.take p.promptIds.length)
        rw [h.2]
        exact hp.fed
    · exact hfresh

theorem encode_none {text : Text} (h : t.ids text = none) : t.encode text = none := by
  rwa [Tokenizer.ids, Option.map_eq_none_iff] at h

theorem reuseBoundary_good (ht : t.CutsAtMarkers id) {head scaffold : Text} {ids : List Int32}
    (hhead : ∀ xs, t.ids head = some xs → EndsOpen id xs)
    (hs : scaffold = [] ∨ scaffold = thoughtPrefill) (hids : t.ids (head ++ scaffold) = some ids) :
    (t.reuseBoundary ids (if scaffold = [] then none else some thoughtPrefill) = .error .tokenize ∧
        ∃ text, t.encode text = none) ∨
      ∃ b, t.reuseBoundary ids (if scaffold = [] then none else some thoughtPrefill) = .ok b ∧
        IsBoundary id ids b := by
  obtain rfl | rfl := hs
  · rw [List.append_nil] at hids
    refine .inr ⟨ids.length, rfl, Nat.le_refl _, ?_, .inl List.drop_length⟩
    rw [List.take_length]
    exact hhead ids hids
  · rw [if_neg (by decide), Tokenizer.reuseBoundary]
    cases hsuf : t.encodeIds thoughtPrefill with
    | error e =>
      obtain ⟨rfl, hnone⟩ := encodeIds_error hsuf
      exact .inl ⟨rfl, _, encode_none hnone⟩
    | ok suf => exact .inr ⟨_, rfl, boundary_of_prefill ht hhead hids (encodeIds_ok hsuf)⟩

/-- A request is refused only by the tokenizer; else it sets out well. -/
theorem plan_good (ht : t.CutsAtMarkers id) (m : Gemma4 α β) (rt : Runtime)
    {prior : Option (PrefixCache α)} (hprior : ∀ p ∈ prior, p.Good m id) (r : Request) :
    (m.plan rt t prior r = .error .tokenize ∧ ∃ text, t.encode text = none) ∨
      ∃ p, m.plan rt t prior r = .ok p ∧ p.Good m id ∧
        t.ids (renderPrompt rt r.messages r.thinking r.tools) = some p.promptIds := by
  obtain ⟨scaffold, hprompt, hlen, hs⟩ := renderPrompt_head rt r.messages r.thinking r.tools
  have hends : ∀ xs, t.ids (promptHead (renderTurns rt r.messages r.thinking r.tools)) = some xs →
      EndsOpen id xs :=
    fun _ h => promptHead_ends ht (renderTurns_endsInTraffic rt r.messages r.thinking r.tools) h
  have hprior' : ∀ p ∈ (if r.prefixEnabled then prior else none), p.Good m id := by
    split
    · exact hprior
    · simp
  rw [hprompt] at hlen ⊢
  simp only [Gemma4.plan, hprompt, nonreusableSuffix_append _ _ hlen hs, bind, Except.bind]
  generalize promptHead (renderTurns rt r.messages r.thinking r.tools) = head at hends
  cases hids : t.encodeIds (head ++ scaffold) with
  | error e =>
    obtain ⟨rfl, hnone⟩ := encodeIds_error hids
    exact .inl ⟨rfl, _, encode_none hnone⟩
  | ok ids =>
    have hids := encodeIds_ok hids
    obtain ⟨hb, hnone⟩ | ⟨b, hb, hgood⟩ := reuseBoundary_good ht hends hs hids
    · exact .inl ⟨by simp only [hb], hnone⟩
    · exact .inr ⟨_, by simp only [hb]; rfl, resume_good ht m hprior' hgood, hids⟩

/-! Feeding. -/

variable [Inhabited α]

theorem feed_fed (m : Gemma4 α β) {f : Feed α} {ctx block : List Int32} (h : m.Fed f.cache ctx)
    (hblock : block ≠ []) :
    (m.feed block f = .error .forward ∧ f.fuse ≠ none) ∨
      ∃ f' row, m.feed block f = .ok (f', row) ∧ m.Fed f'.cache (ctx ++ block) ∧
        (m.states (ctx ++ block)).getLast? = some row ∧ (f.fuse = none → f'.fuse = none) := by
  by_cases hfuse : f.fuse = some 0
  · exact .inl ⟨if_pos hfuse, by simp [hfuse]⟩
  obtain ⟨c, hidden, he, hfed, -, hst⟩ := forwardHidden_fed m h hblock
  have hlen : hidden.length = block.length := by
    have := congrArg List.length hst
    simpa [Gemma4.states_length] using this.symm
  obtain ⟨row, hrow⟩ : ∃ row, hidden.getLast? = some row := by
    refine Option.isSome_iff_exists.mp (List.getLast?_isSome.mpr ?_)
    rintro rfl
    exact hblock (List.length_eq_zero_iff.mp hlen.symm)
  have hlogits : m.forwardLogits block f.cache = some (c, row) := by
    simp [Gemma4.forwardLogits, he, hrow]
  refine .inr ⟨⟨c, f.fuse.map (· - 1)⟩, row, ?_, hfed, ?_, fun hn => by simp [hn]⟩
  · rw [Gemma4.feed, if_neg hfuse, hlogits]
  · rw [hst, List.getLast?_append, hrow]
    rfl

theorem take_append_piece {ids : List Int32} {start n : Nat} :
    ids.take start ++ (ids.drop start).take n = ids.take (start + n) :=
  (List.take_add ..).symm

/-- The chunk loop feeds on up to the boundary and never past it. -/
theorem prefillChunks_fed (m : Gemma4 α β) {ids : List Int32} {boundary start : Nat} (chunk : Nat)
    {f : Feed α} (hb : boundary ≤ ids.length) (hstart : start ≤ boundary)
    (h : m.Fed f.cache (ids.take start)) :
    (m.prefillChunks ids boundary chunk start f = .error .forward ∧ f.fuse ≠ none) ∨
      ∃ start' f', m.prefillChunks ids boundary chunk start f = .ok (start', f') ∧
        start' ≤ boundary ∧ (start < boundary → start' < boundary) ∧
        m.Fed f'.cache (ids.take start') ∧ (f.fuse = none → f'.fuse = none) := by
  induction hn : boundary - start using Nat.strongRecOn generalizing start f with
  | ind n ih =>
    rw [Gemma4.prefillChunks, if_pos hstart]
    by_cases hmore : boundary - start > max chunk 1
    · rw [dif_pos hmore]
      have hpiece : (ids.drop start).take (max chunk 1) ≠ [] := by
        rw [ne_eq, List.take_eq_nil_iff, List.drop_eq_nil_iff]
        omega
      obtain ⟨he, hf⟩ | ⟨f', row, he, hfed, -, hfuse⟩ := feed_fed m h hpiece
      · exact .inl ⟨by rw [he], hf⟩
      · rw [take_append_piece] at hfed
        obtain ⟨he', hf'⟩ | ⟨start', f'', he', hle, hlt, hfed', hfuse'⟩ :=
          ih _ (by omega) (by omega) hfed rfl
        · exact .inl ⟨by rw [he]; exact he', fun hnone => hf' (hfuse hnone)⟩
        · refine .inr ⟨start', f'', by rw [he]; exact he', hle, fun _ => hlt (by omega), hfed', ?_⟩
          exact fun hnone => hfuse' (hfuse hnone)
    · rw [dif_neg hmore]
      exact .inr ⟨start, f, rfl, hstart, fun h => h, h, fun h => h⟩

theorem feedTo_fed (m : Gemma4 α β) {ids : List Int32} {boundary start : Nat} {f : Feed α}
    (hb : boundary ≤ ids.length) (hstart : start ≤ boundary) (h : m.Fed f.cache (ids.take start)) :
    (m.feedTo ids boundary start f = .error .forward ∧ f.fuse ≠ none) ∨
      ∃ f', m.feedTo ids boundary start f = .ok f' ∧ m.Fed f'.cache (ids.take boundary) ∧
        (f.fuse = none → f'.fuse = none) := by
  rw [Gemma4.feedTo]
  by_cases hgt : boundary > start
  · rw [if_pos hgt]
    have hne : (ids.drop start).take (boundary - start) ≠ [] := by
      rw [ne_eq, List.take_eq_nil_iff, List.drop_eq_nil_iff]
      omega
    obtain ⟨he, hf⟩ | ⟨f', row, he, hfed, -, hfuse⟩ := feed_fed m h hne
    · exact .inl ⟨by rw [he]; rfl, hf⟩
    · rw [take_append_piece, Nat.add_sub_cancel' hstart] at hfed
      exact .inr ⟨f', by rw [he]; rfl, hfed, hfuse⟩
  · obtain rfl : start = boundary := by omega
    exact .inr ⟨f, if_neg hgt, h, fun h => h⟩

/-- A request of `ids` fails where it was made to, or reaches its first pick. -/
def FirstPick (m : Gemma4 α β) (ids : List Int32) (fuse : Option Nat)
    (outcome : Except Stop (KvCache α × β)) : Prop :=
  (outcome = .error .forward ∧ fuse ≠ none) ∨
    ∃ cache row, outcome = .ok (cache, row) ∧ m.Fed cache ids ∧
      (m.states ids).getLast? = some row

theorem prefillTail_fed (m : Gemma4 α β) {ids : List Int32} {boundary start : Nat} {f : Feed α}
    (hb : boundary ≤ ids.length) (hstart : start ≤ boundary) (hlt : start < ids.length)
    (h : m.Fed f.cache (ids.take start)) :
    (∀ p ∈ (m.prefillTail ids boundary start f).1,
        p.promptIds = ids.take boundary ∧ m.Fed p.cache p.promptIds) ∧
      FirstPick m ids f.fuse (m.prefillTail ids boundary start f).2 := by
  rw [Gemma4.prefillTail]
  by_cases hwhole : boundary = ids.length
  · rw [if_pos hwhole, hwhole, List.take_length]
    have hne : ids.drop start ≠ [] := by rw [ne_eq, List.drop_eq_nil_iff]; omega
    obtain ⟨he, hf⟩ | ⟨f', row, he, hfed, hrow, -⟩ := feed_fed m h hne
    · rw [he]
      exact ⟨by simp, .inl ⟨rfl, hf⟩⟩
    · rw [List.take_append_drop] at hfed hrow
      rw [he]
      refine ⟨fun p hp => ?_, .inr ⟨_, _, rfl, hfed, hrow⟩⟩
      cases hp
      exact ⟨rfl, hfed⟩
  rw [if_neg hwhole]
  obtain ⟨he, hf⟩ | ⟨f', he, hfed, hfuse⟩ := feedTo_fed m hb hstart h
  · simp only [he]
    exact ⟨by simp, .inl ⟨rfl, hf⟩⟩
  · simp only [he]
    refine ⟨fun p hp => ?_, ?_⟩
    · cases hp
      exact ⟨rfl, hfed⟩
    · have hne : ids.drop boundary ≠ [] := by rw [ne_eq, List.drop_eq_nil_iff]; omega
      obtain ⟨he, hf⟩ | ⟨f'', row, he, hfed', hrow, -⟩ := feed_fed m hfed hne
      · exact .inl ⟨by rw [he]; rfl, fun hnone => hf (hfuse hnone)⟩
      · rw [List.take_append_drop] at hfed' hrow
        exact .inr ⟨_, _, by rw [he]; rfl, hfed', hrow⟩

theorem prefill_fed (m : Gemma4 α β) {p : Plan α} (hp : p.Good m id) (chunk : Nat)
    (fuse : Option Nat) :
    (∀ s ∈ (m.prefill p chunk fuse).1, s.Good m id) ∧
      FirstPick m p.promptIds fuse (m.prefill p chunk fuse).2 := by
  rw [Gemma4.prefill]
  have hchunks := prefillChunks_fed m chunk (f := ⟨p.cache, fuse⟩) hp.boundary.le hp.start_le
    hp.fed
  obtain ⟨he, hf⟩ | ⟨start, f, he, hle, hlt, hfed, hfuse⟩ := hchunks
  · rw [he]
    exact ⟨by simp, .inl ⟨rfl, hf⟩⟩
  · rw [he]
    have hstart : start < p.promptIds.length := by
      have := hp.start_lt
      have := hp.boundary.le
      have := hp.start_le
      by_cases hs : p.start < p.reuseBoundary
      · exact Nat.lt_of_lt_of_le (hlt hs) hp.boundary.le
      · omega
    obtain ⟨hfrozen, hpick⟩ := prefillTail_fed m hp.boundary.le hle hstart hfed
    refine ⟨fun s hs => ?_, ?_⟩
    · obtain ⟨hids, hfed⟩ := hfrozen s hs
      exact ⟨hfed, by rw [hids]; exact hp.boundary.ends⟩
    · obtain ⟨ho, hne⟩ | hok := hpick
      · exact .inl ⟨ho, fun hnone => hne (hfuse hnone)⟩
      · exact .inr hok

/-- One request keeps the snapshot good, whatever its outcome. -/
theorem runGeneration_good (ht : t.CutsAtMarkers id) (m : Gemma4 α β) (rt : Runtime)
    {prior : Option (PrefixCache α)} (hprior : ∀ p ∈ prior, p.Good m id) (r : Request) :
    ∀ p ∈ (m.runGeneration rt t prior r).1, p.Good m id := by
  rw [Gemma4.runGeneration]
  obtain ⟨he, -⟩ | ⟨p, he, hp, -⟩ := plan_good ht m rt hprior r
  · rw [he]
    exact hprior
  · simp only [he]
    split
    · exact (prefill_fed m hp _ _).1
    · exact hprior

/-- The snapshot that a sequence of requests leaves behind, on a model just loaded. -/
def Gemma4.prefixAfter (m : Gemma4 α β) (rt : Runtime) (t : Tokenizer) (reqs : List Request) :
    Option (PrefixCache α) :=
  run (fun prior r => (m.runGeneration rt t prior r).1) none reqs

/-- A request that does not see the snapshot it starts from. -/
structure Transparent (m : Gemma4 α β) (rt : Runtime) (t : Tokenizer)
    (prior : Option (PrefixCache α)) (r : Request) : Prop where
  /-- The subtraction of the chunk loop starts on the right side of the boundary. -/
  start_le : ∀ p, m.plan rt t prior r = .ok p → p.start ≤ p.reuseBoundary
  /-- No subtraction underflows and no slice fails: only a tokenizer or a forward that fails
  by itself ends the request early. -/
  stops : ∀ e, (m.runGeneration rt t prior r).2 = .error e →
    (e = .tokenize ∧ ∃ text, t.encode text = none) ∨ (e = .forward ∧ r.fuse ≠ none)
  /-- The first pick is on a cache fed exactly the prompt, and on the row that one forward of
  the prompt computes on an empty cache. -/
  pick : ∀ cache row, (m.runGeneration rt t prior r).2 = .ok (cache, row) →
    ∃ ids, t.ids (renderPrompt rt r.messages r.thinking r.tools) = some ids ∧ m.Fed cache ids ∧
      ∃ fresh hidden, m.forwardHidden ids (.new m.layers.length) = some (fresh, hidden) ∧
        m.Fed fresh ids ∧ hidden.getLast? = some row

theorem forward_fresh (m : Gemma4 α β) {ids : List Int32} (h : ids ≠ []) :
    ∃ fresh hidden, m.forwardHidden ids (.new m.layers.length) = some (fresh, hidden) ∧
      m.Fed fresh ids ∧ hidden = m.states ids := by
  obtain ⟨c, hidden, he, hfed, -, hst⟩ := forwardHidden_fed m (build_fed m false) h
  have hnil : m.states [] = [] := List.length_eq_zero_iff.mp (m.states_length [])
  rw [List.nil_append, hnil, List.nil_append] at hst
  exact ⟨c, hidden, he, hfed, hst.symm⟩

theorem prefix_cache_transparent (m : Gemma4 α β) (rt : Runtime) (t : Tokenizer)
    (id : Marker → UInt32) (ht : t.CutsAtMarkers id) (before : List Request) (r : Request) :
    Transparent m rt t (m.prefixAfter rt t before) r := by
  have hprior : ∀ p ∈ m.prefixAfter rt t before, p.Good m id :=
    @run_keeps _ _ _ (fun prior => ∀ p ∈ prior, PrefixCache.Good m id p)
      (fun _ r h => runGeneration_good ht m rt h r) none (by simp) before
  generalize m.prefixAfter rt t before = prior at hprior
  obtain ⟨he, hnone⟩ | ⟨p, he, hp, hids⟩ := plan_good ht m rt hprior r
  · have hrun : (m.runGeneration rt t prior r).2 = .error .tokenize := by
      rw [Gemma4.runGeneration, he]
    constructor
    · intro p hp
      rw [he] at hp
      cases hp
    · intro e h
      exact .inl ⟨Except.error.inj (h.symm.trans hrun), hnone⟩
    · intro cache row h
      cases hrun.symm.trans h
  · have hpick : FirstPick m p.promptIds r.fuse (m.runGeneration rt t prior r).2 := by
      rw [Gemma4.runGeneration, he]
      exact (prefill_fed m hp _ _).2
    constructor
    · intro q hq
      obtain rfl : p = q := Except.ok.inj (he.symm.trans hq)
      exact hp.start_le
    · intro e h
      obtain ⟨ho, hf⟩ | ⟨cache, row, ho, -, -⟩ := hpick
      · exact .inr ⟨Except.error.inj (h.symm.trans ho), hf⟩
      · cases ho.symm.trans h
    · intro cache row h
      obtain ⟨ho, -⟩ | ⟨cache', row', ho, hfed, hrow⟩ := hpick
      · cases ho.symm.trans h
      · cases ho.symm.trans h
        have hne : p.promptIds ≠ [] := List.ne_nil_of_length_pos (Nat.zero_lt_of_lt hp.start_lt)
        obtain ⟨fresh, hidden, hf, hfed', hst⟩ := forward_fresh m hne
        exact ⟨_, hids, hfed, fresh, hidden, hf, hfed', by rw [hst, hrow]⟩

end

def firstTurn : Request where
  messages := [.plain "user" "Hello"]
  thinking := false
  tools := []
  prefillChunk := 8
  prefixEnabled := true
  fuse := some 4

def secondTurn : Request where
  messages := [.plain "user" "Hello", .plain "assistant" "Hi.", .plain "user" "Bye"]
  thinking := false
  tools := []
  prefillChunk := 8
  prefixEnabled := true
  fuse := none

/-- The first turn fails behind its freeze point; the second one resumes there. -/
theorem prefix_cache_transparent_second_turn :
    ∃ cache row ids, (successor.runGeneration emptyObjectRuntime scanner
        (successor.prefixAfter emptyObjectRuntime scanner [firstTurn]) secondTurn).2 =
          .ok (cache, row) ∧
      scanner.ids (renderPrompt emptyObjectRuntime secondTurn.messages secondTurn.thinking
        secondTurn.tools) = some ids ∧ successor.Fed cache ids := by
  have h := prefix_cache_transparent successor emptyObjectRuntime scanner Marker.id
    scanner_cutsAtMarkers [firstTurn] secondTurn
  cases hrun : (successor.runGeneration emptyObjectRuntime scanner
      (successor.prefixAfter emptyObjectRuntime scanner [firstTurn]) secondTurn).2 with
  | error e =>
    obtain ⟨-, text, htext⟩ | ⟨-, hf⟩ := h.stops e hrun
    · cases htext
    · exact absurd rfl hf
  | ok picked =>
    obtain ⟨ids, hids, hfed, -⟩ := h.pick picked.1 picked.2 hrun
    exact ⟨picked.1, picked.2, ids, rfl, hids, hfed⟩

end Onisin.Mlx
