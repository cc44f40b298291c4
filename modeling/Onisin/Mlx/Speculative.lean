import Onisin.Mlx.Forward

/-!
Speculative decoding. A round drafts a block, the target verifies the whole block in one
forward, the longest matching prefix is accepted and the cache is rolled back behind it. The
drafter is an arbitrary function; of the target only its greedy choice and the effect of a
forward on a linear cache are used.
-/

set_option autoImplicit false

namespace Onisin.Mlx
open Lib

/-- Draft candidates per round. -/
def draftSteps : Nat := 3

/-- The target model. `next` is its greedy choice after a prefix and `rows` the K/V rows its
layers compute for one. A forward over a block on a linear cache that holds a prefix yields
one hidden row per token, whose argmax is the choice after that token, and leaves the cache
of the longer prefix. -/
structure Target (α η : Type) where
  layers : List LayerKind
  hasFull : LayerKind.full ∈ layers
  hasSliding : LayerKind.sliding ∈ layers
  stopTokens : List Int32
  next : List Int32 → UInt32
  rows : List Int32 → Nat → List α
  rows_length : ∀ ctx i, (rows ctx i).length = ctx.length
  rows_take : ∀ ctx i n, rows (ctx.take n) i = (rows ctx i).take n
  forwardHidden : List Int32 → KvCache α → Option (KvCache α × List η)
  argmax : η → UInt32
  forward_block : ∀ ctx block c, block ≠ [] → c.Holds layers.length (rows ctx) ctx.length →
    ∃ c' hidden, forwardHidden block c = some (c', hidden) ∧
      c'.Holds layers.length (rows (ctx ++ block)) (ctx ++ block).length ∧
      hidden.map argmax = (List.range block.length).map fun i => next (ctx ++ block.take (i + 1))

/-- A drafter sees the last token, its own or the target's last hidden row, the lent rows
and the position. -/
structure Drafter (α η : Type) where
  forward : Int32 → η → SharedKv α → Nat → η × UInt32

variable {α η : Type}

/-- Token ids come from the device as unsigned words and are used as signed ones. -/
def Target.nextId (t : Target α η) (ctx : List Int32) : Int32 := (t.next ctx).toInt32

/-- Plain greedy decoding: at most `n` tokens, cut before the first stop token. -/
def Target.greedy (t : Target α η) : Nat → List Int32 → List UInt32
  | 0, _ => []
  | n+1, ctx =>
    if t.nextId ctx ∈ t.stopTokens then []
    else (t.nextId ctx).toUInt32 :: t.greedy n (ctx ++ [t.nextId ctx])

def Drafter.draft (d : Drafter α η) (shared : SharedKv α) (pos : Nat) : Nat → Int32 → η → List Int32
  | 0, _, _ => []
  | n+1, tok, h =>
    let (hid, next) := d.forward tok h shared pos
    next.toInt32 :: d.draft shared pos n next.toInt32 hid

/-- Length of the longest prefix of the drafts that the predictions confirm. -/
def accepted : List Int32 → List Int32 → Nat
  | t :: drafts, p :: preds => if t = p then accepted drafts preds + 1 else 0
  | _, _ => 0

/-- Push tokens until a stop token or the budget ends the output; the flag says it ended. -/
def emit (stop : List Int32) (maxTokens : Nat) : List Int32 → List UInt32 → List UInt32 × Bool
  | [], out => (out, false)
  | t :: rest, out =>
    if t ∈ stop then (out, true)
    else if (out ++ [t.toUInt32]).length ≥ maxTokens then (out ++ [t.toUInt32], true)
    else emit stop maxTokens rest (out ++ [t.toUInt32])

structure SpecState (α η : Type) where
  cache : KvCache α
  hPrev : η
  bonus : Int32
  out : List UInt32

/-- One round: the finished output, or the state of the next round. -/
def specRound (t : Target α η) (d : Drafter α η) (maxTokens : Nat) (st : SpecState α η) :
    Option (List UInt32 ⊕ SpecState α η) := do
  let shared ← sharedKv t.layers st.cache
  let pos := st.cache.offset
  let drafts := d.draft shared pos (min draftSteps (maxTokens - st.out.length - 1)) st.bonus st.hPrev
  let (cache, hidden) ← t.forwardHidden (st.bonus :: drafts) st.cache
  let preds := hidden.map fun h => (t.argmax h).toInt32
  let n := accepted drafts preds
  match emit t.stopTokens maxTokens (drafts.take n) st.out with
  | (out, true) => return .inl out
  | (out, false) => do
    let next ← preds[n]?
    if next ∈ t.stopTokens then return .inl out
    else do
      let cache ← cache.truncate (pos + 1 + n)
      let hPrev ← hidden[n]?
      return .inr { cache := cache, hPrev := hPrev, bonus := next, out := out ++ [next.toUInt32] }

theorem emit_length (stop : List Int32) (maxTokens : Nat) (ts : List Int32) (out : List UInt32) :
    out.length ≤ (emit stop maxTokens ts out).1.length := by
  induction ts generalizing out with
  | nil => exact Nat.le_refl _
  | cons t ts ih =>
    unfold emit
    split
    · exact Nat.le_refl _
    split
    · simp
    · have := ih (out ++ [t.toUInt32])
      simp only [List.length_append, List.length_singleton] at this
      omega

/-- A round that goes on has pushed at least one token. -/
theorem specRound_grows {t : Target α η} {d : Drafter α η} {maxTokens : Nat} {st st' : SpecState α η}
    (h : specRound t d maxTokens st = some (.inr st')) : st.out.length < st'.out.length := by
  unfold specRound at h
  simp only [bind, Option.bind_eq_some_iff] at h
  obtain ⟨shared, -, ⟨cache, hidden⟩, -, h⟩ := h
  have hlen := emit_length t.stopTokens maxTokens
    ((d.draft shared st.cache.offset (min draftSteps (maxTokens - st.out.length - 1)) st.bonus
      st.hPrev).take (accepted (d.draft shared st.cache.offset
        (min draftSteps (maxTokens - st.out.length - 1)) st.bonus st.hPrev)
        (hidden.map fun h => (t.argmax h).toInt32))) st.out
  split at h
  · cases h
  · rename_i out he
    rw [he] at hlen
    dsimp only at hlen
    simp only [Option.bind_eq_some_iff] at h
    obtain ⟨next, -, h⟩ := h
    split at h
    · cases h
    · simp only [Option.bind_eq_some_iff] at h
      obtain ⟨c, -, hp, -, h⟩ := h
      cases h
      simp only [List.length_append, List.length_singleton]
      omega

def specLoop (t : Target α η) (d : Drafter α η) (maxTokens : Nat) (st : SpecState α η) :
    Option (List UInt32) :=
  if _h : st.out.length < maxTokens then
    match _hr : specRound t d maxTokens st with
    | none => none
    | some (.inl out) => some out
    | some (.inr st') => specLoop t d maxTokens st'
  else some st.out
termination_by maxTokens - st.out.length
decreasing_by
  have := specRound_grows _hr
  omega

/-- `SpecPair::run`. -/
def specRun (t : Target α η) (d : Drafter α η) (prompt : List Int32) (maxTokens : Nat) :
    Option (List UInt32) :=
  if maxTokens = 0 then some []
  else do
    let (cache, hidden) ← t.forwardHidden prompt (.newLinear t.layers.length)
    let hPrev ← hidden.getLast?
    let bonus := (t.argmax hPrev).toInt32
    if bonus ∈ t.stopTokens then some []
    else
      let st := { cache := cache, hPrev := hPrev, bonus := bonus, out := [bonus.toUInt32] }
      specLoop t d maxTokens st

/-! Verification of a block. -/

section
variable (t : Target α η)

theorem greedy_stop {n : Nat} {ctx : List Int32} (h : t.nextId ctx ∈ t.stopTokens) :
    t.greedy n ctx = [] := by
  cases n with
  | zero => rfl
  | succ n => exact if_pos h

theorem greedy_push {n : Nat} {ctx : List Int32} (hn : 0 < n) (h : t.nextId ctx ∉ t.stopTokens) :
    t.greedy n ctx = (t.nextId ctx).toUInt32 :: t.greedy (n - 1) (ctx ++ [t.nextId ctx]) := by
  obtain ⟨m, rfl⟩ : ∃ m, n = m + 1 := ⟨n - 1, by omega⟩
  exact if_neg h

/-- The tokens `ts` are the target's own choices after `ctx`, one after the other. -/
def Follows (ctx : List Int32) : List Int32 → Prop
  | [] => True
  | tok :: ts => tok = t.nextId ctx ∧ Follows (ctx ++ [tok]) ts

/-- The target's choices after `ctx` and after each further draft. -/
def choices (ctx : List Int32) : List Int32 → List Int32
  | [] => [t.nextId ctx]
  | tok :: drafts => t.nextId ctx :: choices (ctx ++ [tok]) drafts

theorem choices_eq (ctx drafts : List Int32) :
    choices t ctx drafts =
      (List.range (drafts.length + 1)).map fun i => t.nextId (ctx ++ drafts.take i) := by
  induction drafts generalizing ctx with
  | nil => simp [choices]
  | cons tok drafts ih =>
    have hr : List.range (drafts.length + 1 + 1) = 0 :: (List.range (drafts.length + 1)).map (· + 1) :=
      List.range_succ_eq_map
    rw [choices, ih, List.length_cons, hr, List.map_cons, List.map_map, List.take_zero,
      List.append_nil]
    congr 1
    refine List.map_congr_left fun i _ => ?_
    simp

theorem accepted_spec (ctx drafts : List Int32) :
    accepted drafts (choices t ctx drafts) ≤ drafts.length ∧
      Follows t ctx (drafts.take (accepted drafts (choices t ctx drafts))) ∧
      (choices t ctx drafts)[accepted drafts (choices t ctx drafts)]? =
        some (t.nextId (ctx ++ drafts.take (accepted drafts (choices t ctx drafts)))) := by
  induction drafts generalizing ctx with
  | nil => simp [accepted, choices, Follows]
  | cons tok drafts ih =>
    obtain ⟨hle, hf, hn⟩ := ih (ctx ++ [tok])
    by_cases he : tok = t.nextId ctx
    · have ha : accepted (tok :: drafts) (choices t ctx (tok :: drafts)) =
          accepted drafts (choices t (ctx ++ [tok]) drafts) + 1 := if_pos he
      rw [ha, List.take_succ_cons]
      refine ⟨by rw [List.length_cons]; omega, ⟨he, hf⟩, ?_⟩
      rw [choices, List.getElem?_cons_succ, hn, List.append_assoc]
      rfl
    · have ha : accepted (tok :: drafts) (choices t ctx (tok :: drafts)) = 0 := if_neg he
      rw [ha]
      simp [choices, Follows]

/-- Emitting the target's own choices is a stretch of greedy decoding. -/
theorem emit_follows {maxTokens : Nat} (ts : List Int32) (ctx : List Int32) (out : List UInt32)
    (hf : Follows t ctx ts) (hout : out.length < maxTokens) :
    (∃ res, emit t.stopTokens maxTokens ts out = (res, true) ∧
      res = out ++ t.greedy (maxTokens - out.length) ctx) ∨
    (∃ res, emit t.stopTokens maxTokens ts out = (res, false) ∧ res.length < maxTokens ∧
      res ++ t.greedy (maxTokens - res.length) (ctx ++ ts) =
        out ++ t.greedy (maxTokens - out.length) ctx) := by
  induction ts generalizing ctx out with
  | nil => exact Or.inr ⟨out, rfl, hout, by rw [List.append_nil]⟩
  | cons tok ts ih =>
    obtain ⟨rfl, hrest⟩ := hf
    by_cases hs : t.nextId ctx ∈ t.stopTokens
    · refine Or.inl ⟨out, if_pos hs, ?_⟩
      rw [greedy_stop t hs, List.append_nil]
    · have hstep := greedy_push t (n := maxTokens - out.length) (by omega) hs
      have hlen : (out ++ [(t.nextId ctx).toUInt32]).length = out.length + 1 := by simp
      have hrem : maxTokens - out.length - 1 = maxTokens - (out ++ [(t.nextId ctx).toUInt32]).length := by
        omega
      have hgo : out ++ t.greedy (maxTokens - out.length) ctx = (out ++ [(t.nextId ctx).toUInt32]) ++
          t.greedy (maxTokens - (out ++ [(t.nextId ctx).toUInt32]).length) (ctx ++ [t.nextId ctx]) := by
        rw [hstep, hrem, List.append_assoc]
        rfl
      rw [emit, if_neg hs, hgo]
      by_cases hb : (out ++ [(t.nextId ctx).toUInt32]).length ≥ maxTokens
      · refine Or.inl ⟨_, if_pos hb, ?_⟩
        have hz : maxTokens - (out ++ [(t.nextId ctx).toUInt32]).length = 0 := by omega
        rw [hz]
        exact (List.append_nil _).symm
      · rw [if_neg hb, show ctx ++ t.nextId ctx :: ts = ctx ++ [t.nextId ctx] ++ ts by simp]
        exact ih (ctx ++ [t.nextId ctx]) (out ++ [(t.nextId ctx).toUInt32]) hrest (by omega)

end

/-! Rounds. -/

section
variable {t : Target α η} {d : Drafter α η} {maxTokens : Nat} {st : SpecState α η}

theorem choices_of_forward {ctx drafts : List Int32} {bonus : Int32} {hidden : List η}
    (h : hidden.map t.argmax = (List.range (bonus :: drafts).length).map fun i =>
      t.next (ctx ++ (bonus :: drafts).take (i + 1))) :
    hidden.map (fun h => (t.argmax h).toInt32) = choices t (ctx ++ [bonus]) drafts := by
  have hm : hidden.map (fun h => (t.argmax h).toInt32) = (hidden.map t.argmax).map UInt32.toInt32 := by
    rw [List.map_map]; rfl
  rw [hm, h, choices_eq, List.map_map]
  refine List.map_congr_left fun i _ => ?_
  simp [Target.nextId]

/-- Between rounds the cache holds everything but the pending bonus token, and what is still
to be decoded after that token completes the output to the greedy one. -/
def SpecInv (t : Target α η) (maxTokens : Nat) (goal : List UInt32) (st : SpecState α η) : Prop :=
  ∃ ctx, ctx ≠ [] ∧ st.cache.Holds t.layers.length (t.rows ctx) ctx.length ∧
    st.out ++ t.greedy (maxTokens - st.out.length) (ctx ++ [st.bonus]) = goal

/-- Rolling back behind `n` accepted drafts leaves the cache of what was accepted. -/
theorem truncate_accepted {ctx drafts : List Int32} {bonus : Int32} {c : KvCache α} {n : Nat}
    (h : c.Holds t.layers.length (t.rows (ctx ++ bonus :: drafts)) (ctx ++ bonus :: drafts).length)
    (hn : n ≤ drafts.length) :
    ∃ c', c.truncate (ctx.length + 1 + n) = some c' ∧
      c'.Holds t.layers.length (t.rows (ctx ++ [bonus] ++ drafts.take n))
        (ctx ++ [bonus] ++ drafts.take n).length := by
  have hblock : (ctx ++ bonus :: drafts).take (ctx.length + 1 + n) =
      ctx ++ [bonus] ++ drafts.take n := by
    rw [show ctx.length + 1 + n = (ctx ++ [bonus]).length + n by simp,
      show ctx ++ bonus :: drafts = ctx ++ [bonus] ++ drafts by simp, List.take_length_add_append]
  have hrows : (fun i => (t.rows (ctx ++ bonus :: drafts) i).take (ctx.length + 1 + n)) =
      t.rows (ctx ++ [bonus] ++ drafts.take n) := by
    funext i
    rw [← t.rows_take, hblock]
  have hlen : (ctx ++ [bonus] ++ drafts.take n).length = ctx.length + 1 + n := by
    simp only [List.length_append, List.length_singleton, List.length_take]; omega
  obtain ⟨c', htr, hc'⟩ := h.truncate (n := ctx.length + 1 + n) (by
    simp only [List.length_append, List.length_cons]; omega)
  rw [hrows] at hc'
  exact ⟨c', htr, by rw [hlen]; exact hc'⟩

/-- A round once the cache has lent its rows and the target has judged the drafts. -/
theorem specRound_judged {shared : SharedKv α} {drafts : List Int32} {cache : KvCache α}
    {hidden : List η} {preds : List Int32} (hshared : sharedKv t.layers st.cache = some shared)
    (hdrafts : d.draft shared st.cache.offset (min draftSteps (maxTokens - st.out.length - 1)) st.bonus
      st.hPrev = drafts)
    (hfwd : t.forwardHidden (st.bonus :: drafts) st.cache = some (cache, hidden))
    (hpreds : hidden.map (fun h => (t.argmax h).toInt32) = preds) :
    specRound t d maxTokens st =
      match emit t.stopTokens maxTokens (drafts.take (accepted drafts preds)) st.out with
      | (out, true) => some (.inl out)
      | (out, false) => do
        let next ← preds[accepted drafts preds]?
        if next ∈ t.stopTokens then return .inl out
        else do
          let cache ← cache.truncate (st.cache.offset + 1 + accepted drafts preds)
          let hPrev ← hidden[accepted drafts preds]?
          return .inr { cache := cache, hPrev := hPrev, bonus := next, out := out ++ [next.toUInt32] } := by
  simp only [specRound, hshared, bind, Option.bind]
  rw [hdrafts, hfwd]
  simp only [hpreds]
  rfl

theorem specRound_inv {goal : List UInt32} (hinv : SpecInv t maxTokens goal st)
    (hlt : st.out.length < maxTokens) :
    specRound t d maxTokens st = some (.inl goal) ∨
      ∃ st', specRound t d maxTokens st = some (.inr st') ∧ SpecInv t maxTokens goal st' := by
  obtain ⟨ctx, hne, hc, hgoal⟩ := hinv
  obtain ⟨shared, hshared⟩ := hc.sharedKv (List.length_pos_iff.mpr hne) t.hasFull t.hasSliding
  obtain ⟨drafts, hdrafts⟩ : ∃ drafts, d.draft shared st.cache.offset
    (min draftSteps (maxTokens - st.out.length - 1)) st.bonus st.hPrev = drafts := ⟨_, rfl⟩
  obtain ⟨cache, hidden, hfwd, hc', hargmax⟩ := t.forward_block ctx (st.bonus :: drafts) st.cache
    (by simp) hc
  obtain ⟨hle, hfollows, hnext⟩ := accepted_spec t (ctx ++ [st.bonus]) drafts
  rw [specRound_judged hshared hdrafts hfwd (choices_of_forward hargmax)]
  generalize accepted drafts (choices t (ctx ++ [st.bonus]) drafts) = n at hle hfollows hnext ⊢
  obtain ⟨out, he, hres⟩ | ⟨out, he, hout, hres⟩ := emit_follows t (drafts.take n) (ctx ++ [st.bonus])
    st.out hfollows hlt
  · -- a stop token among the accepted drafts
    rw [he, hres, hgoal]
    exact Or.inl rfl
  · rw [he]
    simp only [hnext, bind, Option.bind]
    rw [hgoal] at hres
    by_cases hs : t.nextId (ctx ++ [st.bonus] ++ drafts.take n) ∈ t.stopTokens
    · rw [greedy_stop t hs, List.append_nil] at hres
      rw [if_pos hs, hres]
      exact Or.inl rfl
    · obtain ⟨cache', htr, hc''⟩ := truncate_accepted hc' hle
      have hhid : hidden.length = drafts.length + 1 := by
        have := congrArg List.length hargmax
        simpa using this
      have hget : hidden[n]? = some hidden[n] := List.getElem?_eq_getElem (by omega)
      rw [if_neg hs, hc.offset, htr, hget]
      refine Or.inr ⟨_, rfl, ctx ++ [st.bonus] ++ drafts.take n, by simp, hc'', ?_⟩
      rw [← hres, greedy_push t (n := maxTokens - out.length) (by omega) hs, List.length_append,
        List.length_singleton, Nat.sub_add_eq, List.append_assoc]
      rfl

theorem specLoop_inv {goal : List UInt32} (hinv : SpecInv t maxTokens goal st) :
    specLoop t d maxTokens st = some goal := by
  induction hk : maxTokens - st.out.length using Nat.strong_induction_on generalizing st with
  | _ k ih =>
    rw [specLoop]
    by_cases hlt : st.out.length < maxTokens
    · rw [dif_pos hlt]
      obtain hdone | ⟨st', hnext, hinv'⟩ := specRound_inv (d := d) hinv hlt
      · split <;> rename_i hr <;> rw [hdone] at hr <;> cases hr
        rfl
      · split <;> rename_i hr <;> rw [hnext] at hr <;> cases hr
        have hgrow := specRound_grows hnext
        exact ih _ (by omega) hinv' rfl
    · rw [dif_neg hlt]
      obtain ⟨ctx, -, -, hgoal⟩ := hinv
      have hz : maxTokens - st.out.length = 0 := by omega
      rw [hz] at hgoal
      rw [← hgoal]
      exact congrArg some (List.append_nil _).symm

end

/-- Speculative decoding returns what plain greedy decoding of the target returns, whatever
the drafter proposes. -/
theorem speculative_transparent (t : Target α η) (d : Drafter α η) (prompt : List Int32)
    (hprompt : prompt ≠ []) (maxTokens : Nat) :
    specRun t d prompt maxTokens = some (t.greedy maxTokens prompt) := by
  unfold specRun
  by_cases h0 : maxTokens = 0
  · rw [if_pos h0, h0]; rfl
  rw [if_neg h0]
  have hempty : (fun _ => [] : Nat → List α) = t.rows [] := by
    funext i
    exact (List.length_eq_zero_iff.mp (t.rows_length [] i)).symm
  have hnew := @newLinear_holds α t.layers.length
  rw [hempty] at hnew
  obtain ⟨cache, hidden, hfwd, hc, hargmax⟩ := t.forward_block [] prompt _ hprompt hnew
  rw [List.nil_append] at hc
  obtain ⟨hPrev, hlast, hbonus⟩ : ∃ h, hidden.getLast? = some h ∧ t.argmax h = t.next prompt := by
    obtain ⟨k, hk⟩ : ∃ k, prompt.length = k + 1 :=
      ⟨prompt.length - 1, by have := List.length_pos_iff.mpr hprompt; omega⟩
    have hl := congrArg List.getLast? hargmax
    rw [List.getLast?_map, hk, List.range_succ, List.map_append, List.map_singleton,
      List.getLast?_concat, ← hk, List.nil_append, List.take_length] at hl
    exact Option.map_eq_some_iff.mp hl
  simp only [hfwd, hlast, bind, Option.bind, hbonus]
  by_cases hs : t.nextId prompt ∈ t.stopTokens
  · rw [greedy_stop t hs]
    exact if_pos hs
  · refine (if_neg hs).trans (specLoop_inv ⟨prompt, hprompt, hc, ?_⟩)
    rw [greedy_push t (by omega) hs]
    rfl

/-! The layer stack as the target. -/

theorem Gemma4.argmax_block {β : Type} (m : Gemma4 α β) {ctx block : List Int32} {hidden : List β}
    (h : m.states (ctx ++ block) = m.states ctx ++ hidden) :
    hidden.map m.argmax =
      (List.range block.length).map fun i => m.next (ctx ++ block.take (i + 1)) := by
  have hlen : hidden.length = block.length := by
    have := congrArg List.length h
    simpa [Gemma4.states_length] using this.symm
  refine List.ext_getElem (by simp [hlen]) fun i hi hi' => ?_
  have hlt : i < hidden.length := by simpa using hi
  have htake : ctx ++ block.take (i + 1) = (ctx ++ block).take (ctx.length + (i + 1)) := by
    rw [List.take_length_add_append]
  have hlast : (m.states (ctx ++ block.take (i + 1))).getLast? = some hidden[i] := by
    rw [htake, m.states_take, h, List.getLast?_eq_getElem?]
    have hn : ((m.states ctx ++ hidden).take (ctx.length + (i + 1))).length = ctx.length + (i + 1) := by
      rw [List.length_take, List.length_append, m.states_length]; omega
    rw [hn, List.getElem?_take_of_lt (by omega), List.getElem?_append_right
      (by rw [m.states_length]; omega), m.states_length, List.getElem?_eq_some_iff]
    exact ⟨by omega, by congr 1; omega⟩
  simp only [List.getElem_map, List.getElem_range, Gemma4.next, hlast, Option.map_some,
    Option.getD_some]

section
variable {β : Type} [Inhabited α] {w : Nat}

/-- The K/V rows of layer `i` for the states `hs` entering the stack. -/
def rowsAt (w : Nat) : List (Layer α β) → List β → Nat → List α
  | [], hs, _ => hs.map fun _ => default
  | l :: _, hs, 0 => l.rows hs
  | l :: layers, hs, i+1 => rowsAt w layers (l.states w hs) i

theorem rowsAt_length (layers : List (Layer α β)) (hs : List β) (i : Nat) :
    (rowsAt w layers hs i).length = hs.length := by
  induction layers generalizing hs i with
  | nil => simp [rowsAt]
  | cons l layers ih =>
    cases i with
    | zero => exact l.rows_length hs
    | succ i => exact (ih _ _).trans (l.states_length hs)

theorem rowsAt_take (layers : List (Layer α β)) (hs : List β) (i n : Nat) :
    rowsAt w layers (hs.take n) i = (rowsAt w layers hs i).take n := by
  induction layers generalizing hs i with
  | nil => simp [rowsAt, List.map_take]
  | cons l layers ih =>
    cases i with
    | zero => exact l.rows_take hs n
    | succ i => rw [rowsAt, rowsAt, l.states_take, ih]

theorem layersHold_iff (layers : List (Layer α β)) (hs : List β) (slots : List (KvSlot α)) :
    LayersHold w true layers hs slots ↔ slots.length = layers.length ∧
      ∀ (i : Nat) (s : KvSlot α), slots[i]? = some s →
        s.forceLinear = true ∧ s.Holds none (rowsAt w layers hs i) := by
  induction layers generalizing hs slots with
  | nil =>
    constructor
    · rintro rfl
      exact ⟨rfl, fun i s hi => by simp at hi⟩
    · exact fun h => List.length_eq_zero_iff.mp h.1
  | cons l layers ih =>
    cases slots with
    | nil => exact iff_of_false (fun h => h.elim) (fun h => by simp at h)
    | cons slot slots =>
      rw [LayersHold, ih]
      constructor
      · rintro ⟨hf, hs', hl, hall⟩
        refine ⟨by simp [hl], fun i s hi => ?_⟩
        cases i with
        | zero => cases hi; exact ⟨hf, hs'⟩
        | succ i => exact hall i s hi
      · rintro ⟨hl, hall⟩
        obtain ⟨hf, hs'⟩ := hall 0 slot rfl
        exact ⟨hf, hs', by simpa using hl, fun i s hi => hall (i + 1) s hi⟩

def Gemma4.rows (m : Gemma4 α β) (ctx : List Int32) (i : Nat) : List α :=
  rowsAt m.slidingWindow m.layers (ctx.map m.embed) i

theorem holds_iff_fed (m : Gemma4 α β) (c : KvCache α) (ctx : List Int32) :
    c.Holds m.layers.length (m.rows ctx) ctx.length ↔ c.linear = true ∧ m.Fed c ctx := by
  constructor
  · rintro ⟨hlin, hoff, hcount, hslots⟩
    refine ⟨hlin, hoff, ?_⟩
    rw [hlin, layersHold_iff]
    exact ⟨hcount, fun i s hi => ⟨(hslots i s hi).1, (hslots i s hi).2.1⟩⟩
  · rintro ⟨hlin, hoff, hl⟩
    rw [hlin, layersHold_iff] at hl
    refine ⟨hlin, hoff, hl.1, fun i s hi => ⟨(hl.2 i s hi).1, (hl.2 i s hi).2, ?_⟩⟩
    exact (rowsAt_length _ _ _).trans (List.length_map _)

/-- The layer stack meets everything that speculative decoding asks of a target. -/
def Gemma4.target (m : Gemma4 α β) : Target α β where
  layers := m.layers.map Layer.kind
  hasFull := List.mem_map.mpr m.hasFull
  hasSliding := List.mem_map.mpr m.hasSliding
  stopTokens := m.stopTokens
  next := m.next
  rows := m.rows
  rows_length ctx i := (rowsAt_length _ _ _).trans (List.length_map _)
  rows_take ctx i n := by rw [Gemma4.rows, List.map_take, rowsAt_take]; rfl
  forwardHidden := m.forwardHidden
  argmax := m.argmax
  forward_block ctx block c hblock hc := by
    rw [List.length_map] at hc ⊢
    obtain ⟨hlin, hfed⟩ := (holds_iff_fed m c ctx).mp hc
    obtain ⟨c', hidden, he, hfed', hlin', hst⟩ := forwardHidden_fed m hfed hblock
    exact ⟨c', hidden, he, (holds_iff_fed m c' _).mpr ⟨hlin'.trans hlin, hfed'⟩, m.argmax_block hst⟩

end

/-- A drafter that always proposes the same token. -/
def stubborn : Drafter Int32 Int32 where
  forward _ h _ _ := (h, 3)

theorem speculative_transparent_stubborn :
    specRun successor.target stubborn [1] 10 = some [2, 3, 4] := by
  rw [speculative_transparent successor.target stubborn [1] (by decide) 10]
  decide

end Onisin.Mlx
