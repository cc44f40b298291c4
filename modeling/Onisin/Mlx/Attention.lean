import Onisin.Mlx.KvSlot

/-!
One layer's attention geometry: the mask of a step is computed from the offset, the step's
width and the window alone, and has to fit the keys that the slot hands out. Queries are
numbered by their absolute position in the sequence.
-/

set_option autoImplicit false

namespace Onisin.Mlx
open Lib

variable {α : Type}

/-- An explicit mask holds `true` where the source adds 0 and `false` where it adds a large
negative number. -/
inductive MaskKind where
  | none
  | causal
  | mask (allowed : List (List Bool))
  deriving DecidableEq, Repr

structure StepMasks where
  full : MaskKind
  sliding : MaskKind
  deriving DecidableEq, Repr

/-- Row `qi` is the query at `offset + qi`, column `kj` the key at `keyStart + kj`. -/
def slidingMask (offset seq keyStart klen window : Nat) : List (List Bool) :=
  (List.range' offset seq).map fun q : Nat =>
    (List.range' keyStart klen).map fun k : Nat =>
      decide (k ≤ q) && decide ((q : Int) - k < window)

def stepMasks (offset seq window : Nat) (retained : Bool) : StepMasks :=
  let old := if retained then min offset window else offset
  let keyStart := offset - old
  { full := if seq ≤ 1 then .none else .causal
    sliding :=
      if seq ≤ 1 ∧ retained then .none
      else if (old : Int) + seq - 1 < window then
        if seq ≤ 1 then .none else .causal
      else .mask (slidingMask offset seq keyStart (old + seq) window) }

/-- The keys that query row `i` of a step attends to. The causal mode aligns the queries
with the last `seq` keys; a masked-out key takes no part. -/
def attended (mask : MaskKind) (seq : Nat) (keys : List α) (i : Nat) : List α :=
  match mask with
  | .none => keys
  | .causal => keys.take (keys.length - seq + i + 1)
  | .mask allowed =>
    ((keys.zip (allowed.getD i [])).filter fun p => p.2).map fun p => p.1

inductive LayerKind where
  | sliding
  | full
  deriving DecidableEq, Repr

def LayerKind.mask (masks : StepMasks) : LayerKind → MaskKind
  | .sliding => masks.sliding
  | .full => masks.full

def LayerKind.window (w : Nat) : LayerKind → Option Nat
  | .sliding => some w
  | .full => none

/-- The attention part of one layer's step: store the rows, then let every query see what
the mask leaves of the keys handed out. -/
def attendStep [Inhabited α] (kind : LayerKind) (w : Nat) (linear : Bool) (slot : KvSlot α)
    (offset : Nat) (new : List α) : Option (KvSlot α × List (List α)) := do
  let masks := stepMasks offset new.length w (!linear)
  let (slot, keys) ← slot.update new (kind.window w)
  return (slot, (List.range new.length).map (attended (kind.mask masks) new.length keys))

/-- All steps of a sequence; the offset advances with each. The result lists, query by
query, the keys attended to. -/
def attendRun [Inhabited α] (kind : LayerKind) (w : Nat) (linear : Bool) :
    KvSlot α → Nat → List (List α) → Option (KvSlot α × List (List α))
  | slot, _, [] => some (slot, [])
  | slot, offset, new :: steps => do
    let (slot, seen) ← attendStep kind w linear slot offset new
    let (slot, rest) ← attendRun kind w linear slot (offset + new.length) steps
    return (slot, seen ++ rest)

/-- What position `q` of a sequence has to see. -/
def visible (kind : LayerKind) (w : Nat) (rows : List α) (q : Nat) : List α :=
  match kind with
  | .sliding => sub rows (q + 1 - w) (q + 1)
  | .full => sub rows 0 (q + 1)

/-! The explicit mask. -/

theorem sub_cons_succ (x : α) (xs : List α) (a b : Nat) : sub (x :: xs) (a + 1) (b + 1) = sub xs a b := by
  rw [sub, sub, List.drop_succ_cons]
  congr 1; omega

/-- A row of flags that allows the positions from `lo` to `hi` cuts that range out. -/
theorem pick_interval (p : Nat → Bool) (keys : List α) (s lo hi : Nat)
    (hp : ∀ k, p k = true ↔ lo ≤ k ∧ k < hi) :
    ((keys.zip ((List.range' s keys.length).map p)).filter fun x => x.2).map (fun x => x.1) =
      sub keys (lo - s) (hi - s) := by
  induction keys generalizing s with
  | nil => simp [sub]
  | cons x xs ih =>
    have ih' := ih (s + 1)
    rw [List.length_cons, List.range'_succ, List.map_cons, List.zip_cons_cons]
    by_cases hs : lo ≤ s ∧ s < hi
    · have hps : p s = true := (hp s).mpr hs
      have e₁ : lo - s = 0 := by omega
      have e₂ : hi - s = hi - (s + 1) + 1 := by omega
      have e₃ : lo - (s + 1) = 0 := by omega
      rw [e₃, sub_zero] at ih'
      simp only [List.filter_cons, hps, if_true]
      rw [List.map_cons, ih', e₁, e₂, sub_zero, List.take_succ_cons]
    · have hps : ¬ p s = true := fun h => hs ((hp s).mp h)
      simp only [List.filter_cons, hps, if_false, Bool.false_eq_true]
      rw [ih']
      by_cases hlo : s < lo ∧ s < hi
      · have e₁ : lo - s = lo - (s + 1) + 1 := by omega
        have e₂ : hi - s = hi - (s + 1) + 1 := by omega
        rw [e₁, e₂, sub_cons_succ]
      · have e₁ : hi - (s + 1) = 0 := by omega
        have e₂ : hi - s = 0 := by omega
        rw [e₁, e₂, sub, sub, Nat.zero_sub, Nat.zero_sub, List.take_zero, List.take_zero]

theorem attended_mask {keys : List α} {offset seq keyStart w i : Nat} (hi : i < seq) :
    attended (.mask (slidingMask offset seq keyStart keys.length w)) seq keys i =
      sub keys (offset + i + 1 - w - keyStart) (offset + i + 1 - keyStart) := by
  have hrow : (slidingMask offset seq keyStart keys.length w).getD i [] =
      (List.range' keyStart keys.length).map fun k =>
        decide (k ≤ offset + i) && decide (((offset + i : Nat) : Int) - k < w) := by
    rw [slidingMask, List.getD_eq_getElem?_getD, List.getElem?_map, List.getElem?_range' hi]
    simp
  simp only [attended, hrow]
  refine pick_interval _ keys keyStart _ _ fun k => ?_
  simp only [Bool.and_eq_true, decide_eq_true_eq]
  omega

/-! One step. -/

section
variable {kind : LayerKind} {w : Nat} {h new keys : List α} {i : Nat}

/-- Keys kept from the start: the mask alone cuts the window. -/
theorem attended_linear (kind : LayerKind) (hi : i < new.length) :
    attended (kind.mask (stepMasks h.length new.length w false)) new.length (h ++ new) i =
      visible kind w (h ++ new) (h.length + i) := by
  have hlen : (h ++ new).length = h.length + new.length := List.length_append
  have hk : (h ++ new).length - new.length + i + 1 = h.length + i + 1 := by omega
  have hone (hle : new.length ≤ 1) : (h ++ new).take (h.length + i + 1) = h ++ new :=
    List.take_of_length_le (by omega)
  cases kind with
  | full =>
    simp only [LayerKind.mask, stepMasks, visible, sub_zero]
    by_cases hle : new.length ≤ 1
    · rw [if_pos hle, attended, hone hle]
    · rw [if_neg hle, attended, hk]
  | sliding =>
    simp only [LayerKind.mask, stepMasks, visible, Bool.false_eq_true, and_false, if_false]
    by_cases hw : ((h.length : Int) + new.length - 1 < w)
    · have hlo : h.length + i + 1 - w = 0 := by omega
      rw [if_pos hw, hlo, sub_zero]
      by_cases hle : new.length ≤ 1
      · rw [if_pos hle, attended, hone hle]
      · rw [if_neg hle, attended, hk]
    · rw [if_neg hw, ← hlen, Nat.sub_self, attended_mask hi]
      simp

/-- A full layer's mask does not depend on the retention. -/
theorem attended_full (retained : Bool) (hi : i < new.length) :
    attended (stepMasks h.length new.length w retained).full new.length (h ++ new) i =
      visible .full w (h ++ new) (h.length + i) :=
  attended_linear .full (w := w) hi

theorem sub_drop (l : List α) (k a b : Nat) : sub (l.drop k) a b = sub l (k + a) (k + b) := by
  rw [sub, sub, List.drop_drop]
  congr 1; omega

/-- A rotating slot: single-token steps need no mask, wider ones a mask over the keys kept. -/
theorem attended_rotating (hi : i < new.length) (hret : Returned (some w) h new keys) :
    (attended (stepMasks h.length new.length w true).sliding new.length keys i).Perm
      (visible .sliding w (h ++ new) (h.length + i)) := by
  have hlen : (h ++ new).length = h.length + new.length := List.length_append
  simp only [stepMasks, visible, and_true, if_true]
  rw [Returned] at hret
  by_cases hle : new.length ≤ 1
  · have hi0 : i = 0 := by omega
    have hone : new.length = 1 := by omega
    have hvis : sub (h ++ new) (h.length + 1 - w) (h.length + 1) = (h ++ new).rtake w := by
      rw [List.rtake, sub_to_end _ _ _ (by omega), hlen, hone]
    rw [if_pos hle, attended, hi0, Nat.add_zero, hvis]
    by_cases hfull : w ≤ h.length
    · rw [if_pos ⟨hone, hfull⟩] at hret
      exact hret.perm
    · rw [if_neg (by omega), rtake_of_length_le (by omega)] at hret
      rw [hret, rtake_of_length_le (by omega)]
  · rw [if_neg (by omega)] at hret
    rw [if_neg hle]
    by_cases hw : ((min h.length w : Nat) : Int) + new.length - 1 < w
    · have hkeys : keys = h ++ new := by rw [hret, rtake_of_length_le (by omega)]
      have hlo : h.length + i + 1 - w = 0 := by omega
      have hk : (h ++ new).length - new.length + i + 1 = h.length + i + 1 := by omega
      rw [if_pos hw, if_neg hle, attended, hkeys, hlo, sub_zero, hk]
    · have hkeys : keys = (h ++ new).drop (h.length - min h.length w) := by
        rw [hret, Nat.min_comm, List.rtake, List.drop_append_of_le_length (by omega)]
      have hkl : min h.length w + new.length = keys.length := by
        rw [hkeys, List.length_drop, hlen]; omega
      rw [if_neg hw, hkl, attended_mask hi]
      have e₁ : h.length - min h.length w + (h.length + i + 1 - w - (h.length - min h.length w)) =
          h.length + i + 1 - w := by omega
      have e₂ : h.length - min h.length w + (h.length + i + 1 - (h.length - min h.length w)) =
          h.length + i + 1 := by omega
      rw [hkeys, sub_drop, e₁, e₂]

/-- In every regime a query sees exactly what its position has to see. -/
theorem attended_visible (linear : Bool) (hi : i < new.length)
    (hret : Returned (if linear then none else kind.window w) h new keys) :
    (attended (kind.mask (stepMasks h.length new.length w !linear)) new.length keys i).Perm
      (visible kind w (h ++ new) (h.length + i)) := by
  cases linear with
  | true =>
    have hkeys : keys = h ++ new := hret
    rw [hkeys]
    exact .of_eq (attended_linear kind hi)
  | false =>
    cases kind with
    | full =>
      have hkeys : keys = h ++ new := hret
      rw [hkeys]
      exact .of_eq (attended_full _ hi)
    | sliding => exact attended_rotating hi hret

theorem visible_append {rows more : List α} {q : Nat} (hq : q < rows.length) :
    visible kind w (rows ++ more) q = visible kind w rows q := by
  cases kind with
  | sliding => exact sub_append_left _ _ _ _ (by omega)
  | full => exact sub_append_left _ _ _ _ (by omega)

/-- Query by query, `seen` is what the positions from `start` on have to see. -/
def SeesAll (kind : LayerKind) (w : Nat) (rows : List α) (start : Nat) (seen : List (List α)) : Prop :=
  ∀ (j : Nat) (keys : List α), seen[j]? = some keys → keys.Perm (visible kind w rows (start + j))

theorem SeesAll.append {rows : List α} {start : Nat} {seen rest : List (List α)}
    (h₁ : SeesAll kind w rows start seen) (h₂ : SeesAll kind w rows (start + seen.length) rest) :
    SeesAll kind w rows start (seen ++ rest) := by
  intro j keys hj
  by_cases hlt : j < seen.length
  · rw [List.getElem?_append_left hlt] at hj
    exact h₁ j keys hj
  · rw [List.getElem?_append_right (by omega)] at hj
    have he : start + seen.length + (j - seen.length) = start + j := by omega
    have := h₂ _ _ hj
    rwa [he] at this

theorem forall₂_of_seesAll {rows : List α} {seen seen' : List (List α)}
    (h₁ : SeesAll kind w rows 0 seen) (h₂ : SeesAll kind w rows 0 seen')
    (hlen : seen.length = seen'.length) : List.Forall₂ List.Perm seen seen' := by
  rw [List.forall₂_iff_get]
  refine ⟨hlen, fun j hj hj' => ?_⟩
  have p₁ := h₁ j _ (List.getElem?_eq_getElem hj)
  have p₂ := h₂ j _ (List.getElem?_eq_getElem hj')
  exact p₁.trans p₂.symm

end

/-! Any cut of the sequence into steps. -/

section
variable [Inhabited α] {kind : LayerKind} {w : Nat} {linear : Bool} {h : List α} {slot : KvSlot α}

theorem window_pos (hw : 1 ≤ w) :
    ∀ n, (if linear then none else kind.window w) = some n → 0 < n := by
  intro n hn
  cases linear with
  | true => cases hn
  | false =>
    cases kind with
    | sliding => cases hn; omega
    | full => cases hn

theorem attendStep_holds (hw : 1 ≤ w) (hlin : slot.forceLinear = linear)
    (hs : slot.Holds (if linear then none else kind.window w) h) {new : List α} (hnew : new ≠ []) :
    ∃ slot' seen, attendStep kind w linear slot h.length new = some (slot', seen) ∧
      slot'.Holds (if linear then none else kind.window w) (h ++ new) ∧
      slot'.forceLinear = linear ∧ seen.length = new.length ∧
      SeesAll kind w (h ++ new) h.length seen := by
  obtain ⟨slot', keys, he, hs', hret, hf⟩ := update_holds (kind.window w)
    (by rw [hlin]) (window_pos hw) hs hnew
  refine ⟨slot', _, by rw [attendStep, he]; rfl, hs', hf.trans hlin, by simp, ?_⟩
  intro j out hj
  rw [List.getElem?_map, Option.map_eq_some_iff] at hj
  obtain ⟨i, hi, rfl⟩ := hj
  obtain ⟨hlt, rfl⟩ := List.getElem?_eq_some_iff.mp hi
  rw [List.length_range] at hlt
  rw [List.getElem_range]
  exact attended_visible linear hlt hret

theorem attendRun_holds (hw : 1 ≤ w) (steps : List (List α)) (hlin : slot.forceLinear = linear)
    (hs : slot.Holds (if linear then none else kind.window w) h) (hpos : ∀ new ∈ steps, new ≠ []) :
    ∃ slot' seen, attendRun kind w linear slot h.length steps = some (slot', seen) ∧
      seen.length = steps.flatten.length ∧
      SeesAll kind w (h ++ steps.flatten) h.length seen := by
  induction steps generalizing slot h with
  | nil => exact ⟨slot, [], rfl, rfl, fun j keys hj => by simp at hj⟩
  | cons new steps ih =>
    obtain ⟨s₁, seen, he, hs₁, hl₁, hlen, hsees⟩ := attendStep_holds hw hlin hs (hpos new (by simp))
    obtain ⟨s₂, rest, he₂, hlen₂, hsees₂⟩ := ih hl₁ hs₁ (fun x hx => hpos x (by simp [hx]))
    rw [List.length_append] at he₂ hsees₂
    refine ⟨s₂, seen ++ rest, ?_, by simp [hlen, hlen₂], ?_⟩
    · simp only [attendRun, he, he₂, bind, Option.bind]
      rfl
    · rw [List.flatten_cons, ← List.append_assoc]
      refine SeesAll.append (fun j keys hj => ?_) (by rw [hlen]; exact hsees₂)
      have hj' : j < seen.length := (List.getElem?_eq_some_iff.mp hj).1
      rw [visible_append (by rw [List.length_append]; omega)]
      exact hsees j keys hj

/-- However a sequence is cut into steps, and whether or not the cache rotates, position
`q` attends to exactly the positions it has to see; two cuts never differ. -/
theorem chunking_transparent (kind : LayerKind) (w : Nat) (hw : 1 ≤ w) (linear linear' : Bool)
    (rows : List α) (steps steps' : List (List α)) (hpos : ∀ new ∈ steps, new ≠ [])
    (hpos' : ∀ new ∈ steps', new ≠ []) (hrows : steps.flatten = rows)
    (hrows' : steps'.flatten = rows) :
    ∃ slot seen slot' seen',
      attendRun kind w linear (.new linear) 0 steps = some (slot, seen) ∧
      attendRun kind w linear' (.new linear') 0 steps' = some (slot', seen') ∧
      seen.length = rows.length ∧
      (∀ (q : Nat) (keys : List α), seen[q]? = some keys → keys.Perm (visible kind w rows q)) ∧
      List.Forall₂ List.Perm seen seen' := by
  subst hrows
  have hnew : ∀ l : Bool, (KvSlot.new l : KvSlot α).Holds (if l then none else kind.window w) [] :=
    fun l => new_holds l _
  have hlin : ∀ l : Bool, (KvSlot.new l : KvSlot α).forceLinear = l := fun _ => rfl
  obtain ⟨slot, seen, he, hlen, hsees⟩ := attendRun_holds hw steps (hlin linear) (hnew linear) hpos
  obtain ⟨slot', seen', he', hlen', hsees'⟩ :=
    attendRun_holds hw steps' (hlin linear') (hnew linear') hpos'
  rw [List.nil_append, List.length_nil] at hsees hsees'
  rw [hrows'] at hsees' hlen'
  refine ⟨slot, seen, slot', seen', he, he', hlen, fun q keys hq => ?_,
    forall₂_of_seesAll hsees hsees' (hlen.trans hlen'.symm)⟩
  have := hsees q keys hq
  rwa [Nat.zero_add] at this

end

theorem chunking_transparent_window_two :
    ∃ slot seen, attendRun .sliding 2 false (.new false : KvSlot Nat) 0 [[0, 1, 2], [3], [4, 5]] =
        some (slot, seen) ∧
      ∀ (q : Nat) (keys : List Nat), seen[q]? = some keys → keys.Perm (visible .sliding 2 [0, 1, 2, 3, 4, 5] q) := by
  obtain ⟨slot, seen, -, -, he, -, -, hsees, -⟩ := @chunking_transparent Nat _ .sliding 2
    (by decide) false true [0, 1, 2, 3, 4, 5] [[0, 1, 2], [3], [4, 5]] [[0], [1, 2, 3, 4], [5]]
    (by simp) (by simp) rfl rfl
  exact ⟨slot, seen, he, hsees⟩

end Onisin.Mlx
