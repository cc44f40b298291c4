import Onisin.Mlx.Attention

/-!
The cache of all layers. A linear cache keeps every position, which makes it possible to
roll it back: truncating it restores the cache of a shorter sequence. The recurrent state of
hybrid families is left out; the models here are attention only.
-/

set_option autoImplicit false

namespace Onisin.Mlx
open Lib

variable {α : Type}

structure KvCache (α : Type) where
  slots : List (KvSlot α)
  offset : Nat
  linear : Bool
  deriving DecidableEq, Repr

def KvCache.build (numLayers : Nat) (linear : Bool) : KvCache α where
  slots := List.replicate numLayers (.new linear)
  offset := 0
  linear := linear

def KvCache.new (numLayers : Nat) : KvCache α := .build numLayers false

def KvCache.newLinear (numLayers : Nat) : KvCache α := .build numLayers true

def KvCache.advance (c : KvCache α) (n : Nat) : KvCache α := { c with offset := c.offset + n }

def KvCache.truncate (c : KvCache α) (len : Nat) : Option (KvCache α) := do
  let slots ← c.slots.mapM fun s => s.truncate len
  return { c with slots := slots, offset := min c.offset len }

/-- One layer's rows in temporal order, absent before its first step. -/
def KvCache.layerKv (c : KvCache α) (layer : Nat) : Option (Option (List α)) := do
  (← c.slots[layer]?).temporal

/-- The rows lent to a drafter: those of the last full and the last sliding layer. -/
structure SharedKv (α : Type) where
  full : List α
  sliding : List α
  deriving DecidableEq, Repr

def sharedFrom (c : KvCache α) :
    List LayerKind → Nat → Option (List α) → Option (List α) →
      Option (Option (List α) × Option (List α))
  | [], _, full, sliding => some (full, sliding)
  | kind :: kinds, i, full, sliding => do
    match ← c.layerKv i, kind with
    | none, _ => sharedFrom c kinds (i + 1) full sliding
    | some kv, .full => sharedFrom c kinds (i + 1) (some kv) sliding
    | some kv, .sliding => sharedFrom c kinds (i + 1) full (some kv)

def sharedKv (kinds : List LayerKind) (c : KvCache α) : Option (SharedKv α) := do
  let (full, sliding) ← sharedFrom c kinds 0 none none
  return ⟨← full, ← sliding⟩

theorem sharedFrom_some {c : KvCache α} (kinds : List LayerKind) (i : Nat)
    (full sliding : Option (List α))
    (hkv : ∀ j, j < kinds.length → ∃ kv, c.layerKv (i + j) = some (some kv)) :
    ∃ f s, sharedFrom c kinds i full sliding = some (f, s) ∧
      (full.isSome ∨ .full ∈ kinds → f.isSome) ∧ (sliding.isSome ∨ .sliding ∈ kinds → s.isSome) := by
  induction kinds generalizing i full sliding with
  | nil => exact ⟨full, sliding, rfl, by simp, by simp⟩
  | cons kind kinds ih =>
    obtain ⟨kv, h0⟩ := hkv 0 (by simp)
    rw [Nat.add_zero] at h0
    have hrest : ∀ j, j < kinds.length → ∃ kv, c.layerKv (i + 1 + j) = some (some kv) := by
      intro j hj
      have := hkv (j + 1) (by rw [List.length_cons]; omega)
      rwa [show i + (j + 1) = i + 1 + j by omega] at this
    cases kind with
    | full =>
      obtain ⟨f, s, he, hf, hs⟩ := ih (i + 1) (some kv) sliding hrest
      refine ⟨f, s, by simp only [sharedFrom, h0, bind, Option.bind, he], fun _ => hf (by simp), ?_⟩
      exact fun h => hs (by simpa using h)
    | sliding =>
      obtain ⟨f, s, he, hf, hs⟩ := ih (i + 1) full (some kv) hrest
      refine ⟨f, s, by simp only [sharedFrom, h0, bind, Option.bind, he], ?_, fun _ => hs (by simp)⟩
      exact fun h => hf (by simpa using h)

/-! What a linear cache holds. -/

/-- Every layer's slot has been fed the rows that `rows` gives for it. -/
structure KvCache.Holds (c : KvCache α) (numLayers : Nat) (rows : Nat → List α) (n : Nat) : Prop where
  linear : c.linear = true
  offset : c.offset = n
  count : c.slots.length = numLayers
  slots : ∀ i s, c.slots[i]? = some s →
    s.forceLinear = true ∧ s.Holds none (rows i) ∧ (rows i).length = n

theorem newLinear_holds (numLayers : Nat) :
    (KvCache.newLinear numLayers : KvCache α).Holds numLayers (fun _ => []) 0 := by
  refine ⟨rfl, rfl, List.length_replicate, fun i s hi => ?_⟩
  have hs : s = .new true := by
    have hmem := List.mem_of_getElem? hi
    exact List.eq_of_mem_replicate hmem
  rw [hs]
  exact ⟨rfl, new_holds true none, rfl⟩

theorem KvSlot.Holds.truncate {s : KvSlot α} {h : List α} (hs : s.Holds none h) (n : Nat) :
    ∃ s', s.truncate n = some s' ∧ s'.Holds none (h.take n) ∧ s'.forceLinear = s.forceLinear := by
  have hlen : s.len = h.length := hs.len
  unfold KvSlot.truncate
  by_cases hle : s.len ≤ n
  · rw [if_pos hle, List.take_of_length_le (by omega)]
    exact ⟨s, rfl, hs, rfl⟩
  · have hev : ¬ s.evicted = true := by
      intro hev
      obtain ⟨m, hm, -⟩ := hs.evicted hev
      cases hm
    have htake : (h.take n).length = n := by rw [List.length_take]; omega
    rw [if_neg hle, if_neg hev]
    refine ⟨_, rfl, ⟨?_, ?_, fun h => absurd h hev⟩, rfl⟩
    · show n = (h.take n).length
      exact htake.symm
    · cases hs.layout with
      | empty hb hc hh =>
        rw [hh, List.length_nil] at hlen
        omega
      | flat b hb hl hpos hle' hw hi hrows =>
        refine .flat b hb hl hpos (show n ≤ s.cap by omega) (fun m hm => by cases hm) (if_pos hpos) ?_
        show b.take n = (h.take n).rtake n
        rw [rtake_of_length_le (by omega)] at hrows
        rw [rtake_of_length_le (by omega), ← hrows, List.take_take, Nat.min_eq_left (by omega)]
      | ring b hb hl hpos hw hle' hi hrows => cases hw

theorem mapM_option {β γ : Type} (f : β → Option γ) (P : Nat → γ → Prop) (l : List β)
    (h : ∀ i x, l[i]? = some x → ∃ y, f x = some y ∧ P i y) :
    ∃ ys, l.mapM f = some ys ∧ ys.length = l.length ∧ ∀ i y, ys[i]? = some y → P i y := by
  induction l generalizing P with
  | nil => exact ⟨[], rfl, rfl, fun i y hi => by simp at hi⟩
  | cons x l ih =>
    obtain ⟨y, hy, hP⟩ := h 0 x rfl
    obtain ⟨ys, hys, hlen, hall⟩ := ih (fun i => P (i + 1)) (fun i z hz => h (i + 1) z hz)
    refine ⟨y :: ys, by simp [hy, hys], by simp [hlen], fun i z hz => ?_⟩
    cases i with
    | zero => cases hz; exact hP
    | succ i => exact hall i z hz

/-- Rolling a linear cache back restores the cache of the first `n` positions. -/
theorem KvCache.Holds.truncate {c : KvCache α} {numLayers m : Nat} {rows : Nat → List α}
    (hc : c.Holds numLayers rows m) {n : Nat} (hn : n ≤ m) :
    ∃ c', c.truncate n = some c' ∧ c'.Holds numLayers (fun i => (rows i).take n) n := by
  obtain ⟨slots, hm, hlen, hall⟩ := mapM_option (fun s : KvSlot α => s.truncate n)
    (fun i s => s.forceLinear = true ∧ s.Holds none ((rows i).take n) ∧
      ((rows i).take n).length = n) c.slots (by
    intro i s hi
    obtain ⟨hf, hs, hr⟩ := hc.slots i s hi
    obtain ⟨s', he, hs', hf'⟩ := hs.truncate n
    exact ⟨s', he, hf'.trans hf, hs', by rw [List.length_take]; omega⟩)
  refine ⟨{ c with slots := slots, offset := min c.offset n }, ?_, hc.linear, ?_, ?_, hall⟩
  · rw [KvCache.truncate, hm]; rfl
  · show min c.offset n = n
    rw [hc.offset]; omega
  · exact hlen.trans hc.count

/-- With both kinds of layers and a non-empty sequence there is something to lend. -/
theorem KvCache.Holds.sharedKv {c : KvCache α} {kinds : List LayerKind} {rows : Nat → List α} {n : Nat}
    (hc : c.Holds kinds.length rows n) (hn : 0 < n) (hfull : .full ∈ kinds)
    (hsliding : .sliding ∈ kinds) : ∃ kv, Mlx.sharedKv kinds c = some kv := by
  obtain ⟨f, s, he, hf, hs⟩ := sharedFrom_some (c := c) kinds 0 none none (by
    intro j hj
    have hlt : j < c.slots.length := by rw [hc.count]; exact hj
    have hget : c.slots[0 + j]? = some c.slots[j] := by
      rw [Nat.zero_add]; exact List.getElem?_eq_getElem hlt
    obtain ⟨-, hslot, hrows⟩ := hc.slots _ _ hget
    have hlen : (c.slots[j]).len ≠ 0 := by
      rw [hslot.len]
      show (rows (0 + j)).length ≠ 0
      omega
    refine ⟨(rows (0 + j)).rtake (c.slots[j]).len, ?_⟩
    simp only [KvCache.layerKv, hget, bind, Option.bind]
    rw [hslot.temporal_eq, if_neg hlen])
  obtain ⟨f', rfl⟩ := Option.isSome_iff_exists.mp (hf (Or.inr hfull))
  obtain ⟨s', rfl⟩ := Option.isSome_iff_exists.mp (hs (Or.inr hsliding))
  exact ⟨⟨f', s'⟩, by rw [Mlx.sharedKv, he]; rfl⟩

end Onisin.Mlx
