import Mathlib.Data.Multiset.Basic
import Onisin.Mlx.KvCache

/-!
The layer stack of a forward step. A layer computes one K/V row per position and lets each
position's new hidden state depend on its old one and on the rows it attends to, in no
particular order. Under that reading the cache is invisible: a step on any cache that was fed
a prefix computes the hidden states that the whole sequence has by itself.
-/

set_option autoImplicit false

namespace Onisin.Mlx
open Lib

variable {α β : Type}

structure Layer (α β : Type) where
  kind : LayerKind
  /-- Key and value of a position, from its hidden state. -/
  kv : Nat → β → α
  /-- Attention over a set of rows and everything behind it, position by position. -/
  out : Nat → β → Multiset α → β

structure Gemma4 (α β : Type) where
  slidingWindow : Nat
  slidingWindow_pos : 1 ≤ slidingWindow
  layers : List (Layer α β)
  hasFull : ∃ l ∈ layers, l.kind = .full
  hasSliding : ∃ l ∈ layers, l.kind = .sliding
  stopTokens : List Int32
  embed : Int32 → β
  /-- Final norm, head and argmax of one hidden row. -/
  argmax : β → UInt32

section
variable [Inhabited α]

def Layer.forward (w : Nat) (linear : Bool) (l : Layer α β) (slot : KvSlot α) (offset : Nat)
    (hs : List β) : Option (KvSlot α × List β) := do
  let (slot, seen) ← attendStep l.kind w linear slot offset (hs.mapIdx fun i h => l.kv (offset + i) h)
  return (slot, hs.mapIdx fun i h => l.out (offset + i) h (seen.getD i []))

/-- Layers and slots are walked in step; the shorter list ends the walk. -/
def forwardLayers (w : Nat) (linear : Bool) (offset : Nat) :
    List (Layer α β) → List (KvSlot α) → List β → Option (List (KvSlot α) × List β)
  | l :: layers, slot :: slots, hs => do
    let (slot, hs) ← l.forward w linear slot offset hs
    let (slots, hs) ← forwardLayers w linear offset layers slots hs
    return (slot :: slots, hs)
  | _, slots, hs => some (slots, hs)

def Gemma4.forwardHidden (m : Gemma4 α β) (ids : List Int32) (c : KvCache α) :
    Option (KvCache α × List β) := do
  let (slots, hs) ← forwardLayers m.slidingWindow c.linear c.offset m.layers c.slots
    (ids.map m.embed)
  return ({ c with slots := slots }.advance ids.length, hs)

end

/-! The same computation on a whole sequence, without a cache. -/

def Layer.rows (l : Layer α β) (hs : List β) : List α := hs.mapIdx l.kv

def Layer.states (w : Nat) (l : Layer α β) (hs : List β) : List β :=
  hs.mapIdx fun q h => l.out q h (visible l.kind w (l.rows hs) q)

def layerStates (w : Nat) (layers : List (Layer α β)) (hs : List β) : List β :=
  layers.foldl (fun hs l => l.states w hs) hs

def Gemma4.states (m : Gemma4 α β) (ctx : List Int32) : List β :=
  layerStates m.slidingWindow m.layers (ctx.map m.embed)

section
variable {w : Nat} {l : Layer α β}

@[simp] theorem Layer.rows_length (hs : List β) : (l.rows hs).length = hs.length := by
  simp [Layer.rows]

@[simp] theorem Layer.states_length (hs : List β) : (l.states w hs).length = hs.length := by
  simp [Layer.states]

theorem Layer.rows_append (hs new : List β) :
    l.rows (hs ++ new) = l.rows hs ++ new.mapIdx fun i h => l.kv (hs.length + i) h := by
  simp [Layer.rows, List.mapIdx_append, Nat.add_comm]

/-- Later positions do not reach back. -/
theorem Layer.states_append (hs new : List β) :
    l.states w (hs ++ new) = l.states w hs ++ new.mapIdx fun i h =>
      l.out (hs.length + i) h (visible l.kind w (l.rows (hs ++ new)) (hs.length + i)) := by
  rw [Layer.states, List.mapIdx_append]
  congr 1
  · rw [Layer.states]
    refine List.ext_getElem (by simp) fun q hq hq' => ?_
    have hlt : q < (l.rows hs).length := by simpa using hq
    have hv : visible l.kind w (l.rows (hs ++ new)) q = visible l.kind w (l.rows hs) q := by
      rw [Layer.rows_append, visible_append hlt]
    simp only [List.getElem_mapIdx, hv]
  · simp [Nat.add_comm]

theorem Layer.rows_take (hs : List β) (n : Nat) : l.rows (hs.take n) = (l.rows hs).take n := by
  refine List.ext_getElem (by simp) fun q hq hq' => ?_
  simp [Layer.rows]

theorem Layer.states_take (hs : List β) (n : Nat) :
    l.states w (hs.take n) = (l.states w hs).take n := by
  have h := l.states_append (w := w) (hs.take n) (hs.drop n)
  rw [List.take_append_drop] at h
  rw [h]
  by_cases hn : n ≤ hs.length
  · rw [List.take_left' (by rw [Layer.states_length, List.length_take]; omega)]
  · rw [List.drop_eq_nil_of_le (by omega), List.mapIdx_nil, List.append_nil, eq_comm]
    exact List.take_of_length_le (by rw [Layer.states_length, List.length_take]; omega)

@[simp] theorem layerStates_length (layers : List (Layer α β)) (hs : List β) :
    (layerStates w layers hs).length = hs.length := by
  induction layers generalizing hs with
  | nil => rfl
  | cons l layers ih => rw [layerStates, List.foldl_cons]; exact (ih _).trans (l.states_length hs)

theorem layerStates_take (layers : List (Layer α β)) (hs : List β) (n : Nat) :
    layerStates w layers (hs.take n) = (layerStates w layers hs).take n := by
  induction layers generalizing hs with
  | nil => rfl
  | cons l layers ih =>
    simp only [layerStates, List.foldl_cons] at ih ⊢
    rw [l.states_take, ih]

theorem Gemma4.states_take (m : Gemma4 α β) (ctx : List Int32) (n : Nat) :
    m.states (ctx.take n) = (m.states ctx).take n := by
  rw [Gemma4.states, Gemma4.states, List.map_take, layerStates_take]

theorem Gemma4.states_length (m : Gemma4 α β) (ctx : List Int32) :
    (m.states ctx).length = ctx.length := by
  simp [Gemma4.states]

/-- The greedy choice after a prefix: the argmax of its last hidden state. -/
def Gemma4.next (m : Gemma4 α β) (ctx : List Int32) : UInt32 :=
  ((m.states ctx).getLast?.map m.argmax).getD 0

end

/-! The cache against the whole sequence. -/

/-- Every slot was fed the rows of its layer, `hs` being the hidden states that enter the
first of the layers. -/
def LayersHold (w : Nat) (linear : Bool) : List (Layer α β) → List β → List (KvSlot α) → Prop
  | [], _, slots => slots = []
  | l :: layers, hs, slot :: slots =>
    slot.forceLinear = linear ∧
      slot.Holds (if linear then none else l.kind.window w) (l.rows hs) ∧
      LayersHold w linear layers (l.states w hs) slots
  | _ :: _, _, [] => False

/-- The cache has been fed exactly the tokens `ctx`. -/
structure Gemma4.Fed (m : Gemma4 α β) (c : KvCache α) (ctx : List Int32) : Prop where
  offset : c.offset = ctx.length
  layers : LayersHold m.slidingWindow c.linear m.layers (ctx.map m.embed) c.slots

theorem build_fed (m : Gemma4 α β) (linear : Bool) :
    m.Fed (.build m.layers.length linear) [] := by
  refine ⟨rfl, ?_⟩
  show LayersHold _ linear m.layers [] (List.replicate m.layers.length (.new linear))
  induction m.layers with
  | nil => rfl
  | cons l layers ih => exact ⟨rfl, new_holds linear _, ih⟩

section
variable [Inhabited α] {w : Nat} {linear : Bool}

theorem layer_forward {l : Layer α β} {slot : KvSlot α} {hs new : List β} (hw : 1 ≤ w)
    (hlin : slot.forceLinear = linear)
    (hslot : slot.Holds (if linear then none else l.kind.window w) (l.rows hs)) (hnew : new ≠ []) :
    ∃ slot' new', l.forward w linear slot hs.length new = some (slot', new') ∧
      slot'.forceLinear = linear ∧
      slot'.Holds (if linear then none else l.kind.window w) (l.rows (hs ++ new)) ∧
      l.states w (hs ++ new) = l.states w hs ++ new' := by
  have hrows : new.mapIdx (fun i h => l.kv (hs.length + i) h) ≠ [] := by simpa using hnew
  obtain ⟨slot', seen, he, hs', hf, hlen, hsees⟩ := attendStep_holds hw hlin hslot hrows
  rw [← Layer.rows_append, l.rows_length] at hsees
  rw [l.rows_length] at he
  rw [← Layer.rows_append] at hs'
  refine ⟨slot', _, by rw [Layer.forward, he]; rfl, hf, hs', ?_⟩
  rw [Layer.states_append]
  congr 1
  refine List.ext_getElem (by simp) fun i hi hi' => ?_
  have hlt : i < seen.length := by rw [hlen]; simpa using hi
  have hkeys := hsees i seen[i] (List.getElem?_eq_getElem hlt)
  have hget : seen.getD i [] = seen[i] := by
    rw [List.getD_eq_getElem?_getD, List.getElem?_eq_getElem hlt]; rfl
  simp only [List.getElem_mapIdx, hget, Multiset.coe_eq_coe.mpr hkeys]

theorem forwardLayers_hold (hw : 1 ≤ w) (layers : List (Layer α β)) {slots : List (KvSlot α)}
    {hs new : List β} (h : LayersHold w linear layers hs slots) (hnew : new ≠ []) :
    ∃ slots' new', forwardLayers w linear hs.length layers slots new = some (slots', new') ∧
      LayersHold w linear layers (hs ++ new) slots' ∧
      layerStates w layers (hs ++ new) = layerStates w layers hs ++ new' := by
  induction layers generalizing slots hs new with
  | nil =>
    have hnil : slots = [] := h
    subst hnil
    exact ⟨[], new, rfl, rfl, rfl⟩
  | cons l layers ih =>
    cases slots with
    | nil => exact h.elim
    | cons slot slots =>
      obtain ⟨hf, hslot, hrest⟩ := h
      obtain ⟨slot', new₁, he, hf', hslot', hst⟩ := layer_forward hw hf hslot hnew
      have hlen : new₁.length = new.length := by
        have := congrArg List.length hst
        simpa using this.symm
      have hne : new₁ ≠ [] := by
        intro h0
        rw [h0] at hlen
        exact hnew (List.length_eq_zero_iff.mp hlen.symm)
      obtain ⟨slots', new₂, he₂, hrest', hst₂⟩ := ih hrest hne
      rw [l.states_length] at he₂
      refine ⟨slot' :: slots', new₂, ?_, ⟨hf', hslot', by rw [hst]; exact hrest'⟩, ?_⟩
      · simp only [forwardLayers, he, he₂, bind, Option.bind]; rfl
      · simp only [layerStates, List.foldl_cons] at hst₂ ⊢
        rw [hst]; exact hst₂

/-- A step on a cache fed `ctx` computes the states that the block's positions have in the
whole sequence, on a rotating as on a linear cache. -/
theorem forwardHidden_fed (m : Gemma4 α β) {c : KvCache α} {ctx block : List Int32}
    (h : m.Fed c ctx) (hblock : block ≠ []) :
    ∃ c' hidden, m.forwardHidden block c = some (c', hidden) ∧ m.Fed c' (ctx ++ block) ∧
      c'.linear = c.linear ∧ m.states (ctx ++ block) = m.states ctx ++ hidden := by
  obtain ⟨slots, hidden, he, hl, hst⟩ := forwardLayers_hold m.slidingWindow_pos m.layers h.layers
    (show block.map m.embed ≠ [] by simpa using hblock)
  rw [List.length_map, ← h.offset] at he
  refine ⟨{ c with slots := slots }.advance block.length, hidden, ?_, ⟨?_, ?_⟩, rfl, ?_⟩
  · simp only [Gemma4.forwardHidden, he, bind, Option.bind]; rfl
  · show c.offset + block.length = _
    rw [h.offset, List.length_append]
  · rw [List.map_append]; exact hl
  · rw [Gemma4.states, List.map_append]; exact hst

end

/-- A layer that hands its state through as long as there is something to attend to. -/
def passOn (kind : LayerKind) : Layer Int32 Int32 where
  kind := kind
  kv _ h := h
  out _ h keys := if keys.card = 0 then 0 else h

/-- A stack whose greedy choice is the successor of the last token. -/
def successor : Gemma4 Int32 Int32 where
  slidingWindow := 2
  slidingWindow_pos := by decide
  layers := [passOn .sliding, passOn .full]
  hasFull := ⟨passOn .full, by simp, rfl⟩
  hasSliding := ⟨passOn .sliding, by simp, rfl⟩
  stopTokens := [5]
  embed := id
  argmax := fun h => (h + 1).toUInt32

end Onisin.Mlx
