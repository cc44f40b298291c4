import Onisin.Mlx.KvCache

/-!
Rolling a cache back in place. The loop over the slots stops at the first one that refuses
and keeps what the earlier ones already did; a slot that dropped positions but keeps no more
than the target length is left as it is. Positions are counted in `Nat`: the `i32` lengths of
the source bound a cache far above any context.
-/

set_option autoImplicit false

namespace Onisin.Mlx
open Lib

variable {α : Type}

/-- The loop of `truncate`: the slots as it leaves them, and whether it got through. -/
def truncateSlots (len : Nat) : List (KvSlot α) → List (KvSlot α) × Bool
  | [] => ([], true)
  | s :: slots =>
    match s.truncate len with
    | none => (s :: slots, false)
    | some s' => ((s' :: (truncateSlots len slots).1), (truncateSlots len slots).2)

/-- `truncate` on the cache itself: what is left of it, and whether the call returned `Ok`. -/
def KvCache.truncateInPlace (c : KvCache α) (len : Nat) : KvCache α × Bool :=
  match truncateSlots len c.slots with
  | (slots, true) => ({ c with slots := slots, offset := min c.offset len }, true)
  | (slots, false) => ({ c with slots := slots }, false)

theorem truncateSlots_mapM (len : Nat) (slots : List (KvSlot α)) :
    slots.mapM (fun s => s.truncate len) =
      if (truncateSlots len slots).2 then some (truncateSlots len slots).1 else none := by
  induction slots with
  | nil => rfl
  | cons s slots ih =>
    rw [List.mapM_cons, ih]
    cases hs : s.truncate len with
    | none => simp [truncateSlots, hs]
    | some s' =>
      cases hr : (truncateSlots len slots).2 with
      | false => simp [truncateSlots, hs, hr]
      | true => simp [truncateSlots, hs, hr]

/-- The cache that a successful call leaves is the one `truncate` computes. -/
theorem truncate_eq_inPlace (c : KvCache α) (len : Nat) :
    c.truncate len =
      if (c.truncateInPlace len).2 then some (c.truncateInPlace len).1 else none := by
  rw [KvCache.truncate, truncateSlots_mapM, KvCache.truncateInPlace]
  generalize truncateSlots len c.slots = r
  obtain ⟨slots, done⟩ := r
  cases done with
  | true => rfl
  | false => rfl

/-! Forward steps. -/

/-- How a layer uses its slot: attention layers store every step's rows under their window, the
recurrent layers of a hybrid family leave theirs alone. -/
inductive SlotUse where
  | attention (window : Option Nat)
  | unused
  deriving DecidableEq, Repr

/-- The window that makes the slot a ring; a linear cache ignores it. -/
def SlotUse.bound (linear : Bool) : SlotUse → Option Nat
  | .attention window => if linear then none else window
  | .unused => none

/-- One forward step: the rows it computes at each layer, one for each of its positions. -/
structure Step (α : Type) where
  seq : Nat
  rows : Nat → List α
  pos : 0 < seq
  uniform : ∀ i, (rows i).length = seq

section
variable [Inhabited α]

def SlotUse.store (u : SlotUse) (s : KvSlot α) (new : List α) : Option (KvSlot α) :=
  match u with
  | .attention window => (s.update new window).map (·.1)
  | .unused => some s

def storeAll : List SlotUse → List (KvSlot α) → (Nat → List α) → Option (List (KvSlot α))
  | u :: uses, s :: slots, rows => do
    let s ← u.store s (rows 0)
    let slots ← storeAll uses slots fun i => rows (i + 1)
    return s :: slots
  | _, slots, _ => some slots

def KvCache.forward (uses : List SlotUse) (c : KvCache α) (step : Step α) : Option (KvCache α) := do
  let slots ← storeAll uses c.slots step.rows
  return { c with slots := slots }.advance step.seq

def KvCache.feed (uses : List SlotUse) : KvCache α → List (Step α) → Option (KvCache α)
  | c, [] => some c
  | c, step :: steps => do (← c.forward uses step).feed uses steps

end

/-- All rows a layer was fed. -/
def fed (steps : List (Step α)) (i : Nat) : List α := (steps.map (·.rows i)).flatten

/-! What a slot shows of itself. -/

/-- Its rows in order, how many it retains, and whether it dropped any. -/
abbrev View (α : Type) := Option (Option (List α)) × Nat × Bool

def KvSlot.view (s : KvSlot α) : View α := (s.temporal, s.len, s.evicted)

/-- Two caches at the same position whose slots show the same; buffers may differ in their
capacity and in the stale rows behind the valid ones. -/
def KvCache.Shows (c d : KvCache α) : Prop :=
  c.offset = d.offset ∧ c.slots.map KvSlot.view = d.slots.map KvSlot.view

/-- The cache is one that was fed only the first `len` positions. -/
def Restored [Inhabited α] (uses : List SlotUse) (linear : Bool) (rows : Nat → List α) (len : Nat)
    (c : KvCache α) : Prop :=
  ∃ steps d, (KvCache.build uses.length linear).feed uses steps = some d ∧
    (∀ i, fed steps i = (rows i).take len) ∧ c.Shows d

/-- Rolling back restores the shorter cache, or fails and changes nothing. -/
def ExactOrRefuses [Inhabited α] (uses : List SlotUse) (linear : Bool) (rows : Nat → List α)
    (c : KvCache α) (len : Nat) : Prop :=
  match c.truncateInPlace len with
  | (c', true) => Restored uses linear rows len c'
  | (c', false) => c' = c

/-- The ring dropped positions and retains more than the target length. -/
def SlotUse.Refuses (linear : Bool) (n len : Nat) (u : SlotUse) : Prop :=
  ∃ w, u.bound linear = some w ∧ w < n ∧ len < w

/-- The slot still has every position, so it can be rolled back. -/
def SlotUse.Rewinds (linear : Bool) (n : Nat) (u : SlotUse) : Prop :=
  u ≠ .unused ∧ ∀ w, u.bound linear = some w → n ≤ w

/-- The ring dropped positions but fits the target length, and what it retains is not what a
ring fed up to there retains. -/
def SlotUse.Stale (linear : Bool) (h : List α) (len : Nat) (u : SlotUse) : Prop :=
  ∃ w, u.bound linear = some w ∧ w < h.length ∧ w ≤ len ∧
    ¬ (w < len ∧ h.rtake w = (h.take len).rtake w)

/-- When rolling `n` positions back to `len` is exact or refuses cleanly: nothing to do, a
slot refuses before any was rewound, or no slot refuses and none is stale. -/
def RollsBack (uses : List SlotUse) (linear : Bool) (rows : Nat → List α) (n len : Nat) : Prop :=
  len = n ∨
  (∃ pre u post, uses = pre ++ u :: post ∧ u.Refuses linear n len ∧
    ∀ x ∈ pre, ¬ x.Rewinds linear n) ∨
  ((∀ u ∈ uses, ¬ u.Refuses linear n len) ∧
    ∀ i, ∀ u : SlotUse, uses[i]? = some u → ¬ u.Stale linear (rows i) len)

/-! The marks a roll-back reads. -/

section
variable [Inhabited α] {s s' : KvSlot α} {new out : List α} {w : Option Nat}

theorem ensureCap_marks {need : Nat} (h : s.ensureCap need w = some s') :
    s'.evicted = s.evicted ∧ s'.len = s.len := by
  unfold KvSlot.ensureCap at h
  split at h
  · cases h; exact ⟨rfl, rfl⟩
  · split at h
    · simp only [bind, Option.bind_eq_some_iff] at h
      obtain ⟨b, -, r, -, b', -, h⟩ := h
      cases h; exact ⟨rfl, rfl⟩
    · cases h; exact ⟨rfl, rfl⟩

theorem append_marks (h : s.append new w = some (s', out)) :
    s'.evicted = s.evicted ∧ s'.idx = s'.len % s'.cap := by
  simp only [KvSlot.append, bind, Option.bind_eq_some_iff] at h
  obtain ⟨t, ht, b, -, b', -, r, -, h⟩ := h
  obtain ⟨hev, -⟩ := ensureCap_marks ht
  cases h
  exact ⟨hev, rfl⟩

theorem overwriteOldest_marks {n : Nat} (h : s.overwriteOldest new n = some (s', out)) :
    s'.evicted = true := by
  simp only [KvSlot.overwriteOldest, bind, Option.bind_eq_some_iff] at h
  obtain ⟨b, -, b', -, h⟩ := h
  cases h; rfl

theorem overflow_marks {n : Nat} (h : s.overflow new n = some (s', out)) :
    s'.evicted = (s.evicted || decide (s.len + new.length > n)) := by
  simp only [KvSlot.overflow, bind, Option.bind_eq_some_iff] at h
  obtain ⟨t, -, r, -, t', -, h⟩ := h
  cases h; rfl

/-- A step marks the slot exactly when it pushes a position out of the window. -/
theorem update_marks {window : Option Nat} (hnew : new ≠ [])
    (hwin : w = if s.forceLinear then none else window)
    (h : s.update new window = some (s', out)) :
    (s'.evicted = true ↔ s.evicted = true ∨ ∃ n, w = some n ∧ n < s.len + new.length) ∧
      (s'.evicted = false → s'.idx = s'.len % s'.cap) := by
  have hpos := List.length_pos_iff.mpr hnew
  unfold KvSlot.update at h
  rw [← hwin] at h
  cases w with
  | none =>
    obtain ⟨hev, hidx⟩ := append_marks h
    exact ⟨by simp [hev], fun _ => hidx⟩
  | some n =>
    simp only at h
    split at h
    · rename_i hring
      have hev := overwriteOldest_marks h
      refine ⟨⟨fun _ => Or.inr ⟨n, rfl, by omega⟩, fun _ => hev⟩, fun hf => ?_⟩
      rw [hev] at hf; cases hf
    · split at h
      · rename_i hover
        have hev := overflow_marks h
        rw [decide_eq_true hover, Bool.or_true] at hev
        refine ⟨⟨fun _ => Or.inr ⟨n, rfl, hover⟩, fun _ => hev⟩, fun hf => ?_⟩
        rw [hev] at hf; cases hf
      · rename_i hover
        obtain ⟨hev, hidx⟩ := append_marks h
        refine ⟨?_, fun _ => hidx⟩
        rw [hev]
        constructor
        · exact Or.inl
        · rintro (he | ⟨m, ⟨⟩, hm⟩)
          · exact he
          · exact absurd hm hover

end

/-- The slot was fed `h` under the window `w`: its content, and the marks that go with it. -/
structure KvSlot.Fed (s : KvSlot α) (w : Option Nat) (h : List α) : Prop where
  holds : s.Holds w h
  dropped : s.evicted = true ↔ ∃ n, w = some n ∧ n < h.length
  unwrapped : s.evicted = false → s.idx = s.len % s.cap

/-- What a slot fed `h` under the window `w` shows. -/
def viewOf (w : Option Nat) (h : List α) : View α :=
  (some (if kept w h.length = 0 then none else some (h.rtake (kept w h.length))),
    kept w h.length, w.any (· < h.length))

section
variable {s : KvSlot α} {w : Option Nat} {h new : List α}

theorem new_fed (forceLinear : Bool) (w : Option Nat) :
    (KvSlot.new forceLinear : KvSlot α).Fed w [] := by
  refine ⟨new_holds forceLinear w, ?_, fun _ => rfl⟩
  constructor
  · intro hev; cases hev
  · rintro ⟨n, -, hn⟩; exact absurd hn (Nat.not_lt_zero n)

theorem KvSlot.Fed.update [Inhabited α] {window : Option Nat} (hs : s.Fed w h)
    (hwin : w = if s.forceLinear then none else window) (hw : ∀ n, w = some n → 0 < n)
    (hnew : new ≠ []) :
    ∃ s' out, s.update new window = some (s', out) ∧ s'.Fed w (h ++ new) ∧
      s'.forceLinear = s.forceLinear := by
  obtain ⟨s', out, he, hs', -, hf⟩ := update_holds window hwin hw hs.holds hnew
  obtain ⟨hev, hidx⟩ := update_marks hnew hwin he
  refine ⟨s', out, he, ⟨hs', ?_, hidx⟩, hf⟩
  have hlen := hs.holds.len
  rw [hev, hs.dropped, List.length_append]
  constructor
  · rintro (⟨n, hn, hlt⟩ | ⟨n, hn, hlt⟩)
    · exact ⟨n, hn, by omega⟩
    · have := hs.holds.len_le
      exact ⟨n, hn, by omega⟩
  · rintro ⟨n, hn, hlt⟩
    refine Or.inr ⟨n, hn, ?_⟩
    have hpos := List.length_pos_iff.mpr hnew
    rw [hn] at hlen
    simp only [kept, Option.elim] at hlen
    omega

theorem KvSlot.Fed.view_eq (hs : s.Fed w h) : s.view = viewOf w h := by
  have hev : s.evicted = w.any (· < h.length) := by
    rw [Bool.eq_iff_iff, hs.dropped]
    cases w with
    | none => simp
    | some n => simp
  rw [KvSlot.view, hs.holds.temporal_eq, hs.holds.len, hev]
  rfl

/-! The three answers of a slot that is asked for fewer positions than it was fed. -/

theorem KvSlot.Fed.truncate_refuses (hs : s.Fed w h) {n len : Nat} (hw : w = some n)
    (hn : n < h.length) (hlen : len < n) : s.truncate len = none := by
  have hl : s.len = min n h.length := by rw [hs.holds.len, hw]; rfl
  have hev : s.evicted = true := hs.dropped.mpr ⟨n, hw, hn⟩
  rw [KvSlot.truncate, if_neg (by omega), if_pos hev]

theorem KvSlot.Fed.truncate_keeps (hs : s.Fed w h) {n len : Nat} (hw : w = some n)
    (hlen : n ≤ len) : s.truncate len = some s := by
  have hl : s.len = min n h.length := by rw [hs.holds.len, hw]; rfl
  rw [KvSlot.truncate, if_pos (by omega)]

/-- A slot that dropped nothing has its rows at the front of the buffer. -/
theorem KvSlot.Fed.front (hs : s.Fed w h) (hall : ∀ n, w = some n → h.length ≤ n)
    (hpos : 0 < h.length) :
    ∃ b, s.buf = some b ∧ b.length = s.cap ∧ s.len = h.length ∧ s.len ≤ s.cap ∧
      (∀ n, w = some n → s.cap ≤ n) ∧ b.take s.len = h := by
  have hlen : s.len = h.length := by
    rw [hs.holds.len]
    cases w with
    | none => rfl
    | some n => exact Nat.min_eq_right (hall n rfl)
  have hev : s.evicted = false := by
    rw [← Bool.not_eq_true]
    intro hev
    obtain ⟨n, hn, hlt⟩ := hs.dropped.mp hev
    have := hall n hn
    omega
  cases hs.holds.layout with
  | empty hb hc hh => rw [hh] at hpos; exact absurd hpos (Nat.lt_irrefl 0)
  | flat b hb hl hcap hle hw hi hrows =>
    rw [rtake_of_length_le (Nat.le_of_eq hlen.symm)] at hrows
    exact ⟨b, hb, hl, hlen, hle, hw, hrows⟩
  | ring b hb hl hcap hw hle hi hrows =>
    have hidx : s.idx = 0 := by rw [hs.unwrapped hev, hle, Nat.mod_self]
    rw [hidx, List.drop_zero, List.take_zero, List.append_nil,
      rtake_of_length_le (Nat.le_of_eq hlen.symm)] at hrows
    refine ⟨b, hb, hl, hlen, Nat.le_of_eq hle, ?_, ?_⟩
    · rintro n hn
      rw [hw] at hn; cases hn
      exact Nat.le_refl _
    · rw [List.take_of_length_le (by omega), hrows]

theorem KvSlot.Fed.truncate_rewinds (hs : s.Fed w h) (hall : ∀ n, w = some n → h.length ≤ n)
    {len : Nat} (hlen : len < h.length) :
    ∃ s', s.truncate len = some s' ∧ s' ≠ s ∧ s'.Fed w (h.take len) ∧
      s'.forceLinear = s.forceLinear := by
  obtain ⟨b, hb, hbl, hl, hle, hw, hrows⟩ := hs.front hall (by omega)
  have htake : (h.take len).length = len := by rw [List.length_take]; omega
  have hev : s.evicted = false := by
    rw [← Bool.not_eq_true]
    intro hev
    obtain ⟨n, hn, hlt⟩ := hs.dropped.mp hev
    have := hall n hn
    omega
  have hcap : 0 < s.cap := by omega
  refine ⟨{ s with len := len, idx := len % s.cap }, ?_, ?_, ⟨⟨?_, ?_, ?_⟩, ?_, ?_⟩, rfl⟩
  · rw [KvSlot.truncate, if_neg (by omega), if_neg (by rw [hev]; decide), if_pos hcap]
  · intro heq
    have : len = s.len := congrArg KvSlot.len heq
    omega
  · show len = kept w (h.take len).length
    rw [htake]
    cases w with
    | none => rfl
    | some n =>
      have := hall n rfl
      exact (Nat.min_eq_right (by omega)).symm
  · refine .flat b hb hbl hcap (show len ≤ s.cap by omega) hw rfl ?_
    show b.take len = (h.take len).rtake len
    rw [rtake_of_length_le (Nat.le_of_eq htake), ← hrows, List.take_take, Nat.min_eq_left (by omega)]
  · intro h'
    rw [show s.evicted = true from h'] at hev; cases hev
  · show s.evicted = true ↔ _
    rw [htake, hev]
    constructor
    · intro h'; cases h'
    · rintro ⟨n, hn, hlt⟩
      have := hall n hn
      omega
  · exact fun _ => rfl

end

/-! A layer's slot. -/

/-- What the steps so far leave in a layer's slot. -/
def SlotUse.Stands (u : SlotUse) (linear : Bool) (s : KvSlot α) (h : List α) : Prop :=
  match u with
  | .attention _ => s.forceLinear = linear ∧ s.Fed (u.bound linear) h
  | .unused => s = .new linear

/-- What a layer's slot shows after it was fed `h`. -/
def SlotUse.shown (u : SlotUse) (linear : Bool) (h : List α) : View α :=
  match u with
  | .attention _ => viewOf (u.bound linear) h
  | .unused => viewOf none []

section
variable {u : SlotUse} {linear : Bool} {s : KvSlot α} {h : List α} {len : Nat}

theorem SlotUse.Stands.view_eq (hs : u.Stands linear s h) : s.view = u.shown linear h := by
  cases u with
  | attention window => exact hs.2.view_eq
  | unused => rw [show s = .new linear from hs]; rfl

/-- A ring that keeps its rows shows what a shorter history shows unless it is stale. -/
theorem viewOf_take {n : Nat} (hn : n < h.length) (hlen : n ≤ len) (hlt : len < h.length) :
    viewOf (some n) h = viewOf (some n) (h.take len) ↔
      n < len ∧ h.rtake n = (h.take len).rtake n := by
  have htake : (h.take len).length = len := by rw [List.length_take]; omega
  have hk : kept (some n) h.length = n := Nat.min_eq_left (by omega)
  have hk' : kept (some n) (h.take len).length = n := by rw [htake]; exact Nat.min_eq_left hlen
  have hd : (some n).any (· < h.length) = true := by simpa using hn
  rw [viewOf, viewOf, hk, hk', hd, htake]
  by_cases hz : n = 0
  · subst hz
    simp [List.rtake]
  · simp [hz, and_comm]

/-- One slot of the loop: it refuses, or it goes on; then it is untouched unless it was
rewound, and right unless it is stale. -/
theorem SlotUse.Stands.truncate (hs : u.Stands linear s h) (hlen : len < h.length) :
    (u.Refuses linear h.length len → s.truncate len = none) ∧
    (¬ u.Refuses linear h.length len → ∃ s', s.truncate len = some s' ∧
      (s' = s ↔ ¬ u.Rewinds linear h.length) ∧
      (s'.view = u.shown linear (h.take len) ↔ ¬ u.Stale linear h len)) := by
  cases u with
  | unused =>
    have hs : s = .new linear := hs
    have hb : SlotUse.bound linear .unused = none := rfl
    constructor
    · rintro ⟨w, hw, -⟩
      cases hw
    · intro _
      refine ⟨s, ?_, ⟨fun _ hr => hr.1 rfl, fun _ => rfl⟩, ⟨?_, ?_⟩⟩
      · rw [hs]
        exact if_pos (Nat.zero_le len)
      · rintro - ⟨w, hw, -⟩
        cases hw
      · intro _
        rw [hs]; rfl
  | attention window =>
    obtain ⟨hf, hfed⟩ := hs
    constructor
    · rintro ⟨w, hw, hlt, hl⟩
      exact hfed.truncate_refuses hw hlt hl
    · intro hno
      by_cases hall : ∀ n, SlotUse.bound linear (.attention window) = some n → h.length ≤ n
      · obtain ⟨s', he, hne, hfed', -⟩ := hfed.truncate_rewinds hall hlen
        refine ⟨s', he, ⟨fun heq => absurd heq hne, fun hr => ?_⟩, ⟨?_, fun _ => hfed'.view_eq⟩⟩
        · exact absurd ⟨nofun, hall⟩ hr
        · rintro - ⟨w, hw, hlt, -⟩
          have := hall w hw
          omega
      · push Not at hall
        obtain ⟨n, hn, hlt⟩ := hall
        have hle : n ≤ len := Nat.le_of_not_lt fun hl => hno ⟨n, hn, hlt, hl⟩
        refine ⟨s, hfed.truncate_keeps hn hle, ⟨fun _ hr => ?_, fun _ => rfl⟩, ?_⟩
        · have := hr.2 n hn
          omega
        · rw [hfed.view_eq, SlotUse.shown, hn, viewOf_take hlt hle hlen]
          constructor
          · rintro hgood ⟨w, hw, -, -, hbad⟩
            rw [hn] at hw; cases hw
            exact hbad hgood
          · intro hst
            by_contra hbad
            exact hst ⟨n, hn, hlt, hle, hbad⟩

end

/-! All slots. -/

def Standing (linear : Bool) : List SlotUse → List (KvSlot α) → (Nat → List α) → Prop
  | [], [], _ => True
  | u :: uses, s :: slots, rows =>
    u.Stands linear s (rows 0) ∧ Standing linear uses slots fun i => rows (i + 1)
  | _, _, _ => False

/-- What the slots show after their layers were fed `rows`. -/
def shownAll (linear : Bool) : List SlotUse → (Nat → List α) → List (View α)
  | [], _ => []
  | u :: uses, rows => u.shown linear (rows 0) :: shownAll linear uses fun i => rows (i + 1)

section
variable {linear : Bool} {uses : List SlotUse} {slots : List (KvSlot α)} {rows : Nat → List α}
  {n len : Nat}

theorem standing_new (linear : Bool) (uses : List SlotUse) :
    Standing linear uses (List.replicate uses.length (.new linear : KvSlot α)) fun _ => [] := by
  induction uses with
  | nil => trivial
  | cons u uses ih =>
    refine ⟨?_, ih⟩
    cases u with
    | attention window => exact ⟨rfl, new_fed linear _⟩
    | unused => rfl

theorem Standing.view_eq (hs : Standing linear uses slots rows) :
    slots.map KvSlot.view = shownAll linear uses rows := by
  induction uses generalizing slots rows with
  | nil =>
    cases slots with
    | nil => rfl
    | cons s slots => exact hs.elim
  | cons u uses ih =>
    cases slots with
    | nil => exact hs.elim
    | cons s slots => rw [List.map_cons, hs.1.view_eq, ih hs.2]; rfl

/-- The loop gets through exactly when no slot refuses. -/
theorem Standing.through_iff (hs : Standing linear uses slots rows) (hrows : ∀ i, (rows i).length = n)
    (hlen : len < n) :
    (truncateSlots len slots).2 = true ↔ ∀ u ∈ uses, ¬ u.Refuses linear n len := by
  induction uses generalizing slots rows with
  | nil =>
    cases slots with
    | nil => exact ⟨fun _ u hu => absurd hu List.not_mem_nil, fun _ => rfl⟩
    | cons s slots => exact hs.elim
  | cons u uses ih =>
    cases slots with
    | nil => exact hs.elim
    | cons s slots =>
      have hlt : len < (rows 0).length := by rw [hrows]; exact hlen
      obtain ⟨href, hgo⟩ := hs.1.truncate hlt
      rw [hrows] at href hgo
      have hrest := ih hs.2 fun i => hrows (i + 1)
      by_cases hr : u.Refuses linear n len
      · rw [truncateSlots, href hr]
        exact ⟨nofun, fun h => absurd hr (h u List.mem_cons_self)⟩
      · obtain ⟨s', he, -⟩ := hgo hr
        rw [truncateSlots, he]
        show (truncateSlots len slots).2 = true ↔ _
        rw [hrest, List.forall_mem_cons]
        exact ⟨fun h => ⟨hr, h⟩, fun h => h.2⟩

/-- When it gets through, it restores the shorter slots exactly when none is stale. -/
theorem Standing.restored_iff (hs : Standing linear uses slots rows)
    (hrows : ∀ i, (rows i).length = n) (hlen : len < n)
    (hgo : ∀ u ∈ uses, ¬ u.Refuses linear n len) :
    (truncateSlots len slots).1.map KvSlot.view = shownAll linear uses (fun i => (rows i).take len) ↔
      ∀ i, ∀ u : SlotUse, uses[i]? = some u → ¬ u.Stale linear (rows i) len := by
  induction uses generalizing slots rows with
  | nil =>
    cases slots with
    | nil => simp [truncateSlots, shownAll]
    | cons s slots => exact hs.elim
  | cons u uses ih =>
    cases slots with
    | nil => exact hs.elim
    | cons s slots =>
      have hlt : len < (rows 0).length := by rw [hrows]; exact hlen
      have hstep := (hs.1.truncate hlt).2
      rw [hrows] at hstep
      obtain ⟨s', he, -, hview⟩ := hstep (hgo u List.mem_cons_self)
      have hrest := ih hs.2 (fun i => hrows (i + 1)) fun v hv => hgo v (List.mem_cons_of_mem _ hv)
      rw [truncateSlots, he]
      show s'.view :: (truncateSlots len slots).1.map KvSlot.view = _ :: _ ↔ _
      rw [List.cons.injEq, hview, hrest]
      constructor
      · rintro ⟨h0, hs⟩ i v hv
        cases i with
        | zero => cases hv; exact h0
        | succ i => exact hs i v hv
      · exact fun h => ⟨h 0 u rfl, fun i v hv => h (i + 1) v hv⟩

/-- When a slot refuses, the loop changed nothing exactly when it rewound none before. -/
theorem Standing.unchanged_iff (hs : Standing linear uses slots rows)
    (hrows : ∀ i, (rows i).length = n) (hlen : len < n) (href : ∃ u ∈ uses, u.Refuses linear n len) :
    (truncateSlots len slots).1 = slots ↔
      ∃ pre u post, uses = pre ++ u :: post ∧ u.Refuses linear n len ∧
        ∀ x ∈ pre, ¬ x.Rewinds linear n := by
  induction uses generalizing slots rows with
  | nil =>
    obtain ⟨u, hu, -⟩ := href
    cases hu
  | cons u uses ih =>
    cases slots with
    | nil => exact hs.elim
    | cons s slots =>
      have hlt : len < (rows 0).length := by rw [hrows]; exact hlen
      obtain ⟨hno, hgo⟩ := hs.1.truncate hlt
      rw [hrows] at hno hgo
      by_cases hr : u.Refuses linear n len
      · rw [truncateSlots, hno hr]
        exact ⟨fun _ => ⟨[], u, uses, rfl, hr, fun x hx => by cases hx⟩, fun _ => rfl⟩
      · obtain ⟨s', he, hsame, -⟩ := hgo hr
        have href' : ∃ v ∈ uses, v.Refuses linear n len := by
          obtain ⟨v, hv, hvr⟩ := href
          rcases List.mem_cons.mp hv with rfl | hv
          · exact absurd hvr hr
          · exact ⟨v, hv, hvr⟩
        have hrest := ih hs.2 (fun i => hrows (i + 1)) href'
        rw [truncateSlots, he]
        show s' :: (truncateSlots len slots).1 = s :: slots ↔ _
        rw [List.cons.injEq, hsame, hrest]
        constructor
        · rintro ⟨hrw, pre, v, post, rfl, hv, hpre⟩
          refine ⟨u :: pre, v, post, rfl, hv, ?_⟩
          exact List.forall_mem_cons.mpr ⟨hrw, hpre⟩
        · rintro ⟨pre, v, post, heq, hv, hpre⟩
          cases pre with
          | nil =>
            rw [List.nil_append] at heq
            cases heq
            exact absurd hv hr
          | cons x pre =>
            cases heq
            obtain ⟨hx, hpre⟩ := List.forall_mem_cons.mp hpre
            exact ⟨hx, pre, v, post, rfl, hv, hpre⟩

end

/-! Any sequence of steps. -/

/-- A cache whose layers were fed `rows`, one row for each position. -/
structure KvCache.Stands (uses : List SlotUse) (linear : Bool) (rows : Nat → List α)
    (c : KvCache α) : Prop where
  slots : Standing linear uses c.slots rows
  offset : ∀ i, (rows i).length = c.offset

section
variable {linear : Bool} {uses : List SlotUse} {rows : Nat → List α} {len : Nat}

theorem build_stands (uses : List SlotUse) (linear : Bool) :
    (KvCache.build uses.length linear : KvCache α).Stands uses linear fun _ => [] :=
  ⟨standing_new linear uses, fun _ => rfl⟩

theorem fed_cons (step : Step α) (steps : List (Step α)) (i : Nat) :
    fed (step :: steps) i = step.rows i ++ fed steps i := rfl

/-- Any rows of one length are fed by some steps. -/
theorem exists_steps (rows : Nat → List α) (hrows : ∀ i, (rows i).length = len) :
    ∃ steps : List (Step α), ∀ i, fed steps i = rows i := by
  rcases Nat.eq_zero_or_pos len with rfl | hpos
  · exact ⟨[], fun i => (List.length_eq_zero_iff.mp (hrows i)).symm⟩
  · exact ⟨[⟨len, rows, hpos, hrows⟩], fun i => by simp [fed]⟩

/-- Rolled back to where it is, a cache stays as it is. -/
theorem truncateSlots_self {n : Nat} {slots : List (KvSlot α)}
    (hs : Standing linear uses slots rows) (hrows : ∀ i, (rows i).length = n) :
    truncateSlots n slots = (slots, true) := by
  induction uses generalizing slots rows with
  | nil =>
    cases slots with
    | nil => rfl
    | cons s slots => exact hs.elim
  | cons u uses ih =>
    cases slots with
    | nil => exact hs.elim
    | cons s slots =>
      have hle : s.len ≤ n := by
        have hstands := hs.1
        cases u with
        | unused =>
          rw [show s = .new linear from hstands]
          exact Nat.zero_le n
        | attention window =>
          have := hstands.2.holds.len_le
          rwa [hrows] at this
      rw [truncateSlots, KvSlot.truncate, if_pos hle, ih hs.2 fun i => hrows (i + 1)]

variable [Inhabited α]

theorem SlotUse.Stands.store {u : SlotUse} {s : KvSlot α} {h new : List α}
    (hs : u.Stands linear s h) (hw : ∀ n, u = .attention (some n) → 1 ≤ n) (hnew : new ≠ []) :
    ∃ s', u.store s new = some s' ∧ u.Stands linear s' (h ++ new) := by
  cases u with
  | unused => exact ⟨s, rfl, hs⟩
  | attention window =>
    obtain ⟨hf, hfed⟩ := hs
    have hpos : ∀ n, SlotUse.bound linear (.attention window) = some n → 0 < n := by
      intro n hn
      cases linear with
      | true => cases hn
      | false => exact hw n (congrArg SlotUse.attention hn)
    have hwin : SlotUse.bound linear (.attention window) = if s.forceLinear then none else window := by
      rw [hf]
      rfl
    obtain ⟨s', out, he, hfed', hf'⟩ := hfed.update hwin hpos hnew
    exact ⟨s', by rw [SlotUse.store, he]; rfl, hf'.trans hf, hfed'⟩

theorem Standing.store {slots : List (KvSlot α)} (hs : Standing linear uses slots rows)
    (hw : ∀ n, .attention (some n) ∈ uses → 1 ≤ n) {new : Nat → List α} (hnew : ∀ i, new i ≠ []) :
    ∃ slots', storeAll uses slots new = some slots' ∧
      Standing linear uses slots' fun i => rows i ++ new i := by
  induction uses generalizing slots rows new with
  | nil => exact ⟨slots, rfl, by cases slots with | nil => trivial | cons s slots => exact hs.elim⟩
  | cons u uses ih =>
    cases slots with
    | nil => exact hs.elim
    | cons s slots =>
      obtain ⟨s', he, hs'⟩ := hs.1.store (fun n hn => hw n (hn ▸ List.mem_cons_self)) (hnew 0)
      obtain ⟨slots', hes, hss⟩ := ih hs.2 (fun n hn => hw n (List.mem_cons_of_mem _ hn))
        fun i => hnew (i + 1)
      exact ⟨s' :: slots', by simp [storeAll, he, hes], hs', hss⟩

theorem KvCache.Stands.forward {c : KvCache α} (hc : c.Stands uses linear rows)
    (hw : ∀ n, .attention (some n) ∈ uses → 1 ≤ n) (step : Step α) :
    ∃ c', c.forward uses step = some c' ∧ c'.Stands uses linear fun i => rows i ++ step.rows i := by
  obtain ⟨slots, he, hs⟩ := hc.slots.store hw fun i => by
    rw [← List.length_pos_iff, step.uniform]
    exact step.pos
  refine ⟨{ c with slots := slots }.advance step.seq, by rw [KvCache.forward, he]; rfl, hs, ?_⟩
  intro i
  rw [List.length_append, hc.offset, step.uniform]
  rfl

theorem KvCache.Stands.feed {c : KvCache α} (hc : c.Stands uses linear rows)
    (hw : ∀ n, .attention (some n) ∈ uses → 1 ≤ n) (steps : List (Step α)) :
    ∃ c', c.feed uses steps = some c' ∧ c'.Stands uses linear fun i => rows i ++ fed steps i := by
  induction steps generalizing c rows with
  | nil => exact ⟨c, rfl, by simpa [fed] using hc⟩
  | cons step steps ih =>
    obtain ⟨c₁, he₁, hc₁⟩ := hc.forward hw step
    obtain ⟨c₂, he₂, hc₂⟩ := ih hc₁
    refine ⟨c₂, ?_, ?_⟩
    · rw [KvCache.feed, he₁]
      exact he₂
    · simpa only [fed_cons, ← List.append_assoc] using hc₂

/-- From the empty cache any steps go through. -/
theorem feed_stands (linear : Bool) (hw : ∀ n, .attention (some n) ∈ uses → 1 ≤ n)
    (steps : List (Step α)) :
    ∃ c, (KvCache.build uses.length linear).feed uses steps = some c ∧
      c.Stands uses linear (fed steps) := by
  simpa using (build_stands uses linear).feed hw steps

/-- A restored cache is known by its position and by what its slots show. -/
theorem restored_iff {n : Nat} (hw : ∀ n, .attention (some n) ∈ uses → 1 ≤ n)
    (hrows : ∀ i, (rows i).length = n) (hlen : len ≤ n) (c : KvCache α) :
    Restored uses linear rows len c ↔
      c.offset = len ∧ c.slots.map KvSlot.view = shownAll linear uses fun i => (rows i).take len := by
  have htake : ∀ i, ((rows i).take len).length = len := by
    intro i
    rw [List.length_take, hrows]
    exact Nat.min_eq_left hlen
  constructor
  · rintro ⟨steps, d, hd, hfed, hoff, hview⟩
    obtain ⟨d', hd', hstands⟩ := feed_stands linear hw steps
    rw [hd] at hd'; cases hd'
    rw [funext hfed] at hstands
    refine ⟨?_, hview.trans hstands.slots.view_eq⟩
    rw [hoff, ← hstands.offset 0, htake]
  · rintro ⟨hoff, hview⟩
    obtain ⟨steps, hfed⟩ := exists_steps _ htake
    obtain ⟨d, hd, hstands⟩ := feed_stands linear hw steps
    rw [funext hfed] at hstands
    refine ⟨steps, d, hd, hfed, ?_, hview.trans hstands.slots.view_eq.symm⟩
    rw [hoff, ← hstands.offset 0, htake]

/-- The loop gets through: what is left is to compare the rings with the shorter cache. -/
theorem exactOrRefuses_through {n : Nat} {c : KvCache α} (hw : ∀ n, .attention (some n) ∈ uses → 1 ≤ n)
    (hc : c.Stands uses linear rows) (hrows : ∀ i, (rows i).length = n) (hn : c.offset = n)
    (hlt : len < n) (hgo : ∀ u ∈ uses, ¬ u.Refuses linear n len) :
    ExactOrRefuses uses linear rows c len ↔
      ∀ i, ∀ u : SlotUse, uses[i]? = some u → ¬ u.Stale linear (rows i) len := by
  have hok : c.truncateInPlace len =
      ({ c with slots := (truncateSlots len c.slots).1, offset := min c.offset len }, true) := by
    rw [KvCache.truncateInPlace, ← Prod.eta (truncateSlots len c.slots),
      (hc.slots.through_iff hrows hlt).mpr hgo]
  rw [ExactOrRefuses, hok]
  show Restored uses linear rows len _ ↔ _
  rw [restored_iff hw hrows hlt.le, hc.slots.restored_iff hrows hlt hgo]
  have hoffset : min c.offset len = len := by omega
  exact ⟨fun h => h.2, fun h => ⟨hoffset, h⟩⟩

/-- The loop stops at a slot that refuses: nothing before it may have been rolled back. -/
theorem exactOrRefuses_refused {n : Nat} {c : KvCache α} (hc : c.Stands uses linear rows)
    (hrows : ∀ i, (rows i).length = n) (hlt : len < n) (hgo : ¬ ∀ u ∈ uses, ¬ u.Refuses linear n len) :
    ExactOrRefuses uses linear rows c len ↔
      ∃ pre u post, uses = pre ++ u :: post ∧ u.Refuses linear n len ∧
        ∀ x ∈ pre, ¬ x.Rewinds linear n := by
  have hfail : c.truncateInPlace len =
      ({ c with slots := (truncateSlots len c.slots).1 }, false) := by
    have hfalse : (truncateSlots len c.slots).2 = false := by
      rw [← Bool.not_eq_true, hc.slots.through_iff hrows hlt]
      exact hgo
    rw [KvCache.truncateInPlace, ← Prod.eta (truncateSlots len c.slots), hfalse]
  have href : ∃ u ∈ uses, u.Refuses linear n len := by
    push Not at hgo
    exact hgo
  have hsame : ({ c with slots := (truncateSlots len c.slots).1 } : KvCache α) = c ↔
      (truncateSlots len c.slots).1 = c.slots := by
    constructor
    · exact fun h => congrArg KvCache.slots h
    · intro h; rw [h]
  rw [ExactOrRefuses, hfail]
  show ({ c with slots := (truncateSlots len c.slots).1 } : KvCache α) = c ↔ _
  rw [hsame, hc.slots.unchanged_iff hrows hlt href]

/-- Rolling back to the whole length does nothing. -/
theorem exactOrRefuses_whole {c : KvCache α} (hw : ∀ n, .attention (some n) ∈ uses → 1 ≤ n)
    (hc : c.Stands uses linear rows) (hrows : ∀ i, (rows i).length = len) (hn : c.offset = len) :
    ExactOrRefuses uses linear rows c len := by
  have hself : c.truncateInPlace len = (c, true) := by
    rw [KvCache.truncateInPlace, truncateSlots_self hc.slots hrows]
    show (({ c with slots := c.slots, offset := min c.offset len } : KvCache α), true) = (c, true)
    rw [hn, Nat.min_self, ← hn]
  rw [ExactOrRefuses, hself]
  show Restored uses linear rows len c
  rw [restored_iff hw hrows (Nat.le_refl len), hc.slots.view_eq]
  have hall : (fun i => (rows i).take len) = rows := by
    funext i
    rw [List.take_of_length_le (Nat.le_of_eq (hrows i))]
  rw [hall]
  exact ⟨hn, rfl⟩

theorem exactOrRefuses_iff {n : Nat} {c : KvCache α} (hw : ∀ n, .attention (some n) ∈ uses → 1 ≤ n)
    (hc : c.Stands uses linear rows) (hn : c.offset = n) (hlen : len ≤ n) :
    ExactOrRefuses uses linear rows c len ↔ RollsBack uses linear rows n len := by
  have hrows : ∀ i, (rows i).length = n := fun i => (hc.offset i).trans hn
  rcases Nat.lt_or_eq_of_le hlen with hlt | rfl
  · by_cases hgo : ∀ u ∈ uses, ¬ u.Refuses linear n len
    · rw [exactOrRefuses_through hw hc hrows hn hlt hgo, RollsBack]
      constructor
      · exact fun hst => Or.inr (Or.inr ⟨hgo, hst⟩)
      · rintro (heq | ⟨pre, u, post, rfl, hu, -⟩ | ⟨-, hst⟩)
        · omega
        · exact absurd hu (hgo u (by simp))
        · exact hst
    · rw [exactOrRefuses_refused hc hrows hlt hgo, RollsBack]
      constructor
      · exact fun h => Or.inr (Or.inl h)
      · rintro (heq | h | ⟨hno, -⟩)
        · omega
        · exact h
        · exact absurd hno hgo
  · exact iff_of_true (exactOrRefuses_whole hw hc hrows hn) (Or.inl rfl)

/-- After any forward steps, rolling back is exact or refuses cleanly in these cases only. -/
theorem truncate_exact_or_refuses_iff (uses : List SlotUse) (linear : Bool)
    (hw : ∀ n, .attention (some n) ∈ uses → 1 ≤ n) (steps : List (Step α)) :
    ∃ c, (KvCache.build uses.length linear).feed uses steps = some c ∧ ∀ len ≤ c.offset,
      (ExactOrRefuses uses linear (fed steps) c len ↔
        RollsBack uses linear (fed steps) c.offset len) := by
  obtain ⟨c, he, hc⟩ := feed_stands linear hw steps
  exact ⟨c, he, fun len hlen => exactOrRefuses_iff hw hc rfl hlen⟩

theorem truncate_exact_or_refuses_iff_window_four :
    ∃ c : KvCache Nat, (KvCache.build 2 false).feed [.attention (some 4), .attention none]
        [⟨3, fun _ => [0, 1, 2], by decide, fun _ => rfl⟩] = some c ∧
      ∀ len ≤ c.offset,
        (ExactOrRefuses [.attention (some 4), .attention none] false (fed
          [⟨3, fun _ => [0, 1, 2], by decide, fun _ => rfl⟩]) c len ↔
        RollsBack [.attention (some 4), .attention none] false (fed
          [⟨3, fun _ => [0, 1, 2], by decide, fun _ => rfl⟩]) c.offset len) :=
  truncate_exact_or_refuses_iff _ false (by intro n hn; simp at hn; omega) _

/-- A ring of two that wrapped calls the roll-back to two positions done and keeps the last
two rows; a ring with room to spare before one that refuses stays rolled back. -/
theorem truncate_stale_or_torn :
    (∃ c : KvCache Nat, (KvCache.build 1 false).feed [.attention (some 2)]
        [⟨3, fun _ => [0, 1, 2], by decide, fun _ => rfl⟩] = some c ∧
      (c.truncateInPlace 2).2 = true ∧
      ¬ ExactOrRefuses [.attention (some 2)] false (fun _ => [0, 1, 2]) c 2) ∧
    ∃ c : KvCache Nat, (KvCache.build 2 false).feed [.attention (some 4), .attention (some 2)]
        [⟨3, fun _ => [0, 1, 2], by decide, fun _ => rfl⟩] = some c ∧
      (c.truncateInPlace 1).2 = false ∧
      ¬ ExactOrRefuses [.attention (some 4), .attention (some 2)] false (fun _ => [0, 1, 2]) c 1 := by
  refine ⟨⟨_, rfl, rfl, ?_⟩, ⟨_, rfl, rfl, ?_⟩⟩
  · intro h
    have hr : Restored [.attention (some 2)] false (fun _ => [0, 1, 2]) 2
        (KvCache.mk [⟨some [1, 2], 2, 2, 0, true, false⟩] 2 false) := h
    rw [restored_iff (by intro n hn; simp at hn; omega) (fun _ => rfl) (by decide)] at hr
    exact absurd hr.2 (by decide)
  · intro h
    have hlen : [1, 2] = [3, 2] := congrArg (fun d : KvCache Nat => d.slots.map KvSlot.len) h
    exact absurd hlen (by decide)

end

end Onisin.Mlx
