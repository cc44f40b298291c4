import Mathlib.Data.List.DropRight
import Mathlib.Data.List.Rotate
import Onisin.Lib.Ranges

/-!
One layer's K/V storage. A linear slot grows without bound, a windowed one turns into a
ring once the window is full. The abstract content of a slot is the list of all rows fed
to it; everything the slot hands out is a piece of that list.
-/

set_option autoImplicit false

namespace Onisin.Mlx
open Lib

variable {α : Type}

/-- Buffer growth chunk. -/
def grow : Nat := 256

/-- A row is one position's key and value: the source allocates, writes and slices the two
buffers together, so they are one list of rows here. -/
structure KvSlot (α : Type) where
  buf : Option (List α)
  cap : Nat
  len : Nat
  idx : Nat
  evicted : Bool
  forceLinear : Bool
  deriving DecidableEq, Repr

def KvSlot.new (forceLinear : Bool) : KvSlot α := ⟨none, 0, 0, 0, false, forceLinear⟩

def readRows (b : List α) (start stop : Nat) : Option (List α) :=
  if start ≤ stop ∧ stop ≤ b.length then some (sub b start stop) else none

/-- Rows in temporal order. The outer `none` is a failed array operation. -/
def KvSlot.temporal (s : KvSlot α) : Option (Option (List α)) :=
  match s.buf with
  | none => some none
  | some b =>
    if s.len = 0 then some none
    else if s.len = s.cap ∧ s.idx ≠ 0 then do
      let older ← readRows b s.idx s.len
      let newer ← readRows b 0 s.idx
      return some (older ++ newer)
    else do return some (← readRows b 0 s.len)

/-- Roll back to the first `len` positions; impossible once the ring dropped one. -/
def KvSlot.truncate (s : KvSlot α) (len : Nat) : Option (KvSlot α) :=
  if s.len ≤ len then some s
  else if s.evicted then none
  else some { s with len := len, idx := if s.cap > 0 then len % s.cap else s.idx }

section
variable [Inhabited α]

/-- In-place slice write; outside the buffer the operation fails. -/
def writeRows (b : List α) (off : Nat) (rows : List α) : Option (List α) :=
  if off + rows.length ≤ b.length then some (overwrite default b off rows) else none

/-- Whole chunks, clamped to the retention window. -/
def grownCap (need : Nat) : Option Nat → Nat
  | some w => min ((need + grow - 1) / grow * grow) w
  | none => (need + grow - 1) / grow * grow

def KvSlot.ensureCap (s : KvSlot α) (need : Nat) (clamp : Option Nat) : Option (KvSlot α) :=
  if s.cap ≥ need then some s
  else
    let cap := grownCap need clamp
    let fresh := List.replicate cap default
    if s.len > 0 then do
      let b ← s.buf
      let b ← writeRows fresh 0 (← readRows b 0 s.len)
      return { s with buf := some b, cap := cap }
    else some { s with buf := some fresh, cap := cap }

/-- Re-seat the buffer with `keep` rows in temporal order. -/
def KvSlot.replace (s : KvSlot α) (rows : List α) (keep cap : Nat) : Option (KvSlot α) := do
  let b ← writeRows (List.replicate cap default) 0 rows
  return { s with buf := some b, cap := cap, len := keep }

/-- The growing path of `update`. -/
def KvSlot.append (s : KvSlot α) (new : List α) (window : Option Nat) :
    Option (KvSlot α × List α) := do
  let need := s.len + new.length
  let s ← s.ensureCap need window
  let b ← s.buf
  let b ← writeRows b s.len new
  return ({ s with buf := some b, len := need, idx := need % s.cap }, ← readRows b 0 need)

/-- The full-ring path: one write over the oldest row. -/
def KvSlot.overwriteOldest (s : KvSlot α) (new : List α) (w : Nat) : Option (KvSlot α × List α) := do
  let b ← s.buf
  let b ← writeRows b s.idx new
  return ({ s with buf := some b, idx := (s.idx + 1) % w, evicted := true }, b)

/-- The path past the window: hand out old and new rows in order, keep the last `w`. -/
def KvSlot.overflow (s : KvSlot α) (new : List α) (w : Nat) : Option (KvSlot α × List α) := do
  let all := match ← s.temporal with
    | some old => old ++ new
    | none => new
  let total := s.len + new.length
  let keep := min w total
  let t ← s.replace (← readRows all (total - keep) total) keep w
  return ({ t with idx := keep % w, evicted := s.evicted || decide (total > w) }, all)

/-- Store a step's rows and return the rows to attend over. -/
def KvSlot.update (s : KvSlot α) (new : List α) (window : Option Nat) :
    Option (KvSlot α × List α) :=
  match if s.forceLinear then none else window with
  | some w =>
    if new.length = 1 ∧ s.len = w then s.overwriteOldest new w
    else if s.len + new.length > w then s.overflow new w
    else s.append new (some w)
  | none => s.append new none

end

/-! The abstract content. -/

/-- How many of `n` positions a slot with this window retains. -/
def kept (w : Option Nat) (n : Nat) : Nat := w.elim n (min · n)

/-- How the buffer stores the retained rows of the history `h`. -/
inductive KvSlot.Layout (s : KvSlot α) (w : Option Nat) (h : List α) : Prop
  | empty (hb : s.buf = none) (hc : s.cap = 0) (hh : h = [])
  | flat (b : List α) (hb : s.buf = some b) (hl : b.length = s.cap) (hpos : 0 < s.cap)
    (hle : s.len ≤ s.cap) (hw : ∀ n, w = some n → s.cap ≤ n) (hi : s.idx = s.len % s.cap)
    (hrows : b.take s.len = h.rtake s.len)
  | ring (b : List α) (hb : s.buf = some b) (hl : b.length = s.cap) (hpos : 0 < s.cap)
    (hw : w = some s.cap) (hle : s.len = s.cap) (hi : s.idx < s.cap)
    (hrows : b.drop s.idx ++ b.take s.idx = h.rtake s.len)

/-- The slot has been fed the rows `h` under the window `w`. -/
structure KvSlot.Holds (s : KvSlot α) (w : Option Nat) (h : List α) : Prop where
  len : s.len = kept w h.length
  layout : s.Layout w h
  evicted : s.evicted = true → ∃ n, w = some n ∧ n < h.length

/-! Suffixes. -/

theorem rtake_length (h : List α) (n : Nat) : (h.rtake n).length = min n h.length := by
  rw [List.rtake, List.length_drop]; omega

theorem rtake_of_length_le {h : List α} {n : Nat} (hn : h.length ≤ n) : h.rtake n = h := by
  rw [List.rtake, Nat.sub_eq_zero_of_le hn, List.drop_zero]

theorem rtake_append (h new : List α) (n : Nat) :
    (h ++ new).rtake (n + new.length) = h.rtake n ++ new := by
  have hk : (h ++ new).length - (n + new.length) = h.length - n := by
    rw [List.length_append]; omega
  rw [List.rtake, hk, List.drop_append_of_le_length (by omega)]
  rfl

theorem rtake_rtake (h : List α) {m n : Nat} (hmn : m ≤ n) : (h.rtake n).rtake m = h.rtake m := by
  have hl := rtake_length h n
  rw [List.rtake, hl, List.rtake, List.drop_drop, List.rtake]
  congr 1; omega

theorem sub_rtake {l : List α} {n m : Nat} (hl : l.length = n) : sub l (n - m) n = l.rtake m := by
  rw [sub_to_end _ _ _ (by omega), List.rtake, hl]

/-! Reads. -/

theorem readRows_ok {b : List α} {i j : Nat} (hij : i ≤ j) (hj : j ≤ b.length) :
    readRows b i j = some (sub b i j) := if_pos ⟨hij, hj⟩

theorem readRows_take {b : List α} {n : Nat} (hn : n ≤ b.length) :
    readRows b 0 n = some (b.take n) := by
  rw [readRows_ok (Nat.zero_le _) hn, sub_zero]

section
variable {s : KvSlot α} {w : Option Nat} {h : List α}

theorem new_holds (forceLinear : Bool) (w : Option Nat) :
    (KvSlot.new forceLinear : KvSlot α).Holds w [] := by
  refine ⟨?_, .empty rfl rfl rfl, fun h => by cases h⟩
  cases w with
  | none => rfl
  | some n => exact (Nat.min_zero n).symm

theorem kept_le (w : Option Nat) (n : Nat) : kept w n ≤ n := by
  cases w with
  | none => exact Nat.le_refl _
  | some w => exact Nat.min_le_right _ _

theorem KvSlot.Holds.len_le (hs : s.Holds w h) : s.len ≤ h.length := by
  rw [hs.len]; exact kept_le _ _

/-- Whatever the layout, the slot reads back the last rows it was fed. -/
theorem KvSlot.Holds.temporal_eq (hs : s.Holds w h) :
    s.temporal = some (if s.len = 0 then none else some (h.rtake s.len)) := by
  unfold KvSlot.temporal
  cases hs.layout with
  | empty hb hc hh =>
    have hz : s.len = 0 := by
      have := hs.len_le
      rw [hh, List.length_nil] at this
      omega
    simp [hb, hz]
  | flat b hb hl hpos hle hw hi hrows =>
    have hwrap : ¬ (s.len = s.cap ∧ s.idx ≠ 0) := by
      rintro ⟨hfull, hne⟩
      exact hne (by rw [hi, hfull, Nat.mod_self])
    simp only [hb, if_neg hwrap, readRows_take (show s.len ≤ b.length by omega), hrows]
    split <;> rfl
  | ring b hb hl hpos hw hle hi hrows =>
    have hne : s.len ≠ 0 := by omega
    by_cases h0 : s.idx = 0
    · have hrows' : b.take s.len = h.rtake s.len := by
        rw [h0] at hrows
        rw [← hrows, List.take_of_length_le (by omega)]
        simp
      simp only [hb, h0, hne, if_false, ne_eq, not_true_eq_false, and_false,
        readRows_take (show s.len ≤ b.length by omega), hrows']
      rfl
    · have h₁ : readRows b s.idx s.len = some (b.drop s.idx) := by
        rw [readRows_ok (by omega) (by omega), sub_to_end _ _ _ (by omega)]
      have h₂ : readRows b 0 s.idx = some (b.take s.idx) := readRows_take (by omega)
      have hc : s.cap ≠ 0 := by omega
      rw [hle] at h₁ hrows
      simp only [hb, hle, hc, h0, if_false, ne_eq, not_false_eq_true, and_self, if_true, h₁, h₂,
        ← hrows]
      rfl

/-- A full ring, whichever layout it is stored in. -/
theorem KvSlot.Holds.full_ring {n : Nat} (hs : s.Holds (some n) h) (hn : 0 < n) (hfull : s.len = n) :
    ∃ b, s.buf = some b ∧ b.length = n ∧ s.cap = n ∧ s.idx < n ∧
      b.drop s.idx ++ b.take s.idx = h.rtake n := by
  cases hs.layout with
  | empty hb hc hh =>
    have := hs.len_le
    rw [hh, List.length_nil] at this
    omega
  | flat b hb hl hpos hle hw hi hrows =>
    have hcap : s.cap = n := Nat.le_antisymm (hw n rfl) (by omega)
    have hidx : s.idx = 0 := by rw [hi, hfull, hcap, Nat.mod_self]
    refine ⟨b, hb, hl.trans hcap, hcap, by omega, ?_⟩
    rw [hfull, List.take_of_length_le (by omega)] at hrows
    simp [hidx, hrows]
  | ring b hb hl hpos hw hle hi hrows =>
    have hcap : s.cap = n := by omega
    rw [hfull] at hrows
    exact ⟨b, hb, hl.trans hcap, hcap, by omega, hrows⟩

end

/-! Writes. -/

section
variable [Inhabited α]

theorem writeRows_ok {b : List α} {off : Nat} {rows : List α} (h : off + rows.length ≤ b.length) :
    writeRows b off rows = some (overwrite default b off rows) := if_pos h

theorem overwrite_take (b rows : List α) {off : Nat} (h : off ≤ b.length) :
    (overwrite default b off rows).take (off + rows.length) = b.take off ++ rows := by
  have hz : off - b.length = 0 := by omega
  have hl : (b.take off).length = off := by rw [List.length_take]; omega
  rw [overwrite, hz, List.replicate_zero, List.append_nil, List.append_assoc, List.take_append, hl,
    List.take_of_length_le (by omega)]
  simp

theorem grownCap_bounds {need : Nat} {w : Option Nat} (hw : ∀ n, w = some n → need ≤ n) :
    need ≤ grownCap need w ∧ ∀ n, w = some n → grownCap need w ≤ n := by
  cases w with
  | none =>
    refine ⟨?_, fun n hn => by cases hn⟩
    simp only [grownCap, grow]; omega
  | some w =>
    have hww := hw w rfl
    refine ⟨by simp only [grownCap, grow]; omega, ?_⟩
    rintro n ⟨⟩
    exact Nat.min_le_right _ _

/-- What `ensure_cap` leaves in place when the new capacity fits the window. -/
theorem ensureCap_ok {s : KvSlot α} {w : Option Nat} {h : List α} (hs : s.Holds w h)
    {need : Nat} (hneed : s.len < need) (hw : ∀ n, w = some n → need ≤ n) :
    ∃ b cap, s.ensureCap need w = some { s with buf := some b, cap := cap } ∧ b.length = cap ∧
      need ≤ cap ∧ (∀ n, w = some n → cap ≤ n) ∧ b.take s.len = h.rtake s.len := by
  unfold KvSlot.ensureCap
  by_cases hc : s.cap ≥ need
  · rw [if_pos hc]
    cases hs.layout with
    | empty hb h0 hh => omega
    | flat b hb hl hpos hle hwin hi hrows => exact ⟨b, s.cap, by rw [← hb], hl, hc, hwin, hrows⟩
    | ring b hb hl hpos hwin hle hi hrows =>
      have := hw _ hwin
      omega
  · rw [if_neg hc]
    obtain ⟨hge, hle⟩ := grownCap_bounds hw
    by_cases h0 : s.len = 0
    · rw [if_neg (by omega)]
      exact ⟨_, _, rfl, List.length_replicate, hge, hle, by simp [h0]⟩
    · -- the valid prefix moves to the new buffer; a full ring never grows
      have hflat : ∃ b, s.buf = some b ∧ s.len ≤ b.length ∧ b.take s.len = h.rtake s.len := by
        cases hs.layout with
        | empty hb hc' hh =>
          have := hs.len_le
          rw [hh, List.length_nil] at this
          omega
        | flat b hb hl hpos hle' hwin hi hrows => exact ⟨b, hb, by omega, hrows⟩
        | ring b hb hl hpos hwin hle' hi hrows =>
          have := hw _ hwin
          omega
      obtain ⟨b, hb, hbl, hrows⟩ := hflat
      have hlen : (b.take s.len).length = s.len := by rw [List.length_take]; omega
      rw [if_pos (by omega), hb]
      simp only [bind, Option.bind, readRows_take hbl]
      rw [writeRows_ok (by rw [hlen, List.length_replicate]; omega)]
      refine ⟨_, _, rfl, ?_, hge, hle, ?_⟩
      · rw [length_overwrite, List.length_replicate, hlen]; omega
      · have := overwrite_take (List.replicate (grownCap need w) default) (b.take s.len)
          (Nat.zero_le _)
        rw [hlen, Nat.zero_add, List.take_zero, List.nil_append] at this
        rw [this, hrows]

/-- What a step may see: the retained rows and its own, in order; only the single-token
step on a full ring gets the last `n` rows in ring order. -/
def Returned (w : Option Nat) (h new out : List α) : Prop :=
  match w with
  | some n =>
    if new.length = 1 ∧ n ≤ h.length then out ~r (h ++ new).rtake n
    else out = h.rtake (min n h.length) ++ new
  | none => out = h ++ new

variable {s : KvSlot α} {w : Option Nat} {h new : List α}

theorem append_holds (hs : s.Holds w h) (hnew : new ≠ [])
    (hw : ∀ n, w = some n → s.len + new.length ≤ n) :
    ∃ s', s.append new w = some (s', h ++ new) ∧ s'.Holds w (h ++ new) ∧
      s'.forceLinear = s.forceLinear := by
  have hpos := List.length_pos_iff.mpr hnew
  have hlen : s.len = h.length := by
    have hk := hs.len
    cases w with
    | none => exact hk
    | some n =>
      have := hw n rfl
      simp only [kept, Option.elim] at hk
      omega
  obtain ⟨b, cap, he, hbl, hge, hle, hrows⟩ := ensureCap_ok hs
    (show s.len < s.len + new.length by omega) hw
  have htake : (overwrite default b s.len new).take (s.len + new.length) = h ++ new := by
    rw [overwrite_take _ _ (by omega), hrows, hlen, rtake_of_length_le (Nat.le_refl _)]
  have hol : (overwrite default b s.len new).length = cap := by rw [length_overwrite]; omega
  refine ⟨{ s with
    buf := some (overwrite default b s.len new)
    cap := cap
    len := s.len + new.length
    idx := (s.len + new.length) % cap }, ?_, ⟨?_, ?_, ?_⟩, rfl⟩
  · simp only [KvSlot.append, he, bind, Option.bind, writeRows_ok (show s.len + new.length ≤ b.length
      by omega), readRows_take (show s.len + new.length ≤ (overwrite default b s.len new).length by
      omega), htake]
    rfl
  · show s.len + new.length = _
    rw [List.length_append, hlen]
    cases w with
    | none => rfl
    | some n =>
      have := hw n rfl
      simp only [kept, Option.elim]
      omega
  · refine .flat _ rfl hol (show 0 < cap by omega) (show s.len + new.length ≤ cap by omega) hle rfl ?_
    show (overwrite default b s.len new).take (s.len + new.length) = _
    rw [htake, rtake_of_length_le (by rw [List.length_append]; show _ ≤ s.len + new.length; omega)]
  · intro hev
    obtain ⟨n, hn, hlt⟩ := hs.evicted hev
    have := hw n hn
    omega

theorem overwriteOldest_holds {n : Nat} (hs : s.Holds (some n) h) (hn : 0 < n) (hfull : s.len = n)
    (x : α) :
    ∃ s' out, s.overwriteOldest [x] n = some (s', out) ∧ s'.Holds (some n) (h ++ [x]) ∧
      out ~r (h ++ [x]).rtake n ∧ s'.forceLinear = s.forceLinear := by
  obtain ⟨b, hb, hbl, hcap, hidx, hrows⟩ := hs.full_ring hn hfull
  have hle := hs.len_le
  have hlen : (overwrite default b s.idx [x]).length = n := by
    rw [length_overwrite, List.length_singleton]; omega
  have hnext : (overwrite default b s.idx [x]).drop ((s.idx + 1) % n) ++
      (overwrite default b s.idx [x]).take ((s.idx + 1) % n) = (h ++ [x]).rtake n := by
    have hr := overwrite_rotate default b (i := s.idx) (by omega) x
    have hd : (h.rtake n).drop 1 = h.rtake (n - 1) := by
      rw [List.rtake, List.rtake, List.drop_drop]
      congr 1; omega
    have ha := rtake_append h [x] (n - 1)
    rw [List.length_singleton, Nat.sub_add_cancel hn] at ha
    rw [hbl, hrows, hd, ← ha] at hr
    exact hr
  have hmod : (s.idx + 1) % n < n := Nat.mod_lt _ hn
  refine ⟨{ s with
    buf := some (overwrite default b s.idx [x])
    idx := (s.idx + 1) % n
    evicted := true }, overwrite default b s.idx [x], ?_, ⟨?_, ?_, ?_⟩, ?_, rfl⟩
  · have hw : writeRows b s.idx [x] = some (overwrite default b s.idx [x]) :=
      writeRows_ok (by rw [List.length_singleton]; omega)
    simp only [KvSlot.overwriteOldest, hb, bind, Option.bind, hw]
    rfl
  · show s.len = min n (h ++ [x]).length
    rw [List.length_append]; omega
  · refine .ring _ rfl (hlen.trans hcap.symm) (show 0 < s.cap by omega) (by rw [← hcap])
      (show s.len = s.cap by omega) (show (s.idx + 1) % n < s.cap by omega) ?_
    show _ = (h ++ [x]).rtake s.len
    rw [hfull]
    exact hnext
  · intro _
    exact ⟨n, rfl, by rw [List.length_append, List.length_singleton]; omega⟩
  · refine ⟨(s.idx + 1) % n, ?_⟩
    rw [List.rotate_eq_drop_append_take (by omega), hnext]

theorem overwrite_all {b rows : List α} (hl : b.length = rows.length) :
    overwrite default b 0 rows = rows := by
  have hd : b.drop (0 + rows.length) = [] := List.drop_eq_nil_of_le (by omega)
  rw [overwrite, hd]; simp

theorem overflow_holds {n : Nat} (hs : s.Holds (some n) h) (hn : 0 < n)
    (hover : n < s.len + new.length) :
    ∃ s', s.overflow new n = some (s', h.rtake s.len ++ new) ∧ s'.Holds (some n) (h ++ new) ∧
      s'.forceLinear = s.forceLinear := by
  have hle := hs.len_le
  have hkeep : min n (s.len + new.length) = n := by omega
  have hall : (h.rtake s.len ++ new).length = s.len + new.length := by
    rw [List.length_append, rtake_length]; omega
  have hold : (match (if s.len = 0 then none else some (h.rtake s.len)) with
      | some old => old ++ new
      | none => new) = h.rtake s.len ++ new := by
    by_cases h0 : s.len = 0
    · simp [h0]
    · simp [h0]
  have hread : readRows (h.rtake s.len ++ new) (s.len + new.length - n) (s.len + new.length) =
      some ((h ++ new).rtake n) := by
    rw [readRows_ok (by omega) (by omega), sub_rtake hall, ← rtake_append, rtake_rtake _ (by omega)]
  have hrl : ((h ++ new).rtake n).length = n := by
    rw [rtake_length, List.length_append]; omega
  have hrep : s.replace ((h ++ new).rtake n) n n =
      some { s with buf := some ((h ++ new).rtake n), cap := n, len := n } := by
    rw [KvSlot.replace, writeRows_ok (by rw [List.length_replicate]; omega),
      overwrite_all (by rw [List.length_replicate, hrl])]
    rfl
  refine ⟨{ s with
    buf := some ((h ++ new).rtake n)
    cap := n
    len := n
    idx := n % n
    evicted := s.evicted || decide (s.len + new.length > n) }, ?_, ⟨?_, ?_, ?_⟩, rfl⟩
  · simp only [KvSlot.overflow, hs.temporal_eq, bind, Option.bind, hold, hkeep, hread, hrep]
    rfl
  · show n = min n (h ++ new).length
    rw [List.length_append]; omega
  · exact .flat _ rfl hrl hn (Nat.le_refl n) (fun m hm => by cases hm; exact Nat.le_refl n) rfl
      (List.take_of_length_le (Nat.le_of_eq hrl))
  · exact fun _ => ⟨n, rfl, by rw [List.length_append]; omega⟩

/-- One step, in every regime. -/
theorem update_holds (window : Option Nat) (hwin : w = if s.forceLinear then none else window)
    (hw : ∀ n, w = some n → 0 < n) (hs : s.Holds w h) (hnew : new ≠ []) :
    ∃ s' out, s.update new window = some (s', out) ∧ s'.Holds w (h ++ new) ∧
      Returned w h new out ∧ s'.forceLinear = s.forceLinear := by
  have hle := hs.len_le
  unfold KvSlot.update
  rw [← hwin]
  cases w with
  | none =>
    obtain ⟨s', he, hs', hf⟩ := append_holds hs hnew (fun n hn => by cases hn)
    exact ⟨s', _, he, hs', rfl, hf⟩
  | some n =>
    have hn := hw n rfl
    have hlen : s.len = min n h.length := hs.len
    by_cases hring : new.length = 1 ∧ s.len = n
    · obtain ⟨x, rfl⟩ := List.length_eq_one_iff.mp hring.1
      obtain ⟨s', out, he, hs', hrot, hf⟩ := overwriteOldest_holds hs hn hring.2 x
      refine ⟨s', out, by rw [← he]; exact if_pos hring, hs', ?_, hf⟩
      rw [Returned, if_pos ⟨rfl, by omega⟩]
      exact hrot
    · have hret : Returned (some n) h new (h.rtake s.len ++ new) := by
        rw [Returned, if_neg (by omega), hlen]
      simp only [if_neg hring]
      by_cases hover : s.len + new.length > n
      · obtain ⟨s', he, hs', hf⟩ := overflow_holds hs hn hover
        exact ⟨s', _, by rw [if_pos hover, he], hs', hret, hf⟩
      · obtain ⟨s', he, hs', hf⟩ := append_holds hs hnew (fun m hm => by cases hm; omega)
        have hh : h.rtake s.len = h := by
          have := List.length_pos_iff.mpr hnew
          exact rtake_of_length_le (by omega)
        rw [hh] at hret
        exact ⟨s', _, by rw [if_neg hover, he], hs', hret, hf⟩

/-! Any sequence of steps. -/

/-- The slot after the steps and what each of them was handed. -/
def KvSlot.feed (s : KvSlot α) (window : Option Nat) :
    List (List α) → Option (KvSlot α × List (List α))
  | [] => some (s, [])
  | new :: steps => do
    let (s, out) ← s.update new window
    let (s, outs) ← s.feed window steps
    return (s, out :: outs)

/-- Every step was handed what it may see, the history growing step by step. -/
def AllReturned (w : Option Nat) : List α → List (List α) → List (List α) → Prop
  | _, [], [] => True
  | h, new :: steps, out :: outs => Returned w h new out ∧ AllReturned w (h ++ new) steps outs
  | _, _, _ => False

theorem feed_holds {window : Option Nat} (hw : ∀ n, w = some n → 0 < n) (steps : List (List α))
    (hwin : w = if s.forceLinear then none else window) (hs : s.Holds w h)
    (hpos : ∀ new ∈ steps, new ≠ []) :
    ∃ s' outs, s.feed window steps = some (s', outs) ∧ s'.Holds w (h ++ steps.flatten) ∧
      AllReturned w h steps outs := by
  induction steps generalizing s h with
  | nil => exact ⟨s, [], rfl, by simpa using hs, trivial⟩
  | cons new steps ih =>
    obtain ⟨s₁, out, he, hs₁, hret, hf⟩ := update_holds _ hwin hw hs (hpos new (by simp))
    obtain ⟨s₂, outs, he₂, hs₂, hrest⟩ := ih (by rw [hf]; exact hwin) hs₁
      (fun x hx => hpos x (by simp [hx]))
    refine ⟨s₂, out :: outs, ?_, by simpa using hs₂, hret, hrest⟩
    simp only [KvSlot.feed, he, he₂, bind, Option.bind]
    rfl

/-- After any steps the slot reads back exactly the rows it has to retain, in order, and
each step saw the rows retained before it and its own. -/
theorem kv_slot_retains (forceLinear : Bool) (window : Option Nat)
    (hw : ∀ n, window = some n → 1 ≤ n) (steps : List (List α)) (hpos : ∀ new ∈ steps, new ≠ []) :
    ∃ s outs, (KvSlot.new forceLinear : KvSlot α).feed window steps = some (s, outs) ∧
      s.temporal = some (if steps = [] then none else
        some (steps.flatten.rtake
          (kept (if forceLinear then none else window) steps.flatten.length))) ∧
      AllReturned (if forceLinear then none else window) [] steps outs := by
  have hw' : ∀ n, (if forceLinear then none else window) = some n → 0 < n := by
    intro n hn
    cases forceLinear with
    | true => cases hn
    | false => exact hw n hn
  obtain ⟨s, outs, he, hs, hret⟩ := feed_holds hw' steps (s := KvSlot.new forceLinear) rfl
    (new_holds forceLinear _) hpos
  rw [List.nil_append] at hs
  refine ⟨s, outs, he, ?_, hret⟩
  rw [hs.temporal_eq, ← hs.len]
  have hzero : s.len = 0 ↔ steps = [] := by
    constructor
    · intro h0
      cases steps with
      | nil => rfl
      | cons new steps =>
        have hlen := List.length_pos_iff.mpr (hpos new (by simp))
        have hk := hs.len
        rw [h0, List.flatten_cons, List.length_append] at hk
        cases hwin : (if forceLinear then none else window) with
        | none => rw [hwin] at hk; simp only [kept, Option.elim] at hk; omega
        | some n =>
          have := hw' n hwin
          rw [hwin] at hk; simp only [kept, Option.elim] at hk; omega
    · rintro rfl
      have := hs.len_le
      simpa using this
  simp only [hzero]

end

theorem kv_slot_retains_window_two :
    ∃ s outs, (KvSlot.new false : KvSlot Nat).feed (some 2) [[1], [2], [3, 4, 5], [6]] =
      some (s, outs) ∧ s.temporal = some (some [5, 6]) := by
  obtain ⟨s, outs, he, ht, -⟩ := @kv_slot_retains Nat _ false (some 2)
    (fun n hn => by cases hn; decide) [[1], [2], [3, 4, 5], [6]] (by simp)
  exact ⟨s, outs, he, ht⟩

end Onisin.Mlx
