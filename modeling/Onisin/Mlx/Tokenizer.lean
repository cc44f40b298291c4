import Onisin.Mlx.Prompt

/-!
The tokenizer. It is code of another package; what the engine relies on is that the markers
of the prompt are tokens of their own, at which a text may be cut. A scanner with that
behaviour closes the module.
-/

set_option autoImplicit false

namespace Onisin.Mlx
open Lib

/-- No encoding is an error of the tokenizer. -/
structure Tokenizer where
  encode : Text → Option (List UInt32)

/-- The markers that a prompt or the part cut off from it can end in. -/
inductive Marker where
  | turn
  | toolResponse
  | toolResponseEnd
  | channel
  deriving DecidableEq, Repr

def Marker.text : Marker → Text
  | .turn => turnOpen
  | .toolResponse => toolResponseOpen
  | .toolResponseEnd => toolResponseClose
  | .channel => channelOpen

/-- Special tokens: a marker is one token, what stands on its two sides is encoded
independently, and its id comes from nowhere else. -/
structure Tokenizer.CutsAtMarkers (t : Tokenizer) (id : Marker → UInt32) : Prop where
  encode_nil : t.encode [] = some []
  cut : ∀ (a b : Text) (mk : Marker) (ids : List UInt32), t.encode (a ++ mk.text ++ b) = some ids →
    ∃ xs ys, t.encode a = some xs ∧ t.encode b = some ys ∧ ids = xs ++ id mk :: ys
  id_injective : Function.Injective id
  absent : ∀ (a : Text) (mk : Marker) (ids : List UInt32), t.encode a = some ids →
    ¬ mk.text <:+: a → id mk ∉ ids

/-- Ids as the model takes them. -/
def Tokenizer.ids (t : Tokenizer) (text : Text) : Option (List Int32) :=
  (t.encode text).map (List.map UInt32.toInt32)

theorem toInt32_injective : Function.Injective UInt32.toInt32 := by
  intro u v h
  have := congrArg Int32.toUInt32 h
  simpa using this

section
variable {t : Tokenizer} {id : Marker → UInt32}

theorem Tokenizer.CutsAtMarkers.ids_cut (ht : t.CutsAtMarkers id) {a b : Text} {mk : Marker}
    {ids : List Int32} (h : t.ids (a ++ mk.text ++ b) = some ids) :
    ∃ xs ys, t.ids a = some xs ∧ t.ids b = some ys ∧ ids = xs ++ (id mk).toInt32 :: ys := by
  obtain ⟨raw, hraw, rfl⟩ := Option.map_eq_some_iff.mp h
  obtain ⟨xs, ys, ha, hb, rfl⟩ := ht.cut a b mk raw hraw
  exact ⟨_, _, by rw [Tokenizer.ids, ha]; rfl, by rw [Tokenizer.ids, hb]; rfl, by simp⟩

theorem Tokenizer.CutsAtMarkers.toInt32_ne (ht : t.CutsAtMarkers id) {mk mk' : Marker}
    (h : mk ≠ mk') : (id mk).toInt32 ≠ (id mk').toInt32 :=
  fun he => h (ht.id_injective (toInt32_injective he))

theorem Tokenizer.CutsAtMarkers.ids_absent (ht : t.CutsAtMarkers id) {a : Text} {mk : Marker}
    {ids : List Int32} (h : t.ids a = some ids) (hmk : ¬ mk.text <:+: a) :
    (id mk).toInt32 ∉ ids := by
  obtain ⟨raw, hraw, rfl⟩ := Option.map_eq_some_iff.mp h
  intro hmem
  obtain ⟨u, hu, he⟩ := List.mem_map.mp hmem
  rw [toInt32_injective he] at hu
  exact ht.absent a mk raw hraw hmk hu

end

/-! A tokenizer that takes markers as they come and every other character by its code. -/

def Marker.id : Marker → UInt32
  | .toolResponse => 50
  | .toolResponseEnd => 51
  | .channel => 100
  | .turn => 105

def Marker.all : List Marker := [.turn, .toolResponse, .toolResponseEnd, .channel]

def charId (c : Char) : UInt32 := UInt32.ofNat (1000 + c.toNat)

/-- The first argument counts the characters left of a marker already taken. -/
def scan : Nat → Text → List UInt32
  | _, [] => []
  | skip + 1, _ :: t => scan skip t
  | 0, c :: t =>
    match Marker.all.find? fun mk => mk.text <+: c :: t with
    | some mk => mk.id :: scan (mk.text.length - 1) t
    | none => charId c :: scan 0 t

def scanner : Tokenizer where
  encode t := some (scan 0 t)

theorem scan_skip (s t : Text) : scan s.length (s ++ t) = scan 0 t := by
  induction s with
  | nil => rfl
  | cons c s ih => exact ih

/-- A marker starts with its only `<`, so none starts before another and ends inside it. -/
theorem marker_prefix_append {mk mk' : Marker} {c : Char} {x t : Text} :
    mk.text <+: (c :: x) ++ (mk'.text ++ t) ↔ mk.text <+: c :: x := by
  refine ⟨fun h => ?_, fun h => h.trans (List.prefix_append _ _)⟩
  by_cases hlen : mk.text.length ≤ (c :: x).length
  · exact List.prefix_of_prefix_length_le h (List.prefix_append _ _) hlen
  obtain ⟨rest, hrest⟩ : c :: x <+: mk.text :=
    List.prefix_of_prefix_length_le (List.prefix_append _ _) h (by omega)
  have htail : rest <+: mk'.text ++ t := by
    rw [← hrest] at h
    exact (List.prefix_append_right_inj (c :: x)).mp h
  have hone : rest.take 1 <+: mk'.text :=
    List.prefix_of_prefix_length_le ((List.take_prefix 1 rest).trans htail) (List.prefix_append _ _)
      ((List.length_take_le 1 rest).trans (by cases mk' <;> decide))
  have hdrop : rest = mk.text.drop (c :: x).length := by rw [← hrest, List.drop_left]
  have hnever : ∀ k < mk.text.length, 1 ≤ k → ¬ (mk.text.drop k).take 1 <+: mk'.text := by
    cases mk <;> cases mk' <;> decide
  exact absurd (hdrop ▸ hone) (hnever _ (by omega) (by simp))

theorem find_marker_append (mk : Marker) (c : Char) (x t : Text) :
    (Marker.all.find? fun k => k.text <+: (c :: x) ++ (mk.text ++ t)) =
      Marker.all.find? fun k => k.text <+: c :: x := by
  simp only [marker_prefix_append]

theorem scan_append_marker {skip : Nat} (a : Text) (hskip : skip ≤ a.length) (mk : Marker)
    (b : Text) : scan skip (a ++ (mk.text ++ b)) = scan skip a ++ scan 0 (mk.text ++ b) := by
  induction a generalizing skip with
  | nil =>
    obtain rfl : skip = 0 := Nat.le_zero.mp hskip
    rfl
  | cons c a ih =>
    cases skip with
    | succ skip => exact ih (Nat.le_of_succ_le_succ hskip)
    | zero =>
      have hfind := find_marker_append mk c a b
      rw [List.cons_append] at hfind ⊢
      rw [scan, scan, hfind]
      cases hk : Marker.all.find? fun k => k.text <+: c :: a with
      | none => exact congrArg (charId c :: ·) (ih (Nat.zero_le _))
      | some k =>
        have hlen : k.text.length ≤ a.length + 1 := by
          have := List.find?_some hk
          exact (of_decide_eq_true this).length_le
        exact congrArg (k.id :: ·) (ih (by omega))

theorem marker_prefix_marker {k mk : Marker} {t : Text} : k.text <+: mk.text ++ t ↔ k = mk := by
  constructor
  · intro h
    have hone : k.text <+: mk.text ∨ mk.text <+: k.text :=
      List.prefix_or_prefix_of_prefix h (List.prefix_append _ _)
    have hapart : k ≠ mk → ¬ (k.text <+: mk.text ∨ mk.text <+: k.text) := by
      cases k <;> cases mk <;> decide
    exact Classical.byContradiction fun hne => hapart hne hone
  · rintro rfl
    exact List.prefix_append _ _

theorem scan_marker (mk : Marker) (b : Text) : scan 0 (mk.text ++ b) = mk.id :: scan 0 b := by
  have hfind : (Marker.all.find? fun k => k.text <+: mk.text ++ b) = some mk := by
    simp only [marker_prefix_marker]
    cases mk <;> rfl
  obtain ⟨c, s, hs⟩ : ∃ c s, mk.text = c :: s := by cases mk <;> exact ⟨_, _, rfl⟩
  have hlen : mk.text.length - 1 = s.length := by rw [hs]; rfl
  rw [hs, List.cons_append] at hfind ⊢
  rw [scan, hfind]
  show mk.id :: scan (mk.text.length - 1) (s ++ b) = _
  rw [hlen, scan_skip]

theorem charId_ne (c : Char) (mk : Marker) : mk.id ≠ charId c := by
  have hc : c.toNat < 0x110000 := by
    obtain h | h := c.valid
    · exact Nat.lt_trans h (by decide)
    · exact h.2
  have hmk : mk.id.toNat < 1000 := by cases mk <;> decide
  intro h
  rw [h, charId, UInt32.toNat_ofNat_of_lt' (by show _ < 4294967296; omega)] at hmk
  omega

theorem mem_scan {mk : Marker} {skip : Nat} {t : Text} (h : mk.id ∈ scan skip t) :
    mk.text <:+: t := by
  induction t generalizing skip with
  | nil => simp [scan] at h
  | cons c t ih =>
    cases skip with
    | succ skip => exact (ih h).trans (List.suffix_cons c t).isInfix
    | zero =>
      rw [scan] at h
      split at h
      · next k hk =>
        obtain he | hmem := List.mem_cons.mp h
        · obtain rfl : mk = k := by cases mk <;> cases k <;> first | rfl | cases he
          have := List.find?_some hk
          exact (of_decide_eq_true this).isInfix
        · exact (ih hmem).trans (List.suffix_cons c t).isInfix
      · obtain he | hmem := List.mem_cons.mp h
        · exact absurd he (charId_ne c mk)
        · exact (ih hmem).trans (List.suffix_cons c t).isInfix

theorem scanner_cutsAtMarkers : scanner.CutsAtMarkers Marker.id where
  encode_nil := rfl
  cut a b mk ids h := by
    refine ⟨scan 0 a, scan 0 b, rfl, rfl, ?_⟩
    rw [← Option.some.inj h, List.append_assoc, scan_append_marker a (Nat.zero_le _), scan_marker]
  id_injective mk mk' h := by cases mk <;> cases mk' <;> first | rfl | cases h
  absent a mk ids h hmk hmem := hmk (mem_scan (Option.some.inj h ▸ hmem))

end Onisin.Mlx
