import Onisin.Lib.DoubleText
import Onisin.Lib.Js

/-!
Numbers as the Rust standard library reads them, and the doubles they are.
-/

set_option autoImplicit false

namespace Onisin.Lib

def stripSign (t : Text) : Bool × Text :=
  match t with
  | '-' :: t => (true, t)
  | '+' :: t => (false, t)
  | t => (false, t)

def signed (neg : Bool) (n : Nat) : Int := if neg then -(n : Int) else n

def IsI64 (n : Int) : Prop := -2 ^ 63 ≤ n ∧ n < 2 ^ 63

instance (n : Int) : Decidable (IsI64 n) := inferInstanceAs (Decidable (_ ∧ _))

def parseI64 (t : Text) : Option Int :=
  let (neg, ds) := stripSign t
  if ds.isEmpty || !ds.all Char.isDigit then none
  else
    let n := signed neg (Nat.ofDigitChars 10 ds 0)
    if IsI64 n then some n else none

inductive Double where
  | nan
  | infinite (neg : Bool)
  | finite (neg : Bool) (x : Rat)
  deriving DecidableEq, Repr

/-- The double next to a number with that sign. -/
def Double.nearest (neg : Bool) (q : Rat) : Double :=
  match toDouble q with
  | none => .infinite neg
  | some x => .finite neg x

/-- Equality of numbers, where zero has no sign. -/
def Double.Same : Double → Double → Prop
  | .finite neg x, .finite neg' x' => x = x' ∧ (neg = neg' ∨ x = 0)
  | a, b => a = b

def Double.Valid : Double → Prop
  | .finite _ x => 0 ≤ x ∧ toDouble x = some x
  | _ => True

def isExponent : Text → Bool
  | [] => true
  | e :: t => (e = 'e' || e = 'E') && !(stripSign t).2.isEmpty && (stripSign t).2.all Char.isDigit

/-- Digits with or without a point and an exponent; at least one digit is not in the exponent. -/
def isFloatText (t : Text) : Bool :=
  let int := t.span Char.isDigit
  let frac := splitFraction int.2
  !(int.1 ++ frac.1).isEmpty && isExponent frac.2

def parseF64 (t : Text) : Option Double :=
  let (neg, u) := stripSign t
  let name := u.map Char.toLower
  if name = "nan".toList then some .nan
  else if name = "inf".toList ∨ name = "infinity".toList then some (.infinite neg)
  else if isFloatText u then some (.nearest neg (unsignedValue u))
  else none

/-! Printed numbers are read as what they are. -/

theorem stripSign_digit {c : Char} (h : c.isDigit = true) (t : Text) : stripSign (c :: t) = (false, c :: t) := by
  unfold stripSign
  split
  · next heq =>
    obtain ⟨rfl, -⟩ := List.cons.inj heq
    exact absurd h (by decide)
  · next heq =>
    obtain ⟨rfl, -⟩ := List.cons.inj heq
    exact absurd h (by decide)
  · rfl

theorem toDigits_cons (n : Nat) : ∃ c t, Nat.toDigits 10 n = c :: t ∧ c.isDigit = true := by
  obtain ⟨c, t, heq⟩ := List.exists_cons_of_ne_nil (Nat.toDigits_ne_nil (b := 10) (n := n))
  exact ⟨c, t, heq, allDigits_toDigits n c (heq ▸ List.mem_cons_self)⟩

/-- The sign and the digits of a printed integer. -/
theorem stripSign_toString (n : Int) :
    stripSign (toString n).toList = (decide (n < 0), Nat.toDigits 10 n.natAbs) := by
  by_cases hneg : n < 0
  · have hn : n = -(n.natAbs : Int) := by omega
    have htext : (toString n).toList = '-' :: Nat.toDigits 10 n.natAbs := by
      conv_lhs => rw [hn, toList_toString_neg (by omega)]
    rw [htext, decide_eq_true hneg]
    rfl
  · have hn : n = (n.natAbs : Int) := by omega
    have htext : (toString n).toList = Nat.toDigits 10 n.natAbs := by
      conv_lhs => rw [hn, toList_toString_natCast]
    obtain ⟨c, t, heq, hdigit⟩ := toDigits_cons n.natAbs
    rw [htext, decide_eq_false hneg, heq, stripSign_digit hdigit]

theorem signed_natAbs (n : Int) : signed (decide (n < 0)) n.natAbs = n := by
  rw [signed]
  split
  · next h =>
    have hneg := of_decide_eq_true h
    omega
  · next h =>
    have hneg : ¬n < 0 := fun hlt => h (decide_eq_true hlt)
    omega

theorem parseI64_toString (n : Int) : parseI64 (toString n).toList = if IsI64 n then some n else none := by
  obtain ⟨c, t, heq, -⟩ := toDigits_cons n.natAbs
  have hempty : (Nat.toDigits 10 n.natAbs).isEmpty = false := by rw [heq]; rfl
  have hall : (Nat.toDigits 10 n.natAbs).all Char.isDigit = true := List.all_eq_true.mpr (allDigits_toDigits _)
  rw [parseI64, stripSign_toString]
  dsimp only
  rw [hempty, hall, Nat.ofDigitChars_ten_toDigits, signed_natAbs]
  rfl

/-- A printed integer is its digits, with or without a sign before them. -/
theorem forall_toString {P : Char → Prop} (hdigit : ∀ {c : Char}, c.isDigit = true → P c) (hsign : P '-')
    (n : Int) : ∀ c ∈ (toString n).toList, P c := by
  have hdigits : ∀ k, ∀ c ∈ Nat.toDigits 10 k, P c :=
    fun k c hc => hdigit (allDigits_toDigits k c hc)
  by_cases hneg : n < 0
  · have hn : n = -(n.natAbs : Int) := by omega
    rw [hn, toList_toString_neg (by omega)]
    intro c hc
    obtain rfl | hc := List.mem_cons.mp hc
    · exact hsign
    · exact hdigits _ c hc
  · have hn : n = (n.natAbs : Int) := by omega
    rw [hn, toList_toString_natCast]
    exact hdigits _

theorem graphic_toString (n : Int) : ∀ c ∈ (toString n).toList, isGraphic c = true :=
  forall_toString isGraphic_of_isDigit (by decide) n

theorem isExponent_sci (l : SciLit) : isExponent l.expText = true := by
  rw [SciLit.expText]
  cases l.exp with
  | none => rfl
  | some e =>
    obtain ⟨c, t, heq, -⟩ := toDigits_cons e.natAbs
    have hall : (Nat.toDigits 10 e.natAbs).all Char.isDigit = true :=
      List.all_eq_true.mpr (allDigits_toDigits _)
    have hsign : (stripSign ((if e < 0 then '-' else '+') :: Nat.toDigits 10 e.natAbs)).2 =
        Nat.toDigits 10 e.natAbs := by
      split <;> rfl
    rw [Option.map_some, Option.getD_some, exponentText_eq, isExponent, hsign, hall, heq]
    rfl

theorem isFloatText_sci (l : SciLit) : isFloatText l.unsignedText = true := by
  obtain ⟨hint, hfrac⟩ := l.scanned
  have hne : (l.lit.int ++ l.lit.frac).isEmpty = false := by
    rw [List.isEmpty_eq_false_iff]
    exact List.append_ne_nil_of_left_ne_nil l.lit.int_ne _
  rw [isFloatText, SciLit.unsignedText, hint]
  dsimp only
  rw [hfrac, hne, isExponent_sci]
  rfl

theorem stripSign_sci (l : SciLit) : stripSign l.text = (l.lit.neg, l.unsignedText) := by
  rw [SciLit.text, SciLit.unsignedText, DecimalLit.text]
  cases l.lit.neg with
  | true => rfl
  | false =>
    obtain ⟨c, t, hhead, hdigit⟩ := l.head_isDigit
    rw [if_neg (by decide), hhead, List.cons_append, stripSign_digit hdigit]

theorem toLower_of_isDigit {c : Char} (h : c.isDigit = true) : c.toLower = c := by
  have hrange : 48 ≤ c.toNat ∧ c.toNat ≤ 57 := Char.isDigit_iff_toNat.mp h
  have hlow : ¬65 ≤ c.toNat := by omega
  exact dif_neg fun hupper => hlow hupper.1

/-- Digits are not the name of a number. -/
theorem map_toLower_ne {c : Char} (h : c.isDigit = true) (t : Text) {name : Text}
    (hname : (name.head?.any fun d => !d.isDigit) = true) : (c :: t).map Char.toLower ≠ name := by
  rintro rfl
  rw [List.map_cons, List.head?_cons, toLower_of_isDigit h, Option.any_some, h] at hname
  cases hname

theorem parseF64_sci (l : SciLit) : parseF64 l.text = some (.nearest l.lit.neg l.magnitude) := by
  obtain ⟨c, t, hhead, hdigit⟩ := l.head_isDigit
  have hname : ∀ name : Text, (name.head?.any fun d => !d.isDigit) = true →
      l.unsignedText.map Char.toLower ≠ name := by
    intro name hname
    rw [SciLit.unsignedText, hhead, List.cons_append]
    exact map_toLower_ne hdigit _ hname
  have hvalue : unsignedValue l.unsignedText = l.magnitude := unsignedValue_sci l
  rw [parseF64, stripSign_sci]
  dsimp only
  rw [if_neg (hname _ (by decide)), if_neg (not_or.mpr ⟨hname _ (by decide), hname _ (by decide)⟩),
    if_pos (isFloatText_sci l), hvalue]

theorem graphic_sci (l : SciLit) : ∀ c ∈ l.text, isGraphic c = true := by
  have hdigits : ∀ {ds : Text}, AllDigits ds → ∀ c ∈ ds, isGraphic c = true :=
    fun h c hc => isGraphic_of_isDigit (h c hc)
  have hfrac : ∀ c ∈ l.lit.fracText, isGraphic c = true := by
    rw [DecimalLit.fracText]
    split
    · exact fun _ hc => absurd hc List.not_mem_nil
    · exact List.forall_mem_cons.mpr ⟨rfl, hdigits l.lit.frac_digits⟩
  have hexp : ∀ c ∈ l.expText, isGraphic c = true := by
    rw [SciLit.expText]
    cases l.exp with
    | none => exact fun _ hc => absurd hc List.not_mem_nil
    | some e =>
      rw [Option.map_some, Option.getD_some, exponentText_eq]
      refine List.forall_mem_cons.mpr ⟨rfl, List.forall_mem_cons.mpr ⟨?_, hdigits (allDigits_toDigits _)⟩⟩
      split <;> rfl
  have hunsigned : ∀ c ∈ l.lit.unsigned, isGraphic c = true :=
    List.forall_mem_append.mpr ⟨hdigits l.lit.int_digits, hfrac⟩
  refine List.forall_mem_append.mpr ⟨?_, hexp⟩
  rw [DecimalLit.text]
  split
  · exact List.forall_mem_cons.mpr ⟨rfl, hunsigned⟩
  · exact hunsigned

/-- A printed double is printed again by JavaScript as a text that is rounded to it. -/
theorem jsNumberText_sci {t : Text} {x : Rat} (hx : 0 < x) (hdouble : toDouble x = some x)
    (ht : toDouble |decimal t| = some x) :
    ∃ l : SciLit, jsNumberText t = l.text ∧ l.lit.neg = decide (decimal t < 0) ∧
      toDouble l.magnitude = some x := by
  obtain ⟨l, hneg, htext, hvalue⟩ := doubleText_sci hx hdouble (decide (decimal t < 0))
  refine ⟨l, ?_, hneg, hvalue ▸ shortest_rounds hx hdouble⟩
  rw [jsNumberText, ht]
  dsimp only
  rw [if_neg hx.ne', htext, SciLit.text, SciLit.unsignedText, DecimalLit.text, hneg]
  by_cases hlt : decimal t < 0
  · rw [if_pos hlt, if_pos (decide_eq_true hlt)]
    rfl
  · rw [if_neg hlt, if_neg (by simpa using hlt)]
    rfl

end Onisin.Lib
