import Onisin.Lib.Text
import Mathlib.Data.Rat.Defs
import Mathlib.Algebra.Order.Field.Rat
import Mathlib.Tactic.Ring
import Mathlib.Tactic.FieldSimp

/-!
Numbers in decimal notation: literals with an optional sign and fraction, and the number that a
text in fixed or scientific notation denotes.
-/

set_option autoImplicit false

namespace Onisin.Lib

def AllDigits (t : Text) : Prop := ∀ c ∈ t, c.isDigit = true

/-- A literal `-?[0-9]+(\.[0-9]+)?` by its parts; no fraction is an empty one. -/
structure DecimalLit where
  neg : Bool
  int : Text
  frac : Text
  int_ne : int ≠ []
  int_digits : AllDigits int
  frac_digits : AllDigits frac

def DecimalLit.fracText (l : DecimalLit) : Text := if l.frac = [] then [] else '.' :: l.frac

def DecimalLit.unsigned (l : DecimalLit) : Text := l.int ++ l.fracText

def DecimalLit.text (l : DecimalLit) : Text := if l.neg then '-' :: l.unsigned else l.unsigned

/-- The exponent at the end of a text, `0` if there is none. -/
def exponentOf (t : Text) : Int :=
  match t with
  | e :: '-' :: ds => if e = 'e' ∨ e = 'E' then -(Nat.ofDigitChars 10 ds 0 : Int) else 0
  | e :: '+' :: ds => if e = 'e' ∨ e = 'E' then Nat.ofDigitChars 10 ds 0 else 0
  | e :: ds => if e = 'e' ∨ e = 'E' then Nat.ofDigitChars 10 ds 0 else 0
  | [] => 0

/-- The digits behind a point, with what is behind them. -/
def splitFraction (t : Text) : Text × Text :=
  match t with
  | '.' :: t => t.span Char.isDigit
  | t => ([], t)

/-- The number an unsigned text denotes. -/
def unsignedValue (t : Text) : Rat :=
  let int := t.span Char.isDigit
  let frac := splitFraction int.2
  (Nat.ofDigitChars 10 (int.1 ++ frac.1) 0 : Rat) * (10 : Rat) ^ (exponentOf frac.2 - frac.1.length)

/-- The number that a text in decimal notation denotes. -/
def decimal (t : Text) : Rat :=
  match t with
  | '-' :: t => -unsignedValue t
  | t => unsignedValue t

/-- The value of an integer literal. -/
def intValue (lit : Text) : Int :=
  match lit with
  | '-' :: ds => -(Nat.ofDigitChars 10 ds 0 : Int)
  | ds => Nat.ofDigitChars 10 ds 0

theorem unsignedValue_digits {ds : Text} (h : AllDigits ds) :
    unsignedValue ds = Nat.ofDigitChars 10 ds 0 := by
  have hspan : ds.span Char.isDigit = (ds, []) := by
    simpa using @span_append Char Char.isDigit ds [] h nofun
  simp only [unsignedValue, hspan]
  simp [splitFraction, exponentOf]

theorem head_ne_minus {ds : Text} (h : AllDigits ds) : ∀ t, ds ≠ '-' :: t := by
  rintro t rfl
  exact absurd (h '-' List.mem_cons_self) (by decide)

/-- An integer literal denotes its value. -/
theorem decimal_digits {ds : Text} (h : AllDigits ds) :
    decimal ds = intValue ds ∧ decimal ('-' :: ds) = intValue ('-' :: ds) := by
  refine ⟨?_, ?_⟩
  · unfold decimal intValue
    split
    · exact absurd rfl (head_ne_minus h _)
    · rw [unsignedValue_digits h, Int.cast_natCast]
  · rw [decimal, intValue, unsignedValue_digits h, Int.cast_neg, Int.cast_natCast]

theorem allDigits_toDigits (n : Nat) : AllDigits (Nat.toDigits 10 n) :=
  fun _ hc => Nat.isDigit_of_mem_toDigits (by decide) (by decide) hc

theorem allDigits_nil : AllDigits [] := fun _ hc => absurd hc List.not_mem_nil

/-- The literal of a number without a sign. -/
def natLit (n : Nat) : DecimalLit :=
  ⟨false, Nat.toDigits 10 n, [], Nat.toDigits_ne_nil, allDigits_toDigits n, allDigits_nil⟩

/-- A printed integer denotes itself. -/
theorem decimal_toString (n : Int) : decimal (toString n).toList = n := by
  cases n with
  | ofNat n =>
    have htext : (toString (Int.ofNat n)).toList = Nat.toDigits 10 n := Nat.toList_repr
    rw [htext, (decimal_digits (allDigits_toDigits n)).1, intValue]
    · simp
    · exact fun t => head_ne_minus (allDigits_toDigits n) t
  | negSucc n =>
    have htext : (toString (Int.negSucc n)).toList = '-' :: Nat.toDigits 10 (n + 1) := by
      have hrepr : toString (Int.negSucc n) = "-" ++ (n + 1).repr := rfl
      rw [hrepr, String.toList_append, Nat.toList_repr]
      rfl
    rw [htext, (decimal_digits (allDigits_toDigits _)).2, intValue, Nat.ofDigitChars_ten_toDigits]
    simp [Int.negSucc_eq]

end Onisin.Lib
