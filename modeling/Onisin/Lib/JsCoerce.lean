import Onisin.Lib.RustNumber

/-!
Numbers of JavaScript as texts: how a double is printed, what `parseInt` and `parseFloat` read
from the front of a text, and when the integer part of a double is printed as an integer.
-/

set_option autoImplicit false

namespace Onisin.Lib

/-- A double that there is. -/
abbrev JsNumber := { v : Double // v.Valid }

/-- `String(v)` and `` `${v}` ``; zero has no sign. -/
def Double.jsText : Double → Text
  | .nan => "NaN".toList
  | .infinite neg => (if neg then "-Infinity" else "Infinity").toList
  | .finite neg x => if x = 0 then ['0'] else (if neg then ['-'] else []) ++ doubleText x

/-- `Math.trunc`. -/
def Double.trunc : Double → Double
  | .finite neg x => .finite neg ⌊x⌋
  | v => v

def Double.IsFinite : Double → Prop
  | .finite _ _ => True
  | _ => False

/-- `Number(n)` of a bigint. -/
def Double.ofInt (n : Int) : Double := .nearest (decide (n < 0)) n.natAbs

/-- `parseInt(t, 10)` of a text without space in front. -/
def parseInt (t : Text) : Double :=
  let (neg, u) := stripSign t
  let digits := u.takeWhile Char.isDigit
  if digits = [] then .nan else .nearest neg (Nat.ofDigitChars 10 digits 0 : Nat)

/-- The exponent at the front of a text, if there is one with a digit. -/
def exponentAhead (t : Text) : Int :=
  match t with
  | [] => 0
  | e :: t =>
    if e = 'e' ∨ e = 'E' then
      let (neg, u) := stripSign t
      signed neg (Nat.ofDigitChars 10 (u.takeWhile Char.isDigit) 0)
    else 0

/-- `parseFloat(t)` of a text without space in front. -/
def parseFloat (t : Text) : Double :=
  let (neg, u) := stripSign t
  if "Infinity".toList <+: u then .infinite neg
  else
    let int := u.span Char.isDigit
    let frac := splitFraction int.2
    let digits := int.1 ++ frac.1
    if digits = [] then .nan
    else .nearest neg ((Nat.ofDigitChars 10 digits 0 : Rat) * 10 ^ (exponentAhead frac.2 - frac.1.length))

/-! Doubles that are integers. -/

theorem toDouble_nonneg {q x : Rat} (hq : 0 ≤ q) (h : toDouble q = some x) : 0 ≤ x := by
  rw [toDouble] at h
  split at h
  · exact (Option.some.inj h).le
  · dsimp only at h
    split at h
    · have hround : 0 ≤ roundEven (q / 2 ^ doubleExponent q) :=
        (Int.floor_nonneg.mpr (by positivity)).trans (floor_le_roundEven _)
      rw [← Option.some.inj h]
      positivity
    · cases h

theorem valid_nearest (neg : Bool) {q : Rat} (hq : 0 ≤ q) : (Double.nearest neg q).Valid := by
  rw [Double.nearest]
  cases h : toDouble q with
  | none => trivial
  | some x =>
    have hx := toDouble_nonneg hq h
    refine ⟨hx, ?_⟩
    obtain rfl | hpos := hx.eq_or_lt
    · rw [toDouble, if_pos rfl]
    · have hq' : 0 < q := lt_of_le_of_ne hq fun h0 => by
        rw [← h0, toDouble, if_pos rfl] at h
        exact hpos.ne (Option.some.inj h)
      exact toDouble_idem hq' h hpos

/-- The double next to an integer is one. -/
theorem toDouble_natCast {n : Nat} {x : Rat} (h : toDouble (n : Rat) = some x) : ∃ m : Nat, x = m := by
  rw [toDouble] at h
  split at h
  · exact ⟨0, by rw [← Option.some.inj h, Nat.cast_zero]⟩
  · dsimp only at h
    split at h
    · have hx := Option.some.inj h
      generalize doubleExponent (n : Rat) = e at hx
      obtain ⟨j, rfl | rfl⟩ := Int.eq_nat_or_neg e
      · have hround : 0 ≤ roundEven ((n : Rat) / 2 ^ (j : Int)) :=
          (Int.floor_nonneg.mpr (by positivity)).trans (floor_le_roundEven _)
        obtain ⟨r, hr⟩ := Int.eq_ofNat_of_zero_le hround
        refine ⟨r * 2 ^ j, ?_⟩
        rw [← hx, hr]
        push_cast
        rw [zpow_natCast]
      · -- nothing is rounded off
        have hexact : (n : Rat) / 2 ^ (-(j : Int)) = ((n * 2 ^ j : Nat) : Int) := by
          rw [zpow_neg, zpow_natCast, div_inv_eq_mul]
          push_cast
          rfl
        have hround : roundEven ((n : Rat) / 2 ^ (-(j : Int))) = ((n * 2 ^ j : Nat) : Int) :=
          roundEven_of_close (by rw [hexact, sub_eq_zero_of_eq rfl, abs_zero]; norm_num)
        refine ⟨n, ?_⟩
        rw [← hx, hround, zpow_neg, zpow_natCast]
        push_cast
        field_simp
    · cases h

theorem floor_of_nat {m : Nat} {x : Rat} (h : x = m) : ((⌊x⌋ : Int) : Rat) = x := by
  rw [h, Int.floor_natCast, Int.cast_natCast]

/-- The integer part of a double is one. -/
theorem toDouble_floor {x : Rat} (hx : 0 ≤ x) (h : toDouble x = some x) :
    ∃ m : Nat, ((⌊x⌋ : Int) : Rat) = m ∧ toDouble (m : Rat) = some (m : Rat) := by
  obtain ⟨m, hm⟩ := Int.eq_ofNat_of_zero_le (Int.floor_nonneg.mpr hx)
  refine ⟨m, by rw [hm]; rfl, ?_⟩
  obtain rfl | hpos := Nat.eq_zero_or_pos m
  · rw [Nat.cast_zero, toDouble, if_pos rfl]
  by_cases hsmall : m < 2 ^ 53
  · exact toDouble_safe hpos hsmall
  · -- a double that large has no fraction
    have hle : ((2 ^ 53 : Nat) : Rat) ≤ x := by
      have hmx : (m : Rat) ≤ x := by
        have hfloor := Int.floor_le x
        rw [hm] at hfloor
        exact_mod_cast hfloor
      have hcast : ((2 ^ 53 : Nat) : Rat) ≤ m := by exact_mod_cast Nat.not_lt.mp hsmall
      exact hcast.trans hmx
    have hxpos : 0 < x := lt_of_lt_of_le (by positivity) hle
    have hexp : (1 : Int) ≤ doubleExponent x := by
      refine le_doubleExponent hxpos (le_trans ?_ hle)
      norm_num
    obtain ⟨⟨k, hk⟩, -⟩ := double_multiple hxpos h
    obtain ⟨j, hj⟩ := Int.eq_ofNat_of_zero_le (by omega : 0 ≤ doubleExponent x)
    have hint : x = ((k * 2 ^ j : Int) : Rat) := by
      rw [hk, hj]
      push_cast
      rw [zpow_natCast]
    have hxm : x = m := by
      rw [hint, Int.floor_intCast] at hm
      rw [hint, hm]
      rfl
    rw [← hxm]
    exact h

/-! The characters of a number that is printed. -/

def isNumberChar (c : Char) : Bool := c.isAlphanum || ".+-".toList.contains c

theorem AllDigits.numberChars {t : Text} (h : AllDigits t) : t.all isNumberChar = true := by
  refine List.all_eq_true.mpr fun c hc => ?_
  rw [isNumberChar, Char.isAlphanum, h c hc, Bool.or_true, Bool.true_or]

theorem exponentText_numberChars (e : Int) : (exponentText e).all isNumberChar = true := by
  rw [exponentText, List.all_append, (allDigits_toDigits _).numberChars, Bool.and_true]
  split <;> decide

theorem placePoint_numberChars {ds : Text} (hds : AllDigits ds) (n : Int) :
    (placePoint ds n).all isNumberChar = true := by
  have hall := hds.numberChars
  have htake : ∀ k, (ds.take k).all isNumberChar = true :=
    fun k => (hds.sublist (List.take_prefix k ds).isInfix).numberChars
  have hdrop : ∀ k, (ds.drop k).all isNumberChar = true :=
    fun k => (hds.sublist (List.drop_suffix k ds).isInfix).numberChars
  have hzeros : ∀ k, (List.replicate k '0').all isNumberChar = true :=
    fun k => (allDigits_zeros k).numberChars
  have hpoint : isNumberChar '.' = true := by decide
  have hzero : ("0.".toList).all isNumberChar = true := by decide
  unfold placePoint
  split
  · rw [List.all_append, hall, hzeros, Bool.and_self]
  · split
    · simp only [List.all_append, List.all_cons, List.all_nil, htake, hdrop, hpoint, Bool.and_self]
    · split
      · simp only [List.all_append, hall, hzero, hzeros, Bool.and_self]
      · split
        · simp only [List.all_append, hall, exponentText_numberChars, Bool.and_self]
        · simp only [List.all_append, List.all_cons, List.all_nil, htake, hdrop, hpoint,
            exponentText_numberChars, Bool.and_self]

theorem doubleText_numberChars (x : Rat) : (doubleText x).all isNumberChar = true := by
  obtain ⟨z, hz⟩ := stripZeros_append (Nat.toDigits 10 (shortest x).digits)
  have hstripped : AllDigits (stripZeros (Nat.toDigits 10 (shortest x).digits)) :=
    (allDigits_toDigits _).sublist ⟨[], List.replicate z '0', by rw [List.nil_append, ← hz]⟩
  exact placePoint_numberChars hstripped _

theorem doubleText_ne_nil {x : Rat} (hx : 0 < x) (h : toDouble x = some x) : doubleText x ≠ [] := by
  obtain ⟨l, -, htext, -⟩ := doubleText_sci hx h false
  obtain ⟨c, t, hhead, -⟩ := l.head_isDigit
  rw [htext, SciLit.unsignedText, hhead]
  exact List.cons_ne_nil _ _

theorem jsText_numberChars (v : Double) : v.jsText.all isNumberChar = true := by
  cases v with
  | nan => decide
  | infinite neg => cases neg <;> decide
  | finite neg x =>
    rw [Double.jsText]
    split
    · decide
    · rw [List.all_append, doubleText_numberChars]
      cases neg <;> decide

theorem jsText_ne_nil {v : Double} (hv : v.Valid) : v.jsText ≠ [] := by
  cases v with
  | nan => decide
  | infinite neg => cases neg <;> decide
  | finite neg x =>
    rw [Double.jsText]
    split
    · decide
    · next hx => exact List.append_ne_nil_of_right_ne_nil _ (doubleText_ne_nil (lt_of_le_of_ne hv.1 (Ne.symm hx)) hv.2)

/-! Integer literals. -/

/-- An integer literal without leading zeros, of a number that is not zero. -/
def NonZeroInt (t : Text) : Prop :=
  ∃ (neg : Bool) (c : Char) (ds : Text),
    t = (if neg then ['-'] else []) ++ c :: ds ∧ AllDigits (c :: ds) ∧ c ≠ '0'

theorem toDigits_head {n : Nat} (hn : 0 < n) : ∃ c ds, Nat.toDigits 10 n = c :: ds ∧ c ≠ '0' := by
  induction n using Nat.strongRecOn with
  | ind n ih =>
    rw [Nat.toDigits_eq_if (by decide)]
    split
    · next hlt =>
      refine ⟨_, _, rfl, ?_⟩
      have hall : ∀ n < 10, 0 < n → Nat.digitChar n ≠ '0' := by decide
      exact hall n hlt hn
    · next hlt =>
      obtain ⟨c, ds, hds, hc⟩ := ih (n / 10) (by omega) (by omega)
      exact ⟨c, ds ++ [Nat.digitChar (n % 10)], by rw [hds]; rfl, hc⟩

theorem nonZeroInt_toDigits (neg : Bool) {n : Nat} (hn : 0 < n) :
    NonZeroInt ((if neg then ['-'] else []) ++ Nat.toDigits 10 n) := by
  obtain ⟨c, ds, hds, hc⟩ := toDigits_head hn
  exact ⟨neg, c, ds, by rw [hds], hds ▸ allDigits_toDigits n, hc⟩

/-- The characters of an integer literal are digits and a sign. -/
theorem NonZeroInt.mem {t : Text} (h : NonZeroInt t) {c : Char} (hc : c ∈ t) : c = '-' ∨ c.isDigit = true := by
  obtain ⟨neg, d, ds, rfl, hdigits, -⟩ := h
  obtain hc | hc := List.mem_append.mp hc
  · cases neg with
    | true => exact .inl (List.mem_singleton.mp hc)
    | false => cases hc
  · exact .inr (hdigits c hc)

/-- The integer part of a double is printed as the literal of an integer that is not zero if and
only if there is one and it is not too large. -/
theorem nonZeroInt_trunc {v : Double} (hv : v.Valid) :
    NonZeroInt v.trunc.jsText ↔ ∃ neg x, v = .finite neg x ∧ 1 ≤ x ∧ x < 10 ^ 21 := by
  cases v with
  | nan =>
    refine ⟨fun h => ?_, fun ⟨_, _, h, _⟩ => (by cases h)⟩
    have := h.mem (c := 'N') (by decide)
    simp at this
  | infinite neg =>
    refine ⟨fun h => ?_, fun ⟨_, _, h, _⟩ => (by cases h)⟩
    have := h.mem (c := 'I') (by cases neg <;> decide)
    simp at this
  | finite neg x =>
    obtain ⟨m, hm, hdouble⟩ := toDouble_floor hv.1 hv.2
    have hrange : (∃ neg' y, Double.finite neg x = .finite neg' y ∧ 1 ≤ y ∧ y < 10 ^ 21) ↔
        1 ≤ x ∧ x < 10 ^ 21 := by
      constructor
      · rintro ⟨neg', y, h, hy⟩
        cases h
        exact hy
      · exact fun hx => ⟨neg, x, rfl, hx⟩
    have hfloor : ⌊x⌋ = (m : Int) := by exact_mod_cast hm
    have hone : 1 ≤ x ↔ 1 ≤ m := by
      rw [← Int.cast_one, ← Int.le_floor, hfloor]
      omega
    have hlarge : x < 10 ^ 21 ↔ m < 10 ^ 21 := by
      have hcast : ((10 : Rat) ^ 21) = ((10 ^ 21 : Int) : Rat) := by norm_num
      rw [hcast, ← Int.floor_lt, hfloor]
      omega
    rw [hrange, hone, hlarge, Double.trunc, hm, Double.jsText]
    split
    · next hzero =>
      have hm0 : m = 0 := by exact_mod_cast hzero
      refine ⟨fun ⟨neg', c, ds, htext, hdigits, hc⟩ => ?_, fun h => by omega⟩
      cases neg' with
      | true => cases htext
      | false =>
        cases htext
        exact absurd rfl hc
    · next hzero =>
      have hm0 : m ≠ 0 := fun h => hzero (by rw [h, Nat.cast_zero])
      constructor
      · refine fun h => ⟨by omega, ?_⟩
        by_contra hle
        have hmem := doubleText_large (by exact_mod_cast Nat.not_lt.mp hle) hdouble
        have := h.mem (List.mem_append_right _ hmem)
        simp at this
      · rintro ⟨-, hlt⟩
        obtain ⟨m', hm', htext, -⟩ := doubleText_nat (Nat.pos_of_ne_zero hm0) hlt hdouble
        rw [htext]
        exact nonZeroInt_toDigits neg hm'

/-- What is read as an integer has no fraction to lose. -/
theorem trunc_nearest_nat (neg : Bool) (n : Nat) : (Double.nearest neg n).trunc = .nearest neg n := by
  rw [Double.nearest]
  cases h : toDouble (n : Rat) with
  | none => rfl
  | some x =>
    obtain ⟨m, hm⟩ := toDouble_natCast h
    rw [Double.trunc, floor_of_nat hm]

theorem parseInt_cases (t : Text) : parseInt t = .nan ∨ ∃ neg, ∃ n : Nat, parseInt t = .nearest neg n := by
  rw [parseInt]
  dsimp only
  split
  · exact .inl rfl
  · exact .inr ⟨_, _, rfl⟩

theorem parseInt_valid (t : Text) : (parseInt t).Valid := by
  obtain h | ⟨neg, n, h⟩ := parseInt_cases t
  · rw [h]
    trivial
  · rw [h]
    exact valid_nearest neg (Nat.cast_nonneg n)

theorem parseFloat_valid (t : Text) : (parseFloat t).Valid := by
  rw [parseFloat]
  dsimp only
  split
  · trivial
  · split
    · trivial
    · exact valid_nearest _ (by positivity)

theorem trunc_valid {v : Double} (hv : v.Valid) : v.trunc.Valid := by
  cases v with
  | finite neg x =>
    obtain ⟨m, hm, hdouble⟩ := toDouble_floor hv.1 hv.2
    rw [Double.trunc, hm]
    exact ⟨Nat.cast_nonneg m, hdouble⟩
  | _ => exact hv

theorem trunc_parseInt (t : Text) : (parseInt t).trunc = parseInt t := by
  obtain h | ⟨neg, n, h⟩ := parseInt_cases t
  · rw [h]
    rfl
  · rw [h, trunc_nearest_nat]

end Onisin.Lib
