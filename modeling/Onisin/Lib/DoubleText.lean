import Onisin.Lib.JsNumber
import Mathlib.Algebra.Order.Field.Power
import Mathlib.Tactic.Linarith
import Mathlib.Tactic.Positivity
import Mathlib.Tactic.NormNum

/-!
Printing and reading doubles. The digits that are printed for a double are rounded back to it,
since seventeen of them lie closer to it than half the way to its neighbours.
-/

set_option autoImplicit false

namespace Onisin.Lib

/-! Rounding. -/

theorem roundEven_of_close {q : Rat} {m : Int} (h : |q - m| < 1 / 2) : roundEven q = m := by
  obtain ⟨hlow, hhigh⟩ := abs_lt.mp h
  have hfloor : ⌊q⌋ = m ∨ ⌊q⌋ = m - 1 := by
    have h₁ : ⌊q⌋ < m + 1 := Int.floor_lt.mpr (by push_cast; linarith)
    have h₂ : m - 1 ≤ ⌊q⌋ := Int.le_floor.mpr (by push_cast; linarith)
    omega
  unfold roundEven
  obtain hfloor | hfloor := hfloor
  · rw [hfloor]
    dsimp only
    rw [if_pos (by linarith)]
  · rw [hfloor]
    dsimp only
    rw [if_neg (by push_cast; linarith), if_pos (by push_cast; linarith)]
    omega

/-- A positive number lies in the binade of its logarithm. -/
theorem log_binade {q : Rat} (h : 0 < q) :
    (2 : Rat) ^ Int.log 2 q ≤ q ∧ q < (2 : Rat) ^ (Int.log 2 q + 1) :=
  ⟨by exact_mod_cast Int.zpow_log_le_self (by decide) h,
    by exact_mod_cast Int.lt_zpow_succ_log_self (by decide : 1 < 2) q⟩

theorem doubleExponent_le {q : Rat} (h : 0 < q) {e : Int} (he : -1074 ≤ e) (hq : q < (2 : Rat) ^ (e + 53)) :
    doubleExponent q ≤ e := by
  have hlog : Int.log 2 q < e + 53 :=
    (Int.lt_zpow_iff_log_lt (by decide) h).mp (by exact_mod_cast hq)
  unfold doubleExponent
  omega

theorem le_doubleExponent {q : Rat} (h : 0 < q) {e : Int} (hq : (2 : Rat) ^ (e + 52) ≤ q) :
    e ≤ doubleExponent q := by
  have hlog : e + 52 ≤ Int.log 2 q :=
    (Int.zpow_le_iff_le_log (by decide) h).mp (by exact_mod_cast hq)
  unfold doubleExponent
  omega

/-- A number closer to a multiple of its unit than half a unit is rounded to the multiple. -/
theorem toDouble_of_close {y : Rat} (hy : 0 < y) {m : Int}
    (h : |y / 2 ^ doubleExponent y - m| < 1 / 2) (hrange : (m : Rat) * 2 ^ doubleExponent y < 2 ^ 1024) :
    toDouble y = some ((m : Rat) * 2 ^ doubleExponent y) := by
  rw [toDouble, if_neg hy.ne']
  dsimp only
  rw [roundEven_of_close h, if_pos hrange]

/-- A positive double is a multiple of its unit. -/
theorem double_multiple {x : Rat} (hx : 0 < x) (h : toDouble x = some x) :
    (∃ m : Int, x = m * (2 : Rat) ^ doubleExponent x) ∧ x < 2 ^ 1024 := by
  rw [toDouble, if_neg hx.ne'] at h
  dsimp only at h
  split at h
  · rename_i hrange
    have heq := Option.some.inj h
    exact ⟨⟨_, heq.symm⟩, heq ▸ hrange⟩
  · cases h

theorem toDouble_multiple {x : Rat} (hx : 0 < x) {m : Int} (hm : x = m * (2 : Rat) ^ doubleExponent x)
    (hrange : x < 2 ^ 1024) : toDouble x = some x := by
  have hunit : (0 : Rat) < 2 ^ doubleExponent x := by positivity
  have hquot : x / 2 ^ doubleExponent x = m := (div_eq_iff hunit.ne').mpr hm
  rw [toDouble_of_close hx (m := m), ← hm]
  · rw [hquot]
    simp
  · rw [← hm]
    exact hrange

theorem doubleExponent_ge (x : Rat) : -1074 ≤ doubleExponent x := le_max_left _ _

theorem lt_zpow_doubleExponent {x : Rat} (hx : 0 < x) : x < (2 : Rat) ^ (doubleExponent x + 53) := by
  refine (log_binade hx).2.trans_le (zpow_le_zpow_right₀ (by norm_num) ?_)
  have hlog := le_max_right (-1074) (Int.log 2 x - 52)
  unfold doubleExponent
  omega

theorem zpow_le_of_normal {x : Rat} (hx : 0 < x) (h : doubleExponent x ≠ -1074) :
    (2 : Rat) ^ (doubleExponent x + 52) ≤ x := by
  have hlog : doubleExponent x + 52 = Int.log 2 x := by
    unfold doubleExponent at h ⊢
    omega
  rw [hlog]
  exact (log_binade hx).1

/-- A number within half a unit of a double, and within a quarter of it where the double starts a
binade and the number is in the one before, is rounded to the double. -/
theorem toDouble_near {x y : Rat} (hx : 0 < x) (h : toDouble x = some x) (hy : 0 < y)
    (hnear : |y - x| < (2 : Rat) ^ doubleExponent x / 2)
    (hlow : y < (2 : Rat) ^ (doubleExponent x + 52) → |y - x| < (2 : Rat) ^ doubleExponent x / 4) :
    toDouble y = some x := by
  obtain ⟨⟨m, hm⟩, hrange⟩ := double_multiple hx h
  have hbase := doubleExponent_ge x
  have hxhigh := lt_zpow_doubleExponent hx
  have hnormal := zpow_le_of_normal hx
  generalize hexp : doubleExponent x = e at *
  have hunit : (0 : Rat) < 2 ^ e := by positivity
  have hyhigh : y < (2 : Rat) ^ (e + 53) := by
    have hm53 : m + 1 ≤ 2 ^ 53 := by
      have hlt : (m : Rat) < 2 ^ 53 := by
        rw [hm, zpow_add₀ (by norm_num), mul_comm ((2 : Rat) ^ e)] at hxhigh
        exact_mod_cast lt_of_mul_lt_mul_right hxhigh hunit.le
      exact_mod_cast hlt
    have hm53' : ((m : Rat) + 1) * 2 ^ e ≤ 2 ^ 53 * 2 ^ e :=
      mul_le_mul_of_nonneg_right (by exact_mod_cast hm53) hunit.le
    have hpow : (2 : Rat) ^ (e + 53) = 2 ^ 53 * 2 ^ e := by
      rw [zpow_add₀ (by norm_num), mul_comm]
      rfl
    have hdist := (abs_lt.mp hnear).2
    rw [hpow]
    linarith
  have hle : doubleExponent y ≤ e := doubleExponent_le hy hbase hyhigh
  by_cases hsame : doubleExponent y = e
  · have hquot : |y / 2 ^ doubleExponent y - m| < 1 / 2 := by
      have hcalc : y / 2 ^ e - m = (y - x) / 2 ^ e := by
        rw [hm]
        field_simp
      rw [hsame, hcalc, abs_div, abs_of_pos hunit, div_lt_iff₀ hunit]
      linarith
    rw [toDouble_of_close hy hquot (by rw [hsame, ← hm]; exact hrange), hsame, ← hm]
  · -- the number is in the binade before, whose unit is half as large
    have hbelow : y < (2 : Rat) ^ (e + 52) := by
      by_contra hge
      exact hsame (le_antisymm hle (le_doubleExponent hy (not_lt.mp hge)))
    have hquarter := hlow hbelow
    have hybase := doubleExponent_ge y
    have hstart := hnormal (by omega)
    have hhalf : (2 : Rat) ^ e = 2 * 2 ^ (e - 1) := by
      rw [← zpow_one_add₀ (by norm_num)]
      congr 1
      omega
    have hpow : (2 : Rat) ^ (e - 1 + 52) * 2 = 2 ^ (e + 52) := by
      rw [← zpow_add_one₀ (by norm_num)]
      congr 1
      omega
    have hge : (2 : Rat) ^ (e - 1 + 52) ≤ y := by
      have hsmall : (2 : Rat) ^ e ≤ 2 ^ (e - 1 + 52) := zpow_le_zpow_right₀ (by norm_num) (by omega)
      have hdist := (abs_lt.mp hquarter).1
      linarith
    have hexpy : doubleExponent y = e - 1 :=
      le_antisymm (by omega) (le_doubleExponent hy hge)
    have hunit' : (0 : Rat) < 2 ^ (e - 1) := by positivity
    have hquot : |y / 2 ^ doubleExponent y - ((2 * m : Int) : Rat)| < 1 / 2 := by
      have hcalc : y / 2 ^ (e - 1) - ((2 * m : Int) : Rat) = (y - x) / 2 ^ (e - 1) := by
        rw [hm, hhalf]
        push_cast
        field_simp
      rw [hexpy, hcalc, abs_div, abs_of_pos hunit', div_lt_iff₀ hunit']
      linarith
    have hvalue : ((2 * m : Int) : Rat) * 2 ^ doubleExponent y = x := by
      rw [hexpy, hm, hhalf]
      push_cast
      ring
    rw [toDouble_of_close hy hquot (by rw [hvalue]; exact hrange), hvalue]

/-! Seventeen digits are enough. -/

theorem scientificAround_near (x : Rat) (hx : 0 < x) (k : Nat) :
    ∃ s ∈ scientificAround x k, |s.value - x| ≤ (10 : Rat) ^ (Int.log 10 x + 1 - k) / 2 := by
  have hpow : (0 : Rat) < 10 ^ (Int.log 10 x + 1 - k) := by positivity
  have hquot : 0 ≤ x / (10 : Rat) ^ (Int.log 10 x + 1 - k) := by positivity
  have hmul : x / (10 : Rat) ^ (Int.log 10 x + 1 - k) * 10 ^ (Int.log 10 x + 1 - k) = x :=
    div_mul_cancel₀ x hpow.ne'
  have hfloor := Nat.floor_le hquot
  have hceil := Nat.lt_floor_add_one (x / (10 : Rat) ^ (Int.log 10 x + 1 - k))
  rw [scientificAround]
  generalize Int.log 10 x + 1 - k = e at *
  generalize x / (10 : Rat) ^ e = q at *
  have hdist : ∀ n : Nat, |(n : Rat) - q| ≤ 1 / 2 → |(⟨n, e⟩ : Scientific).value - x| ≤ (10 : Rat) ^ e / 2 := by
    intro n hn
    have hcalc : (⟨n, e⟩ : Scientific).value - x = ((n : Rat) - q) * 10 ^ e := by
      rw [Scientific.value, sub_mul, hmul]
    rw [hcalc, abs_mul, abs_of_pos hpow]
    have hscaled := mul_le_mul_of_nonneg_right hn hpow.le
    linarith
  split
  · refine ⟨⟨⌊q⌋₊, e⟩, List.mem_cons_self, hdist _ ?_⟩
    rw [abs_le]
    constructor <;> linarith
  · refine ⟨⟨⌊q⌋₊ + 1, e⟩, List.mem_cons_self, hdist _ ?_⟩
    push_cast
    rw [abs_le]
    constructor <;> linarith

theorem seventeen_digits {x : Rat} (hx : 0 < x) (h : toDouble x = some x) :
    ∃ s ∈ scientificAround x 17, toDouble s.value = some x := by
  obtain ⟨s, hs, hdist⟩ := scientificAround_near x hx 17
  refine ⟨s, hs, ?_⟩
  have hlog : (10 : Rat) ^ Int.log 10 x ≤ x := by exact_mod_cast Int.zpow_log_le_self (by decide) hx
  have hpow : (10 : Rat) ^ Int.log 10 x = 10 ^ (Int.log 10 x + 1 - (17 : Nat)) * 10 ^ 16 := by
    rw [← zpow_natCast, ← zpow_add₀ (by norm_num)]
    congr 1
    push_cast
    omega
  have hhigh := lt_zpow_doubleExponent hx
  have hunit : (0 : Rat) < 2 ^ doubleExponent x := by positivity
  have hten : (0 : Rat) < 10 ^ (Int.log 10 x + 1 - (17 : Nat)) := by positivity
  have hpow53 : (2 : Rat) ^ (doubleExponent x + 53) = 2 ^ doubleExponent x * 2 ^ 53 := by
    rw [zpow_add₀ (by norm_num)]
    rfl
  have hpow52 : (2 : Rat) ^ (doubleExponent x + 52) = 2 ^ doubleExponent x * 2 ^ 52 := by
    rw [zpow_add₀ (by norm_num)]
    rfl
  rw [hpow] at hlog
  rw [hpow53] at hhigh
  generalize (10 : Rat) ^ (Int.log 10 x + 1 - (17 : Nat)) = ten at *
  generalize hunitEq : (2 : Rat) ^ doubleExponent x = unit at *
  obtain ⟨hbelow, habove⟩ := abs_le.mp hdist
  refine toDouble_near hx h (by linarith) ?_ ?_
  · rw [hunitEq]
    refine hdist.trans_lt ?_
    linarith
  · intro hlow
    rw [hpow52] at hlow
    rw [hunitEq]
    refine hdist.trans_lt ?_
    linarith

/-- What is printed for a double is rounded to it again. -/
theorem shortest_rounds {x : Rat} (hx : 0 < x) (h : toDouble x = some x) :
    toDouble (shortest x).value = some x := by
  obtain ⟨s, hs, hround⟩ := seventeen_digits hx h
  have hmem : s ∈ (List.range' 1 17).flatMap (scientificAround x) :=
    List.mem_flatMap.mpr ⟨17, by decide, hs⟩
  rw [shortest]
  cases hfind : ((List.range' 1 17).flatMap (scientificAround x)).find? fun s => toDouble s.value = some x with
  | none =>
    have hnone := List.find?_eq_none.mp hfind s hmem
    exact absurd (decide_eq_true hround) hnone
  | some s' =>
    have hsome := List.find?_some hfind
    exact of_decide_eq_true hsome

/-! Texts in scientific notation. -/

/-- A decimal literal with an exponent, if there is one. -/
structure SciLit where
  lit : DecimalLit
  exp : Option Int

def SciLit.expText (l : SciLit) : Text := (l.exp.map exponentText).getD []

def SciLit.text (l : SciLit) : Text := l.lit.text ++ l.expText

def SciLit.magnitude (l : SciLit) : Rat :=
  Nat.ofDigitChars 10 (l.lit.int ++ l.lit.frac) 0 * (10 : Rat) ^ (l.exp.getD 0 - l.lit.frac.length)

def SciLit.value (l : SciLit) : Rat := if l.lit.neg then -l.magnitude else l.magnitude

theorem exponentText_eq (e : Int) :
    exponentText e = 'e' :: (if e < 0 then '-' else '+') :: Nat.toDigits 10 e.natAbs := by
  rw [exponentText]
  have hneg : "e-".toList = ['e', '-'] := by decide
  have hpos : "e+".toList = ['e', '+'] := by decide
  split <;> simp [hneg, hpos]

theorem exponentOf_text (e : Int) : exponentOf (exponentText e) = e := by
  rw [exponentText_eq]
  split
  · rw [exponentOf, if_pos (.inl rfl), Nat.ofDigitChars_ten_toDigits]
    omega
  · rw [exponentOf, if_pos (.inl rfl), Nat.ofDigitChars_ten_toDigits]
    omega

theorem SciLit.expText_head (l : SciLit) : ∀ c ∈ l.expText.head?, c = 'e' := by
  rw [SciLit.expText]
  cases l.exp with
  | none => exact nofun
  | some e =>
    rw [Option.map_some, Option.getD_some, exponentText_eq]
    rintro c hc
    cases hc
    rfl

theorem SciLit.exponentOf_expText (l : SciLit) : exponentOf l.expText = l.exp.getD 0 := by
  rw [SciLit.expText]
  cases l.exp with
  | none => rfl
  | some e => exact exponentOf_text e

/-- The parts a reader finds. -/
theorem SciLit.scanned (l : SciLit) :
    (l.lit.unsigned ++ l.expText).span Char.isDigit = (l.lit.int, l.lit.fracText ++ l.expText) ∧
      splitFraction (l.lit.fracText ++ l.expText) = (l.lit.frac, l.expText) := by
  have hexp : ∀ c ∈ l.expText.head?, c.isDigit = false ∧ c ≠ '.' := by
    intro c hc
    rw [l.expText_head c hc]
    decide
  have hbehind : ∀ c ∈ (l.lit.fracText ++ l.expText).head?, c.isDigit = false := by
    intro c hc
    rw [DecimalLit.fracText] at hc
    split at hc
    · exact (hexp c hc).1
    · cases hc
      rfl
  refine ⟨?_, ?_⟩
  · rw [DecimalLit.unsigned, List.append_assoc]
    exact span_append l.lit.int_digits hbehind
  · by_cases hnil : l.lit.frac = []
    · rw [DecimalLit.fracText, if_pos hnil, List.nil_append, hnil, splitFraction]
      exact fun t heq => (hexp '.' (by rw [heq]; rfl)).2 rfl
    · rw [DecimalLit.fracText, if_neg hnil, List.cons_append, splitFraction]
      exact span_append l.lit.frac_digits fun c hc => (hexp c hc).1

theorem unsignedValue_sci (l : SciLit) : unsignedValue (l.lit.unsigned ++ l.expText) = l.magnitude := by
  obtain ⟨hint, hfrac⟩ := l.scanned
  rw [unsignedValue, hint]
  dsimp only
  rw [hfrac, l.exponentOf_expText, SciLit.magnitude]

theorem SciLit.head_isDigit (l : SciLit) : ∃ c t, l.lit.unsigned = c :: t ∧ c.isDigit = true := by
  obtain ⟨c, int, hint⟩ := List.exists_cons_of_ne_nil l.lit.int_ne
  exact ⟨c, int ++ l.lit.fracText, by rw [DecimalLit.unsigned, hint, List.cons_append],
    l.lit.int_digits c (hint ▸ List.mem_cons_self)⟩

theorem decimal_sci (l : SciLit) : decimal l.text = l.value := by
  rw [SciLit.text, SciLit.value, DecimalLit.text]
  cases hneg : l.lit.neg with
  | true =>
    rw [if_pos rfl, if_pos rfl, List.cons_append, decimal, unsignedValue_sci]
  | false =>
    rw [if_neg (by decide), if_neg (by decide), decimal, unsignedValue_sci]
    intro t heq
    obtain ⟨c, t', hhead, hdigit⟩ := l.head_isDigit
    rw [hhead] at heq
    obtain ⟨rfl, -⟩ := List.cons.inj heq
    exact absurd hdigit (by decide)

/-! Digits with a point are such a text. -/

theorem AllDigits.append {s t : Text} (hs : AllDigits s) (ht : AllDigits t) : AllDigits (s ++ t) :=
  fun c hc => (List.mem_append.mp hc).elim (hs c) (ht c)

theorem allDigits_zeros (n : Nat) : AllDigits (List.replicate n '0') := by
  intro c hc
  rw [List.eq_of_mem_replicate hc]
  decide

theorem AllDigits.sublist {s t : Text} (ht : AllDigits t) (h : s <:+: t) : AllDigits s :=
  fun c hc => ht c (h.subset hc)

theorem ofDigitChars_zeros (n : Nat) (ds : Text) :
    Nat.ofDigitChars 10 (List.replicate n '0' ++ ds) 0 = Nat.ofDigitChars 10 ds 0 := by
  rw [Nat.ofDigitChars_append, Nat.ofDigitChars_replicate_zero, Nat.mul_zero]

theorem ofDigitChars_append_zeros (n : Nat) (ds : Text) :
    Nat.ofDigitChars 10 (ds ++ List.replicate n '0') 0 = 10 ^ n * Nat.ofDigitChars 10 ds 0 := by
  rw [Nat.ofDigitChars_append, Nat.ofDigitChars_replicate_zero]

/-- The text of a literal without a sign. -/
def SciLit.unsignedText (l : SciLit) : Text := l.lit.unsigned ++ l.expText

theorem placePoint_sci {ds : Text} (hds : AllDigits ds) (hne : ds ≠ []) (n : Int) (neg : Bool) :
    ∃ l : SciLit, l.lit.neg = neg ∧ placePoint ds n = l.unsignedText ∧
      l.magnitude = Nat.ofDigitChars 10 ds 0 * (10 : Rat) ^ (n - ds.length) := by
  have hpos : 0 < ds.length := List.length_pos_iff.mpr hne
  have htake : AllDigits (ds.take n.toNat) := hds.sublist (List.take_prefix _ _).isInfix
  have hdrop : AllDigits (ds.drop n.toNat) := hds.sublist (List.drop_suffix _ _).isInfix
  rw [placePoint]
  split
  · -- zeros behind the digits
    rename_i hn
    refine ⟨⟨⟨neg, ds ++ List.replicate (n.toNat - ds.length) '0', [], by simp [hne],
      hds.append (allDigits_zeros _), nofun⟩, none⟩, rfl, ?_, ?_⟩
    · simp [SciLit.unsignedText, SciLit.expText, DecimalLit.unsigned, DecimalLit.fracText]
    · have hexp : n - ds.length = ((n.toNat - ds.length : Nat) : Int) := by omega
      rw [SciLit.magnitude, hexp, zpow_natCast]
      simp only [List.append_nil, ofDigitChars_append_zeros]
      push_cast
      simp [mul_comm]
  split
  · -- the point between the digits
    rename_i hk hn
    have hlt : n.toNat < ds.length := by omega
    have hfrac : ds.drop n.toNat ≠ [] := by simpa using hlt
    refine ⟨⟨⟨neg, ds.take n.toNat, ds.drop n.toNat, by simp [hne]; omega, htake, hdrop⟩, none⟩, rfl, ?_, ?_⟩
    · simp [SciLit.unsignedText, SciLit.expText, DecimalLit.unsigned, DecimalLit.fracText, hfrac]
    · have hexp : (0 : Int) - (ds.drop n.toNat).length = n - ds.length := by
        rw [List.length_drop]
        omega
      rw [SciLit.magnitude]
      simp only [List.take_append_drop, Option.getD_none, hexp]
  split
  · -- the point in front of the digits
    rename_i hk hn hsmall
    have hdigits : AllDigits (List.replicate n.natAbs '0' ++ ds) := (allDigits_zeros _).append hds
    have hzero : "0.".toList = ['0', '.'] := by decide
    refine ⟨⟨⟨neg, ['0'], List.replicate n.natAbs '0' ++ ds, nofun, allDigits_zeros 1, hdigits⟩, none⟩,
      rfl, ?_, ?_⟩
    · simp [SciLit.unsignedText, SciLit.expText, DecimalLit.unsigned, DecimalLit.fracText, hne, hzero]
    · have hexp : (0 : Int) - (List.replicate n.natAbs '0' ++ ds).length = n - ds.length := by
        rw [List.length_append, List.length_replicate]
        omega
      have hvalue : Nat.ofDigitChars 10 (['0'] ++ (List.replicate n.natAbs '0' ++ ds)) 0 =
          Nat.ofDigitChars 10 ds 0 := by
        rw [← List.append_assoc]
        exact ofDigitChars_zeros (n.natAbs + 1) ds
      rw [SciLit.magnitude, hvalue]
      simp only [Option.getD_none, hexp]
  split
  · -- one digit and an exponent
    rename_i hone
    refine ⟨⟨⟨neg, ds, [], hne, hds, nofun⟩, some (n - 1)⟩, rfl, ?_, ?_⟩
    · simp [SciLit.unsignedText, SciLit.expText, DecimalLit.unsigned, DecimalLit.fracText]
    · simp [SciLit.magnitude, hone]
  · -- more digits and an exponent
    rename_i hone
    have hfrac : ds.drop 1 ≠ [] := by
      intro hnil
      have hle := List.drop_eq_nil_iff.mp hnil
      omega
    refine ⟨⟨⟨neg, ds.take 1, ds.drop 1, by simp [hne], hds.sublist (List.take_prefix _ _).isInfix,
      hds.sublist (List.drop_suffix _ _).isInfix⟩, some (n - 1)⟩, rfl, ?_, ?_⟩
    · rw [SciLit.unsignedText, SciLit.expText, DecimalLit.unsigned, DecimalLit.fracText, if_neg hfrac]
      simp
    · have hexp : n - 1 - ((ds.drop 1).length : Int) = n - ds.length := by
        rw [List.length_drop]
        omega
      rw [SciLit.magnitude]
      simp only [List.take_append_drop, Option.getD_some, hexp]

/-! Whole numbers as text. -/

theorem stripZeros_append (ds : Text) :
    ∃ z, ds = stripZeros ds ++ List.replicate z '0' := by
  refine ⟨(ds.reverse.takeWhile (· = '0')).length, ?_⟩
  have hzeros : (ds.reverse.takeWhile (· = '0')).reverse =
      List.replicate (ds.reverse.takeWhile (· = '0')).length '0' := by
    rw [List.eq_replicate_iff, List.length_reverse]
    refine ⟨rfl, fun c hc => ?_⟩
    have hall := List.all_eq_true.mp List.all_takeWhile c (List.mem_reverse.mp hc)
    exact of_decide_eq_true hall
  rw [stripZeros, ← hzeros, ← List.reverse_append, List.takeWhile_append_dropWhile, List.reverse_reverse]

/-- The digits of a positive double as a text, which denotes what they do. -/
theorem doubleText_sci {x : Rat} (hx : 0 < x) (h : toDouble x = some x) (neg : Bool) :
    ∃ l : SciLit, l.lit.neg = neg ∧ doubleText x = l.unsignedText ∧ l.magnitude = (shortest x).value := by
  have hround := shortest_rounds hx h
  have hdigits : (shortest x).digits ≠ 0 := by
    intro hzero
    rw [Scientific.value, hzero, Nat.cast_zero, zero_mul, toDouble, if_pos rfl] at hround
    exact hx.ne (Option.some.inj hround)
  rw [doubleText]
  generalize shortest x = s at *
  obtain ⟨z, hz⟩ := stripZeros_append (Nat.toDigits 10 s.digits)
  have hall := allDigits_toDigits s.digits
  have hvalue : Nat.ofDigitChars 10 (Nat.toDigits 10 s.digits) 0 =
      10 ^ z * Nat.ofDigitChars 10 (stripZeros (Nat.toDigits 10 s.digits)) 0 := by
    rw [← ofDigitChars_append_zeros, ← hz]
  rw [Nat.ofDigitChars_ten_toDigits] at hvalue
  have hne : stripZeros (Nat.toDigits 10 s.digits) ≠ [] := by
    intro hnil
    rw [hnil, Nat.ofDigitChars_nil, Nat.mul_zero] at hvalue
    exact hdigits hvalue
  have hstripped : AllDigits (stripZeros (Nat.toDigits 10 s.digits)) :=
    hall.sublist ⟨[], List.replicate z '0', by rw [List.nil_append, ← hz]⟩
  obtain ⟨l, hneg, htext, hmag⟩ := placePoint_sci hstripped hne
    (s.exponent + (Nat.toDigits 10 s.digits).length) neg
  refine ⟨l, hneg, htext, ?_⟩
  have hlen : (Nat.toDigits 10 s.digits).length = (stripZeros (Nat.toDigits 10 s.digits)).length + z := by
    conv_lhs => rw [hz]
    simp
  have hexp : s.exponent + ((Nat.toDigits 10 s.digits).length : Int) -
      (stripZeros (Nat.toDigits 10 s.digits)).length = s.exponent + z := by
    rw [hlen]
    push_cast
    omega
  rw [hmag, hexp, Scientific.value]
  generalize Nat.ofDigitChars 10 (stripZeros (Nat.toDigits 10 s.digits)) 0 = v at hvalue
  rw [hvalue, zpow_add₀ (by norm_num), zpow_natCast]
  push_cast
  ring

/-! Integers. -/

theorem roundEven_le {q : Rat} {m : Int} (h : q ≤ m) : roundEven q ≤ m := by
  have hfloor : ⌊q⌋ ≤ m := by exact_mod_cast (Int.floor_le q).trans h
  have hround : roundEven q ≤ ⌊q⌋ ∨ (roundEven q = ⌊q⌋ + 1 ∧ (⌊q⌋ : Rat) < q) := by
    unfold roundEven
    dsimp only
    split
    · exact .inl le_rfl
    · rename_i hhalf
      have hlt : (⌊q⌋ : Rat) < q := by linarith
      split
      · exact .inr ⟨rfl, hlt⟩
      · split
        · exact .inl le_rfl
        · exact .inr ⟨rfl, hlt⟩
  obtain hround | ⟨hround, hlt⟩ := hround
  · omega
  · have hlt' : ⌊q⌋ < m := by exact_mod_cast hlt.trans_le h
    omega

theorem floor_le_roundEven (q : Rat) : ⌊q⌋ ≤ roundEven q := by
  unfold roundEven
  dsimp only
  split
  · exact le_rfl
  · split
    · omega
    · split <;> omega

theorem le_roundEven {q : Rat} {m : Int} (h : (m : Rat) ≤ q) : m ≤ roundEven q :=
  (Int.le_floor.mpr h).trans (floor_le_roundEven q)

/-- What a number is rounded to is a double. -/
theorem toDouble_idem {q x : Rat} (hq : 0 < q) (h : toDouble q = some x) (hx : 0 < x) :
    toDouble x = some x := by
  have hhigh := lt_zpow_doubleExponent hq
  have hbase := doubleExponent_ge q
  rw [toDouble, if_neg hq.ne'] at h
  dsimp only at h
  split at h
  · rename_i hrange
    obtain rfl := Option.some.inj h
    generalize doubleExponent q = e at *
    have hunit : (0 : Rat) < 2 ^ e := by positivity
    have hr : roundEven (q / 2 ^ e) ≤ 2 ^ 53 := by
      refine roundEven_le ?_
      rw [div_le_iff₀ hunit]
      rw [zpow_add₀ (by norm_num)] at hhigh
      push_cast
      have hpow : (2 : Rat) ^ (53 : Int) = 2 ^ 53 := rfl
      rw [hpow] at hhigh
      linarith
    generalize roundEven (q / 2 ^ e) = r at *
    by_cases hle : doubleExponent (r * (2 : Rat) ^ e) ≤ e
    · generalize hexp : doubleExponent (r * (2 : Rat) ^ e) = e' at *
      refine toDouble_multiple hx (m := r * 2 ^ (e - e').toNat) ?_ hrange
      rw [hexp]
      push_cast
      rw [← zpow_natCast, Int.toNat_of_nonneg (by omega), mul_assoc, ← zpow_add₀ (by norm_num)]
      congr 2
      omega
    · -- rounding reached the next binade
      have hpow : ∀ k : Nat, (2 : Rat) ^ (e + k) = 2 ^ k * 2 ^ e := by
        intro k
        rw [zpow_add₀ (by norm_num), mul_comm, zpow_natCast]
      have htop : r = 2 ^ 53 := by
        by_contra hne
        refine hle (doubleExponent_le hx hbase ?_)
        have hlt : (r : Rat) < 2 ^ 53 := by exact_mod_cast lt_of_le_of_ne hr hne
        have hscaled := mul_lt_mul_of_pos_right hlt hunit
        exact hscaled.trans_eq (hpow 53).symm
      have hvalue : (r : Rat) * 2 ^ e = 2 ^ (e + 53) := by
        rw [htop]
        exact (hpow 53).symm
      have hexp : doubleExponent (r * (2 : Rat) ^ e) = e + 1 := by
        rw [hvalue] at hx ⊢
        refine le_antisymm (doubleExponent_le hx (by omega) ?_) (le_doubleExponent hx ?_)
        · exact zpow_lt_zpow_right₀ (by norm_num) (by omega)
        · exact zpow_le_zpow_right₀ (by norm_num) (by omega)
      refine toDouble_multiple hx (m := 2 ^ 52) ?_ hrange
      rw [hexp, htop, zpow_add_one₀ (by norm_num)]
      push_cast
      ring
  · cases h

/-- Integers of at most 53 bits are doubles. -/
theorem toDouble_safe {n : Nat} (hn : 0 < n) (h : n < 2 ^ 53) : toDouble n = some (n : Rat) := by
  have hpos : (0 : Rat) < n := by exact_mod_cast hn
  have hrange : (n : Rat) < 2 ^ 53 := by exact_mod_cast h
  have hexp : doubleExponent (n : Rat) ≤ 0 := doubleExponent_le hpos (by decide) (by simpa using hrange)
  generalize hunit : doubleExponent (n : Rat) = e at *
  refine toDouble_multiple hpos (m := n * 2 ^ (-e).toNat) ?_ ?_
  · rw [hunit]
    push_cast
    rw [← zpow_natCast, Int.toNat_of_nonneg (by omega), mul_assoc, ← zpow_add₀ (by norm_num),
      neg_add_cancel, zpow_zero, mul_one]
  · exact hrange.trans (pow_lt_pow_right₀ (by norm_num) (by norm_num))

/-- And no other integer is rounded to one of them. -/
theorem toDouble_eq_safe {n m : Nat} (hn : 0 < n) (hm : m < 2 ^ 53) (h : toDouble n = some (m : Rat)) :
    n = m := by
  have hpos : (0 : Rat) < n := by exact_mod_cast hn
  by_cases hsafe : n < 2 ^ 53
  · rw [toDouble_safe hn hsafe] at h
    exact_mod_cast Option.some.inj h
  · -- a larger one is rounded to at least 2 ^ 53
    have hlarge : (2 : Rat) ^ (1 + 52 : Int) ≤ n := by
      have hcast : (2 : Rat) ^ 53 ≤ n := by exact_mod_cast Nat.le_of_not_lt hsafe
      exact hcast
    have hexp := le_doubleExponent hpos hlarge
    have hlow := zpow_le_of_normal hpos (by omega)
    rw [toDouble, if_neg hpos.ne'] at h
    dsimp only at h
    split at h
    · have heq := Option.some.inj h
      have hunit : (0 : Rat) < 2 ^ doubleExponent (n : Rat) := by positivity
      have hr : 2 ^ 52 ≤ roundEven (n / 2 ^ doubleExponent (n : Rat)) := by
        refine le_roundEven ?_
        rw [le_div_iff₀ hunit]
        rw [zpow_add₀ (by norm_num), mul_comm] at hlow
        exact_mod_cast hlow
      have hr' : (2 : Rat) ^ 52 ≤ roundEven (n / 2 ^ doubleExponent (n : Rat)) := by exact_mod_cast hr
      have htwo : (2 : Rat) ≤ 2 ^ doubleExponent (n : Rat) := by
        have hmono := zpow_le_zpow_right₀ (by norm_num : (1 : Rat) ≤ 2) hexp
        rwa [zpow_one] at hmono
      have hm' : (m : Rat) < 2 ^ 53 := by exact_mod_cast hm
      have hprod := mul_le_mul hr' htwo (by norm_num) ((by positivity : (0 : Rat) ≤ 2 ^ 52).trans hr')
      rw [heq] at hprod
      linarith
    · cases h

/-- Integers of at most 64 bits are rounded to integers that are not much larger. -/
theorem toDouble_nat {n : Nat} (hn : 0 < n) (hmax : n < 2 ^ 64) :
    ∃ m : Nat, 0 < m ∧ m ≤ 2 ^ 64 ∧ toDouble n = some (m : Rat) ∧ toDouble m = some (m : Rat) := by
  by_cases hsafe : n < 2 ^ 53
  · exact ⟨n, hn, hmax.le, toDouble_safe hn hsafe, toDouble_safe hn hsafe⟩
  have hpos : (0 : Rat) < n := by exact_mod_cast hn
  have hlow := (log_binade hpos).1
  have hlog : Int.log 2 (n : Rat) = Nat.log 2 n := Int.log_natCast 2 n
  have hlogmax : Nat.log 2 n < 64 := Nat.log_lt_of_lt_pow hn.ne' hmax
  have hlogmin : 53 ≤ Nat.log 2 n := Nat.le_log_of_pow_le (by decide) (by omega)
  have hexp : doubleExponent n = ((Nat.log 2 n - 52 : Nat) : Int) := by
    unfold doubleExponent
    omega
  have hunit : (0 : Rat) < 2 ^ doubleExponent (n : Rat) := by positivity
  have hhigh := lt_zpow_doubleExponent hpos
  have hdouble : ∃ m : Nat, 0 < m ∧ m ≤ 2 ^ 64 ∧
      (roundEven (n / 2 ^ doubleExponent (n : Rat)) : Rat) * 2 ^ doubleExponent (n : Rat) = m := by
    rw [hexp, zpow_natCast] at hunit ⊢
    rw [hexp, zpow_add₀ (by norm_num), zpow_natCast] at hhigh
    rw [hlog, zpow_natCast, show Nat.log 2 n = (Nat.log 2 n - 52) + 52 by omega, pow_add] at hlow
    have hj : Nat.log 2 n - 52 ≤ 11 := by omega
    generalize Nat.log 2 n - 52 = j at *
    have hrlow : 2 ^ 52 ≤ roundEven ((n : Rat) / 2 ^ j) := by
      refine le_roundEven ?_
      rw [le_div_iff₀ hunit]
      push_cast
      linarith
    have hrhigh : roundEven ((n : Rat) / 2 ^ j) ≤ 2 ^ 53 := by
      refine roundEven_le ?_
      rw [div_le_iff₀ hunit]
      push_cast
      have hpow : (2 : Rat) ^ (53 : Int) = 2 ^ 53 := rfl
      rw [hpow] at hhigh
      linarith
    generalize roundEven ((n : Rat) / 2 ^ j) = r at *
    obtain ⟨r, rfl⟩ : ∃ k : Nat, r = k := ⟨r.toNat, by omega⟩
    refine ⟨r * 2 ^ j, ?_, ?_, by push_cast; rfl⟩
    · have hr : 0 < r := by omega
      positivity
    · have hpowj : 2 ^ j ≤ 2 ^ 11 := Nat.pow_le_pow_right (by decide) hj
      have hr : r ≤ 2 ^ 53 := by omega
      calc r * 2 ^ j ≤ 2 ^ 53 * 2 ^ 11 := Nat.mul_le_mul hr hpowj
        _ = 2 ^ 64 := by norm_num
  obtain ⟨m, hm, hmmax, hvalue⟩ := hdouble
  have hround : toDouble n = some (m : Rat) := by
    rw [toDouble, if_neg hpos.ne']
    dsimp only
    rw [hvalue, if_pos]
    have hm64 : (m : Rat) ≤ 2 ^ 64 := by exact_mod_cast hmmax
    exact hm64.trans_lt (pow_lt_pow_right₀ (by norm_num) (by norm_num))
  exact ⟨m, hm, hmmax, hround, toDouble_idem hpos hround (by exact_mod_cast hm)⟩

theorem toDigits_zeros {a : Nat} (ha : 0 < a) (j : Nat) :
    Nat.toDigits 10 (a * 10 ^ j) = Nat.toDigits 10 a ++ List.replicate j '0' := by
  induction j with
  | zero => simp
  | succ j ih =>
    have hstep : a * 10 ^ (j + 1) = 10 * (a * 10 ^ j) + 0 := by ring
    rw [hstep, ← Nat.toDigits_append_toDigits (by decide) (by positivity) (by decide), ih, List.replicate_succ',
      List.append_assoc]
    rfl

/-- The fewest digits are at most as many as any that will do. -/
theorem shortest_mem {x : Rat} {d : Nat} (hd : d ≤ 17) {s : Scientific}
    (hs : s ∈ (List.range' 1 d).flatMap (scientificAround x)) (hround : toDouble s.value = some x) :
    shortest x ∈ (List.range' 1 d).flatMap (scientificAround x) := by
  have hsplit : List.range' 1 17 = List.range' 1 d ++ List.range' (1 + d) (17 - d) := by
    have happend := @List.range'_append_1 1 d (17 - d)
    rw [happend, Nat.add_sub_cancel' hd]
  rw [shortest, hsplit, List.flatMap_append, List.find?_append]
  cases hfind : ((List.range' 1 d).flatMap (scientificAround x)).find? fun s => toDouble s.value = some x with
  | none =>
    have hnone := List.find?_eq_none.mp hfind s hs
    exact absurd (decide_eq_true hround) hnone
  | some s' => exact List.mem_of_find?_eq_some hfind

/-- Among the digits of an integer there is no fraction. -/
theorem shortest_integer {m : Nat} (hm : 0 < m) (h : toDouble (m : Rat) = some (m : Rat)) :
    ∃ k, k ≤ Nat.log 10 m + 1 ∧ shortest m ∈ scientificAround m k := by
  have hpos : (0 : Rat) < m := by exact_mod_cast hm
  have hlog : Int.log 10 (m : Rat) = Nat.log 10 m := Int.log_natCast 10 m
  have hmem : ∃ d, d ≤ 17 ∧ d ≤ Nat.log 10 m + 1 ∧
      ∃ s ∈ (List.range' 1 d).flatMap (scientificAround (m : Rat)), toDouble s.value = some (m : Rat) := by
    by_cases hlong : 17 ≤ Nat.log 10 m + 1
    · obtain ⟨s, hs, hround⟩ := seventeen_digits hpos h
      exact ⟨17, le_rfl, hlong, s, List.mem_flatMap.mpr ⟨17, by decide, hs⟩, hround⟩
    · -- the integer itself is among the candidates
      refine ⟨Nat.log 10 m + 1, by omega, le_rfl, ⟨m, 0⟩, ?_, ?_⟩
      · refine List.mem_flatMap.mpr ⟨Nat.log 10 m + 1, by rw [List.mem_range'_1]; omega, ?_⟩
        rw [scientificAround, hlog]
        simp
      · rw [Scientific.value]
        simpa using h
  obtain ⟨d, hd, hle, s, hs, hround⟩ := hmem
  obtain ⟨k, hk, hshort⟩ := List.mem_flatMap.mp (shortest_mem hd hs hround)
  rw [List.mem_range'_1] at hk
  exact ⟨k, by omega, hshort⟩

theorem scientificAround_bounds {x : Rat} {k : Nat} {s : Scientific} (hx : 0 < x)
    (h : s ∈ scientificAround x k) : s.exponent = Int.log 10 x + 1 - k ∧ s.digits ≤ 10 ^ k := by
  have hpow : (0 : Rat) < 10 ^ (Int.log 10 x + 1 - k) := by positivity
  have hfloor : ⌊x / (10 : Rat) ^ (Int.log 10 x + 1 - k)⌋₊ < 10 ^ k := by
    rw [Nat.floor_lt (by positivity), div_lt_iff₀ hpow]
    push_cast
    rw [← zpow_natCast, ← zpow_add₀ (by norm_num), add_sub_cancel]
    exact_mod_cast Int.lt_zpow_succ_log_self (by decide : 1 < 10) x
  rw [scientificAround] at h
  split at h
  all_goals
    simp only [List.mem_cons, List.not_mem_nil, or_false] at h
    obtain rfl | rfl := h
    · exact ⟨rfl, by first | exact hfloor.le | exact hfloor⟩
    · exact ⟨rfl, by first | exact hfloor.le | exact hfloor⟩

theorem toDouble_ten_pow : toDouble ((10 ^ 21 : Nat) : Rat) = some ((10 ^ 21 : Nat) : Rat) := by
  have hpos : (0 : Rat) < ((10 ^ 21 : Nat) : Rat) := by positivity
  have hexp : doubleExponent ((10 ^ 21 : Nat) : Rat) = 17 := by
    refine le_antisymm (doubleExponent_le hpos (by decide) ?_) (le_doubleExponent hpos ?_)
    · norm_num
    · norm_num
  have hrange : ((10 ^ 21 : Nat) : Rat) < 2 ^ 70 := by norm_num
  refine toDouble_multiple hpos (m := 5 ^ 21 * 2 ^ 4) ?_
    (hrange.trans_le (pow_le_pow_right₀ (by norm_num) (by norm_num)))
  rw [hexp]
  norm_num

/-- A double that is an integer below the largest power of ten that is printed without an exponent
is printed as an integer. -/
theorem doubleText_nat {m : Nat} (hm : 0 < m) (hmax : m < 10 ^ 21) (h : toDouble (m : Rat) = some (m : Rat)) :
    ∃ m' : Nat, 0 < m' ∧ doubleText m = Nat.toDigits 10 m' ∧ toDouble m' = some (m : Rat) := by
  have hpos : (0 : Rat) < m := by exact_mod_cast hm
  have hround := shortest_rounds hpos h
  obtain ⟨k, hk, hshort⟩ := shortest_integer hm h
  obtain ⟨hexp, hdigits⟩ := scientificAround_bounds hpos hshort
  rw [Int.log_natCast] at hexp
  have hlog : Nat.log 10 m < 21 := Nat.log_lt_of_lt_pow hm.ne' hmax
  rw [doubleText]
  generalize shortest (m : Rat) = s at *
  have hne : 0 < s.digits := by
    refine Nat.pos_of_ne_zero fun hzero => ?_
    rw [Scientific.value, hzero, Nat.cast_zero, zero_mul, toDouble, if_pos rfl] at hround
    exact hpos.ne (Option.some.inj hround)
  have hvalue : s.value = ((s.digits * 10 ^ (Nat.log 10 m + 1 - k) : Nat) : Rat) := by
    have hexp' : s.exponent = ((Nat.log 10 m + 1 - k : Nat) : Int) := by omega
    rw [Scientific.value, hexp', zpow_natCast]
    push_cast
    rfl
  rw [hvalue] at hround
  -- rounding up to the power of ten itself would give another double
  have hplaces : (Nat.toDigits 10 s.digits).length + (Nat.log 10 m + 1 - k) ≤ 21 := by
    by_cases hcarry : s.digits = 10 ^ k
    · have hsum : 10 ^ k * 10 ^ (Nat.log 10 m + 1 - k) = 10 ^ (Nat.log 10 m + 1) := by
        rw [← pow_add]
        congr 1
        omega
      have hlog20 : Nat.log 10 m ≠ 20 := by
        intro h20
        rw [hcarry, hsum, h20] at hround
        have hsame : ((10 ^ 21 : Nat) : Rat) = (m : Rat) :=
          Option.some.inj (toDouble_ten_pow.symm.trans hround)
        have heq : 10 ^ 21 = m := by exact_mod_cast hsame
        omega
      have hlen : (Nat.toDigits 10 s.digits).length ≤ k + 1 := by
        rw [Nat.length_toDigits_le_iff (by decide) (by omega), Nat.pow_succ]
        omega
      omega
    · have hlen : (Nat.toDigits 10 s.digits).length ≤ max k 1 := by
        rw [Nat.length_toDigits_le_iff (by decide) (by omega)]
        calc s.digits < 10 ^ k := lt_of_le_of_ne hdigits hcarry
          _ ≤ 10 ^ max k 1 := Nat.pow_le_pow_right (by decide) (le_max_left _ _)
      have hk0 : k ≠ 0 := by
        rintro rfl
        rw [pow_zero] at hdigits hcarry
        omega
      omega
  refine ⟨s.digits * 10 ^ (Nat.log 10 m + 1 - k), by positivity, ?_, hround⟩
  obtain ⟨z, hz⟩ := stripZeros_append (Nat.toDigits 10 s.digits)
  have hlenz : (Nat.toDigits 10 s.digits).length = (stripZeros (Nat.toDigits 10 s.digits)).length + z := by
    conv_lhs => rw [hz]
    simp
  have hzeros : (s.exponent + ((Nat.toDigits 10 s.digits).length : Int)).toNat -
      (stripZeros (Nat.toDigits 10 s.digits)).length = z + (Nat.log 10 m + 1 - k) := by
    omega
  rw [placePoint, if_pos (by omega), hzeros, List.replicate_add, ← List.append_assoc, ← hz,
    toDigits_zeros hne]

/-! Large numbers. -/

theorem scientificAround_low {x : Rat} {k : Nat} {s : Scientific} (hx : 0 < x) (hk : 0 < k)
    (h : s ∈ scientificAround x k) : 10 ^ (k - 1) ≤ s.digits := by
  have hpow : (0 : Rat) < 10 ^ (Int.log 10 x + 1 - k) := by positivity
  have hfloor : 10 ^ (k - 1) ≤ ⌊x / (10 : Rat) ^ (Int.log 10 x + 1 - k)⌋₊ := by
    rw [Nat.le_floor_iff (by positivity), le_div_iff₀ hpow]
    have hexp : ((k - 1 : Nat) : Int) + (Int.log 10 x + 1 - k) = Int.log 10 x := by omega
    push_cast
    rw [← zpow_natCast, ← zpow_add₀ (by norm_num), hexp]
    exact_mod_cast Int.zpow_log_le_self (by decide : 1 < 10) hx
  rw [scientificAround] at h
  split at h
  all_goals
    simp only [List.mem_cons, List.not_mem_nil, or_false] at h
    obtain rfl | rfl := h
    · first | exact hfloor | exact hfloor.trans (Nat.le_succ _)
    · first | exact hfloor | exact hfloor.trans (Nat.le_succ _)

theorem exponentText_mem (e : Int) : 'e' ∈ exponentText e := by
  rw [exponentText]
  split
  · exact List.mem_append_left _ (by decide)
  · exact List.mem_append_left _ (by decide)

/-- From there on an exponent is printed. -/
theorem doubleText_large {x : Rat} (hx : 10 ^ 21 ≤ x) (h : toDouble x = some x) : 'e' ∈ doubleText x := by
  have hpos : 0 < x := lt_of_lt_of_le (by norm_num) hx
  have hlog : 21 ≤ Int.log 10 x := by
    rw [← Int.zpow_le_iff_le_log (by decide) hpos]
    exact_mod_cast hx
  obtain ⟨s, hs, hround⟩ := seventeen_digits hpos h
  have hmem : s ∈ (List.range' 1 17).flatMap (scientificAround x) :=
    List.mem_flatMap.mpr ⟨17, by decide, hs⟩
  obtain ⟨k, hk, hshort⟩ := List.mem_flatMap.mp (shortest_mem (le_refl 17) hmem hround)
  rw [List.mem_range'_1] at hk
  obtain ⟨hexp, -⟩ := scientificAround_bounds hpos hshort
  have hlow := scientificAround_low hpos (by omega) hshort
  rw [doubleText]
  generalize shortest x = s' at *
  have hlen : k ≤ (Nat.toDigits 10 s'.digits).length := by
    by_contra hless
    have hle : (Nat.toDigits 10 s'.digits).length ≤ k - 1 := by omega
    have hpos' := @Nat.length_toDigits_pos 10 s'.digits
    rw [Nat.length_toDigits_le_iff (by decide) (by omega)] at hle
    omega
  rw [placePoint, if_neg (by omega), if_neg (by omega), if_neg (by omega)]
  split
  · exact List.mem_append_right _ (exponentText_mem _)
  · exact List.mem_append_right _ (exponentText_mem _)

theorem toList_toString_natCast (n : Nat) : (toString (n : Int)).toList = Nat.toDigits 10 n := Nat.toList_repr

theorem toList_toString_neg {n : Nat} (hn : 0 < n) :
    (toString (-(n : Int))).toList = '-' :: Nat.toDigits 10 n := by
  obtain ⟨k, rfl⟩ : ∃ k, n = k + 1 := ⟨n - 1, by omega⟩
  have hrepr : toString (-((k + 1 : Nat) : Int)) = "-" ++ (k + 1).repr := rfl
  rw [hrepr, String.toList_append, Nat.toList_repr]
  rfl

/-- An integer of at most 64 bits comes back from a double as an integer, though maybe another. -/
theorem jsNumberText_int {n : Int} (h : n.natAbs < 2 ^ 64) :
    ∃ m : Int, jsNumberText (toString n).toList = (toString m).toList := by
  rw [jsNumberText, decimal_toString]
  by_cases hzero : n = 0
  · refine ⟨0, ?_⟩
    rw [hzero]
    simp only [Int.cast_zero, abs_zero, toDouble, if_true]
    decide
  obtain ⟨m, hm, hmax, hround, hdouble⟩ := toDouble_nat (Int.natAbs_pos.mpr hzero) h
  obtain ⟨m', hm', htext, -⟩ := doubleText_nat hm (by omega) hdouble
  have habs : |(n : Rat)| = n.natAbs := by
    rw [← Int.cast_abs, Int.abs_eq_natAbs, Int.cast_natCast]
  have hm0 : (m : Rat) ≠ 0 := by exact_mod_cast hm.ne'
  rw [habs, hround]
  dsimp only
  rw [if_neg hm0, htext]
  by_cases hneg : n < 0
  · refine ⟨-(m' : Int), ?_⟩
    rw [if_pos (by exact_mod_cast hneg), toList_toString_neg hm']
    rfl
  · refine ⟨m', ?_⟩
    rw [if_neg (by exact_mod_cast hneg), toList_toString_natCast]
    rfl

/-- A safe integer comes back as itself. -/
theorem jsNumberText_safe {n : Int} (h : n.natAbs < 2 ^ 53) :
    jsNumberText (toString n).toList = (toString n).toList := by
  rw [jsNumberText, decimal_toString]
  by_cases hzero : n = 0
  · rw [hzero]
    simp only [Int.cast_zero, abs_zero, toDouble, if_true]
    decide
  have hpos := Int.natAbs_pos.mpr hzero
  have hdouble := toDouble_safe hpos h
  obtain ⟨m, hm, htext, hround⟩ := doubleText_nat hpos (by omega) hdouble
  obtain rfl := toDouble_eq_safe hm h hround
  have habs : |(n : Rat)| = n.natAbs := by
    rw [← Int.cast_abs, Int.abs_eq_natAbs, Int.cast_natCast]
  have hne : (n.natAbs : Rat) ≠ 0 := by exact_mod_cast hpos.ne'
  rw [habs, hdouble]
  dsimp only
  rw [if_neg hne, htext]
  by_cases hneg : n < 0
  · have hn : n = -(n.natAbs : Int) := by omega
    rw [if_pos (by exact_mod_cast hneg)]
    conv_rhs => rw [hn, toList_toString_neg hpos]
    rfl
  · have hn : n = (n.natAbs : Int) := by omega
    rw [if_neg (by exact_mod_cast hneg)]
    conv_rhs => rw [hn, toList_toString_natCast]
    rfl

end Onisin.Lib
