import Onisin.Lib.Decimal
import Onisin.Lib.JsonText

/-!
Reading JSON text. Integers that fit 64 bits are read exactly; what any other number literal is
read as is left to a function that gives the text its value is printed as, or nothing if it is
out of range.
-/

set_option autoImplicit false

namespace Onisin.Lib

def isJsonSpace (c : Char) : Bool := c = ' ' || c = '\t' || c = '\n' || c = '\r'

def skipSpace (t : Text) : Text := t.dropWhile isJsonSpace

/-! Strings. -/

def hexValue (c : Char) : Option Nat :=
  if c.isDigit then some (c.toNat - 48)
  else if 'a' ≤ c ∧ c ≤ 'f' then some (c.toNat - 87)
  else if 'A' ≤ c ∧ c ≤ 'F' then some (c.toNat - 55)
  else none

/-- Four hexadecimal digits, with what is behind them. -/
def readHex4 : Text → Option (Nat × Text)
  | a :: b :: c :: d :: t => do
    let a ← hexValue a
    let b ← hexValue b
    let c ← hexValue c
    let d ← hexValue d
    return (((a * 16 + b) * 16 + c) * 16 + d, t)
  | _ => none

/-- The character of a `\u` escape; a high surrogate needs the low one behind it. -/
def readUnicode (t : Text) : Option (Char × Text) := do
  let (n, t) ← readHex4 t
  if 0xDC00 ≤ n ∧ n ≤ 0xDFFF then none
  else if 0xD800 ≤ n ∧ n ≤ 0xDBFF then
    match t with
    | '\\' :: 'u' :: t =>
      let (m, t) ← readHex4 t
      if 0xDC00 ≤ m ∧ m ≤ 0xDFFF then
        return (Char.ofNat (0x10000 + (n - 0xD800) * 0x400 + (m - 0xDC00)), t)
      else none
    | _ => none
  else return (Char.ofNat n, t)

/-- The character that an escape stands for, from behind its backslash. -/
def readEscape : Text → Option (Char × Text)
  | '"' :: t => some ('"', t)
  | '\\' :: t => some ('\\', t)
  | '/' :: t => some ('/', t)
  | 'b' :: t => some (Char.ofNat 8, t)
  | 'f' :: t => some (Char.ofNat 12, t)
  | 'n' :: t => some ('\n', t)
  | 'r' :: t => some ('\r', t)
  | 't' :: t => some ('\t', t)
  | 'u' :: t => readUnicode t
  | _ => none

def readStringFuel : Nat → Text → Option (Text × Text)
  | 0, _ => none
  | _ + 1, [] => none
  | fuel + 1, c :: t =>
    if c = '"' then some ([], t)
    else if c = '\\' then do
      let (e, t) ← readEscape t
      let (s, t) ← readStringFuel fuel t
      return (e :: s, t)
    else if c.toNat < 32 then none
    else do
      let (s, t) ← readStringFuel fuel t
      return (c :: s, t)

/-- A string from behind its opening quote. -/
def readString (t : Text) : Option (Text × Text) := readStringFuel (t.length + 1) t

/-! Numbers. -/

def scanDigits (t : Text) : Text × Text := t.span Char.isDigit

/-- A literal with whether it has a fraction or an exponent, and what is behind it. -/
def scanExponent (lit : Text) (isFloat : Bool) (t : Text) : Option (Text × Bool × Text) :=
  match t with
  | c :: t' =>
    if c = 'e' ∨ c = 'E' then
      let sign := if t'.head? = some '+' ∨ t'.head? = some '-' then t'.take 1 else []
      let digits := scanDigits (t'.drop sign.length)
      if digits.1.isEmpty then none else some (lit ++ [c] ++ sign ++ digits.1, true, digits.2)
    else some (lit, isFloat, t)
  | [] => some (lit, isFloat, t)

def scanFraction (lit t : Text) : Option (Text × Bool × Text) :=
  match t with
  | '.' :: t' =>
    let digits := scanDigits t'
    if digits.1.isEmpty then none else scanExponent (lit ++ ['.'] ++ digits.1) true digits.2
  | _ => scanExponent lit false t

/-- The integer part has no redundant zero. -/
def scanUnsigned (sign t : Text) : Option (Text × Bool × Text) :=
  let digits := scanDigits t
  if digits.1.isEmpty then none
  else if digits.1.head? = some '0' ∧ digits.1.length ≠ 1 then none
  else scanFraction (sign ++ digits.1) digits.2

def scanNumber (t : Text) : Option (Text × Bool × Text) :=
  match t with
  | '-' :: t' => scanUnsigned ['-'] t'
  | _ => scanUnsigned [] t

def fitsInteger (lit : Text) : Bool :=
  decide (-2 ^ 63 ≤ intValue lit) && decide (intValue lit < 2 ^ 64) &&
    !(lit.head? = some '-' && decide (intValue lit = 0))

section Values
variable (float : Text → Option Text)

def readNumber (t : Text) : Option (Json × Text) := do
  let (lit, isFloat, t) ← scanNumber t
  if !isFloat && fitsInteger lit then return (.number (.int (intValue lit)), t)
  else
    let printed ← float lit
    return (.number (.float printed), t)

mutual

def readValue : Nat → Nat → Text → Option (Json × Text)
  | 0, _, _ => none
  | fuel + 1, depth, t =>
    match skipSpace t with
    | '"' :: t => (readString t).map fun r => (.string r.1, r.2)
    | '[' :: t =>
      if depth = 0 then none
      else
        match skipSpace t with
        | ']' :: t => some (.array [], t)
        | t => (readItems fuel (depth - 1) t).map fun r => (.array r.1, r.2)
    | '\x7b' :: t =>
      if depth = 0 then none
      else
        match skipSpace t with
        | '\x7d' :: t => some (.object [], t)
        | t => (readFields fuel (depth - 1) t).map fun r => (.object r.1, r.2)
    | 'n' :: 'u' :: 'l' :: 'l' :: t => some (.null, t)
    | 't' :: 'r' :: 'u' :: 'e' :: t => some (.bool true, t)
    | 'f' :: 'a' :: 'l' :: 's' :: 'e' :: t => some (.bool false, t)
    | t => readNumber float t
termination_by structural fuel => fuel

def readItems : Nat → Nat → Text → Option (List Json × Text)
  | 0, _, _ => none
  | fuel + 1, depth, t => do
    let (v, t) ← readValue fuel depth t
    match skipSpace t with
    | ',' :: t =>
      let (vs, t) ← readItems fuel depth t
      return (v :: vs, t)
    | ']' :: t => return ([v], t)
    | _ => none
termination_by structural fuel => fuel

def readFields : Nat → Nat → Text → Option (List (Text × Json) × Text)
  | 0, _, _ => none
  | fuel + 1, depth, t =>
    match skipSpace t with
    | '"' :: t => do
      let (key, t) ← readString t
      match skipSpace t with
      | ':' :: t =>
        let (v, t) ← readValue fuel depth t
        let (fields, t) ← readMore fuel depth t
        return ((key, v) :: fields, t)
      | _ => none
    | _ => none
termination_by structural fuel => fuel

/-- Behind a member: another one, or the end of the object. -/
def readMore : Nat → Nat → Text → Option (List (Text × Json) × Text)
  | 0, _, _ => none
  | fuel + 1, depth, t =>
    match skipSpace t with
    | ',' :: t => readFields fuel depth t
    | '\x7d' :: t => some ([], t)
    | _ => none
termination_by structural fuel => fuel

end

/-- A whole text: one value, nested at most 127 deep, with nothing but space around it. -/
def parseJson (t : Text) : Option Json := do
  let (v, rest) ← readValue float (2 * t.length + 6) 127 t
  if (skipSpace rest).isEmpty then return v else none

end Values

/-! Number literals. -/

/-- The integer part of a literal has more digits than it needs. -/
def DecimalLit.RedundantZero (l : DecimalLit) : Prop := l.int.head? = some '0' ∧ l.int.length ≠ 1

instance (l : DecimalLit) : Decidable l.RedundantZero :=
  inferInstanceAs (Decidable (l.int.head? = some '0' ∧ l.int.length ≠ 1))

/-- A text that ends a number. -/
def EndsNumber (t : Text) : Prop :=
  ∀ c ∈ t.head?, c.isDigit = false ∧ c ≠ '.' ∧ c ≠ 'e' ∧ c ≠ 'E'

theorem scanExponent_end {lit t : Text} {isFloat : Bool} (h : EndsNumber t) :
    scanExponent lit isFloat t = some (lit, isFloat, t) := by
  cases t with
  | nil => rfl
  | cons c t =>
    obtain ⟨-, -, he, hE⟩ := h c rfl
    rw [scanExponent, if_neg (by simp [he, hE])]

theorem scanFraction_text (l : DecimalLit) {lit t : Text} (h : EndsNumber t) :
    scanFraction lit (l.fracText ++ t) = some (lit ++ l.fracText, decide (l.frac ≠ []), t) := by
  by_cases hfrac : l.frac = []
  · have hscan : scanFraction lit t = scanExponent lit false t := by
      unfold scanFraction
      split
      · exact absurd rfl (h '.' rfl).2.1
      · rfl
    rw [DecimalLit.fracText, if_pos hfrac, List.nil_append, hscan, scanExponent_end h, List.append_nil]
    simp [hfrac]
  · have hspan : scanDigits (l.frac ++ t) = (l.frac, t) :=
      span_append l.frac_digits fun c hc => (h c hc).1
    rw [DecimalLit.fracText, if_neg hfrac, List.cons_append, scanFraction, hspan]
    simp [scanExponent_end h, hfrac]

theorem scanUnsigned_text (l : DecimalLit) {sign t : Text} (h : EndsNumber t) :
    scanUnsigned sign (l.unsigned ++ t) =
      if l.RedundantZero then none else some (sign ++ l.unsigned, decide (l.frac ≠ []), t) := by
  have hend : ∀ c ∈ (l.fracText ++ t).head?, c.isDigit = false := by
    intro c hc
    unfold DecimalLit.fracText at hc
    split at hc
    · exact (h c hc).1
    · cases hc
      rfl
  have hspan : scanDigits (l.unsigned ++ t) = (l.int, l.fracText ++ t) := by
    rw [DecimalLit.unsigned, List.append_assoc]
    exact span_append l.int_digits hend
  have hint : l.int.isEmpty = false := by simpa using l.int_ne
  rw [scanUnsigned, hspan]
  simp only [hint, Bool.false_eq_true, if_false, scanFraction_text l h, DecimalLit.unsigned,
    List.append_assoc]
  rfl

/-- A literal is read to its end, unless it has a redundant zero. -/
theorem scanNumber_text (l : DecimalLit) {t : Text} (h : EndsNumber t) :
    scanNumber (l.text ++ t) =
      if l.RedundantZero then none else some (l.text, decide (l.frac ≠ []), t) := by
  cases hneg : l.neg with
  | true =>
    rw [DecimalLit.text, if_pos hneg, List.cons_append, scanNumber, scanUnsigned_text l h]
    rfl
  | false =>
    have hunsigned : scanNumber (l.unsigned ++ t) = scanUnsigned [] (l.unsigned ++ t) := by
      unfold scanNumber
      split
      · rename_i t' heq
        obtain ⟨c, int, hint⟩ := List.exists_cons_of_ne_nil l.int_ne
        have hdigit := l.int_digits c (hint ▸ List.mem_cons_self)
        rw [DecimalLit.unsigned, hint] at heq
        obtain ⟨rfl, -⟩ := List.cons.inj heq
        exact absurd hdigit (by decide)
      · rfl
    rw [DecimalLit.text, if_neg (by simp [hneg]), hunsigned, scanUnsigned_text l h]
    rfl

/-! Strings that need no escape. -/

def CleanChar (c : Char) : Prop := c ≠ '"' ∧ c ≠ '\\' ∧ 32 ≤ c.toNat

instance (c : Char) : Decidable (CleanChar c) :=
  inferInstanceAs (Decidable (c ≠ '"' ∧ c ≠ '\\' ∧ 32 ≤ c.toNat))

def CleanText (s : Text) : Prop := ∀ c ∈ s, CleanChar c

instance (s : Text) : Decidable (CleanText s) := List.decidableBAll CleanChar s

theorem readStringFuel_clean {s rest : Text} (h : CleanText s) {fuel : Nat} (hfuel : s.length < fuel) :
    readStringFuel fuel (s ++ '"' :: rest) = some (s, rest) := by
  induction s generalizing fuel with
  | nil =>
    obtain ⟨fuel, rfl⟩ : ∃ n, fuel = n + 1 := ⟨fuel - 1, by simp at hfuel; omega⟩
    simp [readStringFuel]
  | cons c s ih =>
    obtain ⟨fuel, rfl⟩ : ∃ n, fuel = n + 1 := ⟨fuel - 1, by simp at hfuel; omega⟩
    obtain ⟨hquote, hslash, hcontrol⟩ := h c List.mem_cons_self
    have hmore := ih (fun c hc => h c (List.mem_cons_of_mem _ hc)) (Nat.lt_of_succ_lt_succ hfuel)
    rw [List.cons_append, readStringFuel, if_neg hquote, if_neg hslash, if_neg (by omega), hmore]
    rfl

theorem readString_clean {s : Text} (h : CleanText s) (rest : Text) :
    readString (s ++ '"' :: rest) = some (s, rest) :=
  readStringFuel_clean h (by rw [List.length_append, List.length_cons]; omega)

theorem readHex4_suffix {t r : Text} {n : Nat} (h : readHex4 t = some (n, r)) :
    ∃ u, t = u ++ r ∧ u ≠ [] := by
  unfold readHex4 at h
  split at h
  · rename_i a b c d t
    simp only [Option.bind_eq_bind, Option.bind_eq_some_iff, pure, Option.some.injEq,
      Prod.mk.injEq] at h
    obtain ⟨-, -, -, -, -, -, -, -, -, rfl⟩ := h
    exact ⟨[a, b, c, d], rfl, nofun⟩
  · cases h

theorem readUnicode_suffix {t r : Text} {c : Char} (h : readUnicode t = some (c, r)) :
    ∃ u, t = u ++ r ∧ u ≠ [] := by
  unfold readUnicode at h
  obtain ⟨⟨n, t₁⟩, hhex, h₁⟩ := Option.bind_eq_some_iff.mp h
  obtain ⟨u, rfl, hu⟩ := readHex4_suffix hhex
  dsimp only at h₁
  split at h₁
  · cases h₁
  split at h₁
  · split at h₁
    · rename_i t₂
      obtain ⟨⟨m, t₃⟩, hhex', h₂⟩ := Option.bind_eq_some_iff.mp h₁
      obtain ⟨u', rfl, -⟩ := readHex4_suffix hhex'
      dsimp only at h₂
      split at h₂
      · obtain ⟨-, rfl⟩ := Prod.mk.inj (Option.some.inj h₂)
        exact ⟨u ++ '\\' :: 'u' :: u', by simp, by simp [hu]⟩
      · cases h₂
    · cases h₁
  · obtain ⟨-, rfl⟩ := Prod.mk.inj (Option.some.inj h₁)
    exact ⟨u, rfl, hu⟩

theorem readEscape_suffix {t r : Text} {c : Char} (h : readEscape t = some (c, r)) :
    ∃ u, t = u ++ r ∧ u ≠ [] := by
  unfold readEscape at h
  split at h
  case h_9 =>
    obtain ⟨u, rfl, -⟩ := readUnicode_suffix h
    exact ⟨'u' :: u, rfl, nofun⟩
  case h_10 => cases h
  all_goals
    cases h
    exact ⟨[_], rfl, nofun⟩

/-- A string takes a character for each of its own, and more for an escaped one: if it took as
many as it has, there was nothing to escape. -/
theorem readStringFuel_length {fuel : Nat} {t s r : Text} (h : readStringFuel fuel t = some (s, r)) :
    ∃ u, t = u ++ '"' :: r ∧ s.length ≤ u.length ∧ (s.length = u.length → CleanText s) := by
  induction fuel generalizing t s with
  | zero => cases h
  | succ fuel ih =>
    cases t with
    | nil => cases h
    | cons c t =>
      rw [readStringFuel] at h
      split at h
      · rename_i hquote
        cases h
        exact ⟨[], by rw [hquote]; rfl, Nat.le_refl _, fun _ => nofun⟩
      rename_i hquote
      split at h
      · obtain ⟨⟨e, t₁⟩, hescape, h⟩ := Option.bind_eq_some_iff.mp h
        obtain ⟨⟨s', t₂⟩, hmore, h⟩ := Option.bind_eq_some_iff.mp h
        cases h
        obtain ⟨u, rfl, hu⟩ := readEscape_suffix hescape
        obtain ⟨u', rfl, hlen, -⟩ := ih hmore
        have hpos : 0 < u.length := List.length_pos_iff.mpr hu
        refine ⟨c :: u ++ u', by simp, ?_, ?_⟩
        · simp only [List.length_cons, List.length_append]
          omega
        · intro heq
          simp only [List.length_cons, List.length_append] at heq
          omega
      rename_i hslash
      split at h
      · cases h
      · rename_i hcontrol
        obtain ⟨⟨s', t₁⟩, hmore, h⟩ := Option.bind_eq_some_iff.mp h
        cases h
        obtain ⟨u, rfl, hlen, hclean⟩ := ih hmore
        refine ⟨c :: u, rfl, Nat.succ_le_succ hlen, fun heq => ?_⟩
        have hs' := hclean (Nat.succ.inj heq)
        intro d hd
        obtain rfl | hd := List.mem_cons.mp hd
        · exact ⟨hquote, hslash, by omega⟩
        · exact hs' d hd

/-- A quoted text with no further quote behind it is read as itself only if it is clean. -/
theorem readString_eq_self {s rest rest' : Text} (hrest : '"' ∉ rest)
    (h : readString (s ++ '"' :: rest) = some (s, rest')) : CleanText s := by
  obtain ⟨u, heq, hlen, hclean⟩ := readStringFuel_length h
  refine hclean (Nat.le_antisymm hlen ?_)
  -- the closing quote is the one behind the text, or one in it
  by_contra hlong
  have hmem : '"' ∈ rest := by
    have hdrop := congrArg (List.drop (s.length + 1)) heq
    have hlarge : s.length + 1 ≤ u.length := by omega
    have hleft : (s ++ '"' :: rest).drop (s.length + 1) = rest := by
      rw [List.append_cons, List.drop_left' (by simp)]
    rw [hleft, List.drop_append_of_le_length hlarge] at hdrop
    rw [hdrop]
    simp
  exact hrest hmem

end Onisin.Lib
