import Onisin.Lib.JsonParse
import Onisin.Lib.RustNumber

/-!
A printed value is read back as it was. Integers must fit 64 bits, any other number must be one
that its own text is read as, and the value may be nested no deeper than the reader follows.
-/

set_option autoImplicit false

namespace Onisin.Lib

/-! Strings. -/

theorem hexValue_digit : ∀ n < 16, hexValue (hexDigit n) = some n := by decide

theorem readEscape_control {n : Nat} (h : n < 32) (t : Text) :
    readEscape ('u' :: '0' :: '0' :: hexDigit (n / 16) :: hexDigit (n % 16) :: t) =
      some (Char.ofNat n, t) := by
  have hzero : hexValue '0' = some 0 := by decide
  have hhigh := hexValue_digit (n / 16) (by omega)
  have hlow := hexValue_digit (n % 16) (by omega)
  have hread : readHex4 ('0' :: '0' :: hexDigit (n / 16) :: hexDigit (n % 16) :: t) = some (n, t) := by
    simp only [readHex4, hzero, hhigh, hlow, Option.bind_eq_bind, Option.bind_some, Option.pure_def]
    rw [show ((0 * 16 + 0) * 16 + n / 16) * 16 + n % 16 = n by omega]
  have hnone : ¬ (0xDC00 ≤ n ∧ n ≤ 0xDFFF) := by omega
  have hsurrogate : ¬ (0xD800 ≤ n ∧ n ≤ 0xDBFF) := by omega
  rw [readEscape, readUnicode, hread]
  simp only [Option.bind_eq_bind, Option.bind_some, if_neg hnone, if_neg hsurrogate, Option.pure_def]

theorem readStringFuel_escape {fuel : Nat} {c e : Char} {t t' : Text} (h : readEscape t = some (e, t'))
    (hc : c = '\\') :
    readStringFuel (fuel + 1) (c :: t) = (readStringFuel fuel t').map fun r => (e :: r.1, r.2) := by
  subst hc
  rw [readStringFuel, if_neg (by decide), if_pos rfl, h]
  dsimp only [Option.bind_eq_bind, Option.bind_some]
  cases readStringFuel fuel t' <;> rfl

theorem readStringFuel_char (fuel : Nat) (c : Char) (t : Text) :
    readStringFuel (fuel + 1) (escapeChar c ++ t) =
      (readStringFuel fuel t).map fun r => (c :: r.1, r.2) := by
  unfold escapeChar
  split
  · rename_i h
    subst h
    exact readStringFuel_escape rfl rfl
  split
  · rename_i h
    subst h
    exact readStringFuel_escape rfl rfl
  split
  · rename_i h
    subst h
    exact readStringFuel_escape rfl rfl
  split
  · rename_i h
    subst h
    exact readStringFuel_escape rfl rfl
  split
  · rename_i h
    subst h
    exact readStringFuel_escape rfl rfl
  split
  · rename_i h
    have hc : Char.ofNat 8 = c := by rw [← h, Char.ofNat_toNat]
    exact readStringFuel_escape (by rw [← hc]; rfl) rfl
  split
  · rename_i h
    have hc : Char.ofNat 12 = c := by rw [← h, Char.ofNat_toNat]
    exact readStringFuel_escape (by rw [← hc]; rfl) rfl
  split
  · rename_i h
    have hread := readEscape_control h t
    rw [Char.ofNat_toNat] at hread
    exact readStringFuel_escape hread rfl
  · rename_i hquote hslash _ _ _ _ _ hcontrol
    rw [List.singleton_append, readStringFuel, if_neg hquote, if_neg hslash, if_neg hcontrol]
    cases readStringFuel fuel t <;> rfl

theorem readStringFuel_escaped {s rest : Text} {fuel : Nat} (h : s.length < fuel) :
    readStringFuel fuel (s.flatMap escapeChar ++ '"' :: rest) = some (s, rest) := by
  induction s generalizing fuel with
  | nil =>
    obtain ⟨fuel, rfl⟩ : ∃ n, fuel = n + 1 := ⟨fuel - 1, by simp at h; omega⟩
    simp [readStringFuel]
  | cons c s ih =>
    obtain ⟨fuel, rfl⟩ : ∃ n, fuel = n + 1 := ⟨fuel - 1, by simp at h; omega⟩
    rw [List.flatMap_cons, List.append_assoc, readStringFuel_char, ih (Nat.lt_of_succ_lt_succ h)]
    rfl

theorem length_escapeChar_pos (c : Char) : 0 < (escapeChar c).length := by
  unfold escapeChar
  split_ifs <;> exact Nat.succ_pos _

theorem length_le_escaped (s : Text) : s.length ≤ (s.flatMap escapeChar).length := by
  induction s with
  | nil => exact Nat.le_refl _
  | cons c s ih =>
    have hc := length_escapeChar_pos c
    rw [List.flatMap_cons, List.length_append, List.length_cons]
    omega

theorem readString_quoted (s rest : Text) :
    readString (s.flatMap escapeChar ++ '"' :: rest) = some (s, rest) := by
  have hlen := length_le_escaped s
  refine readStringFuel_escaped ?_
  rw [List.length_append, List.length_cons]
  omega

/-! Numbers. -/

/-- A number that its own text is read as. -/
def Number.ReadsBack (float : Text → Option Text) : Number → Prop
  | .int n => -2 ^ 63 ≤ n ∧ n < 2 ^ 64
  | .float printed => (∃ c t, printed = c :: t ∧ (c = '-' ∨ c.isDigit = true)) ∧
      ∀ rest, EndsNumber rest →
        readNumber float (printed ++ rest) = some (.number (.float printed), rest)

/-- The digits of a number as a literal. -/
def intLit (n : Int) : DecimalLit where
  neg := decide (n < 0)
  int := Nat.toDigits 10 n.natAbs
  frac := []
  int_ne := by
    obtain ⟨c, t, h, -⟩ := toDigits_cons n.natAbs
    rw [h]
    exact List.cons_ne_nil _ _
  int_digits := allDigits_toDigits _
  frac_digits := allDigits_nil

theorem text_intLit (n : Int) : (intLit n).text = (toString n).toList := by
  have hsigned := stripSign_toString n
  by_cases hneg : n < 0
  · have hn : n = -(n.natAbs : Int) := by omega
    rw [DecimalLit.text, if_pos (by simpa [intLit] using hneg)]
    conv_rhs => rw [hn, toList_toString_neg (by omega)]
    simp [DecimalLit.unsigned, DecimalLit.fracText, intLit]
  · have hn : n = (n.natAbs : Int) := by omega
    rw [DecimalLit.text, if_neg (by simpa [intLit] using hneg)]
    conv_rhs => rw [hn, toList_toString_natCast]
    simp [DecimalLit.unsigned, DecimalLit.fracText, intLit]

theorem intValue_toString (n : Int) : intValue (toString n).toList = n := by
  by_cases hneg : n < 0
  · have hn : n = -(n.natAbs : Int) := by omega
    conv_lhs => rw [hn, toList_toString_neg (by omega)]
    rw [intValue, Nat.ofDigitChars_ten_toDigits]
    omega
  · have hn : n = (n.natAbs : Int) := by omega
    conv_lhs => rw [hn, toList_toString_natCast]
    unfold intValue
    split
    · next heq => exact absurd heq (head_ne_minus (allDigits_toDigits _) _)
    · rw [Nat.ofDigitChars_ten_toDigits]
      omega

theorem head_toDigits {n : Nat} (h : (Nat.toDigits 10 n).head? = some '0') : n = 0 := by
  induction n using Nat.strongRecOn with
  | ind n ih =>
    by_cases hsmall : n < 10
    · rw [Nat.toDigits_of_lt_base hsmall] at h
      have hall : ∀ m < 10, Nat.digitChar m = '0' → m = 0 := by decide
      exact hall n hsmall (Option.some.inj h)
    · rw [Nat.toDigits_of_base_le (by decide) (by omega),
        List.head?_append_of_ne_nil _ Nat.toDigits_ne_nil] at h
      have hzero := ih (n / 10) (by omega) h
      omega

theorem intLit_not_redundant (n : Int) : ¬ (intLit n).RedundantZero := by
  rintro ⟨hhead, hlen⟩
  have hzero := head_toDigits hhead
  simp [intLit, hzero] at hlen

theorem fitsInteger_toString {n : Int} (h : -2 ^ 63 ≤ n ∧ n < 2 ^ 64) :
    fitsInteger (toString n).toList = true := by
  have hminus : ¬ ((toString n).toList.head? = some '-' ∧ n = 0) := by
    rintro ⟨hhead, rfl⟩
    revert hhead
    decide
  rw [fitsInteger, intValue_toString, decide_eq_true h.1, decide_eq_true h.2]
  by_cases hzero : n = 0
  · have hhead : ¬ (toString n).toList.head? = some '-' := fun hhead => hminus ⟨hhead, hzero⟩
    rw [decide_eq_false hhead]
    rfl
  · rw [decide_eq_false hzero, Bool.and_false]
    rfl

theorem readNumber_int (float : Text → Option Text) {n : Int} (h : -2 ^ 63 ≤ n ∧ n < 2 ^ 64) {rest : Text}
    (hrest : EndsNumber rest) :
    readNumber float ((toString n).toList ++ rest) = some (.number (.int n), rest) := by
  have hscan := scanNumber_text (intLit n) hrest
  rw [if_neg (intLit_not_redundant n), text_intLit] at hscan
  rw [readNumber, hscan]
  dsimp only [Option.bind_eq_bind, Option.bind_some]
  rw [fitsInteger_toString h, intValue_toString]
  rfl

theorem readNumber_text {float : Text → Option Text} {n : Number} (h : n.ReadsBack float) {rest : Text}
    (hrest : EndsNumber rest) : readNumber float (n.toText ++ rest) = some (.number n, rest) := by
  cases n with
  | int n => exact readNumber_int float h hrest
  | float printed => exact h.2 rest hrest

theorem numberText_head {float : Text → Option Text} {n : Number} (h : n.ReadsBack float) :
    ∃ c t, n.toText = c :: t ∧ (c = '-' ∨ c.isDigit = true) := by
  cases n with
  | float printed => exact h.1
  | int n =>
    obtain ⟨c, t, hdigits, hdigit⟩ := toDigits_cons n.natAbs
    have htext : Number.toText (.int n) = (intLit n).text := (text_intLit n).symm
    rw [htext, DecimalLit.text]
    split
    · exact ⟨'-', _, rfl, .inl rfl⟩
    · exact ⟨c, t, by simp [DecimalLit.unsigned, DecimalLit.fracText, intLit, hdigits], .inr hdigit⟩

/-! Values. -/

section Values
variable (float : Text → Option Text)

mutual

/-- The value fits a reader that follows `depth` levels. -/
def Json.Printable : Nat → Json → Prop
  | _, .null => True
  | _, .bool _ => True
  | _, .string _ => True
  | _, .number n => n.ReadsBack float
  | depth, .array items => 0 < depth ∧ ItemsPrintable (depth - 1) items
  | depth, .object fields => 0 < depth ∧ FieldsPrintable (depth - 1) fields

def ItemsPrintable : Nat → List Json → Prop
  | _, [] => True
  | depth, v :: items => v.Printable depth ∧ ItemsPrintable depth items

def FieldsPrintable : Nat → List (Text × Json) → Prop
  | _, [] => True
  | depth, (_, v) :: fields => v.Printable depth ∧ FieldsPrintable depth fields

end

end Values

variable {float : Text → Option Text}

theorem skipSpace_cons {c : Char} (h : isJsonSpace c = false) (t : Text) : skipSpace (c :: t) = c :: t := by
  simp [skipSpace, h]

theorem endsNumber_cons {c : Char} (h : c.isDigit = false ∧ c ≠ '.' ∧ c ≠ 'e' ∧ c ≠ 'E') (t : Text) :
    EndsNumber (c :: t) := by
  intro d hd
  cases hd
  exact h

/-- A number starts with no character that any other value or a space starts with. -/
theorem number_start {c d : Char} (h : c = '-' ∨ c.isDigit = true)
    (hd : d.toNat ≠ 45 ∧ (d.toNat < 48 ∨ 57 < d.toNat)) : c ≠ d := by
  rintro rfl
  rcases h with rfl | h
  · exact hd.1 rfl
  · have hrange : 48 ≤ c.toNat ∧ c.toNat ≤ 57 := Char.isDigit_iff_toNat.mp h
    omega

theorem readValue_number {fuel depth : Nat} {c : Char} {t : Text} (h : c = '-' ∨ c.isDigit = true) :
    readValue float (fuel + 1) depth (c :: t) = readNumber float (c :: t) := by
  have hspace : isJsonSpace c = false := by
    have h1 : c ≠ ' ' := number_start h (by decide)
    have h2 : c ≠ '\t' := number_start h (by decide)
    have h3 : c ≠ '\n' := number_start h (by decide)
    have h4 : c ≠ '\r' := number_start h (by decide)
    simp [isJsonSpace, h1, h2, h3, h4]
  rw [readValue, skipSpace_cons hspace]
  split
  all_goals try
    next heq =>
      obtain ⟨rfl, -⟩ := List.cons.inj heq
      exact absurd rfl (number_start h (by decide))
  rfl

theorem print_head {depth : Nat} {v : Json} (h : v.Printable float depth) :
    ∃ c t, v.print = c :: t ∧ isJsonSpace c = false ∧ c ≠ ']' := by
  cases v with
  | null => exact ⟨_, _, rfl, rfl, by decide⟩
  | bool b => cases b <;> exact ⟨_, _, rfl, rfl, by decide⟩
  | string s => exact ⟨_, _, rfl, rfl, by decide⟩
  | array items => exact ⟨_, _, rfl, rfl, by decide⟩
  | object fields => exact ⟨_, _, rfl, rfl, by decide⟩
  | number n =>
    rw [Json.Printable] at h
    obtain ⟨c, t, htext, hc⟩ := numberText_head h
    refine ⟨c, t, htext, ?_, number_start hc (by decide)⟩
    have h1 : c ≠ ' ' := number_start hc (by decide)
    have h2 : c ≠ '\t' := number_start hc (by decide)
    have h3 : c ≠ '\n' := number_start hc (by decide)
    have h4 : c ≠ '\r' := number_start hc (by decide)
    simp [isJsonSpace, h1, h2, h3, h4]

theorem length_print_pos {depth : Nat} {v : Json} (h : v.Printable float depth) : 0 < v.print.length := by
  obtain ⟨c, t, htext, -⟩ := print_head h
  simp [htext]

theorem readValue_array {fuel depth : Nat} {c : Char} {t : Text} (hdepth : 0 < depth)
    (hspace : isJsonSpace c = false) (hc : c ≠ ']') :
    readValue float (fuel + 1) depth ('[' :: c :: t) =
      (readItems float fuel (depth - 1) (c :: t)).map fun r => (.array r.1, r.2) := by
  rw [readValue, skipSpace_cons (by decide)]
  simp only [if_neg (Nat.pos_iff_ne_zero.mp hdepth), skipSpace_cons hspace]
  split
  · next heq => exact absurd (List.cons.inj heq).1 hc
  · rfl

theorem readValue_object {fuel depth : Nat} {t : Text} (hdepth : 0 < depth) :
    readValue float (fuel + 1) depth ('\x7b' :: '"' :: t) =
      (readFields float fuel (depth - 1) ('"' :: t)).map fun r => (.object r.1, r.2) := by
  rw [readValue, skipSpace_cons (by decide)]
  simp only [if_neg (Nat.pos_iff_ne_zero.mp hdepth), skipSpace_cons (show isJsonSpace '"' = false from rfl)]
  split
  · next heq => exact absurd (List.cons.inj heq).1 (by decide)
  · rfl

theorem succ_of_pos {n : Nat} (h : 0 < n) : ∃ m, n = m + 1 := ⟨n - 1, by omega⟩

mutual

theorem readValue_print {fuel depth : Nat} (v : Json) {rest : Text} (h : v.Printable float depth)
    (hfuel : 2 * v.print.length ≤ fuel) (hrest : EndsNumber rest) :
    readValue float fuel depth (v.print ++ rest) = some (v, rest) := by
  have hpos := length_print_pos h
  obtain ⟨fuel, rfl⟩ := succ_of_pos (show 0 < fuel by omega)
  cases v with
  | null => rfl
  | bool b => cases b <;> rfl
  | number n =>
    rw [Json.Printable] at h
    obtain ⟨c, t, htext, hc⟩ := numberText_head h
    have hread := readNumber_text h hrest
    rw [htext] at hread
    rw [Json.print, htext, List.cons_append, readValue_number hc]
    exact hread
  | string s =>
    have hprint : (Json.string s).print ++ rest = '"' :: (s.flatMap escapeChar ++ '"' :: rest) := by
      simp [Json.print, quoteText]
    rw [hprint, readValue, skipSpace_cons (by decide)]
    simp only [readString_quoted]
    rfl
  | array items =>
    rw [Json.Printable] at h
    obtain ⟨hdepth, hitems⟩ := h
    cases items with
    | nil =>
      have hempty : (Json.array []).print ++ rest = '[' :: ']' :: rest := rfl
      rw [hempty, readValue, skipSpace_cons (by decide)]
      simp only [if_neg (Nat.pos_iff_ne_zero.mp hdepth), skipSpace_cons (show isJsonSpace ']' = false from rfl)]
    | cons v items =>
      obtain ⟨c, t, htext, hspace, hc⟩ := print_head hitems.1
      have hlen : (Json.array (v :: items)).print.length =
          (Text.join [','] (printItems (v :: items))).length + 2 := by
        simp [Json.print]
      have hread := @readItems_print fuel _ v items rest hitems (by omega)
      have hhead : Text.join [','] (printItems (v :: items)) ++ ']' :: rest =
          c :: (t ++ (if printItems items = [] then [] else [','] ++ Text.join [','] (printItems items)) ++
            ']' :: rest) := by
        rw [printItems, Text.join_cons, htext, List.cons_append, List.cons_append]
      have hprint : (Json.array (v :: items)).print ++ rest =
          '[' :: (Text.join [','] (printItems (v :: items)) ++ ']' :: rest) := by
        simp [Json.print]
      rw [hprint]
      rw [hhead] at hread ⊢
      rw [readValue_array hdepth hspace hc, hread]
      rfl
  | object fields =>
    rw [Json.Printable] at h
    obtain ⟨hdepth, hfields⟩ := h
    cases fields with
    | nil =>
      have hempty : (Json.object []).print ++ rest = '\x7b' :: '\x7d' :: rest := rfl
      rw [hempty, readValue, skipSpace_cons (by decide)]
      simp only [if_neg (Nat.pos_iff_ne_zero.mp hdepth), skipSpace_cons (show isJsonSpace '\x7d' = false from rfl)]
    | cons field fields =>
      obtain ⟨key, v⟩ := field
      have hlen : (Json.object ((key, v) :: fields)).print.length =
          (Text.join [','] (printFields ((key, v) :: fields))).length + 2 := by
        simp [Json.print]
      have hread := @readFields_print fuel _ key v fields rest hfields (by omega)
      have hprint : (Json.object ((key, v) :: fields)).print ++ rest =
          '\x7b' :: (Text.join [','] (printFields ((key, v) :: fields)) ++ '\x7d' :: rest) := by
        simp [Json.print]
      have hhead : ∃ t, Text.join [','] (printFields ((key, v) :: fields)) ++ '\x7d' :: rest = '"' :: t := by
        rw [printFields, Text.join_cons]
        exact ⟨_, rfl⟩
      obtain ⟨t, hhead⟩ := hhead
      rw [hprint]
      rw [hhead] at hread ⊢
      rw [readValue_object hdepth, hread]
      rfl

theorem readItems_print {fuel depth : Nat} (v : Json) (items : List Json) {rest : Text}
    (h : ItemsPrintable float depth (v :: items))
    (hfuel : 2 * (Text.join [','] (printItems (v :: items))).length + 1 ≤ fuel) :
    readItems float fuel depth (Text.join [','] (printItems (v :: items)) ++ ']' :: rest) =
      some (v :: items, rest) := by
  obtain ⟨fuel, rfl⟩ := succ_of_pos (show 0 < fuel by omega)
  obtain ⟨hv, hitems⟩ := h
  rw [printItems, Text.join_cons, List.length_append] at hfuel
  rw [printItems, Text.join_cons, List.append_assoc, readItems]
  cases items with
  | nil =>
    have hread := @readValue_print fuel _ v (']' :: rest) hv (by omega)
      (endsNumber_cons (by decide) _)
    rw [printItems, if_pos rfl, List.nil_append, hread]
    simp only [Option.bind_eq_bind, Option.bind_some, skipSpace_cons (show isJsonSpace ']' = false from rfl)]
    rfl
  | cons w items =>
    rw [if_neg (by simp [printItems]), List.length_append, List.length_singleton] at hfuel
    have hread := @readValue_print fuel _ v
      (',' :: (Text.join [','] (printItems (w :: items)) ++ ']' :: rest)) hv (by omega)
      (endsNumber_cons (by decide) _)
    have hmore := @readItems_print fuel _ w items rest hitems (by omega)
    rw [if_neg (by simp [printItems]), List.append_assoc, List.singleton_append, hread]
    simp only [Option.bind_eq_bind, Option.bind_some, skipSpace_cons (show isJsonSpace ',' = false from rfl)]
    rw [hmore]
    rfl

theorem readFields_print {fuel depth : Nat} (key : Text) (v : Json) (fields : List (Text × Json))
    {rest : Text} (h : FieldsPrintable float depth ((key, v) :: fields))
    (hfuel : 2 * (Text.join [','] (printFields ((key, v) :: fields))).length + 1 ≤ fuel) :
    readFields float fuel depth (Text.join [','] (printFields ((key, v) :: fields)) ++ '\x7d' :: rest) =
      some ((key, v) :: fields, rest) := by
  obtain ⟨fuel, rfl⟩ := succ_of_pos (show 0 < fuel by omega)
  obtain ⟨hv, hfields⟩ := h
  have hquote : 2 ≤ (quoteText key).length := by simp [quoteText]
  rw [printFields, Text.join_cons] at hfuel ⊢
  simp only [List.length_append, List.length_singleton] at hfuel
  obtain ⟨fuel, rfl⟩ := succ_of_pos (show 0 < fuel by omega)
  have hkey (t : Text) : quoteText key ++ [':'] ++ v.print ++ t =
      '"' :: (key.flatMap escapeChar ++ '"' :: ':' :: (v.print ++ t)) := by
    simp [quoteText]
  rw [List.append_assoc, hkey, readFields, skipSpace_cons (by decide)]
  simp only [readString_quoted, Option.bind_eq_bind, Option.bind_some,
    skipSpace_cons (show isJsonSpace ':' = false from rfl)]
  cases fields with
  | nil =>
    have hread := @readValue_print (fuel + 1) _ v ('\x7d' :: rest) hv (by omega)
      (endsNumber_cons (by decide) _)
    rw [printFields, if_pos rfl, List.nil_append, hread]
    simp only [Option.bind_some, readMore, skipSpace_cons (show isJsonSpace '\x7d' = false from rfl)]
    rfl
  | cons field fields =>
    obtain ⟨key', w⟩ := field
    rw [if_neg (by simp [printFields]), List.length_append, List.length_singleton] at hfuel
    have hread := @readValue_print (fuel + 1) _ v
      (',' :: (Text.join [','] (printFields ((key', w) :: fields)) ++ '\x7d' :: rest)) hv (by omega)
      (endsNumber_cons (by decide) _)
    have hmore := @readFields_print fuel _ key' w fields rest hfields (by omega)
    rw [if_neg (by simp [printFields]), List.append_assoc, List.singleton_append, hread]
    simp only [Option.bind_some, readMore, skipSpace_cons (show isJsonSpace ',' = false from rfl)]
    rw [hmore]
    rfl

end

/-- A value nested no deeper than the reader follows is read back from its text. -/
theorem parseJson_print {v : Json} (h : v.Printable float 127) : parseJson float v.print = some v := by
  have hread := @readValue_print float (2 * v.print.length + 6) _ v [] h (by omega)
    (fun c hc => by cases hc)
  rw [List.append_nil] at hread
  rw [parseJson, hread]
  rfl

end Onisin.Lib
