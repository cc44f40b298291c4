import Onisin.Dsl.FilterExamples
import Onisin.Gql.Statements
import Onisin.Lib.JsonParse

/-!
What the model is taught against what the server accepts. An example line shows a `where` entry
as JSON text put together from parts; the server reads the entry back and compiles it.
-/

set_option autoImplicit false

namespace Onisin.Gql
open Lib Domain

section Entries
variable (float : Text → Option Text)

/-- The one value of a member; a member that is missing or there twice is an error. -/
def member (fields : List (Text × Json)) (key : Text) : Option Json :=
  match fields.filter fun e => e.1 = key with
  | [e] => some e.2
  | _ => none

def fieldKey : Text := "field".toList

def opKey : Text := "op".toList

def valueKey : Text := "value".toList

def whereCondOf : Json → Option WhereCond
  | .object fields => do
    let field ← (member fields fieldKey).bind Json.asStr
    let op ← (member fields opKey).bind Json.asStr
    let value ← member fields valueKey
    return ⟨field, op, value⟩
  | _ => none

/-- An entry as the server deserialises it; members it does not know are passed over. -/
def parseWhereCond (t : Text) : Option WhereCond := (parseJson float t).bind whereCondOf

/-! Members of an entry, from left to right. -/

theorem skipSpace_space (t : Text) : skipSpace (' ' :: t) = skipSpace t := rfl

theorem skipSpace_cons {c : Char} (h : isJsonSpace c = false) (t : Text) :
    skipSpace (c :: t) = c :: t :=
  List.dropWhile_cons_of_neg (by simp [h])

theorem readFields_space (fuel depth : Nat) (t : Text) :
    readFields float fuel depth (' ' :: t) = readFields float fuel depth t := by
  cases fuel <;> rfl

theorem readFields_member {key : Text} (hkey : CleanText key) (rest : Text) (fuel depth : Nat) :
    readFields float (fuel + 1) depth ('"' :: key ++ '"' :: ':' :: rest) =
      (readValue float fuel depth rest).bind fun r =>
        (readMore float fuel depth r.2).map fun r' => ((key, r.1) :: r'.1, r'.2) := by
  rw [readFields]
  simp only [List.cons_append, skipSpace_cons (show isJsonSpace '"' = false by decide),
    readString_clean hkey]
  simp only [bind, Option.bind_some, skipSpace_cons (show isJsonSpace ':' = false by decide)]
  cases readValue float fuel depth rest with
  | none => rfl
  | some r =>
    simp only [Option.bind_some]
    cases readMore float fuel depth r.2 <;> rfl

theorem readValue_string {s : Text} (hs : CleanText s) (rest : Text) (fuel depth : Nat) :
    readValue float (fuel + 1) depth (' ' :: '"' :: s ++ '"' :: rest) = some (.string s, rest) := by
  rw [readValue]
  simp only [List.cons_append, skipSpace_space, skipSpace_cons (show isJsonSpace '"' = false by decide),
    readString_clean hs]
  rfl

theorem readFields_string {key s : Text} (hkey : CleanText key) (hs : CleanText s) (rest : Text)
    (fuel depth : Nat) :
    readFields float (fuel + 2) depth
        ('"' :: key ++ '"' :: ':' :: (' ' :: '"' :: s ++ '"' :: ',' :: ' ' :: rest)) =
      (readFields float fuel depth rest).map fun r => ((key, .string s) :: r.1, r.2) := by
  rw [readFields_member float hkey, readValue_string float hs, Option.bind_some, readMore,
    skipSpace_cons (by decide)]
  simp only [readFields_space]

/-- The text of an entry, member by member. -/
theorem renderWhereEntry_eq (name token : Text) (v : Shown) :
    renderWhereEntry name token v =
      '\x7b' :: ' ' :: ('"' :: fieldKey ++ '"' :: ':' :: (' ' :: '"' :: name ++ '"' :: ',' :: ' ' ::
        ('"' :: opKey ++ '"' :: ':' :: (' ' :: '"' :: token ++ '"' :: ',' :: ' ' ::
          ('"' :: valueKey ++ '"' :: ':' :: (' ' :: v.text ++ [' ', '\x7d'])))))) := by
  have hfield : entryField = '\x7b' :: ' ' :: '"' :: fieldKey ++ ['"', ':', ' ', '"'] := by decide
  have hop : entryOp = '"' :: ',' :: ' ' :: '"' :: opKey ++ ['"', ':', ' ', '"'] := by decide
  have hvalue : entryValue = '"' :: ',' :: ' ' :: '"' :: valueKey ++ ['"', ':', ' '] := by decide
  have hend : entryEnd = [' ', '\x7d'] := by decide
  simp only [renderWhereEntry, hfield, hop, hvalue, hend, List.append_assoc, List.cons_append,
    List.nil_append]

theorem readValue_object (fuel depth : Nat) (key t : Text) :
    readValue float (fuel + 1) (depth + 1) ('\x7b' :: ' ' :: ('"' :: key ++ t)) =
      (readFields float fuel depth ('"' :: key ++ t)).map fun r => (.object r.1, r.2) := rfl

/-- The value of an entry, with what is behind it. -/
def entryValueRead (fuel : Nat) (v : Shown) : Option (Json × Text) :=
  readValue float fuel 126 (' ' :: v.text ++ [' ', '\x7d'])

/-- What is in front of the value is read whatever the value is. -/
theorem parseJson_entry {name token : Text} (hname : CleanText name) (htoken : CleanText token)
    (v : Shown) :
    ∃ fuel, parseJson float (renderWhereEntry name token v) =
      (entryValueRead float (fuel + 1) v).bind fun r =>
        (readMore float (fuel + 1) 126 r.2).bind fun r' =>
          if (skipSpace r'.2).isEmpty then
            some (.object ((fieldKey, .string name) :: (opKey, .string token) :: (valueKey, r.1) :: r'.1))
          else none := by
  have hfield : CleanText fieldKey := by decide
  have hop : CleanText opKey := by decide
  have hvalue : CleanText valueKey := by decide
  refine ⟨2 * (renderWhereEntry name token v).length - 1, ?_⟩
  have hfuel : 2 * (renderWhereEntry name token v).length + 6 =
      2 * (renderWhereEntry name token v).length - 1 + 1 + 1 + 2 + 2 + 1 := by
    have hlen : 0 < (renderWhereEntry name token v).length := by simp [renderWhereEntry_eq]
    omega
  rw [parseJson, hfuel]
  generalize 2 * (renderWhereEntry name token v).length - 1 = fuel
  rw [renderWhereEntry_eq]
  rw [readValue_object, readFields_string float hfield hname, readFields_string float hop htoken,
    readFields_member float hvalue, ← entryValueRead]
  cases entryValueRead float (fuel + 1) v with
  | none => rfl
  | some r =>
    simp only [Option.bind_some]
    cases readMore float (fuel + 1) 126 r.2 with
    | none => rfl
    | some r' => rfl

theorem member_eq {fields : List (Text × Json)} {key : Text} {v w : Json}
    (h : member fields key = some v) (hmem : (key, w) ∈ fields) : w = v := by
  unfold member at h
  split at h
  · rename_i e heq
    have hw : (key, w) ∈ fields.filter fun e => e.1 = key := List.mem_filter.mpr ⟨hmem, by simp⟩
    rw [heq, List.mem_singleton] at hw
    rw [← hw] at h
    exact Option.some.inj h
  · cases h

theorem whereCondOf_some {fields : List (Text × Json)} {c : WhereCond} {name token : Text} {v : Json}
    (h : whereCondOf (.object fields) = some c) (hfield : (fieldKey, .string name) ∈ fields)
    (hop : (opKey, .string token) ∈ fields) (hvalue : (valueKey, v) ∈ fields) :
    c = ⟨name, token, v⟩ := by
  simp only [whereCondOf, Option.bind_eq_bind, Option.bind_eq_some_iff, pure, Option.some.injEq] at h
  obtain ⟨f, ⟨jf, hjf, hf⟩, o, ⟨jo, hjo, ho⟩, w, hw, rfl⟩ := h
  obtain rfl := member_eq hjf hfield
  obtain rfl := member_eq hjo hop
  obtain rfl := member_eq hw hvalue
  obtain rfl := Option.some.inj hf
  obtain rfl := Option.some.inj ho
  rfl

/-- An entry is read as the condition it shows, if its value is read. -/
theorem parseWhereCond_entry {name token : Text} (hname : CleanText name) (htoken : CleanText token)
    (v : Shown) :
    ∃ fuel,
      (∀ c, parseWhereCond float (renderWhereEntry name token v) = some c →
        ∃ w rest, entryValueRead float (fuel + 1) v = some (w, rest) ∧ c = ⟨name, token, w⟩) ∧
      (∀ w, entryValueRead float (fuel + 1) v = some (w, [' ', '\x7d']) →
        parseWhereCond float (renderWhereEntry name token v) = some ⟨name, token, w⟩) := by
  obtain ⟨fuel, hparse⟩ := parseJson_entry float hname htoken v
  refine ⟨fuel, ?_, ?_⟩
  · intro c hc
    rw [parseWhereCond, hparse] at hc
    obtain ⟨json, hjson, hcond⟩ := Option.bind_eq_some_iff.mp hc
    obtain ⟨⟨w, rest⟩, hread, hmore⟩ := Option.bind_eq_some_iff.mp hjson
    obtain ⟨⟨fields, rest'⟩, -, hobject⟩ := Option.bind_eq_some_iff.mp hmore
    split at hobject
    · cases hobject
      exact ⟨w, rest, hread, whereCondOf_some hcond (by simp) (by simp) (by simp)⟩
    · cases hobject
  · intro w hread
    rw [parseWhereCond, hparse, hread]
    rfl

/-! Values. -/

theorem entryValueRead_quoted (fuel : Nat) (s : Text) :
    entryValueRead float (fuel + 1) (.quoted s) =
      (readString (s ++ ['"', ' ', '\x7d'])).map fun r => (.string r.1, r.2) := by
  rw [entryValueRead, Shown.text, readValue]
  have htext : ' ' :: ("\"".toList ++ s ++ "\"".toList) ++ [' ', '\x7d'] =
      ' ' :: '"' :: (s ++ ['"', ' ', '\x7d']) := by
    have hquote : "\"".toList = ['"'] := by decide
    simp only [hquote, List.append_assoc, List.cons_append, List.nil_append]
  rw [htext, skipSpace_space, skipSpace_cons (by decide)]
  rfl

/-- A value that starts as a number does is read as a number. -/
theorem readValue_number (fuel depth : Nat) {c : Char} (hc : c.isDigit = true ∨ c = '-') (t : Text) :
    readValue float (fuel + 1) depth (' ' :: c :: t) = readNumber float (c :: t) := by
  have hspace : isJsonSpace c = false := by
    obtain hc | rfl := hc
    · rw [Bool.eq_false_iff]
      intro h
      simp only [isJsonSpace, Bool.or_eq_true, decide_eq_true_eq] at h
      obtain ((rfl | rfl) | rfl) | rfl := h <;> exact absurd hc (by decide)
    · decide
  rw [readValue, skipSpace_space, skipSpace_cons hspace]
  split
  all_goals first
    | rfl
    | (rename_i heq
       obtain ⟨rfl, -⟩ := List.cons.inj heq
       exact absurd hc (by decide))

theorem text_head (l : DecimalLit) : ∃ c t, l.text = c :: t ∧ (c.isDigit = true ∨ c = '-') := by
  obtain ⟨c, int, hint⟩ := List.exists_cons_of_ne_nil l.int_ne
  cases hneg : l.neg with
  | true => exact ⟨'-', l.unsigned, by rw [DecimalLit.text, if_pos hneg], .inr rfl⟩
  | false =>
    refine ⟨c, int ++ l.fracText, ?_, .inl (l.int_digits c (hint ▸ List.mem_cons_self))⟩
    rw [DecimalLit.text, if_neg (by simp [hneg]), DecimalLit.unsigned, hint, List.cons_append]

/-- A number that JSON has: an integer that fits is read exactly, any other is read as a float. -/
theorem entryValueRead_number (fuel : Nat) (l : DecimalLit) :
    entryValueRead float (fuel + 1) (.bare l.text) =
      if l.RedundantZero then none
      else if l.frac = [] ∧ fitsInteger l.text = true then
        some (.number (.int (intValue l.text)), [' ', '\x7d'])
      else (float l.text).map fun p => (.number (.float p), [' ', '\x7d']) := by
  obtain ⟨c, t, htext, hc⟩ := text_head l
  have hread : entryValueRead float (fuel + 1) (.bare l.text) = readNumber float (l.text ++ [' ', '\x7d']) := by
    rw [entryValueRead, Shown.text, htext, List.cons_append, List.cons_append, readValue_number float _ _ hc]
  have hends : EndsNumber [' ', '\x7d'] := by
    intro c hc
    cases hc
    decide
  rw [hread, readNumber, scanNumber_text l hends]
  by_cases hzero : l.RedundantZero
  · rw [if_pos hzero, if_pos hzero]
    rfl
  · rw [if_neg hzero, if_neg hzero]
    by_cases hint : l.frac = [] ∧ fitsInteger l.text = true
    · simp [hint]
    · rw [if_neg hint]
      have hfloat : (!decide (l.frac ≠ []) && fitsInteger l.text) = false := by
        rw [Bool.eq_false_iff]
        simpa using hint
      simp only [bind, Option.bind_some, hfloat, Bool.false_eq_true, if_false]
      cases float l.text <;> rfl

theorem entryValueRead_true (fuel : Nat) :
    entryValueRead float (fuel + 1) (.bare "true".toList) = some (.bool true, [' ', '\x7d']) := by
  have htext : ' ' :: "true".toList ++ [' ', '\x7d'] = [' ', 't', 'r', 'u', 'e', ' ', '\x7d'] := by decide
  rw [entryValueRead, Shown.text, htext]
  rfl

/-! What is bound, against what is shown. -/

/-- The text of a value as it is bound. -/
def bindText : Json → Text
  | .string s => s
  | v => v.print

/-- A search binds its text with wildcards around it. -/
def searched (op b : Text) : Text :=
  if op = "contains".toList then "%".toList ++ b ++ "%".toList else b

theorem searched_injective (op : Text) : Function.Injective (searched op) := by
  intro b b' h
  unfold searched at h
  split at h
  · exact List.append_cancel_left (List.append_cancel_right h)
  · exact h

theorem conditionBind_eq (name token : Text) {w : Json} (hw : w ≠ .null) :
    conditionBind ⟨name, token, w⟩ = some (searched token (bindText w)) := by
  cases w with
  | null => exact absurd rfl hw
  | _ => simp only [conditionBind, coerceBind, searched, bindText, decide_eq_true_eq]

/-- A bound text stands for the value shown: it is the same text, or denotes the same number. -/
def Stands (v : Shown) (b : Text) : Prop :=
  match v with
  | .quoted s => b = s
  | .bare s => b = s ∨ ∃ l : DecimalLit, s = l.text ∧ decimal b = decimal s

/-- Values as the lines show them. -/
def Written (v : Shown) : Prop :=
  match v with
  | .quoted _ => True
  | .bare s => s = "true".toList ∨ ∃ l : DecimalLit, s = l.text

/-- A string without escapes, `true`, or a number without a redundant zero that is an integer of 64
bits or a float that prints as the same number. -/
def ValueFits (v : Shown) : Prop :=
  match v with
  | .quoted s => CleanText s
  | .bare s =>
    s = "true".toList ∨ ∃ l : DecimalLit, s = l.text ∧ ¬l.RedundantZero ∧
      ((l.frac = [] ∧ fitsInteger s = true) ∨ ∃ p, float s = some p ∧ (p = s ∨ decimal p = decimal s))

theorem decimal_integer {l : DecimalLit} (h : l.frac = []) : decimal l.text = intValue l.text := by
  have hunsigned : l.unsigned = l.int := by
    rw [DecimalLit.unsigned, DecimalLit.fracText, if_pos h, List.append_nil]
  obtain ⟨hpos, hneg⟩ := decimal_digits l.int_digits
  rw [DecimalLit.text, hunsigned]
  split
  · exact hneg
  · exact hpos

theorem fits_of_read {v : Shown} (hv : Written v) {fuel : Nat} {w : Json} {rest : Text}
    (hread : entryValueRead float (fuel + 1) v = some (w, rest)) (hstands : Stands v (bindText w)) :
    ValueFits float v := by
  cases v with
  | quoted s =>
    rw [entryValueRead_quoted] at hread
    obtain ⟨⟨s', rest'⟩, hstring, hw⟩ := Option.map_eq_some_iff.mp hread
    cases hw
    obtain rfl : s' = s := hstands
    exact readString_eq_self (by decide) hstring
  | bare s =>
    obtain hs | ⟨l, rfl⟩ := hv
    · exact .inl hs
    rw [entryValueRead_number] at hread
    split at hread
    · cases hread
    rename_i hzero
    refine .inr ⟨l, rfl, hzero, ?_⟩
    split at hread
    · exact .inl ‹_›
    · obtain ⟨p, hp, hw⟩ := Option.map_eq_some_iff.mp hread
      cases hw
      right
      obtain hsame | ⟨-, -, hdecimal⟩ := hstands
      · exact ⟨p, hp, .inl hsame⟩
      · exact ⟨p, hp, .inr hdecimal⟩

theorem read_of_fits {v : Shown} (h : ValueFits float v) (fuel : Nat) :
    ∃ w, entryValueRead float (fuel + 1) v = some (w, [' ', '\x7d']) ∧ w ≠ .null ∧
      Stands v (bindText w) := by
  cases v with
  | quoted s =>
    refine ⟨.string s, ?_, nofun, rfl⟩
    rw [entryValueRead_quoted, readString_clean h]
    rfl
  | bare s =>
    obtain rfl | ⟨l, rfl, hzero, hvalue⟩ := h
    · exact ⟨.bool true, entryValueRead_true float fuel, nofun, .inl rfl⟩
    rw [entryValueRead_number, if_neg hzero]
    by_cases hint : l.frac = [] ∧ fitsInteger l.text = true
    · rw [if_pos hint]
      refine ⟨_, rfl, nofun, .inr ⟨l, rfl, ?_⟩⟩
      rw [decimal_integer hint.1]
      exact decimal_toString _
    · rw [if_neg hint]
      obtain ⟨p, hp, hsame⟩ := hvalue.resolve_left hint
      rw [hp]
      exact ⟨_, rfl, nofun, hsame.imp_right fun hdecimal => ⟨l, rfl, hdecimal⟩⟩

/-! Lines. -/

theorem buildSelect_single (d : DomainDef) (c : WhereCond) :
    buildSelect d ⟨none, [c], [], none, false⟩ = (conditionField d c.field c.op).map fun f =>
      (selectText d (d.fields.map DomainFieldDef.name) [f] [c.op] [] [], [conditionBind c]) := by
  rw [buildSelect_eq, selectSql]
  simp only [List.map_cons, List.map_nil, List.mapM_cons, List.mapM_nil, WhereCond.shape]
  cases conditionField d c.field c.op <;> rfl

/-- The server reads the entry of a line as the condition it shows and compiles it, and binds the
one value that it shows. -/
def Taught (d : DomainDef) (l : ExampleLine) : Prop :=
  ∃ c sql b, parseWhereCond float l.entry = some c ∧ c.field = l.field.name ∧ c.op = l.op.token ∧
    buildSelect d ⟨none, [c], [], none, false⟩ = .ok (sql, [some (searched c.op b)]) ∧ Stands l.value b

/-- The field that has the name of the line's field is one the operator can filter. -/
def Accepts (d : DomainDef) (l : ExampleLine) : Prop :=
  ∃ g, findField d l.field.name = some g ∧ (g.filterable = true ∨ g.name = "id".toList) ∧
    l.op.token ∈ allowedOps g.fieldType

theorem taught_iff {d : DomainDef} {l : ExampleLine} (hname : CleanText l.field.name)
    (htoken : CleanText l.op.token) (hvalue : Written l.value) :
    Taught float d l ↔ Accepts d l ∧ ValueFits float l.value := by
  obtain ⟨fuel, hcond, hentry⟩ := parseWhereCond_entry float hname htoken l.value
  constructor
  · rintro ⟨c, sql, b, hparse, -, -, hselect, hstands⟩
    obtain ⟨w, rest, hread, rfl⟩ := hcond c hparse
    rw [buildSelect_single] at hselect
    cases hfield : conditionField d l.field.name l.op.token with
    | error e => rw [hfield] at hselect; cases hselect
    | ok g =>
      rw [hfield] at hselect
      have hbind : conditionBind ⟨l.field.name, l.op.token, w⟩ = some (searched l.op.token b) :=
        List.head_eq_of_cons_eq (Prod.mk.inj (Except.ok.inj hselect)).2
      have hw : w ≠ .null := by
        rintro rfl
        cases hbind
      rw [conditionBind_eq _ _ hw] at hbind
      obtain rfl := searched_injective _ (Option.some.inj hbind)
      exact ⟨⟨g, (conditionField_ok d).mp hfield⟩, fits_of_read float hvalue hread hstands⟩
  · rintro ⟨⟨g, hg⟩, hfits⟩
    obtain ⟨w, hread, hw, hstands⟩ := read_of_fits float hfits fuel
    refine ⟨⟨l.field.name, l.op.token, w⟩,
      selectText d (d.fields.map DomainFieldDef.name) [g] [l.op.token] [] [], bindText w,
      hentry w hread, rfl, rfl, ?_, hstands⟩
    rw [buildSelect_single, (conditionField_ok d).mpr hg, conditionBind_eq _ _ hw]
    rfl

theorem mem_exampleLines {d : DomainDef} {l : ExampleLine} (h : l ∈ exampleLines d) :
    l.field ∈ d.fields ∧ l.op ∈ operatorsForType l.field.fieldType ∧
      (l.value = l.op.sampleValue ∨ ∃ ex ∈ l.field.examples,
        l.value = formatExampleValue l.field.fieldType ex.value ex.valueIsString) := by
  obtain ⟨f, hf, hl⟩ := List.mem_flatMap.mp h
  have hfield : f ∈ d.fields := (List.mem_filter.mp hf).1
  obtain hl | hl := List.mem_append.mp hl
  · obtain ⟨op, hop, rfl⟩ := Option.map_eq_some_iff.mp (Option.mem_toList.mp hl)
    exact ⟨hfield, List.mem_of_mem_head? hop, .inl rfl⟩
  · obtain ⟨ex, hex, hline⟩ := List.mem_filterMap.mp hl
    obtain ⟨op, hop, rfl⟩ := Option.map_eq_some_iff.mp hline
    exact ⟨hfield, List.mem_of_find?_eq_some hop, .inr ⟨ex, hex, rfl⟩⟩

theorem operators_clean (ty : FieldType) : ∀ op ∈ operatorsForType ty, CleanText op.token := by
  cases ty <;> decide

def zero : DecimalLit := ⟨false, ['0'], [], nofun, by simp [AllDigits], nofun⟩

theorem samples_written (ty : FieldType) : ∀ op ∈ operatorsForType ty, Written op.sampleValue := by
  have hzero : Written (.bare "0".toList) := .inr ⟨zero, by decide⟩
  have htrue : Written (.bare "true".toList) := .inl rfl
  have hquoted : ∀ s, Written (.quoted s) := fun _ => trivial
  cases ty <;> simp only [operatorsForType, List.mem_cons, List.not_mem_nil, or_false, forall_eq_or_imp, forall_eq,
    hzero, htrue, hquoted, and_self]

theorem identChar_clean {c : Char} (h : isIdentChar c = true) : CleanChar c := by
  refine ⟨?_, ?_, ?_⟩
  · rintro rfl
    exact absurd h (by decide)
  · rintro rfl
    exact absurd h (by decide)
  · simp only [isIdentChar, isAlphaAscii, isDigitAscii, Char.isDigit, Bool.or_eq_true, Bool.and_eq_true,
      decide_eq_true_eq, Char.le_def, ge_iff_le, UInt32.le_iff_toNat_le] at h
    have hval : c.toNat = c.val.toNat := rfl
    rcases h with (rfl | h | h) | h
    · decide
    · have hlower : 97 ≤ c.val.toNat := h.1
      omega
    · have hupper : 65 ≤ c.val.toNat := h.1
      omega
    · have hdigit : 48 ≤ c.val.toNat := h.1
      omega

theorem identText_clean {s : Text} (h : IdentText s) : CleanText s :=
  fun c hc => identChar_clean (List.all_eq_true.mp h.1 c hc)

/-- Which of the lines that a domain is taught with the server accepts as they are meant. -/
theorem lines_taught_iff (source : Text) (d : DomainDef) (h : parseDomain source = .ok d) :
    ∀ l ∈ exampleLines d, Taught float d l ↔ Accepts d l ∧ ValueFits float l.value := by
  intro l hl
  obtain ⟨hfield, hop, hvalue⟩ := mem_exampleLines hl
  refine taught_iff float (identText_clean ((parseDomain_names h).2 _ hfield)) (operators_clean _ _ hop) ?_
  obtain hsample | ⟨ex, hex, hvalue⟩ := hvalue
  · exact hsample ▸ samples_written _ _ hop
  · rw [hvalue, formatExampleValue]
    split
    · trivial
    rename_i hstring
    split
    · trivial
    · exact .inr (parseDomain_numbers h _ hfield ex hex (by simpa using hstring))

end Entries

/-- A source whose examples are plain: a word for a text, a number for a price. -/
def plainSource : Text :=
  ("domain book from books@main \x7b field title: string filterable \x7b example like \"ann\" \"by title\" \x7d " ++
    "field price: float filterable \x7b example gt 1.5 \"\" \x7d \x7d").toList

def titleField : DomainFieldDef :=
  ⟨"title".toList, .string, false, true, none, [⟨.like, "ann".toList, true, "by title".toList⟩]⟩

def priceField : DomainFieldDef :=
  ⟨"price".toList, .float, false, true, none, [⟨.gt, "1.5".toList, false, []⟩]⟩

def plainDomain : DomainDef :=
  ⟨"book".toList, "books".toList, "main".toList, [], [titleField, priceField], [], [], [], []⟩

set_option maxRecDepth 4000 in
theorem plainSource_parsed : parseDomain plainSource = .ok plainDomain := by
  refine parseDomain_ok.mpr ⟨(lex plainSource).toOption.getD [], ?_, ?_⟩
  · decide
  · decide


/-- Floats on these sources print as they are written. -/
def plainFloat (t : Text) : Option Text := some t

theorem plainSource_taught :
    parseDomain plainSource = .ok plainDomain ∧
      ∀ l ∈ exampleLines plainDomain, Taught plainFloat plainDomain l := by
  have htitle : findField plainDomain "title".toList = some titleField := by decide
  have hprice : findField plainDomain "price".toList = some priceField := by decide
  refine ⟨plainSource_parsed, fun l hl => ?_⟩
  refine (lines_taught_iff plainFloat plainSource plainDomain plainSource_parsed l hl).mpr ?_
  have hlines : (exampleLines plainDomain).map (fun l => (l.field, l.op.token, l.value)) =
      [(titleField, "contains".toList, .quoted "a".toList), (titleField, "contains".toList, .quoted "ann".toList),
        (priceField, "eq".toList, .bare "0".toList), (priceField, "gt".toList, .bare "1.5".toList)] := by
    decide
  have hmem := List.mem_map_of_mem (f := fun l : ExampleLine => (l.field, l.op.token, l.value)) hl
  rw [hlines] at hmem
  simp only [List.mem_cons, List.not_mem_nil, or_false, Prod.mk.injEq] at hmem
  have hhalf : ValueFits plainFloat (.bare "1.5".toList) :=
    .inr ⟨⟨false, ['1'], ['5'], nofun, by simp [AllDigits], by simp [AllDigits]⟩, by decide, by decide,
      .inr ⟨_, rfl, .inl rfl⟩⟩
  have hzero : ValueFits plainFloat (.bare "0".toList) := .inr ⟨zero, by decide, by decide, .inl ⟨rfl, by decide⟩⟩
  unfold Accepts
  obtain ⟨hf, ho, hv⟩ | ⟨hf, ho, hv⟩ | ⟨hf, ho, hv⟩ | ⟨hf, ho, hv⟩ := hmem <;> rw [hf, ho, hv]
  · exact ⟨⟨titleField, htitle, .inl rfl, by decide⟩, show CleanText "a".toList by decide⟩
  · exact ⟨⟨titleField, htitle, .inl rfl, by decide⟩, show CleanText "ann".toList by decide⟩
  · exact ⟨⟨priceField, hprice, .inl rfl, by decide⟩, hzero⟩
  · exact ⟨⟨priceField, hprice, .inl rfl, by decide⟩, hhalf⟩

/-- A source with a quote in an example. -/
def quoteSource : Text :=
  "domain book from books@main \x7b field title: string filterable \x7b example eq \"a\\\"b\" \"\" \x7d \x7d".toList

def quoteExample : Text := ['a', '"', 'b']

def quoteField : DomainFieldDef :=
  ⟨"title".toList, .string, false, true, none, [⟨.eq, quoteExample, true, []⟩]⟩

def quoteDomain : DomainDef :=
  ⟨"book".toList, "books".toList, "main".toList, [], [quoteField], [], [], [], []⟩

def quoteLine : ExampleLine :=
  ⟨"where example (title equals)".toList, quoteField,
    ⟨.eq, "equals".toList, "eq".toList, .quoted "value".toList⟩, .quoted quoteExample⟩

theorem quoteSource_parsed : parseDomain quoteSource = .ok quoteDomain := by
  refine parseDomain_ok.mpr ⟨(lex quoteSource).toOption.getD [], ?_, ?_⟩
  · decide
  · decide

/-- The quote ends the string that it is shown in, and the entry is not JSON. -/
theorem quoteLine_not_taught :
    parseDomain quoteSource = .ok quoteDomain ∧ quoteLine ∈ exampleLines quoteDomain ∧
      ∀ float : Text → Option Text, parseWhereCond float quoteLine.entry = none ∧
        ¬Taught float quoteDomain quoteLine := by
  refine ⟨quoteSource_parsed, by decide, fun float => ?_⟩
  have hnone : parseWhereCond float quoteLine.entry = none := by
    obtain ⟨fuel, hparse⟩ := parseJson_entry float (show CleanText quoteLine.field.name by decide)
      (show CleanText quoteLine.op.token by decide) quoteLine.value
    have hread : entryValueRead float (fuel + 1) quoteLine.value =
        some (.string ['a'], ['b', '"', ' ', '\x7d']) := entryValueRead_quoted float fuel quoteExample
    rw [parseWhereCond, ExampleLine.entry, hparse, hread]
    rfl
  refine ⟨hnone, ?_⟩
  rintro ⟨c, sql, b, hc, -⟩
  rw [hnone] at hc
  cases hc

end Onisin.Gql
