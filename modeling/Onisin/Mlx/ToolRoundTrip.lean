import Mathlib.Data.List.Sort
import Onisin.Lib.Incremental
import Onisin.Lib.JsonParse
import Onisin.Lib.Marker
import Onisin.Mlx.ToolParse

/-!
Calls written in the tool grammar and read back. Reading gives what was written unless an object
below the top level is empty: the loop over its fields takes the closing brace for a key.
-/

set_option autoImplicit false

namespace Onisin.Mlx
open Lib

structure GoodKey (key : Text) : Prop where
  nonempty : key ≠ []
  colon : ':' ∉ key
  marker : ¬ quote <:+: key
  trimmed : Text.trim key = key

/-- The fields of an ordered map. -/
def Ascending (fields : List (Text × Json)) : Prop :=
  fields.Pairwise fun a b => a.1 ≠ b.1 ∧ Text.precedes a.1 b.1 = true

mutual

/-- What a call's arguments may be made of: strings without the quote marker and integers of 64
bits, in arrays and in objects whose keys can stand bare. -/
def Callable : Json → Prop
  | .null => True
  | .bool _ => True
  | .number (.int n) => IsI64 n
  | .number (.float _) => False
  | .string s => ¬ quote <:+: s
  | .array items => CallableItems items
  | .object fields => Ascending fields ∧ CallableFields fields

def CallableItems : List Json → Prop
  | [] => True
  | v :: items => Callable v ∧ CallableItems items

def CallableFields : List (Text × Json) → Prop
  | [] => True
  | (key, v) :: fields => GoodKey key ∧ Callable v ∧ CallableFields fields

end

mutual

/-- A property of a value and of all values in it. -/
def every (p : Json → Bool) : Json → Bool
  | .object fields => p (.object fields) && everyField p fields
  | .array items => p (.array items) && everyItem p items
  | v => p v

def everyItem (p : Json → Bool) : List Json → Bool
  | [] => true
  | v :: items => every p v && everyItem p items

def everyField (p : Json → Bool) : List (Text × Json) → Bool
  | [] => true
  | (_, v) :: fields => every p v && everyField p fields

end

def notEmptyObject : Json → Bool
  | .object [] => false
  | _ => true

/-- No object in it is empty. -/
def filled (v : Json) : Bool := every notEmptyObject v

def filledFields (fields : List (Text × Json)) : Bool := everyField notEmptyObject fields

variable {printF64 : Bool → Rat → Text} {key s t tok rest : Text} {v : Json} {items : List Json}
  {fields acc : List (Text × Json)} {c : Char} {fuel : Nat}

/-! The order of an ordered map. -/

theorem precedes_antisymm {s t : Text} (hst : Text.precedes s t = true) (hts : Text.precedes t s = true) :
    s = t := by
  induction s generalizing t with
  | nil =>
    cases t with
    | nil => rfl
    | cons d t => cases hts
  | cons c s ih =>
    cases t with
    | nil => cases hst
    | cons d t =>
      simp only [Text.precedes, Bool.or_eq_true, decide_eq_true_eq, Bool.and_eq_true, beq_iff_eq] at hst hts
      have hcd : c.toNat = d.toNat := by omega
      have hrest : Text.precedes s t = true ∧ Text.precedes t s = true :=
        ⟨(hst.resolve_left (by omega)).2, (hts.resolve_left (by omega)).2⟩
      rw [ih hrest.1 hrest.2, Char.toNat_inj.mp hcd]

/-- A key past all others goes to the end. -/
theorem insertField_last (h : ∀ e ∈ acc, e.1 ≠ key ∧ Text.precedes e.1 key = true) (v : Json) :
    insertField key v acc = acc ++ [(key, v)] := by
  induction acc with
  | nil => rfl
  | cons e acc ih =>
    obtain ⟨k, w⟩ := e
    obtain ⟨hne, hle⟩ := h (k, w) List.mem_cons_self
    have hnot : ¬ Text.precedes key k = true := fun hge => hne (precedes_antisymm hle hge)
    rw [insertField, if_neg hne, if_neg hnot, ih fun e he => h e (List.mem_cons_of_mem _ he)]
    rfl

/-- The fields of an ordered map, as they are written. -/
def fieldsText (fields : List (Text × Json)) : Text := Text.join comma ((renderFields fields).map (·.2))

theorem renderFields_keys (fields : List (Text × Json)) :
    (renderFields fields).map (·.1) = fields.map (·.1) := by
  induction fields with
  | nil => rfl
  | cons e fields ih =>
    obtain ⟨k, v⟩ := e
    rw [renderFields, List.map_cons, ih]
    rfl

theorem sortByKey_renderFields (h : Ascending fields) :
    sortByKey (renderFields fields) = renderFields fields := by
  refine List.Pairwise.insertionSort_eq ?_
  have hkeys : (fields.map (·.1)).Pairwise fun a b => Text.precedes a b = true :=
    List.pairwise_map.mpr (h.imp fun hab => hab.2)
  rw [← renderFields_keys] at hkeys
  exact List.pairwise_map.mp hkeys

theorem renderArgument_object (h : Ascending fields) :
    renderArgument (.object fields) = '\x7b' :: (fieldsText fields ++ ['\x7d']) := by
  rw [renderArgument, sortByKey_renderFields h]
  rfl

/-! One token. -/

/-- Where a bare token ends. -/
def Stops (rest : Text) : Prop := ∀ c ∈ rest.head?, isStructural c = true

theorem not_ascii_of_not_space (h : isWhitespace c = false) : isAsciiWhitespace c = false := by
  cases hc : isAsciiWhitespace c with
  | false => rfl
  | true =>
    simp only [isAsciiWhitespace, Bool.or_eq_true, decide_eq_true_eq] at hc
    rcases hc with (((rfl | rfl) | rfl) | rfl) | hc
    · exact absurd h (by decide)
    · exact absurd h (by decide)
    · exact absurd h (by decide)
    · exact absurd h (by decide)
    · rw [isWhitespace, hc] at h
      cases h

theorem skipWs_cons (h : isAsciiWhitespace c = false) (t : Text) : skipWs (c :: t) = c :: t :=
  List.dropWhile_cons_of_neg (by simp [h])

theorem eat_cons (h : isAsciiWhitespace c = false) (t : Text) : eat c (c :: t) = .ok t := by
  rw [eat, skipWs_cons h]
  exact if_pos rfl

theorem isMarker_quote : IsMarker quote := by decide

theorem stripQuote_cons (h : c ≠ '<') (t : Text) : Text.stripPrefix quote (c :: t) = none := by
  refine Text.stripPrefix_none fun hp => h ?_
  obtain ⟨u, hu⟩ := hp
  exact (List.cons.inj hu).1.symm

theorem readQuoted_append (h : ¬ quote <:+: s) (rest : Text) :
    readQuoted (s ++ (quote ++ rest)) = .ok (s, rest) := by
  rw [readQuoted, beforeFirst_marker isMarker_quote h rest]
  have hdrop : (s ++ (quote ++ rest)).drop (s.length + quote.length) = rest := by
    rw [← List.append_assoc, ← List.length_append]
    exact List.drop_left
  simp only [hdrop]

/-- A key does not begin with a space, nor with a marker. -/
theorem GoodKey.head (h : GoodKey key) :
    ∃ c t, key = c :: t ∧ isAsciiWhitespace c = false := by
  obtain ⟨c, t, rfl⟩ := List.exists_cons_of_ne_nil h.nonempty
  obtain ⟨before, after, htrim⟩ := Text.trimBy_trimmed isWhitespace (c :: t)
  rw [← Text.trim_eq, h.trimmed] at htrim
  exact ⟨c, t, rfl, not_ascii_of_not_space (htrim.head c rfl)⟩

theorem GoodKey.no_quote (h : GoodKey key) (rest : Text) :
    Text.stripPrefix quote (key ++ ':' :: rest) = none := by
  refine Text.stripPrefix_none fun hp => ?_
  rcases List.prefix_or_prefix_of_prefix hp (List.prefix_append key _) with hin | hover
  · exact h.marker hin.isInfix
  · -- the marker has no colon, so it ends within the key
    obtain ⟨u, hu⟩ := hover
    cases u with
    | nil =>
      rw [List.append_nil] at hu
      exact h.marker (hu ▸ List.infix_rfl)
    | cons d u =>
      rw [← hu] at hp
      obtain ⟨w, hw⟩ := hp
      rw [List.append_assoc, List.cons_append] at hw
      obtain ⟨rfl, -⟩ := List.cons.inj (List.append_cancel_left hw)
      have hmem : ':' ∈ quote := hu ▸ List.mem_append_right _ List.mem_cons_self
      exact absurd hmem (by decide)

theorem readKey_append (h : GoodKey key) (rest : Text) :
    readKey (key ++ ':' :: rest) = .ok (key, ':' :: rest) := by
  obtain ⟨c, t, hkey, hc⟩ := h.head
  have hskip : skipWs (key ++ ':' :: rest) = key ++ ':' :: rest := by
    rw [hkey, List.cons_append, skipWs_cons hc]
  have hspan : (key ++ ':' :: rest).span (· ≠ ':') = (key, ':' :: rest) := by
    refine span_append (fun a ha => ?_) fun a ha => ?_
    · have hne : a ≠ ':' := fun heq => h.colon (heq ▸ ha)
      simpa using hne
    · cases ha
      rfl
  have hempty : key.isEmpty = false := by rw [hkey]; rfl
  rw [readKey, hskip, h.no_quote]
  simp only [hspan, h.trimmed, hempty, Bool.false_eq_true, if_false]

/-- The characters of bare tokens. -/
def isBareChar (c : Char) : Bool :=
  isGraphic c && c ≠ '<' && c ≠ '"' && c ≠ '\x7b' && c ≠ '[' && !isStructural c

structure BareChar (c : Char) : Prop where
  graphic : isGraphic c = true
  marker : c ≠ '<'
  quote : c ≠ '"'
  brace : c ≠ '\x7b'
  bracket : c ≠ '['
  structural : isStructural c = false

theorem bareChar_of (h : isBareChar c = true) : BareChar c := by
  simp only [isBareChar, Bool.and_eq_true, decide_eq_true_eq, Bool.not_eq_true'] at h
  obtain ⟨⟨⟨⟨⟨hgraphic, hmarker⟩, hquote⟩, hbrace⟩, hbracket⟩, hstop⟩ := h
  exact ⟨hgraphic, hmarker, hquote, hbrace, hbracket, hstop⟩

theorem BareChar.space (h : BareChar c) : isAsciiWhitespace c = false :=
  not_ascii_of_not_space (not_space_of_isGraphic h.graphic).1

theorem isBareChar_of_isDigit (h : c.isDigit = true) : isBareChar c = true := by
  have hne : ∀ d : Char, d.isDigit = false → c ≠ d := by
    rintro d hd rfl
    rw [h] at hd
    cases hd
  have hstop : isStructural c = false := by
    simp [isStructural, hne ',' (by decide), hne '\x7d' (by decide), hne ']' (by decide)]
  simp [isBareChar, isGraphic_of_isDigit h, hne '<' (by decide), hne '"' (by decide),
    hne '\x7b' (by decide), hne '[' (by decide), hstop]

theorem isBareChar_toString (n : Int) : ∀ c ∈ (toString n).toList, isBareChar c = true :=
  forall_toString isBareChar_of_isDigit (by decide) n

theorem toString_ne_nil (n : Int) : (toString n).toList ≠ [] := by
  intro hnil
  have hsign := stripSign_toString n
  rw [hnil] at hsign
  exact Nat.toDigits_ne_nil (congrArg Prod.snd hsign).symm

theorem readValue_bare (hne : tok ≠ []) (hbare : ∀ c ∈ tok, isBareChar c = true) (hrest : Stops rest) :
    readValue printF64 (fuel + 1) (tok ++ rest) = .ok (bareValue printF64 tok, rest) := by
  have hspan : (tok ++ rest).span (fun c => !isStructural c) = (tok, rest) := by
    refine span_append (fun a ha => ?_) fun a ha => by rw [hrest a ha]; rfl
    rw [(bareChar_of (hbare a ha)).structural]
    rfl
  have hread : readBare printF64 (tok ++ rest) = (bareValue printF64 tok, rest) := by
    rw [readBare, hspan, (trim_of_isGraphic fun c hc => (bareChar_of (hbare c hc)).graphic).1]
  obtain ⟨c, t, rfl⟩ := List.exists_cons_of_ne_nil hne
  have hc := bareChar_of (hbare c List.mem_cons_self)
  rw [List.cons_append] at hread
  rw [readValue, List.cons_append, skipWs_cons hc.space]
  simp only [stripQuote_cons hc.marker]
  split
  · next heq => exact absurd (List.cons.inj heq).1 hc.brace
  · next heq => exact absurd (List.cons.inj heq).1 hc.bracket
  · next heq => cases heq
  · rw [hread]

theorem bareValue_int {n : Int} (h : IsI64 n) :
    bareValue printF64 (toString n).toList = .number (.int n) := by
  have hread : parseI64 (toString n).toList = some n := (parseI64_toString n).trans (if_pos h)
  have hne : ∀ word : Text, parseI64 word = none → (toString n).toList ≠ word := by
    rintro word hword heq
    rw [heq, hword] at hread
    cases hread
  rw [bareValue, if_neg (hne _ (by decide)), if_neg (hne _ (by decide)), if_neg (hne _ (by decide)), hread]

/-! Whole values. -/

def itemsText (items : List Json) : Text := Text.join comma (renderItems items)

theorem renderArgument_array (items : List Json) :
    renderArgument (.array items) = '[' :: (itemsText items ++ [']']) := by
  rw [renderArgument]
  rfl

theorem fieldsText_cons (e : Text × Json) (fields : List (Text × Json)) :
    fieldsText (e :: fields) = e.1 ++ ':' :: (renderArgument e.2 ++
      if fields = [] then [] else ',' :: fieldsText fields) := by
  obtain ⟨k, v⟩ := e
  rw [fieldsText, renderFields, List.map_cons, Text.join_cons]
  cases fields with
  | nil => simp [renderFields]
  | cons f fields => simp [fieldsText, renderFields, comma]

theorem itemsText_cons (v : Json) (items : List Json) :
    itemsText (v :: items) = renderArgument v ++ if items = [] then [] else ',' :: itemsText items := by
  rw [itemsText, renderItems, Text.join_cons]
  cases items with
  | nil => rfl
  | cons w items => rfl

/-- What a written value begins with. -/
theorem renderArgument_head (v : Json) (h : Callable v) :
    ∃ c t, renderArgument v = c :: t ∧ isAsciiWhitespace c = false ∧ c ≠ ']' := by
  cases v with
  | null => exact ⟨'n', "ull".toList, rfl, by decide, by decide⟩
  | bool b =>
    cases b with
    | true => exact ⟨'t', "rue".toList, rfl, by decide, by decide⟩
    | false => exact ⟨'f', "alse".toList, rfl, by decide, by decide⟩
  | number n =>
    cases n with
    | int n =>
      obtain ⟨c, t, htext⟩ := List.exists_cons_of_ne_nil (toString_ne_nil n)
      have hc := bareChar_of (isBareChar_toString n c (htext ▸ List.mem_cons_self))
      refine ⟨c, t, htext, hc.space, ?_⟩
      rintro rfl
      exact absurd hc.structural (by decide)
    | float printed => exact h.elim
  | string s => exact ⟨'<', _, rfl, by decide, by decide⟩
  | array items => exact ⟨'[', _, renderArgument_array items, by decide, by decide⟩
  | object fields => exact ⟨'\x7b', _, renderArgument_object h.1, by decide, by decide⟩

theorem readObject_step (hk : GoodKey key) {more : Text}
    (hv : readValue printF64 fuel (renderArgument v ++ more) = .ok (v, more)) :
    readObject printF64 (fuel + 1) acc (key ++ ':' :: (renderArgument v ++ more)) =
      match skipWs more with
      | ',' :: t => readObject printF64 fuel (insertField key v acc) (skipWs t)
      | t => .ok (insertField key v acc, t) := by
  have hne : (key ++ ':' :: (renderArgument v ++ more)).isEmpty = false := by
    obtain ⟨c, t, rfl, -⟩ := hk.head
    rfl
  rw [readObject, hne, readKey_append hk]
  simp only [Bool.false_eq_true, if_false, bind, Except.bind]
  rw [eat_cons (by decide)]
  simp only [hv]
  rfl

theorem fieldsText_head (hc : CallableFields fields) (hne : fields ≠ []) (rest : Text) :
    skipWs (fieldsText fields ++ rest) = fieldsText fields ++ rest := by
  obtain ⟨⟨k, v⟩, fields, rfl⟩ := List.exists_cons_of_ne_nil hne
  obtain ⟨c, t, hk, hspace⟩ := GoodKey.head hc.1
  rw [fieldsText_cons, hk]
  exact skipWs_cons hspace _

theorem Ascending.insertField (h : Ascending (acc ++ (key, v) :: fields)) :
    insertField key v acc = acc ++ [(key, v)] ∧ Ascending (acc ++ [(key, v)] ++ fields) := by
  refine ⟨insertField_last (fun e he => ?_) v, by rwa [List.append_assoc]⟩
  exact (List.pairwise_append.mp h).2.2 e he (key, v) List.mem_cons_self

theorem itemsText_head (hc : CallableItems items) (hne : items ≠ []) :
    ∃ c t, itemsText items = c :: t ∧ isAsciiWhitespace c = false ∧ c ≠ ']' := by
  obtain ⟨v, items, rfl⟩ := List.exists_cons_of_ne_nil hne
  obtain ⟨c, t, htext, hplain⟩ := renderArgument_head v hc.1
  exact ⟨c, _, by rw [itemsText_cons, htext]; rfl, hplain⟩

/-- Where the fields of an object end. -/
def Closes (rest : Text) : Prop := rest = [] ∨ ∃ t, rest = '\x7d' :: t

theorem Closes.stops (h : Closes rest) : Stops rest := by
  intro c hc
  rcases h with rfl | ⟨t, rfl⟩
  · cases hc
  · cases hc
    decide

mutual

theorem readValue_render (v : Json) (hv : Callable v) (hf : filled v = true) (fuel : Nat) (rest : Text)
    (hrest : Stops rest) (hfuel : 2 * (renderArgument v ++ rest).length + 1 ≤ fuel) :
    readValue printF64 fuel (renderArgument v ++ rest) = .ok (v, rest) := by
  obtain ⟨fuel, rfl⟩ : ∃ n, fuel = n + 1 := ⟨fuel - 1, by omega⟩
  match v with
  | .null => exact readValue_bare (by decide) (List.all_eq_true.mp (by decide)) hrest
  | .bool true => exact readValue_bare (by decide) (List.all_eq_true.mp (by decide)) hrest
  | .bool false => exact readValue_bare (by decide) (List.all_eq_true.mp (by decide)) hrest
  | .number (.int n) =>
    rw [renderArgument, Number.toText, readValue_bare (toString_ne_nil n) (isBareChar_toString n) hrest,
      bareValue_int hv]
  | .number (.float printed) => exact hv.elim
  | .string s =>
    have hquoted : renderArgument (.string s) ++ rest = quote ++ (s ++ (quote ++ rest)) := by
      simp [renderArgument, quoted]
    have hskip : skipWs (quote ++ (s ++ (quote ++ rest))) = quote ++ (s ++ (quote ++ rest)) :=
      skipWs_cons (by decide) _
    rw [hquoted, readValue, hskip, Text.stripPrefix_append]
    simp only [readQuoted_append hv, bind, Except.bind]
    rfl
  | .array items =>
    rw [renderArgument_array, List.cons_append, List.append_assoc] at hfuel ⊢
    rw [readValue, skipWs_cons (by decide)]
    simp only [stripQuote_cons (show '[' ≠ '<' by decide)]
    rw [filled, every, Bool.and_eq_true] at hf
    by_cases hempty : items = []
    · subst hempty
      rfl
    · have hread := readArray_render items hempty hv hf.2 fuel rest (by simp at hfuel ⊢; omega)
      obtain ⟨c, t, htext, hspace, hclose⟩ := itemsText_head hv hempty
      rw [htext] at hread
      rw [List.singleton_append, htext, List.cons_append, skipWs_cons hspace]
      split
      · next heq => exact absurd (List.cons.inj heq).1 hclose
      · rw [← List.cons_append, hread]
        rfl
  | .object fields =>
    rw [filled, every, Bool.and_eq_true] at hf
    have hne : fields ≠ [] := by
      rintro rfl
      cases hf.1
    rw [renderArgument_object hv.1, List.cons_append, List.append_assoc] at hfuel ⊢
    rw [readValue, skipWs_cons (by decide)]
    simp only [stripQuote_cons (show '\x7b' ≠ '<' by decide)]
    rw [List.singleton_append, fieldsText_head hv.2 hne]
    have hread := readObject_render fields hne hv.2 hf.2 [] hv.1 fuel ('\x7d' :: rest)
      (.inr ⟨rest, rfl⟩) (by simp at hfuel ⊢; omega)
    rw [hread]
    simp only [bind, Except.bind, eat_cons (show isAsciiWhitespace '\x7d' = false by decide)]
    rfl

theorem readArray_render (items : List Json) (hne : items ≠ []) (hc : CallableItems items)
    (hf : everyItem notEmptyObject items = true) (fuel : Nat) (rest : Text)
    (hfuel : 2 * (itemsText items ++ ']' :: rest).length + 2 ≤ fuel) :
    readArray printF64 fuel (itemsText items ++ ']' :: rest) = .ok (items, rest) := by
  obtain ⟨fuel, rfl⟩ : ∃ n, fuel = n + 1 := ⟨fuel - 1, by omega⟩
  match items with
  | [] => exact absurd rfl hne
  | v :: items =>
    rw [everyItem, Bool.and_eq_true] at hf
    rw [itemsText_cons, List.append_assoc] at hfuel ⊢
    by_cases hlast : items = []
    · subst hlast
      have hstops : Stops (']' :: rest) := fun c hc => by cases hc; decide
      have hread := readValue_render v hc.1 hf.1 fuel _ hstops (by simp at hfuel ⊢; omega)
      rw [readArray, if_pos rfl, List.nil_append, hread]
      rfl
    · rw [if_neg hlast, List.cons_append] at hfuel ⊢
      have hstops : Stops (',' :: (itemsText items ++ ']' :: rest)) := fun c hc => by cases hc; decide
      have hread := readValue_render v hc.1 hf.1 fuel _ hstops (by simp at hfuel ⊢; omega)
      have hmore := readArray_render items hlast hc.2 hf.2 fuel rest
        (by simp at hfuel ⊢; omega)
      rw [readArray, hread]
      simp only [bind, Except.bind, skipWs_cons (show isAsciiWhitespace ',' = false by decide), hmore]
      rfl

theorem readObject_render (fields : List (Text × Json)) (hne : fields ≠ []) (hc : CallableFields fields)
    (hf : filledFields fields = true) (acc : List (Text × Json)) (hasc : Ascending (acc ++ fields))
    (fuel : Nat) (rest : Text) (hrest : Closes rest)
    (hfuel : 2 * (fieldsText fields ++ rest).length + 2 ≤ fuel) :
    readObject printF64 fuel acc (fieldsText fields ++ rest) = .ok (acc ++ fields, rest) := by
  obtain ⟨fuel, rfl⟩ : ∃ n, fuel = n + 1 := ⟨fuel - 1, by omega⟩
  match fields with
  | [] => exact absurd rfl hne
  | (k, v) :: fields =>
    rw [filledFields, everyField, Bool.and_eq_true] at hf
    obtain ⟨hlast, hasc'⟩ := hasc.insertField
    rw [fieldsText_cons, List.append_assoc, List.cons_append, List.append_assoc] at hfuel ⊢
    by_cases hnil : fields = []
    · subst hnil
      have hread := readValue_render v hc.2.1 hf.1 fuel rest hrest.stops (by simp at hfuel ⊢; omega)
      rw [if_pos rfl, List.nil_append, readObject_step hc.1 hread, hlast]
      rcases hrest with rfl | ⟨t, rfl⟩
      · rfl
      · rfl
    · rw [if_neg hnil, List.cons_append] at hfuel ⊢
      have hstops : Stops (',' :: (fieldsText fields ++ rest)) := fun c hc => by cases hc; decide
      have hread := readValue_render v hc.2.1 hf.1 fuel _ hstops (by simp at hfuel ⊢; omega)
      have hmore := readObject_render fields hnil hc.2.2 hf.2 _ hasc' fuel rest hrest
        (by simp at hfuel ⊢; omega)
      rw [readObject_step hc.1 hread, skipWs_cons (by decide), hlast]
      simp only [fieldsText_head hc.2.2 hnil, hmore, List.append_assoc, List.singleton_append]

end

/-! What holds of everything that is read. -/

theorem insertField_ne_nil (key : Text) (v : Json) (acc : List (Text × Json)) :
    insertField key v acc ≠ [] := by
  cases acc with
  | nil => exact List.cons_ne_nil _ _
  | cons e acc =>
    rw [insertField]
    split
    · exact List.cons_ne_nil _ _
    · split <;> exact List.cons_ne_nil _ _

section Every
variable {p : Json → Bool}

theorem insertField_every (hv : every p v = true) (hacc : everyField p acc = true) :
    everyField p (insertField key v acc) = true := by
  induction acc with
  | nil => simp [insertField, everyField, hv]
  | cons e acc ih =>
    obtain ⟨k, w⟩ := e
    rw [everyField, Bool.and_eq_true] at hacc
    rw [insertField]
    split
    · simp [everyField, hv, hacc.2]
    · split
      · simp [everyField, hv, hacc]
      · simp [everyField, hacc.1, ih hacc.2]

/-- What the readers can build: bare values, strings, arrays, and objects that are not empty. -/
structure Buildable (printF64 : Bool → Rat → Text) (p : Json → Bool) : Prop where
  bare : ∀ tok, every p (bareValue printF64 tok) = true
  string : ∀ s, p (.string s) = true
  array : ∀ items, p (.array items) = true
  object : ∀ fields, fields ≠ [] → p (.object fields) = true

/-- One call of each reader. -/
structure ReadsEvery (printF64 : Bool → Rat → Text) (p : Json → Bool) (fuel : Nat) : Prop where
  value : ∀ t v r, readValue printF64 fuel t = .ok (v, r) → every p v = true
  object : ∀ acc t fields r, readObject printF64 fuel acc t = .ok (fields, r) →
    everyField p acc = true → everyField p fields = true ∧ (fields = [] → r = [])
  array : ∀ t items r, readArray printF64 fuel t = .ok (items, r) → everyItem p items = true

theorem ReadsEvery.value_succ {fuel : Nat} (hp : Buildable printF64 p) (ih : ReadsEvery printF64 p fuel)
    {t r : Text} {v : Json} (h : readValue printF64 (fuel + 1) t = .ok (v, r)) : every p v = true := by
  rw [readValue] at h
  dsimp only at h
  split at h
  · obtain ⟨⟨s, t'⟩, -, hs⟩ := bind_eq_ok.mp h
    cases hs
    exact hp.string s
  · split at h
    · obtain ⟨⟨fields, t'⟩, hfields, hrest⟩ := bind_eq_ok.mp h
      obtain ⟨t'', heat, hs⟩ := bind_eq_ok.mp hrest
      cases hs
      obtain ⟨hevery, hempty⟩ := ih.object _ _ _ _ hfields rfl
      -- an object without fields reads to the end of the input, where there is no brace
      have hne : fields ≠ [] := by
        intro hnil
        rw [hempty hnil] at heat
        cases heat
      rw [every, hevery, hp.object fields hne]
      rfl
    · split at h
      · cases h
        rw [every, hp.array]
        rfl
      · obtain ⟨⟨items, t'⟩, hitems, hs⟩ := bind_eq_ok.mp h
        cases hs
        rw [every, hp.array, ih.array _ _ _ hitems]
        rfl
    · cases h
    · cases h
      exact hp.bare _

theorem ReadsEvery.object_succ {fuel : Nat} (ih : ReadsEvery printF64 p fuel) {acc : List (Text × Json)}
    {t r : Text} (h : readObject printF64 (fuel + 1) acc t = .ok (fields, r))
    (hacc : everyField p acc = true) : everyField p fields = true ∧ (fields = [] → r = []) := by
  rw [readObject] at h
  split at h
  · next hend =>
    cases h
    exact ⟨hacc, fun _ => List.isEmpty_iff.mp hend⟩
  · obtain ⟨⟨key, t₁⟩, -, h⟩ := bind_eq_ok.mp h
    obtain ⟨t₂, -, h⟩ := bind_eq_ok.mp h
    obtain ⟨⟨v, t₃⟩, hv, h⟩ := bind_eq_ok.mp h
    have hmore : everyField p (insertField key v acc) = true :=
      insertField_every (ih.value _ _ _ hv) hacc
    dsimp only at h
    split at h
    · exact ih.object _ _ _ _ h hmore
    · cases h
      exact ⟨hmore, fun hnil => absurd hnil (insertField_ne_nil _ _ _)⟩

theorem ReadsEvery.array_succ {fuel : Nat} (ih : ReadsEvery printF64 p fuel) {t r : Text}
    (h : readArray printF64 (fuel + 1) t = .ok (items, r)) : everyItem p items = true := by
  rw [readArray] at h
  obtain ⟨⟨v, t₁⟩, hv, h⟩ := bind_eq_ok.mp h
  dsimp only at h
  split at h
  · obtain ⟨⟨vs, t₂⟩, hvs, h⟩ := bind_eq_ok.mp h
    cases h
    rw [everyItem, ih.value _ _ _ hv, ih.array _ _ _ hvs]
    rfl
  · cases h
    rw [everyItem, ih.value _ _ _ hv]
    rfl
  · cases h

theorem readsEvery (hp : Buildable printF64 p) (fuel : Nat) : ReadsEvery printF64 p fuel := by
  induction fuel with
  | zero =>
    constructor
    · intro t v r h
      cases h
    · intro acc t fields r h
      cases h
    · intro t items r h
      cases h
  | succ fuel ih =>
    constructor
    · exact fun t v r h => ih.value_succ hp h
    · exact fun acc t fields r h hacc => ih.object_succ h hacc
    · exact fun t items r h => ih.array_succ h

theorem parsePseudoObject_every (hp : Buildable printF64 p) {body : Text}
    (h : parsePseudoObject printF64 body = .ok fields) : everyField p fields = true := by
  obtain ⟨⟨fields', rest⟩, hread, h⟩ := bind_eq_ok.mp h
  dsimp only at h
  split at h
  · cases h
    exact ((readsEvery hp _).object _ _ _ _ hread rfl).1
  · cases h

end Every

theorem bareValue_every {p : Json → Bool} (hbool : ∀ b, p (.bool b) = true) (hnull : p .null = true)
    (hint : ∀ n, p (.number (.int n)) = true) (hstring : ∀ s, p (.string s) = true)
    (hfloat : ∀ neg x, p (.number (.float (printF64 neg x))) = true) (tok : Text) :
    every p (bareValue printF64 tok) = true := by
  rw [bareValue]
  split
  · exact hbool true
  · split
    · exact hbool false
    · split
      · exact hnull
      · split
        · exact hint _
        · cases parseF64 tok with
          | none => exact hstring tok
          | some x =>
            cases x with
            | nan => exact hstring tok
            | infinite neg => exact hstring tok
            | finite neg x => exact hfloat neg x

theorem notEmptyObject_buildable : Buildable printF64 notEmptyObject where
  bare := bareValue_every (fun _ => rfl) rfl (fun _ => rfl) (fun _ => rfl) fun _ _ => rfl
  string := fun _ => rfl
  array := fun _ => rfl
  object := fun fields hne => by
    cases fields with
    | nil => exact absurd rfl hne
    | cons e fields => rfl

/-! An empty object is seen in the printed text: outside of strings, nothing else has a brace
that closes right behind the one that opens. -/

inductive Lexical where
  | outside
  | inside
  | escaped

def hollow : Lexical → Text → Bool
  | _, [] => false
  | .escaped, _ :: t => hollow .inside t
  | .inside, c :: t =>
    if c = '\\' then hollow .escaped t else if c = '"' then hollow .outside t else hollow .inside t
  | .outside, c :: t =>
    if c = '"' then hollow .inside t
    else if c = '\x7b' ∧ t.head? = some '\x7d' then true else hollow .outside t

/-- A character that no string and no object begins with. -/
def isInert (c : Char) : Bool := c ≠ '"' && c ≠ '\x7b'

def plainNumber : Json → Bool
  | .number (.float printed) => printed.all isInert
  | _ => true

theorem hollow_cons (hc : isInert c = true) (t : Text) : hollow .outside (c :: t) = hollow .outside t := by
  simp only [isInert, Bool.and_eq_true, decide_eq_true_eq] at hc
  rw [hollow, if_neg hc.1, if_neg fun h => hc.2 h.1]

theorem hollow_inert (h : s.all isInert = true) (t : Text) :
    hollow .outside (s ++ t) = hollow .outside t := by
  induction s with
  | nil => rfl
  | cons c s ih =>
    rw [List.all_cons, Bool.and_eq_true] at h
    rw [List.cons_append, hollow_cons h.1, ih h.2]

theorem hexDigit_plain : ∀ n < 16, hexDigit n ≠ '"' ∧ hexDigit n ≠ '\\' := by decide

theorem hollow_inside (hquote : c ≠ '"') (hback : c ≠ '\\') (t : Text) :
    hollow .inside (c :: t) = hollow .inside t := by
  rw [hollow, if_neg hback, if_neg hquote]

theorem hollow_escaped (c : Char) (t : Text) : hollow .inside ('\\' :: c :: t) = hollow .inside t := rfl

theorem hollow_escape (c : Char) (t : Text) :
    hollow .inside (escapeChar c ++ t) = hollow .inside t := by
  unfold escapeChar
  split
  · rfl
  split
  · rfl
  split
  · rfl
  split
  · rfl
  split
  · rfl
  split
  · rfl
  split
  · rfl
  split
  · next hlow =>
    obtain ⟨hq, hb⟩ := hexDigit_plain (c.toNat / 16) (by omega)
    obtain ⟨hq', hb'⟩ := hexDigit_plain (c.toNat % 16) (by omega)
    simp only [List.cons_append, List.nil_append, hollow_escaped]
    rw [hollow_inside (by decide) (by decide), hollow_inside (by decide) (by decide),
      hollow_inside hq hb, hollow_inside hq' hb']
  · next hquote hback _ _ _ _ _ _ =>
    exact hollow_inside hquote hback t

theorem hollow_quoteText (s t : Text) : hollow .outside (quoteText s ++ t) = hollow .outside t := by
  have hbody : hollow .inside (s.flatMap escapeChar ++ '"' :: t) = hollow .outside t := by
    induction s with
    | nil => rfl
    | cons c s ih => rw [List.flatMap_cons, List.append_assoc, hollow_escape, ih]
  rw [quoteText, List.append_assoc, List.append_assoc]
  exact hbody

theorem printItems_nil_iff : printItems items = [] ↔ items = [] := by
  cases items with
  | nil => exact iff_of_true rfl rfl
  | cons v items => simp [printItems]

theorem printFields_nil_iff : printFields fields = [] ↔ fields = [] := by
  cases fields with
  | nil => exact iff_of_true rfl rfl
  | cons e fields =>
    obtain ⟨k, v⟩ := e
    simp [printFields]

/-- The fields of an object begin with a quoted key, which is no brace. -/
theorem hollow_brace (hne : fields ≠ []) (t : Text) :
    hollow .outside ('\x7b' :: (Text.join [','] (printFields fields) ++ t)) =
      hollow .outside (Text.join [','] (printFields fields) ++ t) := by
  obtain ⟨⟨k, v⟩, fields, rfl⟩ := List.exists_cons_of_ne_nil hne
  rw [printFields, Text.join_cons, quoteText]
  rfl

mutual

theorem hollow_print (v : Json) (hv : every plainNumber v = true) (t : Text) :
    hollow .outside (v.print ++ t) = (!filled v || hollow .outside t) := by
  match v with
  | .null => exact hollow_inert (by decide) t
  | .bool true => exact hollow_inert (by decide) t
  | .bool false => exact hollow_inert (by decide) t
  | .number (.int n) =>
    have hinert : (toString n).toList.all isInert = true := by
      refine List.all_eq_true.mpr fun c hc => ?_
      have hbare := bareChar_of (isBareChar_toString n c hc)
      simp [isInert, hbare.quote, hbare.brace]
    rw [Json.print]
    exact hollow_inert hinert t
  | .number (.float printed) =>
    rw [Json.print]
    exact hollow_inert hv t
  | .string s =>
    rw [Json.print]
    exact hollow_quoteText s t
  | .array items =>
    rw [every, Bool.and_eq_true] at hv
    rw [Json.print, List.append_assoc, List.append_assoc, List.singleton_append, hollow_cons (by decide),
      hollow_printItems items hv.2, List.singleton_append, hollow_cons (by decide)]
    rfl
  | .object fields =>
    rw [every, Bool.and_eq_true] at hv
    rw [Json.print, List.append_assoc, List.append_assoc, List.singleton_append]
    cases fields with
    | nil => rfl
    | cons e fields =>
      rw [hollow_brace (List.cons_ne_nil _ _), hollow_printFields (e :: fields) hv.2,
        List.singleton_append, hollow_cons (by decide)]
      rfl

theorem hollow_printItems (items : List Json) (hitems : everyItem plainNumber items = true) (t : Text) :
    hollow .outside (Text.join [','] (printItems items) ++ t) =
      (!everyItem notEmptyObject items || hollow .outside t) := by
  match items with
  | [] => rfl
  | v :: items =>
    rw [everyItem, Bool.and_eq_true] at hitems
    rw [printItems, Text.join_cons, List.append_assoc, hollow_print v hitems.1, everyItem, ← filled]
    by_cases hnil : items = []
    · subst hnil
      simp [printItems, everyItem]
    · rw [if_neg (printItems_nil_iff.not.mpr hnil), List.append_assoc, List.singleton_append,
        hollow_cons (by decide), hollow_printItems items hitems.2]
      cases filled v <;> rfl

theorem hollow_printFields (fields : List (Text × Json)) (hfields : everyField plainNumber fields = true)
    (t : Text) :
    hollow .outside (Text.join [','] (printFields fields) ++ t) =
      (!filledFields fields || hollow .outside t) := by
  match fields with
  | [] => rfl
  | (k, v) :: fields =>
    rw [everyField, Bool.and_eq_true] at hfields
    rw [printFields, Text.join_cons, List.append_assoc, List.append_assoc, List.append_assoc,
      hollow_quoteText, List.singleton_append, hollow_cons (by decide), hollow_print v hfields.1, filledFields, everyField,
      ← filled, ← filledFields]
    by_cases hnil : fields = []
    · subst hnil
      simp [printFields, filledFields, everyField]
    · rw [if_neg (printFields_nil_iff.not.mpr hnil), List.append_assoc, List.singleton_append,
        hollow_cons (by decide), hollow_printFields fields hfields.2]
      cases filled v <;> rfl

end

theorem plainNumber_buildable (hfloat : ∀ neg x, (printF64 neg x).all isInert = true) :
    Buildable printF64 plainNumber where
  bare := bareValue_every (fun _ => rfl) rfl (fun _ => rfl) (fun _ => rfl) hfloat
  string := fun _ => rfl
  array := fun _ => rfl
  object := fun _ _ => rfl

mutual

theorem callable_plain (v : Json) (h : Callable v) : every plainNumber v = true := by
  match v with
  | .null => rfl
  | .bool b => rfl
  | .number (.int n) => rfl
  | .number (.float printed) => exact h.elim
  | .string s => rfl
  | .array items =>
    rw [every, callable_plainItems items h]
    rfl
  | .object fields =>
    rw [every, callable_plainFields fields h.2]
    rfl

theorem callable_plainItems (items : List Json) (h : CallableItems items) :
    everyItem plainNumber items = true := by
  match items with
  | [] => rfl
  | v :: items =>
    rw [everyItem, callable_plain v h.1, callable_plainItems items h.2]
    rfl

theorem callable_plainFields (fields : List (Text × Json)) (h : CallableFields fields) :
    everyField plainNumber fields = true := by
  match fields with
  | [] => rfl
  | (k, v) :: fields =>
    rw [everyField, callable_plain v h.2.1, callable_plainFields fields h.2.2]
    rfl

end

/-- Texts of objects tell whether there are empty objects in them. -/
theorem filledFields_of_print {more : List (Text × Json)} (hfields : everyField plainNumber fields = true)
    (hmore : everyField plainNumber more = true)
    (h : (Json.object fields).print = (Json.object more).print) :
    filledFields fields = filledFields more := by
  rw [Json.print, Json.print, List.append_assoc, List.append_assoc] at h
  have hscan := congrArg (hollow .outside) (List.append_cancel_left h)
  rw [hollow_printFields fields hfields, hollow_printFields more hmore] at hscan
  have hend : hollow .outside ['\x7d'] = false := rfl
  rw [hend, Bool.or_false, Bool.or_false] at hscan
  exact Bool.not_inj hscan

/-! The whole call. -/

theorem parsePseudoObject_render (hasc : Ascending fields) (hc : CallableFields fields)
    (hf : filledFields fields = true) : parsePseudoObject printF64 (fieldsText fields) = .ok fields := by
  by_cases hne : fields = []
  · subst hne
    rfl
  · have hskip := fieldsText_head hc hne []
    have hread : readObject printF64 (2 * (fieldsText fields).length + 2) [] (fieldsText fields ++ []) =
        .ok ([] ++ fields, []) := readObject_render fields hne hc hf [] hasc _ [] (.inl rfl) (by simp)
    rw [List.append_nil] at hskip hread
    rw [parsePseudoObject, hskip, hread]
    rfl

theorem parseCallSpan_call {name : Text} (hbrace : '\x7b' ∉ name) (hname : Text.trim name = name)
    (body : Text) :
    parseCallSpan printF64 ("call:".toList ++ name ++ braced body) =
      (parsePseudoObject printF64 body).map fun fields => (name, (Json.object fields).print) := by
  have hblock : braced body = '\x7b' :: (body ++ ['\x7d']) := rfl
  have hcall : "call:".toList ++ name ++ braced body =
      'c' :: ("all:".toList ++ name ++ '\x7b' :: body ++ ['\x7d']) := by
    rw [hblock]
    simp only [List.append_assoc, List.cons_append]
    rfl
  have hspan : (name ++ braced body).span (· ≠ '\x7b') = (name, braced body) := by
    refine span_append (fun a ha => ?_) fun a ha => ?_
    · have hne : a ≠ '\x7b' := fun heq => hbrace (heq ▸ ha)
      simpa using hne
    · cases ha
      rfl
  have htrim : Text.trim (braced body) = braced body := Text.trimBy_of_ends (by decide) (by decide) body
  have hlast : (braced body).getLast? = some '\x7d' := by
    rw [hblock, ← List.cons_append]
    exact List.getLast?_concat
  have hinner : (braced body).tail.dropLast = body := List.dropLast_concat
  rw [parseCallSpan, hcall, Text.trim_eq, Text.trimBy_of_ends (by decide) (by decide), ← hcall,
    List.append_assoc, Text.stripPrefix_append]
  dsimp only
  rw [hspan]
  dsimp only
  have hsome : (braced body).isEmpty = false := rfl
  rw [htrim, hlast, hinner, hname, hsome]
  simp only [Bool.false_eq_true, if_false, ne_eq, not_true]
  cases parsePseudoObject printF64 body <;> rfl

/-- A call that is written and read back has the same name and arguments, exactly if none of the
objects among the arguments is empty. -/
theorem parse_rendered_call_iff (rt : Runtime) {name arguments : Text} {args : List (Text × Json)}
    (hfloat : ∀ neg x, (printF64 neg x).all isInert = true)
    (hread : rt.fromStr arguments = some (.object args)) (hbrace : '\x7b' ∉ name)
    (hname : Text.trim name = name) (hargs : Callable (.object args)) :
    parseCallSpan printF64 ("call:".toList ++ name ++ braced (renderCallArgs rt arguments)) =
      .ok (name, (Json.object args).print) ↔ filledFields args = true := by
  obtain ⟨hasc, hfields⟩ := hargs
  have hrender : renderCallArgs rt arguments = fieldsText args := by
    rw [renderCallArgs, hread]
    dsimp only
    rw [sortByKey_renderFields hasc]
    rfl
  rw [hrender, parseCallSpan_call hbrace hname]
  constructor
  · intro h
    cases hparse : parsePseudoObject printF64 (fieldsText args) with
    | error e =>
      rw [hparse] at h
      cases h
    | ok fields =>
      rw [hparse] at h
      have hprint : (Json.object fields).print = (Json.object args).print :=
        (Prod.mk.inj (Except.ok.inj h)).2
      rw [← filledFields_of_print (parsePseudoObject_every (plainNumber_buildable hfloat) hparse)
        (callable_plainFields args hfields) hprint]
      exact parsePseudoObject_every notEmptyObject_buildable hparse
  · intro h
    rw [parsePseudoObject_render hasc hfields h]
    rfl

def halfF64 (_ : Bool) (_ : Rat) : Text := "0.5".toList

def nestedArguments : Text := "\x7b\"ids\":[1,-2],\"opts\":\x7b\"note\":\"a, b\"\x7d\x7d".toList

def nestedFields : List (Text × Json) :=
  [("ids".toList, .array [.number (.int 1), .number (.int (-2))]),
    ("opts".toList, .object [("note".toList, .string "a, b".toList)])]

def emptyOptions : Text := "\x7b\"opts\":\x7b\x7d\x7d".toList

def emptyFields : List (Text × Json) := [("opts".toList, .object [])]

/-- The JSON reader on two texts. -/
def twoTexts : Runtime where
  toUppercase := id
  fromStr t :=
    if t = nestedArguments then some (.object nestedFields)
    else if t = emptyOptions then some (.object emptyFields)
    else none

theorem read_emptyOptions : twoTexts.fromStr emptyOptions = some (.object emptyFields) := by
  dsimp only [twoTexts]
  rw [if_neg (by decide), if_pos rfl]

theorem read_nestedArguments : twoTexts.fromStr nestedArguments = some (.object nestedFields) := by
  dsimp only [twoTexts]
  rw [if_pos rfl]

theorem goodKey_opts : GoodKey "opts".toList := ⟨by decide, by decide, by decide, by decide⟩

theorem parse_rendered_call_iff_nested :
    parseCallSpan halfF64 ("call:".toList ++ "find".toList ++
        braced (renderCallArgs twoTexts nestedArguments)) =
      .ok ("find".toList, (Json.object nestedFields).print) ↔ filledFields nestedFields = true := by
  have hids : GoodKey "ids".toList := ⟨by decide, by decide, by decide, by decide⟩
  have hnote : GoodKey "note".toList := ⟨by decide, by decide, by decide, by decide⟩
  have hasc : Ascending nestedFields := by
    refine List.pairwise_cons.mpr ⟨fun e he => ?_, List.pairwise_singleton _ _⟩
    rw [List.mem_singleton.mp he]
    exact ⟨by decide, by decide⟩
  have hint : IsI64 1 ∧ IsI64 (-2) := by decide
  have hitems : CallableItems [.number (.int 1), .number (.int (-2))] := ⟨hint.1, hint.2, trivial⟩
  have hstring : ¬ quote <:+: "a, b".toList := by decide
  have hopts : Callable (.object [("note".toList, .string "a, b".toList)]) :=
    ⟨List.pairwise_singleton _ _, hnote, hstring, trivial⟩
  have hhalf : "0.5".toList.all isInert = true := by decide
  exact parse_rendered_call_iff twoTexts (fun _ _ => hhalf) read_nestedArguments (by decide) (by decide)
    ⟨hasc, hids, hitems, goodKey_opts, hopts, trivial⟩

/-- The brace that closes the empty object is read as the start of a key. -/
theorem empty_object_unread :
    ¬ ∀ (name arguments : Text) (args : List (Text × Json)),
      twoTexts.fromStr arguments = some (.object args) → '\x7b' ∉ name → Text.trim name = name →
      Callable (.object args) →
      parseCallSpan halfF64 ("call:".toList ++ name ++ braced (renderCallArgs twoTexts arguments)) =
        .ok (name, (Json.object args).print) := by
  intro hall
  have hasc : Ascending emptyFields := List.pairwise_singleton _ _
  have hargs : Callable (.object emptyFields) :=
    ⟨hasc, goodKey_opts, ⟨List.Pairwise.nil, trivial⟩, trivial⟩
  have hread := hall "find".toList emptyOptions _ read_emptyOptions (by decide) (by decide) hargs
  have hrender : renderCallArgs twoTexts emptyOptions = "opts:\x7b\x7d".toList := by
    rw [renderCallArgs, read_emptyOptions]
    dsimp only
    rw [sortByKey_renderFields hasc]
    rfl
  have hfail : parseCallSpan halfF64 ("call:".toList ++ "find".toList ++
      braced "opts:\x7b\x7d".toList) = .error (.expected ':') := by decide
  rw [hrender, hfail] at hread
  cases hread

end Onisin.Mlx
