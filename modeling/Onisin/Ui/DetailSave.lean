import Onisin.Ui.DetailRenderer

/-!
Saving what was opened without an edit writes back every value unchanged, provided that none
of them is NULL and that integers are small enough for a number of JavaScript.
-/

set_option autoImplicit false

namespace Onisin.Ui
open Lib Domain Gql

/-! The texts of the form. -/

section Texts
variable {pg : Postgres} (printF64 : Bool → Rat → Text)

/-- A column as it is sent to the form. -/
def columnJson (pg : Postgres) : Option PgValue → Json
  | none => .null
  | some (.int n) => .number (.int n)
  | some (.float (.finite neg x)) => .number (.float (printF64 neg x))
  | some (.bool b) => .bool b
  | some v => .string (pg.show_ v)

def formText (pg : Postgres) (v : Option PgValue) : Text := fmtValue (some (Js.ofJson (columnJson printF64 pg v)))

theorem retype_show (hpg : pg.Lawful) {v : PgValue} {ty : FieldType} (h : pg.HasType v ty) :
    retype printF64 (pg.show_ v) ty = columnJson printF64 pg (some v) := by
  cases v with
  | int n =>
    cases ty with
    | int =>
      have htrim := (trim_of_isGraphic (graphic_toString n)).1
      have hrange : IsI64 n := h
      simp only [retype, Postgres.show_, htrim, parseI64_toString, if_pos hrange]
      rfl
    | _ => exact h.elim
  | float x =>
    cases ty with
    | float =>
      cases x with
      | nan =>
        have hread : parseF64 (Text.trim "NaN".toList) = some .nan := by decide
        simp only [retype, Postgres.show_, Postgres.showDouble, hread]
        rfl
      | infinite neg =>
        have hread : parseF64 (Text.trim (if neg then "-Infinity" else "Infinity").toList) =
            some (.infinite neg) := by
          cases neg <;> decide
        simp only [retype, Postgres.show_, Postgres.showDouble, hread]
        rfl
      | finite neg x =>
        simp only [retype, Postgres.show_, Postgres.showDouble, hpg.read_finite h]
        rfl
    | _ => exact h.elim
  | bool b =>
    cases ty with
    | bool =>
      have hread : isTrueText (pg.show_ (.bool b)) = b := by cases b <;> rfl
      rw [retype, hread]
      rfl
    | _ => exact h.elim
  | text s =>
    cases ty with
    | string => rfl
    | text => rfl
    | _ => exact h.elim
  | date s =>
    cases ty with
    | date => rfl
    | _ => exact h.elim
  | datetime s =>
    cases ty with
    | datetime => rfl
    | _ => exact h.elim

theorem columnJson_scalar (v : Option PgValue) : (Js.ofJson (columnJson printF64 pg v)).IsScalar := by
  rcases v with _ | (n | (_ | neg | ⟨neg, x⟩) | b | s | s | s)
  all_goals simp only [columnJson, Js.ofJson, Js.IsScalar]

/-- Zero has no sign any more in the form. -/
theorem jsNumberText_zero {t : Text} (h : toDouble |decimal t| = some 0) : jsNumberText t = "0".toList := by
  rw [jsNumberText, h]
  rfl

def zeroLit : SciLit := ⟨natLit 0, none⟩

theorem zeroLit_magnitude : zeroLit.magnitude = 0 := by
  rw [SciLit.magnitude, zeroLit, natLit, List.append_nil, Nat.ofDigitChars_ten_toDigits, Nat.cast_zero, zero_mul]

variable (pg) in
/-- The text of a finite double in the form. -/
theorem formText_finite (hprint : PrintsDoubles printF64) {neg : Bool} {x : Rat}
    (h : (Double.finite neg x).Valid) :
    ∃ l : SciLit, formText printF64 pg (some (.float (.finite neg x))) = l.text ∧
      toDouble l.magnitude = some x ∧ (x = 0 → l.magnitude = 0 ∧ l.text = ['0']) ∧
      (x ≠ 0 → l.lit.neg = neg) := by
  have htext : formText printF64 pg (some (.float (.finite neg x))) = jsNumberText (printF64 neg x) := by
    simp only [formText, columnJson, Js.ofJson, fmtValue, Number.toText]
  obtain ⟨hround, hsign⟩ := hprint neg x h
  rw [htext]
  by_cases hx : x = 0
  · subst hx
    refine ⟨zeroLit, jsNumberText_zero hround, ?_, fun _ => ⟨zeroLit_magnitude, rfl⟩, fun h => absurd rfl h⟩
    rw [zeroLit_magnitude]
    rfl
  · have hpos : 0 < x := lt_of_le_of_ne h.1 (Ne.symm hx)
    obtain ⟨l, hl, hneg, hmag⟩ := jsNumberText_sci hpos h.2 hround
    have hne : decimal (printF64 neg x) ≠ 0 := by
      intro hzero
      rw [hzero, abs_zero, toDouble, if_pos rfl] at hround
      exact hx (Option.some.inj hround).symm
    refine ⟨l, hl, hmag, fun h => absurd h hx, fun _ => ?_⟩
    rw [hneg]
    cases neg with
    | true => exact decide_eq_true (lt_of_le_of_ne hsign hne)
    | false => exact decide_eq_false (not_lt.mpr hsign)

/-- A text of the form is cast to the value it came from, up to integers that are too large. -/
theorem restores_formText (hpg : pg.Lawful) (hprint : PrintsDoubles printF64) {v : PgValue} {ty : FieldType}
    (h : pg.HasType v ty) : Restores pg ty (some (formText printF64 pg (some v))) (some v) ↔ Kept v := by
  have hsame : ∀ {v : PgValue}, pg.cast ty (formText printF64 pg (some v)) = some v → v.Same v →
      Restores pg ty (some (formText printF64 pg (some v))) (some v) := fun hcast hv => ⟨_, hcast, hv⟩
  cases v with
  | int n =>
    cases ty with
    | int =>
      have hrange : IsI64 n := h
      have htext : formText printF64 pg (some (.int n)) = jsNumberText (toString n).toList := by
        simp only [formText, columnJson, Js.ofJson, fmtValue, Number.toText]
      constructor
      · rintro ⟨w, hcast, hw⟩
        have hbound : n.natAbs < 2 ^ 64 := by
          obtain ⟨hlow, hhigh⟩ := hrange
          omega
        obtain ⟨m, hm⟩ := jsNumberText_int hbound
        rw [htext, hm, hpg.cast_int] at hcast
        split at hcast
        · obtain rfl := Option.some.inj hcast
          have hmn : PgValue.int m = .int n := hw
          rw [PgValue.int.injEq] at hmn
          rw [Kept, hm, hmn]
        · cases hcast
      · intro hkept
        refine hsame ?_ rfl
        rw [htext, hkept, hpg.cast_int, if_pos hrange]
    | _ => exact h.elim
  | float x =>
    cases ty with
    | float =>
      refine iff_of_true ?_ trivial
      cases x with
      | nan => exact hsame (hpg.cast_special .nan fun _ _ hx => by cases hx) rfl
      | infinite neg => exact hsame (hpg.cast_special (.infinite neg) fun _ _ hx => by cases hx) rfl
      | finite neg x =>
        obtain ⟨l, htext, hround, hzero, hneg⟩ := formText_finite pg printF64 hprint h
        refine ⟨.float (.finite l.lit.neg x), ?_, rfl, ?_⟩
        · rw [htext]
          exact hpg.cast_float l hround fun hx => (hzero hx).1
        · by_cases hx : x = 0
          · exact .inr hx
          · exact .inl (hneg hx)
    | _ => exact h.elim
  | bool b =>
    cases ty with
    | bool => exact iff_of_true (hsame (hpg.cast_bool b) rfl) trivial
    | _ => exact h.elim
  | text s =>
    cases ty with
    | string => exact iff_of_true (hsame (hpg.cast_text s).1 rfl) trivial
    | text => exact iff_of_true (hsame (hpg.cast_text s).2 rfl) trivial
    | _ => exact h.elim
  | date s =>
    cases ty with
    | date => exact iff_of_true (hsame h rfl) trivial
    | _ => exact h.elim
  | datetime s =>
    cases ty with
    | datetime => exact iff_of_true (hsame h rfl) trivial
    | _ => exact h.elim

theorem isEmptyId_graphic {t : Text} (h : ∀ c ∈ t, isGraphic c = true) :
    isEmptyId (some t) = true ↔ t = [] ∨ t = ['0'] := by
  rw [isEmptyId, (trim_of_isGraphic h).2, Bool.or_eq_true, decide_eq_true_eq, decide_eq_true_eq]

theorem isEmptyId_formText (hprint : PrintsDoubles printF64) {v : PgValue} {ty : FieldType}
    (h : pg.HasType v ty) (hkept : Kept v) :
    isEmptyId (some (formText printF64 pg (some v))) = true ↔ IsBlank v := by
  have hzero : ∀ t : Text, t = [] ∨ t = ['0'] → decimal t = 0 := by
    rintro t (rfl | rfl)
    · decide +kernel
    · decide +kernel
  cases v with
  | int n =>
    have htext : formText printF64 pg (some (.int n)) = (toString n).toList := by
      simp only [formText, columnJson, Js.ofJson, fmtValue, Number.toText]
      exact hkept
    rw [htext, isEmptyId_graphic (graphic_toString n)]
    constructor
    · intro hn
      have hvalue := decimal_toString n
      rw [hzero _ hn] at hvalue
      exact_mod_cast hvalue.symm
    · rintro rfl
      exact .inr (by decide)
  | float x =>
    cases ty with
    | float =>
      cases x with
      | nan =>
        have hempty : isEmptyId (some "NaN".toList) = false := by decide
        exact iff_of_false (Bool.eq_false_iff.mp hempty) id
      | infinite neg =>
        have hempty : isEmptyId (some (if neg then "-Infinity" else "Infinity").toList) = false := by
          cases neg <;> decide
        exact iff_of_false (Bool.eq_false_iff.mp hempty) id
      | finite neg x =>
        obtain ⟨l, htext, hround, hx0, -⟩ := formText_finite pg printF64 hprint h
        rw [htext, isEmptyId_graphic (graphic_sci l)]
        constructor
        · intro hl
          have hvalue := decimal_sci l
          rw [hzero _ hl, SciLit.value] at hvalue
          have hmag : l.magnitude = 0 := by
            split at hvalue
            · linarith
            · exact hvalue.symm
          rw [hmag, toDouble, if_pos rfl] at hround
          exact (Option.some.inj hround).symm
        · exact fun hx => .inr (hx0 hx).2
    | _ => exact h.elim
  | bool b =>
    have hempty : isEmptyId (some (if b then "true" else "false").toList) = false := by cases b <;> decide
    exact iff_of_false (Bool.eq_false_iff.mp hempty) id
  | text s => rfl
  | date s => rfl
  | datetime s => rfl

end Texts

/-! The way through the form. -/

section Request
variable {pg : Postgres} {d : DomainDef} (printF64 : Bool → Rat → Text) (a : Alias) (meta_ : Dict Js)
  (row : StoredRow pg d)

def rowFields : Dict Json :=
  Dict.ofPairs ((selectedFields d none).map fun f =>
    (f.1, ((row.columns f.1).map fun s => retype printF64 s f.2).getD .null))

/-- The declared columns are sent, each once. -/
theorem lookup_rowFields (hpg : pg.Lawful) (k : Text) :
    (rowFields printF64 row).lookup k =
      if k ∈ d.fields.map DomainFieldDef.name then some (columnJson printF64 pg (row.value k)) else none := by
  have hpairs : ((selectedFields d none).map fun f =>
      (f.1, ((row.columns f.1).map fun s => retype printF64 s f.2).getD .null)) =
      (d.fields.map DomainFieldDef.name).map fun n => (n, columnJson printF64 pg (row.value n)) := by
    have hall : selectedFields d none = d.fields.map fun f => (f.name, f.fieldType) := rfl
    rw [hall, List.map_map, List.map_map]
    refine List.map_congr_left fun f hf => ?_
    dsimp only [Function.comp]
    rw [StoredRow.columns]
    cases hv : row.value f.name with
    | none => rfl
    | some v =>
      have hretype := retype_show printF64 hpg (row.typed f hf v hv)
      simp only [Option.map_some, Option.getD_some, hretype]
  rw [rowFields, Dict.lookup_ofPairs, hpairs, ← List.map_reverse, Dict.lookup_map_keys]
  simp only [List.mem_reverse]

theorem mem_ofFields_scalar (hpg : pg.Lawful) :
    ∀ e ∈ Dict.putAll some (ofFields (rowFields printF64 row)) [], e.2.IsScalar := by
  intro e he
  have hnodup : ((rowFields printF64 row).map Prod.fst).Nodup := Dict.nodup_ofPairs _
  have hkeys := Dict.nodup_putAll some (ofFields (rowFields printF64 row)) (d := []) List.nodup_nil
  have hlookup := Dict.lookup_of_mem hkeys he
  rw [lookup_ofJson hnodup, lookup_rowFields printF64 row hpg] at hlookup
  split at hlookup
  · rw [Option.map_some] at hlookup
    rw [← Option.some.inj hlookup]
    exact columnJson_scalar printF64 _
  · cases hlookup

def opened : ViewState := openDetail a.text (rowToJson printF64 row.columns (selectedFields d none)) meta_

theorem loadEnvelope_wrapped (data : Js) :
    loadEnvelope .empty (wrapDataAsEnvelope a.text data meta_) =
      loadOptions (flattenInto .empty a.text data) meta_ := by
  obtain ⟨hcontent, hmeta⟩ := Dict.lookup_pair (by decide : "meta".toList ≠ "content".toList)
    (Js.object [(a.text, data)]) (Js.object meta_)
  unfold loadEnvelope wrapDataAsEnvelope
  rw [hcontent, hmeta]
  rfl

theorem opened_values : (opened printF64 a meta_ row).values =
    (flattenFields .empty a.text (Dict.putAll some (ofFields (rowFields printF64 row)) [])).values := by
  rw [opened, openDetail, loadEnvelope_wrapped, loadOptions_values, rowToJson, Js.ofJson, flattenInto]
  rfl

theorem joinPath_alias (k : Text) : joinPath a.text k = a.text ++ '.' :: k := by
  rw [joinPath, if_neg a.ne, List.append_assoc]
  rfl

theorem joinPath_inj {k k' : Text} : joinPath a.text k = joinPath a.text k' ↔ k = k' := by
  rw [joinPath_alias, joinPath_alias, List.append_cancel_left_eq, List.cons.injEq]
  exact and_iff_right rfl

theorem flatKey_joinPath (k : Text) : flatKey (joinPath a.text k) = k := by
  have hdrop : (joinPath a.text k).dropWhile (· ≠ '.') = '.' :: k := by
    rw [joinPath_alias, List.dropWhile_append_of_pos]
    · rfl
    · intro c hc
      exact decide_eq_true fun heq => a.plain (heq ▸ hc)
  rw [flatKey, hdrop]

theorem joinPath_ne_proto (k : Text) : joinPath a.text k ≠ "__proto__".toList := by
  intro heq
  have hdot : '.' ∈ joinPath a.text k := by
    rw [joinPath_alias]
    exact List.mem_append_right _ List.mem_cons_self
  rw [heq] at hdot
  exact absurd hdot (by decide)

theorem lookup_opened (hpg : pg.Lawful) (k : Text) :
    (opened printF64 a meta_ row).values.lookup (joinPath a.text k) =
      if k ∈ d.fields.map DomainFieldDef.name then some (formText printF64 pg (row.value k)) else none := by
  have hnodup : ((rowFields printF64 row).map Prod.fst).Nodup := Dict.nodup_ofPairs _
  generalize hfields : Dict.putAll some (ofFields (rowFields printF64 row)) [] = fields
  have hlookup : ∀ k, fields.lookup k = ((rowFields printF64 row).lookup k).map Js.ofJson :=
    hfields ▸ lookup_ofJson hnodup
  have hkeys : (fields.map Prod.fst).Nodup := hfields ▸ Dict.nodup_putAll some _ List.nodup_nil
  have hscalar : ∀ e ∈ fields, e.2.IsScalar := hfields ▸ mem_ofFields_scalar printF64 row hpg
  have hpath : ∀ e ∈ ((fields.map fun e => (e.1, fmtValue (some e.2))) : Dict Text).reverse,
      some (joinPath a.text e.1) = some (joinPath a.text k) ↔ e.1 = k := by
    intro e _
    rw [Option.some.injEq]
    exact joinPath_inj a
  -- the texts, and then their paths
  have hpaths : (fields.map fun e => (joinPath a.text e.1, fmtValue (some e.2))) =
      (fields.map fun e => (e.1, fmtValue (some e.2))).filterMap fun e =>
        (some (joinPath a.text e.1)).map fun key => (key, e.2) := by
    rw [List.filterMap_map, ← List.filterMap_eq_map]
    rfl
  rw [opened_values, hfields, flattenFields_scalars hscalar, hpaths, ← List.filterMap_reverse,
    Dict.lookup_filterMap (g := fun key => some (joinPath a.text key)) hpath, Dict.lookup_reverse,
    Dict.lookup_map fields (fun v => fmtValue (some v)), hlookup, lookup_rowFields printF64 row hpg]
  · split <;> rfl
  · rw [List.map_map]
    exact hkeys

theorem opened_keys (hpg : pg.Lawful) : ((opened printF64 a meta_ row).values.map Prod.fst).Nodup ∧
    ∀ e ∈ (opened printF64 a meta_ row).values, ∃ k, e.1 = joinPath a.text k := by
  have hscalar := mem_ofFields_scalar printF64 row hpg
  rw [opened_values]
  refine ⟨nodup_flattenFields (s := .empty) hscalar List.nodup_nil a.text, fun e he => ?_⟩
  have hsome := Dict.lookup_isSome_iff.mpr (List.mem_map_of_mem he)
  rw [flattenFields_scalars hscalar] at hsome
  have hmem : e.1 ∈ ((Dict.putAll some (ofFields (rowFields printF64 row)) []).map fun e =>
      (joinPath a.text e.1, fmtValue (some e.2))).reverse.map Prod.fst := by
    rw [← Dict.lookup_isSome_iff]
    rwa [show ViewState.empty.values = [] from rfl, List.lookup_nil, Option.or_none] at hsome
  obtain ⟨e', he', heq⟩ := List.mem_map.mp hmem
  obtain ⟨f, -, rfl⟩ := List.mem_map.mp (List.mem_reverse.mp he')
  exact ⟨f.1, heq.symm⟩

/-- Filling an object: a key that becomes itself or nothing. -/
theorem lookup_assignAll {g : Text → Option Text} (hg : ∀ key k, g key = some k → key = k) {d : Dict Text}
    (hd : (d.map Prod.fst).Nodup) (k : Text) :
    (assignAll g d).lookup k = if g k = some k then d.lookup k else none := by
  split
  · next h =>
    refine Dict.lookup_putAll_rename hd fun e _ => ⟨fun he => hg _ _ he, fun he => ?_⟩
    rw [he, h]
  · next h =>
    refine Dict.lookup_putAll_none fun e _ he => h ?_
    rwa [hg _ _ he] at he

theorem nodup_assignAll (g : Text → Option Text) (d : Dict Text) : ((assignAll g d).map Prod.fst).Nodup :=
  Dict.nodup_putAll _ _ List.nodup_nil

theorem ownProperty_some {key k : Text} : ownProperty key = some k ↔ key = k ∧ k ≠ "__proto__".toList := by
  rw [ownProperty]
  split
  · next h =>
    exact iff_of_false nofun fun hk => hk.2 (hk.1 ▸ h)
  · next h =>
    rw [Option.some.injEq]
    exact ⟨fun hk => ⟨hk, hk ▸ h⟩, fun hk => hk.1⟩

theorem lookup_snapshot (hpg : pg.Lawful) {k : Text} (hk : k ≠ "__proto__".toList) :
    (opened printF64 a meta_ row).snapshot.lookup k = (opened printF64 a meta_ row).values.lookup k := by
  rw [ViewState.snapshot, lookup_assignAll (fun _ _ h => (ownProperty_some.mp h).1)
    (opened_keys printF64 a meta_ row hpg).1, if_pos (ownProperty_some.mpr ⟨rfl, hk⟩)]

theorem snapshot_keys (hpg : pg.Lawful) :
    ∀ e ∈ (opened printF64 a meta_ row).snapshot, ∃ k, e.1 = joinPath a.text k := by
  obtain ⟨hnodup, hkeys⟩ := opened_keys printF64 a meta_ row hpg
  intro e he
  have hsome := Dict.lookup_isSome_iff.mpr (List.mem_map_of_mem he)
  rw [ViewState.snapshot, lookup_assignAll (fun _ _ h => (ownProperty_some.mp h).1) hnodup] at hsome
  split at hsome
  · obtain ⟨e', he', heq⟩ := List.mem_map.mp (Dict.lookup_isSome_iff.mp hsome)
    exact heq ▸ hkeys e' he'
  · cases hsome

/-- What a save collects: the declared fields, but for one name that no object takes. -/
theorem lookup_buildEvent (hpg : pg.Lawful) (k : Text) :
    (buildEvent (opened printF64 a meta_ row)).lookup k =
      if k ≠ "__proto__".toList ∧ k ∈ d.fields.map DomainFieldDef.name then
        some (formText printF64 pg (row.value k))
      else none := by
  have hkeys : ∀ e ∈ (opened printF64 a meta_ row).snapshot.enumerate, ∃ k, e.1 = joinPath a.text k :=
    fun e he => snapshot_keys printF64 a meta_ row hpg e ((Dict.enumerate_perm _).mem_iff.mp he)
  have hnodup : ((opened printF64 a meta_ row).snapshot.map Prod.fst).Nodup := nodup_assignAll _ _
  rw [buildEvent]
  by_cases hk : k = "__proto__".toList
  · rw [if_neg fun h => h.1 hk]
    exact Dict.lookup_putAll_none (g := fun key => ownProperty (flatKey key)) fun e _ he =>
      (ownProperty_some.mp he).2 hk
  · have hrename : (assignAll (fun key => ownProperty (flatKey key))
        (opened printF64 a meta_ row).snapshot.enumerate).lookup k =
        (opened printF64 a meta_ row).snapshot.enumerate.lookup (joinPath a.text k) := by
      refine Dict.lookup_putAll_rename (g := fun key => ownProperty (flatKey key))
        (Dict.nodup_enumerate hnodup) fun e he => ?_
      obtain ⟨k', hk'⟩ := hkeys e he
      rw [hk', flatKey_joinPath, ownProperty_some, joinPath_inj]
      exact and_iff_left hk
    rw [hrename, Dict.lookup_enumerate hnodup,
      lookup_snapshot printF64 a meta_ row hpg (joinPath_ne_proto a k),
      lookup_opened printF64 a meta_ row hpg]
    simp only [ne_eq, hk, not_false_iff, true_and]

theorem sentKey_some {key k : Text} : sentKey d key = some k ↔
    key = k ∧ k ≠ "id".toList ∧ (lastField d k).any DomainFieldDef.readOnly = false ∧ k ≠ "__proto__".toList := by
  have hlast : (indexDomainFields d).lookup key = lastField d key := by
    have hsnd : (Prod.snd ∘ fun f : DomainFieldDef => (f.name, f)) = id := rfl
    rw [indexDomainFields, lastField, Dict.lookup_putAll, List.filterMap_some, ← List.map_reverse, List.lookup_nil,
      Option.or_none, Dict.lookup_eq_find, List.find?_map, Option.map_map, hsnd, Option.map_id]
    rfl
  rw [sentKey, hlast]
  split
  · next h => exact iff_of_false nofun fun hk => hk.2.1 (hk.1 ▸ h)
  · next h =>
    split
    · next hread =>
      refine iff_of_false nofun fun hk => ?_
      rw [hk.1, hk.2.2.1] at hread
      cases hread
    · next hread =>
      rw [ownProperty_some]
      refine ⟨fun hk => ⟨hk.1, hk.1 ▸ h, ?_, hk.2⟩, fun hk => ⟨hk.1, hk.2.2.2⟩⟩
      rw [← hk.1]
      exact Bool.eq_false_iff.mpr hread

theorem doSave_op (d : DomainDef) (s : ViewState) : (doSave d s).op =
    (if !isEmptyId ((buildEvent s).lookup "id".toList) then "update" else "insert").toList := by
  rw [doSave]

theorem doSave_id (d : DomainDef) (s : ViewState) : (doSave d s).id =
    if !isEmptyId ((buildEvent s).lookup "id".toList) then (buildEvent s).lookup "id".toList else none := by
  rw [doSave]

theorem lookup_doSave (d : DomainDef) (s : ViewState) (name : Text) : (doSave d s).set.lookup name =
    if sentKey d name = some name then (buildEvent s).lookup name else none := by
  have hnodup : ((buildEvent s).map Prod.fst).Nodup := nodup_assignAll _ _
  rw [doSave, lookup_assignAll (fun _ _ h => (sentKey_some.mp h).1) (Dict.nodup_enumerate hnodup),
    Dict.lookup_enumerate hnodup]

/-- Whether the form sends a field that could be set. -/
def isSent (d : DomainDef) (f : DomainFieldDef) : Bool :=
  f.name ≠ "__proto__".toList && !(lastField d f.name).any DomainFieldDef.readOnly

theorem isSent_iff {f : DomainFieldDef} : isSent d f = true ↔
    f.name ≠ "__proto__".toList ∧ (lastField d f.name).any DomainFieldDef.readOnly = false := by
  rw [isSent, Bool.and_eq_true, decide_eq_true_eq, Bool.not_eq_true']

theorem lookup_set (hpg : pg.Lawful) {f : DomainFieldDef} (hf : f ∈ d.fields) (hid : f.name ≠ "id".toList) :
    (savedRequest printF64 a meta_ row).set.lookup f.name =
      if isSent d f then some (formText printF64 pg (row.value f.name)) else none := by
  have hmem : f.name ∈ d.fields.map DomainFieldDef.name := List.mem_map_of_mem hf
  rw [savedRequest, lookup_doSave, ← opened, lookup_buildEvent printF64 a meta_ row hpg]
  by_cases hsent : isSent d f = true
  · obtain ⟨hproto, hread⟩ := isSent_iff.mp hsent
    rw [if_pos (sentKey_some.mpr ⟨rfl, hid, hread, hproto⟩), if_pos ⟨hproto, hmem⟩, if_pos hsent]
  · rw [if_neg hsent, if_neg]
    intro hkey
    obtain ⟨-, -, hread, hproto⟩ := sentKey_some.mp hkey
    exact hsent (isSent_iff.mpr ⟨hproto, hread⟩)

/-- The settable fields that are sent are assigned, each the text it has in the form. -/
theorem assigned_saved (hpg : pg.Lawful) :
    assigned d ((savedRequest printF64 a meta_ row).set.map fun e => (e.1, Json.string e.2)) =
      ((settable d).filter (isSent d)).map fun f =>
        (f, Json.string (formText printF64 pg (row.value f.name))) := by
  rw [assigned, settable, List.filter_filter, ← List.filterMap_eq_filter, List.map_filterMap]
  refine List.filterMap_congr fun f hf => ?_
  cases hfixed : isFixed f with
  | true => simp [Option.guard, hfixed]
  | false =>
    have hid : f.name ≠ "id".toList := by
      intro heq
      rw [isFixed, heq, decide_eq_true rfl, Bool.or_true] at hfixed
      cases hfixed
    rw [Dict.lookup_map _ Json.string, lookup_set printF64 a meta_ row hpg hf hid]
    cases hsent : isSent d f <;> simp [Option.guard, hfixed, hsent]

/-- The id that the form has. -/
def savedId : Option Text := (buildEvent (opened printF64 a meta_ row)).lookup "id".toList

theorem savedId_eq (hpg : pg.Lawful) : savedId printF64 a meta_ row =
    if (findField d "id".toList).isSome then some (formText printF64 pg (row.value "id".toList)) else none := by
  have hproto : "id".toList ≠ "__proto__".toList := by decide
  have hmem : "id".toList ∈ d.fields.map DomainFieldDef.name ↔ (findField d "id".toList).isSome := by
    rw [findField, List.find?_isSome, List.mem_map]
    simp only [decide_eq_true_eq]
  rw [savedId, lookup_buildEvent printF64 a meta_ row hpg]
  simp only [hmem, hproto, ne_eq, not_false_iff, true_and]

/-- The statement of a save, if the form has an id. -/
theorem statement_saved (hpg : pg.Lawful) (hid : isEmptyId (savedId printF64 a meta_ row) = false) :
    (savedRequest printF64 a meta_ row).op = "update".toList ∧
    (savedRequest printF64 a meta_ row).statement d =
      (if ((settable d).filter (isSent d)).isEmpty then .error "no settable field supplied".toList
      else .ok (updateText d ((settable d).filter (isSent d)),
        ((settable d).filter (isSent d)).map (fun f => some (formText printF64 pg (row.value f.name))) ++
          [savedId printF64 a meta_ row])) := by
  have hop : (savedRequest printF64 a meta_ row).op = "update".toList := by
    rw [savedRequest, doSave_op, ← opened, ← savedId, hid]
    rfl
  have hreqId : (savedRequest printF64 a meta_ row).id = savedId printF64 a meta_ row := by
    rw [savedRequest, doSave_id, ← opened, ← savedId, hid]
    rfl
  refine ⟨hop, ?_⟩
  obtain ⟨t, ht⟩ : ∃ t, savedId printF64 a meta_ row = some t := by
    cases hsaved : savedId printF64 a meta_ row with
    | none =>
      rw [hsaved] at hid
      cases hid
    | some t => exact ⟨t, rfl⟩
  have hinsert : "update".toList ≠ "insert".toList := by decide
  have hdelete : "update".toList ≠ "delete".toList := by decide
  rw [MutateRequest.statement, buildMutate_eq, assigned_saved printF64 a meta_ row hpg, hop, hreqId, ht,
    mutateSql, mutateBinds, assigned_saved printF64 a meta_ row hpg, List.map_map, List.map_map,
    if_neg hinsert, if_pos rfl, if_neg hdelete, if_neg hinsert]
  have hfields : ((settable d).filter (isSent d)).map
      (Prod.fst ∘ fun f => (f, Json.string (formText printF64 pg (row.value f.name)))) =
      (settable d).filter (isSent d) := List.map_id'' (fun _ => rfl) _
  rw [hfields, Option.map_some, Option.isSome_some, Bool.not_true, if_neg Bool.false_ne_true]
  split
  · rfl
  · rfl

theorem mem_settable {f : DomainFieldDef} (hf : f ∈ settable d) : f ∈ d.fields := List.mem_of_mem_filter hf

/-- The column of a settable field that is sent gets its value back if it has one that is kept. -/
theorem restores_iff (hpg : pg.Lawful) (hprint : PrintsDoubles printF64) {f : DomainFieldDef}
    (hf : f ∈ d.fields) :
    Restores pg f.fieldType (some (formText printF64 pg (row.value f.name))) (row.value f.name) ↔
      ∃ v, row.value f.name = some v ∧ Kept v := by
  cases hv : row.value f.name with
  | none => exact iff_of_false id (by rintro ⟨v, hnone, -⟩; cases hnone)
  | some v =>
    rw [restores_formText printF64 hpg hprint (row.typed f hf v hv)]
    exact ⟨fun h => ⟨v, rfl, h⟩, by rintro ⟨w, hw, h⟩; cases hw; exact h⟩

/-- The id is sent and finds the row again if it has a value that is kept and is not blank. -/
theorem savedId_restores (hpg : pg.Lawful) (hprint : PrintsDoubles printF64) :
    (isEmptyId (savedId printF64 a meta_ row) = false ∧
      Restores pg (idType d) (savedId printF64 a meta_ row) (row.value "id".toList) ∧
      row.value "id".toList ≠ none) ↔
    (findField d "id".toList).isSome ∧ ∃ v, row.value "id".toList = some v ∧ ¬IsBlank v ∧ Kept v := by
  rw [savedId_eq printF64 a meta_ row hpg]
  cases hfind : findField d "id".toList with
  | none => exact iff_of_false (fun h => nomatch h.1) (fun h => nomatch h.1)
  | some f =>
    obtain ⟨hf, hname⟩ := findField_some hfind
    have htype : idType d = f.fieldType := by rw [idType, hfind]; rfl
    have hrestores := restores_iff printF64 row hpg hprint hf
    rw [hname] at hrestores
    rw [htype, Option.isSome_some, if_pos rfl, hrestores]
    cases hv : row.value "id".toList with
    | none =>
      refine iff_of_false (fun h => h.2.2 rfl) ?_
      rintro ⟨-, v, hnone, -⟩
      cases hnone
    | some v =>
      have hempty : Kept v → (isEmptyId (some (formText printF64 pg (some v))) = true ↔ IsBlank v) :=
        isEmptyId_formText printF64 hprint (row.typed f hf v (hname ▸ hv))
      constructor
      · rintro ⟨hid, ⟨w, hw, hkept⟩, -⟩
        cases hw
        refine ⟨rfl, v, rfl, fun hblank => ?_, hkept⟩
        rw [(hempty hkept).mpr hblank] at hid
        cases hid
      · rintro ⟨-, w, hw, hblank, hkept⟩
        cases hw
        exact ⟨Bool.eq_false_iff.mpr fun h => hblank ((hempty hkept).mp h), ⟨v, rfl, hkept⟩, nofun⟩

theorem savable_of_unchanged (hpg : pg.Lawful) (hprint : PrintsDoubles printF64)
    (h : SavesUnchanged row (savedRequest printF64 a meta_ row)) : Savable row := by
  obtain ⟨hop, ⟨binds, idBind, hstatement, hbinds, hidBind, hidValue⟩, hdistinct⟩ := h
  have hnonempty : isEmptyId (savedId printF64 a meta_ row) = false := by
    rw [← Bool.not_eq_true]
    intro hempty
    rw [savedRequest, doSave_op, ← opened, ← savedId, hempty] at hop
    exact absurd hop (by decide)
  rw [(statement_saved printF64 a meta_ row hpg hnonempty).2] at hstatement
  split at hstatement
  · cases hstatement
  rename_i hsome
  obtain ⟨-, hsplit⟩ := Prod.mk.inj (Except.ok.inj hstatement)
  obtain ⟨rfl, hlast⟩ := List.append_inj' hsplit rfl
  obtain rfl := (List.cons.inj hlast).1
  -- as many binds as settable fields: all of them were sent
  have hlength := hbinds.length_eq
  rw [List.length_map] at hlength
  have hall : ∀ f ∈ settable d, isSent d f = true := List.length_filter_eq_length_iff.mp hlength.symm
  rw [List.filter_eq_self.mpr hall] at hbinds hsome
  rw [List.forall₂_map_right_iff, List.forall₂_same] at hbinds
  exact { id := (savedId_restores printF64 a meta_ row hpg hprint).mp ⟨hnonempty, hidBind, hidValue⟩
          settable := fun hnil => hsome (by rw [hnil]; rfl)
          distinct := hdistinct
          sent := fun f hf => isSent_iff.mp (hall f hf)
          kept := fun f hf => (restores_iff printF64 row hpg hprint (mem_settable hf)).mp (hbinds f hf) }

theorem unchanged_of_savable (hpg : pg.Lawful) (hprint : PrintsDoubles printF64) (h : Savable row) :
    SavesUnchanged row (savedRequest printF64 a meta_ row) := by
  obtain ⟨hnonempty, hidBind, hidValue⟩ := (savedId_restores printF64 a meta_ row hpg hprint).mpr h.id
  obtain ⟨hop, hstatement⟩ := statement_saved printF64 a meta_ row hpg hnonempty
  rw [List.filter_eq_self.mpr fun f hf => isSent_iff.mpr (h.sent f hf),
    if_neg fun hnil => h.settable (List.isEmpty_iff.mp hnil)] at hstatement
  refine ⟨hop, ⟨_, _, hstatement, ?_, hidBind, hidValue⟩, h.distinct⟩
  rw [List.forall₂_map_right_iff, List.forall₂_same]
  exact fun f hf => (restores_iff printF64 row hpg hprint (mem_settable hf)).mpr (h.kept f hf)

end Request

/-- Saving a record as it was opened writes back every settable column unchanged, exactly when
none of them is NULL, reserved, or an integer that no number of JavaScript is printed as, and the
record has such an id. -/
theorem savesUnchanged_iff {pg : Postgres} (hpg : pg.Lawful) {printF64 : Bool → Rat → Text}
    (hprint : PrintsDoubles printF64) (a : Alias) (meta_ : Dict Js) (d : DomainDef) (row : StoredRow pg d) :
    SavesUnchanged row (savedRequest printF64 a meta_ row) ↔ Savable row :=
  ⟨savable_of_unchanged printF64 a meta_ row hpg hprint, unchanged_of_savable printF64 a meta_ row hpg hprint⟩

/-! A database with two rows: one that is saved unchanged, and one with NULL in a column. -/

def unsignedText (x : Rat) : Text := if x = 0 then ['0'] else doubleText x

def signedText (neg : Bool) (x : Rat) : Text := if neg then '-' :: unsignedText x else unsignedText x

theorem signedText_sci {neg : Bool} {x : Rat} (h : (Double.finite neg x).Valid) :
    ∃ l : SciLit, l.lit.neg = neg ∧ signedText neg x = l.text ∧ toDouble l.magnitude = some x := by
  by_cases hx : x = 0
  · subst hx
    refine ⟨{ zeroLit with lit := { zeroLit.lit with neg := neg } }, rfl, ?_, h.2 ▸ congrArg toDouble zeroLit_magnitude⟩
    cases neg <;> rfl
  · obtain ⟨l, hneg, htext, hvalue⟩ := doubleText_sci (lt_of_le_of_ne h.1 (Ne.symm hx)) h.2 neg
    refine ⟨l, hneg, ?_, hvalue ▸ shortest_rounds (lt_of_le_of_ne h.1 (Ne.symm hx)) h.2⟩
    rw [signedText, unsignedText, if_neg hx, htext, SciLit.text, DecimalLit.text, hneg, SciLit.unsignedText]
    cases neg <;> rfl

theorem printsDoubles_signedText : PrintsDoubles signedText := by
  intro neg x h
  obtain ⟨l, hneg, htext, hround⟩ := signedText_sci h
  have hmag : 0 ≤ l.magnitude := mul_nonneg (Nat.cast_nonneg _) (zpow_nonneg (by norm_num) _)
  rw [htext, decimal_sci, SciLit.value, hneg]
  cases neg with
  | true => exact ⟨by rwa [if_pos rfl, abs_neg, abs_of_nonneg hmag], by simpa using hmag⟩
  | false => exact ⟨by rwa [if_neg Bool.false_ne_true, abs_of_nonneg hmag], by simpa using hmag⟩

/-- Dates are the texts of digits and separators. -/
def isDateText (t : Text) : Bool := !t.isEmpty && t.all fun c => c.isDigit || c ∈ ['-', ':', '.', '+', ' ']

def sampleCast : FieldType → Text → Option PgValue
  | .int, t => (parseI64 t).map .int
  | .float, t => (parseF64 t).map .float
  | .bool, t =>
    if t = ['t', 'r', 'u', 'e'] then some (.bool true)
    else if t = ['f', 'a', 'l', 's', 'e'] then some (.bool false) else none
  | .string, t | .text, t => some (.text t)
  | .date, t => if isDateText t then some (.date t) else none
  | .datetime, t => if isDateText t then some (.datetime t) else none

def samplePostgres : Postgres := ⟨signedText, sampleCast⟩

theorem samplePostgres_lawful : samplePostgres.Lawful where
  read_finite := by
    intro neg x h
    obtain ⟨l, hneg, htext, hround⟩ := signedText_sci h
    have hshow : samplePostgres.showFinite neg x = l.text := htext
    rw [hshow, (trim_of_isGraphic (graphic_sci l)).1, parseF64_sci, Double.nearest, hround, hneg]
  cast_int n := by
    have hcast : samplePostgres.cast .int (toString n).toList = (parseI64 (toString n).toList).map .int := rfl
    rw [hcast, parseI64_toString]
    split <;> rfl
  cast_float l x h _ := by
    have hcast : samplePostgres.cast .float l.text = (parseF64 l.text).map .float := rfl
    rw [hcast, parseF64_sci, Double.nearest, h]
    rfl
  cast_special x h := by
    cases x with
    | nan => decide
    | infinite neg => cases neg <;> decide
    | finite neg q => exact absurd rfl (h neg q)
  cast_bool b := by cases b <;> rfl
  cast_text s := ⟨rfl, rfl⟩
  cast_empty := by
    intro ty v h
    cases ty with
    | string => exact (Option.some.inj h).symm
    | text => exact (Option.some.inj h).symm
    | _ => cases h

def sampleField (name : Text) (ty : FieldType) : DomainFieldDef := ⟨name, ty, false, true, none, []⟩

def personFields : DomainDef :=
  { name := ['p'], source := ['p'], dsn := ['d']
    fields := [sampleField ['i', 'd'] .int, sampleField ['n'] .string, sampleField ['a'] .int,
      sampleField ['h'] .float, sampleField ['b'] .date] }

/-- The age is the only column that may be NULL. -/
def personRow (age : Option Int) (name : Text) : Option PgValue :=
  if name = ['i', 'd'] then some (.int 7)
  else if name = ['n'] then some (.text ['A', 'd', 'a'])
  else if name = ['a'] then age.map .int
  else if name = ['h'] then some (.float (.finite false (3 / 2)))
  else if name = ['b'] then some (.date ['1', '8', '1', '5', '-', '1', '2', '-', '1', '0'])
  else none

theorem personRow_typed {age : Option Int} (hage : ∀ n ∈ age, IsI64 n) :
    ∀ f ∈ personFields.fields, ∀ v, personRow age f.name = some v → samplePostgres.HasType v f.fieldType := by
  simp only [personFields, List.forall_mem_cons, List.not_mem_nil, false_imp_iff, imp_true_iff, and_true]
  refine ⟨?_, ?_, ?_, ?_, ?_⟩
  · rintro v ⟨⟩
    exact (by decide : IsI64 7)
  · rintro v ⟨⟩
    trivial
  · intro v hv
    obtain ⟨n, hn, rfl⟩ := Option.map_eq_some_iff.mp hv
    exact hage n hn
  · rintro v ⟨⟩
    exact ⟨by norm_num, by decide +kernel⟩
  · rintro v ⟨⟩
    rfl

def storedPerson (age : Option Int) (hage : ∀ n ∈ age, IsI64 n) : StoredRow samplePostgres personFields :=
  ⟨personRow age, personRow_typed hage⟩

def personAlias : Alias := ⟨['p'], nofun, by decide⟩

theorem personFields_saved : SavesUnchanged (storedPerson (some 36) (by decide))
    (savedRequest signedText personAlias [] (storedPerson (some 36) (by decide))) := by
  refine (savesUnchanged_iff samplePostgres_lawful printsDoubles_signedText personAlias [] personFields _).mpr ?_
  have hage : Kept (.int 36) := jsNumberText_safe (by decide)
  have hid : ¬IsBlank (.int 7) := (by decide : ¬(7 : Int) = 0)
  have hset : settable personFields = [sampleField ['n'] .string, sampleField ['a'] .int,
      sampleField ['h'] .float, sampleField ['b'] .date] := rfl
  have hkept : Kept (.int 7) := jsNumberText_safe (by decide)
  refine ⟨⟨by decide, .int 7, rfl, hid, hkept⟩, by decide, by decide, by decide, ?_⟩
  rw [hset]
  simp only [List.forall_mem_cons, List.not_mem_nil, false_imp_iff, imp_true_iff, and_true]
  exact ⟨⟨_, rfl, trivial⟩, ⟨_, rfl, hage⟩, ⟨_, rfl, trivial⟩, ⟨_, rfl, trivial⟩⟩

/-- A column that is NULL comes back as the empty text. -/
theorem null_not_restored : ¬SavesUnchanged (storedPerson none nofun)
    (savedRequest signedText personAlias [] (storedPerson none nofun)) := by
  intro h
  have hsavable := savable_of_unchanged signedText personAlias [] _ samplePostgres_lawful
    printsDoubles_signedText h
  obtain ⟨v, hv, -⟩ := hsavable.kept (sampleField ['a'] .int) (by decide)
  cases hv

end Onisin.Ui
