import Onisin.Gql.Statements
import Onisin.Lib.Like

/-!
The `contains` filter. Its value goes into the pattern of an ILIKE as it is, so the characters
that mean something in a pattern mean it in the value too.
-/

set_option autoImplicit false

namespace Onisin.Gql
open Lib Domain

variable {d : DomainDef} {r : QueryReq} {c : WhereCond}

/-- The pattern that is bound for a value. -/
def containsPattern (v : Text) : Text := '%' :: (v ++ ['%'])

theorem conditionBind_contains {v : Text} (hop : c.op = "contains".toList) (hv : c.value = .string v) :
    conditionBind c = some (containsPattern v) := by
  simp [conditionBind, coerceBind, hop, hv, containsPattern]

theorem conditionText_contains (f : DomainFieldDef) (i : Nat) :
    conditionText f "contains".toList i = f.name ++ " ILIKE ".toList ++ placeholder i := if_pos rfl

theorem getElem?_conditionTexts {fs : List DomainFieldDef} {ops : List Text} {f : DomainFieldDef} {op : Text}
    {i : Nat} (hf : fs[i]? = some f) (hop : ops[i]? = some op) (n : Nat) :
    (conditionTexts fs ops n)[i]? = some (conditionText f op (n + i)) := by
  have hzip : (fs.zip ops)[i]? = some (f, op) := List.getElem?_zip_eq_some.mpr ⟨hf, hop⟩
  rw [conditionTexts, List.getElem?_map, List.getElem?_zipIdx, hzip]
  rfl

/-- The statement that is built for a `contains` condition: its ILIKE stands at the place of the
condition, and the pattern is bound there. -/
theorem buildSelect_contains {sql : Text} {binds : List Bind} (h : buildSelect d r = .ok (sql, binds))
    {i : Nat} (hi : r.conditions[i]? = some c) (hop : c.op = "contains".toList) {v : Text}
    (hv : c.value = .string v) :
    ∃ cols fs order limit, sql = selectText d cols fs (r.conditions.map WhereCond.op) order limit ∧
      (conditionTexts fs (r.conditions.map WhereCond.op) 1)[i]? =
        some (c.field ++ " ILIKE ".toList ++ placeholder (i + 1)) ∧
      binds[i]? = some (some (containsPattern v)) := by
  rw [buildSelect_eq] at h
  cases hselect : selectSql d r.fields (r.conditions.map WhereCond.shape) r.order r.limit with
  | error e =>
    rw [hselect] at h
    cases h
  | ok s =>
    rw [hselect] at h
    obtain ⟨rfl, rfl⟩ := Prod.mk.inj (Except.ok.inj h)
    obtain ⟨cols, fs, order, limit, -, hfs, -, -, rfl⟩ := selectSql_ok hselect
    obtain ⟨hlen, -, hnames⟩ := conditionFields hfs
    have hlt : i < fs.length := by
      rw [hlen, List.length_map]
      exact (List.getElem?_eq_some_iff.mp hi).1
    have hop' : (r.conditions.map WhereCond.op)[i]? = some "contains".toList := by
      rw [List.getElem?_map, hi, Option.map_some, hop]
    have hname : fs[i].name = c.field := by
      have hat := congrArg (·[i]?) hnames
      simp only [List.map_map, List.getElem?_map, hi, List.getElem?_eq_getElem hlt, Option.map_some,
        Option.some.injEq] at hat
      exact hat
    refine ⟨cols, fs, order, limit, ?_, ?_, ?_⟩
    · rw [List.map_map]
      rfl
    · rw [getElem?_conditionTexts (List.getElem?_eq_getElem hlt) hop', conditionText_contains, hname,
        Nat.add_comm]
    · rw [List.getElem?_map, hi, Option.map_some, conditionBind_contains hop hv]

/-- A `contains` condition is true of exactly the texts its value occurs in if and only if no
character of the value means something in a pattern. -/
theorem contains_finds_iff {fold : Char → Char} (hfold : KeepsMeta fold) {sql : Text} {binds : List Bind}
    (h : buildSelect d r = .ok (sql, binds)) {i : Nat} (hi : r.conditions[i]? = some c)
    (hop : c.op = "contains".toList) {v : Text} (hv : c.value = .string v) :
    ∃ cols fs order limit pattern,
      sql = selectText d cols fs (r.conditions.map WhereCond.op) order limit ∧
      (conditionTexts fs (r.conditions.map WhereCond.op) 1)[i]? =
        some (c.field ++ " ILIKE ".toList ++ placeholder (i + 1)) ∧
      binds[i]? = some (some pattern) ∧
      ((∀ t, ilike fold t pattern = some true ↔ OccursIn fold v t) ↔ ∀ c ∈ v, isLikeMeta c = false) := by
  obtain ⟨cols, fs, order, limit, hsql, htext, hbind⟩ := buildSelect_contains h hi hop hv
  exact ⟨cols, fs, order, limit, _, hsql, htext, hbind, ilike_wrapped_iff hfold v⟩

/-! Values that mean something else in a pattern. -/

/-- What is no letter stays what it is, and no letter becomes it. -/
theorem toLower_eq_iff {e : Char} (he : e.toNat < 65 ∨ 91 ≤ e.toNat ∧ e.toNat < 97) (c : Char) :
    c.toLower = e ↔ c = e := by
  unfold Char.toLower
  split
  · next h =>
    have hlow : 65 ≤ c.val.toNat ∧ c.val.toNat ≤ 90 :=
      ⟨UInt32.le_iff_toNat_le.mp h.1, UInt32.le_iff_toNat_le.mp h.2⟩
    constructor
    · rintro rfl
      have hstep : ('a'.val - 'A'.val).toNat = 32 := rfl
      have hval : (c.val + ('a'.val - 'A'.val)).toNat = c.val.toNat + 32 := by
        rw [UInt32.toNat_add, hstep]
        exact Nat.mod_eq_of_lt (by omega)
      simp only [Char.toNat, hval] at he
      omega
    · rintro rfl
      have hsame : c.toNat = c.val.toNat := rfl
      omega
  · rfl

theorem keepsMeta_toLower : KeepsMeta Char.toLower :=
  ⟨toLower_eq_iff (by decide), toLower_eq_iff (by decide), toLower_eq_iff (by decide)⟩

def nameContains (v : Text) : QueryReq :=
  ⟨none, [⟨"name".toList, "contains".toList, .string v⟩], [], none, false⟩

theorem contains_finds_iff_an :
    ∃ sql binds, buildSelect personDomain (nameContains "an".toList) = .ok (sql, binds) ∧
      ∃ cols fs order limit pattern,
        sql = selectText personDomain cols fs ["contains".toList] order limit ∧
        (conditionTexts fs ["contains".toList] 1)[0]? =
          some ("name".toList ++ " ILIKE ".toList ++ placeholder 1) ∧
        binds[0]? = some (some pattern) ∧
        ((∀ t, ilike Char.toLower t pattern = some true ↔ OccursIn Char.toLower "an".toList t) ↔
          ∀ c ∈ "an".toList, isLikeMeta c = false) := by
  obtain ⟨out, hout⟩ : ∃ out, buildSelect personDomain (nameContains "an".toList) = .ok out := ⟨_, rfl⟩
  have hi : (nameContains "an".toList).conditions[0]? =
      some ⟨"name".toList, "contains".toList, .string "an".toList⟩ := rfl
  exact ⟨out.1, out.2, hout, contains_finds_iff keepsMeta_toLower hout hi rfl rfl⟩

/-- `_` is found in every text but the empty one, and a text is found by a value that ends in a
backslash though it does not hold it. -/
theorem contains_finds_more :
    ((buildSelect personDomain (nameContains ['_'])).map Prod.snd = .ok [some (containsPattern ['_'])] ∧
      ilike Char.toLower ['a'] (containsPattern ['_']) = some true ∧
      ¬ OccursIn Char.toLower ['_'] ['a']) ∧
    ((buildSelect personDomain (nameContains ['a', '\\'])).map Prod.snd =
        .ok [some (containsPattern ['a', '\\'])] ∧
      ilike Char.toLower ['a', '%'] (containsPattern ['a', '\\']) = some true ∧
      ¬ OccursIn Char.toLower ['a', '\\'] ['a', '%']) := by
  refine ⟨⟨rfl, by decide, ?_⟩, rfl, by decide, ?_⟩
  · rw [OccursIn]
    decide
  · rw [OccursIn]
    decide

end Onisin.Gql
