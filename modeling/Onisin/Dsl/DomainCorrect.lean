import Onisin.Dsl.DomainGrammar
import Onisin.Dsl.DomainParser

/-!
The domain parser against the grammar. For each rule there are two lemmas: what the parser
accepts is a derivation, with its fold as the result; and a derivation is accepted wherever
what follows cannot be taken for a continuation of it.
-/

set_option autoImplicit false

namespace Onisin.Domain
open Lib Parser

section Primitives
variable {ts rest : List (Located Tok)}

theorem eatKw_ok {kw : String} {u : Unit} :
    eatKw kw ts = .ok (u, rest) ↔ Takes [.ident kw.toList] ts rest := eat_ok

theorem ident_ok {s : Text} : ident ts = .ok (s, rest) ↔ Takes [.ident s] ts rest := by
  rw [ident, accept_ok]
  constructor
  · rintro ⟨k, hk, h⟩
    cases k <;> cases hk
    exact h
  · exact fun h => ⟨_, rfl, h⟩

theorem string_ok {s : Text} : string ts = .ok (s, rest) ↔ Takes [.str s] ts rest := by
  rw [string, accept_ok]
  constructor
  · rintro ⟨k, hk, h⟩
    cases k <;> cases hk
    exact h
  · exact fun h => ⟨_, rfl, h⟩

theorem word_ok {α : Type} {all : List α} {keyword : α → Text} {what : String}
    (hall : ∀ a, ofKeyword all keyword (keyword a) = some a) {a : α} :
    word all keyword what ts = .ok (a, rest) ↔ Takes [.ident (keyword a)] ts rest := by
  simp only [word, bind_ok, ident_ok]
  constructor
  · rintro ⟨kw, mid, htake, h⟩
    cases hkw : ofKeyword all keyword kw with
    | none =>
      rw [hkw] at h
      cases fail_ok.mp h
    | some b =>
      rw [hkw] at h
      obtain ⟨rfl, rfl⟩ := pure_ok.mp h
      exact ofKeyword_some hkw ▸ htake
  · intro h
    refine ⟨keyword a, rest, h, ?_⟩
    rw [hall]
    rfl

theorem permissionAction_ok {a : PermissionAction} :
    permissionAction ts = .ok (a, rest) ↔ Takes [.ident a.keyword] ts rest :=
  word_ok PermissionAction.ofKeyword_keyword

theorem fieldType_ok {a : FieldType} :
    fieldType ts = .ok (a, rest) ↔ Takes [.ident a.keyword] ts rest :=
  word_ok FieldType.ofKeyword_keyword

theorem exampleOp_ok {a : ExampleOp} :
    exampleOp ts = .ok (a, rest) ↔ Takes [.ident a.keyword] ts rest :=
  word_ok ExampleOp.ofKeyword_keyword

theorem relationKind_ok {a : RelationKind} :
    relationKind ts = .ok (a, rest) ↔ Takes [.ident a.keyword] ts rest :=
  word_ok RelationKind.ofKeyword_keyword

theorem exampleValue_ok {r : Text × Bool} :
    exampleValue ts = .ok (r, rest) ↔ ∃ v : ExampleValue Text Text, Takes [v.yield tokens] ts rest ∧
      r = match v with | .string s => (s, true) | .number n => (n, false) := by
  rw [exampleValue, accept_ok]
  constructor
  · rintro ⟨k, hk, h⟩
    cases k <;> cases hk
    · exact ⟨.number _, h, rfl⟩
    · exact ⟨.string _, h, rfl⟩
  · rintro ⟨v, h, rfl⟩
    cases v
    · exact ⟨_, rfl, h⟩
    · exact ⟨_, rfl, h⟩

end Primitives

section Rules
variable {ts rest : List (Located Tok)}

/-! Rules without a choice. -/

theorem relation_ok {r : RelationDef} :
    relation ts = .ok (r, rest) ↔ ∃ t : Relation, r = t.def_ ∧ Takes (t.yield tokens) ts rest := by
  simp only [relation, bind_ok, eatKw_ok, ident_ok, eat_ok, relationKind_ok, pure_ok, Relation.yield,
    tokens, takes_cons_cons]
  constructor
  · rintro ⟨-, t₁, h₁, name, t₂, h₂, -, t₃, h₃, kind, t₄, h₄, target, t₅, h₅, -, t₆, h₆, -, t₇, h₇,
      lf, t₈, h₈, -, t₉, h₉, ff, t₁₀, h₁₀, rfl, rfl⟩
    exact ⟨⟨name, kind, target, lf, ff⟩, rfl, t₁, h₁, t₂, h₂, t₃, h₃, t₄, h₄, t₅, h₅, t₆, h₆, t₇, h₇,
      t₈, h₈, t₉, h₉, h₁₀⟩
  · rintro ⟨⟨name, kind, target, lf, ff⟩, rfl, t₁, h₁, t₂, h₂, t₃, h₃, t₄, h₄, t₅, h₅, t₆, h₆, t₇, h₇,
      t₈, h₈, t₉, h₉, h₁₀⟩
    exact ⟨(), t₁, h₁, name, t₂, h₂, (), t₃, h₃, kind, t₄, h₄, target, t₅, h₅, (), t₆, h₆, (), t₇, h₇,
      lf, t₈, h₈, (), t₉, h₉, ff, rest, h₁₀, rfl, rfl⟩

theorem aiHint_ok {d : AiHintDef} :
    aiHint ts = .ok (d, rest) ↔ ∃ t : AiHint Text, d = t.def_ verbatim ∧ Takes (t.yield tokens) ts rest := by
  simp only [aiHint, bind_ok, eatKw_ok, string_ok, pure_ok, AiHint.yield, tokens, takes_cons_cons]
  constructor
  · rintro ⟨-, t₁, h₁, name, t₂, h₂, body, t₃, h₃, rfl, rfl⟩
    exact ⟨⟨name, body⟩, rfl, t₁, h₁, t₂, h₂, h₃⟩
  · rintro ⟨⟨name, body⟩, rfl, t₁, h₁, t₂, h₂, h₃⟩
    exact ⟨(), t₁, h₁, name, t₂, h₂, body, rest, h₃, rfl, rfl⟩

theorem example_ok {d : ExampleDef} :
    example_ ts = .ok (d, rest) ↔
      ∃ t : Example Text Text, d = t.def_ verbatim ∧ Takes (t.yield tokens) ts rest := by
  simp only [example_, bind_ok, eatKw_ok, exampleOp_ok, exampleValue_ok, string_ok, pure_ok,
    Example.yield, takes_cons_cons]
  constructor
  · rintro ⟨-, t₁, h₁, op, t₂, h₂, -, t₃, ⟨v, h₃, rfl⟩, description, t₄, h₄, rfl, rfl⟩
    refine ⟨⟨op, v, description⟩, ?_, t₁, h₁, t₂, h₂, t₃, h₃, h₄⟩
    cases v <;> rfl
  · rintro ⟨⟨op, v, description⟩, rfl, t₁, h₁, t₂, h₂, t₃, h₃, h₄⟩
    refine ⟨(), t₁, h₁, op, t₂, h₂, _, t₃, ⟨v, h₃, rfl⟩, description, rest, h₄, ?_, rfl⟩
    cases v <;> rfl

/-! Lists with commas. -/

theorem commaItem_ok {α σ : Type} {p : Parser Tok α} {k : α → Tok} {f : σ → α → σ}
    (hp : ∀ a ts rest, p ts = .ok (a, rest) ↔ Takes [k a] ts rest) {s s' : σ}
    (hcomma : head ts = some .comma) :
    (do advance
        let a ← p
        return f s a : Parser Tok σ) ts = .ok (s', rest) ↔
      ∃ a, s' = f s a ∧ Takes [.comma, k a] ts rest := by
  simp only [bind_ok, advance_ok hcomma, hp, pure_ok, takes_cons_cons]
  constructor
  · rintro ⟨-, t₁, h₁, a, t₂, h₂, rfl, rfl⟩
    exact ⟨a, rfl, t₁, h₁, h₂⟩
  · rintro ⟨a, rfl, t₁, h₁, h₂⟩
    exact ⟨(), t₁, h₁, a, rest, h₂, rfl, rfl⟩

theorem commaLoop_ok {α σ : Type} (p : Parser Tok α) (k : α → Tok) (f : σ → α → σ)
    (hp : ∀ a ts rest, p ts = .ok (a, rest) ↔ Takes [k a] ts rest) {s s' : σ} :
    loop (· = some .comma) (fun s => do
        advance
        let a ← p
        return f s a) s ts = .ok (s', rest) ↔
      head rest ≠ some .comma ∧
        ∃ as : List α, s' = as.foldl f s ∧ Takes (as.flatMap fun a => [.comma, k a]) ts rest := by
  rw [loop_ok _ (fun a => ⟨.comma, [k a], rfl, rfl⟩)
    (fun s s' ts rest hs => commaItem_ok hp (of_decide_eq_true hs)), decide_eq_false_iff_not]

theorem permission_ok {d : PermissionDef} :
    permission ts = .ok (d, rest) ↔ head rest ≠ some .comma ∧
      ∃ t : Permission, d = t.def_ ∧ Takes (t.yield tokens) ts rest := by
  simp only [permission, bind_ok, eatKw_ok, ident_ok, permissionAction_ok, pure_ok,
    commaLoop_ok permissionAction (fun a => .ident a.keyword) (fun as a => as ++ [a])
      (fun a ts rest => permissionAction_ok)]
  simp only [Permission.yield, takes_append, tokens, takes_cons_cons]
  constructor
  · rintro ⟨-, t₁, h₁, role, t₂, h₂, first, t₃, h₃, -, t₄, ⟨hend, more, rfl, h₄⟩, rfl, rfl⟩
    refine ⟨hend, ⟨role, first, more⟩, ?_, t₃, ⟨t₁, h₁, t₂, h₂, h₃⟩, h₄⟩
    simp [Permission.def_, foldl_push fun a : PermissionAction => a]
  · rintro ⟨hend, ⟨role, first, more⟩, rfl, t₃, ⟨t₁, h₁, t₂, h₂, h₃⟩, h₄⟩
    refine ⟨(), t₁, h₁, role, t₂, h₂, first, t₃, h₃, _, rest, ⟨hend, more, rfl, h₄⟩, ?_, rfl⟩
    simp [Permission.def_, foldl_push fun a : PermissionAction => a]

/-! Fields. -/

def Modifiers.set (m : Modifiers) : FieldModifier → Modifiers
  | .readOnly => { m with readOnly := true }
  | .filterable => { m with filterable := true }
  | .optionsRef ref => { m with optionsRef := some ref }

theorem startsModifier_iff {k : Option Tok} : startsModifier k = true ↔
    k = some (.ident "readonly".toList) ∨ k = some (.ident "filterable".toList) ∨
      k = some (.ident "options".toList) := by
  simp only [startsModifier, atKw, Bool.or_eq_true, decide_eq_true_eq, or_assoc]

theorem modifier_ok {m m' : Modifiers} (hstart : startsModifier (head ts) = true) :
    modifier m ts = .ok (m', rest) ↔
      ∃ t : FieldModifier, m' = m.set t ∧ Takes (t.yield tokens) ts rest := by
  rw [modifier, peek_bind]
  -- a derivation that starts with another word than the one that is there is none
  rcases startsModifier_iff.mp hstart with hk | hk | hk
  · rw [hk, if_pos (by decide)]
    simp only [bind_ok, advance_ok hk, pure_ok]
    constructor
    · rintro ⟨-, t₁, h₁, rfl, rfl⟩
      exact ⟨.readOnly, rfl, h₁⟩
    · rintro ⟨t, rfl, ht⟩
      cases t with
      | readOnly => exact ⟨(), rest, ht, rfl, rfl⟩
      | filterable => exact absurd (ht.head.symm.trans hk) (by decide)
      | optionsRef ref => exact absurd (ht.head.symm.trans hk) (by decide)
  · rw [hk, if_neg (by decide), if_pos (by decide)]
    simp only [bind_ok, advance_ok hk, pure_ok]
    constructor
    · rintro ⟨-, t₁, h₁, rfl, rfl⟩
      exact ⟨.filterable, rfl, h₁⟩
    · rintro ⟨t, rfl, ht⟩
      cases t with
      | readOnly => exact absurd (ht.head.symm.trans hk) (by decide)
      | filterable => exact ⟨(), rest, ht, rfl, rfl⟩
      | optionsRef ref => exact absurd (ht.head.symm.trans hk) (by decide)
  · rw [hk, if_neg (by decide), if_neg (by decide)]
    simp only [bind_ok, advance_ok hk, eat_ok, ident_ok, pure_ok]
    constructor
    · rintro ⟨-, t₁, h₁, -, t₂, h₂, ref, t₃, h₃, rfl, rfl⟩
      exact ⟨.optionsRef ref, rfl, takes_cons_cons.mpr ⟨t₁, h₁, takes_cons_cons.mpr ⟨t₂, h₂, h₃⟩⟩⟩
    · rintro ⟨t, rfl, ht⟩
      cases t with
      | readOnly => exact absurd (ht.head.symm.trans hk) (by decide)
      | filterable => exact absurd (ht.head.symm.trans hk) (by decide)
      | optionsRef ref =>
        obtain ⟨t₁, h₁, ht⟩ := takes_cons_cons.mp ht
        obtain ⟨t₂, h₂, h₃⟩ := takes_cons_cons.mp ht
        exact ⟨(), t₁, h₁, (), t₂, h₂, ref, rest, h₃, rfl, rfl⟩

theorem foldl_set (ms : List FieldModifier) (m : Modifiers) :
    ms.foldl Modifiers.set m =
      ⟨m.readOnly || ms.contains .readOnly, m.filterable || ms.contains .filterable,
        (refOf ms).or m.optionsRef⟩ := by
  induction ms generalizing m with
  | nil => simp [refOf]
  | cons t ms ih =>
    rw [List.foldl_cons, ih]
    cases t with
    | readOnly => simp [Modifiers.set, refOf]
    | filterable => simp [Modifiers.set, refOf]
    | optionsRef ref =>
      simp only [Modifiers.set, refOf, List.filterMap_cons, List.getLast?_cons, List.contains_cons]
      cases (List.filterMap _ ms).getLast? <;> rfl

theorem modifiers_ok {m' : Modifiers} :
    loop startsModifier modifier {} ts = .ok (m', rest) ↔ startsModifier (head rest) = false ∧
      ∃ ms : List FieldModifier, m' = ⟨ms.contains .readOnly, ms.contains .filterable, refOf ms⟩ ∧
        Takes (ms.flatMap (FieldModifier.yield tokens)) ts rest := by
  rw [loop_ok modifier (fun t => ?_) (fun m m' ts rest => modifier_ok)]
  · simp [foldl_set]
  · cases t <;> exact ⟨_, _, rfl, by decide⟩

theorem unlessEnd_ok {α : Type} {message : String} {p : Parser Tok α} {a : α} :
    unlessEnd message p ts = .ok (a, rest) ↔ head ts ≠ none ∧ p ts = .ok (a, rest) := by
  rw [unlessEnd, peek_bind]
  cases hhead : head ts with
  | none => simp
  | some k => simp

theorem nextExample_ok {es es' : List ExampleDef} :
    nextExample es ts = .ok (es', rest) ↔
      ∃ t : Example Text Text, es' = es ++ [t.def_ verbatim] ∧ Takes (t.yield tokens) ts rest := by
  simp only [nextExample, unlessEnd_ok, bind_ok, example_ok, pure_ok]
  constructor
  · rintro ⟨-, -, t₁, ⟨t, rfl, ht⟩, rfl, rfl⟩
    exact ⟨t, rfl, ht⟩
  · rintro ⟨t, rfl, ht⟩
    have hhead : head ts ≠ none := by
      rw [ht.head]
      exact Option.some_ne_none _
    exact ⟨hhead, _, rest, ⟨t, rfl, ht⟩, rfl, rfl⟩

theorem exampleLoop_ok {es es' : List ExampleDef} :
    loop (· ≠ some .rBrace) nextExample es ts = .ok (es', rest) ↔
      head rest = some .rBrace ∧ ∃ items : List (Example Text Text),
        es' = es ++ items.map (Example.def_ verbatim) ∧
          Takes (items.flatMap (Example.yield tokens)) ts rest := by
  rw [loop_ok nextExample (fun t => ?_) (fun es es' ts rest _ => nextExample_ok)]
  · simp only [foldl_push, ne_eq, decide_eq_false_iff_not, not_not]
  · exact ⟨_, _, rfl, by decide⟩

theorem examples_ok {es : List ExampleDef} :
    examples ts = .ok (es, rest) ↔ ∃ t : Option (List (Example Text Text)),
      (t = none → head rest ≠ some .lBrace) ∧ es = (t.getD []).map (Example.def_ verbatim) ∧
        Takes (examplesYield tokens t) ts rest := by
  rw [examples, peek_bind]
  by_cases hopen : head ts = some .lBrace
  · rw [if_pos hopen]
    simp only [bind_ok, advance_ok hopen, eat_ok, pure_ok, exampleLoop_ok, List.nil_append]
    constructor
    · rintro ⟨-, t₁, h₁, -, t₂, ⟨hend, items, rfl, h₂⟩, -, t₃, h₃, rfl, rfl⟩
      refine ⟨some items, fun h => absurd h (Option.some_ne_none items), rfl, ?_⟩
      exact takes_append.mpr ⟨t₂, takes_append.mpr ⟨t₁, h₁, h₂⟩, h₃⟩
    · rintro ⟨t, hnone, rfl, ht⟩
      cases t with
      | none => exact absurd (takes_nil.mp ht ▸ hopen) (hnone rfl)
      | some items =>
        obtain ⟨t₂, ht, h₃⟩ := takes_append.mp ht
        obtain ⟨t₁, h₁, h₂⟩ := takes_append.mp ht
        exact ⟨(), t₁, h₁, _, t₂, ⟨h₃.head, items, rfl, h₂⟩, (), rest, h₃, rfl, rfl⟩
  · rw [if_neg hopen, pure_ok]
    constructor
    · rintro ⟨rfl, rfl⟩
      exact ⟨none, fun _ => hopen, rfl, takes_nil.mpr rfl⟩
    · rintro ⟨t, hnone, rfl, ht⟩
      cases t with
      | none => exact ⟨rfl, takes_nil.mp ht⟩
      | some items => exact absurd ht.head hopen

theorem field_ok {d : DomainFieldDef} :
    field ts = .ok (d, rest) ↔ ∃ t : Field Text Text,
      (t.examples = none → startsModifier (head rest) = false ∧ head rest ≠ some .lBrace) ∧
        d = t.def_ verbatim ∧ Takes (t.yield tokens) ts rest := by
  simp only [field, bind_ok, eatKw_ok, ident_ok, eat_ok, fieldType_ok, modifiers_ok, examples_ok,
    pure_ok]
  constructor
  · rintro ⟨-, t₁, h₁, name, t₂, h₂, -, t₃, h₃, type, t₄, h₄, -, t₅, ⟨hend, ms, rfl, h₅⟩, -, t₆,
      ⟨es, hnone, rfl, h₆⟩, rfl, rfl⟩
    refine ⟨⟨name, type, ms, es⟩, ?_, rfl, ?_⟩
    · rintro rfl
      exact ⟨takes_nil.mp h₆ ▸ hend, hnone rfl⟩
    · simp only [Field.yield, takes_append, takes_cons_cons]
      exact ⟨t₅, ⟨t₄, ⟨t₁, h₁, t₂, h₂, t₃, h₃, h₄⟩, h₅⟩, h₆⟩
  · rintro ⟨⟨name, type, ms, es⟩, hnone, rfl, ht⟩
    simp only [Field.yield, takes_append, takes_cons_cons] at ht
    obtain ⟨t₅, ⟨t₄, ⟨t₁, h₁, t₂, h₂, t₃, h₃, h₄⟩, h₅⟩, h₆⟩ := ht
    have hend : startsModifier (head t₅) = false := by
      cases es with
      | none => exact takes_nil.mp h₆ ▸ (hnone rfl).1
      | some items =>
        rw [h₆.head]
        decide
    exact ⟨(), t₁, h₁, name, t₂, h₂, (), t₃, h₃, type, t₄, h₄, _, t₅, ⟨hend, ms, rfl, h₅⟩, _, rest,
      ⟨es, fun h => (hnone h).2, rfl, h₆⟩, rfl, rfl⟩

/-! The rest of the members. -/

theorem optionalAfter_ok {kw : String} {o : Option Text} :
    optionalAfter kw ts = .ok (o, rest) ↔
      (o = none → head rest ≠ some (.ident kw.toList)) ∧ Takes (optionalYield tokens kw o) ts rest := by
  rw [optionalAfter, peek_bind]
  by_cases hkw : head ts = some (.ident kw.toList)
  · rw [if_pos (by rw [atKw]; exact decide_eq_true hkw)]
    simp only [bind_ok, advance_ok hkw, ident_ok, pure_ok]
    constructor
    · rintro ⟨-, t₁, h₁, name, t₂, h₂, rfl, rfl⟩
      exact ⟨fun h => absurd h (Option.some_ne_none name), takes_cons_cons.mpr ⟨t₁, h₁, h₂⟩⟩
    · rintro ⟨hnone, ht⟩
      cases o with
      | none => exact absurd (takes_nil.mp ht ▸ hkw) (hnone rfl)
      | some name =>
        obtain ⟨t₁, h₁, h₂⟩ := takes_cons_cons.mp ht
        exact ⟨(), t₁, h₁, name, rest, h₂, rfl, rfl⟩
  · rw [if_neg (by rw [atKw]; simpa using hkw), pure_ok]
    constructor
    · rintro ⟨rfl, rfl⟩
      exact ⟨fun _ => hkw, takes_nil.mpr rfl⟩
    · rintro ⟨hnone, ht⟩
      cases o with
      | none => exact ⟨rfl, takes_nil.mp ht⟩
      | some name => exact absurd ht.head hkw

theorem meta_ok {d : MetaDef} :
    meta_ ts = .ok (d, rest) ↔ ∃ t : Meta,
      (t.dsn = none → head rest ≠ some (.ident "via".toList) ∧
        (t.orderBy = none → head rest ≠ some (.ident "order_by".toList))) ∧
        d = t.def_ ∧ Takes (t.yield tokens) ts rest := by
  simp only [meta_, bind_ok, eatKw_ok, ident_ok, optionalAfter_ok, pure_ok]
  constructor
  · rintro ⟨-, t₁, h₁, name, t₂, h₂, -, t₃, h₃, table, t₄, h₄, value, t₅, h₅, label, t₆, h₆,
      orderBy, t₇, ⟨horder, h₇⟩, dsn, t₈, ⟨hdsn, h₈⟩, rfl, rfl⟩
    refine ⟨⟨name, table, value, label, orderBy, dsn⟩, ?_, rfl, ?_⟩
    · rintro rfl
      exact ⟨hdsn rfl, fun h => takes_nil.mp h₈ ▸ horder h⟩
    · simp only [Meta.yield, takes_append, takes_cons_cons]
      exact ⟨t₇, ⟨t₆, ⟨t₁, h₁, t₂, h₂, t₃, h₃, t₄, h₄, t₅, h₅, h₆⟩, h₇⟩, h₈⟩
  · rintro ⟨⟨name, table, value, label, orderBy, dsn⟩, hnone, rfl, ht⟩
    simp only [Meta.yield, takes_append, takes_cons_cons] at ht
    obtain ⟨t₇, ⟨t₆, ⟨t₁, h₁, t₂, h₂, t₃, h₃, t₄, h₄, t₅, h₅, h₆⟩, h₇⟩, h₈⟩ := ht
    have horder : orderBy = none → head t₇ ≠ some (.ident "order_by".toList) := by
      intro h
      cases dsn with
      | none => exact takes_nil.mp h₈ ▸ (hnone rfl).2 h
      | some dsn =>
        rw [h₈.head]
        decide
    exact ⟨(), t₁, h₁, name, t₂, h₂, (), t₃, h₃, table, t₄, h₄, value, t₅, h₅, label, t₆, h₆,
      orderBy, t₇, ⟨horder, h₇⟩, dsn, rest, ⟨fun h => (hnone h).1, h₈⟩, rfl, rfl⟩

theorem foldl_pushAlias (vs : List Text) (d : DomainDef) :
    vs.foldl pushAlias d =
      { d with aliases := d.aliases ++ (vs.map Text.trim).filter (!·.isEmpty) } := by
  induction vs generalizing d with
  | nil => simp
  | cons v vs ih =>
    rw [List.foldl_cons, ih, pushAlias]
    cases hblank : v.trim.isEmpty <;> simp [hblank]

theorem aliasList_ok {d d' : DomainDef} :
    aliasList d ts = .ok (d', rest) ↔ ∃ t : AliasList Text,
      d' = { d with aliases := d.aliases ++ t.values verbatim } ∧ Takes (t.yield tokens) ts rest := by
  simp only [aliasList, bind_ok, eatKw_ok, eat_ok, string_ok, pure_ok,
    commaLoop_ok string .str pushAlias (fun a ts rest => string_ok), ← List.foldl_cons,
    foldl_pushAlias]
  constructor
  · rintro ⟨-, t₁, h₁, -, t₂, h₂, first, t₃, h₃, -, t₄, ⟨hend, more, rfl, h₄⟩, -, t₅, h₅, rfl, rfl⟩
    refine ⟨⟨first, more⟩, rfl, ?_⟩
    simp only [AliasList.yield, takes_append, takes_cons_cons]
    exact ⟨t₄, ⟨t₃, ⟨t₁, h₁, t₂, h₂, h₃⟩, h₄⟩, h₅⟩
  · rintro ⟨⟨first, more⟩, rfl, ht⟩
    simp only [AliasList.yield, takes_append, takes_cons_cons] at ht
    obtain ⟨t₄, ⟨t₃, ⟨t₁, h₁, t₂, h₂, h₃⟩, h₄⟩, h₅⟩ := ht
    have hend : head t₄ ≠ some .comma := by
      rw [h₅.head]
      decide
    exact ⟨(), t₁, h₁, (), t₂, h₂, first, t₃, h₃, _, t₄, ⟨hend, more, rfl, h₄⟩, (), rest, h₅, rfl, rfl⟩

/-! Members: the first word decides. -/

inductive MemberKind where
  | permission
  | field
  | relation
  | meta_
  | aiHint
  | aliasList
  deriving DecidableEq, Repr

def MemberKind.keyword : MemberKind → Text
  | .permission => "permission".toList
  | .field => "field".toList
  | .relation => "relation".toList
  | .meta_ => "meta".toList
  | .aiHint => "ai".toList
  | .aliasList => "aliases".toList

def MemberKind.all : List MemberKind := [.permission, .field, .relation, .meta_, .aiHint, .aliasList]

theorem MemberKind.ofKeyword_keyword (a : MemberKind) : ofKeyword all keyword a.keyword = some a := by
  cases a <;> decide

def DomainMember.kind : DomainMember Text Text → MemberKind
  | .permission _ => .permission
  | .field _ => .field
  | .relation _ => .relation
  | .meta_ _ => .meta_
  | .aiHint _ => .aiHint
  | .aliasList _ => .aliasList

/-- What may stand behind a member: another one, or the brace that closes the block. -/
def MemberFollow (ks : List Tok) : Prop :=
  ks.head? = some .rBrace ∨ ∃ k : MemberKind, ks.head? = some (.ident k.keyword)

/-- Nothing that may follow a member continues it. -/
theorem MemberFollow.ends {ks : List Tok} (h : MemberFollow ks) :
    ks.head? ≠ some .comma ∧ ks.head? ≠ some .lBrace ∧ startsModifier ks.head? = false ∧
      ks.head? ≠ some (.ident "via".toList) ∧ ks.head? ≠ some (.ident "order_by".toList) := by
  obtain h | ⟨k, h⟩ := h
  · rw [h]
    decide
  · rw [h]
    cases k <;> decide

theorem DomainMember.yield_head (t : DomainMember Text Text) (ks : List Tok) :
    (t.yield tokens ++ ks).head? = some (.ident t.kind.keyword) := by
  cases t <;> rfl

theorem DomainMember.follow (t : DomainMember Text Text) (ks : List Tok) :
    MemberFollow (t.yield tokens ++ ks) :=
  .inr ⟨t.kind, t.yield_head ks⟩

theorem head_eq (ts : List (Located Tok)) : head ts = (ts.map Located.tok).head? := by
  rw [head, List.head?_map]

theorem member_sound {d d' : DomainDef} (h : member d ts = .ok (d', rest)) :
    ∃ t : DomainMember Text Text, d' = d.push verbatim t ∧ Takes (t.yield tokens) ts rest := by
  rw [member, peek_bind] at h
  split at h
  · simp only [bind_ok, permission_ok, pure_ok] at h
    obtain ⟨-, t₁, ⟨-, t, rfl, ht⟩, rfl, rfl⟩ := h
    exact ⟨.permission t, rfl, ht⟩
  split at h
  · simp only [bind_ok, field_ok, pure_ok] at h
    obtain ⟨-, t₁, ⟨t, -, rfl, ht⟩, rfl, rfl⟩ := h
    exact ⟨.field t, rfl, ht⟩
  split at h
  · simp only [bind_ok, relation_ok, pure_ok] at h
    obtain ⟨-, t₁, ⟨t, rfl, ht⟩, rfl, rfl⟩ := h
    exact ⟨.relation t, rfl, ht⟩
  split at h
  · simp only [bind_ok, meta_ok, pure_ok] at h
    obtain ⟨-, t₁, ⟨t, -, rfl, ht⟩, rfl, rfl⟩ := h
    exact ⟨.meta_ t, rfl, ht⟩
  split at h
  · simp only [bind_ok, aiHint_ok, pure_ok] at h
    obtain ⟨-, t₁, ⟨t, rfl, ht⟩, rfl, rfl⟩ := h
    exact ⟨.aiHint t, rfl, ht⟩
  split at h
  · obtain ⟨t, rfl, ht⟩ := aliasList_ok.mp h
    exact ⟨.aliasList t, rfl, ht⟩
  · cases fail_ok.mp h

theorem member_complete {d : DomainDef} {t : DomainMember Text Text} (ht : Takes (t.yield tokens) ts rest)
    (hrest : MemberFollow (rest.map Located.tok)) : member d ts = .ok (d.push verbatim t, rest) := by
  obtain ⟨hcomma, hbrace, hmodifier, hvia, horder⟩ := hrest.ends
  rw [← head_eq] at hcomma hbrace hmodifier hvia horder
  rw [member, peek_bind]
  cases t with
  | permission t =>
    rw [ht.head, if_pos (by decide)]
    exact bind_ok.mpr ⟨_, rest, permission_ok.mpr ⟨hcomma, t, rfl, ht⟩, rfl⟩
  | field t =>
    rw [ht.head, if_neg (by decide), if_pos (by decide)]
    exact bind_ok.mpr ⟨_, rest, field_ok.mpr ⟨t, fun _ => ⟨hmodifier, hbrace⟩, rfl, ht⟩, rfl⟩
  | relation t =>
    rw [ht.head, if_neg (by decide), if_neg (by decide), if_pos (by decide)]
    exact bind_ok.mpr ⟨_, rest, relation_ok.mpr ⟨t, rfl, ht⟩, rfl⟩
  | meta_ t =>
    rw [ht.head, if_neg (by decide), if_neg (by decide), if_neg (by decide), if_pos (by decide)]
    exact bind_ok.mpr ⟨_, rest, meta_ok.mpr ⟨t, fun _ => ⟨hvia, fun _ => horder⟩, rfl, ht⟩, rfl⟩
  | aiHint t =>
    rw [ht.head, if_neg (by decide), if_neg (by decide), if_neg (by decide), if_neg (by decide),
      if_pos (by decide)]
    exact bind_ok.mpr ⟨_, rest, aiHint_ok.mpr ⟨t, rfl, ht⟩, rfl⟩
  | aliasList t =>
    rw [ht.head, if_neg (by decide), if_neg (by decide), if_neg (by decide), if_neg (by decide),
      if_neg (by decide), if_pos (by decide)]
    exact aliasList_ok.mpr ⟨t, rfl, ht⟩

theorem members_sound {d d' : DomainDef} (h : loop (· ≠ some .rBrace) nextMember d ts = .ok (d', rest)) :
    ∃ ms : List (DomainMember Text Text), d' = ms.foldl (DomainDef.push verbatim) d ∧
      Takes (ms.flatMap (DomainMember.yield tokens)) ts rest := by
  refine (loop_sound (fun s s' ts rest _ h => ?_) h).2
  exact member_sound (unlessEnd_ok.mp h).2

theorem members_complete {d : DomainDef} {ms : List (DomainMember Text Text)}
    (ht : Takes (ms.flatMap (DomainMember.yield tokens)) ts rest) (hrest : head rest = some .rBrace) :
    loop (· ≠ some .rBrace) nextMember d ts = .ok (ms.foldl (DomainDef.push verbatim) d, rest) := by
  refine loop_complete MemberFollow ?_ DomainMember.follow ?_ ht ?_ ?_
  · intro t
    cases t <;> exact ⟨_, _, rfl, by decide⟩
  · intro s ts rest t ht hfollow
    have hhead : head ts ≠ none := by
      cases t <;> exact ht.head ▸ Option.some_ne_none _
    exact unlessEnd_ok.mpr ⟨hhead, member_complete ht hfollow⟩
  · rw [hrest]
    decide
  · exact .inl (head_eq rest ▸ hrest)

end Rules

/-! Whole sources. -/

/-- A name that the parser keeps back for global definitions. -/
def Reserved (name : Text) : Prop := globalPrefix <+: name

instance (name : Text) : Decidable (Reserved name) :=
  inferInstanceAs (Decidable (globalPrefix <+: name))

theorem finish_ok {ts rest : List (Located Tok)} {d d' : DomainDef} :
    finish d ts = .ok (d', rest) ↔ ts = [] ∧ rest = [] ∧ ¬ Reserved d.name ∧ d' = d := by
  rw [finish, peek_bind]
  cases ts with
  | cons t ts => simp [head]
  | nil =>
    by_cases hname : globalPrefix.isPrefixOf d.name = true
    · have hreserved : Reserved d.name := List.isPrefixOf_iff_prefix.mp hname
      simp [head, hname, hreserved]
    · have hfree : ¬ Reserved d.name := fun h => hname (List.isPrefixOf_iff_prefix.mpr h)
      rw [if_neg (by simp [head]), if_neg hname, pure_ok]
      simp [hfree, eq_comm, and_comm]

theorem domain_ok {ts rest : List (Located Tok)} {d : DomainDef} :
    domain ts = .ok (d, rest) ↔ rest = [] ∧ ∃ t : DomainDecl Text Text,
      Takes (t.yield tokens) ts [] ∧ ¬ Reserved t.name ∧ d = t.fold verbatim := by
  simp only [DomainDecl.yield, takes_append, takes_cons_cons]
  constructor
  · intro h
    simp only [domain, bind_ok, eatKw_ok, ident_ok, eat_ok] at h
    obtain ⟨-, t₁, h₁, name, t₂, h₂, -, t₃, h₃, source, t₄, h₄, -, t₅, h₅, dsn, t₆, h₆, -, t₇, h₇,
      d', t₈, hloop, -, t₉, h₉, h⟩ := h
    obtain ⟨rfl, rfl, hfree, rfl⟩ := finish_ok.mp h
    obtain ⟨ms, rfl, h₈⟩ := members_sound hloop
    have hfold := foldl_push_fold verbatim ⟨name, source, dsn, ms⟩
    rw [hfold] at hfree ⊢
    exact ⟨rfl, ⟨name, source, dsn, ms⟩, ⟨t₈, ⟨t₇, ⟨t₁, h₁, t₂, h₂, t₃, h₃, t₄, h₄, t₅, h₅, t₆, h₆, h₇⟩,
      h₈⟩, h₉⟩, hfree, rfl⟩
  · rintro ⟨rfl, ⟨name, source, dsn, ms⟩, ⟨t₈, ⟨t₇, ⟨t₁, h₁, t₂, h₂, t₃, h₃, t₄, h₄, t₅, h₅, t₆, h₆, h₇⟩,
      h₈⟩, h₉⟩, hfree, rfl⟩
    have hfold := foldl_push_fold verbatim ⟨name, source, dsn, ms⟩
    simp only [domain, bind_ok, eatKw_ok, ident_ok, eat_ok]
    refine ⟨(), t₁, h₁, name, t₂, h₂, (), t₃, h₃, source, t₄, h₄, (), t₅, h₅, dsn, t₆, h₆, (), t₇, h₇,
      _, t₈, members_complete h₈ h₉.head, (), [], h₉, ?_⟩
    rw [hfold]
    exact finish_ok.mpr ⟨rfl, rfl, hfree, rfl⟩

theorem parse_ok {toks : List (Located Tok)} {d : DomainDef} :
    parse toks = .ok d ↔ ∃ t : DomainDecl Text Text,
      t.yield tokens = toks.map Located.tok ∧ ¬ Reserved t.name ∧ d = t.fold verbatim := by
  have htakes : ∀ t : DomainDecl Text Text,
      Takes (t.yield tokens) toks [] ↔ t.yield tokens = toks.map Located.tok :=
    fun t => takes_all.trans eq_comm
  simp only [parse, ← htakes]
  constructor
  · intro h
    cases hdomain : domain toks with
    | error e =>
      rw [hdomain] at h
      cases h
    | ok r =>
      rw [hdomain] at h
      cases h
      exact (domain_ok.mp hdomain).2
  · intro h
    rw [domain_ok.mpr ⟨rfl, h⟩]
    rfl

/-! The grammar is unambiguous. -/

section Unique

theorem actionYield_determined : Determined (actionYield tokens) fun _ => True := by
  intro a a' r r' _ _ heq
  simp only [actionYield, tokens, List.cons_append, List.nil_append, List.cons.injEq, Tok.ident.injEq,
    true_and] at heq
  exact ⟨ofKeyword_injective PermissionAction.ofKeyword_keyword heq.1, heq.2⟩

theorem Permission.determined : Determined (Permission.yield tokens) MemberFollow := by
  rintro ⟨role, first, more⟩ ⟨role', first', more'⟩ r r' hr hr' heq
  simp only [Permission.yield, tokens, List.cons_append, List.nil_append, List.cons.injEq,
    Tok.ident.injEq, true_and] at heq
  obtain ⟨rfl, hfirst, hmore⟩ := heq
  obtain rfl := ofKeyword_injective PermissionAction.ofKeyword_keyword hfirst
  obtain ⟨rfl, rfl⟩ := actionYield_determined.flatMap (· = some .comma)
    (fun a => ⟨_, _, rfl, rfl⟩) (fun _ _ => trivial) more more' r r'
    ⟨decide_eq_false hr.ends.1, trivial⟩ ⟨decide_eq_false hr'.ends.1, trivial⟩ hmore
  exact ⟨rfl, rfl⟩

theorem FieldModifier.determined : Determined (FieldModifier.yield tokens) fun _ => True := by
  intro t t' r r' _ _ heq
  cases t <;> cases t' <;>
    simp_all [FieldModifier.yield, tokens]

theorem ExampleValue.yield_injective : Function.Injective (ExampleValue.yield tokens) := by
  intro v v' h
  cases v <;> cases v' <;> cases h <;> rfl

theorem Example.determined : Determined (Example.yield tokens) fun _ => True := by
  rintro ⟨op, v, description⟩ ⟨op', v', description'⟩ r r' _ _ heq
  simp only [Example.yield, List.cons_append, List.nil_append, List.cons.injEq, true_and] at heq
  obtain ⟨hop, hv, hdescription, rfl⟩ := heq
  obtain rfl := ofKeyword_injective ExampleOp.ofKeyword_keyword (Tok.ident.inj hop)
  obtain rfl := ExampleValue.yield_injective hv
  obtain rfl := Tok.str.inj hdescription
  exact ⟨rfl, rfl⟩

theorem examplesYield_determined :
    Determined (examplesYield tokens) fun r => r.head? ≠ some .lBrace := by
  intro t t' r r' hr hr' heq
  cases t with
  | none =>
    cases t' with
    | none => exact ⟨rfl, heq⟩
    | some items => exact absurd (congrArg List.head? heq) hr
  | some items =>
    cases t' with
    | none => exact absurd (congrArg List.head? heq).symm hr'
    | some items' =>
      simp only [examplesYield, List.cons_append, List.nil_append, List.append_assoc, List.cons.injEq,
        true_and] at heq
      obtain ⟨rfl, hmore⟩ := Example.determined.flatMap (· ≠ some .rBrace)
        (fun t => ⟨_, _, rfl, by decide⟩) (fun _ _ => trivial) items items' _ _
        ⟨rfl, trivial⟩ ⟨rfl, trivial⟩ heq
      exact ⟨rfl, (List.cons.inj hmore).2⟩

theorem Field.determined : Determined (Field.yield tokens) MemberFollow := by
  rintro ⟨name, type, ms, es⟩ ⟨name', type', ms', es'⟩ r r' hr hr' heq
  simp only [Field.yield, List.cons_append, List.nil_append, List.append_assoc, List.cons.injEq,
    true_and] at heq
  obtain ⟨hname, htype, hmore⟩ := heq
  obtain rfl := Tok.ident.inj hname
  obtain rfl := ofKeyword_injective FieldType.ofKeyword_keyword (Tok.ident.inj htype)
  have hend : ∀ (es : Option (List (Example Text Text))) (r : List Tok), MemberFollow r →
      startsModifier (examplesYield tokens es ++ r).head? = false := by
    intro es r hr
    cases es with
    | none => exact hr.ends.2.2.1
    | some items => rfl
  obtain ⟨rfl, hexamples⟩ := FieldModifier.determined.flatMap startsModifier
    (fun t => by cases t <;> exact ⟨_, _, rfl, by decide⟩) (fun _ _ => trivial) ms ms' _ _
    ⟨hend es r hr, trivial⟩ ⟨hend es' r' hr', trivial⟩ hmore
  obtain ⟨rfl, rfl⟩ := examplesYield_determined es es' r r' hr.ends.2.1 hr'.ends.2.1 hexamples
  exact ⟨rfl, rfl⟩

theorem Relation.determined : Determined (Relation.yield tokens) MemberFollow := by
  rintro ⟨name, kind, target, lf, ff⟩ ⟨name', kind', target', lf', ff'⟩ r r' _ _ heq
  simp only [Relation.yield, tokens, List.cons_append, List.nil_append, List.cons.injEq,
    Tok.ident.injEq, true_and] at heq
  obtain ⟨rfl, hkind, rfl, rfl, rfl, rfl⟩ := heq
  obtain rfl := ofKeyword_injective RelationKind.ofKeyword_keyword hkind
  exact ⟨rfl, rfl⟩

theorem optionalYield_determined (kw : String) :
    Determined (optionalYield tokens kw) fun r => r.head? ≠ some (.ident kw.toList) := by
  intro t t' r r' hr hr' heq
  cases t with
  | none =>
    cases t' with
    | none => exact ⟨rfl, heq⟩
    | some name => exact absurd (congrArg List.head? heq) hr
  | some name =>
    cases t' with
    | none => exact absurd (congrArg List.head? heq).symm hr'
    | some name' =>
      simp only [optionalYield, tokens, List.cons_append, List.nil_append, List.cons.injEq,
        Tok.ident.injEq, true_and] at heq
      obtain ⟨rfl, rfl⟩ := heq
      exact ⟨rfl, rfl⟩

theorem Meta.determined : Determined (Meta.yield tokens) MemberFollow := by
  rintro ⟨name, table, value, label, orderBy, dsn⟩ ⟨name', table', value', label', orderBy', dsn'⟩
    r r' hr hr' heq
  simp only [Meta.yield, List.cons_append, List.nil_append, List.append_assoc, List.cons.injEq,
    true_and] at heq
  obtain ⟨hname, htable, hvalue, hlabel, hmore⟩ := heq
  obtain rfl := Tok.ident.inj hname
  obtain rfl := Tok.ident.inj htable
  obtain rfl := Tok.ident.inj hvalue
  obtain rfl := Tok.ident.inj hlabel
  have hend : ∀ (dsn : Option Text) (r : List Tok), MemberFollow r →
      (optionalYield tokens "via" dsn ++ r).head? ≠ some (.ident "order_by".toList) := by
    intro dsn r hr
    cases dsn with
    | none => exact hr.ends.2.2.2.2
    | some dsn =>
      simp only [optionalYield, tokens, List.cons_append, List.head?_cons]
      decide
  obtain ⟨rfl, hdsn⟩ := optionalYield_determined "order_by" orderBy orderBy' _ _ (hend dsn r hr)
    (hend dsn' r' hr') hmore
  obtain ⟨rfl, rfl⟩ := optionalYield_determined "via" dsn dsn' r r' hr.ends.2.2.2.1 hr'.ends.2.2.2.1 hdsn
  exact ⟨rfl, rfl⟩

theorem AiHint.determined : Determined (AiHint.yield tokens : AiHint Text → _) MemberFollow := by
  rintro ⟨name, body⟩ ⟨name', body'⟩ r r' _ _ heq
  simp only [AiHint.yield, tokens, List.cons_append, List.nil_append, List.cons.injEq, Tok.str.injEq,
    true_and] at heq
  obtain ⟨rfl, rfl, rfl⟩ := heq
  exact ⟨rfl, rfl⟩

theorem aliasYield_determined : Determined (aliasYield tokens : Text → _) fun _ => True := by
  intro s s' r r' _ _ heq
  simpa [aliasYield, tokens] using heq

theorem AliasList.determined : Determined (AliasList.yield tokens : AliasList Text → _) MemberFollow := by
  rintro ⟨first, more⟩ ⟨first', more'⟩ r r' _ _ heq
  simp only [AliasList.yield, List.cons_append, List.nil_append, List.append_assoc, List.cons.injEq,
    true_and] at heq
  obtain ⟨hfirst, hmore⟩ := heq
  obtain rfl := Tok.str.inj hfirst
  obtain ⟨rfl, hrest⟩ := aliasYield_determined.flatMap (· = some .comma)
    (fun s => ⟨_, _, rfl, rfl⟩) (fun _ _ => trivial) more more' _ _ ⟨rfl, trivial⟩ ⟨rfl, trivial⟩ hmore
  exact ⟨rfl, (List.cons.inj hrest).2⟩

/-- Members of two kinds start with two words. -/
theorem DomainMember.determined : Determined (DomainMember.yield tokens) MemberFollow := by
  intro t t' r r' hr hr' heq
  have hkind : t.kind = t'.kind := by
    have hfirst := congrArg List.head? heq
    rw [t.yield_head, t'.yield_head] at hfirst
    exact ofKeyword_injective MemberKind.ofKeyword_keyword (Tok.ident.inj (Option.some.inj hfirst))
  cases t with
  | permission t =>
    cases t' with
    | permission t' =>
      obtain ⟨rfl, rfl⟩ := Permission.determined t t' r r' hr hr' heq
      exact ⟨rfl, rfl⟩
    | _ => cases hkind
  | field t =>
    cases t' with
    | field t' =>
      obtain ⟨rfl, rfl⟩ := Field.determined t t' r r' hr hr' heq
      exact ⟨rfl, rfl⟩
    | _ => cases hkind
  | relation t =>
    cases t' with
    | relation t' =>
      obtain ⟨rfl, rfl⟩ := Relation.determined t t' r r' hr hr' heq
      exact ⟨rfl, rfl⟩
    | _ => cases hkind
  | meta_ t =>
    cases t' with
    | meta_ t' =>
      obtain ⟨rfl, rfl⟩ := Meta.determined t t' r r' hr hr' heq
      exact ⟨rfl, rfl⟩
    | _ => cases hkind
  | aiHint t =>
    cases t' with
    | aiHint t' =>
      obtain ⟨rfl, rfl⟩ := AiHint.determined t t' r r' hr hr' heq
      exact ⟨rfl, rfl⟩
    | _ => cases hkind
  | aliasList t =>
    cases t' with
    | aliasList t' =>
      obtain ⟨rfl, rfl⟩ := AliasList.determined t t' r r' hr hr' heq
      exact ⟨rfl, rfl⟩
    | _ => cases hkind

theorem DomainDecl.yield_injective :
    Function.Injective (DomainDecl.yield tokens : DomainDecl Text Text → List Tok) := by
  rintro ⟨name, source, dsn, ms⟩ ⟨name', source', dsn', ms'⟩ heq
  simp only [DomainDecl.yield, List.cons_append, List.nil_append, List.cons.injEq, true_and] at heq
  obtain ⟨hname, hsource, hdsn, hmembers⟩ := heq
  obtain rfl := Tok.ident.inj hname
  obtain rfl := Tok.ident.inj hsource
  obtain rfl := Tok.ident.inj hdsn
  obtain ⟨rfl, -⟩ := DomainMember.determined.flatMap (· ≠ some .rBrace)
    (fun t => by cases t <;> exact ⟨_, _, rfl, by decide⟩) DomainMember.follow ms ms' _ _
    ⟨rfl, .inl rfl⟩ ⟨rfl, .inl rfl⟩ hmembers
  rfl

end Unique

/-- The parser accepts exactly the derivations whose name is not reserved, and returns what
they mean; no token list has two derivations. -/
theorem parse_recognises_grammar (toks : List (Located Tok)) :
    (∀ d, parse toks = .ok d ↔ ∃ t : DomainDecl Text Text,
      t.yield tokens = toks.map Located.tok ∧ ¬ Reserved t.name ∧ d = t.fold verbatim) ∧
    ∀ t t' : DomainDecl Text Text, t.yield tokens = toks.map Located.tok →
      t'.yield tokens = toks.map Located.tok → t = t' := by
  refine ⟨fun d => parse_ok, ?_⟩
  intro t t' ht ht'
  exact DomainDecl.yield_injective (ht.trans ht'.symm)

/-- The token list of a domain with a dotted name. -/
def reservedTokens : List (Located Tok) :=
  ((DomainDecl.mk "global.x".toList "t".toList "d".toList []).yield tokens).map fun k => ⟨k, 1, 1⟩

/-- A derivation alone is not enough. -/
theorem reservedTokens_rejected :
    ¬ ∀ (toks : List (Located Tok)) (d : DomainDef), parse toks = .ok d ↔
      ∃ t : DomainDecl Text Text, t.yield tokens = toks.map Located.tok ∧ d = t.fold verbatim := by
  intro h
  have hparse := (h reservedTokens _).mpr ⟨⟨"global.x".toList, "t".toList, "d".toList, []⟩, by decide, rfl⟩
  have hrejected : parse reservedTokens =
      .error ⟨1, 1, "domain names starting with 'global.' are reserved".toList⟩ := by decide
  exact absurd (hrejected.symm.trans hparse) nofun

end Onisin.Domain
