import Onisin.Gql.Data
import Onisin.Lib.Dict
import Onisin.Lib.Suffixes

/-!
Filters as arguments of a query. Each filterable field has an argument for each operator of its
type, named by the field and the operator's suffix, and one of its bare name for equality.
-/

set_option autoImplicit false

namespace Onisin.Gql.Args
open Lib Domain

/-! The operators that filters are generated for. -/

structure FilterOp where
  name : ExampleOp
  label : Text
  suffix : Text
  sampleValue : Text
  deriving DecidableEq, Repr

def operatorsForType : FieldType → List FilterOp
  | .string | .text =>
    [⟨.like, "contains".toList, "_contains".toList, "\"a\"".toList⟩,
      ⟨.eq, "equals".toList, "_eq".toList, "\"value\"".toList⟩,
      ⟨.ne, "not equals".toList, "_ne".toList, "\"value\"".toList⟩]
  | .int | .float =>
    [⟨.eq, "equals".toList, "_eq".toList, "0".toList⟩,
      ⟨.ne, "not equals".toList, "_ne".toList, "0".toList⟩,
      ⟨.gt, "greater than".toList, "_gt".toList, "0".toList⟩,
      ⟨.ge, "greater or equal".toList, "_gte".toList, "0".toList⟩,
      ⟨.lt, "less than".toList, "_lt".toList, "0".toList⟩,
      ⟨.le, "less or equal".toList, "_lte".toList, "0".toList⟩]
  | .bool => [⟨.eq, "equals".toList, "_eq".toList, "true".toList⟩]
  | .date | .datetime =>
    [⟨.eq, "equals".toList, "_eq".toList, "\"2024-01-01\"".toList⟩,
      ⟨.gt, "after".toList, "_gt".toList, "\"2024-01-01\"".toList⟩,
      ⟨.lt, "before".toList, "_lt".toList, "\"2024-01-01\"".toList⟩]

/-! The arguments of a query. -/

inductive GqlScalar where
  | int
  | float
  | boolean
  | string
  deriving DecidableEq, Repr

def gqlScalarFor : FieldType → GqlScalar
  | .int => .int
  | .float => .float
  | .bool => .boolean
  | .string | .text | .date | .datetime => .string

/-- An assignment to an object; one to `__proto__` sets no property. -/
def assignArg (args : Dict GqlScalar) (name : Text) (scalar : GqlScalar) : Dict GqlScalar :=
  if name = "__proto__".toList then args else Dict.put args name scalar

def appendFieldArgs (args : Dict GqlScalar) (f : DomainFieldDef) : Dict GqlScalar :=
  let scalar := gqlScalarFor f.fieldType
  (operatorsForType f.fieldType).foldl (fun args op => assignArg args (f.name ++ op.suffix) scalar)
    (assignArg args f.name scalar)

def buildQueryArgs (d : DomainDef) : Dict GqlScalar :=
  (d.fields.filter DomainFieldDef.filterable).foldl appendFieldArgs [("id".toList, .int)]

/-! The conditions that arguments stand for. -/

inductive SqlOp where
  | eq
  | ne
  | gt
  | gte
  | lt
  | lte
  | contains
  deriving DecidableEq, Repr

/-- Suffixes and their operators, the longest first. -/
def suffixes : List (Text × SqlOp) :=
  [("_contains".toList, .contains), ("_gte".toList, .gte), ("_lte".toList, .lte), ("_eq".toList, .eq),
    ("_ne".toList, .ne), ("_gt".toList, .gt), ("_lt".toList, .lt)]

/-- A map filled with the fields in their order: the last one of a name stays. -/
def fieldByName (d : DomainDef) (n : Text) : Option DomainFieldDef := d.fields.reverse.find? (·.name = n)

def decodeFilterArg (argName : Text) (d : DomainDef) : Option (DomainFieldDef × SqlOp) :=
  decodeSuffixed (fieldByName d) suffixes .eq argName

/-- The value of an argument. -/
inductive ArgVal (α : Type) where
  | undefined
  | null
  | value (v : α)

/-- What has been collected, and the number of the next placeholder. -/
structure Conditions (α : Type) where
  conditions : List Text
  values : List (Option α)
  next : Nat

structure WhereClause (α : Type) where
  sql : Text
  values : List (Option α)

section Where

-- `String(value)` between percent signs
variable {α : Type} (wrap : α → α)

def Conditions.add (c : Conditions α) (left : Text) (v : Option α) : Conditions α :=
  ⟨c.conditions ++ [left ++ placeholder c.next], c.values ++ [v], c.next + 1⟩

def SqlOp.sql : SqlOp → Text
  | .eq => " = ".toList
  | .ne => " <> ".toList
  | .gt => " > ".toList
  | .gte => " >= ".toList
  | .lt => " < ".toList
  | .lte => " <= ".toList
  | .contains => " ILIKE ".toList

def whereStep (d : DomainDef) (c : Conditions α) (arg : Text × ArgVal α) : Conditions α :=
  match arg.2 with
  | .value v =>
    if arg.1 = "id".toList then c
    else
      match decodeFilterArg arg.1 d with
      | none => c
      | some (f, op) => c.add (f.name ++ op.sql) (some (if op = .contains then wrap v else v))
  | _ => c

/-- Only a missing `id` is left out: one that is null is compared with. -/
def idConditions (args : Dict (ArgVal α)) : Conditions α :=
  match args.lookup "id".toList with
  | some (.value v) => Conditions.add ⟨[], [], 1⟩ "id = ".toList (some v)
  | some .null => Conditions.add ⟨[], [], 1⟩ "id = ".toList none
  | _ => ⟨[], [], 1⟩

def buildWhereClause (d : DomainDef) (args : Dict (ArgVal α)) : WhereClause α :=
  let c := args.foldl (whereStep wrap d) (idConditions args)
  if c.conditions.isEmpty then ⟨[], []⟩
  else ⟨" WHERE ".toList ++ Text.join " AND ".toList c.conditions, c.values⟩

theorem whereStep_value {d : DomainDef} {n : Text} {f : DomainFieldDef} {op : SqlOp}
    (hn : n ≠ "id".toList) (h : decodeFilterArg n d = some (f, op)) (c : Conditions α) (v : α) :
    whereStep wrap d c (n, .value v) =
      c.add (f.name ++ op.sql) (some (if op = .contains then wrap v else v)) := by
  rw [whereStep]
  dsimp only
  rw [if_neg hn, h]

/-- The clause of a single argument is the condition that its name is decoded to. -/
theorem buildWhereClause_single {d : DomainDef} {n : Text} {f : DomainFieldDef} {op : SqlOp}
    (hn : n ≠ "id".toList) (h : decodeFilterArg n d = some (f, op)) (v : α) :
    buildWhereClause wrap d [(n, .value v)] =
      ⟨" WHERE ".toList ++ (f.name ++ op.sql ++ placeholder 1),
        [some (if op = .contains then wrap v else v)]⟩ := by
  have hid : idConditions [(n, ArgVal.value v)] = ⟨[], [], 1⟩ := by
    have hlookup : List.lookup "id".toList [(n, ArgVal.value v)] = none := by
      rw [Dict.lookup_cons, if_neg hn.symm]
      rfl
    rw [idConditions, hlookup]
  rw [buildWhereClause, hid, List.foldl_cons, List.foldl_nil, whereStep_value wrap hn h]
  rfl

end Where

/-! What an argument is generated for. -/

/-- The operator that a condition written with an operator of the language has. -/
def sqlOpOf : ExampleOp → Option SqlOp
  | .eq => some .eq
  | .ne => some .ne
  | .lt => some .lt
  | .le => some .lte
  | .gt => some .gt
  | .ge => some .gte
  | .like => some .contains
  | .in_ => none

/-- The argument `n` stands for the operator on the field. -/
def Generated (d : DomainDef) (n : Text) (f : DomainFieldDef) (o : SqlOp) : Prop :=
  f ∈ d.fields ∧ f.filterable = true ∧
    ((n = f.name ∧ o = .eq) ∨
      ∃ op ∈ operatorsForType f.fieldType, n = f.name ++ op.suffix ∧ sqlOpOf op.name = some o)

theorem suffixes_apart : Apart suffixes := by
  rw [Apart]
  decide

theorem operator_suffix (t : FieldType) :
    ∀ op ∈ operatorsForType t, ∃ o, sqlOpOf op.name = some o ∧ (op.suffix, o) ∈ suffixes := by
  have hall : ∀ op ∈ operatorsForType .string ++ operatorsForType .int ++ operatorsForType .date,
      ∃ e ∈ suffixes, sqlOpOf op.name = some e.2 ∧ op.suffix = e.1 := by decide
  have hmem : ∀ op ∈ operatorsForType t,
      op.name = .eq ∧ op.suffix = "_eq".toList ∨
        op ∈ operatorsForType .string ++ operatorsForType .int ++ operatorsForType .date := by
    cases t with
    | bool => decide
    | _ => decide
  intro op hop
  obtain ⟨hname, hsuffix⟩ | hop := hmem op hop
  · refine ⟨.eq, by rw [hname]; rfl, ?_⟩
    rw [hsuffix]
    decide
  · obtain ⟨e, he, hop, hsuffix⟩ := hall op hop
    exact ⟨e.2, hop, hsuffix ▸ he⟩

/-! Decoding. -/

theorem fieldByName_some {d : DomainDef} {n : Text} {f : DomainFieldDef} (h : fieldByName d n = some f) :
    f ∈ d.fields ∧ f.name = n :=
  ⟨List.mem_reverse.mp (List.mem_of_find?_eq_some h), by simpa using List.find?_some h⟩

theorem fieldByName_none {d : DomainDef} {n : Text} : fieldByName d n = none ↔ ∀ g ∈ d.fields, g.name ≠ n := by
  rw [fieldByName, List.find?_eq_none]
  simp only [List.mem_reverse, decide_eq_true_eq, ne_eq]

theorem fieldByName_name {d : DomainDef} (hnames : (d.fields.map DomainFieldDef.name).Nodup)
    {f : DomainFieldDef} (hf : f ∈ d.fields) : fieldByName d f.name = some f := by
  cases hfound : fieldByName d f.name with
  | none => exact absurd rfl (fieldByName_none.mp hfound f hf)
  | some g =>
    obtain ⟨hg, hname⟩ := fieldByName_some hfound
    exact congrArg some (List.inj_on_of_nodup_map hnames hg hf hname)

/-- No field is called what the argument of an operator on another field is called. -/
def NoClash (d : DomainDef) : Prop :=
  ∀ f ∈ d.fields, f.filterable = true → ∀ op ∈ operatorsForType f.fieldType, ∀ g ∈ d.fields,
    g.name ≠ f.name ++ op.suffix

/-- An argument stands for the one operator on the one field that it is generated for, and is
decoded to them. -/
structure ArgsDecode (d : DomainDef) : Prop where
  exposed : ∀ f ∈ d.fields, f.filterable = true → ∀ op ∈ operatorsForType f.fieldType,
    ((buildQueryArgs d).lookup (f.name ++ op.suffix)).isSome = true
  decoded : ∀ f ∈ d.fields, f.filterable = true → ∀ op ∈ operatorsForType f.fieldType,
    ∃ o, sqlOpOf op.name = some o ∧ ∀ n, decodeFilterArg n d = some (f, o) ↔
      n = f.name ++ op.suffix ∨ n = f.name ∧ o = .eq
  shortcut : ∀ f ∈ d.fields, f.filterable = true → decodeFilterArg f.name d = some (f, .eq)
  distinct : ∀ n f o g o', Generated d n f o → Generated d n g o' → f = g ∧ o = o'

theorem lookup_assignArg_mono {args : Dict GqlScalar} {n : Text} (h : (args.lookup n).isSome = true)
    (m : Text) (s : GqlScalar) : ((assignArg args m s).lookup n).isSome = true := by
  rw [assignArg]
  split
  · exact h
  · rw [Dict.lookup_put]
    split
    · rfl
    · exact h

theorem lookup_assignArg_self {n : Text} (hn : n ≠ "__proto__".toList) (args : Dict GqlScalar) (s : GqlScalar) :
    ((assignArg args n s).lookup n).isSome = true := by
  rw [assignArg, if_neg hn, Dict.lookup_put, if_pos rfl]
  rfl

theorem lookup_operators_mono {args : Dict GqlScalar} {n : Text} (h : (args.lookup n).isSome = true)
    (f : DomainFieldDef) (s : GqlScalar) (ops : List FilterOp) :
    ((ops.foldl (fun args op => assignArg args (f.name ++ op.suffix) s) args).lookup n).isSome = true := by
  induction ops generalizing args with
  | nil => exact h
  | cons op ops ih => exact ih (lookup_assignArg_mono h _ s)

theorem lookup_operators_self {f : DomainFieldDef} {op : FilterOp} {ops : List FilterOp} (hop : op ∈ ops)
    (hn : f.name ++ op.suffix ≠ "__proto__".toList) (args : Dict GqlScalar) (s : GqlScalar) :
    ((ops.foldl (fun args op => assignArg args (f.name ++ op.suffix) s) args).lookup
      (f.name ++ op.suffix)).isSome = true := by
  induction ops generalizing args with
  | nil => cases hop
  | cons o ops ih =>
    obtain rfl | hop := List.mem_cons.mp hop
    · exact lookup_operators_mono (lookup_assignArg_self hn args s) f s ops
    · exact ih hop _

theorem lookup_fields_mono {args : Dict GqlScalar} {n : Text} (h : (args.lookup n).isSome = true)
    (fs : List DomainFieldDef) : ((fs.foldl appendFieldArgs args).lookup n).isSome = true := by
  induction fs generalizing args with
  | nil => exact h
  | cons f fs ih => exact ih (lookup_operators_mono (lookup_assignArg_mono h _ _) f _ _)

/-- No suffix ends like `__proto__`. -/
theorem ne_proto (name : Text) {e : Text × SqlOp} (he : e ∈ suffixes) : name ++ e.1 ≠ "__proto__".toList := by
  intro h
  have hends : ∀ e ∈ suffixes, ¬ e.1 <:+ "__proto__".toList := by decide
  exact hends e he ⟨name, h⟩

theorem exposed_of_operator {d : DomainDef} {f : DomainFieldDef} (hf : f ∈ d.fields)
    (hfilter : f.filterable = true) {op : FilterOp} (hop : op ∈ operatorsForType f.fieldType) :
    ((buildQueryArgs d).lookup (f.name ++ op.suffix)).isSome = true := by
  obtain ⟨o, -, hsuffix⟩ := operator_suffix f.fieldType op hop
  have hn := ne_proto f.name hsuffix
  have hmem : f ∈ d.fields.filter DomainFieldDef.filterable := List.mem_filter.mpr ⟨hf, hfilter⟩
  rw [buildQueryArgs]
  generalize d.fields.filter DomainFieldDef.filterable = fs at hmem
  generalize [("id".toList, GqlScalar.int)] = args
  induction fs generalizing args with
  | nil => cases hmem
  | cons g fs ih =>
    obtain rfl | hmem := List.mem_cons.mp hmem
    · exact lookup_fields_mono (lookup_operators_self hop hn _ _) fs
    · exact ih hmem _

theorem decoded_name {d : DomainDef} {n : Text} {f : DomainFieldDef} {o : SqlOp}
    (h : decodeFilterArg n d = some (f, o)) :
    (n = f.name ∧ o = .eq) ∨ ∃ s, (s, o) ∈ suffixes ∧ n = f.name ++ s := by
  obtain ⟨hname, rfl⟩ | ⟨name, e, he, rfl, rfl, hname, -⟩ := decodeSuffixed_some h
  · exact .inl ⟨(fieldByName_some hname).2.symm, rfl⟩
  · exact .inr ⟨e.1, he, by rw [(fieldByName_some hname).2]⟩

theorem suffix_of_op {s s' : Text} {o : SqlOp} (h : (s, o) ∈ suffixes) (h' : (s', o) ∈ suffixes) : s = s' := by
  have hall : ∀ e ∈ suffixes, ∀ e' ∈ suffixes, e.2 = e'.2 → e.1 = e'.1 := by decide
  exact hall _ h _ h' rfl

theorem argsDecode_of_noClash {d : DomainDef} (hnames : (d.fields.map DomainFieldDef.name).Nodup)
    (h : NoClash d) : ArgsDecode d := by
  refine ⟨fun f hf hfilter op hop => exposed_of_operator hf hfilter hop, ?_,
    fun f hf _ => decodeSuffixed_bare (fieldByName_name hnames hf) _ _, ?_⟩
  · intro f hf hfilter op hop
    obtain ⟨o, ho, hsuffix⟩ := operator_suffix f.fieldType op hop
    refine ⟨o, ho, fun n => ⟨fun hdec => ?_, ?_⟩⟩
    · obtain hbare | ⟨s, hs, rfl⟩ := decoded_name hdec
      · exact .inr hbare
      · exact .inl (by rw [suffix_of_op hs hsuffix])
    · rintro (rfl | ⟨rfl, rfl⟩)
      · exact decodeSuffixed_append suffixes_apart hsuffix (fieldByName_name hnames hf)
          (fieldByName_none.mpr (h f hf hfilter op hop)) _
      · exact decodeSuffixed_bare (fieldByName_name hnames hf) _ _
  · rintro n f o g o' ⟨hf, hff, hn⟩ ⟨hg, hgf, hn'⟩
    obtain ⟨rfl, rfl⟩ | ⟨op, hop, rfl, ho⟩ := hn
    · obtain ⟨hname, rfl⟩ | ⟨op', hop', hname, -⟩ := hn'
      · exact ⟨List.inj_on_of_nodup_map hnames hf hg hname, rfl⟩
      · exact absurd hname (h g hg hgf op' hop' f hf)
    · obtain ⟨hname, -⟩ | ⟨op', hop', hname, ho'⟩ := hn'
      · exact absurd hname.symm (h f hf hff op hop g hg)
      · obtain ⟨p, hp, hsuffix⟩ := operator_suffix f.fieldType op hop
        obtain ⟨p', hp', hsuffix'⟩ := operator_suffix g.fieldType op' hop'
        obtain ⟨hsame, hfg⟩ := suffixes_apart.append_inj hsuffix hsuffix' hname
        obtain rfl := Option.some.inj (hp.symm.trans ho)
        obtain rfl := Option.some.inj (hp'.symm.trans ho')
        exact ⟨List.inj_on_of_nodup_map hnames hf hg hfg, (Prod.mk.inj hsame).2⟩

theorem noClash_of_argsDecode {d : DomainDef} (hnames : (d.fields.map DomainFieldDef.name).Nodup)
    (h : ArgsDecode d) : NoClash d := by
  rintro f hf hfilter op hop g hg hname
  obtain ⟨o, -, hdec⟩ := h.decoded f hf hfilter op hop
  have hargs := (hdec (f.name ++ op.suffix)).mpr (.inl rfl)
  -- the field of that name is found before any suffix is taken off
  have hdirect : decodeFilterArg (f.name ++ op.suffix) d = some (g, .eq) :=
    hname ▸ decodeSuffixed_bare (fieldByName_name hnames hg) _ _
  obtain rfl : f = g := (Prod.mk.inj (Option.some.inj (hargs.symm.trans hdirect))).1
  obtain ⟨o', -, hsuffix⟩ := operator_suffix f.fieldType op hop
  have hempty : op.suffix = [] := List.append_right_eq_self.mp hname.symm
  have hnonempty : ∀ e ∈ suffixes, e.1 ≠ [] := by decide
  exact hnonempty _ hsuffix hempty

/-- The arguments are decoded to what they are generated for if and only if no field is called
like the argument of another one. -/
theorem argsDecode_iff {d : DomainDef} (hnames : (d.fields.map DomainFieldDef.name).Nodup) :
    ArgsDecode d ↔ NoClash d :=
  ⟨noClash_of_argsDecode hnames, argsDecode_of_noClash hnames⟩

def numberField (name : Text) : DomainFieldDef := ⟨name, .int, false, true, none, []⟩

def orderDomain : DomainDef :=
  { name := "order".toList, source := "orders".toList, dsn := "main".toList,
    fields := [numberField "amount".toList, numberField "count".toList] }

theorem argsDecode_iff_order : (orderDomain.fields.map DomainFieldDef.name).Nodup ∧
    (ArgsDecode orderDomain ↔ NoClash orderDomain) :=
  ⟨by decide, argsDecode_iff (by decide)⟩

def clashDomain : DomainDef :=
  { orderDomain with fields := [numberField "amount".toList, numberField "amount_ne".toList] }

/-- With a field `amount_ne`, the argument for other amounts filters by that field. -/
theorem clashing_argument : (clashDomain.fields.map DomainFieldDef.name).Nodup ∧
    (buildWhereClause (fun v : Nat => v) clashDomain [("amount_ne".toList, .value 3)]).sql =
      " WHERE amount_ne = $1".toList ∧ ¬ ArgsDecode clashDomain := by
  refine ⟨by decide, by decide, fun h => ?_⟩
  have hamount : numberField "amount".toList ∈ clashDomain.fields := List.mem_cons_self
  have hclash := noClash_of_argsDecode (by decide) h _ hamount rfl
  exact hclash ⟨.ne, "not equals".toList, "_ne".toList, "0".toList⟩ (by decide)
    (numberField "amount_ne".toList) (by decide) rfl

end Onisin.Gql.Args
