import Onisin.Gql.Data
import Onisin.Dsl.DomainLexer

/-!
Statements and the values they are run with. The text of a statement is a function of the shape
of the request; its placeholders are numbered in the order of the binds.
-/

set_option autoImplicit false

namespace Onisin.Gql
open Lib Domain

/-! The placeholders of a text, from left to right. -/

section Placeholders

/-- Reading a text with the number of an open placeholder, if there is one. -/
def placeholdersFrom : Option Nat → Text → List Nat
  | st, [] => st.toList
  | none, c :: t => placeholdersFrom (if c = '$' then some 0 else none) t
  | some n, c :: t =>
    if c.isDigit then placeholdersFrom (some (10 * n + (c.toNat - '0'.toNat))) t
    else n :: placeholdersFrom (if c = '$' then some 0 else none) t

def placeholders (t : Text) : List Nat := placeholdersFrom none t

/-- A text that does not continue a number. -/
def Separate (t : Text) : Prop := ∀ c ∈ t.head?, c.isDigit = false

theorem placeholdersFrom_append {t t' : Text} (h : Separate t') (st : Option Nat) :
    placeholdersFrom st (t ++ t') = placeholdersFrom st t ++ placeholders t' := by
  induction t generalizing st with
  | nil =>
    cases st with
    | none => rfl
    | some n =>
      cases t' with
      | nil => rfl
      | cons c t' =>
        have hc : c.isDigit = false := h c rfl
        simp [placeholdersFrom, placeholders, hc]
  | cons c t ih =>
    cases st with
    | none => exact ih _
    | some n =>
      rw [List.cons_append, placeholdersFrom, placeholdersFrom]
      split
      · exact ih _
      · rw [ih, List.cons_append]

theorem placeholders_append {t t' : Text} (h : Separate t') :
    placeholders (t ++ t') = placeholders t ++ placeholders t' := placeholdersFrom_append h none

theorem placeholders_plain {t : Text} (h : '$' ∉ t) : placeholders t = [] := by
  induction t with
  | nil => rfl
  | cons c t ih =>
    rw [List.mem_cons, not_or] at h
    rw [placeholders, placeholdersFrom, if_neg (Ne.symm h.1)]
    exact ih h.2

theorem placeholdersFrom_digits {ds : Text} (h : ∀ c ∈ ds, c.isDigit = true) (n : Nat) :
    placeholdersFrom (some n) ds = [Nat.ofDigitChars 10 ds n] := by
  induction ds generalizing n with
  | nil => rfl
  | cons c ds ih =>
    rw [placeholdersFrom, if_pos (h c List.mem_cons_self), Nat.ofDigitChars_cons]
    exact ih (fun c hc => h c (List.mem_cons_of_mem _ hc)) _

theorem placeholders_placeholder (i : Nat) : placeholders (placeholder i) = [i] := by
  have hdigits : (toString i).toList = Nat.toDigits 10 i := Nat.toList_repr
  have hread : placeholders (placeholder i) = placeholdersFrom (some 0) (Nat.toDigits 10 i) := by
    rw [placeholder, hdigits]
    rfl
  rw [hread, placeholdersFrom_digits fun c hc => Nat.isDigit_of_mem_toDigits (by decide) (by decide) hc,
    Nat.ofDigitChars_ten_toDigits]

theorem Separate.append {t t' : Text} (h : Separate t) (h' : Separate t') : Separate (t ++ t') := by
  cases t with
  | nil => exact h'
  | cons c t => exact h

/-- A text that can stand behind any other, with the placeholders in it. -/
structure Numbered (t : Text) (ns : List Nat) : Prop where
  placeholders : placeholders t = ns
  separate : Separate t

theorem Numbered.append {t t' : Text} {ns ns' : List Nat} (h : Numbered t ns) (h' : Numbered t' ns') :
    Numbered (t ++ t') (ns ++ ns') :=
  ⟨by rw [placeholders_append h'.separate, h.placeholders, h'.placeholders],
    h.separate.append h'.separate⟩

theorem numbered_placeholder (i : Nat) : Numbered (placeholder i) [i] := by
  refine ⟨placeholders_placeholder i, fun c hc => ?_⟩
  cases hc
  decide

/-- Fixed texts. -/
theorem numbered_fixed {t : Text} (h : t.all (fun c => c ≠ '$') = true)
    (hhead : (t.head?.all fun c => !c.isDigit) = true) : Numbered t [] := by
  refine ⟨placeholders_plain fun hmem => ?_, fun c hc => ?_⟩
  · simpa using List.all_eq_true.mp h '$' hmem
  · rw [Option.mem_def.mp hc] at hhead
    simpa using hhead

theorem Numbered.join {α : Type} {sep : Text} (hsep : Numbered sep []) {f : α → Text}
    {g : α → List Nat} {l : List α} (h : ∀ a ∈ l, Numbered (f a) (g a)) :
    Numbered (Text.join sep (l.map f)) (l.flatMap g) := by
  induction l with
  | nil => exact ⟨rfl, nofun⟩
  | cons a as ih =>
    have hmore := ih fun a ha => h a (List.mem_cons_of_mem _ ha)
    have hfirst := h a List.mem_cons_self
    cases as with
    | nil => simpa [Text.join] using hfirst
    | cons a' as => simpa [Text.join] using (hfirst.append hsep).append hmore

theorem Numbered.joinPlain {sep : Text} (hsep : Numbered sep []) {ts : List Text}
    (h : ∀ t ∈ ts, Numbered t []) : Numbered (Text.join sep ts) [] := by
  have hjoin := hsep.join (f := id) h
  rwa [List.map_id, List.flatMap_eq_nil_iff.mpr fun _ _ => rfl] at hjoin

/-- A list of texts with one placeholder each, numbered through. -/
theorem Numbered.joinIdx {α : Type} {sep : Text} (hsep : Numbered sep []) {f : α × Nat → Text}
    {l : List α} {i : Nat} (h : ∀ a ∈ l, ∀ k, Numbered (f (a, k)) [k]) :
    Numbered (Text.join sep ((l.zipIdx i).map f)) (List.range' i l.length) := by
  have hjoin := Numbered.join hsep (f := f) (g := fun e => [e.2]) (l := l.zipIdx i)
    fun e he => h e.1 (List.fst_mem_of_mem_zipIdx he) e.2
  have hnumbers : (l.zipIdx i).flatMap (fun e => [e.2]) = List.range' i l.length := by
    rw [← List.map_eq_flatMap, List.zipIdx_map_snd]
  rwa [hnumbers] at hjoin

end Placeholders

/-! Queries. -/

section Select
variable (d : DomainDef)

/-- A condition without its value. -/
def WhereCond.shape (c : WhereCond) : Text × Text := (c.field, c.op)

def conditionText (f : DomainFieldDef) (op : Text) (i : Nat) : Text :=
  if op = "contains".toList then f.name ++ " ILIKE ".toList ++ placeholder i
  else f.name ++ " ".toList ++ (opSql op).getD [] ++ " ".toList ++ placeholder i ++ "::".toList ++
    pgCast f.fieldType

def conditionBind (c : WhereCond) : Bind := coerceBind c.value (c.op = "contains".toList)

theorem opSql_of_allowed (ty : FieldType) :
    ∀ op ∈ allowedOps ty, op ≠ "contains".toList → (opSql op).isSome = true := by
  cases ty <;> decide

theorem conditionField_ok {name op : Text} {f : DomainFieldDef} :
    conditionField d name op = .ok f ↔
      findField d name = some f ∧ (f.filterable = true ∨ f.name = "id".toList) ∧
        op ∈ allowedOps f.fieldType := by
  rw [conditionField]
  cases hfind : findField d name with
  | none => exact iff_of_false nofun (by rintro ⟨h, -⟩; cases h)
  | some g =>
    have hfilter : ((!(g.filterable || g.name = "id".toList)) = true) ↔
        ¬(g.filterable = true ∨ g.name = "id".toList) := by
      rw [Bool.not_eq_true', ← Bool.not_eq_true, Bool.or_eq_true, decide_eq_true_eq]
    have hallowed : ((!(allowedOps g.fieldType).contains op) = true) ↔ ¬op ∈ allowedOps g.fieldType := by
      rw [Bool.not_eq_true', ← Bool.not_eq_true, List.contains_iff_mem]
    dsimp only
    constructor
    · intro h
      split at h
      · cases h
      split at h
      · cases h
      rename_i hf ha
      cases h
      exact ⟨rfl, not_not.mp (mt hfilter.mpr hf), not_not.mp (mt hallowed.mpr ha)⟩
    · rintro ⟨hg, hf, ha⟩
      cases hg
      rw [if_neg (fun h => hfilter.mp h hf), if_neg (fun h => hallowed.mp h ha)]

theorem pushCondition_eq (s : Conditions) (c : WhereCond) :
    pushCondition d s c = (conditionField d c.field c.op).map fun f =>
      ⟨s.next + 1, s.parts ++ [conditionText f c.op s.next], s.binds ++ [conditionBind c]⟩ := by
  rw [pushCondition]
  cases hfield : conditionField d c.field c.op with
  | error e => rfl
  | ok f =>
    by_cases hop : c.op = "contains".toList
    · simp only [bind, Except.bind, pure, Except.pure, Except.map, conditionText, conditionBind, hop,
        decide_true, if_true]
    · obtain ⟨sql, hsql⟩ :=
        Option.isSome_iff_exists.mp (opSql_of_allowed _ _ (conditionField_ok d |>.mp hfield).2.2 hop)
      simp only [bind, Except.bind, pure, Except.pure, Except.map, conditionText, conditionBind, hop,
        decide_false, hsql, Option.getD_some, if_false]

/-- The texts of conditions on the fields `fs`, numbered from `i` on. -/
def conditionTexts (fs : List DomainFieldDef) (ops : List Text) (i : Nat) : List Text :=
  ((fs.zip ops).zipIdx i).map fun e => conditionText e.1.1 e.1.2 e.2

theorem foldlM_pushCondition (cs : List WhereCond) (s : Conditions) :
    cs.foldlM (pushCondition d) s = ((cs.map WhereCond.shape).mapM fun c => conditionField d c.1 c.2).map fun fs =>
      ⟨s.next + cs.length, s.parts ++ conditionTexts fs (cs.map WhereCond.op) s.next,
        s.binds ++ cs.map conditionBind⟩ := by
  induction cs generalizing s with
  | nil => simp [conditionTexts, Except.map, pure, Except.pure]
  | cons c cs ih =>
    simp only [List.foldlM_cons, List.map_cons, List.mapM_cons, pushCondition_eq]
    cases hfield : conditionField d c.field c.op with
    | error e => simp only [WhereCond.shape, hfield, bind, Except.bind, Except.map]
    | ok f =>
      simp only [WhereCond.shape, hfield, Except.map, bind, Except.bind, ih]
      cases (cs.map WhereCond.shape).mapM fun c => conditionField d c.1 c.2 with
      | error e => rfl
      | ok fs => simp [pure, Except.pure, conditionTexts, Nat.add_comm, Nat.add_left_comm]

def whereText (fs : List DomainFieldDef) (ops : List Text) : Text :=
  if ops.isEmpty then [] else " WHERE ".toList ++ Text.join " AND ".toList (conditionTexts fs ops 1)

theorem whereClause_eq (cs : List WhereCond) :
    whereClause d cs = ((cs.map WhereCond.shape).mapM fun c => conditionField d c.1 c.2).map fun fs =>
      (whereText fs (cs.map WhereCond.op), cs.map conditionBind) := by
  cases cs with
  | nil => rfl
  | cons c cs =>
    rw [whereClause, foldlM_pushCondition]
    cases ((c :: cs).map WhereCond.shape).mapM fun c => conditionField d c.1 c.2 with
    | error e => rfl
    | ok fs => simp [Except.map, bind, Except.bind, pure, Except.pure, whereText]

def selectText (cols : List Text) (fs : List DomainFieldDef) (ops : List Text) (order limit : Text) :
    Text :=
  "SELECT ".toList ++ Text.join ", ".toList (cols.map columnText) ++ " FROM ".toList ++ d.source ++
    whereText fs ops ++ order ++ limit

/-- The text of a query, from its shape alone. -/
def selectSql (fields : Option (List Text)) (shape : List (Text × Text)) (order : List OrderTerm)
    (limit : Option Int) : Except Text Text := do
  let cols ← columnNames d fields
  let fs ← shape.mapM fun c => conditionField d c.1 c.2
  let order ← orderClause d order
  let limit ← limitClause limit
  return selectText d cols fs (shape.map Prod.snd) order limit

theorem buildSelect_eq (r : QueryReq) :
    buildSelect d r =
      (selectSql d r.fields (r.conditions.map WhereCond.shape) r.order r.limit).map fun sql =>
        (sql, r.conditions.map conditionBind) := by
  have hops : (r.conditions.map WhereCond.shape).map Prod.snd = r.conditions.map WhereCond.op := by
    rw [List.map_map]
    rfl
  rw [buildSelect, selectSql, whereClause_eq, hops]
  cases columnNames d r.fields with
  | error e => rfl
  | ok cols =>
    cases (r.conditions.map WhereCond.shape).mapM fun c => conditionField d c.1 c.2 with
    | error e => rfl
    | ok fs =>
      cases orderClause d r.order with
      | error e => rfl
      | ok order =>
        cases limitClause r.limit with
        | error e => rfl
        | ok limit => rfl

end Select

/-! Mutations. -/

section Mutate
variable (d : DomainDef)

/-- The fields that a request sets, in the order they are declared in, with their values. -/
def assigned (set : Dict Json) : List (DomainFieldDef × Json) :=
  d.fields.filterMap fun f =>
    if isFixed f then none else (set.lookup f.name).map fun v => (f, v)

def assignmentText (f : DomainFieldDef) (i : Nat) : Text :=
  placeholder i ++ "::".toList ++ pgCast f.fieldType

theorem foldl_pushAssignment (set : Dict Json) (fields : List DomainFieldDef) (s : Assignments) :
    fields.foldl (pushAssignment set) s =
      let as := fields.filterMap fun f =>
        if isFixed f then none else (set.lookup f.name).map fun v => (f, v)
      ⟨s.next + as.length, s.cols ++ as.map fun a => a.1.name,
        s.placeholders ++ (as.zipIdx s.next).map fun e => assignmentText e.1.1 e.2,
        s.binds ++ as.map fun a => coerceBind a.2 false⟩ := by
  induction fields generalizing s with
  | nil => simp
  | cons f fields ih =>
    rw [List.foldl_cons, ih, pushAssignment]
    cases hfixed : isFixed f with
    | true => simp [hfixed]
    | false =>
      cases hv : set.lookup f.name with
      | none => simp [hfixed, hv]
      | some v =>
        simp [hfixed, hv, assignmentText]
        omega

theorem settableAssignments_eq (set : Dict Json) (start : Nat) :
    settableAssignments d set start =
      ⟨start + (assigned d set).length, (assigned d set).map fun a => a.1.name,
        ((assigned d set).zipIdx start).map fun e => assignmentText e.1.1 e.2,
        (assigned d set).map fun a => coerceBind a.2 false⟩ := by
  rw [settableAssignments, foldl_pushAssignment]
  simp [assigned]

/-- The names of the assigned fields only depend on which keys are set. -/
theorem assigned_fields {set set' : Dict Json}
    (h : ∀ k, (set.lookup k).isSome = (set'.lookup k).isSome) :
    (assigned d set).map Prod.fst = (assigned d set').map Prod.fst := by
  have hfst : ∀ set : Dict Json, (assigned d set).map Prod.fst =
      d.fields.filter fun f => !isFixed f && (set.lookup f.name).isSome := by
    intro set
    rw [assigned, List.map_filterMap, ← List.filterMap_eq_filter]
    refine List.filterMap_congr fun f _ => ?_
    cases hfixed : isFixed f with
    | true => simp [Option.guard, hfixed]
    | false => cases hv : set.lookup f.name <;> simp [Option.guard, hfixed, hv]
  rw [hfst, hfst]
  simp only [h]

def insertText (fs : List DomainFieldDef) : Text :=
  "INSERT INTO ".toList ++ d.source ++ " (".toList ++ Text.join ", ".toList (fs.map DomainFieldDef.name) ++
    ") VALUES (".toList ++
    Text.join ", ".toList ((fs.zipIdx 1).map fun e => assignmentText e.1 e.2) ++
    ") RETURNING ".toList ++ returning d

def updateText (fs : List DomainFieldDef) : Text :=
  "UPDATE ".toList ++ d.source ++ " SET ".toList ++
    Text.join ", ".toList
      ((fs.zipIdx 1).map fun e => e.1.name ++ " = ".toList ++ assignmentText e.1 e.2) ++
    " WHERE id = ".toList ++ placeholder (fs.length + 1) ++ "::".toList ++ idCast d ++
    " RETURNING ".toList ++ returning d

def deleteText : Text :=
  "DELETE FROM ".toList ++ d.source ++ " WHERE id = $1::".toList ++ idCast d ++
    " RETURNING ".toList ++ returning d

/-- The text of a mutation, from the fields it sets and whether it has an id. -/
def mutateSql (op : Text) (fs : List DomainFieldDef) (hasId : Bool) : Except Text Text :=
  if op = "insert".toList then
    if fs.isEmpty then .error "no settable field supplied".toList else .ok (insertText d fs)
  else if op = "update".toList then
    if !hasId then .error "id required for update".toList
    else if fs.isEmpty then .error "no settable field supplied".toList
    else .ok (updateText d fs)
  else if op = "delete".toList then
    if !hasId then .error "id required for delete".toList else .ok (deleteText d)
  else .error ("unknown op '".toList ++ op ++ "'".toList)

/-- The binds of a mutation: the assigned values, and the id last where there is one. -/
def mutateBinds (op : Text) (set : Dict Json) (id : Option Json) : List Bind :=
  (if op = "delete".toList then [] else (assigned d set).map fun a => coerceBind a.2 false) ++
    (if op = "insert".toList then [] else id.toList.map fun v => coerceBind v false)

theorem zip_zipIdx {α β γ : Type} (f : α → β) (g : α × Nat → γ) (as : List α) (n : Nat) :
    (as.map f).zip ((as.zipIdx n).map g) = (as.zipIdx n).map fun e => (f e.1, g e) := by
  induction as generalizing n with
  | nil => rfl
  | cons a as ih => simp only [List.map_cons, List.zipIdx_cons, List.zip_cons_cons, ih]

theorem buildMutate_eq (op : Text) (set : Dict Json) (id : Option Json) :
    buildMutate d op set id =
      (mutateSql d op ((assigned d set).map Prod.fst) id.isSome).map fun sql =>
        (sql, mutateBinds d op set id) := by
  have hcols : (assigned d set).map (fun a => a.1.name) =
      ((assigned d set).map Prod.fst).map DomainFieldDef.name := by
    rw [List.map_map]
    rfl
  have hplaceholders : (((assigned d set).zipIdx 1).map fun e => assignmentText e.1.1 e.2) =
      (((assigned d set).map Prod.fst).zipIdx 1).map fun e => assignmentText e.1 e.2 := by
    rw [List.zipIdx_map, List.map_map]
    rfl
  have hsize : ((assigned d set).map fun a => coerceBind a.2 false).length =
      ((assigned d set).map Prod.fst).length := by
    rw [List.length_map, List.length_map]
  have hclause : ∀ fs : List DomainFieldDef,
      ((fs.map DomainFieldDef.name).zip ((fs.zipIdx 1).map fun e => assignmentText e.1 e.2)).map
        (fun cp => cp.1 ++ " = ".toList ++ cp.2) =
      (fs.zipIdx 1).map fun e => e.1.name ++ " = ".toList ++ assignmentText e.1 e.2 := by
    intro fs
    rw [zip_zipIdx, List.map_map]
    rfl
  unfold buildMutate mutateSql mutateBinds
  simp only [settableAssignments_eq, hcols, hplaceholders, hsize, hclause]
  generalize (assigned d set).map Prod.fst = fs
  simp only [List.isEmpty_map]
  by_cases hinsert : op = "insert".toList
  · have hdelete : op ≠ "delete".toList := by rw [hinsert]; decide
    simp only [if_pos hinsert, if_neg hdelete, List.append_nil]
    split <;> rfl
  simp only [if_neg hinsert]
  by_cases hupdate : op = "update".toList
  · have hdelete : op ≠ "delete".toList := by rw [hupdate]; decide
    simp only [if_pos hupdate, if_neg hdelete]
    cases id with
    | none => rfl
    | some id =>
      simp only [Option.isSome_some, Bool.not_true, Bool.false_eq_true, if_false]
      split <;> rfl
  simp only [if_neg hupdate]
  by_cases hdelete : op = "delete".toList
  · simp only [if_pos hdelete]
    cases id with
    | none => rfl
    | some id => rfl
  · simp only [if_neg hdelete]
    rfl

end Mutate

/-! What is accepted only names declared fields. -/

section Declared
variable {d : DomainDef}

def Declared (d : DomainDef) (name : Text) : Prop := ∃ f ∈ d.fields, f.name = name

theorem findField_some {name : Text} {f : DomainFieldDef} (h : findField d name = some f) :
    f ∈ d.fields ∧ f.name = name :=
  ⟨List.mem_of_find?_eq_some h, by simpa using List.find?_some h⟩

theorem declared_of_isSome {name : Text} (h : (findField d name).isNone = false) : Declared d name := by
  obtain ⟨f, hf⟩ := Option.isSome_iff_exists.mp (Option.isNone_eq_false_iff.mp h)
  exact ⟨f, findField_some hf⟩

theorem columnNames_declared {fields : Option (List Text)} {cols : List Text}
    (h : columnNames d fields = .ok cols) : ∀ c ∈ cols, Declared d c := by
  unfold columnNames at h
  split at h
  · split at h
    · cases h
    · rename_i hnone
      cases h
      intro c hc
      exact declared_of_isSome (Bool.eq_false_iff.mpr (List.find?_eq_none.mp hnone c hc))
  · cases h
    intro c hc
    obtain ⟨f, hf, rfl⟩ := List.mem_map.mp hc
    exact ⟨f, hf, rfl⟩

theorem mapM_ok {α β : Type} {f : α → Except Text β} {as : List α} {bs : List β}
    (h : as.mapM f = .ok bs) : List.Forall₂ (fun a b => f a = .ok b) as bs := by
  induction as generalizing bs with
  | nil =>
    cases h
    exact .nil
  | cons a as ih =>
    rw [List.mapM_cons] at h
    cases ha : f a with
    | error e =>
      rw [ha] at h
      cases h
    | ok b =>
      cases has : as.mapM f with
      | error e =>
        simp only [ha, has, bind, Except.bind] at h
        cases h
      | ok bs' =>
        simp only [ha, has, bind, Except.bind] at h
        cases h
        exact .cons ha (ih has)

theorem mapM_mem {α β : Type} {f : α → Except Text β} {as : List α} {bs : List β}
    (h : as.mapM f = .ok bs) : ∀ a ∈ as, ∃ b, f a = .ok b := by
  intro a ha
  obtain ⟨i, hi, rfl⟩ := List.getElem_of_mem ha
  have hbs := (mapM_ok h).length_eq
  exact ⟨bs[i], List.forall₂_iff_get.mp (mapM_ok h) |>.2 i hi (hbs ▸ hi)⟩

theorem mapM_mem_right {α β : Type} {f : α → Except Text β} {as : List α} {bs : List β}
    (h : as.mapM f = .ok bs) : ∀ b ∈ bs, ∃ a ∈ as, f a = .ok b := by
  intro b hb
  obtain ⟨i, hi, rfl⟩ := List.getElem_of_mem hb
  have has : i < as.length := (mapM_ok h).length_eq ▸ hi
  exact ⟨as[i], List.getElem_mem has, List.forall₂_iff_get.mp (mapM_ok h) |>.2 i has hi⟩

theorem orderTerm_ok {o : OrderTerm} {t : Text} (h : orderTerm d o = .ok t) :
    Declared d o.field ∧ ∃ dir ∈ ["ASC".toList, "DESC".toList], t = o.field ++ " ".toList ++ dir := by
  unfold orderTerm at h
  split at h
  · cases h
  rename_i hfield
  refine ⟨declared_of_isSome (Bool.eq_false_iff.mpr hfield), ?_⟩
  unfold orderDir at h
  split at h
  · cases h
    exact ⟨_, by decide, rfl⟩
  split at h
  · cases h
    exact ⟨_, by decide, rfl⟩
  split at h
  · cases h
    exact ⟨_, by decide, rfl⟩
  · cases h

theorem orderClause_declared {order : List OrderTerm} {t : Text} (h : orderClause d order = .ok t) :
    ∀ o ∈ order, Declared d o.field := by
  unfold orderClause at h
  split at h
  · rename_i hempty
    rw [List.isEmpty_iff.mp hempty]
    exact nofun
  · cases hterms : order.mapM (orderTerm d) with
    | error e =>
      rw [hterms] at h
      cases h
    | ok terms =>
      intro o ho
      obtain ⟨t, hterm⟩ := mapM_mem hterms o ho
      exact (orderTerm_ok hterm).1

theorem assigned_declared {set : Dict Json} : ∀ f ∈ (assigned d set).map Prod.fst, f ∈ d.fields := by
  intro f hf
  obtain ⟨a, ha, rfl⟩ := List.mem_map.mp hf
  obtain ⟨g, hg, hga⟩ := List.mem_filterMap.mp ha
  split at hga
  · cases hga
  · obtain ⟨v, -, rfl⟩ := Option.map_eq_some_iff.mp hga
    exact hg

end Declared

/-! The placeholders of a statement over a parsed domain. -/

section Numbering

theorem numbered_ident {s : Text} (h : IdentText s) : Numbered s [] := by
  obtain ⟨hall, c, hc, hstart⟩ := h
  refine ⟨placeholders_plain fun hmem => ?_, fun c' hc' => ?_⟩
  · exact absurd (List.all_eq_true.mp hall '$' hmem) (by decide)
  · obtain rfl := Option.mem_unique hc hc'
    exact isDigit_of_identStart hstart

theorem numbered_opSql (op : Text) : Numbered ((opSql op).getD []) [] := by
  unfold opSql
  refine numbered_fixed ?_ ?_ <;> split_ifs <;> decide

theorem numbered_pgCast (ty : FieldType) : Numbered (pgCast ty) [] := by
  refine numbered_fixed ?_ ?_ <;> cases ty <;> decide

theorem numbered_idCast (d : DomainDef) : Numbered (idCast d) [] := by
  unfold idCast
  cases findField d "id".toList with
  | none => exact numbered_fixed (by decide) (by decide)
  | some f => exact numbered_pgCast f.fieldType

variable {d : DomainDef}

/-- The names of a domain hold no placeholder. -/
structure PlainNames (d : DomainDef) : Prop where
  source : Numbered d.source []
  fields : ∀ f ∈ d.fields, Numbered f.name []

theorem plainNames_of_parseDomain {source : Text} (h : parseDomain source = .ok d) : PlainNames d := by
  obtain ⟨hsource, hfields⟩ := parseDomain_names h
  exact ⟨numbered_ident hsource, fun f hf => numbered_ident (hfields f hf)⟩

theorem PlainNames.declared (hd : PlainNames d) {name : Text} (h : Declared d name) :
    Numbered name [] := by
  obtain ⟨f, hf, rfl⟩ := h
  exact hd.fields f hf

theorem numbered_columnText {name : Text} (h : Numbered name []) : Numbered (columnText name) [] := by
  have hopen : Numbered "(".toList [] := numbered_fixed (by decide) (by decide)
  have has : Numbered ")::text AS ".toList [] := numbered_fixed (by decide) (by decide)
  exact ((hopen.append h).append has).append h

theorem numbered_conditionText {f : DomainFieldDef} (hf : Numbered f.name []) (op : Text) (i : Nat) :
    Numbered (conditionText f op i) [i] := by
  unfold conditionText
  split
  · have hlike : Numbered " ILIKE ".toList [] := numbered_fixed (by decide) (by decide)
    exact (hf.append hlike).append (numbered_placeholder i)
  · have hspace : Numbered " ".toList [] := numbered_fixed (by decide) (by decide)
    have hcast : Numbered "::".toList [] := numbered_fixed (by decide) (by decide)
    exact (((((hf.append hspace).append (numbered_opSql op)).append hspace).append
      (numbered_placeholder i)).append hcast).append (numbered_pgCast f.fieldType)

theorem numbered_whereText {fs : List DomainFieldDef} {ops : List Text} (hlen : fs.length = ops.length)
    (hfs : ∀ f ∈ fs, Numbered f.name []) :
    Numbered (whereText fs ops) (List.range' 1 ops.length) := by
  unfold whereText
  split
  · rename_i hempty
    rw [List.isEmpty_iff.mp hempty]
    exact ⟨rfl, nofun⟩
  · have hwhere : Numbered " WHERE ".toList [] := numbered_fixed (by decide) (by decide)
    have hand : Numbered " AND ".toList [] := numbered_fixed (by decide) (by decide)
    have htexts := hand.joinIdx (f := fun e => conditionText e.1.1 e.1.2 e.2) (l := fs.zip ops) (i := 1)
      fun a ha k => numbered_conditionText (hfs a.1 (List.of_mem_zip ha).1) a.2 k
    have hzip : (fs.zip ops).length = ops.length := by rw [List.length_zip, hlen, Nat.min_self]
    rw [hzip] at htexts
    exact hwhere.append htexts

theorem numbered_orderClause (hd : PlainNames d) {order : List OrderTerm} {t : Text}
    (h : orderClause d order = .ok t) : Numbered t [] := by
  unfold orderClause at h
  split at h
  · cases h
    exact ⟨rfl, nofun⟩
  cases hterms : order.mapM (orderTerm d) with
  | error e =>
    rw [hterms] at h
    cases h
  | ok terms =>
    rw [hterms] at h
    cases h
    have hby : Numbered " ORDER BY ".toList [] := numbered_fixed (by decide) (by decide)
    have hcomma : Numbered ", ".toList [] := numbered_fixed (by decide) (by decide)
    have hspace : Numbered " ".toList [] := numbered_fixed (by decide) (by decide)
    have hdir : ∀ dir ∈ ["ASC".toList, "DESC".toList], Numbered dir [] :=
      fun dir hdir => numbered_fixed (by revert dir; decide) (by revert dir; decide)
    refine hby.append (hcomma.joinPlain fun t ht => ?_)
    obtain ⟨o, -, hterm⟩ := mapM_mem_right hterms t ht
    obtain ⟨hfield, dir, hmem, rfl⟩ := orderTerm_ok hterm
    exact ((hd.declared hfield).append hspace).append (hdir dir hmem)

theorem numbered_limitClause {limit : Option Int} {t : Text} (h : limitClause limit = .ok t) :
    Numbered t [] := by
  unfold limitClause at h
  split at h
  · cases h
    exact ⟨rfl, nofun⟩
  rename_i n
  split at h
  · cases h
  rename_i hn
  cases h
  have hlimit : Numbered " LIMIT ".toList [] := numbered_fixed (by decide) (by decide)
  obtain ⟨k, rfl⟩ := Int.eq_ofNat_of_zero_le (not_lt.mp hn)
  have hdigits : (toString (k : Int)).toList = Nat.toDigits 10 k := Nat.toList_repr
  have hplain : '$' ∉ " LIMIT ".toList ++ Nat.toDigits 10 k := by
    intro hmem
    obtain hmem | hmem := List.mem_append.mp hmem
    · exact absurd hmem (by decide)
    · exact absurd (Nat.isDigit_of_mem_toDigits (by decide) (by decide) hmem) (by decide)
  rw [hdigits]
  exact ⟨placeholders_plain hplain, fun c hc => by cases hc; decide⟩

theorem numbered_selectText (hd : PlainNames d) {cols : List Text} {fs : List DomainFieldDef}
    {ops : List Text} {order limit : Text} (hcols : ∀ c ∈ cols, Declared d c)
    (hlen : fs.length = ops.length) (hfs : ∀ f ∈ fs, f ∈ d.fields) (horder : Numbered order [])
    (hlimit : Numbered limit []) :
    Numbered (selectText d cols fs ops order limit) (List.range' 1 ops.length) := by
  have hselect : Numbered "SELECT ".toList [] := numbered_fixed (by decide) (by decide)
  have hcomma : Numbered ", ".toList [] := numbered_fixed (by decide) (by decide)
  have hfrom : Numbered " FROM ".toList [] := numbered_fixed (by decide) (by decide)
  have hlist : Numbered (Text.join ", ".toList (cols.map columnText)) [] := by
    refine hcomma.joinPlain fun t ht => ?_
    obtain ⟨c, hc, rfl⟩ := List.mem_map.mp ht
    exact numbered_columnText (hd.declared (hcols c hc))
  have hwhere := numbered_whereText hlen fun f hf => hd.fields f (hfs f hf)
  have hhead := ((hselect.append hlist).append hfrom).append hd.source
  have hall := ((hhead.append hwhere).append horder).append hlimit
  simp only [List.nil_append, List.append_nil] at hall
  exact hall

theorem numbered_returning (hd : PlainNames d) : Numbered (returning d) [] := by
  have hcomma : Numbered ", ".toList [] := numbered_fixed (by decide) (by decide)
  refine hcomma.joinPlain fun t ht => ?_
  obtain ⟨f, hf, rfl⟩ := List.mem_map.mp ht
  exact numbered_columnText (hd.fields f hf)

theorem numbered_assignmentText (f : DomainFieldDef) (i : Nat) : Numbered (assignmentText f i) [i] := by
  have hcast : Numbered "::".toList [] := numbered_fixed (by decide) (by decide)
  exact ((numbered_placeholder i).append hcast).append (numbered_pgCast f.fieldType)

theorem numbered_insertText (hd : PlainNames d) {fs : List DomainFieldDef} (hfs : ∀ f ∈ fs, f ∈ d.fields) :
    Numbered (insertText d fs) (List.range' 1 fs.length) := by
  have hinto : Numbered "INSERT INTO ".toList [] := numbered_fixed (by decide) (by decide)
  have hopen : Numbered " (".toList [] := numbered_fixed (by decide) (by decide)
  have hcomma : Numbered ", ".toList [] := numbered_fixed (by decide) (by decide)
  have hvalues : Numbered ") VALUES (".toList [] := numbered_fixed (by decide) (by decide)
  have hreturning : Numbered ") RETURNING ".toList [] := numbered_fixed (by decide) (by decide)
  have hcols : Numbered (Text.join ", ".toList (fs.map DomainFieldDef.name)) [] := by
    refine hcomma.joinPlain fun t ht => ?_
    obtain ⟨f, hf, rfl⟩ := List.mem_map.mp ht
    exact hd.fields f (hfs f hf)
  have hparams := hcomma.joinIdx (f := fun e => assignmentText e.1 e.2) (l := fs) (i := 1)
    fun f _ k => numbered_assignmentText f k
  have hhead := (((hinto.append hd.source).append hopen).append hcols).append hvalues
  have hall := ((hhead.append hparams).append hreturning).append (numbered_returning hd)
  simp only [List.nil_append, List.append_nil] at hall
  exact hall

theorem numbered_updateText (hd : PlainNames d) {fs : List DomainFieldDef} (hfs : ∀ f ∈ fs, f ∈ d.fields) :
    Numbered (updateText d fs) (List.range' 1 (fs.length + 1)) := by
  have hupdate : Numbered "UPDATE ".toList [] := numbered_fixed (by decide) (by decide)
  have hset : Numbered " SET ".toList [] := numbered_fixed (by decide) (by decide)
  have hcomma : Numbered ", ".toList [] := numbered_fixed (by decide) (by decide)
  have heq : Numbered " = ".toList [] := numbered_fixed (by decide) (by decide)
  have hwhere : Numbered " WHERE id = ".toList [] := numbered_fixed (by decide) (by decide)
  have hcast : Numbered "::".toList [] := numbered_fixed (by decide) (by decide)
  have hreturning : Numbered " RETURNING ".toList [] := numbered_fixed (by decide) (by decide)
  have hparams := hcomma.joinIdx (f := fun e => e.1.name ++ " = ".toList ++ assignmentText e.1 e.2)
    (l := fs) (i := 1)
    fun f hf k => ((hd.fields f (hfs f hf)).append heq).append (numbered_assignmentText f k)
  have hhead := ((hupdate.append hd.source).append hset).append hparams
  have hid := (hhead.append hwhere).append (numbered_placeholder (fs.length + 1))
  have hall := (((hid.append hcast).append (numbered_idCast d)).append hreturning).append
    (numbered_returning hd)
  simp only [List.nil_append, List.append_nil] at hall
  rw [List.range'_1_concat, Nat.add_comm 1]
  exact hall

theorem numbered_deleteText (hd : PlainNames d) : Numbered (deleteText d) [1] := by
  have hdelete : Numbered "DELETE FROM ".toList [] := numbered_fixed (by decide) (by decide)
  have hwhere : Numbered " WHERE id = $1::".toList [1] := ⟨by decide, fun c hc => by cases hc; decide⟩
  have hreturning : Numbered " RETURNING ".toList [] := numbered_fixed (by decide) (by decide)
  have hall := (((((hdelete.append hd.source).append hwhere).append (numbered_idCast d)).append
    hreturning).append (numbered_returning hd))
  simp only [List.nil_append, List.append_nil] at hall
  exact hall

end Numbering

/-! The two requests, and what is accepted. -/

/-- Two queries that differ in the values of their conditions only. -/
structure QueryReq.SameShape (r r' : QueryReq) : Prop where
  fields : r.fields = r'.fields
  conditions : r.conditions.map WhereCond.shape = r'.conditions.map WhereCond.shape
  order : r.order = r'.order
  limit : r.limit = r'.limit

/-- What an accepted query is: the columns and the fields of its conditions are declared, the
`i`-th condition has the `i`-th placeholder and its value is the `i`-th bind. -/
structure SelectAccepted (d : DomainDef) (r : QueryReq) (sql : Text) (binds : List Bind) : Prop where
  text : ∃ cols fs order limit, (∀ c ∈ cols, Declared d c) ∧ (∀ f ∈ fs, f ∈ d.fields) ∧
    fs.map DomainFieldDef.name = r.conditions.map WhereCond.field ∧
    (∀ o ∈ r.order, Declared d o.field) ∧ orderClause d r.order = .ok order ∧
    limitClause r.limit = .ok limit ∧
    sql = selectText d cols fs (r.conditions.map WhereCond.op) order limit
  bound : binds = r.conditions.map conditionBind
  numbered : placeholders sql = List.range' 1 binds.length

/-- What an accepted mutation is: it sets declared fields, the `i`-th of them by the `i`-th
bind, and the id is the last bind. -/
structure MutateAccepted (d : DomainDef) (op : Text) (set : Dict Json) (id : Option Json) (sql : Text)
    (binds : List Bind) : Prop where
  declared : ∀ a ∈ assigned d set, a.1 ∈ d.fields ∧ set.lookup a.1.name = some a.2
  form :
    (op = "insert".toList ∧ sql = insertText d ((assigned d set).map Prod.fst) ∧
      binds = (assigned d set).map fun a => coerceBind a.2 false) ∨
    (op = "update".toList ∧ sql = updateText d ((assigned d set).map Prod.fst) ∧
      ∃ v, id = some v ∧
        binds = ((assigned d set).map fun a => coerceBind a.2 false) ++ [coerceBind v false]) ∨
    (op = "delete".toList ∧ sql = deleteText d ∧ ∃ v, id = some v ∧ binds = [coerceBind v false])
  numbered : placeholders sql = List.range' 1 binds.length

section Accepted
variable {d : DomainDef}

theorem selectSql_ok {fields : Option (List Text)} {shape : List (Text × Text)} {order : List OrderTerm}
    {limit : Option Int} {sql : Text} (h : selectSql d fields shape order limit = .ok sql) :
    ∃ cols fs o l, columnNames d fields = .ok cols ∧
      (shape.mapM fun c => conditionField d c.1 c.2) = .ok fs ∧ orderClause d order = .ok o ∧
      limitClause limit = .ok l ∧ sql = selectText d cols fs (shape.map Prod.snd) o l := by
  unfold selectSql at h
  cases hcols : columnNames d fields with
  | error e => rw [hcols] at h; cases h
  | ok cols =>
    cases hfs : shape.mapM fun c => conditionField d c.1 c.2 with
    | error e => rw [hcols, hfs] at h; cases h
    | ok fs =>
      cases horder : orderClause d order with
      | error e => rw [hcols, hfs, horder] at h; cases h
      | ok o =>
        cases hlimit : limitClause limit with
        | error e => rw [hcols, hfs, horder, hlimit] at h; cases h
        | ok l =>
          rw [hcols, hfs, horder, hlimit] at h
          exact ⟨cols, fs, o, l, rfl, rfl, rfl, rfl, (Except.ok.inj h).symm⟩

/-- The fields behind the conditions of an accepted query. -/
theorem conditionFields {shape : List (Text × Text)} {fs : List DomainFieldDef}
    (h : (shape.mapM fun c => conditionField d c.1 c.2) = .ok fs) :
    fs.length = shape.length ∧ (∀ f ∈ fs, f ∈ d.fields) ∧ fs.map DomainFieldDef.name = shape.map Prod.fst := by
  have hforall := mapM_ok h
  clear h
  induction hforall with
  | nil => exact ⟨rfl, nofun, rfl⟩
  | @cons c f shape fs hc _ ih =>
    obtain ⟨hlen, hmem, hnames⟩ := ih
    obtain ⟨hf, hname⟩ := findField_some (conditionField_ok d |>.mp hc).1
    refine ⟨congrArg (· + 1) hlen, ?_, ?_⟩
    · intro g hg
      obtain rfl | hg := List.mem_cons.mp hg
      · exact hf
      · exact hmem g hg
    · rw [List.map_cons, List.map_cons, hnames, hname]

theorem buildSelect_accepted (hd : PlainNames d) {r : QueryReq} {sql : Text} {binds : List Bind}
    (h : buildSelect d r = .ok (sql, binds)) : SelectAccepted d r sql binds := by
  rw [buildSelect_eq] at h
  obtain ⟨sql', hsql, hpair⟩ : ∃ s, selectSql d r.fields (r.conditions.map WhereCond.shape) r.order
      r.limit = .ok s ∧ (s, r.conditions.map conditionBind) = (sql, binds) := by
    cases hselect : selectSql d r.fields (r.conditions.map WhereCond.shape) r.order r.limit with
    | error e =>
      rw [hselect] at h
      cases h
    | ok s =>
      rw [hselect] at h
      exact ⟨s, rfl, Except.ok.inj h⟩
  obtain ⟨rfl, rfl⟩ := Prod.mk.inj hpair
  obtain ⟨cols, fs, order, limit, hcols, hfs, horder, hlimit, rfl⟩ := selectSql_ok hsql
  have hdeclared := columnNames_declared hcols
  obtain ⟨hlen, hmem, hnames⟩ := conditionFields hfs
  have hops : (r.conditions.map WhereCond.shape).map Prod.snd = r.conditions.map WhereCond.op := by
    rw [List.map_map]
    rfl
  have hfields : (r.conditions.map WhereCond.shape).map Prod.fst = r.conditions.map WhereCond.field := by
    rw [List.map_map]
    rfl
  rw [hfields] at hnames
  rw [List.length_map] at hlen
  rw [hops]
  refine ⟨⟨cols, fs, order, limit, hdeclared, hmem, hnames, orderClause_declared horder, horder, hlimit,
    rfl⟩, rfl, ?_⟩
  have hnumbered : Numbered (selectText d cols fs (r.conditions.map WhereCond.op) order limit) _ :=
    numbered_selectText hd hdeclared (by rw [List.length_map, hlen]) hmem
      (numbered_orderClause hd horder) (numbered_limitClause hlimit)
  rw [hnumbered.placeholders, List.length_map, List.length_map]

theorem buildMutate_accepted (hd : PlainNames d) {op : Text} {set : Dict Json} {id : Option Json}
    {sql : Text} {binds : List Bind} (h : buildMutate d op set id = .ok (sql, binds)) :
    MutateAccepted d op set id sql binds := by
  have hdeclared : ∀ a ∈ assigned d set, a.1 ∈ d.fields ∧ set.lookup a.1.name = some a.2 := by
    intro a ha
    obtain ⟨g, hg, hga⟩ := List.mem_filterMap.mp ha
    split at hga
    · cases hga
    · obtain ⟨v, hv, rfl⟩ := Option.map_eq_some_iff.mp hga
      exact ⟨hg, hv⟩
  have hfs : ∀ f ∈ (assigned d set).map Prod.fst, f ∈ d.fields := assigned_declared
  have hlen : ((assigned d set).map Prod.fst).length = (assigned d set).length := List.length_map _
  rw [buildMutate_eq] at h
  unfold mutateSql mutateBinds at h
  by_cases hinsert : op = "insert".toList
  · have hdelete : op ≠ "delete".toList := by rw [hinsert]; decide
    rw [if_pos hinsert, if_neg hdelete, if_pos hinsert] at h
    split at h
    · cases h
    obtain ⟨rfl, rfl⟩ := Prod.mk.inj (Except.ok.inj h)
    refine ⟨hdeclared, .inl ⟨hinsert, rfl, List.append_nil _⟩, ?_⟩
    rw [(numbered_insertText hd hfs).placeholders, List.append_nil, List.length_map, List.length_map]
  by_cases hupdate : op = "update".toList
  · have hdelete : op ≠ "delete".toList := by rw [hupdate]; decide
    rw [if_neg hinsert, if_pos hupdate, if_neg hdelete, if_neg hinsert] at h
    cases id with
    | none => cases h
    | some v =>
      rw [if_neg (by simp)] at h
      split at h
      · cases h
      obtain ⟨rfl, rfl⟩ := Prod.mk.inj (Except.ok.inj h)
      refine ⟨hdeclared, .inr (.inl ⟨hupdate, rfl, v, rfl, rfl⟩), ?_⟩
      rw [(numbered_updateText hd hfs).placeholders, List.length_append, List.length_map,
        List.length_map]
      rfl
  by_cases hdelete : op = "delete".toList
  · rw [if_neg hinsert, if_neg hupdate, if_pos hdelete, if_pos hdelete, if_neg hinsert] at h
    cases id with
    | none => cases h
    | some v =>
      rw [if_neg (by simp)] at h
      obtain ⟨rfl, rfl⟩ := Prod.mk.inj (Except.ok.inj h)
      refine ⟨hdeclared, .inr (.inr ⟨hdelete, rfl, v, rfl, rfl⟩), ?_⟩
      exact (numbered_deleteText hd).placeholders
  · simp only [if_neg hinsert, if_neg hupdate, if_neg hdelete] at h
    cases h

end Accepted

/-- The text of a statement never depends on the values of the caller, and an accepted one takes
them in the order of its placeholders. -/
theorem sql_independent_of_values {source : Text} {d : DomainDef} (hd : parseDomain source = .ok d) :
    (∀ r r' : QueryReq, r.SameShape r' →
      (buildSelect d r).map Prod.fst = (buildSelect d r').map Prod.fst) ∧
    (∀ (op : Text) (set set' : Dict Json) (id id' : Option Json),
      (∀ k, (set.lookup k).isSome = (set'.lookup k).isSome) → id.isSome = id'.isSome →
        (buildMutate d op set id).map Prod.fst = (buildMutate d op set' id').map Prod.fst) ∧
    (∀ (r : QueryReq) (sql : Text) (binds : List Bind), buildSelect d r = .ok (sql, binds) →
      SelectAccepted d r sql binds) ∧
    ∀ (op : Text) (set : Dict Json) (id : Option Json) (sql : Text) (binds : List Bind),
      buildMutate d op set id = .ok (sql, binds) → MutateAccepted d op set id sql binds := by
  have hmap : ∀ {α : Type} (e : Except Text Text) (b : α), (e.map fun sql => (sql, b)).map Prod.fst = e := by
    intro α e b
    cases e <;> rfl
  have hplain := plainNames_of_parseDomain hd
  refine ⟨?_, ?_, fun _ _ _ => buildSelect_accepted hplain, fun _ _ _ _ _ => buildMutate_accepted hplain⟩
  · intro r r' hshape
    rw [buildSelect_eq, buildSelect_eq, hmap, hmap, hshape.fields, hshape.conditions, hshape.order,
      hshape.limit]
  · intro op set set' id id' hset hid
    rw [buildMutate_eq, buildMutate_eq, hmap, hmap, assigned_fields d hset, hid]

def personSource : Text := "domain p from person@demo \x7bfield name:string filterable\x7d".toList

def personDomain : DomainDef :=
  { name := "p".toList, source := "person".toList, dsn := "demo".toList
    fields := [⟨"name".toList, .string, false, true, none, []⟩] }

/-- A value that looks like SQL is bound like any other. -/
theorem quoted_value_bound :
    (buildSelect personDomain ⟨none, [⟨"name".toList, "eq".toList, .string "' OR $1".toList⟩], [], none, false⟩).map
        Prod.fst =
      (buildSelect personDomain ⟨none, [⟨"name".toList, "eq".toList, .null⟩], [], none, false⟩).map Prod.fst := by
  have hlex : lex personSource = .ok
      ([.ident "domain".toList, .ident "p".toList, .ident "from".toList, .ident "person".toList, .atSign,
        .ident "demo".toList, .lBrace, .ident "field".toList, .ident "name".toList, .colon,
        .ident "string".toList, .ident "filterable".toList, .rBrace].zip
        [1, 8, 10, 15, 21, 22, 27, 28, 34, 38, 39, 46, 56] |>.map fun e => ⟨e.1, 1, e.2⟩) := by
    decide
  have hparse : parseDomain personSource = .ok personDomain :=
    parseDomain_ok.mpr ⟨_, hlex, by decide⟩
  exact (sql_independent_of_values hparse).1 _ _ ⟨rfl, rfl, rfl, rfl⟩

end Onisin.Gql
