import Onisin.Gql.CreateTable
import Onisin.Gql.Permissions
import Onisin.Lib.Runs

/-!
The data service over a database. To its callers the rows of a domain are records with ids. The
statements the service sends keep the tables in step with the records, whatever requests come
and in whatever order.
-/

set_option autoImplicit false

namespace Onisin.Gql
open Lib Domain
open Lib.Sql (Token TypeName Engine Table Database Record Condition put overlay bound serial tokens OrderBy)

/-! Parameters. -/

section Parameters

theorem bound_at (pre more : List (Option Text)) (b : Option Text) :
    bound (pre ++ b :: more) (pre.length + 1) = some b := by
  simp [bound]

/-- Texts with one placeholder each, numbered through, take the parameters in their order. -/
theorem mapM_bound {α β : Type} (g : α → Option Text) (h : α → Option (Option Text) → Option β)
    (pre more : List (Option Text)) (l : List α) :
    ((l.zipIdx (pre.length + 1)).mapM fun x => h x.1 (bound (pre ++ (l.map g ++ more)) x.2)) =
      l.mapM fun a => h a (some (g a)) := by
  induction l generalizing pre with
  | nil => rfl
  | cons a l ih =>
    have hfirst : bound (pre ++ ((a :: l).map g ++ more)) (pre.length + 1) = some (g a) := bound_at pre _ _
    have hrest := ih (pre ++ [g a])
    rw [List.length_append, List.length_singleton, List.append_assoc, List.singleton_append] at hrest
    rw [List.zipIdx_cons, List.mapM_cons, List.mapM_cons, hfirst]
    simp only [List.map_cons, List.cons_append] at hrest ⊢
    rw [hrest]

end Parameters

/-! The values of a request. -/

section Values
variable {V : Type} (e : Engine V)

/-- A value of a request, as one of the type of a field. -/
def fieldValue (ty : FieldType) (v : Json) : Option (Option V) := e.castTo (castType ty) (coerceBind v false)

/-- The columns that a request sets, with what is stored in them. -/
def recordValues (types : Text → Option TypeName) (as : List (DomainFieldDef × Json)) :
    Option (List (Text × Option V)) :=
  as.mapM fun a => do e.store types a.1.name (castType a.1.fieldType) (← fieldValue e a.1.fieldType a.2)

/-- Which rows the id of a request means. -/
def hasId (types : Text → Option TypeName) (d : DomainDef) (v : Json) : Option (Record V → Bool) := do
  let cty ← types idName
  if e.comparable cty (castType (idType d)) then
    (fieldValue e (idType d) v).map fun v r => e.compares .eq (r idName) v
  else none

/-- What a condition asks of a row. -/
def meets (types : Text → Option TypeName) (f : DomainFieldDef) (c : WhereCond) : Option (Record V → Bool) := do
  let cty ← types f.name
  if c.op = "contains".toList then
    if e.searchable cty then some fun r => e.likes (r f.name) (coerceBind c.value true) else none
  else if e.comparable cty (castType f.fieldType) then
    (fieldValue e f.fieldType c.value).map fun v r => e.compares (comparisonOf c.op) (r f.name) v
  else none

/-- All fields of the domain are columns. -/
def covers (types : Text → Option TypeName) (d : DomainDef) : Bool := d.fields.all fun f => (types f.name).isSome

theorem hasAll_outputs (t : Table V) (d : DomainDef) : t.hasAll (outputs d) = covers t.type d := by
  simp only [Table.hasAll, outputs, covers, List.all_map]
  rfl

theorem value_valueOf (params : List (Option Text)) (ty : FieldType) (i : Nat) :
    e.value params (valueOf ty i) = (bound params i).bind (e.castTo (castType ty)) := rfl

/-- The assignments of a statement, with the binds of the request. -/
theorem assignments_eq (types : Text → Option TypeName) (as : List (DomainFieldDef × Json))
    (more : List (Option Text)) :
    ((((as.map Prod.fst).zipIdx 1).map fun x => (x.1.name, valueOf x.1.fieldType x.2)).mapM fun cv => do
      e.store types cv.1 cv.2.type (← e.value ((as.map fun a => coerceBind a.2 false) ++ more) cv.2)) =
      recordValues e types as := by
  have hbound := mapM_bound (fun a : DomainFieldDef × Json => coerceBind a.2 false)
    (fun a b => do e.store types a.1.name (castType a.1.fieldType) (← b.bind (e.castTo (castType a.1.fieldType))))
    [] more as
  rw [List.mapM_map, List.zipIdx_map, List.mapM_map]
  exact hbound

theorem selects_one (types : Text → Option TypeName) (params : List (Option Text)) (c : Condition) :
    e.selects types params [c] = e.holds types params c := by
  rw [Engine.selects, List.mapM_cons, List.mapM_nil]
  cases e.holds types params c with
  | none => rfl
  | some p => simp

theorem holds_idIs (types : Text → Option TypeName) (d : DomainDef) (pre : List (Option Text)) (v : Json) :
    e.holds types (pre ++ [coerceBind v false]) (idIs d (pre.length + 1)) = hasId e types d v := by
  have hvalue : e.value (pre ++ [coerceBind v false]) (valueOf (idType d) (pre.length + 1)) =
      fieldValue e (idType d) v := by
    rw [value_valueOf, bound_at]
    rfl
  simp only [Engine.holds, idIs, hvalue, hasId]
  rfl

/-- What a condition asks, with its parameter. -/
def holdsFor (types : Text → Option TypeName) (p : DomainFieldDef × WhereCond) (b : Option (Option Text)) :
    Option (Record V → Bool) := do
  let cty ← types p.1.name
  if p.2.op = "contains".toList then
    if e.searchable cty then b.map fun b r => e.likes (r p.1.name) b else none
  else if e.comparable cty (castType p.1.fieldType) then
    (b.bind (e.castTo (castType p.1.fieldType))).map fun v r =>
      e.compares (comparisonOf p.2.op) (r p.1.name) v
  else none

theorem holds_conditionOf (types : Text → Option TypeName) (params : List (Option Text)) (f : DomainFieldDef)
    (c : WhereCond) (i : Nat) :
    e.holds types params (conditionOf f c.op i) = holdsFor e types (f, c) (bound params i) := by
  unfold conditionOf holdsFor
  by_cases hop : c.op = "contains".toList
  · simp only [if_pos hop, Engine.holds]
  · simp only [if_neg hop, Engine.holds]
    rfl

theorem holdsFor_bind (types : Text → Option TypeName) (p : DomainFieldDef × WhereCond) :
    holdsFor e types p (some (conditionBind p.2)) = meets e types p.1 p.2 := by
  unfold holdsFor meets conditionBind fieldValue
  by_cases hop : p.2.op = "contains".toList
  · simp only [hop, if_true, decide_true, Option.map_some]
  · simp only [hop, if_false, decide_false, Option.bind_some]

theorem conditions_eq (types : Text → Option TypeName) {fs : List DomainFieldDef} {cs : List WhereCond}
    (hlen : fs.length = cs.length) :
    ((((fs.zip (cs.map WhereCond.op)).zipIdx 1).map fun x => conditionOf x.1.1 x.1.2 x.2).mapM
      (e.holds types (cs.map conditionBind))) = (fs.zip cs).mapM fun p => meets e types p.1 p.2 := by
  have hbinds : cs.map conditionBind = (fs.zip cs).map fun p => conditionBind p.2 := by
    have hsnd : (fs.zip cs).map Prod.snd = cs := List.map_snd_zip hlen.ge
    have hmap : ((fs.zip cs).map Prod.snd).map conditionBind = (fs.zip cs).map fun p => conditionBind p.2 :=
      List.map_map ..
    rw [← hmap, hsnd]
  have hbound := mapM_bound (fun p : DomainFieldDef × WhereCond => conditionBind p.2) (holdsFor e types)
    [] [] (fs.zip cs)
  simp only [List.nil_append, List.append_nil, List.length_nil, Nat.zero_add, holdsFor_bind] at hbound
  rw [List.zip_map_right, List.zipIdx_map, List.map_map, List.mapM_map, hbinds, ← hbound]
  congr 1
  funext x
  exact holds_conditionOf e types _ x.1.1 x.1.2 x.2

end Values

/-! The statements over a table. -/

section Statements
variable {V : Type} (e : Engine V) {d : DomainDef} {db : Database V} {t : Table V}

theorem exec_insert (ht : db d.source = some t) {as : List (DomainFieldDef × Json)}
    (hnodup : (as.map fun a => a.1.name).Nodup) :
    e.exec db (as.map fun a => coerceBind a.2 false) (insertOf d (as.map Prod.fst)) =
      (recordValues e t.type as).bind fun vs =>
        let row := overlay vs (e.defaults t.type t.nextId)
        if covers t.type d ∧ t.nextId ≤ 2147483647 then
          some ([e.output (outputs d) row],
            put db d.source { t with rows := t.rows ++ [row], nextId := t.nextId + 1 })
        else none := by
  have hvalues := assignments_eq e t.type as []
  rw [List.append_nil] at hvalues
  have hcolumns : ((as.map Prod.fst).map DomainFieldDef.name).zip
      (((as.map Prod.fst).zipIdx 1).map fun x => valueOf x.1.fieldType x.2) =
      ((as.map Prod.fst).zipIdx 1).map fun x => (x.1.name, valueOf x.1.fieldType x.2) := zip_zipIdx _ _ _ _
  have hnames : (as.map Prod.fst).map DomainFieldDef.name = as.map fun a => a.1.name := List.map_map ..
  simp only [insertOf, Engine.exec, ht, Engine.insert, hcolumns]
  simp only [Option.bind_eq_bind, Option.bind_some] at hvalues ⊢
  rw [hvalues]
  cases recordValues e t.type as with
  | none => rfl
  | some vs =>
    simp only [Option.bind_some, hnames, hnodup, hasAll_outputs, List.length_map, List.length_zipIdx,
      true_and]
    split <;> rfl

theorem exec_update (ht : db d.source = some t) {as : List (DomainFieldDef × Json)}
    (hnodup : (as.map fun a => a.1.name).Nodup) (v : Json) :
    e.exec db ((as.map fun a => coerceBind a.2 false) ++ [coerceBind v false])
        (updateOf d (as.map Prod.fst)) =
      (recordValues e t.type as).bind fun vs => (hasId e t.type d v).bind fun p =>
        if covers t.type d then
          some (((t.rows.filter p).map (overlay vs)).map (e.output (outputs d)),
            put db d.source { t with rows := t.rows.map fun r => if p r then overlay vs r else r })
        else none := by
  have hvalues := assignments_eq e t.type as [coerceBind v false]
  have hid := holds_idIs e t.type d (as.map fun a => coerceBind a.2 false) v
  rw [List.length_map] at hid
  have hnames : (((as.map Prod.fst).zipIdx 1).map fun x => (x.1.name, valueOf x.1.fieldType x.2)).map Prod.fst =
      as.map fun a => a.1.name := by
    have hfst := List.zipIdx_map_fst 1 (as.map Prod.fst)
    have hmap := congrArg (List.map DomainFieldDef.name) hfst
    simp only [List.map_map] at hmap ⊢
    exact hmap
  simp only [updateOf, Engine.exec, ht, Engine.update, selects_one, List.length_map, hnames, hnodup,
    hasAll_outputs, true_and]
  simp only [Option.bind_eq_bind, Option.bind_some] at hvalues ⊢
  rw [hvalues]
  rw [hid]
  cases recordValues e t.type as with
  | none => rfl
  | some vs =>
    cases hasId e t.type d v with
    | none => rfl
    | some p =>
      simp only [Option.bind_some]
      split <;> rfl

theorem exec_delete (ht : db d.source = some t) (v : Json) :
    e.exec db [coerceBind v false] (deleteOf d) = (hasId e t.type d v).bind fun p =>
      if covers t.type d then
        some ((t.rows.filter p).map (e.output (outputs d)),
          put db d.source { t with rows := t.rows.filter fun r => !p r })
      else none := by
  have hid := holds_idIs e t.type d [] v
  simp only [List.nil_append, List.length_nil, Nat.zero_add] at hid
  simp only [deleteOf, Engine.exec, ht, Engine.delete, selects_one, hasAll_outputs]
  simp only [Option.bind_eq_bind, Option.bind_some]
  rw [hid]
  cases hasId e t.type d v with
  | none => rfl
  | some p =>
    simp only [Option.bind_some]
    split <;> rfl

end Statements

/-! Records. -/

/-- The records of a domain by their ids, and the id of the next one. -/
structure Records (V : Type) where
  types : Text → Option TypeName
  record : Int → Option (Record V)
  next : Int

section Records
variable {V : Type} (e : Engine V) (idOf : V → Option Int)

/-- The id that a request means, if it means one. -/
def keyOf (types : Text → Option TypeName) (d : DomainDef) (v : Json) : Option (Option Int) := do
  let cty ← types idName
  if e.comparable cty (castType (idType d)) then (fieldValue e (idType d) v).map fun v => v.bind idOf
  else none

def Records.insert (s : Records V) (vs : List (Text × Option V)) : Option (Record V) × Records V :=
  let r := overlay vs (e.defaults s.types s.next)
  (some r, { s with record := fun n => if n = s.next then some r else s.record n, next := s.next + 1 })

def Records.update (s : Records V) (key : Option Int) (vs : List (Text × Option V)) :
    Option (Record V) × Records V :=
  ((key.bind s.record).map (overlay vs),
    { s with record := fun n => if key = some n then (s.record n).map (overlay vs) else s.record n })

def Records.delete (s : Records V) (key : Option Int) : Option (Record V) × Records V :=
  (key.bind s.record, { s with record := fun n => if key = some n then none else s.record n })

/-- What a mutation does; none is a refusal. -/
def Records.mutate (s : Records V) (d : DomainDef) (op : Text) (set : Dict Json) (id : Option Json) :
    Option (Option (Record V) × Records V) :=
  if !covers s.types d then none
  else if op = "insert".toList then
    if (assigned d set).isEmpty || 2147483647 < s.next then none
    else (recordValues e s.types (assigned d set)).map fun vs => s.insert e vs
  else if op = "update".toList then
    if (assigned d set).isEmpty then none
    else do
      let vs ← recordValues e s.types (assigned d set)
      let key ← keyOf e idOf s.types d (← id)
      return s.update key vs
  else if op = "delete".toList then do return s.delete (← keyOf e idOf s.types d (← id))
  else none

/-- The rows of the table are the records. -/
structure Mirrors (t : Table V) (s : Records V) : Prop where
  types : t.type = s.types
  next : t.nextId = s.next
  serial : s.types idName = some serial
  row : ∀ r ∈ t.rows, ∃ n, r idName = some (e.ofId n) ∧ s.record n = some r
  record : ∀ n r, s.record n = some r → r ∈ t.rows ∧ r idName = some (e.ofId n) ∧ n < s.next
  ids : (t.rows.map fun r => r idName).Nodup

variable {e idOf} {t : Table V} {s : Records V}

theorem ofId_inj (he : e.Lawful idOf) {m n : Int} (h : e.ofId m = e.ofId n) : m = n :=
  Option.some.inj ((he.id_of m).symm.trans (h ▸ he.id_of n))

theorem overlay_other {vs : List (Text × Option V)} {c : Text} (h : c ∉ vs.map Prod.fst) (r : Record V) :
    overlay vs r c = r c := by
  have hnone : vs.lookup c = none := by
    rw [List.lookup_eq_none_iff]
    intro p hp
    exact bne_iff_ne.mpr fun heq => h (heq ▸ List.mem_map_of_mem hp)
  rw [overlay, hnone]
  rfl

theorem Mirrors.insert (he : e.Lawful idOf) (h : Mirrors e t s) {vs : List (Text × Option V)}
    (hvs : idName ∉ vs.map Prod.fst) :
    Mirrors e { t with rows := t.rows ++ [overlay vs (e.defaults t.type t.nextId)], nextId := t.nextId + 1 }
      (s.insert e vs).2 := by
  have hid : overlay vs (e.defaults t.type t.nextId) idName = some (e.ofId t.nextId) := by
    rw [overlay_other hvs, Engine.defaults, h.types, if_pos h.serial]
  have hnew : overlay vs (e.defaults t.type t.nextId) = overlay vs (e.defaults s.types s.next) := by
    rw [h.types, h.next]
  constructor
  · exact h.types
  · exact congrArg (· + 1) h.next
  · exact h.serial
  · intro r hr
    obtain hr | hr := List.mem_append.mp hr
    · obtain ⟨n, hn, hrecord⟩ := h.row r hr
      refine ⟨n, hn, ?_⟩
      have hne : n ≠ s.next := (h.record n r hrecord).2.2.ne
      simp only [Records.insert, if_neg hne, hrecord]
    · obtain rfl := List.mem_singleton.mp hr
      refine ⟨t.nextId, hid, ?_⟩
      simp only [Records.insert, h.next, if_true, ← hnew]
  · intro n r hr
    simp only [Records.insert] at hr ⊢
    split at hr
    · rename_i hn
      obtain rfl := Option.some.inj hr
      rw [← hnew, hn, ← h.next]
      exact ⟨List.mem_append_right _ List.mem_cons_self, hid, Int.lt_succ _⟩
    · obtain ⟨hmem, hrid, hlt⟩ := h.record n r hr
      exact ⟨List.mem_append_left _ hmem, hrid, hlt.trans (Int.lt_succ _)⟩
  · rw [List.map_append, List.nodup_append]
    refine ⟨h.ids, List.nodup_singleton _, ?_⟩
    intro a ha b hb hab
    obtain ⟨r, hr, rfl⟩ := List.mem_map.mp ha
    obtain ⟨n, hn, hrecord⟩ := h.row r hr
    rw [List.map_cons, List.map_nil, List.mem_singleton, hid] at hb
    rw [hb] at hab
    have heq : n = t.nextId := ofId_inj he (Option.some.inj (hn.symm.trans hab))
    exact absurd (h.record n r hrecord).2.2 (by rw [heq, h.next]; exact lt_irrefl _)

/-- A condition on the rows that asks for an id. -/
def Picks (e : Engine V) (p : Record V → Bool) (key : Option Int) : Prop :=
  ∀ n r, r idName = some (e.ofId n) → (p r = true ↔ key = some n)

theorem hasId_keyOf (he : e.Lawful idOf) (types : Text → Option TypeName) (d : DomainDef) (v : Json) :
    match hasId e types d v with
    | none => keyOf e idOf types d v = none
    | some p => ∃ key, keyOf e idOf types d v = some key ∧ Picks e p key := by
  unfold hasId keyOf
  cases types idName with
  | none => rfl
  | some cty =>
    simp only [Option.bind_eq_bind, Option.bind_some]
    cases e.comparable cty (castType (idType d)) with
    | false => rfl
    | true =>
      simp only [if_true]
      cases fieldValue e (idType d) v with
      | none => rfl
      | some w =>
        refine ⟨w.bind idOf, rfl, fun n r hr => ?_⟩
        dsimp only
        rw [hr]
        cases w with
        | none => simp [Engine.compares]
        | some w =>
          simp only [Engine.compares, Sql.Comparison.holds, decide_eq_true_eq, Option.bind_some]
          exact he.eq_id n w

theorem Mirrors.picked (h : Mirrors e t s) {p : Record V → Bool} {key : Option Int} (hp : Picks e p key)
    {r : Record V} (hr : r ∈ t.rows) :
    ∃ n, r idName = some (e.ofId n) ∧ s.record n = some r ∧ (p r = true ↔ key = some n) := by
  obtain ⟨n, hn, hrecord⟩ := h.row r hr
  exact ⟨n, hn, hrecord, hp n r hn⟩

/-- The row that is sent back is the record. -/
theorem Mirrors.first (h : Mirrors e t s) {p : Record V → Bool} {key : Option Int} (hp : Picks e p key) :
    (t.rows.filter p).head? = key.bind s.record := by
  cases hfound : t.rows.filter p with
  | nil =>
    refine (Option.eq_none_iff_forall_ne_some.mpr fun r hr => ?_).symm
    obtain ⟨n, rfl, hrecord⟩ := Option.bind_eq_some_iff.mp hr
    obtain ⟨hmem, hid, -⟩ := h.record n r hrecord
    have hpass : r ∈ t.rows.filter p := List.mem_filter.mpr ⟨hmem, (hp n r hid).mpr rfl⟩
    rw [hfound] at hpass
    cases hpass
  | cons r l =>
    have hr : r ∈ t.rows.filter p := hfound ▸ List.mem_cons_self
    obtain ⟨hmem, hpass⟩ := List.mem_filter.mp hr
    obtain ⟨n, -, hrecord, hiff⟩ := h.picked hp hmem
    rw [hiff.mp hpass]
    exact hrecord.symm

theorem Mirrors.update (h : Mirrors e t s) {p : Record V → Bool} {key : Option Int} (hp : Picks e p key)
    {vs : List (Text × Option V)} (hvs : idName ∉ vs.map Prod.fst) :
    Mirrors e { t with rows := t.rows.map fun r => if p r then overlay vs r else r } (s.update key vs).2 := by
  have hid (r : Record V) : (if p r then overlay vs r else r) idName = r idName := by
    split
    · exact overlay_other hvs r
    · rfl
  constructor
  · exact h.types
  · exact h.next
  · exact h.serial
  · intro r' hr'
    obtain ⟨r, hr, rfl⟩ := List.mem_map.mp hr'
    obtain ⟨n, hn, hrecord, hiff⟩ := h.picked hp hr
    refine ⟨n, (hid r).trans hn, ?_⟩
    simp only [Records.update, hrecord, Option.map_some, ← hiff]
    split <;> rfl
  · intro n r' hr'
    have hexists : ∃ r, s.record n = some r ∧ r' = if p r then overlay vs r else r := by
      simp only [Records.update] at hr'
      split at hr'
      · rename_i hkey
        obtain ⟨r, hr, rfl⟩ := Option.map_eq_some_iff.mp hr'
        exact ⟨r, hr, (if_pos ((hp n r (h.record n r hr).2.1).mpr hkey)).symm⟩
      · rename_i hkey
        exact ⟨r', hr', (if_neg fun hpass => hkey ((hp n r' (h.record n r' hr').2.1).mp hpass)).symm⟩
    obtain ⟨r, hr, rfl⟩ := hexists
    obtain ⟨hmem, hrid, hlt⟩ := h.record n r hr
    exact ⟨List.mem_map_of_mem hmem, (hid r).trans hrid, hlt⟩
  · have hids : (t.rows.map fun r => if p r then overlay vs r else r).map (fun r => r idName) =
        t.rows.map fun r => r idName := by
      rw [List.map_map]
      exact List.map_congr_left fun r _ => hid r
    exact hids ▸ h.ids

theorem Mirrors.delete (h : Mirrors e t s) {p : Record V → Bool} {key : Option Int} (hp : Picks e p key) :
    Mirrors e { t with rows := t.rows.filter fun r => !p r } (s.delete key).2 := by
  constructor
  · exact h.types
  · exact h.next
  · exact h.serial
  · intro r hr
    obtain ⟨hmem, hpass⟩ := List.mem_filter.mp hr
    obtain ⟨n, hn, hrecord, hiff⟩ := h.picked hp hmem
    refine ⟨n, hn, ?_⟩
    have hkey : key ≠ some n := fun hkey => by simp [hiff.mpr hkey] at hpass
    simp only [Records.delete, if_neg hkey, hrecord]
  · intro n r hr
    simp only [Records.delete] at hr
    split at hr
    · cases hr
    · rename_i hkey
      obtain ⟨hmem, hrid, hlt⟩ := h.record n r hr
      have hpass : (!p r) = true := by
        rw [Bool.not_eq_true', Bool.eq_false_iff]
        exact fun hpass => hkey ((hp n r hrid).mp hpass)
      exact ⟨List.mem_filter.mpr ⟨hmem, hpass⟩, hrid, hlt⟩
  · exact h.ids.sublist (List.filter_sublist.map _)

end Records

/-! A mutation over the database. -/

section Mutation
variable {V : Type} {e : Engine V} {idOf : V → Option Int} {d : DomainDef}

theorem assigned_sublist (fields : List DomainFieldDef) (set : Dict Json) :
    ((fields.filterMap fun f => if isFixed f then none else (set.lookup f.name).map fun v => (f, v)).map
      Prod.fst).Sublist fields := by
  induction fields with
  | nil => exact List.Sublist.refl _
  | cons f fields ih =>
    rw [List.filterMap_cons]
    split
    · exact ih.cons f
    · rename_i a ha
      split at ha
      · cases ha
      · obtain ⟨v, -, rfl⟩ := Option.map_eq_some_iff.mp ha
        exact ih.cons_cons f

theorem assigned_nodup (hd : Usable d) (set : Dict Json) : ((assigned d set).map fun a => a.1.name).Nodup := by
  have hsub := (assigned_sublist d.fields set).map DomainFieldDef.name
  rw [List.map_map] at hsub
  exact hd.distinct.sublist hsub

theorem assigned_settable {set : Dict Json} {a : DomainFieldDef × Json} (h : a ∈ assigned d set) :
    a.1 ∈ d.fields ∧ isFixed a.1 = false := by
  obtain ⟨f, hf, ha⟩ := List.mem_filterMap.mp h
  split at ha
  · cases ha
  · rename_i hfixed
    obtain ⟨v, -, rfl⟩ := Option.map_eq_some_iff.mp ha
    exact ⟨hf, Bool.eq_false_iff.mpr hfixed⟩

theorem recordValues_names {types : Text → Option TypeName} {as : List (DomainFieldDef × Json)}
    {vs : List (Text × Option V)} (h : recordValues e types as = some vs) :
    vs.map Prod.fst = as.map fun a => a.1.name := by
  induction as generalizing vs with
  | nil =>
    cases h
    rfl
  | cons a as ih =>
    rw [recordValues, List.mapM_cons] at h
    obtain ⟨v, hv, h⟩ := Option.bind_eq_some_iff.mp h
    obtain ⟨vs', hvs, h⟩ := Option.bind_eq_some_iff.mp h
    cases h
    obtain ⟨w, -, hstore⟩ := Option.bind_eq_some_iff.mp hv
    have hname : v.1 = a.1.name := by
      unfold Engine.store at hstore
      split at hstore
      · cases hstore
      · split at hstore
        · cases hstore
          rfl
        · cases hstore
      · split at hstore
        · obtain ⟨x, -, rfl⟩ := Option.map_eq_some_iff.mp hstore
          rfl
        · cases hstore
    rw [List.map_cons, List.map_cons, hname, ih hvs]

/-- What is fixed is not among what a request sets. -/
theorem fixed_not_assigned {types : Text → Option TypeName} {set : Dict Json} {vs : List (Text × Option V)}
    (h : recordValues e types (assigned d set) = some vs) {c : Text}
    (hc : ∀ f ∈ d.fields, f.name = c → isFixed f = true) : c ∉ vs.map Prod.fst := by
  rw [recordValues_names h]
  intro hmem
  obtain ⟨a, ha, hname⟩ := List.mem_map.mp hmem
  obtain ⟨hf, hsettable⟩ := assigned_settable ha
  rw [hc a.1 hf hname] at hsettable
  cases hsettable

theorem id_fixed (d : DomainDef) : ∀ f ∈ d.fields, f.name = idName → isFixed f = true := by
  intro f _ hname
  rw [isFixed, Bool.or_eq_true, decide_eq_true_eq]
  exact .inr hname

theorem run_insertText (hd : Usable d) {fs : List DomainFieldDef} (hfs : ∀ f ∈ fs, f ∈ d.fields)
    (hne : fs ≠ []) (db : Database V) (params : List (Option Text)) :
    e.run db (insertText d fs) params = e.exec db params (insertOf d fs) := by
  rw [Engine.run, (lexes_insertText hd hfs).tokens, readStatement_insert hd hne]
  rfl

theorem run_updateText (hd : Usable d) {fs : List DomainFieldDef} (hfs : ∀ f ∈ fs, f ∈ d.fields)
    (hne : fs ≠ []) (db : Database V) (params : List (Option Text)) :
    e.run db (updateText d fs) params = e.exec db params (updateOf d fs) := by
  rw [Engine.run, (lexes_updateText hd hfs).tokens, readStatement_update hd hne]
  rfl

theorem run_deleteText (hd : Usable d) (db : Database V) (params : List (Option Text)) :
    e.run db (deleteText d) params = e.exec db params (deleteOf d) := by
  rw [Engine.run, (lexes_deleteText hd).tokens, readStatement_delete hd]
  rfl

/-- What becomes of a mutation: both levels refuse it, or the table goes on to mirror the records
and its first row is the one that is given back. -/
def Agrees (e : Engine V) (d : DomainDef) (db : Database V) :
    Option (List Sql.OutputRow × Database V) → Option (Option (Record V) × Records V) → Prop
  | none, r => r = none
  | some (rows, db'), r => ∃ t' row s', db' = put db d.source t' ∧ r = some (row, s') ∧ Mirrors e t' s' ∧
      rows.head? = row.map (e.output (outputs d))

variable {db : Database V} {t : Table V} {s : Records V}

/-! What the record level does, by the kind of mutation. -/

theorem mutate_insert (s : Records V) {set : Dict Json} (hne : assigned d set ≠ []) (id : Option Json) :
    s.mutate e idOf d "insert".toList set id =
      if covers s.types d ∧ s.next ≤ 2147483647 then
        (recordValues e s.types (assigned d set)).map fun vs => s.insert e vs
      else none := by
  have hempty : (assigned d set).isEmpty = false := List.isEmpty_eq_false_iff.mpr hne
  rw [Records.mutate, if_pos rfl, hempty, Bool.false_or]
  cases covers s.types d with
  | false => rfl
  | true =>
    simp only [Bool.not_true, Bool.false_eq_true, if_false, decide_eq_true_eq, true_and, ← not_le, ite_not]

theorem mutate_update (s : Records V) {set : Dict Json} (hne : assigned d set ≠ []) (v : Json) :
    s.mutate e idOf d "update".toList set (some v) =
      if covers s.types d then
        (recordValues e s.types (assigned d set)).bind fun vs => (keyOf e idOf s.types d v).map fun key =>
          s.update key vs
      else none := by
  have hop : ¬"update".toList = "insert".toList := by decide
  have hempty : ¬(assigned d set).isEmpty = true := by simpa using hne
  rw [Records.mutate, if_neg hop, if_pos rfl, if_neg hempty]
  cases covers s.types d with
  | false => rfl
  | true =>
    cases recordValues e s.types (assigned d set) with
    | none => rfl
    | some vs =>
      simp only [Option.bind_eq_bind, Option.bind_some, Bool.not_true, Bool.false_eq_true, if_false, if_true]
      cases keyOf e idOf s.types d v <;> rfl

theorem mutate_delete (s : Records V) (set : Dict Json) (v : Json) :
    s.mutate e idOf d "delete".toList set (some v) =
      if covers s.types d then (keyOf e idOf s.types d v).map fun key => s.delete key else none := by
  have hinsert : ¬"delete".toList = "insert".toList := by decide
  have hupdate : ¬"delete".toList = "update".toList := by decide
  rw [Records.mutate, if_neg hinsert, if_neg hupdate, if_pos rfl]
  cases covers s.types d with
  | false => rfl
  | true =>
    simp only [Option.bind_eq_bind, Option.bind_some, Bool.not_true, Bool.false_eq_true, if_false, if_true]
    cases keyOf e idOf s.types d v <;> rfl

theorem mutate_insert_nothing (s : Records V) {set : Dict Json} (h : (assigned d set).isEmpty = true)
    (id : Option Json) : s.mutate e idOf d "insert".toList set id = none := by
  rw [Records.mutate, if_pos rfl, h, Bool.true_or, if_pos rfl, ite_self]

theorem mutate_update_nothing (s : Records V) {set : Dict Json} (h : (assigned d set).isEmpty = true)
    (id : Option Json) : s.mutate e idOf d "update".toList set id = none := by
  have hop : ¬"update".toList = "insert".toList := by decide
  rw [Records.mutate, if_neg hop, if_pos rfl, if_pos h, ite_self]

theorem mutate_no_id (s : Records V) {op : Text} (h : op ≠ "insert".toList) (set : Dict Json) :
    s.mutate e idOf d op set none = none := by
  have hbind : (recordValues e s.types (assigned d set)).bind (fun _ => (none : Option (Option (Record V) ×
      Records V))) = none := by
    cases recordValues e s.types (assigned d set) <;> rfl
  rw [Records.mutate, if_neg h]
  simp only [Option.bind_eq_bind, Option.bind_none, hbind, ite_self]

theorem mutate_unknown (s : Records V) {op : Text} (hinsert : op ≠ "insert".toList)
    (hupdate : op ≠ "update".toList) (hdelete : op ≠ "delete".toList) (set : Dict Json) (id : Option Json) :
    s.mutate e idOf d op set id = none := by
  rw [Records.mutate, if_neg hinsert, if_neg hupdate, if_neg hdelete, ite_self]

theorem insert_agrees (he : e.Lawful idOf) (hd : Usable d) (ht : db d.source = some t) (h : Mirrors e t s)
    {set : Dict Json} (hne : assigned d set ≠ []) (id : Option Json) :
    Agrees e d db
      (e.run db (insertText d ((assigned d set).map Prod.fst)) ((assigned d set).map fun a => coerceBind a.2 false))
      (s.mutate e idOf d "insert".toList set id) := by
  rw [run_insertText hd assigned_declared (by simpa using hne), exec_insert e ht (assigned_nodup hd set),
    mutate_insert s hne, ← h.types, ← h.next]
  cases hvs : recordValues e t.type (assigned d set) with
  | none => simp [Agrees]
  | some vs =>
    rw [Option.bind_some, Option.map_some]
    split
    · have hid := fixed_not_assigned hvs (id_fixed d)
      refine ⟨_, _, _, rfl, rfl, h.insert he hid, ?_⟩
      simp only [List.head?_cons, Option.map_some, h.types, h.next]
    · rfl

theorem update_agrees (he : e.Lawful idOf) (hd : Usable d) (ht : db d.source = some t) (h : Mirrors e t s)
    {set : Dict Json} (hne : assigned d set ≠ []) (v : Json) :
    Agrees e d db
      (e.run db (updateText d ((assigned d set).map Prod.fst))
        (((assigned d set).map fun a => coerceBind a.2 false) ++ [coerceBind v false]))
      (s.mutate e idOf d "update".toList set (some v)) := by
  rw [run_updateText hd assigned_declared (by simpa using hne), exec_update e ht (assigned_nodup hd set),
    mutate_update s hne, ← h.types]
  cases hvs : recordValues e t.type (assigned d set) with
  | none => simp [Agrees]
  | some vs =>
    have hkey := hasId_keyOf he t.type d v
    have hid := fixed_not_assigned hvs (id_fixed d)
    rw [Option.bind_some, Option.bind_some]
    cases hp : hasId e t.type d v with
    | none =>
      rw [hp] at hkey
      simp [Agrees, hkey]
    | some p =>
      rw [hp] at hkey
      obtain ⟨key, hkey, hpicks⟩ := hkey
      rw [Option.bind_some, hkey, Option.map_some]
      split
      · refine ⟨_, _, _, rfl, rfl, h.update hpicks hid, ?_⟩
        rw [List.head?_map, List.head?_map, h.first hpicks]
      · rfl

theorem delete_agrees (he : e.Lawful idOf) (hd : Usable d) (ht : db d.source = some t) (h : Mirrors e t s)
    (set : Dict Json) (v : Json) :
    Agrees e d db (e.run db (deleteText d) [coerceBind v false])
      (s.mutate e idOf d "delete".toList set (some v)) := by
  have hkey := hasId_keyOf he t.type d v
  rw [run_deleteText hd, exec_delete e ht, mutate_delete s, ← h.types]
  cases hp : hasId e t.type d v with
  | none =>
    rw [hp] at hkey
    simp [Agrees, hkey]
  | some p =>
    rw [hp] at hkey
    obtain ⟨key, hkey, hpicks⟩ := hkey
    rw [Option.bind_some, hkey, Option.map_some]
    split
    · refine ⟨_, _, _, rfl, rfl, h.delete hpicks, ?_⟩
      rw [List.head?_map, h.first hpicks]
    · rfl

/-- The statements that a mutation is built as. -/
theorem buildMutate_cases {op : Text} {set : Dict Json} {id : Option Json} {sql : Text} {binds : List Bind}
    (h : buildMutate d op set id = .ok (sql, binds)) :
    (op = "insert".toList ∧ assigned d set ≠ [] ∧ sql = insertText d ((assigned d set).map Prod.fst) ∧
      binds = (assigned d set).map fun a => coerceBind a.2 false) ∨
    (∃ v, op = "update".toList ∧ id = some v ∧ assigned d set ≠ [] ∧
      sql = updateText d ((assigned d set).map Prod.fst) ∧
      binds = ((assigned d set).map fun a => coerceBind a.2 false) ++ [coerceBind v false]) ∨
    ∃ v, op = "delete".toList ∧ id = some v ∧ sql = deleteText d ∧ binds = [coerceBind v false] := by
  rw [buildMutate_eq, mutateSql, mutateBinds, List.isEmpty_map] at h
  by_cases hinsert : op = "insert".toList
  · have hdelete : "insert".toList ≠ "delete".toList := by decide
    subst hinsert
    rw [if_pos rfl, if_neg hdelete, if_pos rfl, List.append_nil] at h
    split at h
    · cases h
    · rename_i hempty
      cases h
      exact .inl ⟨rfl, by simpa using hempty, rfl, rfl⟩
  by_cases hupdate : op = "update".toList
  · have hdelete : "update".toList ≠ "delete".toList := by decide
    subst hupdate
    rw [if_neg hinsert, if_pos rfl, if_neg hdelete, if_neg hinsert] at h
    cases id with
    | none => cases h
    | some v =>
      rw [if_neg (by simp)] at h
      split at h
      · cases h
      · rename_i hempty
        cases h
        exact .inr (.inl ⟨v, rfl, rfl, by simpa using hempty, rfl, rfl⟩)
  by_cases hdelete : op = "delete".toList
  · subst hdelete
    rw [if_neg hinsert, if_neg hupdate, if_pos rfl, if_pos rfl, if_neg hinsert] at h
    cases id with
    | none => cases h
    | some v =>
      cases h
      exact .inr (.inr ⟨v, rfl, rfl, rfl, rfl⟩)
  · simp only [if_neg hinsert, if_neg hupdate, if_neg hdelete] at h
    cases h

/-- A mutation that is not built is none of the records either. -/
theorem mutate_of_error (s : Records V) {op : Text} {set : Dict Json} {id : Option Json} {m : Text}
    (h : buildMutate d op set id = .error m) : s.mutate e idOf d op set id = none := by
  rw [buildMutate_eq, mutateSql, List.isEmpty_map] at h
  by_cases hinsert : op = "insert".toList
  · subst hinsert
    rw [if_pos rfl] at h
    split at h
    · rename_i hempty
      exact mutate_insert_nothing s hempty id
    · cases h
  by_cases hupdate : op = "update".toList
  · subst hupdate
    cases id with
    | none => exact mutate_no_id s hinsert set
    | some v =>
      rw [if_neg hinsert, if_pos rfl, if_neg (by simp)] at h
      split at h
      · rename_i hempty
        exact mutate_update_nothing s hempty _
      · cases h
  by_cases hdelete : op = "delete".toList
  · subst hdelete
    cases id with
    | none => exact mutate_no_id s hinsert set
    | some v =>
      rw [if_neg hinsert, if_neg hupdate, if_pos rfl, if_neg (by simp)] at h
      cases h
  · exact mutate_unknown s hinsert hupdate hdelete set id

theorem mutate_agrees (he : e.Lawful idOf) (hd : Usable d) (ht : db d.source = some t) (h : Mirrors e t s)
    {op : Text} {set : Dict Json} {id : Option Json} {sql : Text} {binds : List Bind}
    (hbuilt : buildMutate d op set id = .ok (sql, binds)) :
    Agrees e d db (e.run db sql binds) (s.mutate e idOf d op set id) := by
  obtain ⟨rfl, hne, rfl, rfl⟩ | ⟨v, rfl, rfl, hne, rfl, rfl⟩ | ⟨v, rfl, rfl, rfl, rfl⟩ := buildMutate_cases hbuilt
  · exact insert_agrees he hd ht h hne id
  · exact update_agrees he hd ht h hne v
  · exact delete_agrees he hd ht h set v

theorem mutate_absent (hd : Usable d) (ht : db d.source = none) {op : Text} {set : Dict Json}
    {id : Option Json} {sql : Text} {binds : List Bind} (hbuilt : buildMutate d op set id = .ok (sql, binds)) :
    e.run db sql binds = none := by
  obtain ⟨-, hne, rfl, -⟩ | ⟨v, -, -, hne, rfl, -⟩ | ⟨v, -, -, rfl, -⟩ := buildMutate_cases hbuilt
  · rw [run_insertText hd assigned_declared (by simpa using hne), insertOf, Engine.exec, ht]
    rfl
  · rw [run_updateText hd assigned_declared (by simpa using hne), updateOf, Engine.exec, ht]
    rfl
  · rw [run_deleteText hd, deleteOf, Engine.exec, ht]
    rfl

end Mutation

/-! A query over the database. -/

section Query
variable {V : Type} (e : Engine V)

/-- What the rows of an answer meet; none is a refusal. -/
def Records.selects (s : Records V) (d : DomainDef) (req : QueryReq) : Option (Record V → Bool) := do
  let cols ← (columnNames d req.fields).toOption
  let fs ← (req.conditions.mapM fun c => conditionField d c.field c.op).toOption
  let _ ← (orderClause d req.order).toOption
  let _ ← (limitClause req.limit).toOption
  if (cols ++ req.order.map OrderTerm.field).all fun c => (s.types c).isSome then
    ((fs.zip req.conditions).mapM fun p => meets e s.types p.1 p.2).map fun ps r => ps.all fun p => p r
  else none

def byValue (c : Text) (r r' : Record V) : Ordering := Sql.nullsLast e.order (r c) (r' c)

def byText (c : Text) (r r' : Record V) : Ordering :=
  Sql.nullsLast e.collate ((r c).map e.asText) ((r' c).map e.asText)

/-- A term of an order. A column that is sent counts as the text it is sent as. -/
def termOrder (cols : List Text) (o : OrderTerm) (r r' : Record V) : Ordering :=
  let cmp := if cols.contains o.field then byText e o.field else byValue e o.field
  if (orderOf o).descending then cmp r' r else cmp r r'

/-- Later terms decide between records that are alike in the earlier ones. -/
def recordOrder (cols : List Text) : List OrderTerm → Record V → Record V → Ordering
  | [], _, _ => .eq
  | o :: os, r, r' => (termOrder e cols o r r').then (recordOrder cols os r r')

/-- The records that meet a condition, each once and in the order asked for, up to the limit. -/
def IsAnswer (s : Records V) (p : Record V → Bool) (cmp : Record V → Record V → Ordering)
    (limit : Option Nat) (rows : List (Record V)) : Prop :=
  ∃ all, rows = (limit.map all.take).getD all ∧ all.Nodup ∧
    (∀ r, r ∈ all ↔ p r = true ∧ ∃ n, s.record n = some r) ∧
    all.Pairwise fun r r' => (cmp r r').isLE = true

variable {e} {idOf : V → Option Int} {d : DomainDef} {db : Database V} {t : Table V} {s : Records V}

theorem find_outputOf {cols : List Text} {c : Text} (h : c ∈ cols) :
    (cols.map outputOf).find? (fun o => o.label = c) = some (outputOf c) := by
  induction cols with
  | nil => cases h
  | cons c' cols ih =>
    rw [List.map_cons, List.find?_cons]
    by_cases hc : c' = c
    · simp [outputOf, hc]
    · have hlabel : decide ((outputOf c').label = c) = false := decide_eq_false hc
      rw [hlabel]
      exact ih ((List.mem_cons.mp h).resolve_left fun heq => hc heq.symm)

theorem sortKey_outputOf (cols : List Text) (c : Text) :
    Sql.sortKey (cols.map outputOf) c = if c ∈ cols then .output c else .column c := by
  unfold Sql.sortKey
  by_cases hc : c ∈ cols
  · rw [find_outputOf hc, if_pos hc]
    rfl
  · have hnone : (cols.map outputOf).find? (fun o => o.label = c) = none := by
      rw [List.find?_eq_none]
      intro o ho
      obtain ⟨c', hc', rfl⟩ := List.mem_map.mp ho
      exact decide_eq_true_iff.not.mpr fun heq : c' = c => hc (heq ▸ hc')
    rw [hnone, if_neg hc]

theorem sorts_outputOf (t : Table V) (cols : List Text) (c : Text) :
    t.sorts (cols.map outputOf) c = true ↔ c ∈ cols ∨ t.has c = true := by
  rw [Table.sorts, sortKey_outputOf]
  by_cases hc : c ∈ cols
  · simp only [hc, if_true, true_or, iff_true, List.all_map, List.all_eq_true, Function.comp_apply, outputOf]
    intro c' _
    by_cases heq : c' = c <;> simp [heq]
  · simp [hc]

theorem rankAll_outputOf (cols : List Text) (order : List OrderTerm) :
    e.rankAll (cols.map outputOf) (order.map orderOf) = recordOrder e cols order := by
  induction order with
  | nil => rfl
  | cons o order ih =>
    funext r r'
    have hterm : e.rank (cols.map outputOf) (orderOf o) = termOrder e cols o := by
      funext r r'
      have hfield : (orderOf o).column = o.field := rfl
      rw [Engine.rank, termOrder, hfield, sortKey_outputOf]
      by_cases hmem : o.field ∈ cols
      · rw [if_pos hmem, if_pos (List.contains_iff_mem.mpr hmem)]
        rfl
      · rw [if_neg hmem, if_neg (List.contains_iff_mem.not.mpr hmem)]
        rfl
    rw [List.map_cons, Engine.rankAll, hterm, ih]
    rfl

theorem Mirrors.answer (he : e.Lawful idOf) (h : Mirrors e t s) (p : Record V → Bool)
    (outputs : List Sql.Output) (order : List OrderBy) (limit : Option Nat) :
    let all := e.sort outputs order ((e.scan t.rows).filter p)
    IsAnswer s p (e.rankAll outputs order) limit ((limit.map all.take).getD all) := by
  have htrans := he.order
  have hcollate := he.collate
  obtain ⟨hperm, hsorted⟩ := Sql.sort_spec e outputs order ((e.scan t.rows).filter p)
  have hrows : (e.sort outputs order ((e.scan t.rows).filter p)).Perm (t.rows.filter p) :=
    hperm.trans ((he.scan t.rows).filter p)
  refine ⟨_, rfl, ?_, fun r => ?_, hsorted⟩
  · exact hrows.nodup_iff.mpr (h.ids.of_map.filter p)
  · rw [hrows.mem_iff, List.mem_filter, and_comm]
    refine and_congr_right fun _ => ⟨fun hr => ?_, fun ⟨n, hn⟩ => (h.record n r hn).1⟩
    obtain ⟨n, -, hrecord⟩ := h.row r hr
    exact ⟨n, hrecord⟩

theorem allowed_ops {fs : List DomainFieldDef} {cs : List WhereCond}
    (h : (cs.mapM fun c => conditionField d c.field c.op) = .ok fs) :
    ∀ p ∈ fs.zip (cs.map WhereCond.op), p.2 ∈ allowedOps p.1.fieldType := by
  have hforall := mapM_ok h
  clear h
  induction hforall with
  | nil => exact fun p hp => absurd hp List.not_mem_nil
  | cons hc _ ih =>
    intro p hp
    rw [List.map_cons, List.zip_cons_cons, List.mem_cons] at hp
    obtain rfl | hp := hp
    · exact (conditionField_ok d |>.mp hc).2.2
    · exact ih p hp

theorem columnNames_ne_nil (hd : Usable d) {fields : Option (List Text)} {cols : List Text}
    (h : columnNames d fields = .ok cols) : cols ≠ [] := by
  unfold columnNames at h
  split at h
  · split at h
    · cases h
    · cases h
      exact List.cons_ne_nil _ _
  · cases h
    simpa using hd.some

/-- The parts that a query is built of. -/
theorem buildSelect_parts {req : QueryReq} {sql : Text} {binds : List Bind}
    (h : buildSelect d req = .ok (sql, binds)) :
    ∃ cols fs order limit, columnNames d req.fields = .ok cols ∧
      (req.conditions.mapM fun c => conditionField d c.field c.op) = .ok fs ∧
      orderClause d req.order = .ok order ∧ limitClause req.limit = .ok limit ∧
      sql = selectText d cols fs (req.conditions.map WhereCond.op) order limit ∧
      binds = req.conditions.map conditionBind := by
  rw [buildSelect_eq] at h
  cases hselect : selectSql d req.fields (req.conditions.map WhereCond.shape) req.order req.limit with
  | error m =>
    rw [hselect] at h
    cases h
  | ok sql' =>
    rw [hselect] at h
    cases h
    obtain ⟨cols, fs, order, limit, hcols, hfs, horder, hlimit, rfl⟩ := selectSql_ok hselect
    have hops : (req.conditions.map WhereCond.shape).map Prod.snd = req.conditions.map WhereCond.op :=
      List.map_map ..
    rw [List.mapM_map] at hfs
    exact ⟨cols, fs, order, limit, hcols, hfs, horder, hlimit, by rw [hops], rfl⟩

theorem run_selectText (hd : Usable d) {req : QueryReq} {cols : List Text}
    (hcols : columnNames d req.fields = .ok cols) {fs : List DomainFieldDef}
    (hfs : (req.conditions.mapM fun c => conditionField d c.field c.op) = .ok fs) {order limit : Text}
    (horder : orderClause d req.order = .ok order) (hlimit : limitClause req.limit = .ok limit)
    (params : List (Option Text)) :
    e.run db (selectText d cols fs (req.conditions.map WhereCond.op) order limit) params =
      e.exec db params (selectOf d cols fs req) := by
  have hplain : ∀ c ∈ cols, Sql.PlainName c := by
    intro c hc
    obtain ⟨f, hf, rfl⟩ := columnNames_declared hcols c hc
    exact hd.fields f hf
  have hshape : ((req.conditions.map WhereCond.shape).mapM fun c => conditionField d c.1 c.2) = .ok fs := by
    rw [List.mapM_map]
    exact hfs
  obtain ⟨hlen, hmem, -⟩ := conditionFields hshape
  rw [List.length_map] at hlen
  have htokens := (lexes_selectText hd hplain hmem (allowed_ops hfs) horder hlimit).tokens
  rw [Engine.run, htokens, readStatement_select (columnNames_ne_nil hd hcols) (by rw [List.length_map, hlen])]
  rfl

theorem exec_select (ht : db d.source = some t) {req : QueryReq} (cols : List Text)
    {fs : List DomainFieldDef} (hlen : fs.length = req.conditions.length) :
    e.exec db (req.conditions.map conditionBind) (selectOf d cols fs req) =
      if (cols ++ req.order.map OrderTerm.field).all fun c => t.has c then
        ((fs.zip req.conditions).mapM fun p => meets e t.type p.1 p.2).map fun ps =>
          let all := e.sort (cols.map outputOf) (req.order.map orderOf)
            ((e.scan t.rows).filter fun r => ps.all fun p => p r)
          ((((req.limit.map Int.toNat).map all.take).getD all).map (e.output (cols.map outputOf)), db)
      else none := by
  -- a column that is sent is one of the table already
  have hall : (t.hasAll (cols.map outputOf) &&
      (req.order.map orderOf).all fun o => t.sorts (cols.map outputOf) o.column) =
      (cols ++ req.order.map OrderTerm.field).all fun c => t.has c := by
    rw [Bool.eq_iff_iff, List.all_append, Bool.and_eq_true_iff, Bool.and_eq_true_iff, Table.hasAll,
      List.all_map, List.all_map, List.all_map]
    refine and_congr_right fun hcols => ?_
    simp only [List.all_eq_true, Function.comp_apply, sorts_outputOf, orderOf] at hcols ⊢
    exact forall₂_congr fun o _ => or_iff_right_of_imp (hcols o.field)
  simp only [selectOf, Engine.exec, ht, Engine.select, Engine.selects, Option.bind_eq_bind, Option.bind_some]
  rw [hall, conditions_eq e t.type hlen]
  cases (fs.zip req.conditions).mapM fun p => meets e t.type p.1 p.2 with
  | none => exact (ite_self _).symm
  | some ps =>
    simp only [Option.map_some, Option.bind_some]
    split <;> rfl

/-- What becomes of a query: both levels refuse it, or the rows are an answer and nothing changes. -/
def Answers (e : Engine V) (s : Records V) (d : DomainDef) (req : QueryReq) (db : Database V) :
    Option (List Sql.OutputRow × Database V) → Option (Record V → Bool) → Prop
  | none, r => r = none
  | some (out, db'), r => ∃ cols p rows, columnNames d req.fields = .ok cols ∧ r = some p ∧ db' = db ∧
      IsAnswer s p (recordOrder e cols req.order) (req.limit.map Int.toNat) rows ∧
      out = rows.map (e.output (cols.map outputOf))

theorem query_absent (hd : Usable d) (ht : db d.source = none) {req : QueryReq} {sql : Text}
    {binds : List Bind} (hbuilt : buildSelect d req = .ok (sql, binds)) : e.run db sql binds = none := by
  obtain ⟨cols, fs, order, limit, hcols, hfs, horder, hlimit, rfl, -⟩ := buildSelect_parts hbuilt
  rw [run_selectText hd hcols hfs horder hlimit, selectOf, Engine.exec, ht]
  rfl

/-- A query that is not built is none of the records either. -/
theorem selects_of_error (s : Records V) {req : QueryReq} {m : Text} (h : buildSelect d req = .error m) :
    s.selects e d req = none := by
  rw [buildSelect_eq, selectSql, List.mapM_map] at h
  rw [Records.selects]
  have hcomp : ((fun c : Text × Text => conditionField d c.1 c.2) ∘ WhereCond.shape) =
      fun c => conditionField d c.field c.op := rfl
  rw [hcomp] at h
  cases hcols : columnNames d req.fields with
  | error m => rfl
  | ok cols =>
    cases hfs : req.conditions.mapM fun c => conditionField d c.field c.op with
    | error m => rfl
    | ok fs =>
      cases horder : orderClause d req.order with
      | error m => rfl
      | ok order =>
        cases hlimit : limitClause req.limit with
        | error m => rfl
        | ok limit =>
          rw [hcols, hfs, horder, hlimit] at h
          cases h

theorem query_answers (he : e.Lawful idOf) (hd : Usable d) (ht : db d.source = some t) (h : Mirrors e t s)
    {req : QueryReq} {sql : Text} {binds : List Bind} (hbuilt : buildSelect d req = .ok (sql, binds)) :
    Answers e s d req db (e.run db sql binds) (s.selects e d req) := by
  obtain ⟨cols, fs, order, limit, hcols, hfs, horder, hlimit, rfl, rfl⟩ := buildSelect_parts hbuilt
  have hlen : fs.length = req.conditions.length := (mapM_ok hfs).length_eq.symm
  have hselects : s.selects e d req =
      if (cols ++ req.order.map OrderTerm.field).all fun c => t.has c then
        ((fs.zip req.conditions).mapM fun p => meets e t.type p.1 p.2).map fun ps r => ps.all fun p => p r
      else none := by
    rw [Records.selects, hcols, hfs, horder, hlimit, ← h.types]
    rfl
  rw [run_selectText hd hcols hfs horder hlimit, exec_select ht cols hlen, hselects]
  split
  · cases (fs.zip req.conditions).mapM fun p => meets e t.type p.1 p.2 with
    | none => rfl
    | some ps =>
      have hanswer := h.answer he (fun r => ps.all fun p => p r) (cols.map outputOf) (req.order.map orderOf)
        (req.limit.map Int.toNat)
      rw [rankAll_outputOf] at hanswer
      exact ⟨cols, _, _, hcols, rfl, rfl, hanswer, rfl⟩
  · rfl

end Query

/-! Option lists. -/

section Options
variable {V : Type} (e : Engine V)

/-- The order of an option list, in which `value` and `label` are the texts that are sent. -/
def optionOrder (m : MetaDef) : Record V → Record V → Ordering :=
  match m.orderBy with
  | none => fun _ _ => .eq
  | some c =>
    if c = valueColumn then byText e m.valueField
    else if c = labelColumn then byText e m.labelField
    else byValue e c

/-- The columns that an option list is read from. -/
def optionColumns (m : MetaDef) : List Text :=
  m.valueField :: m.labelField :: m.orderBy.toList.filter fun c => c ≠ valueColumn && c ≠ labelColumn

/-- A record as an option. -/
def optionRecord (m : MetaDef) (r : Record V) : Json :=
  .object [(labelColumn, ((r m.labelField).map fun v => Json.string (e.asText v)).getD .null),
    (valueColumn, ((r m.valueField).map fun v => Json.string (e.asText v)).getD .null)]

/-- The options of a meta are the records of its table. There are none if it cannot be read. -/
def IsOptions (m : MetaDef) (s : Option (Records V)) (list : List Json) : Prop :=
  match s.filter fun s => (optionColumns m).all fun c => (s.types c).isSome with
  | none => list = []
  | some s => ∃ rows, IsAnswer s (fun _ => true) (optionOrder e m) none rows ∧
      list = rows.map (optionRecord e m)

variable {e} {idOf : V → Option Int} {db : Database V} {t : Table V} {m : MetaDef}

theorem sortKey_options (m : MetaDef) (c : Text) :
    Sql.sortKey (optionOutputs m) c =
      if c = valueColumn then .output m.valueField
      else if c = labelColumn then .output m.labelField
      else .column c := by
  simp only [Sql.sortKey, optionOutputs, List.find?_cons, List.find?_nil, eq_comm (a := c)]
  by_cases hvalue : valueColumn = c
  · simp [hvalue]
  · by_cases hlabel : labelColumn = c <;> simp [hvalue, hlabel]

theorem sorts_options (t : Table V) (m : MetaDef) (c : Text) :
    t.sorts (optionOutputs m) c = true ↔ (c = valueColumn ∨ c = labelColumn) ∨ t.has c = true := by
  have hne : valueColumn ≠ labelColumn := by decide
  rw [Table.sorts, sortKey_options]
  by_cases hvalue : c = valueColumn
  · simp [hvalue, optionOutputs, hne.symm]
  · by_cases hlabel : c = labelColumn
    · simp [hlabel, optionOutputs, hne, hne.symm]
    · simp [hvalue, hlabel]

theorem rankAll_options (m : MetaDef) :
    e.rankAll (optionOutputs m) (m.orderBy.toList.map fun c => ⟨c, false⟩) = optionOrder e m := by
  funext r r'
  unfold optionOrder
  cases m.orderBy with
  | none => rfl
  | some c =>
    simp only [Option.toList_some, List.map_cons, List.map_nil, Engine.rankAll, compareLex, Ordering.then_eq,
      Engine.rank, Bool.false_eq_true, if_false, sortKey_options]
    by_cases hvalue : c = valueColumn
    · simp only [if_pos hvalue]
      rfl
    · by_cases hlabel : c = labelColumn
      · simp only [if_neg hvalue, if_pos hlabel]
        rfl
      · simp only [if_neg hvalue, if_neg hlabel]
        rfl

theorem optionJson_output (r : Record V) : optionJson (e.output (optionOutputs m) r) = optionRecord e m r := by
  have hne : valueColumn ≠ labelColumn := by decide
  simp [optionJson, optionRecord, Engine.output, optionOutputs, hne, Function.comp_def]

theorem exec_options (ht : db m.table = some t) :
    e.exec db [] (optionsOf m) =
      if (optionColumns m).all fun c => t.has c then
        some ((e.sort (optionOutputs m) (m.orderBy.toList.map fun c => ⟨c, false⟩)
          ((e.scan t.rows).filter fun _ => true)).map (e.output (optionOutputs m)), db)
      else none := by
  have hall : (t.hasAll (optionOutputs m) &&
      (m.orderBy.toList.map fun c => (⟨c, false⟩ : OrderBy)).all fun o => t.sorts (optionOutputs m) o.column) =
      (optionColumns m).all fun c => t.has c := by
    rw [Bool.eq_iff_iff, Bool.and_eq_true_iff, List.all_map]
    simp only [Table.hasAll, optionOutputs, optionColumns, List.all_cons, List.all_nil, Bool.and_true,
      Bool.and_eq_true, and_assoc]
    refine and_congr_right fun _ => and_congr_right fun _ => ?_
    simp only [List.all_eq_true, Function.comp_apply, List.mem_filter, Bool.and_eq_true, decide_eq_true_eq]
    have hsorts := sorts_options t m
    unfold optionOutputs at hsorts
    simp only [hsorts]
    refine forall_congr' fun c => ⟨fun h hc => ?_, fun h hmem => ?_⟩
    · exact (h hc.1).resolve_left (not_or.mpr hc.2)
    · by_cases hsent : c = valueColumn ∨ c = labelColumn
      · exact .inl hsent
      · exact .inr (h ⟨hmem, not_or.mp hsent⟩)
  simp only [optionsOf, Engine.exec, ht, Engine.select, Engine.selects, List.mapM_nil, Option.bind_eq_bind,
    Option.bind_some, pure, Option.map_some, List.all_nil]
  rw [hall]
  split <;> rfl

/-- A list as it is loaded from a table with the records. -/
theorem optionList_isOptions (he : e.Lawful idOf) (refusal : Text → List Bind → Text)
    (hm : ∀ name ∈ metaNames m, Sql.PlainName name) {s : Option (Records V)}
    (h : Option.Rel (Mirrors e) (db m.table) s) : IsOptions e m s (optionList (runRows e refusal db) m) := by
  have hrun : e.run db (optionsSql m) [] = e.exec db [] (optionsOf m) := by
    rw [Engine.run, (lexes_optionsSql hm).tokens, readStatement_options]
    rfl
  cases hdb : db m.table with
  | none =>
    rw [hdb] at h
    cases h
    have hnone : e.run db (optionsSql m) [] = none := by
      rw [hrun, optionsOf, Engine.exec, hdb]
      rfl
    rw [optionList, runRows, hnone]
    rfl
  | some t =>
    cases s with
    | none =>
      rw [hdb] at h
      cases h
    | some s =>
      rw [hdb] at h
      have hs := Option.rel_some_some.mp h
      rw [exec_options hdb] at hrun
      have htypes : (fun c => t.has c) = fun c => (s.types c).isSome := by
        funext c
        rw [← hs.types]
        rfl
      rw [htypes] at hrun
      rw [optionList, runRows, hrun, IsOptions, Option.filter_some]
      by_cases hcolumns : ((optionColumns m).all fun c => (s.types c).isSome) = true
      · have hanswer := hs.answer he (fun _ => true) (optionOutputs m)
          (m.orderBy.toList.map fun c => ⟨c, false⟩) none
        rw [rankAll_options] at hanswer
        simp only [if_pos hcolumns, Except.toOption, Option.getD_some, List.map_map]
        exact ⟨_, hanswer, List.map_congr_left fun r _ => optionJson_output r⟩
      · simp only [if_neg hcolumns]
        rfl

end Options

/-! The service. -/

section Service
variable {V : Type} (e : Engine V) (idOf : V → Option Int) (printF64 : Bool → Rat → Text)
  (serdeError : Json → Text) (refusal : Text → List Bind → Text)

/-- What happens to the database. Requests come with the domains that are cached at the time; a
sequence may skip ids, and does when an insertion fails. -/
inductive Event where
  | query (cache : List DomainDef) (payload : Json)
  | mutate (cache : List DomainDef) (payload : Json)
  | createTable (source : Text)
  | skipIds (table : Text) (count : Nat)

def runFirst (db : Database V) : RunOne := fun sql binds => (runRows e refusal db sql binds).map List.head?

/-- The database behind a mutation. -/
def mutated (db : Database V) (cache : List DomainDef) (payload : Json) : Database V :=
  match mutateGate serdeError (lookupDomain cache) payload with
  | .error _ => db
  | .ok (d, req) =>
    match buildMutate d req.op req.set req.id with
    | .error _ => db
    | .ok (sql, binds) => ((e.run db sql binds).map Prod.snd).getD db

/-- The database behind the creation of a table. -/
def withTable (db : Database V) (source : Text) : Database V :=
  match parseDomain source with
  | .error _ => db
  | .ok d => ((e.run db (domainToDdl d) []).map Prod.snd).getD db

def dataStep (db : Database V) : Event → Database V
  | .query _ _ => db
  | .mutate cache payload => mutated e serdeError db cache payload
  | .createTable source => withTable e db source
  | .skipIds table count =>
    match db table with
    | none => db
    | some t => put db table { t with nextId := t.nextId + count }

/-- The service with the database as it is, and as it is when it reads the option lists. -/
def serviceOver (db : Database V) (later : Nat → Database V) (cache : List DomainDef) : DataService :=
  ⟨lookupDomain cache, some (runRows e refusal db), fun i => runRows e refusal (later i)⟩

def replyTo (db : Database V) (later : Nat → Database V) : Event → Option Json
  | .query cache payload => some (query printF64 serdeError (serviceOver e refusal db later cache) payload)
  | .mutate cache payload =>
    some (mutate printF64 serdeError (lookupDomain cache) (some (runFirst e refusal db)) payload)
  | _ => none

/-! The same, of records. -/

abbrev RecordStore (V : Type) := Text → Option (Records V)

def emptyRecords (d : DomainDef) : Records V := ⟨fun c => (tableColumns d).lookup c, fun _ => none, 1⟩

/-- What a mutation comes to, if it is not refused. -/
def changed (ss : RecordStore V) (cache : List DomainDef) (payload : Json) :
    Option (DomainDef × Option (Record V) × Records V) := do
  let (d, req) ← (mutateGate serdeError (lookupDomain cache) payload).toOption
  let s ← ss d.source
  let (r, s') ← s.mutate e idOf d req.op req.set req.id
  return (d, r, s')

/-- What a query asks for, if it is not refused. -/
def asked (ss : RecordStore V) (cache : List DomainDef) (payload : Json) :
    Option (DomainDef × QueryReq × Records V × (Record V → Bool)) := do
  let (name, req) ← queryReqOf payload
  let d ← lookupDomain cache name
  let s ← ss d.source
  let p ← s.selects e d req
  return (d, req, s, p)

def recordStep (ss : RecordStore V) : Event → RecordStore V
  | .query _ _ => ss
  | .mutate cache payload =>
    match changed e idOf serdeError ss cache payload with
    | none => ss
    | some (d, _, s) => put ss d.source s
  | .createTable source =>
    match parseDomain source with
    | .error _ => ss
    | .ok d =>
      match ss (tableName d) with
      | some _ => ss
      | none =>
        if ((tableColumns d).map Prod.fst).Nodup then put ss (tableName d) (emptyRecords d) else ss
  | .skipIds table count =>
    match ss table with
    | none => ss
    | some s => put ss table { s with next := s.next + count }

/-- A record as it is sent: the text of each column, typed again. -/
def recordJson (fields : List (Text × FieldType)) (r : Record V) : Json :=
  rowToJson printF64 (fun c => (r c).map e.asText) fields

def IsError (reply : Json) : Prop := ∃ message, reply = errorReply message

/-- The lists of a domain, under the names of its metas. -/
def optionsJson (d : DomainDef) (lists : MetaDef × Nat → List Json) : Json :=
  .object (Dict.ofPairs (d.metas.zipIdx.map fun m => (m.1.name, .array (lists m))))

/-- What an event is answered with. Each option list is that of a moment of its own. -/
def Replied (ss : RecordStore V) (later : Nat → RecordStore V) : Event → Option Json → Prop
  | .query cache payload, reply =>
    match asked e ss cache payload with
    | none => ∃ j, reply = some j ∧ IsError j
    | some (d, req, s, p) => ∃ rows lists,
      IsAnswer s p (recordOrder e ((selectedFields d req.fields).map Prod.fst) req.order)
        (req.limit.map Int.toNat) rows ∧
      (∀ m ∈ d.metas.zipIdx, IsOptions e m.1 (later m.2 m.1.table) (lists m)) ∧
      let sent := rows.map (recordJson e printF64 (selectedFields d req.fields))
      reply = some (if req.withOptions then optionsReply sent (optionsJson d lists) else rowsReply sent)
  | .mutate cache payload, reply =>
    match changed e idOf serdeError ss cache payload with
    | none => ∃ j, reply = some j ∧ IsError j
    | some (d, r, _) =>
      reply = some (recordReply ((r.map (recordJson e printF64 (selectedFields d none))).getD .null))
  | _, reply => reply = none

/-- The tables of the database are the records. -/
def Reflects (db : Database V) (ss : RecordStore V) : Prop := ∀ name, Option.Rel (Mirrors e) (db name) (ss name)

def Event.Usable : Event → Prop
  | .query cache _ => ∀ d ∈ cache, Gql.Usable d
  | .mutate cache _ => ∀ d ∈ cache, Gql.Usable d
  | _ => True

variable {e idOf} {db : Database V} {ss : RecordStore V} {dbs : Nat → Database V} {sss : Nat → RecordStore V}

theorem Reflects.put {name : Text} {t : Table V} {s : Records V} (h : Reflects e db ss) (hs : Mirrors e t s) :
    Reflects e (put db name t) (put ss name s) := by
  intro n
  unfold Sql.put
  split
  · exact .some hs
  · exact h n

theorem lookupDomain_mem {cache : List DomainDef} {name : Text} {d : DomainDef}
    (h : lookupDomain cache name = some d) : d ∈ cache := List.mem_of_find?_eq_some h

theorem mutateGate_cached {serdeError : Json → Text} {cache : List DomainDef} {payload : Json}
    {d : DomainDef} {req : MutateReq}
    (h : mutateGate serdeError (lookupDomain cache) payload = .ok (d, req)) : d ∈ cache := by
  unfold mutateGate at h
  split at h
  · cases h
  · split at h
    · cases h
    · rename_i hd
      split at h
      · cases h
      · split at h
        · cases h
        · split at h
          · cases h
            exact lookupDomain_mem hd
          · cases h

theorem output_of_mem {cols : List Text} {c : Text} (h : c ∈ cols) (r : Record V) :
    e.output (cols.map outputOf) r c = (r c).map e.asText := by
  rw [Engine.output, find_outputOf h]
  rfl

theorem rowToJson_output (fields : List (Text × FieldType)) (r : Record V) :
    rowToJson printF64 (e.output ((fields.map Prod.fst).map outputOf) r) fields =
      recordJson e printF64 fields r := by
  rw [recordJson, rowToJson, rowToJson]
  congr 2
  refine List.map_congr_left fun f hf => ?_
  rw [output_of_mem (List.mem_map_of_mem hf)]

/-- The fields of a row are the columns that were asked for. -/
theorem selectedFields_names {d : DomainDef} {fields : Option (List Text)} {cols : List Text}
    (h : columnNames d fields = .ok cols) : (selectedFields d fields).map Prod.fst = cols := by
  have hfound {names : List Text} (hnames : ∀ f ∈ names, (findField d f).isNone = false) :
      (names.filterMap fun f => (findField d f).map fun g => (f, g.fieldType)).map Prod.fst = names := by
    induction names with
    | nil => rfl
    | cons f names ih =>
      obtain ⟨hf, hnames⟩ := List.forall_mem_cons.mp hnames
      obtain ⟨g, hg⟩ := Option.isSome_iff_exists.mp (Option.isNone_eq_false_iff.mp hf)
      simp only [List.filterMap_cons, hg, Option.map_some, List.map_cons, ih hnames]
  match fields with
  | none =>
    cases h
    exact List.map_map ..
  | some [] =>
    cases h
    exact List.map_map ..
  | some (f :: fs) =>
    simp only [columnNames] at h
    split at h
    · cases h
    · rename_i hnone
      cases h
      exact hfound fun f hf => Bool.eq_false_iff.mpr (List.find?_eq_none.mp hnone f hf)

/-- A statement of a query, over a database that reflects the records. -/
theorem query_reflects (he : e.Lawful idOf) (h : Reflects e db ss) {d : DomainDef} (hd : Gql.Usable d)
    {req : QueryReq} {st : Text × List Bind} (hbuilt : buildSelect d req = .ok st) :
    match e.run db st.1 st.2 with
    | none => (ss d.source).bind (fun s => s.selects e d req) = none
    | some r => ∃ s, ss d.source = some s ∧ Answers e s d req db (some r) (s.selects e d req) := by
  have hrel := h d.source
  cases hdb : db d.source with
  | none =>
    rw [query_absent hd hdb hbuilt]
    cases hss : ss d.source with
    | none => rfl
    | some s =>
      rw [hdb, hss] at hrel
      cases hrel
  | some t =>
    cases hss : ss d.source with
    | none =>
      rw [hdb, hss] at hrel
      cases hrel
    | some s =>
      rw [hdb, hss] at hrel
      have hanswers := query_answers he hd hdb (Option.rel_some_some.mp hrel) hbuilt
      cases hrun : e.run db st.1 st.2 with
      | none =>
        rw [hrun] at hanswers
        exact hanswers
      | some r =>
        rw [hrun] at hanswers
        exact ⟨s, rfl, hanswers⟩

/-! The reply to a query, as far as it comes. -/

section Query

variable {cache : List DomainDef} {payload : Json} {name : Text} {req : QueryReq} {d : DomainDef}

theorem query_failed (hasked : asked e ss cache payload = none)
    (hrows : ∃ m, queryRows printF64 serdeError (serviceOver e refusal db dbs cache) payload = .error m) :
    Replied e idOf printF64 serdeError ss sss (.query cache payload)
      (replyTo e printF64 serdeError refusal db dbs (.query cache payload)) := by
  obtain ⟨m, hrows⟩ := hrows
  simp only [Replied, hasked, replyTo, query, hrows]
  exact ⟨_, rfl, m, rfl⟩

theorem asked_found (hreq : queryReqOf payload = some (name, req)) (hd : lookupDomain cache name = some d) :
    asked e ss cache payload = (ss d.source).bind fun s =>
      (s.selects e d req).bind fun p => some (d, req, s, p) := by
  simp only [asked, hreq, Option.bind_eq_bind, Option.bind_some, hd]
  rfl

theorem asked_refused (hreq : queryReqOf payload = some (name, req))
    (hd : lookupDomain cache name = some d)
    (hnone : (ss d.source).bind (fun s => s.selects e d req) = none) :
    asked e ss cache payload = none := by
  rw [asked_found hreq hd]
  cases hs : ss d.source with
  | none => rfl
  | some s =>
    rw [hs, Option.bind_some] at hnone
    rw [Option.bind_some, hnone, Option.bind_none]

theorem queryRows_found (hreq : queryReqOf payload = some (name, req))
    (hd : lookupDomain cache name = some d) :
    queryRows printF64 serdeError (serviceOver e refusal db dbs cache) payload =
      (buildSelect d req).bind fun st => (runRows e refusal db st.1 st.2).map fun rows =>
        rows.map fun row => rowToJson printF64 row (selectedFields d req.fields) := by
  simp only [queryRows, hreq, serviceOver, hd]
  rfl

theorem wantedOptions_found (hreq : queryReqOf payload = some (name, req))
    (hd : lookupDomain cache name = some d) :
    wantedOptions (serviceOver e refusal db dbs cache) payload =
      if req.withOptions then some (optionsJson d fun m => optionList (runRows e refusal (dbs m.2)) m.1)
      else none := by
  simp only [wantedOptions, hreq, serviceOver, hd, Option.bind_eq_bind, Option.bind_some]
  rfl

/-- The rows that are sent are the records that answer, each as JSON. -/
theorem query_served (he : e.Lawful idOf) (hlater : ∀ i, Reflects e (dbs i) (sss i))
    (husable : Gql.Usable d) (hreq : queryReqOf payload = some (name, req))
    (hd : lookupDomain cache name = some d) {st : Text × List Bind} (hbuilt : buildSelect d req = .ok st)
    {r : List Sql.OutputRow × Database V} (hrun : e.run db st.1 st.2 = some r) {s : Records V}
    (hs : ss d.source = some s) (hanswers : Answers e s d req db (some r) (s.selects e d req)) :
    Replied e idOf printF64 serdeError ss sss (.query cache payload)
      (replyTo e printF64 serdeError refusal db dbs (.query cache payload)) := by
  obtain ⟨cols, p, rows, hcols, hselects, -, hanswer, hout⟩ := hanswers
  have hasked : asked e ss cache payload = _ := asked_found hreq hd
  rw [hs, Option.bind_some, hselects, Option.bind_some] at hasked
  rw [← selectedFields_names hcols] at hanswer hout
  have hrows : queryRows printF64 serdeError (serviceOver e refusal db dbs cache) payload = _ :=
    queryRows_found printF64 serdeError refusal hreq hd
  rw [hbuilt] at hrows
  simp only [Except.bind, runRows, hrun] at hrows
  have hjson : (rows.map (e.output (((selectedFields d req.fields).map Prod.fst).map outputOf))).map
      (fun row => rowToJson printF64 row (selectedFields d req.fields)) =
      rows.map (recordJson e printF64 (selectedFields d req.fields)) := by
    rw [List.map_map]
    exact List.map_congr_left fun r _ => rowToJson_output printF64 _ r
  have hlists : ∀ m ∈ d.metas.zipIdx,
      IsOptions e m.1 (sss m.2 m.1.table) (optionList (runRows e refusal (dbs m.2)) m.1) :=
    fun m hm => optionList_isOptions he refusal (husable.metas m.1 (List.fst_mem_of_mem_zipIdx hm))
      (hlater m.2 m.1.table)
  have hwanted : wantedOptions (serviceOver e refusal db dbs cache) payload = _ :=
    wantedOptions_found refusal hreq hd
  simp only [Replied, hasked, replyTo, query, hrows, Except.map, hout, hjson, hwanted]
  refine ⟨rows, _, hanswer, hlists, ?_⟩
  cases req.withOptions <;> rfl

end Query

/-- How a query comes out. -/
theorem query_replied (he : e.Lawful idOf) (h : Reflects e db ss) (hlater : ∀ i, Reflects e (dbs i) (sss i))
    {cache : List DomainDef} (hcache : ∀ d ∈ cache, Gql.Usable d) (payload : Json) :
    Replied e idOf printF64 serdeError ss sss (.query cache payload)
      (replyTo e printF64 serdeError refusal db dbs (.query cache payload)) := by
  cases hreq : queryReqOf payload with
  | none =>
    refine query_failed _ _ _ ?_ ⟨_, by simp only [queryRows, hreq]; rfl⟩
    rw [asked, hreq]
    rfl
  | some asks =>
    obtain ⟨name, req⟩ := asks
    cases hd : lookupDomain cache name with
    | none =>
      refine query_failed _ _ _ ?_ ⟨_, by simp only [queryRows, hreq, serviceOver, hd]; rfl⟩
      simp only [asked, hreq, Option.bind_eq_bind, Option.bind_some, hd, Option.bind_none]
    | some d =>
      have husable := hcache d (lookupDomain_mem hd)
      cases hbuilt : buildSelect d req with
      | error m =>
        refine query_failed _ _ _ (asked_refused hreq hd ?_)
          ⟨m, by rw [queryRows_found _ _ _ hreq hd, hbuilt]; rfl⟩
        cases ss d.source with
        | none => rfl
        | some s => exact selects_of_error s hbuilt
      | ok st =>
        have hq := query_reflects he h husable hbuilt
        cases hrun : e.run db st.1 st.2 with
        | none =>
          rw [hrun] at hq
          refine query_failed _ _ _ (asked_refused hreq hd hq) ⟨refusal st.1 st.2, ?_⟩
          rw [queryRows_found _ _ _ hreq hd, hbuilt]
          simp only [Except.bind, runRows, hrun]
          rfl
        | some r =>
          rw [hrun] at hq
          obtain ⟨s, hs, hanswers⟩ := hq
          exact query_served _ _ _ he hlater husable hreq hd hbuilt hrun hs hanswers

/-- A statement of a mutation, over a database that reflects the records. -/
theorem mutate_reflects (he : e.Lawful idOf) (h : Reflects e db ss) {d : DomainDef} (hd : Gql.Usable d)
    {op : Text} {set : Dict Json} {id : Option Json} {st : Text × List Bind}
    (hbuilt : buildMutate d op set id = .ok st) :
    match e.run db st.1 st.2 with
    | none => (ss d.source).bind (fun s => s.mutate e idOf d op set id) = none
    | some r => ∃ s, ss d.source = some s ∧ Agrees e d db (some r) (s.mutate e idOf d op set id) := by
  have hrel := h d.source
  cases hdb : db d.source with
  | none =>
    rw [mutate_absent hd hdb hbuilt]
    cases hss : ss d.source with
    | none => rfl
    | some s =>
      rw [hdb, hss] at hrel
      cases hrel
  | some t =>
    cases hss : ss d.source with
    | none =>
      rw [hdb, hss] at hrel
      cases hrel
    | some s =>
      rw [hdb, hss] at hrel
      have hagrees := mutate_agrees he hd hdb (Option.rel_some_some.mp hrel) hbuilt
      cases hrun : e.run db st.1 st.2 with
      | none =>
        rw [hrun] at hagrees
        exact hagrees
      | some r =>
        rw [hrun] at hagrees
        exact ⟨s, rfl, hagrees⟩

/-! The reply to a mutation that passed the gate, as far as it comes. -/

section Reply

variable {cache : List DomainDef} {payload : Json} {d : DomainDef} {req : MutateReq}
  {st : Text × List (Option Text)}

theorem mutate_unbuilt {m : Text} (hgate : mutateGate serdeError (lookupDomain cache) payload = .ok (d, req))
    (hbuilt : buildMutate d req.op req.set req.id = .error m) :
    mutate printF64 serdeError (lookupDomain cache) (some (runFirst e refusal db)) payload = errorReply m := by
  simp only [mutate, hgate, mutateRow, hbuilt]
  rfl

theorem mutate_refused (hgate : mutateGate serdeError (lookupDomain cache) payload = .ok (d, req))
    (hbuilt : buildMutate d req.op req.set req.id = .ok st) (hrun : e.run db st.1 st.2 = none) :
    mutate printF64 serdeError (lookupDomain cache) (some (runFirst e refusal db)) payload =
      errorReply (refusal st.1 st.2) := by
  simp only [mutate, hgate, mutateRow, hbuilt, bind, Except.bind, runFirst, runRows, hrun]
  rfl

theorem mutate_ran (hgate : mutateGate serdeError (lookupDomain cache) payload = .ok (d, req))
    (hbuilt : buildMutate d req.op req.set req.id = .ok st) {r : List Sql.OutputRow × Database V}
    (hrun : e.run db st.1 st.2 = some r) :
    mutate printF64 serdeError (lookupDomain cache) (some (runFirst e refusal db)) payload =
      recordReply ((r.1.head?.map fun row => rowToJson printF64 row (selectedFields d none)).getD .null) := by
  simp only [mutate, hgate, mutateRow, hbuilt, bind, Except.bind, runFirst, runRows, hrun]
  rfl

theorem mutate_failed (h : Reflects e db ss) (hchanged : changed e idOf serdeError ss cache payload = none)
    (hreply : ∃ m, mutate printF64 serdeError (lookupDomain cache) (some (runFirst e refusal db)) payload =
      errorReply m) (hdb : mutated e serdeError db cache payload = db) :
    Replied e idOf printF64 serdeError ss sss (.mutate cache payload)
        (replyTo e printF64 serdeError refusal db dbs (.mutate cache payload)) ∧
      Reflects e (dataStep e serdeError db (.mutate cache payload))
        (recordStep e idOf serdeError ss (.mutate cache payload)) := by
  simp only [Replied, recordStep, hchanged, replyTo, dataStep, hdb]
  exact ⟨⟨_, rfl, hreply⟩, h⟩

theorem changed_gated (hgate : mutateGate serdeError (lookupDomain cache) payload = .ok (d, req)) :
    changed e idOf serdeError ss cache payload = (ss d.source).bind fun s =>
      (s.mutate e idOf d req.op req.set req.id).bind fun r => some (d, r.1, r.2) := by
  simp only [changed, hgate, Except.toOption, Option.bind_eq_bind, Option.bind_some]
  rfl

theorem changed_refused (hgate : mutateGate serdeError (lookupDomain cache) payload = .ok (d, req))
    (hnone : (ss d.source).bind (fun s => s.mutate e idOf d req.op req.set req.id) = none) :
    changed e idOf serdeError ss cache payload = none := by
  rw [changed_gated serdeError hgate]
  cases hs : ss d.source with
  | none => rfl
  | some s =>
    rw [hs, Option.bind_some] at hnone
    rw [Option.bind_some, hnone, Option.bind_none]

/-- The row that is sent back is the record that was written, as JSON. -/
theorem mutate_served (h : Reflects e db ss)
    (hgate : mutateGate serdeError (lookupDomain cache) payload = .ok (d, req))
    (hbuilt : buildMutate d req.op req.set req.id = .ok st) {r : List Sql.OutputRow × Database V}
    (hrun : e.run db st.1 st.2 = some r) {s : Records V} (hs : ss d.source = some s)
    (hagrees : Agrees e d db (some r) (s.mutate e idOf d req.op req.set req.id)) :
    Replied e idOf printF64 serdeError ss sss (.mutate cache payload)
        (replyTo e printF64 serdeError refusal db dbs (.mutate cache payload)) ∧
      Reflects e (dataStep e serdeError db (.mutate cache payload))
        (recordStep e idOf serdeError ss (.mutate cache payload)) := by
  obtain ⟨t', row, s', hput, hmutate, hmirrors, hhead⟩ := hagrees
  have hrow := mutate_ran printF64 serdeError refusal hgate hbuilt hrun
  have hmutated : mutated e serdeError db cache payload = r.2 := by
    simp only [mutated, hgate, hbuilt, hrun]
    rfl
  have hchanged : changed e idOf serdeError ss cache payload = _ := changed_gated serdeError hgate
  rw [hs, Option.bind_some, hmutate, Option.bind_some] at hchanged
  simp only [Replied, recordStep, hchanged, replyTo, dataStep, hmutated, hput]
  refine ⟨?_, h.put hmirrors⟩
  have houtputs : outputs d = ((selectedFields d none).map Prod.fst).map outputOf := by
    rw [outputs, show selectedFields d none = d.fields.map fun f => (f.name, f.fieldType) from rfl,
      List.map_map, List.map_map]
    rfl
  have hjson (r : Record V) : rowToJson printF64 (e.output (outputs d) r) (selectedFields d none) =
      recordJson e printF64 (selectedFields d none) r := by
    rw [houtputs]
    exact rowToJson_output printF64 _ r
  simp only [hrow, hhead, Option.map_map, Function.comp_def, hjson]

end Reply

/-- How a mutation comes out, and what it leaves behind. -/
theorem mutate_replied (he : e.Lawful idOf) (h : Reflects e db ss) {cache : List DomainDef}
    (hcache : ∀ d ∈ cache, Gql.Usable d) (payload : Json) :
    Replied e idOf printF64 serdeError ss sss (.mutate cache payload)
        (replyTo e printF64 serdeError refusal db dbs (.mutate cache payload)) ∧
      Reflects e (dataStep e serdeError db (.mutate cache payload))
        (recordStep e idOf serdeError ss (.mutate cache payload)) := by
  cases hgate : mutateGate serdeError (lookupDomain cache) payload with
  | error m =>
    refine mutate_failed _ _ _ h ?_ ⟨m, by simp only [mutate, hgate]⟩ (by simp only [mutated, hgate])
    simp only [changed, hgate, Except.toOption, Option.bind_eq_bind, Option.bind_none]
  | ok gated =>
    obtain ⟨d, req⟩ := gated
    have husable := hcache d (mutateGate_cached hgate)
    cases hbuilt : buildMutate d req.op req.set req.id with
    | error m =>
      refine mutate_failed _ _ _ h (changed_refused _ hgate ?_)
        ⟨m, mutate_unbuilt printF64 serdeError refusal hgate hbuilt⟩ (by simp only [mutated, hgate, hbuilt])
      cases ss d.source with
      | none => rfl
      | some s => exact mutate_of_error s hbuilt
    | ok st =>
      have hm := mutate_reflects he h husable hbuilt
      cases hrun : e.run db st.1 st.2 with
      | none =>
        rw [hrun] at hm
        refine mutate_failed _ _ _ h (changed_refused _ hgate hm)
          ⟨_, mutate_refused printF64 serdeError refusal hgate hbuilt hrun⟩ ?_
        simp only [mutated, hgate, hbuilt, hrun]
        rfl
      | some r =>
        rw [hrun] at hm
        obtain ⟨s, hs, hagrees⟩ := hm
        exact mutate_served _ _ _ h hgate hbuilt hrun hs hagrees

/-- The key leads. -/
theorem serial_tableColumns (d : DomainDef) : (tableColumns d).lookup idName = some serial := by
  have hlead : ∃ l, columnEntries d = none :: l := by
    unfold columnEntries
    cases d.fields.filter fun f => f.name = idName with
    | nil => exact ⟨_, rfl⟩
    | cons f ids => exact ⟨_, rfl⟩
  obtain ⟨l, hl⟩ := hlead
  rw [tableColumns, hl]
  exact List.lookup_cons_self

/-- What the creation of a table leaves behind. -/
theorem createTable_reflects (h : Reflects e db ss) (source : Text) :
    Reflects e (dataStep e serdeError db (.createTable source))
      (recordStep e idOf serdeError ss (.createTable source)) := by
  simp only [dataStep, withTable, recordStep]
  cases hparse : parseDomain source with
  | error m => exact h
  | ok d =>
    have hempty : Mirrors e (createdTable V d) (emptyRecords d) :=
      ⟨rfl, rfl, serial_tableColumns d, fun r hr => absurd hr List.not_mem_nil, fun n r hr => (by cases hr),
        List.nodup_nil⟩
    have hrel := h (tableName d)
    simp only [run_domainToDdl e (quotable_of_parseDomain hparse), Database.create]
    cases hdb : db (tableName d) with
    | some t =>
      cases hss : ss (tableName d) with
      | none =>
        rw [hdb, hss] at hrel
        cases hrel
      | some s => exact h
    | none =>
      cases hss : ss (tableName d) with
      | some s =>
        rw [hdb, hss] at hrel
        cases hrel
      | none =>
        by_cases hnodup : ((tableColumns d).map Prod.fst).Nodup
        · simp only [if_pos hnodup, Option.map_some, Option.getD_some]
          exact h.put hempty
        · simp only [if_neg hnodup, Option.map_none, Option.getD_none]
          exact h

theorem skipIds_reflects (h : Reflects e db ss) (table : Text) (count : Nat) :
    Reflects e (dataStep e serdeError db (.skipIds table count))
      (recordStep e idOf serdeError ss (.skipIds table count)) := by
  have hrel := h table
  simp only [dataStep, recordStep]
  cases hdb : db table with
  | none =>
    cases hss : ss table with
    | none => exact h
    | some s =>
      rw [hdb, hss] at hrel
      cases hrel
  | some t =>
    cases hss : ss table with
    | none =>
      rw [hdb, hss] at hrel
      cases hrel
    | some s =>
      rw [hdb, hss] at hrel
      have hs := Option.rel_some_some.mp hrel
      refine h.put ⟨hs.types, by simp only [hs.next], hs.serial, hs.row, fun n r hr => ?_, hs.ids⟩
      obtain ⟨hmem, hid, hlt⟩ := hs.record n r hr
      exact ⟨hmem, hid, by dsimp only; omega⟩

theorem step_reflects (he : e.Lawful idOf) (h : Reflects e db ss) (hlater : ∀ i, Reflects e (dbs i) (sss i))
    {ev : Event} (hev : ev.Usable) :
    Replied e idOf printF64 serdeError ss sss ev (replyTo e printF64 serdeError refusal db dbs ev) ∧
      Reflects e (dataStep e serdeError db ev) (recordStep e idOf serdeError ss ev) := by
  cases ev with
  | query cache payload => exact ⟨query_replied printF64 serdeError refusal he h hlater hev payload, h⟩
  | mutate cache payload => exact mutate_replied printF64 serdeError refusal he h hev payload
  | createTable source => exact ⟨rfl, createTable_reflects serdeError h source⟩
  | skipIds table count => exact ⟨rfl, skipIds_reflects serdeError h table count⟩

theorem run_reflects (he : e.Lawful idOf) {events : List Event} (h : Reflects e db ss)
    (hevents : ∀ ev ∈ events, ev.Usable) :
    Reflects e (run (dataStep e serdeError) db events) (run (recordStep e idOf serdeError) ss events) := by
  induction events generalizing db ss with
  | nil => exact h
  | cons ev events ih =>
    obtain ⟨hev, hevents⟩ := List.forall_mem_cons.mp hevents
    -- what is kept does not depend on how replies are printed
    exact ih (step_reflects (fun _ _ => []) serdeError (fun _ _ => []) he h (fun _ => h) hev).2 hevents

/-- Next to the records `s`: in the column, each record is the one of old, or it came later and has
what new records have. -/
structure Kept (e : Engine V) (c : Text) (s s' : Records V) : Prop where
  types : s'.types = s.types
  next : s.next ≤ s'.next
  record : ∀ n r', s'.record n = some r' → (∃ r, s.record n = some r ∧ r' c = r c) ∨
    (s.next ≤ n ∧ r' c = e.defaults s.types n c)

theorem Kept.refl (c : Text) (s : Records V) : Kept e c s s :=
  ⟨rfl, le_refl _, fun _ r hr => .inl ⟨r, hr, rfl⟩⟩

theorem Kept.trans {c : Text} {s s' s'' : Records V} (h : Kept e c s s') (h' : Kept e c s' s'') :
    Kept e c s s'' := by
  refine ⟨h'.types.trans h.types, h.next.trans h'.next, fun n r'' hr'' => ?_⟩
  obtain ⟨r', hr', heq⟩ | ⟨hn, heq⟩ := h'.record n r'' hr''
  · obtain ⟨r, hr, heq'⟩ | ⟨hn, heq'⟩ := h.record n r' hr'
    · exact .inl ⟨r, hr, heq.trans heq'⟩
    · exact .inr ⟨hn, heq.trans heq'⟩
  · exact .inr ⟨h.next.trans hn, by rw [heq, h.types]⟩

theorem mutate_kept {d : DomainDef} {s s' : Records V} {op : Text} {set : Dict Json} {id : Option Json}
    {row : Option (Record V)} (h : s.mutate e idOf d op set id = some (row, s')) {c : Text}
    (hc : ∀ f ∈ d.fields, f.name = c → isFixed f = true) : Kept e c s s' := by
  unfold Records.mutate at h
  split at h
  · cases h
  split at h
  · split at h
    · cases h
    · obtain ⟨vs, hvs, heq⟩ := Option.map_eq_some_iff.mp h
      have hother := fixed_not_assigned hvs hc
      obtain ⟨rfl, rfl⟩ := Prod.mk.inj heq
      refine ⟨rfl, Int.le_of_lt (Int.lt_succ _), fun n r hr => ?_⟩
      simp only at hr
      split at hr
      · rename_i hn
        cases hr
        exact .inr ⟨hn.ge, by rw [overlay_other hother, hn]⟩
      · exact .inl ⟨r, hr, rfl⟩
  split at h
  · split at h
    · cases h
    · obtain ⟨vs, hvs, h⟩ := Option.bind_eq_some_iff.mp h
      obtain ⟨v, -, h⟩ := Option.bind_eq_some_iff.mp h
      obtain ⟨key, -, h⟩ := Option.bind_eq_some_iff.mp h
      have hother := fixed_not_assigned hvs hc
      obtain ⟨rfl, rfl⟩ := Prod.mk.inj (Option.some.inj h)
      refine ⟨rfl, le_refl _, fun n r hr => .inl ?_⟩
      simp only at hr
      split at hr
      · obtain ⟨r₀, hr₀, rfl⟩ := Option.map_eq_some_iff.mp hr
        exact ⟨r₀, hr₀, overlay_other hother r₀⟩
      · exact ⟨r, hr, rfl⟩
  split at h
  · obtain ⟨v, -, h⟩ := Option.bind_eq_some_iff.mp h
    obtain ⟨key, -, h⟩ := Option.bind_eq_some_iff.mp h
    obtain ⟨rfl, rfl⟩ := Prod.mk.inj (Option.some.inj h)
    refine ⟨rfl, le_refl _, fun n r hr => .inl ?_⟩
    simp only at hr
    split at hr
    · cases hr
    · exact ⟨r, hr, rfl⟩
  · cases h

/-- A column that no domain over the table lets a request set. -/
def FixedIn (name c : Text) : Event → Prop
  | .mutate cache _ => ∀ d ∈ cache, d.source = name → ∀ f ∈ d.fields, f.name = c → isFixed f = true
  | _ => True

theorem step_kept {name c : Text} {s : Records V} (hs : ss name = some s) {ev : Event}
    (hfixed : FixedIn name c ev) :
    ∃ s', recordStep e idOf serdeError ss ev name = some s' ∧ Kept e c s s' := by
  have hsame : ss name = some s ∧ Kept e c s s := ⟨hs, Kept.refl c s⟩
  cases ev with
  | query cache payload => exact ⟨s, hsame⟩
  | mutate cache payload =>
    rw [recordStep]
    cases hchanged : changed e idOf serdeError ss cache payload with
    | none => exact ⟨s, hsame⟩
    | some r =>
      obtain ⟨⟨d, req⟩, hgate, h⟩ := Option.bind_eq_some_iff.mp hchanged
      obtain ⟨s₀, hs₀, h⟩ := Option.bind_eq_some_iff.mp h
      obtain ⟨⟨row, s'⟩, hmutate, h⟩ := Option.bind_eq_some_iff.mp h
      cases h
      dsimp only
      by_cases hname : name = d.source
      · have hd : d ∈ cache := by
          cases hok : mutateGate serdeError (lookupDomain cache) payload with
          | error m =>
            rw [hok] at hgate
            cases hgate
          | ok g =>
            rw [hok] at hgate
            cases hgate
            exact mutateGate_cached hok
        obtain rfl : s₀ = s := by
          rw [hname] at hs
          exact Option.some.inj (hs₀.symm.trans hs)
        exact ⟨s', if_pos hname, mutate_kept hmutate (hfixed d hd hname.symm)⟩
      · exact ⟨s, (if_neg hname).trans hs, Kept.refl c s⟩
  | createTable source =>
    rw [recordStep]
    cases parseDomain source with
    | error m => exact ⟨s, hsame⟩
    | ok d =>
      dsimp only
      cases hd : ss (tableName d) with
      | some s₀ => exact ⟨s, hsame⟩
      | none =>
        have hname : name ≠ tableName d := by
          rintro rfl
          rw [hs] at hd
          cases hd
        dsimp only
        by_cases hnodup : ((tableColumns d).map Prod.fst).Nodup
        · rw [if_pos hnodup]
          exact ⟨s, (if_neg hname).trans hs, Kept.refl c s⟩
        · rw [if_neg hnodup]
          exact ⟨s, hsame⟩
  | skipIds table count =>
    rw [recordStep]
    cases hs₀ : ss table with
    | none => exact ⟨s, hsame⟩
    | some s₀ =>
      dsimp only
      by_cases hname : name = table
      · obtain rfl : s₀ = s := by
          rw [hname] at hs
          exact Option.some.inj (hs₀.symm.trans hs)
        exact ⟨_, if_pos hname, rfl, by simp, fun n r hr => .inl ⟨r, hr, rfl⟩⟩
      · exact ⟨s, (if_neg hname).trans hs, Kept.refl c s⟩

theorem run_kept {name c : Text} {s : Records V} (hs : ss name = some s) {events : List Event}
    (hfixed : ∀ ev ∈ events, FixedIn name c ev) :
    ∃ s', run (recordStep e idOf serdeError) ss events name = some s' ∧ Kept e c s s' := by
  induction events generalizing ss s with
  | nil => exact ⟨s, hs, Kept.refl c s⟩
  | cons ev events ih =>
    obtain ⟨hev, hevents⟩ := List.forall_mem_cons.mp hfixed
    obtain ⟨s', hs', hkept⟩ := step_kept serdeError hs hev
    obtain ⟨s'', hs'', hkept'⟩ := ih hs' hevents
    exact ⟨s'', hs'', hkept.trans hkept'⟩

end Service

/-! A domain of notes. -/

/-- The notes again, with a list of them to choose from. -/
def shelfDomain : DomainDef :=
  { noteDomain with
    name := "shelf".toList
    metas := [⟨"notes".toList, "note".toList, idName, "title".toList, some "label".toList, none⟩] }

theorem noteFields_plain : ∀ f ∈ noteDomain.fields, Sql.PlainName f.name := by
  intro f hf
  simp only [noteDomain, List.mem_cons, List.not_mem_nil, or_false] at hf
  obtain rfl | rfl | rfl := hf
  · exact ⟨⟨'t', rfl, by decide⟩, by decide, by decide⟩
  · exact ⟨⟨'p', rfl, by decide⟩, by decide, by decide⟩
  · exact ⟨⟨'m', rfl, by decide⟩, by decide, by decide⟩

theorem noteDomain_usable : Usable noteDomain where
  source := ⟨⟨'n', rfl, by decide⟩, by decide, by decide⟩
  fields := noteFields_plain
  metas _ hm := absurd hm List.not_mem_nil
  distinct := by decide
  some := List.cons_ne_nil _ _

theorem shelfDomain_usable : Usable shelfDomain where
  source := noteDomain_usable.source
  fields := noteFields_plain
  metas m hm name hname := by
    obtain rfl := List.mem_singleton.mp hm
    simp only [metaNames, Option.toList_some, List.mem_cons, List.not_mem_nil, or_false] at hname
    obtain rfl | rfl | rfl | rfl := hname
    · exact noteDomain_usable.source
    · exact ⟨⟨'i', rfl, by decide⟩, by decide, by decide⟩
    · exact ⟨⟨'t', rfl, by decide⟩, by decide, by decide⟩
    · exact ⟨⟨'l', rfl, by decide⟩, by decide, by decide⟩
  distinct := noteDomain_usable.distinct
  some := noteDomain_usable.some

def noteCache : List DomainDef := [noteDomain, shelfDomain]

theorem noteCache_usable : ∀ d ∈ noteCache, Usable d := by
  intro d hd
  simp only [noteCache, List.mem_cons, List.not_mem_nil, or_false] at hd
  obtain rfl | rfl := hd
  · exact noteDomain_usable
  · exact shelfDomain_usable

def noteMutation (op : Text) (rest : List (Text × Json)) : Json :=
  .object ([("domain".toList, .string "note".toList), ("op".toList, .string op),
    ("role".toList, .string "clerk".toList)] ++ rest)

def insertNote (title : Text) (pages : Int) : Json :=
  noteMutation "insert".toList [("set".toList, .object [("title".toList, .string title),
    ("pages".toList, .number (.int pages))])]

def renameNote : Json :=
  noteMutation "update".toList [("set".toList, .object [("title".toList, .string "bread".toList),
    ("made".toList, .string "today".toList)]), ("id".toList, .number (.int 1))]

def shelfQuery : Json :=
  .object [("domain".toList, .string "shelf".toList),
    ("order".toList, .array [.object [("field".toList, .string "pages".toList)]]), ("withOptions".toList, .bool true)]

def noteEvents : List Event :=
  [.createTable noteSource, .mutate noteCache (insertNote "milk".toList 9), .skipIds "note".toList 2,
    .mutate noteCache (insertNote "tea".toList 10), .mutate noteCache renameNote, .query noteCache shelfQuery]

theorem noteEvents_usable : ∀ ev ∈ noteEvents, ev.Usable := by
  intro ev hev
  simp only [noteEvents, List.mem_cons, List.not_mem_nil, or_false] at hev
  obtain rfl | rfl | rfl | rfl | rfl | rfl := hev
  case inl | inr.inr.inl => trivial
  all_goals exact noteCache_usable

theorem reflects_nothing : Reflects cellEngine (fun _ => none) (fun _ => none) := fun _ => .none

/-- Numbers that are sent come in the order of their texts, and what is read-only stays NULL,
whatever is sent for it. -/
example :
    let db := run (dataStep cellEngine fun _ => []) (fun _ => none) noteEvents
    (replyTo cellEngine (fun _ _ => []) (fun _ => []) (fun _ _ => []) db (fun _ => db)
      (.query noteCache shelfQuery)).map Json.print =
    some ("\x7b\"options\":\x7b\"notes\":[\x7b\"label\":\"bread\",\"value\":\"1\"\x7d,".toList ++
      "\x7b\"label\":\"tea\",\"value\":\"4\"\x7d]\x7d,\"rows\":[".toList ++
      "\x7b\"made\":null,\"pages\":10,\"title\":\"tea\"\x7d,".toList ++
      "\x7b\"made\":null,\"pages\":9,\"title\":\"bread\"\x7d]\x7d".toList) := by
  decide +kernel

/-- The tables after the first note. -/
def noteTables : Database Cell := run (dataStep cellEngine fun _ => []) (fun _ => none) (noteEvents.take 2)

end Onisin.Gql
