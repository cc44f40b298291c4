import Onisin.Ai.Chunks
import Onisin.Lib.Dict

/-!
Boot reconciliation: every source row is embedded again, then the chunks whose key no row of
this pass declared are pruned. A row's name is noted before it is embedded, so a failing
embedding protects its chunk; a row that does not parse notes no name at all.
-/

set_option autoImplicit false

namespace Onisin.Ai
open Lib

section Reconcile
variable {Vec : Type}

/-- The schema table: chunk and vector under the name they were embedded for. -/
abbrev Schema (Vec : Type) := Dict (Text × Vec)

/-- What the services answer in one pass, for each row by its id and for each key to delete. -/
structure Services (Vec : Type) where
  embed : Text → Text → Option Vec
  upsert : Text → Bool
  delete : Text → Bool

/-- The name and the chunk of a row, if it has any. -/
abbrev Plan := Text × Text → Option (Text × Text)

structure Backfill (Vec : Type) where
  schema : Schema Vec
  sourceKeys : List Text
  embedded : Nat

structure BackfillCount where
  embedded : Nat
  pruned : Nat
  deriving DecidableEq, Repr

def embedRow (plan : Plan) (svc : Services Vec) (b : Backfill Vec) (row : Text × Text) : Backfill Vec :=
  match plan row with
  | none => b
  | some (name, chunk) =>
    let noted := { b with sourceKeys := name :: b.sourceKeys }
    match svc.embed row.1 chunk with
    | none => noted
    | some vec =>
      if svc.upsert row.1 then
        { noted with schema := b.schema.insert name (chunk, vec), embedded := b.embedded + 1 }
      else noted

/-- The listed keys that no row declared are deleted one by one; a failing delete ends it. -/
def prune (svc : Services Vec) (sourceKeys : List Text) :
    List Text → Schema Vec → Nat → Schema Vec × Option Nat
  | [], schema, pruned => (schema, some pruned)
  | key :: keys, schema, pruned =>
    if sourceKeys.contains key then prune svc sourceKeys keys schema pruned
    else if svc.delete key then
      prune svc sourceKeys keys (schema.filter fun e => e.1 ≠ key) (pruned + 1)
    else (schema, none)

def embedRows (plan : Plan) (svc : Services Vec) (rows : List (Text × Text)) (schema : Schema Vec) :
    Backfill Vec :=
  rows.foldl (embedRow plan svc) ⟨schema, [], 0⟩

def reconcile (plan : Plan) (svc : Services Vec) (rows : List (Text × Text)) (schema : Schema Vec) :
    Schema Vec × Option BackfillCount :=
  let b := embedRows plan svc rows schema
  let (schema, pruned) := prune svc b.sourceKeys (b.schema.map Prod.fst) b.schema 0
  (schema, pruned.map (⟨b.embedded, ·⟩))

/-! What belongs to a row. -/

def Plan.declared (plan : Plan) (row : Text × Text) : Option Text := (plan row).map Prod.fst

/-- The pass embedded the row and stored its chunk. -/
def refreshed (plan : Plan) (svc : Services Vec) (row : Text × Text) : Bool :=
  (plan row).any fun e => (svc.embed row.1 e.2).isSome && svc.upsert row.1

/-- The name under which the row was last embedded: in this pass, or before it. -/
def lastEmbedded (plan : Plan) (svc : Services Vec) (last : Text → Option Text) (row : Text × Text) :
    Option Text :=
  if refreshed plan svc row then plan.declared row else last row.1

/-- No chunk is pruned that belongs to a row which is still there: those that are there when the
rows are through are there `after` the pass. -/
def KeepsBelonging (plan : Plan) (svc : Services Vec) (rows : List (Text × Text)) (schema : Schema Vec)
    (last : Text → Option Text) (after : Schema Vec) : Prop :=
  ∀ row ∈ rows, ∀ name, lastEmbedded plan svc last row = some name →
    ((embedRows plan svc rows schema).schema.lookup name).isSome → (after.lookup name).isSome

/-- A row that the pass does not refresh has no chunk from before, or a row declares its name. -/
def Declares (plan : Plan) (svc : Services Vec) (rows : List (Text × Text)) (schema : Schema Vec)
    (last : Text → Option Text) : Prop :=
  ∀ row ∈ rows, refreshed plan svc row = false → ∀ name, last row.1 = some name →
    (schema.lookup name).isSome → ∃ other ∈ rows, plan.declared other = some name

variable {plan : Plan} {svc : Services Vec} {b : Backfill Vec} {rows : List (Text × Text)}
  {schema : Schema Vec} {last : Text → Option Text} {name : Text}

/-! One row. -/

theorem embedRow_sourceKeys (row : Text × Text) :
    name ∈ (embedRow plan svc b row).sourceKeys ↔
      name ∈ b.sourceKeys ∨ plan.declared row = some name := by
  unfold embedRow Plan.declared
  cases hp : plan row with
  | none => simp
  | some e =>
    have hmem : name ∈ e.1 :: b.sourceKeys ↔ name ∈ b.sourceKeys ∨ some e.1 = some name := by
      simp [or_comm, eq_comm]
    cases he : svc.embed row.1 e.2 with
    | none => simpa [he] using hmem
    | some vec =>
      by_cases hu : svc.upsert row.1 = true
      · simpa [he, hu] using hmem
      · simpa [he, hu] using hmem

/-- A row adds the chunk of its name and leaves the others. -/
theorem embedRow_schema (row : Text × Text) :
    ((embedRow plan svc b row).schema.lookup name).isSome ↔
      (b.schema.lookup name).isSome ∨
        refreshed plan svc row = true ∧ plan.declared row = some name := by
  unfold embedRow refreshed Plan.declared
  cases hp : plan row with
  | none => simp
  | some e =>
    cases he : svc.embed row.1 e.2 with
    | none => simp [he]
    | some vec =>
      by_cases hu : svc.upsert row.1 = true
      · simp only [he, hu, if_true, Dict.lookup_insert]
        by_cases hn : name = e.1
        · simp [hn, he]
        · simp [hn, Ne.symm hn]
      · simp [he, hu]

/-! All rows. -/

theorem mem_sourceKeys (rows : List (Text × Text)) (b : Backfill Vec) :
    name ∈ (rows.foldl (embedRow plan svc) b).sourceKeys ↔
      name ∈ b.sourceKeys ∨ ∃ row ∈ rows, plan.declared row = some name := by
  induction rows generalizing b with
  | nil => simp
  | cons row rows ih =>
    rw [List.foldl_cons, ih, embedRow_sourceKeys, List.exists_mem_cons_iff, or_assoc]

theorem mem_schema (rows : List (Text × Text)) (b : Backfill Vec) :
    ((rows.foldl (embedRow plan svc) b).schema.lookup name).isSome ↔
      (b.schema.lookup name).isSome ∨
        ∃ row ∈ rows, refreshed plan svc row = true ∧ plan.declared row = some name := by
  induction rows generalizing b with
  | nil => simp
  | cons row rows ih =>
    rw [List.foldl_cons, ih, embedRow_schema, List.exists_mem_cons_iff, or_assoc]

/-! Pruning. -/

theorem prune_protected {sourceKeys keys : List Text} {pruned : Nat} (h : name ∈ sourceKeys)
    (hs : (schema.lookup name).isSome) :
    ((prune svc sourceKeys keys schema pruned).1.lookup name).isSome := by
  induction keys generalizing schema pruned with
  | nil => exact hs
  | cons key keys ih =>
    rw [prune]
    split
    · exact ih hs
    · rename_i hkey
      split
      · have hne : name ≠ key := by
          rintro rfl
          exact hkey (List.contains_iff_mem.mpr h)
        exact ih (by rwa [Dict.lookup_filter_ne hne])
      · exact hs

theorem lookup_deleted (schema : Schema Vec) (key : Text) :
    (schema.filter fun e => e.1 ≠ key).lookup key = none := by
  rw [← Option.not_isSome_iff_eq_none, Dict.lookup_isSome_iff]
  intro hmem
  obtain ⟨e, he, rfl⟩ := List.mem_map.mp hmem
  simpa using (List.mem_filter.mp he).2

/-- Nothing that is gone comes back. -/
theorem prune_gone {sourceKeys keys : List Text} {pruned : Nat} (hs : schema.lookup name = none) :
    (prune svc sourceKeys keys schema pruned).1.lookup name = none := by
  induction keys generalizing schema pruned with
  | nil => exact hs
  | cons key keys ih =>
    rw [prune]
    split
    · exact ih hs
    · split
      · refine ih ?_
        by_cases hname : name = key
        · rw [hname]
          exact lookup_deleted schema key
        · rwa [Dict.lookup_filter_ne hname]
      · exact hs

theorem prune_unprotected (hdelete : ∀ key, svc.delete key = true) {sourceKeys keys : List Text}
    {pruned : Nat} (h : name ∉ sourceKeys) (hkey : name ∈ keys) :
    (prune svc sourceKeys keys schema pruned).1.lookup name = none := by
  induction keys generalizing schema pruned with
  | nil => cases hkey
  | cons key keys ih =>
    rw [prune]
    split
    · rename_i hprot
      have hne : name ≠ key := by
        rintro rfl
        exact h (List.contains_iff_mem.mp hprot)
      exact ih (List.mem_of_ne_of_mem hne hkey)
    · rw [if_pos (hdelete key)]
      by_cases hname : name = key
      · rw [hname]
        exact prune_gone (lookup_deleted schema key)
      · exact ih (List.mem_of_ne_of_mem hname hkey)

/-! The whole pass. -/

theorem reconcile_fst (rows : List (Text × Text)) (schema : Schema Vec) :
    (reconcile plan svc rows schema).1 =
      (prune svc (embedRows plan svc rows schema).sourceKeys
        ((embedRows plan svc rows schema).schema.map Prod.fst)
        (embedRows plan svc rows schema).schema 0).1 := rfl

/-- Every name that a row declares keeps the chunk it has. -/
theorem keeps_declared {row : Text × Text} (hrow : row ∈ rows) (hname : plan.declared row = some name)
    (hs : ((embedRows plan svc rows schema).schema.lookup name).isSome) :
    ((reconcile plan svc rows schema).1.lookup name).isSome := by
  rw [reconcile_fst]
  exact prune_protected ((mem_sourceKeys rows _).mpr (Or.inr ⟨row, hrow, hname⟩)) hs

theorem keepsBelonging_of_declares (h : Declares plan svc rows schema last) :
    KeepsBelonging plan svc rows schema last (reconcile plan svc rows schema).1 := by
  intro row hrow name hname hs
  unfold lastEmbedded at hname
  split at hname
  · exact keeps_declared hrow hname hs
  · rename_i hstale
    -- the chunk is from before the pass, or some row has just stored it
    rcases (mem_schema rows _).mp hs with hbefore | ⟨other, hother, -, hdecl⟩
    · obtain ⟨other, hother, hdecl⟩ := h row hrow (by simpa using hstale) name hname hbefore
      exact keeps_declared hother hdecl hs
    · exact keeps_declared hother hdecl hs

theorem declares_of_keepsBelonging (hdelete : ∀ key, svc.delete key = true)
    (h : KeepsBelonging plan svc rows schema last (reconcile plan svc rows schema).1) :
    Declares plan svc rows schema last := by
  intro row hrow hstale name hname hs
  by_contra hno
  have hpresent : ((embedRows plan svc rows schema).schema.lookup name).isSome :=
    (mem_schema rows _).mpr (Or.inl hs)
  have hunprotected : name ∉ (embedRows plan svc rows schema).sourceKeys := by
    intro hmem
    rcases (mem_sourceKeys rows _).mp hmem with hnil | hdecl
    · cases hnil
    · exact hno hdecl
  have hkept := h row hrow name (by rw [lastEmbedded, if_neg (by simp [hstale]), hname]) hpresent
  rw [reconcile_fst,
    prune_unprotected hdelete hunprotected (Dict.lookup_isSome_iff.mp hpresent)] at hkept
  cases hkept

end Reconcile

/-! The three passes of a boot. -/

section Passes
variable {Vec : Type} (renderLlmChunk : Domain.DomainDef → Text)

/-- The name and the chunk of a source that parses. -/
def Kind.plan {Def : Type} (k : Kind Def) : Plan := fun row =>
  (k.parse row.2).map fun d => (k.name d, k.render d row.2)

def runDomains (svc : Services Vec) (rows : List (Text × Text)) (schema : Schema Vec) :
    Schema Vec × Option BackfillCount :=
  reconcile (domainKind renderLlmChunk).plan svc rows schema

def runViews (svc : Services Vec) (rows : List (Text × Text)) (schema : Schema Vec) :
    Schema Vec × Option BackfillCount :=
  reconcile viewKind.plan svc rows schema

/-- A prompt is embedded as it stands, under its row's own key. -/
def promptPlan : Plan := fun row => some row

def runGlobal (svc : Services Vec) (rows : List (Text × Text)) (schema : Schema Vec) :
    Schema Vec × Option BackfillCount :=
  reconcile promptPlan svc (rows.filter fun row => ¬ "locale.".toList <+: row.1) schema

/-- Prompts declare their name whatever happens to them, so none loses its chunk. -/
theorem runGlobal_keeps (svc : Services Vec) (rows : List (Text × Text)) (schema : Schema Vec)
    {row : Text × Text} (hrow : row ∈ rows) (hlocale : ¬ "locale.".toList <+: row.1)
    (hs : (schema.lookup row.1).isSome) : ((runGlobal svc rows schema).1.lookup row.1).isSome := by
  have hmem : row ∈ rows.filter fun row => ¬ "locale.".toList <+: row.1 :=
    List.mem_filter.mpr ⟨hrow, decide_eq_true hlocale⟩
  exact keeps_declared hmem rfl ((mem_schema _ _).mpr (Or.inl hs))

/-- A boot spares the chunks of the rows that are there when the name of every row that is not
refreshed is declared by one that parses, and only then unless a delete fails. -/
theorem boot_keeps_belonging_iff (svc : Services Vec) (rows : List (Text × Text)) (schema : Schema Vec)
    (last : Text → Option Text) :
    ((Declares (domainKind renderLlmChunk).plan svc rows schema last →
        KeepsBelonging (domainKind renderLlmChunk).plan svc rows schema last
          (runDomains renderLlmChunk svc rows schema).1) ∧
      ((∀ key, svc.delete key = true) →
        (KeepsBelonging (domainKind renderLlmChunk).plan svc rows schema last
            (runDomains renderLlmChunk svc rows schema).1 ↔
          Declares (domainKind renderLlmChunk).plan svc rows schema last))) ∧
    (Declares viewKind.plan svc rows schema last →
        KeepsBelonging viewKind.plan svc rows schema last (runViews svc rows schema).1) ∧
      ((∀ key, svc.delete key = true) →
        (KeepsBelonging viewKind.plan svc rows schema last (runViews svc rows schema).1 ↔
          Declares viewKind.plan svc rows schema last)) :=
  ⟨⟨keepsBelonging_of_declares,
    fun hdelete => ⟨declares_of_keepsBelonging hdelete, keepsBelonging_of_declares⟩⟩,
    keepsBelonging_of_declares,
    fun hdelete => ⟨declares_of_keepsBelonging hdelete, keepsBelonging_of_declares⟩⟩

def allAnswer : Services Unit := ⟨fun _ _ => some (), fun _ => true, fun _ => true⟩

/-- A source in the middle of an edit. -/
def cutSource : Text := "domain book from".toList

theorem cutSource_broken (render : Domain.DomainDef → Text) :
    (domainKind render).plan ("b1".toList, cutSource) = none := by
  have hparse : (Domain.parseDomain cutSource).toOption = none := by decide
  show (Domain.parseDomain cutSource).toOption.map _ = none
  rw [hparse]
  rfl

/-- A domain embedded as `book` whose source is cut off loses its chunk at the next boot, whatever
the chunks say. -/
theorem boot_prunes_broken_row :
    ¬ ∃ render : Domain.DomainDef → Text,
      KeepsBelonging (domainKind render).plan allAnswer [("b1".toList, cutSource)]
        [("book".toList, ("chunk".toList, ()))] (fun _ => some "book".toList)
        (runDomains render allAnswer [("b1".toList, cutSource)]
          [("book".toList, ("chunk".toList, ()))]).1 := by
  rintro ⟨render, h⟩
  have hdecl := declares_of_keepsBelonging (fun _ => rfl) h
  have hbroken := cutSource_broken render
  obtain ⟨other, hother, hname⟩ := hdecl _ (List.mem_singleton.mpr rfl)
    (by rw [refreshed, hbroken]; rfl) "book".toList rfl rfl
  rw [List.mem_singleton.mp hother, Plan.declared, hbroken] at hname
  cases hname

end Passes

end Onisin.Ai
