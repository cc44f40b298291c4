import Onisin.Lib.Dependencies
import Onisin.Lib.Text

/-!
The rules of a pipeline that its grammar does not express: which names a step may read, what the
mode and the output ask for, and that names are not used twice.
-/

set_option autoImplicit false

namespace Onisin.Pipeline
open Lib

inductive PipelineMode where
  | context
  | mass
  deriving DecidableEq, Repr

inductive SourceKind where
  | db
  | docs
  deriving DecidableEq, Repr

structure Source where
  kind : SourceKind
  name : Text
  deriving DecidableEq, Repr

inductive Step where
  | where_ (name source : Text)
  | semantic (name source : Text) (queries : List Text)
  | llm (name source : Text) (input : Option Text)
  deriving DecidableEq, Repr

def Step.name : Step → Text
  | .where_ name _ => name
  | .semantic name _ _ => name
  | .llm name _ _ => name

inductive OutTarget where
  | editor
  | nats
  | file
  deriving DecidableEq, Repr

structure OutDef where
  target : OutTarget
  subject : Option Text
  deriving DecidableEq, Repr

structure PipelineDef where
  sources : List Source
  mode : PipelineMode
  embedding : Option Text
  steps : List Step
  out : OutDef
  deriving DecidableEq, Repr

inductive Severity where
  | error
  | warning
  deriving DecidableEq, Repr

structure PipelineDiagnostic where
  severity : Severity
  message : Text
  ref : Option Text
  deriving DecidableEq, Repr

/-- An optional text that is there and not empty. -/
def present (t : Option Text) : Bool := t.any (! ·.isEmpty)

def PipelineDef.docSources (d : PipelineDef) : List Text :=
  (d.sources.filter (·.kind = .docs)).map Source.name

def PipelineDef.dbSources (d : PipelineDef) : List Text :=
  (d.sources.filter (·.kind = .db)).map Source.name

def PipelineDef.sourceNames (d : PipelineDef) : List Text := d.sources.map Source.name

def PipelineDef.stepNames (d : PipelineDef) : List Text := d.steps.map Step.name

/-- The index of the first step of a name. -/
def PipelineDef.stepIndex (d : PipelineDef) (n : Text) : Option Nat := d.steps.findIdx? (·.name = n)

def Step.isSemantic : Step → Bool
  | .semantic .. => true
  | _ => false

def plainError (message : String) : PipelineDiagnostic := ⟨.error, message.toList, none⟩

def stepError (name message : Text) : PipelineDiagnostic :=
  ⟨.error, "Step \"".toList ++ name ++ "\": ".toList ++ message, some name⟩

def modeDiags (d : PipelineDef) : List PipelineDiagnostic :=
  if d.mode = .mass ∧ d.steps.filter Step.isSemantic = [] then
    [plainError ("Pipeline mode \"mass\" requires at least one semantic step " ++
      "for vector pre-selection.")]
  else []

def outDiags (d : PipelineDef) : List PipelineDiagnostic :=
  if d.out.target = .nats ∧ present d.out.subject = false then
    [plainError "Output target \"nats\" requires a subject."]
  else []

/-- What is said about a source that is not read directly; `known` names what it could be. -/
def stepSourceDiags (d : PipelineDef) (i : Nat) (name source : Text) (known : String) :
    List PipelineDiagnostic :=
  match d.stepIndex source with
  | none =>
    [stepError name ("source \"".toList ++ source ++ "\" is not a known step or ".toList ++ known.toList)]
  | some j =>
    if i ≤ j then
      [stepError name ("source \"".toList ++ source ++ "\" must be a preceding step.".toList)]
    else []

def semanticSourceDiags (d : PipelineDef) (i : Nat) (name source : Text) : List PipelineDiagnostic :=
  if d.docSources.contains source then
    [stepError name "semantic steps operate on a db vector column, not a docs source.".toList]
  else if d.dbSources.contains source then []
  else stepSourceDiags d i name source "db source."

def embeddingDiags (d : PipelineDef) (name : Text) : List PipelineDiagnostic :=
  if present d.embedding = false then
    [stepError name "semantic steps require an embedding model declaration.".toList]
  else []

def queryDiags (name : Text) (queries : List Text) : List PipelineDiagnostic :=
  if queries = [] then [stepError name "at least one query is required.".toList] else []

def whereDiags (d : PipelineDef) (name source : Text) : List PipelineDiagnostic :=
  if d.dbSources.contains source then []
  else [stepError name "where steps may only reference a db source.".toList]

def llmSourceDiags (d : PipelineDef) (i : Nat) (name source : Text) : List PipelineDiagnostic :=
  if d.sourceNames.contains source then [] else stepSourceDiags d i name source "source."

def inputDiags (d : PipelineDef) (i : Nat) (name : Text) : Option Text → List PipelineDiagnostic
  | none => []
  | some input =>
    if d.stepNames.contains input = false then
      [stepError name ("input \"".toList ++ input ++ "\" references an unknown step.".toList)]
    else if input = name then [stepError name "input must not reference itself.".toList]
    else if (d.stepIndex input).any (i ≤ ·) then
      [stepError name ("input \"".toList ++ input ++ "\" must be a preceding step.".toList)]
    else []

def stepDiags (d : PipelineDef) (i : Nat) : Step → List PipelineDiagnostic
  | .semantic name source queries =>
    semanticSourceDiags d i name source ++ embeddingDiags d name ++ queryDiags name queries
  | .where_ name source => whereDiags d name source
  | .llm name source input => llmSourceDiags d i name source ++ inputDiags d i name input

/-- One diagnostic for each name that has been seen before. -/
def duplicateDiags (what : String) : List Text → List Text → List PipelineDiagnostic
  | _, [] => []
  | seen, n :: rest =>
    (if seen.contains n then
      [⟨.error, "Duplicate ".toList ++ what.toList ++ " name \"".toList ++ n ++ "\".".toList, some n⟩]
    else []) ++ duplicateDiags what (n :: seen) rest

def validatePipeline (d : PipelineDef) : List PipelineDiagnostic :=
  modeDiags d ++ outDiags d ++ d.steps.zipIdx.flatMap (fun s => stepDiags d s.2 s.1) ++
    duplicateDiags "source" [] d.sourceNames ++ duplicateDiags "step" [] d.stepNames

/-! What each part says nothing about. -/

theorem stepIndex_none {d : PipelineDef} {n : Text} : d.stepIndex n = none ↔ n ∉ d.stepNames := by
  rw [PipelineDef.stepIndex, List.findIdx?_eq_none_iff, PipelineDef.stepNames, List.mem_map]
  simp

/-- The first step of a name is an earlier one if and only if any is. -/
theorem stepIndex_earlier {d : PipelineDef} {n : Text} {i : Nat} :
    (∃ j, d.stepIndex n = some j ∧ j < i) ↔ Earlier Step.name d.steps i n := by
  constructor
  · rintro ⟨j, hj, hlt⟩
    obtain ⟨hlen, hname, -⟩ := List.findIdx?_eq_some_iff_getElem.mp hj
    exact ⟨j, d.steps[j], hlt, List.getElem?_eq_getElem hlen, by simpa using hname⟩
  · rintro ⟨j, s, hlt, hs, hname⟩
    obtain ⟨hlen, rfl⟩ := List.getElem?_eq_some_iff.mp hs
    cases hfirst : d.stepIndex n with
    | none =>
      refine absurd ?_ (stepIndex_none.mp hfirst)
      exact hname ▸ List.mem_map_of_mem (List.getElem_mem hlen)
    | some k =>
      obtain ⟨hk, -, hmin⟩ := List.findIdx?_eq_some_iff_getElem.mp hfirst
      refine ⟨k, rfl, ?_⟩
      by_contra hle
      have hjk := hmin j (by omega)
      simp [hname] at hjk

theorem stepSourceDiags_nil {d : PipelineDef} {i : Nat} {name source : Text} {known : String} :
    stepSourceDiags d i name source known = [] ↔ Earlier Step.name d.steps i source := by
  rw [← stepIndex_earlier, stepSourceDiags]
  cases hfirst : d.stepIndex source with
  | none =>
    refine ⟨fun h => absurd h (List.cons_ne_nil _ _), ?_⟩
    rintro ⟨j, hj, -⟩
    cases hj
  | some j =>
    dsimp only
    split
    · refine ⟨fun h => absurd h (List.cons_ne_nil _ _), ?_⟩
      rintro ⟨k, hk, hlt⟩
      cases hk
      omega
    · exact ⟨fun _ => ⟨j, rfl, by omega⟩, fun _ => rfl⟩

/-- A step of the same name is the step itself. -/
theorem Earlier.ne_name {d : PipelineDef} (hnames : d.stepNames.Nodup) {i : Nat} {s : Step}
    (hs : d.steps[i]? = some s) {n : Text} (h : Earlier Step.name d.steps i n) : n ≠ s.name := by
  rintro rfl
  obtain ⟨j, t, hlt, ht, hsame⟩ := h
  have hi : d.stepNames[i]? = some s.name := by
    rw [PipelineDef.stepNames, List.getElem?_map, hs]
    rfl
  have hj : d.stepNames[j]? = some s.name := by
    rw [PipelineDef.stepNames, List.getElem?_map, ht, Option.map_some, hsame]
  have hij : i = j :=
    (List.getElem?_inj (List.getElem?_eq_some_iff.mp hi).1 hnames).mp (hi.trans hj.symm)
  omega

theorem inputDiags_nil {d : PipelineDef} {i : Nat} {s : Step} (hs : d.steps[i]? = some s)
    (hnames : d.stepNames.Nodup) {input : Option Text} :
    inputDiags d i s.name input = [] ↔ ∀ n ∈ input, Earlier Step.name d.steps i n := by
  cases input with
  | none => exact ⟨fun _ n hn => (by cases hn), fun _ => rfl⟩
  | some n =>
    have hgoal : (∀ m ∈ some n, Earlier Step.name d.steps i m) ↔ Earlier Step.name d.steps i n :=
      ⟨fun h => h n rfl, fun h m hm => Option.some.inj hm ▸ h⟩
    rw [hgoal, inputDiags]
    cases hfirst : d.stepIndex n with
    | none =>
      have hunknown : d.stepNames.contains n = false := by
        rw [List.contains_eq_mem, decide_eq_false (stepIndex_none.mp hfirst)]
      rw [if_pos hunknown]
      refine ⟨fun h => absurd h (List.cons_ne_nil _ _), fun h => ?_⟩
      obtain ⟨j, hj, -⟩ := stepIndex_earlier.mpr h
      rw [hfirst] at hj
      cases hj
    | some j =>
      have hknown : ¬ d.stepNames.contains n = false := by
        intro h
        rw [List.contains_eq_mem, decide_eq_false_iff_not] at h
        rw [stepIndex_none.mpr h] at hfirst
        cases hfirst
      rw [if_neg hknown]
      constructor
      · intro h
        split at h
        · exact absurd h (List.cons_ne_nil _ _)
        · split at h
          · exact absurd h (List.cons_ne_nil _ _)
          · next hlate =>
            have hlt : ¬ i ≤ j := by simpa using hlate
            exact stepIndex_earlier.mp ⟨j, hfirst, by omega⟩
      · intro h
        obtain ⟨k, hk, hlt⟩ := stepIndex_earlier.mpr h
        obtain rfl := Option.some.inj (hfirst.symm.trans hk)
        have hlate : ¬ (some j).any (i ≤ ·) = true := by simpa using hlt
        rw [if_neg (Earlier.ne_name hnames hs h), if_neg hlate]

theorem duplicateDiags_nil {what : String} {seen names : List Text} :
    duplicateDiags what seen names = [] ↔ names.Nodup ∧ ∀ n ∈ names, n ∉ seen := by
  induction names generalizing seen with
  | nil => exact ⟨fun _ => ⟨List.nodup_nil, fun n hn => (by cases hn)⟩, fun _ => rfl⟩
  | cons n rest ih =>
    rw [duplicateDiags, List.append_eq_nil_iff, ih, List.nodup_cons, List.forall_mem_cons]
    by_cases h : n ∈ seen
    · rw [if_pos (List.elem_eq_true_of_mem h)]
      exact ⟨fun hdiag => absurd hdiag.1 (List.cons_ne_nil _ _), fun hnew => absurd h hnew.2.1⟩
    · have hnew : ¬ seen.contains n = true := by rwa [List.contains_iff_mem]
      rw [if_neg hnew]
      constructor
      · rintro ⟨-, hnodup, hrest⟩
        refine ⟨⟨fun hn => hrest n hn List.mem_cons_self, hnodup⟩, h, fun m hm hseen => ?_⟩
        exact hrest m hm (List.mem_cons_of_mem _ hseen)
      · rintro ⟨⟨hn, hnodup⟩, -, hrest⟩
        refine ⟨rfl, hnodup, fun m hm hseen => ?_⟩
        obtain rfl | hseen := List.mem_cons.mp hseen
        · exact hn hm
        · exact hrest m hm hseen

/-! All that is said is an error. -/

def AllErrors (gs : List PipelineDiagnostic) : Prop := ∀ g ∈ gs, g.severity = .error

theorem allErrors_nil : AllErrors [] := fun _ h => by cases h

theorem allErrors_plain (message : String) : AllErrors [plainError message] :=
  fun _ h => List.mem_singleton.mp h ▸ rfl

theorem allErrors_step (name message : Text) : AllErrors [stepError name message] :=
  fun _ h => List.mem_singleton.mp h ▸ rfl

theorem AllErrors.append {gs gs' : List PipelineDiagnostic} (h : AllErrors gs) (h' : AllErrors gs') :
    AllErrors (gs ++ gs') :=
  fun g hg => (List.mem_append.mp hg).elim (h g) (h' g)

theorem AllErrors.ite {p : Prop} [Decidable p] {gs gs' : List PipelineDiagnostic} (h : AllErrors gs)
    (h' : AllErrors gs') : AllErrors (if p then gs else gs') := by
  split
  · exact h
  · exact h'

theorem stepSourceDiags_errors (d : PipelineDef) (i : Nat) (name source : Text) (known : String) :
    AllErrors (stepSourceDiags d i name source known) := by
  rw [stepSourceDiags]
  split
  · exact allErrors_step _ _
  · exact .ite (allErrors_step _ _) allErrors_nil

theorem stepDiags_errors (d : PipelineDef) (i : Nat) (s : Step) : AllErrors (stepDiags d i s) := by
  cases s with
  | where_ name source => exact .ite allErrors_nil (allErrors_step _ _)
  | semantic name source queries =>
    refine .append (.append ?_ (.ite (allErrors_step _ _) allErrors_nil)) (.ite (allErrors_step _ _) allErrors_nil)
    exact .ite (allErrors_step _ _) (.ite allErrors_nil (stepSourceDiags_errors _ _ _ _ _))
  | llm name source input =>
    refine .append (.ite allErrors_nil (stepSourceDiags_errors _ _ _ _ _)) ?_
    cases input with
    | none => exact allErrors_nil
    | some n =>
      exact .ite (allErrors_step _ _) (.ite (allErrors_step _ _) (.ite (allErrors_step _ _) allErrors_nil))

theorem duplicateDiags_errors (what : String) (seen names : List Text) :
    AllErrors (duplicateDiags what seen names) := by
  induction names generalizing seen with
  | nil => exact allErrors_nil
  | cons n rest ih => exact .append (.ite (fun _ h => List.mem_singleton.mp h ▸ rfl) allErrors_nil) (ih _)

theorem validatePipeline_errors (d : PipelineDef) : AllErrors (validatePipeline d) := by
  refine .append (.append (.append (.append ?_ ?_) ?_) (duplicateDiags_errors _ _ _))
    (duplicateDiags_errors _ _ _)
  · exact .ite (allErrors_plain _) allErrors_nil
  · exact .ite (allErrors_plain _) allErrors_nil
  · intro g hg
    obtain ⟨s, -, hg⟩ := List.mem_flatMap.mp hg
    exact stepDiags_errors d s.2 s.1 g hg

/-! What the rules ask for. -/

def PipelineDef.IsSource (d : PipelineDef) (n : Text) : Prop := ∃ s ∈ d.sources, s.name = n

def PipelineDef.IsSourceOf (d : PipelineDef) (kind : SourceKind) (n : Text) : Prop :=
  ∃ s ∈ d.sources, s.kind = kind ∧ s.name = n

/-- Something is declared, and it is not the empty text. -/
def Declared (t : Option Text) : Prop := ∃ m, t = some m ∧ m ≠ []

/-- What the `i`-th step may read and must have. -/
def StepOk (d : PipelineDef) (i : Nat) : Step → Prop
  | .where_ _ source => d.IsSourceOf .db source
  | .semantic _ source queries =>
    ¬ d.IsSourceOf .docs source ∧ (d.IsSourceOf .db source ∨ Earlier Step.name d.steps i source) ∧
      Declared d.embedding ∧ queries ≠ []
  | .llm _ source input =>
    (d.IsSource source ∨ Earlier Step.name d.steps i source) ∧ ∀ n ∈ input, Earlier Step.name d.steps i n

structure WellFormed (d : PipelineDef) : Prop where
  steps_distinct : d.stepNames.Nodup
  sources_distinct : d.sourceNames.Nodup
  step_ok : ∀ i s, d.steps[i]? = some s → StepOk d i s
  mass : d.mode = .mass → ∃ s ∈ d.steps, s.isSemantic = true
  nats : d.out.target = .nats → Declared d.out.subject

theorem present_iff {t : Option Text} : present t = true ↔ Declared t := by
  cases t with
  | none => exact ⟨fun h => (by cases h), fun ⟨m, h, _⟩ => (by cases h)⟩
  | some m =>
    cases m with
    | nil => exact ⟨fun h => (by cases h), fun ⟨m, h, hne⟩ => absurd (Option.some.inj h).symm hne⟩
    | cons c m => exact ⟨fun _ => ⟨c :: m, rfl, List.cons_ne_nil c m⟩, fun _ => rfl⟩

theorem mem_sourcesOf {d : PipelineDef} {kind : SourceKind} {n : Text} :
    ((d.sources.filter (·.kind = kind)).map Source.name).contains n = true ↔ d.IsSourceOf kind n := by
  rw [List.contains_iff_mem, List.mem_map]
  simp only [List.mem_filter, decide_eq_true_eq, PipelineDef.IsSourceOf, and_assoc]

theorem mem_sourceNames {d : PipelineDef} {n : Text} : d.sourceNames.contains n = true ↔ d.IsSource n := by
  rw [List.contains_iff_mem, PipelineDef.sourceNames, List.mem_map]
  rfl

/-- A diagnostic that is there exactly when something holds. -/
theorem ite_singleton_nil {p : Prop} [Decidable p] {g : PipelineDiagnostic} :
    (if p then [g] else []) = [] ↔ ¬ p := by
  split
  · next hp => exact ⟨fun h => absurd h (List.cons_ne_nil _ _), fun h => absurd hp h⟩
  · next hp => exact ⟨fun _ => hp, fun _ => rfl⟩

theorem ite_nil_iff {p : Prop} [Decidable p] {gs : List PipelineDiagnostic} :
    (if p then [] else gs) = [] ↔ p ∨ gs = [] := by
  split
  · next hp => exact ⟨fun _ => .inl hp, fun _ => rfl⟩
  · next hp => exact (or_iff_right hp).symm

theorem semanticSourceDiags_nil {d : PipelineDef} {i : Nat} {name source : Text} :
    semanticSourceDiags d i name source = [] ↔
      ¬ d.IsSourceOf .docs source ∧ (d.IsSourceOf .db source ∨ Earlier Step.name d.steps i source) := by
  rw [semanticSourceDiags, PipelineDef.docSources, PipelineDef.dbSources, ← mem_sourcesOf, ← mem_sourcesOf]
  split
  · next hdocs => exact ⟨fun h => absurd h (List.cons_ne_nil _ _), fun h => absurd hdocs h.1⟩
  · next hdocs => rw [ite_nil_iff, stepSourceDiags_nil, and_iff_right hdocs]

theorem stepDiags_nil {d : PipelineDef} (hnames : d.stepNames.Nodup) {i : Nat} {s : Step}
    (hs : d.steps[i]? = some s) : stepDiags d i s = [] ↔ StepOk d i s := by
  cases s with
  | where_ name source =>
    rw [stepDiags, StepOk, whereDiags, PipelineDef.dbSources, ite_nil_iff, mem_sourcesOf]
    exact or_iff_left (List.cons_ne_nil _ _)
  | semantic name source queries =>
    rw [stepDiags, StepOk, List.append_eq_nil_iff, List.append_eq_nil_iff, semanticSourceDiags_nil,
      embeddingDiags, ite_singleton_nil, Bool.not_eq_false, present_iff, queryDiags, ite_singleton_nil,
      and_assoc, and_assoc]
  | llm name source input =>
    rw [stepDiags, StepOk, List.append_eq_nil_iff, llmSourceDiags, ite_nil_iff, mem_sourceNames,
      stepSourceDiags_nil]
    exact and_congr_right' (inputDiags_nil hs hnames)

theorem stepsDiags_nil {d : PipelineDef} (hnames : d.stepNames.Nodup) :
    d.steps.zipIdx.flatMap (fun s => stepDiags d s.2 s.1) = [] ↔
      ∀ i s, d.steps[i]? = some s → StepOk d i s := by
  rw [List.flatMap_eq_nil_iff]
  constructor
  · intro h i s hs
    exact (stepDiags_nil hnames hs).mp (h (s, i) (List.mem_zipIdx_iff_getElem?.mpr hs))
  · rintro h ⟨s, i⟩ hs
    have hs : d.steps[i]? = some s := List.mem_zipIdx_iff_getElem?.mp hs
    exact (stepDiags_nil hnames hs).mpr (h i s hs)

theorem modeDiags_nil {d : PipelineDef} :
    modeDiags d = [] ↔ (d.mode = .mass → ∃ s ∈ d.steps, s.isSemantic = true) := by
  rw [modeDiags, ite_singleton_nil, not_and]
  refine imp_congr_right fun _ => ?_
  rw [List.filter_eq_nil_iff]
  simp only [not_forall, not_not, exists_prop]

theorem outDiags_nil {d : PipelineDef} : outDiags d = [] ↔ (d.out.target = .nats → Declared d.out.subject) := by
  rw [outDiags, ite_singleton_nil, not_and, Bool.not_eq_false, present_iff]

theorem validatePipeline_nil {d : PipelineDef} : validatePipeline d = [] ↔ WellFormed d := by
  have hdistinct : ∀ what names, duplicateDiags what [] names = [] ↔ names.Nodup := fun what names =>
    duplicateDiags_nil.trans (and_iff_left fun _ _ => List.not_mem_nil)
  simp only [validatePipeline, List.append_eq_nil_iff, hdistinct, modeDiags_nil, outDiags_nil]
  constructor
  · rintro ⟨⟨⟨⟨hmode, hout⟩, hsteps⟩, hsources⟩, hnames⟩
    exact ⟨hnames, hsources, (stepsDiags_nil hnames).mp hsteps, hmode, hout⟩
  · rintro ⟨hnames, hsources, hsteps, hmode, hout⟩
    exact ⟨⟨⟨⟨hmode, hout⟩, (stepsDiags_nil hnames).mpr hsteps⟩, hsources⟩, hnames⟩

/-! The order of the steps. -/

/-- The steps that a step reads: the names it reads that are no source for it. -/
def PipelineDef.stepReads (d : PipelineDef) : Step → List Text
  | .where_ _ source => if d.dbSources.contains source then [] else [source]
  | .semantic _ source _ => if d.dbSources.contains source then [] else [source]
  | .llm _ source input => (if d.sourceNames.contains source then [] else [source]) ++ input.toList

/-- The references between steps form an order that running them one after the other keeps. -/
structure InOrder (d : PipelineDef) : Prop where
  earlier : ∀ i j, Needs d.stepReads Step.name d.steps i j → j < i
  acyclic : ∀ i, ¬ Relation.TransGen (Needs d.stepReads Step.name d.steps) i i
  runs : runInOrder d.stepReads Step.name [] d.steps = some d.stepNames

theorem StepOk.reads_earlier {d : PipelineDef} {i : Nat} {s : Step} (h : StepOk d i s) :
    ∀ n ∈ d.stepReads s, Earlier Step.name d.steps i n := by
  have hsource : ∀ {p : Prop} [Decidable p] {source : Text},
      (p ∨ Earlier Step.name d.steps i source) →
      ∀ n ∈ (if p then [] else [source]), Earlier Step.name d.steps i n := by
    intro p hp source hor n hn
    split at hn
    · cases hn
    · next hnot => exact List.mem_singleton.mp hn ▸ hor.resolve_left hnot
  cases s with
  | where_ name source => exact hsource (.inl (mem_sourcesOf.mpr h))
  | semantic name source queries => exact hsource (h.2.1.imp_left mem_sourcesOf.mpr)
  | llm name source input =>
    intro n hn
    obtain hn | hn := List.mem_append.mp hn
    · exact hsource (h.1.imp_left mem_sourceNames.mpr) n hn
    · exact h.2 n (Option.mem_toList.mp hn)

theorem WellFormed.inOrder {d : PipelineDef} (h : WellFormed d) : InOrder d := by
  have hreads : ∀ i s, d.steps[i]? = some s → ∀ n ∈ d.stepReads s, Earlier Step.name d.steps i n :=
    fun i s hs => (h.step_ok i s hs).reads_earlier
  have hlt : ∀ i j, Needs d.stepReads Step.name d.steps i j → j < i :=
    fun i j hneeds => Needs.lt _ _ h.steps_distinct hreads hneeds
  exact ⟨hlt, acyclic_of_lt hlt, runInOrder_isSome _ _ fun i s hs n hn => .inr (hreads i s hs n hn)⟩

/-- A pipeline has no error if and only if it is well formed, and then its steps can be run in
their order. -/
theorem validatePipeline_sound_complete (d : PipelineDef) :
    ((∀ g ∈ validatePipeline d, g.severity ≠ .error) ↔ WellFormed d) ∧
      ((∀ g ∈ validatePipeline d, g.severity ≠ .error) → InOrder d) := by
  have hnone : (∀ g ∈ validatePipeline d, g.severity ≠ .error) ↔ WellFormed d := by
    rw [← validatePipeline_nil, List.eq_nil_iff_forall_not_mem]
    exact forall_congr' fun g => ⟨fun h hg => h hg (validatePipeline_errors d g hg), fun h hg => absurd hg h⟩
  exact ⟨hnone, fun h => (hnone.mp h).inOrder⟩

end Onisin.Pipeline
