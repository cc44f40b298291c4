import Onisin.Dsl.EditorLexer
import Onisin.Gql.Query

/-!
The permissions of a domain, as the mutation service and the permissions service read them. A
domain may have several clauses for one role; either service reads the first of them.
-/

set_option autoImplicit false

namespace Onisin.Domain
open Lib

theorem Permission.role_mem_yield (p : Permission) : .ident p.role ∈ p.yield tokens := by
  simp [Permission.yield, tokens]

theorem parse_roles {toks : List (Located Tok)} {d : DomainDef} (h : parse toks = .ok d) :
    ∀ p ∈ d.permissions, .ident p.role ∈ toks.map Located.tok := by
  obtain ⟨t, ht, -, rfl⟩ := parse_ok.mp h
  rw [← ht]
  intro p hp
  obtain ⟨m, hm, hmp⟩ := List.mem_filterMap.mp hp
  cases m with
  | permission tp =>
    obtain rfl := Option.some.inj hmp
    have hmember : .ident tp.role ∈ t.members.flatMap (DomainMember.yield tokens) :=
      List.mem_flatMap.mpr ⟨_, hm, tp.role_mem_yield⟩
    exact List.mem_append_left _ (List.mem_append_right _ hmember)
  | _ => cases hmp

theorem parseDomain_roles {source : Text} {d : DomainDef} (h : parseDomain source = .ok d) :
    ∀ p ∈ d.permissions, IdentText p.role := by
  obtain ⟨toks, hlex, hparse⟩ := parseDomain_ok.mp h
  exact fun p hp => lex_ident hlex (parse_roles hparse p hp)

end Onisin.Domain

namespace Onisin.Gql
open Lib Domain

/-! Mutations. -/

structure MutateReq where
  domain : Text
  op : Text
  role : Text
  set : Dict Json
  id : Option Json

def mutateReqOf (payload : Json) : Option MutateReq := do
  let fields ← recordMembers ["domain".toList, "op".toList, "role".toList, "set".toList, "id".toList] payload
  let domain ← (member fields "domain".toList).bind Json.asStr
  let op ← (member fields "op".toList).bind Json.asStr
  let role ← (member fields "role".toList).bind Json.asStr
  let set ← memberOr fields "set".toList [] Json.asObject
  let id ← memberOr fields "id".toList none (optional some)
  return ⟨domain, op, role, Dict.ofPairs set, id⟩

def actionName : PermissionAction → Text := PermissionAction.keyword

/-- The first clause of the role decides. -/
def isActionAllowed (d : DomainDef) (role action : Text) : Bool :=
  match d.permissions.find? fun p => p.role = role with
  | some p => p.actions.any fun a => actionName a = action
  | none => false

def actionOf (op : Text) : Option Text :=
  if op = "insert".toList ∨ op = "update".toList then some "write".toList
  else if op = "delete".toList then some "delete".toList
  else none

/-- Running a statement for the row it returns, if any. -/
abbrev RunOne := Text → List Bind → Except Text (Option Row)

section Mutate
variable (printF64 : Bool → Rat → Text) (serdeError : Json → Text)

/-- What is checked before a statement is built. -/
def mutateGate (store : Text → Option DomainDef) (payload : Json) : Except Text (DomainDef × MutateReq) :=
  match mutateReqOf payload with
  | none => .error ("bad request: ".toList ++ serdeError payload)
  | some req =>
    match store req.domain with
    | none => .error ("unknown domain \"".toList ++ req.domain ++ "\"".toList)
    | some d =>
      match actionOf req.op with
      | none => .error ("unknown op '".toList ++ req.op ++ "'".toList)
      | some action =>
        if req.role.trim = [] then .error "role required".toList
        else if isActionAllowed d req.role action then .ok (d, req)
        else .error ("role \"".toList ++ req.role ++ "\" not allowed to ".toList ++ action ++
          " ".toList ++ d.name)

def recordReply (record : Json) : Json := .object [("record".toList, record)]

/-- The statement is built and run. -/
def mutateRow (pool : Option RunOne) (d : DomainDef) (req : MutateReq) : Except Text Json :=
  match pool with
  | none => .error "database unavailable".toList
  | some runOne => do
    let (sql, binds) ← buildMutate d req.op req.set req.id
    let row ← runOne sql binds
    return (row.map fun row => rowToJson printF64 row (selectedFields d none)).getD .null

def mutate (store : Text → Option DomainDef) (pool : Option RunOne) (payload : Json) : Json :=
  match mutateGate serdeError store payload with
  | .error e => errorReply e
  | .ok (d, req) =>
    match mutateRow printF64 pool d req with
    | .error e => errorReply e
    | .ok record => recordReply record

end Mutate

/-! The report of permissions. -/

/-- The cached domains in the order of their row ids. -/
def lookupDomain (cache : List DomainDef) (name : Text) : Option DomainDef :=
  cache.find? fun d => d.name = name

def snapshot (cache : List DomainDef) : List DomainDef :=
  (sortByKey (cache.map fun d => (d.name, d))).map Prod.snd

def reportedActions (d : DomainDef) (role : Text) : List PermissionAction :=
  ((d.permissions.find? fun p => p.role = role).map PermissionDef.actions).getD []

def domainEntry (role : Text) (d : DomainDef) : Json :=
  .object [("domain".toList, .string d.name),
    ("actions".toList, .array ((reportedActions d role).map fun a => .string (actionName a)))]

def handlePermissions (serdeError : Json → Text) (cache : List DomainDef) (payload : Json) : Json :=
  match (payload.asObject.bind (member · "role".toList)).bind Json.asStr with
  | none => errorReply ("bad request: ".toList ++ serdeError payload)
  | some role =>
    if role.trim = [] then errorReply "role required".toList
    else .object [("permissions".toList, .array ((snapshot cache).map (domainEntry role)))]

/-! What the clauses grant. -/

/-- Some clause of the role lists the action. -/
def Granted (d : DomainDef) (role : Text) (a : PermissionAction) : Prop :=
  ∃ p ∈ d.permissions, p.role = role ∧ a ∈ p.actions

/-- The first clause of the role lists the action. -/
def FirstGrants (d : DomainDef) (role : Text) (a : PermissionAction) : Prop :=
  ∃ p, d.permissions.find? (fun p => p.role = role) = some p ∧ a ∈ p.actions

/-- The action that an operation needs. -/
def Needs (op : Text) (a : PermissionAction) : Prop :=
  (op = "insert".toList ∨ op = "update".toList) ∧ a = .write ∨ op = "delete".toList ∧ a = .delete

/-- The request gets to its statement. -/
def GoesOn (serdeError : Json → Text) (cache : List DomainDef) (payload : Json) : Prop :=
  ∃ d req, mutateGate serdeError (lookupDomain cache) payload = .ok (d, req)

theorem FirstGrants.granted {d : DomainDef} {role : Text} {a : PermissionAction}
    (h : FirstGrants d role a) : Granted d role a := by
  obtain ⟨p, hp, ha⟩ := h
  exact ⟨p, List.mem_of_find?_eq_some hp, by simpa using List.find?_some hp, ha⟩

theorem actionName_injective {a b : PermissionAction} (h : actionName a = actionName b) : a = b :=
  ofKeyword_injective PermissionAction.ofKeyword_keyword h

theorem isActionAllowed_iff {d : DomainDef} {role : Text} {a : PermissionAction} :
    isActionAllowed d role (actionName a) = true ↔ FirstGrants d role a := by
  rw [isActionAllowed, FirstGrants]
  cases d.permissions.find? fun p => p.role = role with
  | none => simp
  | some p =>
    simp only [List.any_eq_true, decide_eq_true_eq, Option.some.injEq, exists_eq_left']
    constructor
    · rintro ⟨b, hb, heq⟩
      exact actionName_injective heq ▸ hb
    · exact fun ha => ⟨a, ha, rfl⟩

theorem mem_reportedActions {d : DomainDef} {role : Text} {a : PermissionAction} :
    a ∈ reportedActions d role ↔ FirstGrants d role a := by
  rw [reportedActions, FirstGrants]
  cases d.permissions.find? fun p => p.role = role with
  | none => simp
  | some p => simp

/-- The report has an entry for each cached domain. -/
theorem mem_snapshot {cache : List DomainDef} {d : DomainDef} : d ∈ snapshot cache ↔ d ∈ cache := by
  rw [snapshot, List.mem_map]
  constructor
  · rintro ⟨e, he, rfl⟩
    obtain ⟨d', hd', rfl⟩ := List.mem_map.mp ((List.mem_insertionSort _).mp he)
    exact hd'
  · exact fun hd => ⟨(d.name, d), (List.mem_insertionSort _).mpr (List.mem_map_of_mem hd), rfl⟩

theorem handlePermissions_entry {serdeError : Json → Text} {cache : List DomainDef} {payload : Json}
    {role : Text} (hrole : (payload.asObject.bind (member · "role".toList)).bind Json.asStr = some role)
    (hblank : role.trim ≠ []) {d : DomainDef} (hd : d ∈ cache) :
    ∃ entries, handlePermissions serdeError cache payload =
      .object [("permissions".toList, .array entries)] ∧ domainEntry role d ∈ entries := by
  rw [handlePermissions, hrole]
  exact ⟨_, if_neg hblank, List.mem_map_of_mem (mem_snapshot.mpr hd)⟩

theorem actionOf_eq_some {op action : Text} :
    actionOf op = some action ↔ ∃ a, Needs op a ∧ actionName a = action := by
  have hdelete : ¬ ("delete".toList = "insert".toList ∨ "delete".toList = "update".toList) := by decide
  rw [actionOf]
  by_cases hwrite : op = "insert".toList ∨ op = "update".toList
  · rw [if_pos hwrite, Option.some.injEq]
    constructor
    · rintro rfl
      exact ⟨.write, .inl ⟨hwrite, rfl⟩, rfl⟩
    · rintro ⟨a, ⟨-, rfl⟩ | ⟨rfl, -⟩, rfl⟩
      · rfl
      · exact absurd hwrite hdelete
  · rw [if_neg hwrite]
    by_cases hop : op = "delete".toList
    · rw [if_pos hop, Option.some.injEq]
      constructor
      · rintro rfl
        exact ⟨.delete, .inr ⟨hop, rfl⟩, rfl⟩
      · rintro ⟨a, ⟨hw, -⟩ | ⟨-, rfl⟩, rfl⟩
        · exact absurd hw hwrite
        · rfl
    · rw [if_neg hop]
      refine iff_of_false (by simp) ?_
      rintro ⟨a, ⟨hw, -⟩ | ⟨hd, -⟩, -⟩
      · exact hwrite hw
      · exact hop hd

/-- A request that is stopped runs nothing: the reply is the same whatever the database is. -/
theorem mutate_stopped {printF64 : Bool → Rat → Text} {serdeError : Json → Text} {cache : List DomainDef}
    {payload : Json} (h : ¬ GoesOn serdeError cache payload) (pool pool' : Option RunOne) :
    mutate printF64 serdeError (lookupDomain cache) pool payload =
      mutate printF64 serdeError (lookupDomain cache) pool' payload := by
  rw [mutate, mutate]
  cases hgate : mutateGate serdeError (lookupDomain cache) payload with
  | error e => rfl
  | ok r => exact absurd ⟨r.1, r.2, hgate⟩ h

theorem identText_trim {s : Text} (h : IdentText s) : s.trim ≠ [] := by
  obtain ⟨hall, c, hc, -⟩ := h
  rw [Text.trim_eq, Text.trimBy_of_none fun c hc =>
    (startsToken_identChar (List.all_eq_true.mp hall c hc)).1]
  intro hnil
  rw [hnil] at hc
  cases hc

theorem goesOn_iff {serdeError : Json → Text} {cache : List DomainDef} {d : DomainDef}
    (hroles : ∀ p ∈ d.permissions, p.role.trim ≠ [])
    (hd : lookupDomain cache d.name = some d) {payload : Json} {req : MutateReq}
    (hreq : mutateReqOf payload = some req) (hname : req.domain = d.name) :
    GoesOn serdeError cache payload ↔ ∃ a, Needs req.op a ∧ FirstGrants d req.role a := by
  have hgate : mutateGate serdeError (lookupDomain cache) payload =
      match actionOf req.op with
      | none => .error ("unknown op '".toList ++ req.op ++ "'".toList)
      | some action =>
        if req.role.trim = [] then .error "role required".toList
        else if isActionAllowed d req.role action then .ok (d, req)
        else .error ("role \"".toList ++ req.role ++ "\" not allowed to ".toList ++ action ++
          " ".toList ++ d.name) := by
    rw [mutateGate, hreq]
    dsimp only
    rw [hname, hd]
  rw [GoesOn, hgate]
  constructor
  · rintro ⟨d', req', hok⟩
    cases haction : actionOf req.op with
    | none =>
      rw [haction] at hok
      cases hok
    | some action =>
      obtain ⟨a, hneeds, rfl⟩ := actionOf_eq_some.mp haction
      rw [haction] at hok
      dsimp only at hok
      by_cases hrole : req.role.trim = []
      · rw [if_pos hrole] at hok
        cases hok
      · rw [if_neg hrole] at hok
        by_cases hallowed : isActionAllowed d req.role (actionName a) = true
        · exact ⟨a, hneeds, isActionAllowed_iff.mp hallowed⟩
        · rw [if_neg hallowed] at hok
          cases hok
  · rintro ⟨a, hneeds, hfirst⟩
    obtain ⟨p, hp, hrole, -⟩ := hfirst.granted
    refine ⟨d, req, ?_⟩
    rw [actionOf_eq_some.mpr ⟨a, hneeds, rfl⟩]
    dsimp only
    rw [if_neg (hrole ▸ hroles p hp), if_pos (isActionAllowed_iff.mpr hfirst)]

/-- What it means that the clauses of a role add up, in the mutations and in the report. -/
structure AddsUp (serdeError : Json → Text) (cache : List DomainDef) (d : DomainDef) (role : Text) :
    Prop where
  mutate : ∀ payload req, mutateReqOf payload = some req → req.domain = d.name → req.role = role →
    (GoesOn serdeError cache payload ↔ ∃ a, Needs req.op a ∧ Granted d role a)
  report : ∀ payload req a, mutateReqOf payload = some req → req.domain = d.name → req.role = role →
    Needs req.op a → (a ∈ reportedActions d role ↔ GoesOn serdeError cache payload)

/-- A request with nothing but the names of its parts. -/
def bareMutation (name op role : Text) : Json :=
  .object [("domain".toList, .string name), ("op".toList, .string op), ("role".toList, .string role)]

theorem mutateReqOf_bareMutation (name op role : Text) :
    mutateReqOf (bareMutation name op role) = some ⟨name, op, role, [], none⟩ := rfl

theorem Needs.unique {op : Text} {a b : PermissionAction} (ha : Needs op a) (hb : Needs op b) : a = b := by
  have hna := actionOf_eq_some.mpr ⟨a, ha, rfl⟩
  rw [actionOf_eq_some.mpr ⟨b, hb, rfl⟩] at hna
  exact (actionName_injective (Option.some.inj hna)).symm

/-- The clauses of a role add up exactly when the first one already lists what any of them does. -/
theorem clauses_add_up_iff (serdeError : Json → Text) {source : Text} {d : DomainDef}
    (hparse : parseDomain source = .ok d) (cache : List DomainDef)
    (hd : lookupDomain cache d.name = some d) (role : Text) :
    AddsUp serdeError cache d role ↔
      ∀ a, a = .write ∨ a = .delete → Granted d role a → FirstGrants d role a := by
  have hroles : ∀ p ∈ d.permissions, p.role.trim ≠ [] :=
    fun p hp => identText_trim (parseDomain_roles hparse p hp)
  constructor
  · rintro h a ha hgranted
    obtain ⟨op, hneeds⟩ : ∃ op, Needs op a := by
      rcases ha with rfl | rfl
      · exact ⟨_, .inl ⟨.inl rfl, rfl⟩⟩
      · exact ⟨_, .inr ⟨rfl, rfl⟩⟩
    have hreq := mutateReqOf_bareMutation d.name op role
    have hgoes := (h.mutate _ _ hreq rfl rfl).mpr ⟨a, hneeds, hgranted⟩
    obtain ⟨b, hb, hfirst⟩ := (goesOn_iff hroles hd hreq rfl).mp hgoes
    rwa [hneeds.unique hb]
  · intro h
    constructor
    · rintro payload req hreq hname rfl
      rw [goesOn_iff hroles hd hreq hname]
      constructor
      · rintro ⟨a, hneeds, hfirst⟩
        exact ⟨a, hneeds, hfirst.granted⟩
      · rintro ⟨a, hneeds, hgranted⟩
        refine ⟨a, hneeds, h a ?_ hgranted⟩
        rcases hneeds with ⟨-, rfl⟩ | ⟨-, rfl⟩
        · exact .inl rfl
        · exact .inr rfl
    · rintro payload req a hreq hname rfl hneeds
      rw [goesOn_iff hroles hd hreq hname, mem_reportedActions]
      constructor
      · exact fun hfirst => ⟨a, hneeds, hfirst⟩
      · rintro ⟨b, hb, hfirst⟩
        rwa [hneeds.unique hb]

/-! Two clauses for one role. -/

def clerkSource : Text :=
  "domain book from books@main \x7b permission clerk write permission clerk delete \x7d".toList

def clerkDomain : DomainDef :=
  ⟨"book".toList, "books".toList, "main".toList,
    [⟨"clerk".toList, [.write]⟩, ⟨"clerk".toList, [.delete]⟩], [], [], [], [], []⟩

theorem clerkSource_parsed : parseDomain clerkSource = .ok clerkDomain := by
  refine parseDomain_ok.mpr ⟨(lex clerkSource).toOption.getD [], ?_, ?_⟩
  · decide
  · decide

theorem clerkDomain_cached : lookupDomain [clerkDomain] clerkDomain.name = some clerkDomain := by
  decide

theorem clauses_add_up_iff_clerk :
    AddsUp (fun _ => []) [clerkDomain] clerkDomain "clerk".toList ↔
      ∀ a, a = .write ∨ a = .delete → Granted clerkDomain "clerk".toList a →
        FirstGrants clerkDomain "clerk".toList a :=
  clauses_add_up_iff _ clerkSource_parsed _ clerkDomain_cached _

/-- The second clause lists `delete`, and the deletion is refused and not reported. -/
theorem second_clause_ignored :
    parseDomain clerkSource = .ok clerkDomain ∧ Granted clerkDomain "clerk".toList .delete ∧
      PermissionAction.delete ∉ reportedActions clerkDomain "clerk".toList ∧
      ¬ AddsUp (fun _ => []) [clerkDomain] clerkDomain "clerk".toList := by
  have hroles : ∀ p ∈ clerkDomain.permissions, p.role.trim ≠ [] :=
    fun p hp => identText_trim (parseDomain_roles clerkSource_parsed p hp)
  have hgranted : Granted clerkDomain "clerk".toList .delete :=
    ⟨_, List.mem_cons_of_mem _ List.mem_cons_self, rfl, List.mem_singleton_self _⟩
  have hreported : PermissionAction.delete ∉ reportedActions clerkDomain "clerk".toList := by decide
  refine ⟨clerkSource_parsed, hgranted, hreported, fun h => ?_⟩
  have hreq := mutateReqOf_bareMutation clerkDomain.name "delete".toList "clerk".toList
  have hneeds : Needs "delete".toList .delete := .inr ⟨rfl, rfl⟩
  have hgoes := (h.mutate _ _ hreq rfl rfl).mpr ⟨.delete, hneeds, hgranted⟩
  exact hreported ((h.report _ _ .delete hreq rfl rfl hneeds).mpr hgoes)

end Onisin.Gql
