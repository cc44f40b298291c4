import Onisin.Agent.Tools
import Onisin.Dsl.View
import Onisin.Gql.Query
import Onisin.Ui.ChatEvents
import Onisin.Ui.Envelope
import Onisin.Ui.Resolver

/-!
The tab of a query's result. The event that opens it carries the rows the query returned, and
the generic table shows those; a view that the tab is rendered through reads its rows for itself.
-/

set_option autoImplicit false

namespace Onisin.Ui.ViewRenderer
open Lib Domain Gql Agent View

def member (v : Js) (key : Text) : Option Js :=
  match v with
  | .object fields => fields.lookup key
  | _ => none

def truthy : Option Js → Bool
  | none | some .null => false
  | some (.bool b) => b
  | some (.number printed) => printed ≠ "0".toList ∧ printed ≠ "NaN".toList
  | some (.string s) => !s.isEmpty
  | some (.array _) | some (.object _) => true

/-! The generic table. -/

/-- The payload of the tab: the flat rows under the name of their context. -/
def tabData (contextName : Text) (rows : Json) : Json := .object [(contextName, rows)]

theorem onAgentEvent_tabOpen (cl : Client) (turnId contextName : Text) (rows : Json)
    (viewName : Option Text) (turn : Turn) :
    (onAgentEvent cl ⟨turnId, .tabOpen contextName rows viewName, turn⟩).tabs =
      cl.tabs ++ [.graphqlResult contextName (tabData contextName rows) viewName turn] := rfl

/-- A row that is no object is shown as one. -/
def shownRow : Js → Js
  | .array items => .array items
  | .object fields => .object fields
  | v => .object [("value".toList, v)]

/-- The rows of a payload with one entry, if that is an array. -/
def extractRows : Js → Option (List Js)
  | .object [(_, .array rows)] => some (rows.map shownRow)
  | .array [.array rows] => some (rows.map shownRow)
  | _ => none

/-! The view. -/

structure DataQueryResult where
  rows : Js
  failed : Bool

/-- `rpc.dataQuery`: a request that is not answered counts as one that is answered by an error. -/
def dataQueryResult (reply : Option Json) : DataQueryResult :=
  match reply.map Js.ofJson with
  | none | some .null => ⟨.array [], true⟩
  | some res =>
    if truthy (member res "error".toList) then ⟨.array [], true⟩
    else
      match member res "rows".toList with
      | none | some .null => ⟨.array [], false⟩
      | some rows => ⟨rows, false⟩

def fetchRows (request : Json → Option Json) (domain : Text) : Js :=
  let resp := dataQueryResult (request (.object [("domain".toList, .string domain)]))
  if resp.failed then .array [] else resp.rows

/-- The name that the view binds its rows by. -/
def primaryAlias (def_ : ViewDef) : Text :=
  match def_.domains with
  | primary :: _ => primary.alias_
  | [] => "data".toList

def buildRowsEnvelope (def_ : ViewDef) (rows : Js) : Dict Js :=
  [("content".toList, .object [(primaryAlias def_, .object [("rows".toList, rows)])])]

def pickSource (body : Json) : Option Text :=
  (body.getStr "source".toList).filter fun source => !source.isEmpty

/-- A view with the rows that were read for it. -/
structure ReadyView where
  def_ : ViewDef
  rows : Js
  state : ViewState
  loaded : state = loadEnvelope .empty (buildRowsEnvelope def_ rows)

inductive Stage where
  | fallback
  | ready (v : ReadyView)

section Load
-- the parser of the view language, the view's row by its name, and the data service
variable (parseView : Text → Option ViewDef) (getView : Text → Resolver.Reply)
  (request : Json → Option Json)

/-- The definition that a name stands for. -/
def viewDef (name : Text) : Option ViewDef := do
  let fetched := getView name
  if fetched.error.any fun e => !e.isEmpty then none
  else do
    let body ← fetched.json.toOption
    let source ← pickSource body
    parseView source

/-- The view is over other domains than the query. -/
def mismatched (contextName : Text) (def_ : ViewDef) : Bool :=
  let viewDomains := def_.domains.map ViewDomainBinding.name
  !contextName.isEmpty && !viewDomains.isEmpty && !viewDomains.contains contextName

/-- The load effect, up to what is rendered. -/
def load (contextName : Text) (viewName : Option Text) : Stage :=
  match viewName with
  | none | some [] => .fallback
  | some name =>
    match viewDef parseView getView name with
    | none => .fallback
    | some def_ =>
      if mismatched contextName def_ then .fallback
      else
        let rows := fetchRows request contextName
        .ready ⟨def_, rows, loadEnvelope .empty (buildRowsEnvelope def_ rows), rfl⟩

end Load

/-! What the tab should show. -/

section Tabs
variable (printF64 : Bool → Rat → Text) (serdeError : Json → Text)

/-- A tab that a call of the query tool opens, in a run in which `before` answers the queries. -/
structure OpenedTab (before : DataService) where
  ctx : AgentCtx
  args : Json
  trace : History
  rest : Agent.Task Json
  run : (runQuery ctx args).Steps trace rest
  served : ∀ payload reply,
    (⟨.request "oos.cmd.data.query".toList payload, (Except.ok reply : Except Text Json)⟩ :
      Exchange Action Answer) ∈ trace → reply = query printF64 serdeError before payload
  contextName : Text
  rows : Json
  viewName : Option Text
  opened : (⟨.emit ctx.turnId (.tabOpen contextName rows viewName), ()⟩ : Exchange Action Answer) ∈ trace

/-- How the view's request is answered; nothing stands for no answer. -/
def answeredBy (later : Option DataService) (payload : Json) : Option Json :=
  later.map fun s => query printF64 serdeError s payload

end Tabs

/-- Objects with the same members. -/
def SameRow : Js → Js → Prop
  | .object fields, .object fields' => ∀ k, fields.lookup k = fields'.lookup k
  | _, _ => False

def SameRows : Js → Js → Prop
  | .array rows, .array rows' => List.Forall₂ SameRow rows rows'
  | _, _ => False

/-- Where the view looks for the rows of a domain that it binds. -/
def rowsPath (b : ViewDomainBinding) : Text := joinPath b.alias_ "rows".toList

/-- The view that is rendered holds the rows of the event under the alias of their domain, and so
does the generic table. -/
structure ShowsEventRows (def_ : ViewDef) (b : ViewDomainBinding) (contextName : Text)
    (eventRows : Json) (stage : Stage) : Prop where
  view : ∃ v, stage = .ready v ∧ v.def_ = def_ ∧
    v.state.values.lookup (rowsPath b) = some v.rows.stringify ∧
    SameRows (Js.ofJson eventRows) v.rows
  generic : ∃ rows, extractRows (Js.ofJson (tabData contextName eventRows)) = some rows ∧
    Js.ofJson eventRows = .array rows

/-- The hint names a view over the domain, which binds it by `b`. -/
structure NamesView (parseView : Text → Option ViewDef) (getView : Text → Resolver.Reply)
    (contextName : Text) (viewName : Option Text) (def_ : ViewDef) (b : ViewDomainBinding) : Prop where
  named : ∃ name, viewName = some name ∧ name ≠ [] ∧ viewDef parseView getView name = some def_
  bound : b ∈ def_.domains
  ofDomain : b.name = contextName

/-! When it does. -/

/-- The domain is bound under the alias of the view's first one. -/
def UnderFirstAlias (def_ : ViewDef) (b : ViewDomainBinding) : Prop :=
  def_.domains.head?.map ViewDomainBinding.alias_ = some b.alias_

/-- What a column is read as. -/
def cell (printF64 : Bool → Rat → Text) (row : Row) (name : Text) (ty : FieldType) : Js :=
  Js.ofJson (((row name).map fun s => retype printF64 s ty).getD .null)

/-- The type that a selected column is read by; of several with one name the last counts. -/
def selectedType (d : DomainDef) (fields : Option (List Text)) (name : Text) : Option FieldType :=
  List.lookup name (selectedFields d fields).reverse

/-- The query asks for the declared fields of the other domain, and for no more. -/
def AsksAll (d : DomainDef) (fields : Option (List Text)) (d' : DomainDef) : Prop :=
  ∀ name, name ∈ (selectedFields d fields).map Prod.fst ↔ name ∈ d'.fields.map DomainFieldDef.name

/-- The columns that both read are read alike. -/
def Alike (printF64 : Bool → Rat → Text) (d : DomainDef) (fields : Option (List Text)) (d' : DomainDef)
    (row row' : Row) : Prop :=
  ∀ name ty ty', selectedType d fields name = some ty → selectedType d' none name = some ty' →
    cell printF64 row name ty = cell printF64 row' name ty'

/-- The rows the table is read to have when the view reads it are those the query let through. -/
def StillAll (printF64 : Bool → Rat → Text) (d : DomainDef) (req : QueryReq) (t : DomainTable) :
    Option (DomainDef × List Row) → Prop
  | none => t.select req = []
  | some (d', rows) =>
    (t.select req = [] ∧ rows = []) ∨
      (AsksAll d req.fields d' ∧ List.Forall₂ (Alike printF64 d req.fields d') (t.select req) rows)

/-- The query leaves out nothing of the table. -/
structure LeavesNothingOut (printF64 : Bool → Rat → Text) (d : DomainDef) (req : QueryReq)
    (t : DomainTable) : Prop where
  fields : ∀ f ∈ d.fields, f.name ∈ (selectedFields d req.fields).map Prod.fst
  passes : ∀ row ∈ t.rows, t.passes req row = true
  limit : ∀ n ∈ req.limit, t.rows.length ≤ n.toNat
  -- a field that is declared twice, with types that tell its values apart
  typed : ∀ row ∈ t.rows, Alike printF64 d req.fields d row row

/-! The rows of a reply. -/

section Rows
variable {printF64 : Bool → Rat → Text} {d d' : DomainDef} {fields : Option (List Text)}

/-- A row as the webview has it: each selected column as it is read. -/
theorem ofJson_row (printF64 : Bool → Rat → Text) (row : Row) (d : DomainDef)
    (fields : Option (List Text)) :
    ∃ members, Js.ofJson (rowToJson printF64 row (selectedFields d fields)) = .object members ∧
      ∀ k, members.lookup k = (selectedType d fields k).map (cell printF64 row k) := by
  refine ⟨_, rfl, fun k => ?_⟩
  rw [lookup_ofJson (Dict.nodup_ofPairs _), Dict.lookup_ofPairs, ← List.map_reverse,
    Dict.lookup_map_key _ (fun name ty => ((row name).map fun s => retype printF64 s ty).getD .null),
    Option.map_map]
  rfl

theorem selectedType_isSome {name : Text} :
    (selectedType d fields name).isSome ↔ name ∈ (selectedFields d fields).map Prod.fst := by
  rw [selectedType, Dict.lookup_isSome_iff, List.map_reverse, List.mem_reverse]

theorem map_fst_selectedFields_none (d : DomainDef) :
    (selectedFields d none).map Prod.fst = d.fields.map DomainFieldDef.name := by
  have hall : selectedFields d none = d.fields.map fun f => (f.name, f.fieldType) := rfl
  rw [hall, List.map_map]
  rfl

theorem sameRow_iff {row row' : Row} :
    SameRow (Js.ofJson (rowToJson printF64 row (selectedFields d fields)))
        (Js.ofJson (rowToJson printF64 row' (selectedFields d' none))) ↔
      AsksAll d fields d' ∧ Alike printF64 d fields d' row row' := by
  obtain ⟨members, hrow, hmembers⟩ := ofJson_row printF64 row d fields
  obtain ⟨members', hrow', hmembers'⟩ := ofJson_row printF64 row' d' none
  rw [hrow, hrow']
  simp only [SameRow, hmembers, hmembers']
  constructor
  · intro h
    refine ⟨fun name => ?_, fun name ty ty' hty hty' => ?_⟩
    · have hsome := congrArg Option.isSome (h name)
      rw [Option.isSome_map, Option.isSome_map] at hsome
      rw [← map_fst_selectedFields_none, ← selectedType_isSome, ← selectedType_isSome, hsome]
    · have hcell := h name
      rw [hty, hty', Option.map_some, Option.map_some] at hcell
      exact Option.some.inj hcell
  · rintro ⟨hall, halike⟩ name
    have hsome : (selectedType d fields name).isSome = (selectedType d' none name).isSome := by
      rw [Bool.eq_iff_iff, selectedType_isSome, selectedType_isSome, map_fst_selectedFields_none]
      exact hall name
    cases hty : selectedType d fields name with
    | none =>
      rw [hty] at hsome
      have hnone : selectedType d' none name = none := by
        rwa [Option.isSome_none, eq_comm, Option.isSome_eq_false_iff, Option.isNone_iff_eq_none] at hsome
      rw [hnone]
      rfl
    | some ty =>
      rw [hty] at hsome
      obtain ⟨ty', hty'⟩ := Option.isSome_iff_exists.mp hsome.symm
      rw [hty', Option.map_some, Option.map_some, halike name ty ty' hty hty']

theorem forall₂_and_iff {α β : Type} {P : Prop} {R : α → β → Prop} {l : List α} {l' : List β} :
    List.Forall₂ (fun a b => P ∧ R a b) l l' ↔ (l = [] ∧ l' = []) ∨ (P ∧ List.Forall₂ R l l') := by
  constructor
  · intro h
    cases h with
    | nil => exact .inl ⟨rfl, rfl⟩
    | cons hab htail => exact .inr ⟨hab.1, .cons hab.2 (htail.imp fun _ _ h => h.2)⟩
  · rintro (⟨rfl, rfl⟩ | ⟨hp, h⟩)
    · exact .nil
    · exact h.imp fun _ _ hr => ⟨hp, hr⟩

/-- Two replies hold the same rows. -/
theorem sameRows_iff {rows rows' : List Row} :
    SameRows (Js.ofJson (.array (rows.map fun row => rowToJson printF64 row (selectedFields d fields))))
        (.array (rows'.map fun row => Js.ofJson (rowToJson printF64 row (selectedFields d' none)))) ↔
      (rows = [] ∧ rows' = []) ∨
        (AsksAll d fields d' ∧ List.Forall₂ (Alike printF64 d fields d') rows rows') := by
  rw [Js.ofJson, ofItems_eq, List.map_map, SameRows, List.forall₂_map_left_iff,
    List.forall₂_map_right_iff, ← forall₂_and_iff]
  simp only [Function.comp_apply, sameRow_iff]

end Rows

/-! The event. -/

/-- The query for the context was answered by these rows. -/
def Answered (args : Json) (contextName : Text) (rows : Json) (trace : History) : Prop :=
  ∃ reply : Json,
    (⟨.request "oos.cmd.data.query".toList (dataQuery contextName args),
      (Except.ok reply : Except Text Json)⟩ : Exchange Action Answer) ∈ trace ∧
    reply.getStr "error".toList = none ∧ rows = (reply.get "rows".toList).getD (.array [])

/-- Every tab that was opened has the rows of a query for its context. -/
def OpensAnswered (turnId : Text) (args : Json) (trace : History) : Prop :=
  ∀ contextName rows viewName,
    (⟨.emit turnId (.tabOpen contextName rows viewName), ()⟩ : Exchange Action Answer) ∈ trace →
      Answered args contextName rows trace

theorem runQuery_opensAnswered (ctx : AgentCtx) (args : Json) :
    (runQuery ctx args).Holds (OpensAnswered ctx.turnId args) (fun _ _ => True) [] := by
  have hstart : OpensAnswered ctx.turnId args [] := fun _ _ _ h => by cases h
  dsimp only [runQuery]
  split
  · exact .pure hstart trivial
  · refine .next hstart fun r => ?_
    -- a request opens nothing
    have hasked : OpensAnswered ctx.turnId args ([] ++ [⟨.request "oos.cmd.data.query".toList
        (dataQuery ((args.getStr "context_name".toList).getD []).trim args), r⟩]) :=
      fun _ _ _ h => by cases List.mem_singleton.mp h
    cases r with
    | error e => exact .pure hasked trivial
    | ok reply =>
      dsimp only
      split
      · exact .pure hasked trivial
      · rename_i herror
        refine .next hasked fun _ => .pure (fun contextName rows viewName h => ?_) trivial
        obtain h | h := List.mem_append.mp h
        · cases List.mem_singleton.mp h
        · cases List.mem_singleton.mp h
          exact ⟨reply, List.mem_append_left _ List.mem_cons_self, herror, rfl⟩

/-- The tool asks for the context by its name, and passes on no other members than these. -/
theorem dataQuery_eq (contextName : Text) (args : Json) :
    ∃ rest, dataQuery contextName args = .object (("domain".toList, .string contextName) :: rest) ∧
      ∀ e ∈ rest, e.1 = "where".toList ∨ e.1 = "fields".toList ∨ e.1 = "limit".toList := by
  refine ⟨_, rfl, fun e he => ?_⟩
  rw [List.mem_append, List.mem_append, Option.mem_toList, Option.mem_toList, Option.mem_toList] at he
  obtain (he | he) | he := he
  · obtain ⟨v, -, rfl⟩ := Option.map_eq_some_iff.mp he
    exact .inl rfl
  · obtain ⟨v, -, rfl⟩ := Option.map_eq_some_iff.mp he
    exact .inr (.inl rfl)
  · obtain ⟨v, -, rfl⟩ := Option.map_eq_some_iff.mp he
    exact .inr (.inr rfl)

theorem queryReqOf_dataQuery {contextName name : Text} {args : Json} {req : QueryReq}
    (h : queryReqOf (dataQuery contextName args) = some (name, req)) :
    name = contextName ∧ req.order = [] ∧ req.withOptions = false := by
  obtain ⟨rest, heq, hrest⟩ := dataQuery_eq contextName args
  have hother : ∀ key, key ≠ "where".toList → key ≠ "fields".toList → key ≠ "limit".toList →
      rest.filter (fun e => e.1 = key) = [] := by
    intro key hw hf hl
    refine List.filter_eq_nil_iff.mpr fun e he => ?_
    obtain hkey | hkey | hkey := hrest e he
    · simpa [hkey] using hw.symm
    · simpa [hkey] using hf.symm
    · simpa [hkey] using hl.symm
  have hdomain : Gql.member (("domain".toList, .string contextName) :: rest) "domain".toList =
      some (.string contextName) := by
    rw [Gql.member, List.filter_cons_of_pos (by simp), hother _ (by decide) (by decide) (by decide)]
  have horder : memberOr (("domain".toList, .string contextName) :: rest) "order".toList []
      (listOf orderEntry) = some [] := by
    rw [memberOr, List.filter_cons_of_neg (by simp), hother _ (by decide) (by decide) (by decide)]
  have hoptions : memberOr (("domain".toList, .string contextName) :: rest) "withOptions".toList false
      Json.asBool = some false := by
    rw [memberOr, List.filter_cons_of_neg (by simp), hother _ (by decide) (by decide) (by decide)]
  rw [heq, queryReqOf, recordMembers, Option.bind_eq_bind, Option.bind_some, hdomain, horder, hoptions] at h
  simp only [Option.bind_eq_bind, Option.bind_some, Json.asStr, Option.bind_eq_some_iff, pure,
    Option.some.injEq, Prod.mk.injEq] at h
  obtain ⟨_, -, _, -, _, -, rfl, rfl⟩ := h
  exact ⟨rfl, rfl, rfl⟩

theorem wantedOptions_dataQuery (s : DataService) (contextName : Text) (args : Json) :
    wantedOptions s (dataQuery contextName args) = none := by
  cases hreq : queryReqOf (dataQuery contextName args) with
  | none => rw [wantedOptions, hreq, Option.bind_eq_bind, Option.bind_none]
  | some r => exact wantedOptions_none hreq (queryReqOf_dataQuery hreq).2.2

/-- The event carries the rows that the query's statement returned. -/
theorem OpenedTab.rows_eq {printF64 : Bool → Rat → Text} {serdeError : Json → Text}
    {before : DataService} (o : OpenedTab printF64 serdeError before) :
    ∃ req d run sql binds rows,
      queryReqOf (dataQuery o.contextName o.args) = some (o.contextName, req) ∧
      before.store o.contextName = some d ∧ before.pool = some run ∧
      buildSelect d req = .ok (sql, binds) ∧ run sql binds = .ok rows ∧
      o.rows = .array (rows.map fun row => rowToJson printF64 row (selectedFields d req.fields)) := by
  obtain ⟨reply, hreply, hnone, hrows⟩ :=
    (runQuery_opensAnswered o.ctx o.args).invariant o.run _ _ _ o.opened
  obtain rfl := o.served _ _ hreply
  obtain ⟨out, hout, hquery⟩ := query_no_error hnone
  obtain ⟨name, req, d, run, sql, binds, rows, hreq, hd, hrun, hsql, hanswer, rfl⟩ :=
    queryRows_eq_ok.mp hout
  obtain ⟨rfl, -⟩ := queryReqOf_dataQuery hreq
  refine ⟨req, d, run, sql, binds, rows, hreq, hd, hrun, hsql, hanswer, ?_⟩
  rw [hrows, hquery (wantedOptions_dataQuery before _ _)]
  rfl

/-- The context that a call of the tool names. -/
def contextNameOf (args : Json) : Text := ((args.getStr "context_name".toList).getD []).trim

/-- Every call that the data service answers with rows opens a tab. -/
def OpenedTab.ofQuery {printF64 : Bool → Rat → Text} {serdeError : Json → Text} {before : DataService}
    (ctx : AgentCtx) (args : Json) (out : List Json) (hname : (contextNameOf args).isEmpty = false)
    (hout : queryRows printF64 serdeError before (dataQuery (contextNameOf args) args) = .ok out) :
    OpenedTab printF64 serdeError before where
  ctx := ctx
  args := args
  trace := [⟨.request "oos.cmd.data.query".toList (dataQuery (contextNameOf args) args),
      (Except.ok (rowsReply out) : Except Text Json)⟩,
    ⟨.emit ctx.turnId (.tabOpen (contextNameOf args) (.array out) ctx.viewHint), ()⟩]
  rest := .ret (.object [("ok".toList, .bool true),
    ("summary".toList, .string (summariseRows (.array out)))])
  run := by
    rw [runQuery, ← contextNameOf, hname]
    exact .act (.act (.refl _))
  served := by
    intro payload reply h
    obtain h | h := List.mem_cons.mp h
    · cases h
      rw [query, hout, wantedOptions_dataQuery]
    · cases List.mem_singleton.mp h
  contextName := contextNameOf args
  rows := .array out
  viewName := ctx.viewHint
  opened := List.mem_cons_of_mem _ List.mem_cons_self

/-! The view. -/

section View
variable {printF64 : Bool → Rat → Text} {serdeError : Json → Text}

theorem dataQueryResult_rows (rows : List Json) :
    dataQueryResult (some (rowsReply rows)) = ⟨.array (rows.map Js.ofJson), false⟩ := by
  rw [← ofItems_eq]
  rfl

/-- A reply with an error has no rows, whether its text is empty or not. -/
theorem dataQueryResult_error (e : Text) : (dataQueryResult (some (errorReply e))).rows = .array [] := by
  cases e <;> rfl

/-- The view's rows: all that the domain has by then, or none if they can not be read. -/
theorem fetchRows_eq (later : Option DataService) (contextName : Text) :
    fetchRows (answeredBy printF64 serdeError later) contextName =
      .array (match later.bind fun s => s.readAll contextName with
        | none => []
        | some (d, rows) =>
          rows.map fun row => Js.ofJson (rowToJson printF64 row (selectedFields d none))) := by
  cases later with
  | none => rfl
  | some s =>
    let payload : Json := .object [("domain".toList, .string contextName)]
    have hbare : (queryRows printF64 serdeError s payload).toOption = _ :=
      queryRows_bare (rfl : queryReqOf payload = some (contextName, bareReq))
    have hoptions : wantedOptions s payload = none :=
      wantedOptions_none (rfl : queryReqOf payload = some (contextName, bareReq)) rfl
    rw [Option.bind_some, fetchRows, answeredBy, Option.map_some, query, hoptions]
    cases hrows : queryRows printF64 serdeError s payload with
    | error e =>
      rw [hrows] at hbare
      rw [Option.map_eq_none_iff.mp hbare.symm]
      dsimp only
      rw [dataQueryResult_error, ite_self]
    | ok out =>
      rw [hrows] at hbare
      obtain ⟨r, hread, rfl⟩ := Option.map_eq_some_iff.mp hbare.symm
      rw [hread]
      dsimp only
      rw [dataQueryResult_rows, List.map_map, if_neg Bool.false_ne_true]
      rfl

/-- What a view is loaded with is found under the alias of its first domain, and only there. -/
theorem ReadyView.lookup_rowsPath (v : ReadyView) {rows : List Js} (h : v.rows = .array rows)
    {b : ViewDomainBinding} (hb : b ∈ v.def_.domains) :
    v.state.values.lookup (rowsPath b) = some v.rows.stringify ↔ UnderFirstAlias v.def_ b := by
  have hload : loadEnvelope .empty (buildRowsEnvelope v.def_ v.rows) =
      ViewState.set .empty (joinPath (primaryAlias v.def_) "rows".toList) v.rows.stringify := by
    rw [h]
    rfl
  obtain ⟨first, others, hdomains⟩ := List.exists_cons_of_ne_nil (List.ne_nil_of_mem hb)
  have hfirst : UnderFirstAlias v.def_ b ↔ first.alias_ = b.alias_ := by
    simp [UnderFirstAlias, hdomains]
  have hprimary : primaryAlias v.def_ = first.alias_ := by rw [primaryAlias, hdomains]
  rw [v.loaded, hload, ViewState.lookup_set, hfirst, rowsPath, hprimary]
  split
  · rename_i hpath
    exact iff_of_true rfl (joinPath_left_inj.mp hpath).symm
  · rename_i hpath
    exact iff_of_false nofun fun halias => hpath (joinPath_left_inj.mpr halias.symm)

section Named
variable {parseView : Text → Option ViewDef} {getView : Text → Resolver.Reply} {contextName : Text}
  {viewName : Option Text} {def_ : ViewDef} {b : ViewDomainBinding}

/-- A view over the domain is rendered, with the rows that are fetched for it. -/
theorem NamesView.load_eq (h : NamesView parseView getView contextName viewName def_ b)
    (request : Json → Option Json) :
    ∃ v, load parseView getView request contextName viewName = .ready v ∧ v.def_ = def_ ∧
      v.rows = fetchRows request contextName := by
  obtain ⟨name, rfl, hne, hdef⟩ := h.named
  have hcovers : contextName ∈ def_.domains.map ViewDomainBinding.name :=
    List.mem_map.mpr ⟨b, h.bound, h.ofDomain⟩
  have hover : mismatched contextName def_ = false := by
    simp only [mismatched, List.contains_iff_mem.mpr hcovers, Bool.not_true, Bool.and_false]
  obtain ⟨c, cs, rfl⟩ := List.exists_cons_of_ne_nil hne
  refine ⟨⟨def_, fetchRows request contextName, _, rfl⟩, ?_, rfl, rfl⟩
  simp only [load, hdef, hover, Bool.false_eq_true, if_false]

end Named

/-- The generic table shows the rows of an event as they are: each of them is an object. -/
theorem extractRows_event (contextName : Text) (rows : List Row) (d : DomainDef)
    (fields : Option (List Text)) :
    ∃ shown, extractRows (Js.ofJson (tabData contextName
        (.array (rows.map fun row => rowToJson printF64 row (selectedFields d fields))))) = some shown ∧
      Js.ofJson (.array (rows.map fun row => rowToJson printF64 row (selectedFields d fields))) =
        .array shown := by
  refine ⟨rows.map fun row => Js.ofJson (rowToJson printF64 row (selectedFields d fields)), ?_, ?_⟩
  · have hshown : ∀ row, shownRow (Js.ofJson (rowToJson printF64 row (selectedFields d fields))) =
        Js.ofJson (rowToJson printF64 row (selectedFields d fields)) := fun _ => rfl
    have hdata : ∀ rows' : List Json, extractRows (Js.ofJson (tabData contextName (.array rows'))) =
        some ((ofItems rows').map shownRow) := fun _ => rfl
    rw [hdata, ofItems_eq, List.map_map, List.map_map]
    exact congrArg some (List.map_congr_left fun row _ => hshown row)
  · rw [Js.ofJson, ofItems_eq, List.map_map]
    rfl

end View

/-! The condition. -/

/-- The rows a view comes to, compared with those of the event. -/
theorem sameRows_fetched_iff {printF64 : Bool → Rat → Text} {serdeError : Json → Text} {d : DomainDef}
    {req : QueryReq} {t : DomainTable} (later : Option DataService) (contextName : Text) :
    SameRows (Js.ofJson (.array ((t.select req).map fun row =>
        rowToJson printF64 row (selectedFields d req.fields))))
        (fetchRows (answeredBy printF64 serdeError later) contextName) ↔
      StillAll printF64 d req t (later.bind fun s => s.readAll contextName) := by
  rw [fetchRows_eq]
  cases later.bind fun s => s.readAll contextName with
  | none =>
    rw [Js.ofJson, ofItems_eq, SameRows, List.forall₂_nil_right_iff, List.map_eq_nil_iff,
      List.map_eq_nil_iff]
    rfl
  | some r => exact sameRows_iff

theorem mem_selectedFields {d : DomainDef} {fields : Option (List Text)} {name : Text}
    (h : name ∈ (selectedFields d fields).map Prod.fst) : name ∈ d.fields.map DomainFieldDef.name := by
  unfold selectedFields at h
  split at h
  · obtain ⟨e, he, rfl⟩ := List.mem_map.mp h
    obtain ⟨f, -, hf⟩ := List.mem_filterMap.mp he
    obtain ⟨g, hg, rfl⟩ := Option.map_eq_some_iff.mp hf
    have hname : g.name = f := by simpa using List.find?_some hg
    exact List.mem_map.mpr ⟨g, List.mem_of_find?_eq_some hg, hname⟩
  · rwa [List.map_map] at h

/-- Over a table that has not changed, the query has to leave out nothing. -/
theorem stillAll_unchanged_iff {printF64 : Bool → Rat → Text} {d : DomainDef} {req : QueryReq}
    {t : DomainTable} :
    StillAll printF64 d req t (some (d, t.rows)) ↔ t.rows = [] ∨ LeavesNothingOut printF64 d req t := by
  constructor
  · rintro (⟨-, hempty⟩ | ⟨hall, hrows⟩)
    · exact .inl hempty
    · obtain ⟨hpass, hlimit⟩ := DomainTable.select_eq_rows_iff.mp hrows.length_eq
      rw [DomainTable.select_of_all hpass hlimit] at hrows
      refine .inr ⟨fun f hf => ?_, hpass, hlimit, List.forall₂_same.mp hrows⟩
      exact (hall f.name).mpr (List.mem_map_of_mem hf)
  · rintro (hempty | h)
    · have hselect : t.select req = [] := by
        rw [DomainTable.select_of_all (by simp [hempty]) (by simp [hempty]), hempty]
      exact .inl ⟨hselect, hempty⟩
    · refine .inr ⟨fun name => ⟨mem_selectedFields, fun hname => ?_⟩, ?_⟩
      · obtain ⟨f, hf, rfl⟩ := List.mem_map.mp hname
        exact h.fields f hf
      · rw [DomainTable.select_of_all h.passes h.limit]
        exact List.forall₂_same.mpr h.typed

section Main
variable {printF64 : Bool → Rat → Text} {serdeError : Json → Text} {before : DataService}
  {parseView : Text → Option ViewDef} {getView : Text → Resolver.Reply} {def_ : ViewDef}
  {b : ViewDomainBinding}

/-- The view shows the rows of the event exactly if their domain is bound under the first alias of
the view, and those that the query let through are all that the domain has when the view reads
it; over an unchanged table, if the query leaves out nothing. -/
theorem view_shows_event_rows_iff (o : OpenedTab printF64 serdeError before) {d : DomainDef} {run : Run}
    {req : QueryReq} {t : DomainTable} (hd : before.store o.contextName = some d)
    (hrun : before.pool = some run)
    (hreq : queryReqOf (dataQuery o.contextName o.args) = some (o.contextName, req))
    (hselect : Selects run d t req)
    (hview : NamesView parseView getView o.contextName o.viewName def_ b) (later : Option DataService) :
    (ShowsEventRows def_ b o.contextName o.rows
        (load parseView getView (answeredBy printF64 serdeError later) o.contextName o.viewName) ↔
      UnderFirstAlias def_ b ∧
        StillAll printF64 d req t (later.bind fun s => s.readAll o.contextName)) ∧
    ((later.bind fun s => s.readAll o.contextName) = some (d, t.rows) →
      (ShowsEventRows def_ b o.contextName o.rows
          (load parseView getView (answeredBy printF64 serdeError later) o.contextName o.viewName) ↔
        UnderFirstAlias def_ b ∧ (t.rows = [] ∨ LeavesNothingOut printF64 d req t))) := by
  have hshows : ShowsEventRows def_ b o.contextName o.rows
      (load parseView getView (answeredBy printF64 serdeError later) o.contextName o.viewName) ↔
      UnderFirstAlias def_ b ∧
        StillAll printF64 d req t (later.bind fun s => s.readAll o.contextName) := by
    obtain ⟨req', d', run', sql, binds, rows, hreq', hd', hrun', hsql, hanswer, hevent⟩ := o.rows_eq
    obtain rfl : req = req' := by simpa [hreq] using hreq'
    obtain rfl : d = d' := by simpa [hd] using hd'
    obtain rfl : run = run' := by simpa [hrun] using hrun'
    obtain rfl := hselect sql binds rows hsql hanswer
    obtain ⟨v, hload, hdef, hv⟩ := hview.load_eq (answeredBy printF64 serdeError later)
    have hbound : v.state.values.lookup (rowsPath b) = some v.rows.stringify ↔ UnderFirstAlias def_ b := by
      have hread := hv
      rw [fetchRows_eq] at hread
      rw [← hdef]
      exact v.lookup_rowsPath hread (hdef ▸ hview.bound)
    rw [← sameRows_fetched_iff, ← hevent, hload, ← hv]
    constructor
    · rintro ⟨⟨v', hstage, -, hlookup, hsame⟩, -⟩
      cases hstage
      exact ⟨hbound.mp hlookup, hsame⟩
    · rintro ⟨halias, hsame⟩
      refine ⟨⟨v, rfl, hdef, hbound.mpr halias, hsame⟩, ?_⟩
      rw [hevent]
      exact extractRows_event ..
  refine ⟨hshows, fun hsame => ?_⟩
  rw [hshows, hsame]
  exact and_congr_right fun _ => stillAll_unchanged_iff

end Main

section People

def personDomain : DomainDef where
  name := "person".toList
  source := "person".toList
  dsn := "demo".toList
  fields := [⟨"id".toList, .int, true, false, none, []⟩]

def personRow (id : Text) : Row := fun name => if name = "id".toList then some id else none

def people : List Row := [personRow ['1'], personRow ['2']]

/-- Two people, of whom a limit of one lets the first through. -/
def runPeople : Run := fun sql _ =>
  .ok (if sql = "SELECT (id)::text AS id FROM person LIMIT 1".toList then people.take 1 else people)

def peopleService : DataService where
  store := fun name => if name = "person".toList then some personDomain else none
  pool := some runPeople
  lists := fun _ => runPeople

def askPeople (limit : Int) : Json :=
  .object [("context_name".toList, .string "person".toList),
    ("fields".toList, .array [.string "id".toList]), ("limit".toList, .number (.int limit))]

def peopleCtx : AgentCtx := ⟨"turn_1".toList, [], [], some "person_list".toList, 10, 0⟩

def personBinding : ViewDomainBinding := ⟨"person".toList, "p".toList, true⟩

def peopleView : ViewDef :=
  ⟨"person_list".toList, "People".toList,
    [personBinding, ⟨"address".toList, "a".toList, false⟩], true, ["id".toList]⟩

def personJson (id : Int) : Json := .object [("id".toList, .number (.int id))]

def showAll : OpenedTab (fun _ _ => []) (fun _ => []) peopleService :=
  .ofQuery peopleCtx (askPeople 5) [personJson 1, personJson 2] rfl rfl

def showFirst : OpenedTab (fun _ _ => []) (fun _ => []) peopleService :=
  .ofQuery peopleCtx (askPeople 1) [personJson 1] rfl rfl

def parsePeople (_ : Text) : Option ViewDef := some peopleView

def getPeopleView (_ : Text) : Resolver.Reply :=
  ⟨.ok (.object [("source".toList, .string "view person_list".toList)]), none⟩

theorem namesView_people :
    NamesView parsePeople getPeopleView "person".toList (some "person_list".toList) peopleView
      personBinding where
  named := ⟨_, rfl, by decide, rfl⟩
  bound := List.mem_cons_self
  ofDomain := rfl

/-- A limit that the table does not reach leaves out nothing. -/
theorem view_shows_all_people :
    ShowsEventRows peopleView personBinding showAll.contextName showAll.rows
      (load parsePeople getPeopleView (answeredBy (fun _ _ => []) (fun _ => []) (some peopleService))
        showAll.contextName showAll.viewName) := by
  let req : QueryReq := ⟨some ["id".toList], [], [], some 5, false⟩
  let t : DomainTable := ⟨people, fun _ _ => true⟩
  have hselect : Selects runPeople personDomain t req := by
    intro sql binds rows hsql hrows
    cases hsql
    cases hrows
    rfl
  have hsame : ((some peopleService).bind fun s => s.readAll showAll.contextName) =
      some (personDomain, t.rows) := rfl
  have hiff := (view_shows_event_rows_iff showAll rfl rfl rfl hselect namesView_people _).2 hsame
  refine hiff.mpr ⟨rfl, .inr ?_⟩
  refine ⟨by decide, fun _ _ => rfl, by decide, fun row _ name ty ty' hty hty' => ?_⟩
  -- the query names the one field, and reads it as the view does
  have htypes : selectedType personDomain none name = some ty := hty
  obtain rfl : ty = ty' := Option.some.inj (htypes.symm.trans hty')
  rfl

/-- The query was for one row, the view shows both. -/
theorem limited_query_shows_all :
    ¬ ∀ (printF64 : Bool → Rat → Text) (serdeError : Json → Text) (service : DataService)
      (o : OpenedTab printF64 serdeError service) (parseView : Text → Option ViewDef)
      (getView : Text → Resolver.Reply) (def_ : ViewDef) (b : ViewDomainBinding),
      NamesView parseView getView o.contextName o.viewName def_ b →
        ShowsEventRows def_ b o.contextName o.rows
          (load parseView getView (answeredBy printF64 serdeError (some service)) o.contextName
            o.viewName) := by
  intro hall
  obtain ⟨⟨v, hstage, -, -, hsame⟩, -⟩ := hall _ _ _ showFirst _ _ _ _ namesView_people
  obtain ⟨v', hload, -, hrows⟩ := namesView_people.load_eq
    (answeredBy (fun _ _ => []) (fun _ => []) (some peopleService))
  rw [show load _ _ _ showFirst.contextName showFirst.viewName = _ from hload] at hstage
  cases hstage
  rw [hrows, fetchRows_eq] at hsame
  exact absurd (List.Forall₂.length_eq hsame) (by decide)

end People

end Onisin.Ui.ViewRenderer
