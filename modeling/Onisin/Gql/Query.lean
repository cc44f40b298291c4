import Onisin.Gql.Rows
import Onisin.Gql.Teaching
import Onisin.Lib.Incremental

/-!
The query service: a request is read, compiled over its domain and run, and the rows of the
result are sent back under the names that were selected. What is wrong with a request comes back
in the reply.
-/

set_option autoImplicit false

namespace Onisin.Gql
open Lib Domain

/-! Reading a request. -/

/-- A member with a default. One that is there twice is an error. -/
def memberOr {α : Type} (fields : List (Text × Json)) (key : Text) (default : α)
    (read : Json → Option α) : Option α :=
  match fields.filter fun e => e.1 = key with
  | [] => some default
  | [e] => read e.2
  | _ => none

def listOf {α : Type} (read : Json → Option α) (v : Json) : Option (List α) :=
  v.asArray.bind fun items => items.mapM read

/-- Nothing for null. -/
def optional {α : Type} (read : Json → Option α) : Json → Option (Option α)
  | .null => some none
  | v => (read v).map some

/-- The members of a record, which may also be written as the list of its first fields. -/
def recordMembers (names : List Text) : Json → Option (List (Text × Json))
  | .object fields => some fields
  | .array items => if items.length ≤ names.length then some (names.zip items) else none
  | _ => none

def whereEntry (v : Json) : Option WhereCond := do
  let fields ← recordMembers [fieldKey, opKey, valueKey] v
  whereCondOf (.object fields)

def orderEntry (v : Json) : Option OrderTerm := do
  let fields ← recordMembers ["field".toList, "dir".toList] v
  let field ← (member fields "field".toList).bind Json.asStr
  let dir ← memberOr fields "dir".toList none (optional Json.asStr)
  return ⟨field, dir⟩

def i64Of : Json → Option Int
  | .number (.int n) => if IsI64 n then some n else none
  | _ => none

def queryMembers : List Text :=
  ["domain".toList, "fields".toList, "where".toList, "order".toList, "limit".toList, "withOptions".toList]

/-- The domain that is asked for, and the request. -/
def queryReqOf (payload : Json) : Option (Text × QueryReq) := do
  let fields ← recordMembers queryMembers payload
  let domain ← (member fields "domain".toList).bind Json.asStr
  let names ← memberOr fields "fields".toList none (optional (listOf Json.asStr))
  let conditions ← memberOr fields "where".toList [] (listOf whereEntry)
  let order ← memberOr fields "order".toList [] (listOf orderEntry)
  let limit ← memberOr fields "limit".toList none (optional i64Of)
  let withOptions ← memberOr fields "withOptions".toList false Json.asBool
  return (domain, ⟨names, conditions, order, limit, withOptions⟩)

/-! The service. -/

/-- A row of a result: the text of each column, none for NULL. -/
abbrev Row := Text → Option Text

/-- Running a statement with its binds. -/
abbrev Run := Text → List Bind → Except Text (List Row)

/-- The service while it answers a request. Its option lists are read one by one behind the rows,
from the database as it is by then. -/
structure DataService where
  store : Text → Option DomainDef
  pool : Option Run
  lists : Nat → Run

def errorReply (message : Text) : Json := .object [("error".toList, .string message)]

def rowsReply (rows : List Json) : Json := .object [("rows".toList, .array rows)]

def optionsReply (rows : List Json) (options : Json) : Json :=
  .object [("options".toList, options), ("rows".toList, .array rows)]

/-! Option lists. -/

def valueColumn : Text := "value".toList

def labelColumn : Text := "label".toList

def optionsSql (m : MetaDef) : Text :=
  "SELECT (".toList ++ m.valueField ++ ")::text AS value, (".toList ++ m.labelField ++
    ")::text AS label FROM ".toList ++ m.table ++ (m.orderBy.map (" ORDER BY ".toList ++ ·)).getD []

def optionJson (row : Row) : Json :=
  .object [(labelColumn, ((row labelColumn).map Json.string).getD .null),
    (valueColumn, ((row valueColumn).map Json.string).getD .null)]

/-- The list of a meta; one that cannot be loaded is empty. -/
def optionList (pool : Run) (m : MetaDef) : List Json :=
  ((pool (optionsSql m) []).toOption.getD []).map optionJson

def loadOptions (d : DomainDef) (lists : Nat → Run) : Json :=
  .object (Dict.ofPairs (d.metas.zipIdx.map fun m => (m.1.name, .array (optionList (lists m.2) m.1))))

section Query
-- how a finite double is printed, and what is said of a payload that is no request
variable (printF64 : Bool → Rat → Text) (serdeError : Json → Text)

def queryRows (s : DataService) (payload : Json) : Except Text (List Json) :=
  match queryReqOf payload with
  | none => .error ("bad request: ".toList ++ serdeError payload)
  | some (name, req) =>
    match s.store name with
    | none => .error ("unknown domain \"".toList ++ name ++ "\"".toList)
    | some d =>
      match s.pool with
      | none => .error "database unavailable".toList
      | some exec => do
        let (sql, binds) ← buildSelect d req
        let rows ← exec sql binds
        return rows.map fun row => rowToJson printF64 row (selectedFields d req.fields)

/-- The option lists, if the request wants them. -/
def wantedOptions (s : DataService) (payload : Json) : Option Json := do
  let (name, req) ← queryReqOf payload
  let d ← s.store name
  if req.withOptions then some (loadOptions d s.lists) else none

def query (s : DataService) (payload : Json) : Json :=
  match queryRows printF64 serdeError s payload with
  | .error e => errorReply e
  | .ok rows =>
    match wantedOptions s payload with
    | some options => optionsReply rows options
    | none => rowsReply rows

end Query

/-! The rows that a statement reads. -/

/-- The table of a domain: its rows in the order in which the database reads them, and which of
them a condition holds for. -/
structure DomainTable where
  rows : List Row
  holds : WhereCond → Row → Bool

def DomainTable.passes (t : DomainTable) (req : QueryReq) (row : Row) : Bool :=
  req.conditions.all fun c => t.holds c row

def limited (limit : Option Int) (rows : List Row) : List Row :=
  match limit with
  | none => rows
  | some n => rows.take n.toNat

/-- What `SELECT .. WHERE .. LIMIT` leaves of the table. -/
def DomainTable.select (t : DomainTable) (req : QueryReq) : List Row :=
  limited req.limit (t.rows.filter (t.passes req))

/-- The statement of the request, run over the table, as the documentation of the database has it. -/
def Selects (exec : Run) (d : DomainDef) (t : DomainTable) (req : QueryReq) : Prop :=
  ∀ sql binds rows, buildSelect d req = .ok (sql, binds) → exec sql binds = .ok rows →
    rows = t.select req

/-- A request for all there is. -/
def bareReq : QueryReq := ⟨none, [], [], none, false⟩

/-- The rows of a domain, if the service can read them. -/
def DataService.readAll (s : DataService) (name : Text) : Option (DomainDef × List Row) := do
  let d ← s.store name
  let exec ← s.pool
  let (sql, binds) ← (buildSelect d bareReq).toOption
  let rows ← (exec sql binds).toOption
  return (d, rows)

theorem DomainTable.select_eq_rows_iff {t : DomainTable} {req : QueryReq} :
    (t.select req).length = t.rows.length ↔
      (∀ row ∈ t.rows, t.passes req row = true) ∧ ∀ n ∈ req.limit, t.rows.length ≤ n.toNat := by
  have hfilter : (t.rows.filter (t.passes req)).length ≤ t.rows.length := List.length_filter_le _ _
  rw [← List.length_filter_eq_length_iff, DomainTable.select]
  cases hlimit : req.limit with
  | none => simp [limited]
  | some n =>
    simp only [limited, List.length_take, Option.mem_def, Option.some.injEq, forall_eq']
    omega

theorem DomainTable.select_of_all {t : DomainTable} {req : QueryReq}
    (hpass : ∀ row ∈ t.rows, t.passes req row = true)
    (hlimit : ∀ n ∈ req.limit, t.rows.length ≤ n.toNat) : t.select req = t.rows := by
  rw [DomainTable.select, List.filter_eq_self.mpr hpass]
  cases h : req.limit with
  | none => rfl
  | some n => exact List.take_of_length_le (hlimit n h)

/-! What a query replies. -/

section Reply
variable {printF64 : Bool → Rat → Text} {serdeError : Json → Text} {s : DataService} {payload : Json}

theorem queryRows_eq_ok {out : List Json} :
    queryRows printF64 serdeError s payload = .ok out ↔
      ∃ name req d exec sql binds rows, queryReqOf payload = some (name, req) ∧ s.store name = some d ∧
        s.pool = some exec ∧ buildSelect d req = .ok (sql, binds) ∧ exec sql binds = .ok rows ∧
        out = rows.map fun row => rowToJson printF64 row (selectedFields d req.fields) := by
  constructor
  · intro h
    rw [queryRows] at h
    split at h
    · cases h
    · rename_i name req hreq
      split at h
      · cases h
      · rename_i d hd
        split at h
        · cases h
        · rename_i exec hrun
          obtain ⟨⟨sql, binds⟩, hsql, h⟩ := bind_eq_ok.mp h
          obtain ⟨rows, hrows, h⟩ := bind_eq_ok.mp h
          cases h
          exact ⟨name, req, d, exec, sql, binds, rows, hreq, hd, hrun, hsql, hrows, rfl⟩
  · rintro ⟨name, req, d, exec, sql, binds, rows, hreq, hd, hrun, hsql, hrows, rfl⟩
    simp only [queryRows, hreq, hd, hrun, hsql]
    simp only [bind, Except.bind, hrows]
    rfl

/-- Options are loaded for those only who want them. -/
theorem wantedOptions_none {name : Text} {req : QueryReq} (hreq : queryReqOf payload = some (name, req))
    (h : req.withOptions = false) : wantedOptions s payload = none := by
  simp only [wantedOptions, hreq, Option.bind_eq_bind, Option.bind_some]
  cases s.store name with
  | none => rfl
  | some d => simp [h]

/-- A reply that is no error holds the rows. -/
theorem query_no_error (h : (query printF64 serdeError s payload).getStr "error".toList = none) :
    ∃ out, queryRows printF64 serdeError s payload = .ok out ∧
      (wantedOptions s payload = none → query printF64 serdeError s payload = rowsReply out) := by
  rw [query] at h ⊢
  cases hrows : queryRows printF64 serdeError s payload with
  | ok out => exact ⟨out, rfl, fun hnone => by simp only [hnone]⟩
  | error e =>
    rw [hrows] at h
    cases h

theorem buildSelect_bare (d : DomainDef) : ∃ sql, buildSelect d bareReq = .ok (sql, []) := ⟨_, rfl⟩

/-- What a request for all rows comes to. -/
theorem queryRows_bare {name : Text} (hreq : queryReqOf payload = some (name, bareReq)) :
    (queryRows printF64 serdeError s payload).toOption = (s.readAll name).map fun r =>
      r.2.map fun row => rowToJson printF64 row (selectedFields r.1 none) := by
  simp only [queryRows, hreq, DataService.readAll]
  cases s.store name with
  | none => rfl
  | some d =>
    cases s.pool with
    | none => rfl
    | some exec =>
      obtain ⟨sql, hsql⟩ := buildSelect_bare d
      simp only [hsql, Option.bind_eq_bind, Option.bind_some, Except.toOption]
      simp only [bind, Except.bind]
      cases hrows : exec sql [] with
      | error e => rfl
      | ok rows => rfl

end Reply

end Onisin.Gql
