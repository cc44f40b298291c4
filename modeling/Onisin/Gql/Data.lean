import Onisin.Dsl.Domain
import Onisin.Lib.Dict
import Onisin.Lib.JsonText

/-!
Queries and mutations over a domain, compiled to SQL with bound values. Every part of a request
is checked against the domain before a statement is built; values only ever become binds.
-/

set_option autoImplicit false

namespace Onisin.Gql
open Lib Domain

structure WhereCond where
  field : Text
  op : Text
  value : Json

structure OrderTerm where
  field : Text
  dir : Option Text
  deriving DecidableEq, Repr

structure QueryReq where
  fields : Option (List Text)
  conditions : List WhereCond
  order : List OrderTerm
  limit : Option Int
  withOptions : Bool

/-- A value for a placeholder; an absent one is NULL. -/
abbrev Bind := Option Text

/-! Validation and mapping. -/

def findField (d : DomainDef) (name : Text) : Option DomainFieldDef :=
  d.fields.find? fun f => f.name = name

/-- The first name that is not declared. -/
def undeclared (d : DomainDef) (fields : List Text) : Option Text :=
  fields.find? fun f => (findField d f).isNone

def columnNames (d : DomainDef) (fields : Option (List Text)) : Except Text (List Text) :=
  match fields with
  | some (f :: fs) =>
    match undeclared d (f :: fs) with
    | some name => .error ("unknown field '".toList ++ name ++ "'".toList)
    | none => .ok (f :: fs)
  | _ => .ok (d.fields.map DomainFieldDef.name)

def allowedOps : FieldType → List Text
  | .string | .text => ["eq".toList, "ne".toList, "contains".toList]
  | .int | .float => ["eq".toList, "ne".toList, "gt".toList, "gte".toList, "lt".toList, "lte".toList]
  | .bool => ["eq".toList]
  | .date | .datetime => ["eq".toList, "gt".toList, "lt".toList]

def opSql (op : Text) : Option Text :=
  if op = "eq".toList then some "=".toList
  else if op = "ne".toList then some "<>".toList
  else if op = "gt".toList then some ">".toList
  else if op = "gte".toList then some ">=".toList
  else if op = "lt".toList then some "<".toList
  else if op = "lte".toList then some "<=".toList
  else none

def pgCast : FieldType → Text
  | .int => "bigint".toList
  | .float => "double precision".toList
  | .bool => "boolean".toList
  | .string | .text => "text".toList
  | .date => "date".toList
  | .datetime => "timestamptz".toList

def idCast (d : DomainDef) : Text :=
  ((findField d "id".toList).map fun f => pgCast f.fieldType).getD "bigint".toList

/-- The text form of a value, wrapped in `%` for a search. -/
def coerceBind (v : Json) (contains : Bool) : Bind :=
  let wrap (s : Text) : Bind := some (if contains then "%".toList ++ s ++ "%".toList else s)
  match v with
  | .null => none
  | .string s => wrap s
  | v => wrap v.print

def placeholder (i : Nat) : Text := "$".toList ++ (toString i).toList

/-! Statements. -/

def columnText (name : Text) : Text := "(".toList ++ name ++ ")::text AS ".toList ++ name

structure Conditions where
  next : Nat
  parts : List Text
  binds : List Bind

/-- The field of a condition, checked for being filterable by the operator. -/
def conditionField (d : DomainDef) (name op : Text) : Except Text DomainFieldDef :=
  match findField d name with
  | none => .error ("unknown field '".toList ++ name ++ "'".toList)
  | some field =>
    if !(field.filterable || field.name = "id".toList) then
      .error ("field '".toList ++ name ++ "' is not filterable".toList)
    else if !(allowedOps field.fieldType).contains op then
      .error ("operator '".toList ++ op ++ "' not allowed on '".toList ++ name ++ "'".toList)
    else .ok field

/-- One condition of the WHERE clause. -/
def pushCondition (d : DomainDef) (s : Conditions) (c : WhereCond) : Except Text Conditions := do
  let field ← conditionField d c.field c.op
  if c.op = "contains".toList then
    return ⟨s.next + 1, s.parts ++ [field.name ++ " ILIKE ".toList ++ placeholder s.next],
      s.binds ++ [coerceBind c.value true]⟩
  else
    match opSql c.op with
    -- the operator was validated, so that this does not happen
    | none => .error "op already validated".toList
    | some sqlop =>
      return ⟨s.next + 1,
        s.parts ++ [field.name ++ " ".toList ++ sqlop ++ " ".toList ++ placeholder s.next ++
          "::".toList ++ pgCast field.fieldType],
        s.binds ++ [coerceBind c.value false]⟩

def whereClause (d : DomainDef) (conditions : List WhereCond) : Except Text (Text × List Bind) :=
  if conditions.isEmpty then .ok ([], [])
  else do
    let s ← conditions.foldlM (pushCondition d) ⟨1, [], []⟩
    return (" WHERE ".toList ++ Text.join " AND ".toList s.parts, s.binds)

def orderDir : Option Text → Except Text Text
  | none => .ok "ASC".toList
  | some dir =>
    if dir = "asc".toList ∨ dir = "ASC".toList then .ok "ASC".toList
    else if dir = "desc".toList ∨ dir = "DESC".toList then .ok "DESC".toList
    else .error ("invalid order direction '".toList ++ dir ++ "'".toList)

def orderTerm (d : DomainDef) (o : OrderTerm) : Except Text Text :=
  if (findField d o.field).isNone then .error ("unknown order field '".toList ++ o.field ++ "'".toList)
  else (orderDir o.dir).map fun dir => o.field ++ " ".toList ++ dir

def orderClause (d : DomainDef) (order : List OrderTerm) : Except Text Text :=
  if order.isEmpty then .ok []
  else do
    let terms ← order.mapM (orderTerm d)
    return " ORDER BY ".toList ++ Text.join ", ".toList terms

def limitClause : Option Int → Except Text Text
  | none => .ok []
  | some n =>
    if n < 0 then .error "limit must be >= 0".toList
    else .ok (" LIMIT ".toList ++ (toString n).toList)

def buildSelect (d : DomainDef) (req : QueryReq) : Except Text (Text × List Bind) := do
  let cols ← columnNames d req.fields
  let sql := "SELECT ".toList ++ Text.join ", ".toList (cols.map columnText) ++ " FROM ".toList ++ d.source
  let (where_, binds) ← whereClause d req.conditions
  let order ← orderClause d req.order
  let limit ← limitClause req.limit
  return (sql ++ where_ ++ order ++ limit, binds)

structure Assignments where
  next : Nat
  cols : List Text
  placeholders : List Text
  binds : List Bind

/-- Readonly fields and `id` are never set, whatever the caller sends. -/
def isFixed (f : DomainFieldDef) : Bool := f.readOnly || f.name = "id".toList

def pushAssignment (set : Dict Json) (s : Assignments) (f : DomainFieldDef) : Assignments :=
  if isFixed f then s
  else
    match set.lookup f.name with
    | none => s
    | some v =>
      ⟨s.next + 1, s.cols ++ [f.name],
        s.placeholders ++ [placeholder s.next ++ "::".toList ++ pgCast f.fieldType],
        s.binds ++ [coerceBind v false]⟩

def settableAssignments (d : DomainDef) (set : Dict Json) (start : Nat) : Assignments :=
  d.fields.foldl (pushAssignment set) ⟨start, [], [], []⟩

def returning (d : DomainDef) : Text :=
  Text.join ", ".toList (d.fields.map fun f => columnText f.name)

def buildMutate (d : DomainDef) (op : Text) (set : Dict Json) (id : Option Json) :
    Except Text (Text × List Bind) :=
  if op = "insert".toList then
    let s := settableAssignments d set 1
    if s.cols.isEmpty then .error "no settable field supplied".toList
    else
      .ok ("INSERT INTO ".toList ++ d.source ++ " (".toList ++ Text.join ", ".toList s.cols ++
        ") VALUES (".toList ++ Text.join ", ".toList s.placeholders ++ ") RETURNING ".toList ++
        returning d, s.binds)
  else if op = "update".toList then
    match id with
    | none => .error "id required for update".toList
    | some id =>
      let s := settableAssignments d set 1
      if s.cols.isEmpty then .error "no settable field supplied".toList
      else
        let setClause := Text.join ", ".toList
          ((s.cols.zip s.placeholders).map fun cp => cp.1 ++ " = ".toList ++ cp.2)
        .ok ("UPDATE ".toList ++ d.source ++ " SET ".toList ++ setClause ++ " WHERE id = ".toList ++
          placeholder (s.binds.length + 1) ++ "::".toList ++ idCast d ++ " RETURNING ".toList ++
          returning d, s.binds ++ [coerceBind id false])
  else if op = "delete".toList then
    match id with
    | none => .error "id required for delete".toList
    | some id =>
      .ok ("DELETE FROM ".toList ++ d.source ++ " WHERE id = $1::".toList ++ idCast d ++
        " RETURNING ".toList ++ returning d, [coerceBind id false])
  else .error ("unknown op '".toList ++ op ++ "'".toList)

end Onisin.Gql
