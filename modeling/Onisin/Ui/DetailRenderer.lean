import Onisin.Gql.Rows
import Onisin.Gql.Statements
import Onisin.Ui.Envelope

/-!
The detail form. A record is read, put into the form's state as texts, and saved from there.
-/

set_option autoImplicit false

namespace Onisin.Ui
open Lib Domain Gql

/-- The local name of a view's primary domain, an identifier of the view language. -/
structure Alias where
  text : Text
  ne : text ≠ []
  plain : '.' ∉ text

def wrapDataAsEnvelope (alias_ : Text) (data : Js) (meta_ : Dict Js) : Dict Js :=
  [("content".toList, .object [(alias_, data)]), ("meta".toList, .object meta_)]

/-- The state of the form that a row was opened in. -/
def openDetail (alias_ : Text) (row : Json) (meta_ : Dict Js) : ViewState :=
  loadEnvelope .empty (wrapDataAsEnvelope alias_ (Js.ofJson row) meta_)

/-- A missing, blank or zero id: the record does not exist yet. -/
def isEmptyId : Option Text → Bool
  | none => true
  | some v => v.jsTrim = [] || v.jsTrim = ['0']

/-- Of several fields with one name the last is kept. -/
def indexDomainFields (d : DomainDef) : Dict DomainFieldDef :=
  Dict.putAll some (d.fields.map fun f => (f.name, f)) []

structure MutateRequest where
  op : Text
  set : Dict Text
  id : Option Text

/-- The id is sent on its own, and readonly fields are not sent. -/
def sentKey (d : DomainDef) (key : Text) : Option Text :=
  if key = "id".toList then none
  else if ((indexDomainFields d).lookup key).any DomainFieldDef.readOnly then none
  else ownProperty key

def doSave (d : DomainDef) (s : ViewState) : MutateRequest :=
  let flat := buildEvent s
  let idValue := flat.lookup "id".toList
  let isUpdate := !isEmptyId idValue
  { op := (if isUpdate then "update" else "insert").toList
    set := assignAll (sentKey d) flat.enumerate
    id := if isUpdate then idValue else none }

/-- The statement that the request becomes. -/
def MutateRequest.statement (d : DomainDef) (r : MutateRequest) : Except Text (Text × List Bind) :=
  buildMutate d r.op (r.set.map fun e => (e.1, Json.string e.2)) (r.id.map Json.string)

/-! What a save without an edit should do. -/

/-- A row of the domain's table: each declared column is NULL or has a value of its type. -/
structure StoredRow (pg : Postgres) (d : DomainDef) where
  value : Text → Option PgValue
  typed : ∀ f ∈ d.fields, ∀ v, value f.name = some v → pg.HasType v f.fieldType

def StoredRow.columns {pg : Postgres} {d : DomainDef} (row : StoredRow pg d) (name : Text) : Option Text :=
  (row.value name).map pg.show_

/-- The request for saving a row as it was opened. -/
def savedRequest {pg : Postgres} {d : DomainDef} (printF64 : Bool → Rat → Text) (a : Alias) (meta_ : Dict Js)
    (row : StoredRow pg d) : MutateRequest :=
  doSave d (openDetail a.text (rowToJson printF64 row.columns (selectedFields d none)) meta_)

/-- A bind gives a column an equal value, or NULL again. -/
def Restores (pg : Postgres) (ty : FieldType) : Bind → Option PgValue → Prop
  | none, none => True
  | some t, some v => ∃ w, pg.cast ty t = some w ∧ w.Same v
  | _, _ => False

def settable (d : DomainDef) : List DomainFieldDef := d.fields.filter fun f => !isFixed f

def idType (d : DomainDef) : FieldType := ((findField d "id".toList).map DomainFieldDef.fieldType).getD .int

/-- The request becomes an update of every settable column of the row, each by an equal value. A
column that is assigned twice is an error of the database, and no row has NULL for its id. -/
structure SavesUnchanged {pg : Postgres} {d : DomainDef} (row : StoredRow pg d) (r : MutateRequest) : Prop where
  update : r.op = "update".toList
  statement : ∃ binds idBind, r.statement d = .ok (updateText d (settable d), binds ++ [idBind]) ∧
    List.Forall₂ (fun f b => Restores pg f.fieldType b (row.value f.name)) (settable d) binds ∧
    Restores pg (idType d) idBind (row.value "id".toList) ∧ row.value "id".toList ≠ none
  distinct : ((settable d).map DomainFieldDef.name).Nodup

/-! When it does. -/

/-- The integers that are printed as themselves after a trip through a double. -/
def Kept : PgValue → Prop
  | .int n => jsNumberText (toString n).toList = (toString n).toList
  | _ => True

/-- An id that counts as none. -/
def IsBlank : PgValue → Prop
  | .int n => n = 0
  | .float (.finite _ x) => x = 0
  | .text s | .date s | .datetime s => isEmptyId (some s) = true
  | _ => False

/-- The declaration of a name that the form goes by. -/
def lastField (d : DomainDef) (name : Text) : Option DomainFieldDef :=
  d.fields.reverse.find? fun f => f.name = name

structure Savable {pg : Postgres} {d : DomainDef} (row : StoredRow pg d) : Prop where
  id : (findField d "id".toList).isSome ∧ ∃ v, row.value "id".toList = some v ∧ ¬IsBlank v ∧ Kept v
  settable : settable d ≠ []
  distinct : ((Ui.settable d).map DomainFieldDef.name).Nodup
  sent : ∀ f ∈ Ui.settable d, f.name ≠ "__proto__".toList ∧ (lastField d f.name).any DomainFieldDef.readOnly = false
  kept : ∀ f ∈ Ui.settable d, ∃ v, row.value f.name = some v ∧ Kept v

/-- The texts that doubles have in JSON are rounded to them. -/
def PrintsDoubles (printF64 : Bool → Rat → Text) : Prop :=
  ∀ neg x, (Double.finite neg x).Valid → toDouble |decimal (printF64 neg x)| = some x ∧
    (if neg then decimal (printF64 neg x) ≤ 0 else 0 ≤ decimal (printF64 neg x))

end Onisin.Ui
