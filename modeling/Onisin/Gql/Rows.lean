import Onisin.Gql.Data
import Onisin.Lib.RustNumber

/-!
Rows of a result. Every column is read as text and typed again from the domain. The database
itself is not part of the repository: what a column holds, how it is rendered as text and how
text is cast is a parameter, with the laws that reading and writing rely on.
-/

set_option autoImplicit false

namespace Onisin.Gql
open Lib Domain

/-! Reading a row. -/

section Rows
-- the text that a finite double is printed as in JSON
variable (printF64 : Bool → Rat → Text)

/-- The JSON number of a double; only a finite one has one. -/
def numberFromF64 : Double → Option Json
  | .finite neg x => some (.number (.float (printF64 neg x)))
  | _ => none

def isTrueText (s : Text) : Bool :=
  s = "t".toList || s = "true".toList || s = "TRUE".toList || s = "T".toList

/-- A value that does not parse stays the text it is. -/
def retype (s : Text) : FieldType → Json
  | .int => ((parseI64 s.trim).map fun n => Json.number (.int n)).getD (.string s)
  | .float => ((parseF64 s.trim).bind (numberFromF64 printF64)).getD (.string s)
  | .bool => .bool (isTrueText s)
  | _ => .string s

def selectedFields (d : DomainDef) : Option (List Text) → List (Text × FieldType)
  | some (f :: fs) => (f :: fs).filterMap fun f => (findField d f).map fun g => (f, g.fieldType)
  | _ => d.fields.map fun f => (f.name, f.fieldType)

/-- The columns of a row by their names; an absent one is NULL. -/
def rowToJson (row : Text → Option Text) (fields : List (Text × FieldType)) : Json :=
  .object (Dict.ofPairs (fields.map fun f =>
    (f.1, ((row f.1).map fun s => retype printF64 s f.2).getD .null)))

end Rows

/-! The database. -/

/-- A value of a column. Dates and times are named by the text they are rendered as. -/
inductive PgValue where
  | int (n : Int)
  | float (x : Double)
  | bool (b : Bool)
  | text (s : Text)
  | date (s : Text)
  | datetime (s : Text)
  deriving DecidableEq, Repr

/-- Equality of SQL. -/
def PgValue.Same : PgValue → PgValue → Prop
  | .float x, .float y => x.Same y
  | v, w => v = w

structure Postgres where
  /-- The text of a finite double. -/
  showFinite : Bool → Rat → Text
  /-- The cast of a text to the type of a field; none is an error. -/
  cast : FieldType → Text → Option PgValue

namespace Postgres
variable (pg : Postgres)

def showDouble : Double → Text
  | .nan => "NaN".toList
  | .infinite neg => (if neg then "-Infinity" else "Infinity").toList
  | .finite neg x => pg.showFinite neg x

/-- The text of a value, as `::text` renders it. -/
def show_ : PgValue → Text
  | .int n => (toString n).toList
  | .float x => pg.showDouble x
  | .bool b => (if b then "true" else "false").toList
  | .text s | .date s | .datetime s => s

def HasType : PgValue → FieldType → Prop
  | .int n, .int => IsI64 n
  | .float x, .float => x.Valid
  | .bool _, .bool => True
  | .text _, .string | .text _, .text => True
  | .date s, .date => pg.cast .date s = some (.date s)
  | .datetime s, .datetime => pg.cast .datetime s = some (.datetime s)
  | _, _ => False

/-- What the documentation of the database says of its texts and casts. -/
structure Lawful : Prop where
  /-- The text of a double has enough digits to be read as it. -/
  read_finite : ∀ {neg : Bool} {x : Rat}, (Double.finite neg x).Valid →
    parseF64 (Text.trim (pg.showFinite neg x)) = some (.finite neg x)
  cast_int : ∀ n : Int, pg.cast .int (toString n).toList = if IsI64 n then some (.int n) else none
  /-- A literal is rounded to the nearest double, unless it is too large or too small for one. -/
  cast_float : ∀ (l : SciLit) {x : Rat}, toDouble l.magnitude = some x → (x = 0 → l.magnitude = 0) →
    pg.cast .float l.text = some (.float (.finite l.lit.neg x))
  cast_special : ∀ x : Double, (∀ neg q, x ≠ .finite neg q) →
    pg.cast .float (pg.showDouble x) = some (.float x)
  cast_bool : ∀ b : Bool, pg.cast .bool (pg.show_ (.bool b)) = some (.bool b)
  cast_text : ∀ s : Text, pg.cast .string s = some (.text s) ∧ pg.cast .text s = some (.text s)
  /-- The empty text is a text only. -/
  cast_empty : ∀ {ty : FieldType} {v : PgValue}, pg.cast ty [] = some v → v = .text []

end Postgres

end Onisin.Gql
