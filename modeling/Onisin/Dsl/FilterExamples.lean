import Onisin.Dsl.Domain

/-!
The filter section of the text a language model is taught a domain with: the operators of each
filterable field, and examples of `where` entries, one by default and those of the author.
-/

set_option autoImplicit false

namespace Onisin.Domain
open Lib

/-- A value in the form it has in an entry: in quotes, or bare. -/
inductive Shown where
  | quoted (s : Text)
  | bare (s : Text)
  deriving DecidableEq, Repr

def Shown.text : Shown → Text
  | .quoted s => "\"".toList ++ s ++ "\"".toList
  | .bare s => s

structure FilterOp where
  name : ExampleOp
  label : Text
  token : Text
  sampleValue : Shown
  deriving DecidableEq, Repr

def operatorsForType : FieldType → List FilterOp
  | .string | .text =>
    [⟨.like, "contains".toList, "contains".toList, .quoted "a".toList⟩,
      ⟨.eq, "equals".toList, "eq".toList, .quoted "value".toList⟩,
      ⟨.ne, "not equals".toList, "ne".toList, .quoted "value".toList⟩]
  | .int | .float =>
    [⟨.eq, "equals".toList, "eq".toList, .bare "0".toList⟩,
      ⟨.ne, "not equals".toList, "ne".toList, .bare "0".toList⟩,
      ⟨.gt, "greater than".toList, "gt".toList, .bare "0".toList⟩,
      ⟨.ge, "greater or equal".toList, "gte".toList, .bare "0".toList⟩,
      ⟨.lt, "less than".toList, "lt".toList, .bare "0".toList⟩,
      ⟨.le, "less or equal".toList, "lte".toList, .bare "0".toList⟩]
  | .bool => [⟨.eq, "equals".toList, "eq".toList, .bare "true".toList⟩]
  | .date | .datetime =>
    [⟨.eq, "equals".toList, "eq".toList, .quoted "2024-01-01".toList⟩,
      ⟨.gt, "after".toList, "gt".toList, .quoted "2024-01-01".toList⟩,
      ⟨.lt, "before".toList, "lt".toList, .quoted "2024-01-01".toList⟩]

def findOperator (t : FieldType) (op : ExampleOp) : Option FilterOp :=
  (operatorsForType t).find? fun o => o.name = op

/-- Strings are quoted as they are, without escapes. -/
def formatExampleValue (t : FieldType) (value : Text) (valueIsString : Bool) : Shown :=
  if valueIsString then .quoted value
  else if t = .string ∨ t = .text then .quoted value
  else .bare value

def entryField : Text := "\x7b \"field\": \"".toList

def entryOp : Text := "\", \"op\": \"".toList

def entryValue : Text := "\", \"value\": ".toList

def entryEnd : Text := " \x7d".toList

def renderWhereEntry (field token : Text) (value : Shown) : Text :=
  entryField ++ field ++ entryOp ++ token ++ entryValue ++ value.text ++ entryEnd

/-- A line with one entry: what it says in front of it, and what the entry is made of. -/
structure ExampleLine where
  header : Text
  field : DomainFieldDef
  op : FilterOp
  value : Shown
  deriving DecidableEq, Repr

def ExampleLine.entry (l : ExampleLine) : Text := renderWhereEntry l.field.name l.op.token l.value

def ExampleLine.text (l : ExampleLine) : Text :=
  l.header ++ ": [".toList ++ l.entry ++ "]\n".toList

def exampleHeader (f : DomainFieldDef) (op : FilterOp) : Text :=
  "where example (".toList ++ f.name ++ " ".toList ++ op.label ++ ")".toList

def defaultLine (f : DomainFieldDef) : Option ExampleLine :=
  (operatorsForType f.fieldType).head?.map fun op => ⟨exampleHeader f op, f, op, op.sampleValue⟩

/-- An operator the type does not have is passed over. -/
def authorLine (f : DomainFieldDef) (ex : ExampleDef) : Option ExampleLine :=
  (findOperator f.fieldType ex.op).map fun op =>
    let header := exampleHeader f op
    ⟨if ex.description.isEmpty then header else header ++ " — ".toList ++ ex.description, f, op,
      formatExampleValue f.fieldType ex.value ex.valueIsString⟩

def fieldLines (f : DomainFieldDef) : List ExampleLine :=
  (defaultLine f).toList ++ f.examples.filterMap (authorLine f)

def filterableFields (d : DomainDef) : List DomainFieldDef := d.fields.filter DomainFieldDef.filterable

def exampleLines (d : DomainDef) : List ExampleLine := (filterableFields d).flatMap fieldLines

/-- Two default entries in one array, for the first two filterable fields. -/
def renderMultiFilterExample (a b : DomainFieldDef) : Option Text := do
  let opA ← (operatorsForType a.fieldType).head?
  let opB ← (operatorsForType b.fieldType).head?
  return "where example (combined — ".toList ++ a.name ++ " and ".toList ++ b.name ++
    ", AND): [".toList ++ renderWhereEntry a.name opA.token opA.sampleValue ++ ", ".toList ++
    renderWhereEntry b.name opB.token opB.sampleValue ++ "]\n".toList

def combinedLine : List DomainFieldDef → Text
  | a :: b :: _ => (renderMultiFilterExample a b).getD []
  | _ => []

def writeFilterExamples (d : DomainDef) : Text :=
  let filterable := filterableFields d
  if filterable.isEmpty then []
  else
    let byField := filterable.map fun f =>
      f.name ++ " [".toList ++
        Text.join ", ".toList ((operatorsForType f.fieldType).map FilterOp.token) ++ "]".toList
    "Filterable fields: ".toList ++ Text.join ", ".toList (filterable.map DomainFieldDef.name) ++
      "\nFilter with a where array; each entry is \x7b \"field\": <name>, \"op\": <op>, ".toList ++
      "\"value\": <value> \x7d. Multiple entries are AND-combined.\n".toList ++
      "Allowed operators by field: ".toList ++ Text.join " | ".toList byField ++ "\n".toList ++
      (exampleLines d).flatMap ExampleLine.text ++ combinedLine filterable

end Onisin.Domain
