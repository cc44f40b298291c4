import Onisin.Lib.Parsing

/-!
The domain language: the runtime form of a parsed `.domain` source, and the tokens its parser
reads. Keywords are identifiers; the parser tells them by their text where it expects them.
-/

set_option autoImplicit false

namespace Onisin.Domain
open Lib

inductive FieldType where
  | int
  | float
  | string
  | text
  | bool
  | date
  | datetime
  deriving DecidableEq, Repr

inductive ExampleOp where
  | eq
  | ne
  | lt
  | le
  | gt
  | ge
  | like
  | in_
  deriving DecidableEq, Repr

inductive PermissionAction where
  | read
  | write
  | delete
  deriving DecidableEq, Repr

inductive RelationKind where
  | hasMany
  | hasOne
  | belongsTo
  deriving DecidableEq, Repr

structure ExampleDef where
  op : ExampleOp
  value : Text
  valueIsString : Bool
  description : Text
  deriving DecidableEq, Repr

structure PermissionDef where
  role : Text
  actions : List PermissionAction
  deriving DecidableEq, Repr

structure RelationDef where
  name : Text
  kind : RelationKind
  target : Text
  localField : Text
  foreignField : Text
  deriving DecidableEq, Repr

structure MetaDef where
  name : Text
  table : Text
  valueField : Text
  labelField : Text
  orderBy : Option Text
  dsn : Option Text
  deriving DecidableEq, Repr

structure DomainFieldDef where
  name : Text
  fieldType : FieldType
  readOnly : Bool
  filterable : Bool
  optionsRef : Option Text
  examples : List ExampleDef
  deriving DecidableEq, Repr

structure AiHintDef where
  name : Text
  body : Text
  deriving DecidableEq, Repr

structure DomainDef where
  name : Text
  source : Text
  dsn : Text
  permissions : List PermissionDef := []
  fields : List DomainFieldDef := []
  relations : List RelationDef := []
  metas : List MetaDef := []
  aiHints : List AiHintDef := []
  aliases : List Text := []
  deriving DecidableEq, Repr

inductive Tok where
  | ident (s : Text)
  | number (s : Text)
  | str (s : Text)
  | lBrace
  | rBrace
  | lBracket
  | rBracket
  | colon
  | comma
  | atSign
  | eq
  | arrow
  deriving DecidableEq, Repr

/-! The words of the language that stand for a value. -/

def PermissionAction.keyword : PermissionAction → Text
  | .read => "read".toList
  | .write => "write".toList
  | .delete => "delete".toList

def FieldType.keyword : FieldType → Text
  | .int => "int".toList
  | .float => "float".toList
  | .string => "string".toList
  | .text => "text".toList
  | .bool => "bool".toList
  | .date => "date".toList
  | .datetime => "datetime".toList

def ExampleOp.keyword : ExampleOp → Text
  | .eq => "eq".toList
  | .ne => "ne".toList
  | .lt => "lt".toList
  | .le => "le".toList
  | .gt => "gt".toList
  | .ge => "ge".toList
  | .like => "like".toList
  | .in_ => "in".toList

def RelationKind.keyword : RelationKind → Text
  | .hasMany => "has_many".toList
  | .hasOne => "has_one".toList
  | .belongsTo => "belongs_to".toList

/-- The value among `all` that a word stands for. -/
def ofKeyword {α : Type} (all : List α) (keyword : α → Text) (word : Text) : Option α :=
  all.find? fun a => keyword a = word

def PermissionAction.all : List PermissionAction := [.read, .write, .delete]

def FieldType.all : List FieldType := [.int, .float, .string, .text, .bool, .date, .datetime]

def ExampleOp.all : List ExampleOp := [.eq, .ne, .lt, .le, .gt, .ge, .like, .in_]

def RelationKind.all : List RelationKind := [.hasMany, .hasOne, .belongsTo]

theorem ofKeyword_some {α : Type} {all : List α} {keyword : α → Text} {word : Text} {a : α}
    (h : ofKeyword all keyword word = some a) : word = keyword a := by
  have hword := List.find?_some h
  simpa using (of_decide_eq_true hword).symm

theorem ofKeyword_injective {α : Type} {all : List α} {keyword : α → Text}
    (hall : ∀ a, ofKeyword all keyword (keyword a) = some a) : Function.Injective keyword := by
  intro a b h
  exact Option.some.inj ((hall a).symm.trans (h ▸ hall b))

theorem PermissionAction.ofKeyword_keyword (a : PermissionAction) :
    ofKeyword all keyword a.keyword = some a := by cases a <;> decide

theorem FieldType.ofKeyword_keyword (a : FieldType) : ofKeyword all keyword a.keyword = some a := by
  cases a <;> decide

theorem ExampleOp.ofKeyword_keyword (a : ExampleOp) : ofKeyword all keyword a.keyword = some a := by
  cases a <;> decide

theorem RelationKind.ofKeyword_keyword (a : RelationKind) :
    ofKeyword all keyword a.keyword = some a := by cases a <;> decide

end Onisin.Domain
