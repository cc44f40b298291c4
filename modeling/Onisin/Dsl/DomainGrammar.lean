import Onisin.Dsl.Domain

/-!
The grammar of the domain language as derivation trees. A tree has one node for each rule that
is applied; its yield is the sequence of terminals it derives. What the terminals are, and what
a string or a number leaf carries, is left open, so that one grammar serves the parser with its
contextual keywords and the editor with its reserved ones.
-/

set_option autoImplicit false

namespace Onisin.Domain
open Lib

inductive Sym where
  | lBrace
  | rBrace
  | lBracket
  | rBracket
  | colon
  | comma
  | atSign
  | eq
  | arrow
  deriving DecidableEq, Repr

/-- The terminals of the grammar in an alphabet `κ`. -/
structure Terminals (S N κ : Type) where
  kw : Text → κ
  id : Text → κ
  str : S → κ
  num : N → κ
  sym : Sym → κ

structure Permission where
  role : Text
  first : PermissionAction
  more : List PermissionAction
  deriving DecidableEq, Repr

inductive FieldModifier where
  | readOnly
  | filterable
  | optionsRef (meta_ : Text)
  deriving DecidableEq, Repr

inductive ExampleValue (S N : Type) where
  | string (value : S)
  | number (value : N)
  deriving DecidableEq, Repr

structure Example (S N : Type) where
  op : ExampleOp
  value : ExampleValue S N
  description : S
  deriving DecidableEq, Repr

/-- The block of examples may be missing, which is not the same as an empty one. -/
structure Field (S N : Type) where
  name : Text
  type : FieldType
  modifiers : List FieldModifier
  examples : Option (List (Example S N))
  deriving DecidableEq, Repr

structure Relation where
  name : Text
  kind : RelationKind
  target : Text
  localField : Text
  foreignField : Text
  deriving DecidableEq, Repr

structure Meta where
  name : Text
  table : Text
  valueField : Text
  labelField : Text
  orderBy : Option Text
  dsn : Option Text
  deriving DecidableEq, Repr

structure AiHint (S : Type) where
  name : S
  body : S
  deriving DecidableEq, Repr

structure AliasList (S : Type) where
  first : S
  more : List S
  deriving DecidableEq, Repr

inductive DomainMember (S N : Type) where
  | permission (p : Permission)
  | field (f : Field S N)
  | relation (r : Relation)
  | meta_ (m : Meta)
  | aiHint (h : AiHint S)
  | aliasList (l : AliasList S)
  deriving DecidableEq, Repr

structure DomainDecl (S N : Type) where
  name : Text
  source : Text
  dsn : Text
  members : List (DomainMember S N)
  deriving DecidableEq, Repr

/-! What a tree derives. -/

section Yield
variable {S N κ : Type} (A : Terminals S N κ)

def actionYield (a : PermissionAction) : List κ := [A.sym .comma, A.kw a.keyword]

def Permission.yield (p : Permission) : List κ :=
  [A.kw "permission".toList, A.id p.role, A.kw p.first.keyword] ++ p.more.flatMap (actionYield A)

def FieldModifier.yield : FieldModifier → List κ
  | .readOnly => [A.kw "readonly".toList]
  | .filterable => [A.kw "filterable".toList]
  | .optionsRef m => [A.kw "options".toList, A.sym .eq, A.id m]

def ExampleValue.yield : ExampleValue S N → κ
  | .string s => A.str s
  | .number n => A.num n

def Example.yield (e : Example S N) : List κ :=
  [A.kw "example".toList, A.kw e.op.keyword, e.value.yield A, A.str e.description]

def examplesYield : Option (List (Example S N)) → List κ
  | none => []
  | some es => [A.sym .lBrace] ++ es.flatMap (Example.yield A) ++ [A.sym .rBrace]

def Field.yield (f : Field S N) : List κ :=
  [A.kw "field".toList, A.id f.name, A.sym .colon, A.kw f.type.keyword] ++
    f.modifiers.flatMap (FieldModifier.yield A) ++ examplesYield A f.examples

def Relation.yield (r : Relation) : List κ :=
  [A.kw "relation".toList, A.id r.name, A.sym .colon, A.kw r.kind.keyword, A.id r.target,
    A.kw "bind".toList, A.sym .eq, A.id r.localField, A.sym .arrow, A.id r.foreignField]

def optionalYield (kw : String) : Option Text → List κ
  | none => []
  | some name => [A.kw kw.toList, A.id name]

def Meta.yield (m : Meta) : List κ :=
  [A.kw "meta".toList, A.id m.name, A.kw "from".toList, A.id m.table, A.id m.valueField,
    A.id m.labelField] ++ optionalYield A "order_by" m.orderBy ++ optionalYield A "via" m.dsn

def AiHint.yield (h : AiHint S) : List κ := [A.kw "ai".toList, A.str h.name, A.str h.body]

def aliasYield (s : S) : List κ := [A.sym .comma, A.str s]

def AliasList.yield (l : AliasList S) : List κ :=
  [A.kw "aliases".toList, A.sym .lBracket, A.str l.first] ++ l.more.flatMap (aliasYield A) ++
    [A.sym .rBracket]

def DomainMember.yield : DomainMember S N → List κ
  | .permission p => p.yield A
  | .field f => f.yield A
  | .relation r => r.yield A
  | .meta_ m => m.yield A
  | .aiHint h => h.yield A
  | .aliasList l => l.yield A

def DomainDecl.yield (t : DomainDecl S N) : List κ :=
  [A.kw "domain".toList, A.id t.name, A.kw "from".toList, A.id t.source, A.sym .atSign, A.id t.dsn,
    A.sym .lBrace] ++ t.members.flatMap (DomainMember.yield A) ++ [A.sym .rBrace]

end Yield

/-! What a tree means. -/

/-- How the leaves are read: strings, numbers, and the trimming of aliases. -/
structure Reading (S N : Type) where
  str : S → Text
  num : N → Text
  trim : Text → Text

section Fold
variable {S N : Type} (R : Reading S N)

def Permission.def_ (p : Permission) : PermissionDef := ⟨p.role, p.first :: p.more⟩

def Example.def_ (e : Example S N) : ExampleDef :=
  match e.value with
  | .string s => ⟨e.op, R.str s, true, R.str e.description⟩
  | .number n => ⟨e.op, R.num n, false, R.str e.description⟩

/-- The last reference counts. -/
def refOf (ms : List FieldModifier) : Option Text :=
  (ms.filterMap fun | .optionsRef m => some m | _ => none).getLast?

def Field.def_ (f : Field S N) : DomainFieldDef :=
  { name := f.name
    fieldType := f.type
    readOnly := f.modifiers.contains .readOnly
    filterable := f.modifiers.contains .filterable
    optionsRef := refOf f.modifiers
    examples := (f.examples.getD []).map (Example.def_ R) }

def Relation.def_ (r : Relation) : RelationDef := ⟨r.name, r.kind, r.target, r.localField, r.foreignField⟩

def Meta.def_ (m : Meta) : MetaDef := ⟨m.name, m.table, m.valueField, m.labelField, m.orderBy, m.dsn⟩

def AiHint.def_ (h : AiHint S) : AiHintDef := ⟨R.str h.name, R.str h.body⟩

/-- The aliases of one clause, trimmed, without the blank ones. -/
def AliasList.values (l : AliasList S) : List Text :=
  ((l.first :: l.more).map fun s => R.trim (R.str s)).filter (!·.isEmpty)

/-- Members keep their order within their kind. -/
def DomainDecl.fold (t : DomainDecl S N) : DomainDef :=
  { name := t.name
    source := t.source
    dsn := t.dsn
    permissions := t.members.filterMap fun | .permission p => some p.def_ | _ => none
    fields := t.members.filterMap fun | .field f => some (f.def_ R) | _ => none
    relations := t.members.filterMap fun | .relation r => some r.def_ | _ => none
    metas := t.members.filterMap fun | .meta_ m => some m.def_ | _ => none
    aiHints := t.members.filterMap fun | .aiHint h => some (h.def_ R) | _ => none
    aliases := t.members.flatMap fun | .aliasList l => l.values R | _ => [] }

/-- A definition with one more member. -/
def DomainDef.push (d : DomainDef) : DomainMember S N → DomainDef
  | .permission p => { d with permissions := d.permissions ++ [p.def_] }
  | .field f => { d with fields := d.fields ++ [f.def_ R] }
  | .relation r => { d with relations := d.relations ++ [r.def_] }
  | .meta_ m => { d with metas := d.metas ++ [m.def_] }
  | .aiHint h => { d with aiHints := d.aiHints ++ [h.def_ R] }
  | .aliasList l => { d with aliases := d.aliases ++ l.values R }

theorem foldl_push_members (ms : List (DomainMember S N)) (d : DomainDef) :
    ms.foldl (DomainDef.push R) d =
      let t := DomainDecl.fold R ⟨d.name, d.source, d.dsn, ms⟩
      { d with
        permissions := d.permissions ++ t.permissions
        fields := d.fields ++ t.fields
        relations := d.relations ++ t.relations
        metas := d.metas ++ t.metas
        aiHints := d.aiHints ++ t.aiHints
        aliases := d.aliases ++ t.aliases } := by
  induction ms generalizing d with
  | nil => simp [DomainDecl.fold]
  | cons t ms ih =>
    rw [List.foldl_cons, ih]
    cases t <;> simp [DomainDecl.fold, DomainDef.push]

/-- Pushing the members one after another gives what the tree means. -/
theorem foldl_push_fold (t : DomainDecl S N) :
    t.members.foldl (DomainDef.push R) { name := t.name, source := t.source, dsn := t.dsn } = t.fold R := by
  rw [foldl_push_members]
  simp [DomainDecl.fold]

end Fold

/-! Trees with other strings in their leaves. -/

section Map
variable {S S' N κ κ' : Type} (f : S → S')

def ExampleValue.map : ExampleValue S N → ExampleValue S' N
  | .string s => .string (f s)
  | .number n => .number n

def Example.map (e : Example S N) : Example S' N := ⟨e.op, e.value.map f, f e.description⟩

def Field.map (t : Field S N) : Field S' N :=
  ⟨t.name, t.type, t.modifiers, t.examples.map fun es => es.map (Example.map f)⟩

def AiHint.map (h : AiHint S) : AiHint S' := ⟨f h.name, f h.body⟩

def AliasList.map (l : AliasList S) : AliasList S' := ⟨f l.first, l.more.map f⟩

def DomainMember.map : DomainMember S N → DomainMember S' N
  | .permission p => .permission p
  | .field t => .field (t.map f)
  | .relation r => .relation r
  | .meta_ m => .meta_ m
  | .aiHint h => .aiHint (h.map f)
  | .aliasList l => .aliasList (l.map f)

def DomainDecl.map (t : DomainDecl S N) : DomainDecl S' N :=
  ⟨t.name, t.source, t.dsn, t.members.map (DomainMember.map f)⟩

/-- A reading of terminals in another alphabet. -/
structure Translates (A : Terminals S N κ) (A' : Terminals S' N κ') (h : κ → Option κ') : Prop where
  kw : ∀ w, h (A.kw w) = some (A'.kw w)
  id : ∀ w, h (A.id w) = some (A'.id w)
  str : ∀ s, h (A.str s) = some (A'.str (f s))
  num : ∀ n, h (A.num n) = some (A'.num n)
  sym : ∀ s, h (A.sym s) = some (A'.sym s)

variable {f} {A : Terminals S N κ} {A' : Terminals S' N κ'} {h : κ → Option κ'}

theorem filterMap_flatMap_eq {α β : Type} (φ : α → β) (y : α → List κ) (y' : β → List κ') (as : List α)
    (hy : ∀ a ∈ as, (y a).filterMap h = y' (φ a)) :
    (as.flatMap y).filterMap h = (as.map φ).flatMap y' := by
  induction as with
  | nil => rfl
  | cons a as ih =>
    rw [List.flatMap_cons, List.filterMap_append, hy a List.mem_cons_self,
      ih fun a ha => hy a (List.mem_cons_of_mem _ ha), List.map_cons, List.flatMap_cons]

theorem Permission.yield_filterMap (ht : Translates f A A' h) (t : Permission) :
    (t.yield A).filterMap h = t.yield A' := by
  have hmore := filterMap_flatMap_eq (h := h) (fun a => a) (actionYield A) (actionYield A')
    t.more fun a _ => by simp [actionYield, ht.kw, ht.sym]
  simp [Permission.yield, ht.kw, ht.id, hmore]

theorem Example.yield_map (ht : Translates f A A' h) (t : Example S N) :
    (t.yield A).filterMap h = (t.map f).yield A' := by
  obtain ⟨op, value, description⟩ := t
  cases value <;> simp [Example.yield, Example.map, ExampleValue.yield, ExampleValue.map, ht.kw, ht.str, ht.num]

theorem Field.yield_map (ht : Translates f A A' h) (t : Field S N) :
    (t.yield A).filterMap h = (t.map f).yield A' := by
  obtain ⟨name, type, modifiers, examples⟩ := t
  have hmodifiers := filterMap_flatMap_eq (h := h) (fun m => m) (FieldModifier.yield A)
    (FieldModifier.yield A') modifiers fun m _ => by
      cases m <;> simp [FieldModifier.yield, ht.kw, ht.id, ht.sym]
  have hexamples : (examplesYield A examples).filterMap h =
      examplesYield A' (examples.map fun es => es.map (Example.map f)) := by
    cases examples with
    | none => rfl
    | some es =>
      have hes := filterMap_flatMap_eq (Example.map f) (Example.yield A) (Example.yield A') es
        fun e _ => e.yield_map ht
      simp [examplesYield, ht.sym, hes]
  simp [Field.yield, Field.map, ht.kw, ht.id, ht.sym, hmodifiers, hexamples]

theorem Meta.yield_filterMap (ht : Translates f A A' h) (t : Meta) :
    (t.yield A).filterMap h = t.yield A' := by
  have hoptional : ∀ kw o, (optionalYield A kw o).filterMap h = optionalYield A' kw o := by
    intro kw o
    cases o <;> simp [optionalYield, ht.kw, ht.id]
  simp [Meta.yield, ht.kw, ht.id, hoptional]

theorem AliasList.yield_map (ht : Translates f A A' h) (t : AliasList S) :
    (t.yield A).filterMap h = (t.map f).yield A' := by
  have hmore := filterMap_flatMap_eq (h := h) f (aliasYield A) (aliasYield A') t.more
    fun a _ => by simp [aliasYield, ht.str, ht.sym]
  simp [AliasList.yield, AliasList.map, ht.kw, ht.str, ht.sym, hmore]

theorem DomainMember.yield_map (ht : Translates f A A' h) (t : DomainMember S N) :
    (t.yield A).filterMap h = (t.map f).yield A' := by
  cases t with
  | permission p => exact p.yield_filterMap ht
  | field t => exact t.yield_map ht
  | relation r =>
    simp [DomainMember.yield, DomainMember.map, Relation.yield, ht.kw, ht.id, ht.sym]
  | meta_ m => exact m.yield_filterMap ht
  | aiHint t => simp [DomainMember.yield, DomainMember.map, AiHint.yield, AiHint.map, ht.kw, ht.str]
  | aliasList l => exact l.yield_map ht

theorem DomainDecl.yield_map (ht : Translates f A A' h) (t : DomainDecl S N) :
    (t.yield A).filterMap h = (t.map f).yield A' := by
  have hmembers := filterMap_flatMap_eq (DomainMember.map f) (DomainMember.yield A)
    (DomainMember.yield A') t.members fun m _ => m.yield_map ht
  simp [DomainDecl.yield, DomainDecl.map, ht.kw, ht.id, ht.sym, hmembers]

/-- A reading of the new leaves, as one of the old ones. -/
def Reading.before (R : Reading S' N) (f : S → S') : Reading S N := ⟨fun s => R.str (f s), R.num, R.trim⟩

theorem Example.def_map (R : Reading S' N) (t : Example S N) : (t.map f).def_ R = t.def_ (R.before f) := by
  obtain ⟨op, value, description⟩ := t
  cases value <;> rfl

theorem Field.def_map (R : Reading S' N) (t : Field S N) : (t.map f).def_ R = t.def_ (R.before f) := by
  obtain ⟨name, type, modifiers, examples⟩ := t
  have hdef : (Example.def_ R ∘ Example.map f : Example S N → ExampleDef) = Example.def_ (R.before f) :=
    funext fun e => e.def_map R
  cases examples with
  | none => rfl
  | some es => simp [Field.def_, Field.map, hdef]

theorem AliasList.values_map (R : Reading S' N) (t : AliasList S) :
    (t.map f).values R = t.values (R.before f) := by
  simp [AliasList.values, AliasList.map, Reading.before, Function.comp_def]

theorem DomainDef.push_map (R : Reading S' N) (d : DomainDef) (m : DomainMember S N) :
    d.push R (m.map f) = d.push (R.before f) m := by
  cases m with
  | field t => rw [DomainMember.map, DomainDef.push, Field.def_map, DomainDef.push]
  | aliasList l => rw [DomainMember.map, DomainDef.push, AliasList.values_map, DomainDef.push]
  | _ => rfl

theorem DomainDecl.fold_map (R : Reading S' N) (t : DomainDecl S N) :
    (t.map f).fold R = t.fold (R.before f) := by
  rw [← foldl_push_fold, ← foldl_push_fold, DomainDecl.map, List.foldl_map]
  simp only [DomainDef.push_map]

end Map

/-! The terminals of the token stream: a keyword is an identifier with that text. -/

def tokens : Terminals Text Text Tok where
  kw := .ident
  id := .ident
  str := .str
  num := .number
  sym := fun
    | .lBrace => .lBrace
    | .rBrace => .rBrace
    | .lBracket => .lBracket
    | .rBracket => .rBracket
    | .colon => .colon
    | .comma => .comma
    | .atSign => .atSign
    | .eq => .eq
    | .arrow => .arrow

/-- Leaves are taken as they are. -/
def verbatim : Reading Text Text := ⟨id, id, Text.trim⟩

end Onisin.Domain
