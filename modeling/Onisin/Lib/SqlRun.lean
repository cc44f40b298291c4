import Mathlib.Data.List.Sort
import Mathlib.Data.List.TakeWhile
import Onisin.Lib.Sql

/-!
Statements of the SQL fragment: how they are read from tokens, and what running them over a
database gives back and leaves behind. A statement that cannot be read, names what is not there
or meets a value that does not fit is refused, and then nothing changes.
-/

set_option autoImplicit false

namespace Onisin.Lib.Sql

/-! Statements. -/

/-- A type as it is written. -/
abbrev TypeName := List Token

structure Value where
  param : Nat
  type : TypeName
  deriving DecidableEq, Repr

inductive Condition where
  | compare (column : Text) (c : Comparison) (v : Value)
  | ilike (column : Text) (param : Nat)
  deriving DecidableEq, Repr

def Condition.column : Condition → Text
  | .compare column _ _ => column
  | .ilike column _ => column

/-- A column given back as text, under a name. -/
structure Output where
  column : Text
  label : Text
  deriving DecidableEq, Repr

structure OrderBy where
  column : Text
  descending : Bool
  deriving DecidableEq, Repr

inductive Statement where
  | create (table : Text) (columns : List (Text × TypeName))
  | select (outputs : List Output) (table : Text) (conditions : List Condition) (order : List OrderBy)
      (limit : Option Nat)
  | insert (table : Text) (columns : List Text) (values : List Value) (returning : List Output)
  | update (table : Text) (assignments : List (Text × Value)) (conditions : List Condition)
      (returning : List Output)
  | delete (table : Text) (conditions : List Condition) (returning : List Output)
  deriving DecidableEq, Repr

/-! Reading. -/

def Token.name : Token → Option Text
  | .word t => some t
  | .quoted t => some t
  | _ => none

def isWord (k : Token) (t : String) : Bool := k = .word t.toList

/-- Up to a token, and from it on. -/
def upTo (k : Token) (ks : List Token) : List Token × List Token := (ks.takeWhile (· ≠ k), ks.dropWhile (· ≠ k))

def readName : List Token → Option Text
  | [c] => c.name
  | _ => none

def readOutput : List Token → Option Output
  | [.lparen, c, .rparen, .cast, ty, .key .as_, l] =>
    if isWord ty "text" then do return ⟨← c.name, ← l.name⟩ else none
  | _ => none

def readValue : List Token → Option Value
  | .param n :: .cast :: ty => if ty = [] then none else some ⟨n, ty⟩
  | _ => none

def readCondition : List Token → Option Condition
  | [c, .key .ilike, .param n] => c.name.map fun c => .ilike c n
  | c :: .cmp op :: v => do return .compare (← c.name) op (← readValue v)
  | _ => none

def readAssignment : List Token → Option (Text × Value)
  | c :: .cmp .eq :: v => do return (← c.name, ← readValue v)
  | _ => none

def readOrderBy : List Token → Option OrderBy
  | [c] => c.name.map fun c => ⟨c, false⟩
  | [c, .key .asc] => c.name.map fun c => ⟨c, false⟩
  | [c, .key .desc] => c.name.map fun c => ⟨c, true⟩
  | _ => none

def readColumn : List Token → Option (Text × TypeName)
  | c :: ty => if ty = [] then none else c.name.map fun c => (c, ty)
  | _ => none

/-- What a list between separators is read as. -/
def readList {α : Type} (k : Token) (read : List Token → Option α) (ks : List Token) : Option (List α) :=
  (ks.splitOn k).mapM read

def readWhere : List Token → Option (List Condition)
  | [] => some []
  | .key .where_ :: ks => readList (.key .and_) readCondition ks
  | _ => none

def readOrder : List Token → Option (List OrderBy)
  | [] => some []
  | .key .order :: by_ :: ks => if isWord by_ "by" then readList .comma readOrderBy ks else none
  | _ => none

def readLimit : List Token → Option (Option Nat)
  | [] => some none
  | [.key .limit, .number n] => some (some n)
  | _ => none

def readReturning : List Token → Option (List Output)
  | .key .returning :: ks => readList .comma readOutput ks
  | _ => none

/-- `CREATE TABLE IF NOT EXISTS public."t" (...);` -/
def readCreate : List Token → Option Statement
  | .key .table :: if_ :: .key .not_ :: exists_ :: schema :: .dot :: table :: .lparen :: ks =>
    if isWord if_ "if" && isWord exists_ "exists" && isWord schema "public" then do
      let table ← table.name
      let body ← if [.rparen, .semicolon] <:+ ks then some ks.dropLast.dropLast else none
      return .create table (← readList .comma readColumn body)
    else none
  | _ => none

def readSelect (ks : List Token) : Option Statement :=
  let outputs := upTo (.key .from_) ks
  match outputs.2 with
  | _ :: table :: rest => do
    let limit := upTo (.key .limit) rest
    let order := upTo (.key .order) limit.1
    return .select (← readList .comma readOutput outputs.1) (← table.name) (← readWhere order.1)
      (← readOrder order.2) (← readLimit limit.2)
  | _ => none

def readInsert : List Token → Option Statement
  | .key .into :: table :: .lparen :: ks =>
    let columns := upTo .rparen ks
    match columns.2 with
    | _ :: values_ :: .lparen :: ks =>
      let values := upTo .rparen ks
      if isWord values_ "values" then do
        return .insert (← table.name) (← readList .comma readName columns.1)
          (← readList .comma readValue values.1) (← readReturning (values.2.drop 1))
      else none
    | _ => none
  | _ => none

def readUpdate : List Token → Option Statement
  | table :: set_ :: ks =>
    let rows := upTo (.key .returning) ks
    let assignments := upTo (.key .where_) rows.1
    if isWord set_ "set" then do
      return .update (← table.name) (← readList .comma readAssignment assignments.1)
        (← readWhere assignments.2) (← readReturning rows.2)
    else none
  | _ => none

def readDelete : List Token → Option Statement
  | .key .from_ :: table :: ks =>
    let rows := upTo (.key .returning) ks
    do return .delete (← table.name) (← readWhere rows.1) (← readReturning rows.2)
  | _ => none

def readStatement : List Token → Option Statement
  | .key .create :: ks => readCreate ks
  | .key .select :: ks => readSelect ks
  | k :: ks =>
    if isWord k "insert" then readInsert ks
    else if isWord k "update" then readUpdate ks
    else if isWord k "delete" then readDelete ks
    else none
  | [] => none

/-! Tables. -/

abbrev Record (V : Type) := Text → Option V

structure Table (V : Type) where
  columns : List (Text × TypeName)
  rows : List (Record V)
  nextId : Int

abbrev Database (V : Type) := Text → Option (Table V)

/-- A row of a result: the text under each label. -/
abbrev OutputRow := Text → Option Text

/-- The values: how a text is cast to a type, how a value is stored in a column, which types can be
compared and searched, how values and texts compare, and in which order the rows of a table are
read. -/
structure Engine (V : Type) where
  cast : TypeName → Text → Option V
  assignable : TypeName → TypeName → Bool
  assign : TypeName → V → Option V
  comparable : TypeName → TypeName → Bool
  order : V → V → Ordering
  collate : Text → Text → Ordering
  searchable : TypeName → Bool
  ilike : V → Text → Bool
  asText : V → Text
  ofId : Int → V
  scan : List (Record V) → List (Record V)

/-- What is relied on: `idOf` names the id that a value is equal to. -/
structure Engine.Lawful {V : Type} (e : Engine V) (idOf : V → Option Int) : Prop where
  id_of : ∀ n, idOf (e.ofId n) = some n
  eq_id : ∀ n v, e.order (e.ofId n) v = .eq ↔ idOf v = some n
  order : Std.TransCmp e.order
  collate : Std.TransCmp e.collate
  scan : ∀ rows, (e.scan rows).Perm rows

section Run
variable {V : Type} (e : Engine V)

def serial : TypeName := [.word "serial".toList, .key .primary, .word "key".toList]

def Table.type (t : Table V) (column : Text) : Option TypeName := t.columns.lookup column

def Table.has (t : Table V) (column : Text) : Bool := (t.type column).isSome

/-- Parameters are counted from one; a missing one is an error, an absent value NULL. -/
def bound (params : List (Option Text)) (n : Nat) : Option (Option Text) :=
  if n = 0 then none else params[n - 1]?

/-- A text, or NULL, as a value of the type. -/
def Engine.castTo (ty : TypeName) : Option Text → Option (Option V)
  | none => some none
  | some t => (e.cast ty t).map some

def Engine.value (params : List (Option Text)) (v : Value) : Option (Option V) :=
  (bound params v.param).bind (e.castTo v.type)

/-- A value for a column; NULL fits any but the serial one. -/
def Engine.store (types : Text → Option TypeName) (column : Text) (ty : TypeName) (v : Option V) :
    Option (Text × Option V) :=
  match types column, v with
  | none, _ => none
  | some cty, none => if e.assignable cty ty && cty ≠ serial then some (column, none) else none
  | some cty, some v => if e.assignable cty ty then (e.assign cty v).map fun v => (column, some v) else none

def Comparison.holds : Comparison → Ordering → Bool
  | .eq, o => o = .eq
  | .ne, o => o ≠ .eq
  | .lt, o => o = .lt
  | .le, o => o ≠ .gt
  | .gt, o => o = .gt
  | .ge, o => o ≠ .lt

/-- NULL compares to nothing. -/
def Engine.compares (op : Comparison) : Option V → Option V → Bool
  | some x, some y => op.holds (e.order x y)
  | _, _ => false

def Engine.likes : Option V → Option Text → Bool
  | some x, some p => e.ilike x p
  | _, _ => false

def Engine.holds (types : Text → Option TypeName) (params : List (Option Text)) :
    Condition → Option (Record V → Bool)
  | .compare column op v => do
    let cty ← types column
    if e.comparable cty v.type then (e.value params v).map fun v r => e.compares op (r column) v else none
  | .ilike column n => do
    let cty ← types column
    if e.searchable cty then (bound params n).map fun p r => e.likes (r column) p else none

def Engine.selects (types : Text → Option TypeName) (params : List (Option Text)) (cs : List Condition) :
    Option (Record V → Bool) :=
  (cs.mapM (e.holds types params)).map fun ps r => ps.all fun p => p r

/-- NULL comes behind every value. -/
def nullsLast (cmp : V → V → Ordering) : Option V → Option V → Ordering
  | none, none => .eq
  | none, some _ => .gt
  | some _, none => .lt
  | some x, some y => cmp x y

/-- What a name behind ORDER BY means: an output of that name, or else a column. -/
inductive SortKey where
  | output (column : Text)
  | column (column : Text)
  deriving DecidableEq, Repr

def sortKey (outputs : List Output) (name : Text) : SortKey :=
  match outputs.find? fun o => o.label = name with
  | some o => .output o.column
  | none => .column name

/-- The name means one thing and not two. -/
def Table.sorts (t : Table V) (outputs : List Output) (name : Text) : Bool :=
  match sortKey outputs name with
  | .output column => outputs.all fun o => o.label ≠ name || o.column = column
  | .column column => t.has column

/-- Outputs compare as the texts they are. -/
def Engine.compareBy : SortKey → Record V → Record V → Ordering
  | .output column, r, r' => nullsLast e.collate ((r column).map e.asText) ((r' column).map e.asText)
  | .column column, r, r' => nullsLast e.order (r column) (r' column)

def Engine.rank (outputs : List Output) (o : OrderBy) (r r' : Record V) : Ordering :=
  if o.descending then e.compareBy (sortKey outputs o.column) r' r
  else e.compareBy (sortKey outputs o.column) r r'

def Engine.rankAll (outputs : List Output) : List OrderBy → Record V → Record V → Ordering
  | [] => fun _ _ => .eq
  | o :: os => compareLex (e.rank outputs o) (Engine.rankAll outputs os)

def Engine.sort (outputs : List Output) (os : List OrderBy) (rows : List (Record V)) : List (Record V) :=
  rows.insertionSort fun r r' => (e.rankAll outputs os r r').isLE = true

def Engine.output (outputs : List Output) (r : Record V) : OutputRow := fun label =>
  (outputs.find? fun o => o.label = label).bind fun o => (r o.column).map e.asText

def Table.hasAll (t : Table V) (outputs : List Output) : Bool := outputs.all fun o => t.has o.column

/-- A record with some of its columns replaced. -/
def overlay (vs : List (Text × Option V)) (r : Record V) : Record V := fun column =>
  (vs.lookup column).getD (r column)

/-- What a new row has in the columns that are not given. -/
def Engine.defaults (types : Text → Option TypeName) (id : Int) : Record V := fun column =>
  if types column = some serial then some (e.ofId id) else none

def put {α : Type} (m : Text → Option α) (name : Text) (a : α) : Text → Option α := fun n =>
  if n = name then some a else m n

/-- A table that is there stays as it is. -/
def Database.create (db : Database V) (name : Text) (columns : List (Text × TypeName)) :
    Option (Database V) :=
  match db name with
  | some _ => some db
  | none => if (columns.map Prod.fst).Nodup then some (put db name ⟨columns, [], 1⟩) else none

def Engine.select (t : Table V) (params : List (Option Text)) (outputs : List Output)
    (conditions : List Condition) (order : List OrderBy) (limit : Option Nat) : Option (List OutputRow) := do
  let p ← e.selects t.type params conditions
  if t.hasAll outputs && order.all fun o => t.sorts outputs o.column then
    let rows := e.sort outputs order ((e.scan t.rows).filter p)
    return ((limit.map rows.take).getD rows).map (e.output outputs)
  else none

def Engine.insert (t : Table V) (params : List (Option Text)) (columns : List Text) (values : List Value)
    (returning : List Output) : Option (List OutputRow × Table V) := do
  let vs ← (columns.zip values).mapM fun cv => do e.store t.type cv.1 cv.2.type (← e.value params cv.2)
  if columns.Nodup ∧ columns.length = values.length ∧ t.hasAll returning ∧ t.nextId ≤ 2147483647 then
    let row := overlay vs (e.defaults t.type t.nextId)
    return ([e.output returning row], { t with rows := t.rows ++ [row], nextId := t.nextId + 1 })
  else none

def Engine.update (t : Table V) (params : List (Option Text)) (assignments : List (Text × Value))
    (conditions : List Condition) (returning : List Output) : Option (List OutputRow × Table V) := do
  let vs ← assignments.mapM fun cv => do e.store t.type cv.1 cv.2.type (← e.value params cv.2)
  let p ← e.selects t.type params conditions
  if (assignments.map Prod.fst).Nodup ∧ t.hasAll returning then
    return (((t.rows.filter p).map (overlay vs)).map (e.output returning),
      { t with rows := t.rows.map fun r => if p r then overlay vs r else r })
  else none

def Engine.delete (t : Table V) (params : List (Option Text)) (conditions : List Condition)
    (returning : List Output) : Option (List OutputRow × Table V) := do
  let p ← e.selects t.type params conditions
  if t.hasAll returning then
    return ((t.rows.filter p).map (e.output returning), { t with rows := t.rows.filter fun r => !p r })
  else none

def Engine.exec (db : Database V) (params : List (Option Text)) :
    Statement → Option (List OutputRow × Database V)
  | .create name columns => (db.create name columns).map fun db => ([], db)
  | .select outputs name conditions order limit => do
    let rows ← e.select (← db name) params outputs conditions order limit
    return (rows, db)
  | .insert name columns values returning => do
    let r ← e.insert (← db name) params columns values returning
    return (r.1, put db name r.2)
  | .update name assignments conditions returning => do
    let r ← e.update (← db name) params assignments conditions returning
    return (r.1, put db name r.2)
  | .delete name conditions returning => do
    let r ← e.delete (← db name) params conditions returning
    return (r.1, put db name r.2)

/-- A statement as it is sent. -/
def Engine.run (db : Database V) (sql : Text) (params : List (Option Text)) :
    Option (List OutputRow × Database V) :=
  (readStatement (tokens sql)).bind (e.exec db params)

end Run

/-! Sorting. -/

section Sorting
variable {V : Type}

instance {cmp : V → V → Ordering} [Std.TransCmp cmp] : Std.TransCmp (nullsLast cmp) where
  eq_swap := by
    intro a b
    cases a <;> cases b
    case some.some x y =>
      change cmp x y = (cmp y x).swap
      exact Std.OrientedCmp.eq_swap
    all_goals rfl
  isLE_trans := by
    intro a b c hab hbc
    cases a <;> cases b <;> cases c <;> simp only [nullsLast] at hab hbc ⊢ <;> try trivial
    exact Std.TransCmp.isLE_trans hab hbc

variable (e : Engine V) [Std.TransCmp e.order] [Std.TransCmp e.collate]

instance (key : SortKey) : Std.TransCmp (e.compareBy key) where
  eq_swap := by
    intro r r'
    cases key with
    | output column =>
      change nullsLast e.collate _ _ = (nullsLast e.collate _ _).swap
      exact Std.OrientedCmp.eq_swap
    | column column =>
      change nullsLast e.order _ _ = (nullsLast e.order _ _).swap
      exact Std.OrientedCmp.eq_swap
  isLE_trans := by
    intro r r' r'' h h'
    cases key <;> simp only [Engine.compareBy] at h h' ⊢ <;> exact Std.TransCmp.isLE_trans h h'

instance (outputs : List Output) (o : OrderBy) : Std.TransCmp (e.rank outputs o) where
  eq_swap := by
    intro r r'
    unfold Engine.rank
    split <;> exact Std.OrientedCmp.eq_swap
  isLE_trans := by
    intro r r' r'' h h'
    unfold Engine.rank at h h' ⊢
    split at h
    · rename_i hdesc
      rw [if_pos hdesc] at h' ⊢
      exact Std.TransCmp.isLE_trans h' h
    · rename_i hdesc
      rw [if_neg hdesc] at h' ⊢
      exact Std.TransCmp.isLE_trans h h'

instance rankAll_trans (outputs : List Output) (os : List OrderBy) : Std.TransCmp (e.rankAll outputs os) := by
  induction os with
  | nil => exact { eq_swap := rfl, isLE_trans := fun _ _ => rfl }
  | cons o os ih => exact inferInstanceAs (Std.TransCmp (compareLex (e.rank outputs o) (e.rankAll outputs os)))

/-- Sorting leaves the rows there are, each before those that do not come before it. -/
theorem sort_spec (outputs : List Output) (os : List OrderBy) (rows : List (Record V)) :
    (e.sort outputs os rows).Perm rows ∧
      (e.sort outputs os rows).Pairwise fun r r' => (e.rankAll outputs os r r').isLE = true := by
  refine ⟨List.perm_insertionSort _ _, ?_⟩
  have htotal : Std.Total fun r r' => (e.rankAll outputs os r r').isLE = true := by
    constructor
    intro r r'
    have hswap : e.rankAll outputs os r' r = (e.rankAll outputs os r r').swap := Std.OrientedCmp.eq_swap
    rw [hswap]
    cases e.rankAll outputs os r r' <;> simp
  have htrans : IsTrans (Record V) fun r r' => (e.rankAll outputs os r r').isLE = true :=
    ⟨fun _ _ _ => Std.TransCmp.isLE_trans⟩
  exact List.pairwise_insertionSort _ rows

end Sorting

/-! Reading lists and clauses. -/

theorem upTo_found {k : Token} {ks : List Token} (h : k ∉ ks) (rest : List Token) :
    upTo k (ks ++ k :: rest) = (ks, k :: rest) := by
  have hks : ∀ a ∈ ks, decide (a ≠ k) = true := fun a ha => decide_eq_true fun heq => h (heq ▸ ha)
  rw [upTo, List.takeWhile_append_of_pos hks, List.dropWhile_append_of_pos hks]
  simp

theorem upTo_absent {k : Token} {ks : List Token} (h : k ∉ ks) : upTo k ks = (ks, []) := by
  have hks : ∀ a ∈ ks, decide (a ≠ k) = true := fun a ha => decide_eq_true fun heq => h (heq ▸ ha)
  rw [upTo, List.takeWhile_eq_self_iff.mpr hks, List.dropWhile_eq_nil_iff.mpr hks]

theorem mem_intercalate {k a : Token} {kss : List (List Token)} (h : a ∈ [k].intercalate kss) :
    a = k ∨ ∃ ks ∈ kss, a ∈ ks := by
  induction kss with
  | nil => cases h
  | cons ks kss ih =>
    cases kss with
    | nil =>
      rw [List.intercalate_singleton] at h
      exact .inr ⟨ks, List.mem_cons_self, h⟩
    | cons ks' kss =>
      rw [List.intercalate_cons_cons, List.mem_append, List.mem_append, List.mem_singleton] at h
      obtain (h | h) | h := h
      · exact .inr ⟨ks, List.mem_cons_self, h⟩
      · exact .inl h
      · exact (ih h).imp_right fun ⟨l, hl, ha⟩ => ⟨l, List.mem_cons_of_mem _ hl, ha⟩

theorem mapM_some {α β : Type} {f : α → Option β} {g : α → β} {l : List α}
    (h : ∀ a ∈ l, f a = some (g a)) : l.mapM f = some (l.map g) := by
  induction l with
  | nil => rfl
  | cons a l ih =>
    obtain ⟨ha, hl⟩ := List.forall_mem_cons.mp h
    rw [List.mapM_cons, ha, ih hl]
    rfl

theorem readList_eq {α β : Type} {k : Token} {read : List Token → Option β} {ks : α → List Token}
    {g : α → β} {l : List α} (hl : l ≠ []) (h : ∀ a ∈ l, k ∉ ks a ∧ read (ks a) = some (g a)) :
    readList k read ([k].intercalate (l.map ks)) = some (l.map g) := by
  have hsep : ∀ x ∈ l.map ks, k ∉ x := by
    intro x hx
    obtain ⟨a, ha, rfl⟩ := List.mem_map.mp hx
    exact (h a ha).1
  have hread : ∀ a ∈ l, (read ∘ ks) a = some (g a) := fun a ha => (h a ha).2
  rw [readList, List.splitOn_intercalate k hsep (by simpa using hl), List.mapM_map]
  exact mapM_some hread

end Onisin.Lib.Sql
