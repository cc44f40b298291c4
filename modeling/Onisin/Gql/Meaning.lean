import Onisin.Gql.Query
import Onisin.Lib.SqlRun

/-!
What the statements of a domain mean. Their texts are read back as SQL: as statements over the
table of the domain, with each value behind its own parameter.
-/

set_option autoImplicit false

namespace Onisin.Gql
open Lib Domain
open Lib.Sql (Token TypeName Lexes PlainName Condition Output OrderBy Value Statement Comparison Closed
  tokens readStatement readList readName readOutput readCondition readAssignment readOrderBy
  lexes_closed lexes_join lexes_lit lexes_param lexes_number word_ends upTo_found upTo_absent mem_intercalate
  readList_eq)

/-! Names. -/

/-- The names that an option list is loaded by. -/
def metaNames (m : MetaDef) : List Text := m.table :: m.valueField :: m.labelField :: m.orderBy.toList

/-- A domain whose names stand for themselves in SQL. -/
structure Usable (d : DomainDef) : Prop where
  source : PlainName d.source
  fields : ∀ f ∈ d.fields, PlainName f.name
  metas : ∀ m ∈ d.metas, ∀ name ∈ metaNames m, PlainName name
  distinct : (d.fields.map DomainFieldDef.name).Nodup
  some : d.fields ≠ []

/-! The pieces of a statement, as tokens and as what they are read as. -/

def castType : FieldType → TypeName
  | .int => [.word "bigint".toList]
  | .float => [.word "double".toList, .word "precision".toList]
  | .bool => [.word "boolean".toList]
  | .string | .text => [.word "text".toList]
  | .date => [.word "date".toList]
  | .datetime => [.word "timestamptz".toList]

def labelTokens (o : Output) : List Token :=
  [.lparen, .word o.column, .rparen, .cast, .word "text".toList, .key .as_, .word o.label]

def valueTokens (ty : FieldType) (i : Nat) : List Token := .param i :: .cast :: castType ty

def outputOf (name : Text) : Output := ⟨name, name⟩

def outputTokens (name : Text) : List Token := labelTokens (outputOf name)

def valueOf (ty : FieldType) (i : Nat) : Value := ⟨i, castType ty⟩

/-! The texts that are the same in every statement. -/

/-- A text that keeps apart what stands on its two sides. -/
structure Fixed (b : Text) (ks : List Token) : Prop where
  scans : Sql.scan .idle b = (ks, .idle)
  separates : (b.head?.all fun c => !Sql.isWordChar c) = true
  ne : b ≠ []

theorem Fixed.between {a b c : Text} {ks ks' ks'' : List Token} (hb : Fixed b ks') (ha : Lexes a ks)
    (hc : Lexes c ks'') : Lexes (a ++ (b ++ c)) (ks ++ (ks' ++ ks'')) := by
  obtain ⟨hscans, hseparates, hne⟩ := hb
  refine ha.before (lexes_lit hscans hc) ?_ fun hnil => hne (List.append_eq_nil_iff.mp hnil).1
  cases b with
  | nil => exact absurd rfl hne
  | cons d b => exact hseparates

theorem fixed_blank : Fixed " ".toList [] :=
  ⟨rfl, rfl, List.cons_ne_nil _ _⟩

theorem fixed_as : Fixed ")::text AS ".toList [.rparen, .cast, .word "text".toList, .key .as_] :=
  ⟨rfl, rfl, List.cons_ne_nil _ _⟩

theorem fixed_openList : Fixed " (".toList [.lparen] :=
  ⟨rfl, rfl, List.cons_ne_nil _ _⟩

theorem fixed_values : Fixed ") VALUES (".toList [.rparen, .word "values".toList, .lparen] :=
  ⟨rfl, rfl, List.cons_ne_nil _ _⟩

theorem fixed_closeReturning : Fixed ") RETURNING ".toList [.rparen, .key .returning] :=
  ⟨rfl, rfl, List.cons_ne_nil _ _⟩

theorem fixed_returning : Fixed " RETURNING ".toList [.key .returning] :=
  ⟨rfl, rfl, List.cons_ne_nil _ _⟩

theorem fixed_set : Fixed " SET ".toList [.word "set".toList] :=
  ⟨rfl, rfl, List.cons_ne_nil _ _⟩

theorem fixed_whereId : Fixed " WHERE id = ".toList [.key .where_, .word "id".toList, .cmp .eq] :=
  ⟨rfl, rfl, List.cons_ne_nil _ _⟩

theorem fixed_equals : Fixed " = ".toList [.cmp .eq] :=
  ⟨rfl, rfl, List.cons_ne_nil _ _⟩

theorem fixed_ilike : Fixed " ILIKE ".toList [.key .ilike] :=
  ⟨rfl, rfl, List.cons_ne_nil _ _⟩

theorem fixed_from : Fixed " FROM ".toList [.key .from_] :=
  ⟨rfl, rfl, List.cons_ne_nil _ _⟩

theorem fixed_where : Fixed " WHERE ".toList [.key .where_] :=
  ⟨rfl, rfl, List.cons_ne_nil _ _⟩

theorem fixed_orderBy : Fixed " ORDER BY ".toList [.key .order, .word "by".toList] :=
  ⟨rfl, rfl, List.cons_ne_nil _ _⟩

theorem fixed_limit : Fixed " LIMIT ".toList [.key .limit] :=
  ⟨rfl, rfl, List.cons_ne_nil _ _⟩

theorem scan_select : Sql.scan .idle "SELECT ".toList = ([.key .select], .idle) := rfl

theorem scan_insert : Sql.scan .idle "INSERT INTO ".toList = ([.word "insert".toList, .key .into], .idle) := rfl

theorem scan_update : Sql.scan .idle "UPDATE ".toList = ([.word "update".toList], .idle) := rfl

theorem scan_delete : Sql.scan .idle "DELETE FROM ".toList = ([.word "delete".toList, .key .from_], .idle) := rfl

theorem scan_open : Sql.scan .idle "(".toList = ([.lparen], .idle) := rfl

theorem scan_comma : Sql.scan .idle ", ".toList = ([.comma], .idle) := rfl

theorem scan_and : Sql.scan .idle " AND ".toList = ([.key .and_], .idle) := rfl

theorem closed_comma : Closed ", ".toList := by decide

theorem closed_and : Closed " AND ".toList := by decide

theorem lexes_columnText {name t : Text} (h : Lexes name [.word t]) :
    Lexes (columnText name) (outputTokens t) := by
  have hall := lexes_lit scan_open (fixed_as.between h h)
  rw [columnText, List.append_assoc, List.append_assoc]
  exact hall

theorem lexes_placeholder (i : Nat) : Lexes (placeholder i) [.param i] := by
  have hdigits : (toString i).toList = Nat.toDigits 10 i := Nat.toList_repr
  rw [placeholder, hdigits]
  exact lexes_param i

theorem lexes_cast (ty : FieldType) : Lexes ("::".toList ++ pgCast ty) (.cast :: castType ty) := by
  cases ty <;> exact ⟨rfl, word_ends _⟩

theorem lexes_value (ty : FieldType) (i : Nat) :
    Lexes (placeholder i ++ ("::".toList ++ pgCast ty)) (valueTokens ty i) :=
  (lexes_placeholder i).before (lexes_cast ty) rfl (List.cons_ne_nil _ _)

theorem lexes_assignmentText (f : DomainFieldDef) (i : Nat) :
    Lexes (assignmentText f i) (valueTokens f.fieldType i) := by
  rw [assignmentText, List.append_assoc]
  exact lexes_value f.fieldType i

/-! Conditions. -/

def comparisonOf (op : Text) : Comparison :=
  if op = "eq".toList then .eq
  else if op = "ne".toList then .ne
  else if op = "gt".toList then .gt
  else if op = "gte".toList then .ge
  else if op = "lt".toList then .lt
  else .le

def conditionTokens (f : DomainFieldDef) (op : Text) (i : Nat) : List Token :=
  if op = "contains".toList then [.word f.name, .key .ilike, .param i]
  else .word f.name :: .cmp (comparisonOf op) :: valueTokens f.fieldType i

def conditionOf (f : DomainFieldDef) (op : Text) (i : Nat) : Condition :=
  if op = "contains".toList then .ilike f.name i
  else .compare f.name (comparisonOf op) (valueOf f.fieldType i)

theorem fixed_opSql {ty : FieldType} {op : Text} (h : op ∈ allowedOps ty) (hop : op ≠ "contains".toList) :
    Fixed (" ".toList ++ (opSql op).getD [] ++ " ".toList) [.cmp (comparisonOf op)] := by
  have hall : ∀ op ∈ allowedOps ty, op ≠ "contains".toList →
      Sql.scan .idle (" ".toList ++ (opSql op).getD [] ++ " ".toList) = ([.cmp (comparisonOf op)], .idle) := by
    cases ty <;> decide
  exact ⟨hall op h hop, rfl, List.cons_ne_nil _ _⟩

theorem lexes_conditionText {f : DomainFieldDef} (hf : PlainName f.name) {op : Text}
    (hop : op ∈ allowedOps f.fieldType) (i : Nat) :
    Lexes (conditionText f op i) (conditionTokens f op i) := by
  unfold conditionText conditionTokens
  split
  · rw [List.append_assoc]
    exact fixed_ilike.between hf.lexes (lexes_placeholder i)
  · rename_i hne
    have hall := (fixed_opSql hop hne).between hf.lexes (lexes_assignmentText f i)
    simp only [List.append_assoc, assignmentText] at hall ⊢
    exact hall

/-! Orders and limits. -/

def orderTokens (o : OrderBy) : List Token := [.word o.column, .key (if o.descending then .desc else .asc)]

/-- The order of an accepted term. -/
def orderOf (o : OrderTerm) : OrderBy :=
  ⟨o.field, decide (o.dir = some "desc".toList ∨ o.dir = some "DESC".toList)⟩

theorem orderDir_ok {dir : Option Text} {t : Text} (h : orderDir dir = .ok t) :
    t = if dir = some "desc".toList ∨ dir = some "DESC".toList then "DESC".toList else "ASC".toList := by
  cases dir with
  | none =>
    cases h
    rfl
  | some dir =>
    simp only [orderDir] at h
    split at h
    · rename_i hasc
      have hne : ¬(dir = "desc".toList ∨ dir = "DESC".toList) := by
        obtain rfl | rfl := hasc <;> decide
      cases h
      simp only [Option.some.injEq, if_neg hne]
    · split at h
      · rename_i hdesc
        cases h
        simp only [Option.some.injEq, if_pos hdesc]
      · cases h

def orderText (o : OrderTerm) : Text :=
  o.field ++ " ".toList ++ (if (orderOf o).descending then "DESC".toList else "ASC".toList)

theorem orderTerm_eq {d : DomainDef} {o : OrderTerm} {t : Text} (h : orderTerm d o = .ok t) :
    t = orderText o ∧ Declared d o.field := by
  unfold orderTerm at h
  split at h
  · cases h
  rename_i hfield
  refine ⟨?_, declared_of_isSome (Bool.eq_false_iff.mpr hfield)⟩
  cases hdir : orderDir o.dir with
  | error e =>
    rw [hdir] at h
    cases h
  | ok dir =>
    rw [hdir] at h
    cases h
    simp only [orderText, orderOf, decide_eq_true_eq, orderDir_ok hdir]

theorem lexes_orderText {o : OrderTerm} (h : PlainName o.field) :
    Lexes (orderText o) (orderTokens (orderOf o)) := by
  have hdir : Lexes (if (orderOf o).descending then "DESC".toList else "ASC".toList)
      [.key (if (orderOf o).descending then .desc else .asc)] := by
    split <;> exact ⟨rfl, word_ends _⟩
  rw [orderText, List.append_assoc]
  exact fixed_blank.between h.lexes hdir

theorem orderTerms_eq {d : DomainDef} {order : List OrderTerm} {ts : List Text}
    (h : order.mapM (orderTerm d) = .ok ts) : ts = order.map orderText := by
  have hforall := mapM_ok h
  clear h
  induction hforall with
  | nil => rfl
  | cons ho _ ih => rw [List.map_cons, ← ih, (orderTerm_eq ho).1]

/-! Lists of pieces. -/

def commas (kss : List (List Token)) : List Token := [.comma].intercalate kss

theorem lexes_commas {α : Type} {f : α → Text} {g : α → List Token} {l : List α}
    (h : ∀ a ∈ l, Lexes (f a) (g a)) : Lexes (Text.join ", ".toList (l.map f)) (commas (l.map g)) :=
  lexes_join (lexes_closed scan_comma) closed_comma ⟨',', rfl, by decide⟩ h

theorem lexes_returning {d : DomainDef} (hd : Usable d) :
    Lexes (returning d) (commas (d.fields.map fun f => outputTokens f.name)) :=
  lexes_commas fun f hf => lexes_columnText (hd.fields f hf).lexes

/-- Tokens of a piece that are no separators. -/
theorem mem_labelTokens {o : Output} {k : Token} (h : k ∈ labelTokens o) :
    k ≠ .comma ∧ ∀ c ∈ [Sql.Key.from_, .where_, .returning, .order, .limit], k ≠ .key c := by
  simp only [labelTokens, List.mem_cons, List.not_mem_nil, or_false] at h
  obtain rfl | rfl | rfl | rfl | rfl | rfl | rfl := h <;> simp

theorem mem_castType {ty : FieldType} {k : Token} (h : k ∈ castType ty) : ∃ t, k = .word t := by
  cases ty <;> simp only [castType, List.mem_cons, List.not_mem_nil, or_false] at h
  case float => obtain rfl | rfl := h <;> exact ⟨_, rfl⟩
  all_goals exact ⟨_, h⟩

theorem mem_valueTokens {ty : FieldType} {i : Nat} {k : Token} (h : k ∈ valueTokens ty i) :
    k = .param i ∨ k = .cast ∨ ∃ t, k = .word t := by
  simp only [valueTokens, List.mem_cons] at h
  obtain rfl | rfl | h := h
  · exact .inl rfl
  · exact .inr (.inl rfl)
  · exact .inr (.inr (mem_castType h))

theorem readOutput_tokens (o : Output) : readOutput (labelTokens o) = some o := by
  simp [readOutput, labelTokens, Sql.isWord, Token.name]

theorem readValue_tokens (ty : FieldType) (i : Nat) : Sql.readValue (valueTokens ty i) = some (valueOf ty i) := by
  have hne : castType ty ≠ [] := by cases ty <;> simp [castType]
  simp [Sql.readValue, valueTokens, valueOf, hne]

theorem readOutputs {l : List Output} (h : l ≠ []) :
    readList .comma readOutput (commas (l.map labelTokens)) = some l := by
  have hread : readList .comma readOutput (commas (l.map labelTokens)) = some (l.map id) :=
    readList_eq h fun o _ => ⟨fun hmem => (mem_labelTokens hmem).1 rfl, readOutput_tokens o⟩
  rwa [List.map_id] at hread

/-! Mutations. -/

def outputs (d : DomainDef) : List Output := d.fields.map fun f => outputOf f.name

def returningTokens (d : DomainDef) : List Token :=
  .key .returning :: commas (d.fields.map fun f => outputTokens f.name)

theorem readReturning_tokens {d : DomainDef} (hd : Usable d) :
    Sql.readReturning (returningTokens d) = some (outputs d) := by
  have hne : outputs d ≠ [] := by simpa [outputs] using hd.some
  have hread := readOutputs hne
  rw [outputs, List.map_map] at hread
  exact hread

theorem not_mem_commas {α : Type} {k : Token} {f : α → List Token} {l : List α} (hk : k ≠ .comma)
    (h : ∀ a ∈ l, k ∉ f a) : k ∉ commas (l.map f) := by
  intro hmem
  obtain rfl | ⟨ks, hks, hk'⟩ := mem_intercalate hmem
  · exact hk rfl
  · obtain ⟨a, ha, rfl⟩ := List.mem_map.mp hks
    exact h a ha hk'

def insertTokens (d : DomainDef) (fs : List DomainFieldDef) : List Token :=
  .word "insert".toList :: .key .into :: .word d.source :: .lparen ::
    (commas (fs.map fun f => [.word f.name]) ++ .rparen :: .word "values".toList :: .lparen ::
      (commas ((fs.zipIdx 1).map fun e => valueTokens e.1.fieldType e.2) ++ .rparen :: returningTokens d))

def insertOf (d : DomainDef) (fs : List DomainFieldDef) : Statement :=
  .insert d.source (fs.map DomainFieldDef.name) ((fs.zipIdx 1).map fun e => valueOf e.1.fieldType e.2)
    (outputs d)

theorem lexes_insertText {d : DomainDef} (hd : Usable d) {fs : List DomainFieldDef}
    (hfs : ∀ f ∈ fs, f ∈ d.fields) : Lexes (insertText d fs) (insertTokens d fs) := by
  have hnames : Lexes (Text.join ", ".toList (fs.map DomainFieldDef.name))
      (commas (fs.map fun f => [.word f.name])) :=
    lexes_commas fun f hf => (hd.fields f (hfs f hf)).lexes
  have hvalues : Lexes (Text.join ", ".toList ((fs.zipIdx 1).map fun e => assignmentText e.1 e.2))
      (commas ((fs.zipIdx 1).map fun e => valueTokens e.1.fieldType e.2)) :=
    lexes_commas fun e _ => lexes_assignmentText e.1 e.2
  have hreturning := fixed_closeReturning.between hvalues (lexes_returning hd)
  have hopen := fixed_values.between hnames hreturning
  have hall := lexes_lit scan_insert (fixed_openList.between hd.source.lexes hopen)
  unfold insertText
  simp only [List.append_assoc]
  exact hall

theorem readStatement_insert {d : DomainDef} (hd : Usable d) {fs : List DomainFieldDef} (hfs : fs ≠ []) :
    readStatement (insertTokens d fs) = some (insertOf d fs) := by
  have hcolumns : .rparen ∉ commas (fs.map fun f => [.word f.name]) :=
    not_mem_commas (by simp) (by simp)
  have hvalues : .rparen ∉ commas ((fs.zipIdx 1).map fun e => valueTokens e.1.fieldType e.2) := by
    refine not_mem_commas (by simp) fun e _ hmem => ?_
    obtain h | h | ⟨t, h⟩ := mem_valueTokens hmem <;> cases h
  have hreadColumns : readList .comma readName (commas (fs.map fun f => [.word f.name])) =
      some (fs.map DomainFieldDef.name) :=
    readList_eq hfs fun f _ => ⟨by simp, rfl⟩
  have hreadValues : readList .comma Sql.readValue
      (commas ((fs.zipIdx 1).map fun e => valueTokens e.1.fieldType e.2)) =
      some ((fs.zipIdx 1).map fun e => valueOf e.1.fieldType e.2) := by
    refine readList_eq (by simpa using hfs) fun e _ => ⟨fun hmem => ?_, readValue_tokens _ _⟩
    obtain h | h | ⟨t, h⟩ := mem_valueTokens hmem <;> cases h
  have hreturning := readReturning_tokens hd
  simp only [readStatement, insertTokens, Sql.isWord, decide_true, if_true, Sql.readInsert,
    upTo_found hcolumns, upTo_found hvalues, hreadColumns, hreadValues, Token.name, List.drop_one,
    List.tail_cons, hreturning]
  rfl

def idName : Text := "id".toList

def idType (d : DomainDef) : FieldType := ((findField d idName).map DomainFieldDef.fieldType).getD .int

theorem idCast_eq (d : DomainDef) : idCast d = pgCast (idType d) := by
  unfold idCast idType
  change ((findField d idName).map _).getD _ = _
  cases findField d idName <;> rfl

def assignmentTokens (e : DomainFieldDef × Nat) : List Token :=
  .word e.1.name :: .cmp .eq :: valueTokens e.1.fieldType e.2

def idTokens (d : DomainDef) (i : Nat) : List Token :=
  .key .where_ :: .word idName :: .cmp .eq :: valueTokens (idType d) i

/-- The rows whose id is the parameter. -/
def idIs (d : DomainDef) (i : Nat) : Condition := .compare idName .eq (valueOf (idType d) i)

def updateTokens (d : DomainDef) (fs : List DomainFieldDef) : List Token :=
  .word "update".toList :: .word d.source :: .word "set".toList ::
    (commas ((fs.zipIdx 1).map assignmentTokens) ++ (idTokens d (fs.length + 1) ++ returningTokens d))

def updateOf (d : DomainDef) (fs : List DomainFieldDef) : Statement :=
  .update d.source ((fs.zipIdx 1).map fun e => (e.1.name, valueOf e.1.fieldType e.2))
    [idIs d (fs.length + 1)] (outputs d)

def deleteTokens (d : DomainDef) : List Token :=
  .word "delete".toList :: .key .from_ :: .word d.source :: (idTokens d 1 ++ returningTokens d)

def deleteOf (d : DomainDef) : Statement := .delete d.source [idIs d 1] (outputs d)

theorem lexes_setText {d : DomainDef} (hd : Usable d) {f : DomainFieldDef} (hf : f ∈ d.fields) (i : Nat) :
    Lexes (f.name ++ " = ".toList ++ assignmentText f i) (assignmentTokens (f, i)) := by
  rw [List.append_assoc]
  exact fixed_equals.between (hd.fields f hf).lexes (lexes_assignmentText f i)

theorem lexes_updateText {d : DomainDef} (hd : Usable d) {fs : List DomainFieldDef}
    (hfs : ∀ f ∈ fs, f ∈ d.fields) : Lexes (updateText d fs) (updateTokens d fs) := by
  have hsets : Lexes
      (Text.join ", ".toList ((fs.zipIdx 1).map fun e => e.1.name ++ " = ".toList ++ assignmentText e.1 e.2))
      (commas ((fs.zipIdx 1).map assignmentTokens)) :=
    lexes_commas fun e he => lexes_setText hd (hfs _ (List.fst_mem_of_mem_zipIdx he)) e.2
  have hid := fixed_returning.between (lexes_value (idType d) (fs.length + 1)) (lexes_returning hd)
  have hset := fixed_whereId.between hsets hid
  have hall := lexes_lit scan_update (fixed_set.between hd.source.lexes hset)
  unfold updateText
  rw [idCast_eq]
  simp only [List.append_assoc] at hall ⊢
  exact hall

theorem whereOne_eq : " WHERE id = $1::".toList = " WHERE id = ".toList ++ (placeholder 1 ++ "::".toList) := rfl

theorem lexes_deleteText {d : DomainDef} (hd : Usable d) : Lexes (deleteText d) (deleteTokens d) := by
  have hid := fixed_returning.between (lexes_value (idType d) 1) (lexes_returning hd)
  have hall := lexes_lit scan_delete (fixed_whereId.between hd.source.lexes hid)
  unfold deleteText
  rw [idCast_eq, whereOne_eq]
  simp only [List.append_assoc] at hall ⊢
  exact hall

theorem readWhere_id (d : DomainDef) (i : Nat) : Sql.readWhere (idTokens d i) = some [idIs d i] := by
  have hsep : .key .and_ ∉ .word idName :: .cmp .eq :: valueTokens (idType d) i := by
    intro hmem
    simp only [List.mem_cons, reduceCtorEq, false_or] at hmem
    obtain h | h | ⟨t, h⟩ := mem_valueTokens hmem <;> cases h
  have hread : readCondition (.word idName :: .cmp .eq :: valueTokens (idType d) i) = some (idIs d i) := by
    have hvalue := readValue_tokens (idType d) i
    simp only [readCondition, Token.name, hvalue, idIs]
    rfl
  rw [idTokens, Sql.readWhere, readList, List.splitOn_eq_singleton hsep]
  simp only [List.mapM_cons, List.mapM_nil, hread]
  rfl

theorem mem_idTokens {d : DomainDef} {i : Nat} {k : Token} (h : k ∈ idTokens d i) : k ≠ .key .returning := by
  simp only [idTokens, List.mem_cons] at h
  obtain rfl | rfl | rfl | h := h
  · simp
  · simp
  · simp
  · obtain rfl | rfl | ⟨t, rfl⟩ := mem_valueTokens h <;> simp

theorem readStatement_delete {d : DomainDef} (hd : Usable d) :
    readStatement (deleteTokens d) = some (deleteOf d) := by
  have hid : .key .returning ∉ idTokens d 1 := fun hmem => mem_idTokens hmem rfl
  have hsplit : Sql.upTo (.key .returning) (idTokens d 1 ++ returningTokens d) =
      (idTokens d 1, returningTokens d) := upTo_found hid _
  simp [readStatement, deleteTokens, Sql.isWord, Sql.readDelete, hsplit, Token.name, readWhere_id,
    readReturning_tokens hd, deleteOf]

theorem readStatement_update {d : DomainDef} (hd : Usable d) {fs : List DomainFieldDef} (hfs : fs ≠ []) :
    readStatement (updateTokens d fs) = some (updateOf d fs) := by
  have hkey (c : Sql.Key) : .key c ∉ commas ((fs.zipIdx 1).map assignmentTokens) := by
    refine not_mem_commas (by simp) fun e _ hmem => ?_
    simp only [assignmentTokens, List.mem_cons, reduceCtorEq, false_or] at hmem
    obtain h | h | ⟨t, h⟩ := mem_valueTokens hmem <;> cases h
  have hreturning : .key .returning ∉
      commas ((fs.zipIdx 1).map assignmentTokens) ++ idTokens d (fs.length + 1) := by
    rw [List.mem_append, not_or]
    exact ⟨hkey _, fun hmem => mem_idTokens hmem rfl⟩
  have hrows : Sql.upTo (.key .returning)
      (commas ((fs.zipIdx 1).map assignmentTokens) ++ (idTokens d (fs.length + 1) ++ returningTokens d)) =
      (commas ((fs.zipIdx 1).map assignmentTokens) ++ idTokens d (fs.length + 1), returningTokens d) := by
    rw [← List.append_assoc]
    exact upTo_found hreturning _
  have hsets : Sql.upTo (.key .where_)
      (commas ((fs.zipIdx 1).map assignmentTokens) ++ idTokens d (fs.length + 1)) =
      (commas ((fs.zipIdx 1).map assignmentTokens), idTokens d (fs.length + 1)) := upTo_found (hkey _) _
  have hread : readList .comma readAssignment (commas ((fs.zipIdx 1).map assignmentTokens)) =
      some ((fs.zipIdx 1).map fun e => (e.1.name, valueOf e.1.fieldType e.2)) := by
    refine readList_eq (by simpa using hfs) fun e _ => ⟨fun hmem => ?_, ?_⟩
    · simp only [assignmentTokens, List.mem_cons, reduceCtorEq, false_or] at hmem
      obtain h | h | ⟨t, h⟩ := mem_valueTokens hmem <;> cases h
    · have hvalue := readValue_tokens e.1.fieldType e.2
      simp only [readAssignment, assignmentTokens, Token.name, hvalue]
      rfl
  simp [readStatement, updateTokens, Sql.isWord, Sql.readUpdate, hrows, hsets, hread, Token.name,
    readWhere_id, readReturning_tokens hd, updateOf]

/-! Queries. -/

def whereTokens (fs : List DomainFieldDef) (ops : List Text) : List Token :=
  if ops.isEmpty then []
  else .key .where_ ::
    [.key .and_].intercalate (((fs.zip ops).zipIdx 1).map fun e => conditionTokens e.1.1 e.1.2 e.2)

def orderByTokens (order : List OrderTerm) : List Token :=
  if order.isEmpty then []
  else .key .order :: .word "by".toList :: commas (order.map fun o => orderTokens (orderOf o))

def limitTokens : Option Int → List Token
  | none => []
  | some n => [.key .limit, .number n.toNat]

def selectTokens (d : DomainDef) (cols : List Text) (fs : List DomainFieldDef) (r : QueryReq) : List Token :=
  .key .select :: (commas (cols.map outputTokens) ++ .key .from_ :: .word d.source ::
    (whereTokens fs (r.conditions.map WhereCond.op) ++ (orderByTokens r.order ++ limitTokens r.limit)))

def selectOf (d : DomainDef) (cols : List Text) (fs : List DomainFieldDef) (r : QueryReq) : Statement :=
  .select (cols.map outputOf) d.source
    (((fs.zip (r.conditions.map WhereCond.op)).zipIdx 1).map fun e => conditionOf e.1.1 e.1.2 e.2)
    (r.order.map orderOf) (r.limit.map Int.toNat)

/-- What the tokens behind the name of the table begin with. -/
def StartsClause (t : Text) : Prop := t = [] ∨ (t.head?.all fun c => !Sql.isWordChar c) = true ∧ t ≠ []

theorem StartsClause.append {a b : Text} (ha : StartsClause a) (hb : StartsClause b) :
    StartsClause (a ++ b) := by
  obtain rfl | ⟨hhead, hne⟩ := ha
  · exact hb
  · cases a with
    | nil => exact absurd rfl hne
    | cons c a => exact .inr ⟨hhead, by simp⟩

theorem lexes_clause {a b : Text} {ks ks' : List Token} (ha : Lexes a ks) (hb : Lexes b ks')
    (h : StartsClause b) : Lexes (a ++ b) (ks ++ ks') := by
  obtain rfl | ⟨hhead, hne⟩ := h
  · have hnil : ks' = [] := hb.reads.symm
    rw [hnil, List.append_nil, List.append_nil]
    exact ha
  · exact ha.before hb hhead hne

theorem lexes_whereText {fs : List DomainFieldDef} (hfs : ∀ f ∈ fs, PlainName f.name) {ops : List Text}
    (hops : ∀ p ∈ fs.zip ops, p.2 ∈ allowedOps p.1.fieldType) :
    Lexes (whereText fs ops) (whereTokens fs ops) ∧ StartsClause (whereText fs ops) := by
  unfold whereText whereTokens
  split
  · exact ⟨lexes_closed rfl, .inl rfl⟩
  · have hconditions : Lexes (Text.join " AND ".toList (conditionTexts fs ops 1))
        ([.key .and_].intercalate (((fs.zip ops).zipIdx 1).map fun e => conditionTokens e.1.1 e.1.2 e.2)) := by
      refine lexes_join (lexes_closed scan_and) closed_and ⟨' ', rfl, by decide⟩ ?_
      intro e he
      have hmem := List.fst_mem_of_mem_zipIdx he
      exact lexes_conditionText (hfs _ (List.of_mem_zip hmem).1) (hops _ hmem) e.2
    have hall : Lexes (" WHERE ".toList ++ _) ([.key .where_] ++ _) :=
      lexes_lit fixed_where.scans hconditions
    exact ⟨hall, .inr ⟨rfl, by simp⟩⟩

theorem lexes_orderClause {d : DomainDef} (hd : Usable d) {order : List OrderTerm} {t : Text}
    (h : orderClause d order = .ok t) : Lexes t (orderByTokens order) ∧ StartsClause t := by
  have hdeclared := orderClause_declared h
  unfold orderClause at h
  unfold orderByTokens
  split at h
  · rename_i hempty
    cases h
    rw [if_pos hempty]
    exact ⟨lexes_closed rfl, .inl rfl⟩
  · rename_i hempty
    rw [if_neg hempty]
    cases hterms : order.mapM (orderTerm d) with
    | error e =>
      rw [hterms] at h
      cases h
    | ok terms =>
      rw [hterms] at h
      cases h
      rw [orderTerms_eq hterms]
      have hlist : Lexes (Text.join ", ".toList (order.map orderText))
          (commas (order.map fun o => orderTokens (orderOf o))) := by
        refine lexes_commas fun o ho => lexes_orderText ?_
        obtain ⟨f, hf, hname⟩ := hdeclared o ho
        exact hname ▸ hd.fields f hf
      have hall : Lexes (" ORDER BY ".toList ++ _) ([.key .order, .word "by".toList] ++ _) :=
        lexes_lit fixed_orderBy.scans hlist
      exact ⟨hall, .inr ⟨rfl, by simp⟩⟩

theorem lexes_limitClause {limit : Option Int} {t : Text} (h : limitClause limit = .ok t) :
    Lexes t (limitTokens limit) ∧ StartsClause t := by
  unfold limitClause at h
  cases limit with
  | none =>
    cases h
    exact ⟨lexes_closed rfl, .inl rfl⟩
  | some n =>
    dsimp only at h
    split at h
    · cases h
    · rename_i hn
      cases h
      obtain ⟨k, rfl⟩ := Int.eq_ofNat_of_zero_le (not_lt.mp hn)
      have hdigits : (toString (k : Int)).toList = Nat.toDigits 10 k := Nat.toList_repr
      have hall : Lexes (" LIMIT ".toList ++ _) ([.key .limit] ++ _) :=
        lexes_lit fixed_limit.scans (lexes_number k)
      rw [hdigits]
      exact ⟨hall, .inr ⟨rfl, by simp⟩⟩

theorem lexes_selectText {d : DomainDef} (hd : Usable d) {cols : List Text} (hcols : ∀ c ∈ cols, PlainName c)
    {fs : List DomainFieldDef} (hfs : ∀ f ∈ fs, f ∈ d.fields) {r : QueryReq}
    (hops : ∀ p ∈ fs.zip (r.conditions.map WhereCond.op), p.2 ∈ allowedOps p.1.fieldType) {order limit : Text}
    (horder : orderClause d r.order = .ok order) (hlimit : limitClause r.limit = .ok limit) :
    Lexes (selectText d cols fs (r.conditions.map WhereCond.op) order limit) (selectTokens d cols fs r) := by
  have houtputs : Lexes (Text.join ", ".toList (cols.map columnText)) (commas (cols.map outputTokens)) :=
    lexes_commas fun c hc => lexes_columnText (hcols c hc).lexes
  obtain ⟨hwhere, hwhereStart⟩ := lexes_whereText (fun f hf => hd.fields f (hfs f hf)) hops
  obtain ⟨hby, hbyStart⟩ := lexes_orderClause hd horder
  obtain ⟨hend, hendStart⟩ := lexes_limitClause hlimit
  have hrest := lexes_clause hwhere (lexes_clause hby hend hendStart) (hbyStart.append hendStart)
  have hsource := lexes_clause hd.source.lexes hrest (hwhereStart.append (hbyStart.append hendStart))
  have hall := lexes_lit scan_select (fixed_from.between houtputs hsource)
  unfold selectText selectTokens
  simp only [List.append_assoc] at hall ⊢
  exact hall

theorem mem_conditionTokens {f : DomainFieldDef} {op : Text} {i : Nat} {k : Token}
    (h : k ∈ conditionTokens f op i) : ∀ c ∈ [Sql.Key.and_, .order, .limit], k ≠ .key c := by
  unfold conditionTokens at h
  split at h
  · simp only [List.mem_cons, List.not_mem_nil, or_false] at h
    obtain rfl | rfl | rfl := h <;> simp
  · simp only [List.mem_cons] at h
    obtain rfl | rfl | h := h
    · simp
    · simp
    · obtain rfl | rfl | ⟨t, rfl⟩ := mem_valueTokens h <;> simp

theorem readCondition_tokens (f : DomainFieldDef) (op : Text) (i : Nat) :
    readCondition (conditionTokens f op i) = some (conditionOf f op i) := by
  unfold conditionTokens conditionOf
  split
  · rfl
  · have hvalue := readValue_tokens f.fieldType i
    simp only [readCondition, Token.name, hvalue]
    rfl

theorem mem_whereTokens {fs : List DomainFieldDef} {ops : List Text} {k : Token}
    (h : k ∈ whereTokens fs ops) : ∀ c ∈ [Sql.Key.order, .limit], k ≠ .key c := by
  unfold whereTokens at h
  split at h
  · cases h
  obtain rfl | h := List.mem_cons.mp h
  · simp
  obtain rfl | ⟨ks, hks, hk⟩ := mem_intercalate h
  · simp
  · obtain ⟨e, -, rfl⟩ := List.mem_map.mp hks
    exact fun c hc => mem_conditionTokens hk c (List.mem_cons_of_mem _ hc)

theorem mem_orderByTokens {order : List OrderTerm} {k : Token} (h : k ∈ orderByTokens order) :
    k ≠ .key .limit := by
  unfold orderByTokens at h
  split at h
  · cases h
  simp only [List.mem_cons] at h
  obtain rfl | rfl | h := h
  · simp
  · simp
  obtain rfl | ⟨ks, hks, hk⟩ := mem_intercalate h
  · simp
  obtain ⟨o, -, rfl⟩ := List.mem_map.mp hks
  simp only [orderTokens, List.mem_cons, List.not_mem_nil, or_false] at hk
  obtain rfl | rfl := hk
  · simp
  · split <;> simp

theorem readWhere_tokens {fs : List DomainFieldDef} {ops : List Text} (hlen : fs.length = ops.length) :
    Sql.readWhere (whereTokens fs ops) =
      some (((fs.zip ops).zipIdx 1).map fun e => conditionOf e.1.1 e.1.2 e.2) := by
  unfold whereTokens
  cases ops with
  | nil =>
    rw [List.length_eq_zero_iff.mp hlen]
    rfl
  | cons op ops =>
    have hne : (fs.zip (op :: ops)).zipIdx 1 ≠ [] := by
      rw [ne_eq, ← List.length_eq_zero_iff, List.length_zipIdx, List.length_zip, hlen, Nat.min_self]
      simp
    exact readList_eq hne fun e _ =>
      ⟨fun hmem => mem_conditionTokens hmem .and_ List.mem_cons_self rfl, readCondition_tokens _ _ _⟩

theorem readOrder_tokens (order : List OrderTerm) :
    Sql.readOrder (orderByTokens order) = some (order.map orderOf) := by
  unfold orderByTokens
  cases order with
  | nil => rfl
  | cons o order =>
    have hread : readList .comma readOrderBy (commas ((o :: order).map fun o => orderTokens (orderOf o))) =
        some ((o :: order).map orderOf) := by
      refine readList_eq (by simp) fun o _ => ⟨by simp [orderTokens], ?_⟩
      obtain ⟨column, descending⟩ := orderOf o
      cases descending <;> rfl
    simp only [List.isEmpty_cons, Bool.false_eq_true, if_false, Sql.readOrder, Sql.isWord, decide_true,
      if_true]
    exact hread

theorem readLimit_tokens (limit : Option Int) :
    Sql.readLimit (limitTokens limit) = some (limit.map Int.toNat) := by
  cases limit <;> rfl

/-- Before a clause that begins with the token, or before nothing. -/
theorem upTo_clause {k : Token} {ks ks' : List Token} (h : k ∉ ks) (h' : ks' = [] ∨ ∃ l, ks' = k :: l) :
    Sql.upTo k (ks ++ ks') = (ks, ks') := by
  obtain rfl | ⟨l, rfl⟩ := h'
  · rw [List.append_nil]
    exact upTo_absent h
  · exact upTo_found h l

/-- A query is read clause by clause. -/
theorem readSelect_tokens {outs : List Output} (houts : outs ≠ []) (table : Text)
    {where_ order limit : List Token} {cs : List Condition} {os : List OrderBy} {n : Option Nat}
    (hwhere : Sql.readWhere where_ = some cs) (horder : Sql.readOrder order = some os)
    (hlimit : Sql.readLimit limit = some n)
    (hwhereKeys : ∀ k ∈ where_, ∀ c ∈ [Sql.Key.order, .limit], k ≠ .key c)
    (horderKeys : ∀ k ∈ order, k ≠ .key .limit)
    (horderStart : order = [] ∨ ∃ ks, order = .key .order :: ks)
    (hlimitStart : limit = [] ∨ ∃ ks, limit = .key .limit :: ks) :
    Sql.readSelect (commas (outs.map labelTokens) ++
      .key .from_ :: .word table :: (where_ ++ (order ++ limit))) = some (.select outs table cs os n) := by
  have houtputs : .key .from_ ∉ commas (outs.map labelTokens) :=
    not_mem_commas (by simp) fun o _ hmem => (mem_labelTokens hmem).2 .from_ (by simp) rfl
  have hupToLimit : Sql.upTo (.key .limit) (where_ ++ (order ++ limit)) = (where_ ++ order, limit) := by
    rw [← List.append_assoc]
    refine upTo_clause ?_ hlimitStart
    rw [List.mem_append, not_or]
    exact ⟨fun hmem => hwhereKeys _ hmem .limit (by simp) rfl, fun hmem => horderKeys _ hmem rfl⟩
  have hupToOrder : Sql.upTo (.key .order) (where_ ++ order) = (where_, order) :=
    upTo_clause (fun hmem => hwhereKeys _ hmem .order (by simp) rfl) horderStart
  simp only [Sql.readSelect, upTo_found houtputs, hupToLimit, hupToOrder, readOutputs houts, hwhere, horder,
    hlimit, Token.name]
  rfl

theorem readStatement_select {d : DomainDef} {cols : List Text} (hcols : cols ≠ [])
    {fs : List DomainFieldDef} {r : QueryReq} (hlen : fs.length = (r.conditions.map WhereCond.op).length) :
    readStatement (selectTokens d cols fs r) = some (selectOf d cols fs r) := by
  have hlimitStart : limitTokens r.limit = [] ∨ ∃ l, limitTokens r.limit = .key .limit :: l := by
    cases r.limit with
    | none => exact .inl rfl
    | some n => exact .inr ⟨_, rfl⟩
  have horderStart : orderByTokens r.order = [] ∨ ∃ l, orderByTokens r.order = .key .order :: l := by
    unfold orderByTokens
    split
    · exact .inl rfl
    · exact .inr ⟨_, rfl⟩
  have hne : cols.map outputOf ≠ [] := by simpa using hcols
  have hread := readSelect_tokens hne d.source (readWhere_tokens hlen) (readOrder_tokens r.order)
    (readLimit_tokens r.limit) (fun _ => mem_whereTokens) (fun _ => mem_orderByTokens) horderStart hlimitStart
  rw [List.map_map] at hread
  exact hread

/-! Option lists. -/

def optionOutputs (m : MetaDef) : List Output := [⟨m.valueField, valueColumn⟩, ⟨m.labelField, labelColumn⟩]

def optionsOf (m : MetaDef) : Statement :=
  .select (optionOutputs m) m.table [] (m.orderBy.toList.map fun c => ⟨c, false⟩) none

def optionOrderTokens (m : MetaDef) : List Token :=
  (m.orderBy.map fun c => [.key .order, .word "by".toList, .word c]).getD []

def optionTokens (m : MetaDef) : List Token :=
  .key .select :: (commas ((optionOutputs m).map labelTokens) ++
    .key .from_ :: .word m.table :: ([] ++ (optionOrderTokens m ++ [])))

theorem fixed_asValue : Fixed ")::text AS value, (".toList
    [.rparen, .cast, .word "text".toList, .key .as_, .word valueColumn, .comma, .lparen] :=
  ⟨rfl, rfl, List.cons_ne_nil _ _⟩

theorem fixed_asLabel : Fixed ")::text AS label FROM ".toList
    [.rparen, .cast, .word "text".toList, .key .as_, .word labelColumn, .key .from_] :=
  ⟨rfl, rfl, List.cons_ne_nil _ _⟩

theorem scan_selectOpen : Sql.scan .idle "SELECT (".toList = ([.key .select, .lparen], .idle) := rfl

theorem lexes_optionsSql {m : MetaDef} (h : ∀ name ∈ metaNames m, PlainName name) :
    Lexes (optionsSql m) (optionTokens m) := by
  have htable : PlainName m.table := h _ (by simp [metaNames])
  have hvalue : PlainName m.valueField := h _ (by simp [metaNames])
  have hlabel : PlainName m.labelField := h _ (by simp [metaNames])
  have hsource : Lexes (m.table ++ (m.orderBy.map (" ORDER BY ".toList ++ ·)).getD [])
      ([.word m.table] ++ optionOrderTokens m) := by
    unfold optionOrderTokens
    cases horder : m.orderBy with
    | none =>
      rw [Option.map_none, Option.map_none, Option.getD_none, Option.getD_none, List.append_nil]
      exact htable.lexes
    | some c =>
      have hc : PlainName c := h _ (by simp [metaNames, horder])
      exact lexes_clause htable.lexes (lexes_lit fixed_orderBy.scans hc.lexes) (.inr ⟨rfl, by simp⟩)
  have hall := lexes_lit scan_selectOpen
    (fixed_asValue.between hvalue.lexes (fixed_asLabel.between hlabel.lexes hsource))
  unfold optionsSql optionTokens
  simp only [List.append_assoc, List.append_nil] at hall ⊢
  exact hall

theorem readStatement_options (m : MetaDef) : readStatement (optionTokens m) = some (optionsOf m) := by
  have horder : Sql.readOrder (optionOrderTokens m) = some (m.orderBy.toList.map fun c => ⟨c, false⟩) := by
    unfold optionOrderTokens
    cases m.orderBy <;> rfl
  have hkeys : ∀ k ∈ optionOrderTokens m, k ≠ .key .limit := by
    unfold optionOrderTokens
    cases m.orderBy <;> simp
  have hstart : optionOrderTokens m = [] ∨ ∃ ks, optionOrderTokens m = .key .order :: ks := by
    unfold optionOrderTokens
    cases m.orderBy with
    | none => exact .inl rfl
    | some c => exact .inr ⟨_, rfl⟩
  have hwhere : Sql.readWhere [] = some [] := rfl
  have hlimit : Sql.readLimit [] = some none := rfl
  have houts : optionOutputs m ≠ [] := List.cons_ne_nil _ _
  exact readSelect_tokens houts m.table hwhere horder hlimit (by simp) hkeys hstart (.inl rfl)

end Onisin.Gql
