import Onisin.Gql.Meaning
import Onisin.Gql.Query
import Onisin.Lib.Like

/-!
The table of a domain. The design tool creates it with quoted names, and the data service then
writes the names as they are. Whether it finds the table is a question of how they are spelled.
-/

set_option autoImplicit false

namespace Onisin.Gql
open Lib Domain
open Lib.Sql (Token TypeName Lexes Statement Engine Table Database put fold wordToken tokens readStatement
  readList readColumn Closed lexes_closed lexes_join lexes_lit lexes_quoted word_ends lexes_word readList_eq)

/-! The statement. -/

def typeToSql : FieldType → Text
  | .string => "varchar(255)".toList
  | .text => "text".toList
  | .int => "integer".toList
  | .float => "numeric".toList
  | .bool => "boolean".toList
  | .date => "date".toList
  | .datetime => "timestamptz".toList

def idColumn : Text := "\"id\" serial PRIMARY KEY".toList

def quotedName (name : Text) : Text := '"' :: (name ++ ['"'])

def columnDdl (f : DomainFieldDef) : Text := quotedName f.name ++ " ".toList ++ typeToSql f.fieldType

/-- The columns so far, and whether the key is among them. It always leads. -/
def pushColumn (s : List Text × Bool) (f : DomainFieldDef) : List Text × Bool :=
  if f.name = "id".toList then (idColumn :: s.1, true) else (s.1 ++ [columnDdl f], s.2)

def tableName (d : DomainDef) : Text := if d.source.isEmpty then d.name else d.source

def domainToDdl (d : DomainDef) : Text :=
  let s := d.fields.foldl pushColumn ([], false)
  let cols := if s.2 then s.1 else idColumn :: s.1
  let body := Text.join ",\n".toList (cols.map fun c => "  ".toList ++ c)
  "CREATE TABLE IF NOT EXISTS public.".toList ++ quotedName (tableName d) ++ " (\n".toList ++ body ++
    "\n);".toList

/-- `exec` runs a text over the database behind an address. -/
def createTableFromDomain (parseMessage : ParseError → Text) (exec : Text → Text → Except Text Unit)
    (source dbUrl : Text) : Except Text Text :=
  if dbUrl.isEmpty then .error "No database URL configured in Settings → Database".toList
  else
    match parseDomain source with
    | .error e => .error ("DSL parse error: ".toList ++ parseMessage e)
    | .ok d => (exec dbUrl (domainToDdl d)).map fun _ => domainToDdl d

/-! What it is read as. -/

def columnType : FieldType → TypeName
  | .string => [.word "varchar".toList, .lparen, .number 255, .rparen]
  | .text => [.word "text".toList]
  | .int => [.word "integer".toList]
  | .float => [.word "numeric".toList]
  | .bool => [.word "boolean".toList]
  | .date => [.word "date".toList]
  | .datetime => [.word "timestamptz".toList]

/-- The columns in their order; none is the key. A domain that declares the key twice has it twice. -/
def columnEntries (d : DomainDef) : List (Option DomainFieldDef) :=
  let ids := d.fields.filter fun f => f.name = idName
  (if ids.isEmpty then [none] else ids.map fun _ => none) ++
    (d.fields.filter fun f => f.name ≠ idName).map some

def entryText (c : Option DomainFieldDef) : Text := c.elim idColumn columnDdl

def entryColumn (c : Option DomainFieldDef) : Text × TypeName :=
  c.elim (idName, Sql.serial) fun f => (f.name, columnType f.fieldType)

def entryTokens (c : Option DomainFieldDef) : List Token := .quoted (entryColumn c).1 :: (entryColumn c).2

def tableColumns (d : DomainDef) : List (Text × TypeName) := (columnEntries d).map entryColumn

theorem foldl_pushColumn (fields : List DomainFieldDef) (cols : List Text) (hasPk : Bool) :
    fields.foldl pushColumn (cols, hasPk) =
      ((fields.filter fun f => f.name = idName).map (fun _ => idColumn) ++ cols ++
        (fields.filter fun f => f.name ≠ idName).map columnDdl,
        hasPk || !(fields.filter fun f => f.name = idName).isEmpty) := by
  induction fields generalizing cols hasPk with
  | nil => simp
  | cons f fields ih =>
    rw [List.foldl_cons, pushColumn]
    by_cases hid : f.name = idName
    · have hmove : (fields.filter fun f => f.name = idName).map (fun _ => idColumn) ++ idColumn :: cols =
          idColumn :: ((fields.filter fun f => f.name = idName).map (fun _ => idColumn) ++ cols) := by
        rw [List.map_const', List.append_cons, ← List.replicate_succ', List.replicate_succ,
          List.cons_append]
      rw [if_pos (show f.name = "id".toList from hid), ih, hmove]
      simp [hid]
    · rw [if_neg (show ¬f.name = "id".toList from hid), ih]
      simp [hid]

theorem domainToDdl_eq (d : DomainDef) :
    domainToDdl d = "CREATE TABLE IF NOT EXISTS public.".toList ++ (quotedName (tableName d) ++
      (" (\n".toList ++ (Text.join ",\n".toList ((columnEntries d).map fun c => "  ".toList ++ entryText c) ++
        "\n);".toList))) := by
  have hcols : (if (d.fields.foldl pushColumn ([], false)).2 then (d.fields.foldl pushColumn ([], false)).1
      else idColumn :: (d.fields.foldl pushColumn ([], false)).1) = (columnEntries d).map entryText := by
    rw [foldl_pushColumn]
    unfold columnEntries
    cases hids : (d.fields.filter fun f => f.name = idName) with
    | nil => simp [entryText, Function.comp_def]
    | cons f ids => simp [entryText, Function.comp_def]
  unfold domainToDdl
  dsimp only
  rw [hcols, List.map_map]
  simp only [List.append_assoc]
  rfl

theorem lexes_typeToSql (ty : FieldType) : Lexes (" ".toList ++ typeToSql ty) (columnType ty) := by
  cases ty
  case string => exact lexes_closed rfl
  all_goals exact ⟨rfl, word_ends _⟩

theorem scan_indent : Sql.scan .idle "  ".toList = ([], .idle) := rfl

theorem scan_create : Sql.scan .idle "CREATE TABLE IF NOT EXISTS public.".toList =
    ([.key .create, .key .table, .word "if".toList, .key .not_, .word "exists".toList,
      .word "public".toList, .dot], .idle) := by decide

theorem scan_body : Sql.scan .idle " (\n".toList = ([.lparen], .idle) := rfl

theorem fixed_end : Fixed "\n);".toList [.rparen, .semicolon] := ⟨rfl, rfl, List.cons_ne_nil _ _⟩

theorem scan_commaLine : Sql.scan .idle ",\n".toList = ([.comma], .idle) := rfl

theorem closed_commaLine : Closed ",\n".toList := by decide

theorem lexes_entryText {c : Option DomainFieldDef} (h : ∀ f ∈ c, '"' ∉ f.name) :
    Lexes ("  ".toList ++ entryText c) (entryTokens c) := by
  cases c with
  | none => exact ⟨rfl, word_ends _⟩
  | some f =>
    have hname := lexes_lit (lexes_quoted (h f rfl)) (lexes_typeToSql f.fieldType)
    have hall := lexes_lit scan_indent hname
    change Lexes ("  ".toList ++ (quotedName f.name ++ " ".toList ++ typeToSql f.fieldType)) _
    rw [List.append_assoc]
    exact hall

def createTokens (d : DomainDef) : List Token :=
  .key .create :: .key .table :: .word "if".toList :: .key .not_ :: .word "exists".toList ::
    .word "public".toList :: .dot :: .quoted (tableName d) :: .lparen ::
    (commas ((columnEntries d).map entryTokens) ++ [.rparen, .semicolon])

/-- No name of the domain holds a quotation mark. -/
def Quotable (d : DomainDef) : Prop := '"' ∉ tableName d ∧ ∀ f ∈ d.fields, '"' ∉ f.name

theorem mem_columnEntries {d : DomainDef} {f : DomainFieldDef} (h : some f ∈ columnEntries d) :
    f ∈ d.fields ∧ f.name ≠ idName := by
  unfold columnEntries at h
  obtain h | h := List.mem_append.mp h
  · split at h <;> simp at h
  · simpa using h

theorem lexes_domainToDdl {d : DomainDef} (hd : Quotable d) : Lexes (domainToDdl d) (createTokens d) := by
  have hbody : Lexes (Text.join ",\n".toList ((columnEntries d).map fun c => "  ".toList ++ entryText c))
      (commas ((columnEntries d).map entryTokens)) := by
    refine lexes_join (lexes_closed scan_commaLine) closed_commaLine ⟨',', rfl, by decide⟩ ?_
    rintro c hc
    refine lexes_entryText fun f hf => ?_
    obtain rfl := hf
    exact hd.2 f (mem_columnEntries hc).1
  have hend := hbody.before (lexes_closed fixed_end.scans) fixed_end.separates fixed_end.ne
  have hall := lexes_lit scan_create (lexes_lit (lexes_quoted hd.1) (lexes_lit scan_body hend))
  rw [domainToDdl_eq]
  exact hall

theorem columnEntries_ne_nil (d : DomainDef) : columnEntries d ≠ [] := by
  unfold columnEntries
  cases d.fields.filter fun f => f.name = idName <;> simp

theorem readStatement_create (d : DomainDef) :
    readStatement (createTokens d) = some (.create (tableName d) (tableColumns d)) := by
  have hread : readList .comma readColumn (commas ((columnEntries d).map entryTokens)) =
      some (tableColumns d) := by
    refine readList_eq (columnEntries_ne_nil d) fun c _ => ?_
    cases c with
    | none => exact ⟨by decide, rfl⟩
    | some f =>
      cases hty : f.fieldType <;>
        simp [entryTokens, entryColumn, columnType, hty, readColumn, Token.name]
  have hend : [Token.rparen, Token.semicolon] <:+
      commas ((columnEntries d).map entryTokens) ++ [.rparen, .semicolon] := List.suffix_append _ _
  have hdrop : (commas ((columnEntries d).map entryTokens) ++ [Token.rparen, .semicolon]).dropLast.dropLast =
      commas ((columnEntries d).map entryTokens) := by
    rw [List.append_cons, List.dropLast_concat, List.dropLast_concat]
  simp only [readStatement, createTokens, Sql.readCreate, Sql.isWord, decide_true, Bool.and_self, if_true,
    Token.name, if_pos hend, hdrop, Option.bind_eq_bind, Option.bind_some, hread]
  rfl

theorem run_domainToDdl {V : Type} (e : Engine V) {d : DomainDef} (hd : Quotable d) (db : Database V) :
    e.run db (domainToDdl d) [] = (db.create (tableName d) (tableColumns d)).map fun db => ([], db) := by
  rw [Engine.run, (lexes_domainToDdl hd).tokens, readStatement_create]
  rfl

/-! Queries over a table that was created. -/

section Service
variable {V : Type} (e : Engine V) (refusal : Text → List Bind → Text)

/-- What the driver gives for a statement; a refused one has a message. -/
def runRows (db : Database V) : Run := fun sql binds =>
  match e.run db sql binds with
  | none => .error (refusal sql binds)
  | some r => .ok r.1

end Service

/-- A name that is no reserved word. -/
def Unreserved (name : Text) : Prop := wordToken name = .word (fold name)

instance (name : Text) : Decidable (Unreserved name) := inferInstanceAs (Decidable (_ = _))

theorem isAlphaAscii_eq (c : Char) : isAlphaAscii c = c.isAlpha := by
  rw [Bool.eq_iff_iff]
  unfold isAlphaAscii Char.isAlpha Char.isUpper Char.isLower
  simp only [Bool.or_eq_true, Bool.and_eq_true, decide_eq_true_eq]
  exact or_comm

theorem lexes_ident {name : Text} (h : IdentText name) : Lexes name [wordToken name] := by
  obtain ⟨hall, c, hc, hstart⟩ := h
  refine lexes_word ⟨c, hc, ?_⟩ ?_
  · rwa [Sql.isWordStart, ← isAlphaAscii_eq]
  · have hchar : isIdentChar = Sql.isWordChar := by
      funext c
      rw [Sql.isWordChar, Sql.isWordStart, ← isAlphaAscii_eq]
      rfl
    rwa [← hchar]

theorem no_quote_of_ident {name : Text} (h : IdentText name) : '"' ∉ name := fun hmem =>
  absurd (List.all_eq_true.mp h.1 '"' hmem) (by decide)

theorem tableName_of_ident {d : DomainDef} (h : IdentText d.source) : tableName d = d.source := by
  obtain ⟨-, c, hc, -⟩ := h
  unfold tableName
  cases hsource : d.source with
  | nil =>
    rw [hsource] at hc
    cases hc
  | cons c t => rfl

theorem quotable_of_parseDomain {source : Text} {d : DomainDef} (h : parseDomain source = .ok d) :
    Quotable d := by
  obtain ⟨hsource, hfields⟩ := parseDomain_names h
  refine ⟨?_, fun f hf => no_quote_of_ident (hfields f hf)⟩
  rw [tableName_of_ident hsource]
  exact no_quote_of_ident hsource

theorem tableColumns_names (d : DomainDef) :
    (tableColumns d).map Prod.fst =
      (if (d.fields.filter fun f => f.name = idName).isEmpty then [idName] else []) ++
        ((d.fields.filter fun f => f.name = idName) ++
          (d.fields.filter fun f => f.name ≠ idName)).map DomainFieldDef.name := by
  have hids : (d.fields.filter fun f => f.name = idName).map (fun _ => idName) =
      (d.fields.filter fun f => f.name = idName).map DomainFieldDef.name :=
    List.map_congr_left fun f hf => (of_decide_eq_true (List.mem_filter.mp hf).2).symm
  rw [tableColumns, columnEntries, List.map_map, List.map_append, List.map_append, List.map_map]
  split
  · rename_i hempty
    rw [List.isEmpty_iff.mp hempty]
    rfl
  · rw [List.map_map, ← hids]
    rfl

theorem nodup_tableColumns {d : DomainDef} (h : (d.fields.map DomainFieldDef.name).Nodup) :
    ((tableColumns d).map Prod.fst).Nodup := by
  have hperm : ((d.fields.filter fun f => f.name = idName) ++
      (d.fields.filter fun f => f.name ≠ idName)).Perm d.fields := by
    have hall := List.filter_append_perm (fun f : DomainFieldDef => decide (f.name = idName)) d.fields
    simpa using hall
  have hnames := (hperm.map DomainFieldDef.name).nodup_iff.mpr h
  rw [tableColumns_names]
  split
  · rename_i hempty
    refine List.nodup_append.mpr ⟨List.nodup_singleton _, hnames, ?_⟩
    rintro name hname name' hname' rfl
    rw [List.mem_singleton.mp hname, List.isEmpty_iff.mp hempty, List.nil_append] at hname'
    obtain ⟨f, hf, hid⟩ := List.mem_map.mp hname'
    exact absurd hid (by simpa using (List.mem_filter.mp hf).2)
  · exact hnames

theorem mem_tableColumns {d : DomainDef} {name : Text} :
    name ∈ (tableColumns d).map Prod.fst ↔ name = idName ∨ ∃ f ∈ d.fields, f.name = name := by
  rw [tableColumns_names, List.mem_append, List.map_append, List.mem_append]
  constructor
  · rintro (h | h | h)
    · split at h
      · exact .inl (List.mem_singleton.mp h)
      · cases h
    all_goals
      obtain ⟨f, hf, rfl⟩ := List.mem_map.mp h
      exact .inr ⟨f, (List.mem_filter.mp hf).1, rfl⟩
  · rintro (rfl | ⟨f, hf, rfl⟩)
    · cases hids : d.fields.filter fun f => f.name = idName with
      | nil => exact .inl (by simp)
      | cons f ids =>
        have hid : f.name = idName := by
          have hmem : f ∈ d.fields.filter fun f => f.name = idName := hids ▸ List.mem_cons_self
          simpa using (List.mem_filter.mp hmem).2
        exact .inr (.inl (by rw [← hid]; exact List.mem_cons_self))
    · by_cases hid : f.name = idName
      · exact .inr (.inl (List.mem_map_of_mem (List.mem_filter.mpr ⟨hf, by simpa using hid⟩)))
      · exact .inr (.inr (List.mem_map_of_mem (List.mem_filter.mpr ⟨hf, by simpa using hid⟩)))

theorem has_iff {V : Type} {t : Table V} {name : Text} : t.has name = true ↔ name ∈ t.columns.map Prod.fst := by
  rw [Table.has, Table.type, List.lookup_isSome_iff, List.mem_map]
  simp only [beq_iff_eq]
  exact exists_congr fun c => and_congr_right fun _ => eq_comm

/-- The request for all rows of a domain, as the service runs it over a database. -/
theorem run_bare {V : Type} (e : Engine V) {d : DomainDef} (hsource : Lexes d.source [.word (fold d.source)])
    (hfields : ∀ f ∈ d.fields, Lexes f.name [.word (fold f.name)]) (hne : d.fields ≠ []) (db : Database V) :
    ∃ sql, buildSelect d bareReq = .ok (sql, []) ∧
      ((e.run db sql []).isSome = true ↔
        ∃ t, db (fold d.source) = some t ∧ ∀ f ∈ d.fields, t.has (fold f.name) = true) := by
  have hcolumns : Lexes (Text.join ", ".toList ((d.fields.map DomainFieldDef.name).map columnText))
      (commas ((d.fields.map fun f => fold f.name).map outputTokens)) := by
    rw [List.map_map, List.map_map]
    exact lexes_commas fun f hf => lexes_columnText (hfields f hf)
  have htext := lexes_lit scan_select (fixed_from.between hcolumns hsource)
  let d' : DomainDef := { d with source := fold d.source }
  have hread : readStatement (selectTokens d' (d.fields.map fun f => fold f.name) [] bareReq) =
      some (selectOf d' (d.fields.map fun f => fold f.name) [] bareReq) :=
    readStatement_select (by simpa using hne) rfl
  have htokens : tokens (selectText d (d.fields.map DomainFieldDef.name) [] [] [] []) =
      selectTokens d' (d.fields.map fun f => fold f.name) [] bareReq := by
    have hbare : selectText d (d.fields.map DomainFieldDef.name) [] [] [] [] =
        "SELECT ".toList ++ (Text.join ", ".toList ((d.fields.map DomainFieldDef.name).map columnText) ++
          (" FROM ".toList ++ d.source)) := by
      unfold selectText whereText
      simp only [List.append_assoc, List.isEmpty_nil, if_true, List.append_nil]
    rw [hbare, htext.tokens]
    rfl
  refine ⟨selectText d (d.fields.map DomainFieldDef.name) [] [] [] [], rfl, ?_⟩
  rw [Engine.run, htokens, hread, Option.bind_some]
  have hall (t : Table V) : t.hasAll ((d.fields.map fun f => fold f.name).map outputOf) = true ↔
      ∀ f ∈ d.fields, t.has (fold f.name) = true := by
    simp only [Table.hasAll, List.all_map, List.all_eq_true, Function.comp_apply, outputOf]
  simp only [selectOf, Engine.exec, d']
  cases ht : db (fold d.source) with
  | none => simp
  | some t =>
    simp only [Option.bind_eq_bind, Option.bind_some, Option.some.injEq, exists_eq_left', ← hall]
    generalize (d.fields.map fun f => fold f.name).map outputOf = outs
    cases h : t.hasAll outs <;> simp [bareReq, Engine.select, Engine.selects, h]

def createdTable (V : Type) (d : DomainDef) : Table V := ⟨tableColumns d, [], 1⟩

/-- Numbers and texts. -/
inductive Cell where
  | int (n : Int)
  | text (t : Text)
  deriving DecidableEq, Repr

def Cell.order : Cell → Cell → Ordering
  | .int m, .int n => compare m n
  | .int _, .text _ => .lt
  | .text _, .int _ => .gt
  | .text t, .text t' => compare t t'

def sameKind (column value : TypeName) : Bool :=
  (value = castType .int && (column = columnType .int || column = Sql.serial)) ||
    (value = castType .text && (column = columnType .text || column = columnType .string))

def cellEngine : Engine Cell where
  cast ty t :=
    if ty = castType .int then (parseI64 t.trim).map .int
    else if ty = castType .text then some (.text t)
    else none
  assignable := sameKind
  assign column v :=
    match v with
    | .int n => if -2147483648 ≤ n ∧ n ≤ 2147483647 then some (.int n) else none
    | .text t => if column = columnType .string ∧ 255 < t.length then none else some (.text t)
  comparable := sameKind
  order := Cell.order
  collate := compare
  searchable column := sameKind column (castType .text)
  ilike c p :=
    match c with
    | .text t => (ilike Char.toLower t p).getD false
    | .int _ => false
  asText c :=
    match c with
    | .int n => (toString n).toList
    | .text t => t
  ofId := .int
  scan rows := rows

def Cell.id : Cell → Option Int
  | .int n => some n
  | .text _ => none

instance : Std.TransCmp Cell.order where
  eq_swap := by
    intro a b
    cases a <;> cases b
    case int.int m n =>
      change compare m n = (compare n m).swap
      exact Std.OrientedCmp.eq_swap
    case text.text t t' =>
      change compare t t' = (compare t' t).swap
      exact Std.OrientedCmp.eq_swap
    all_goals rfl
  isLE_trans := by
    intro a b c hab hbc
    cases a <;> cases b <;> cases c <;> simp only [Cell.order] at hab hbc ⊢ <;> try trivial
    all_goals exact Std.TransCmp.isLE_trans hab hbc

theorem cellEngine_lawful : cellEngine.Lawful Cell.id where
  id_of _ := rfl
  eq_id n v := by
    cases v with
    | int m =>
      have hcompare : compare n m = .eq ↔ n = m := Std.LawfulEqCmp.compare_eq_iff_eq
      exact hcompare.trans (by simp [Cell.id, eq_comm])
    | text t => simp [cellEngine, Cell.order, Cell.id]
  order := inferInstanceAs (Std.TransCmp Cell.order)
  collate := inferInstanceAs (Std.TransCmp fun t t' : Text => compare t t')
  scan _ := List.Perm.refl _

def noteSource : Text :=
  "domain note from note@demo \x7b permission clerk read, write, delete field title: string field pages: int field made: string readonly \x7d".toList

def noteDomain : DomainDef :=
  { name := "note".toList, source := "note".toList, dsn := "demo".toList
    permissions := [⟨"clerk".toList, [.read, .write, .delete]⟩]
    fields := [⟨"title".toList, .string, false, false, none, []⟩, ⟨"pages".toList, .int, false, false, none, []⟩,
      ⟨"made".toList, .string, true, false, none, []⟩] }

set_option maxRecDepth 4000 in
theorem noteSource_parsed : parseDomain noteSource = .ok noteDomain := by
  refine parseDomain_ok.mpr ⟨(lex noteSource).toOption.getD [], ?_, ?_⟩
  · decide
  · decide

def noteQuery : Json := .object [("domain".toList, .string "note".toList)]

end Onisin.Gql
