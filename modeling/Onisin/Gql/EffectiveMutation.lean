import Onisin.Dsl.DomainLexer
import Onisin.Gql.BuildMutation
import Onisin.Lib.GraphQLDocument

/-!
Mutations as a server reads them. The text that is sent is tokenized and its call is read back, and
what a mutation should be is said of that call.
-/

set_option autoImplicit false

namespace Onisin.Gql.Client
open Lib Domain

/-- The names are those of a domain that has been parsed. -/
structure Named (d : DomainDef) : Prop where
  name : IdentText d.name
  fields : ∀ f ∈ d.fields, IdentText f.name

theorem named_of_parseDomain {source : Text} {d : DomainDef} (h : parseDomain source = .ok d) : Named d :=
  ⟨parseDomain_name h, (parseDomain_names h).2⟩

/-! Words. -/

theorem isWordChar_ident {c : Char} (h : isIdentChar c = true) : GraphQL.isWordChar c = true := by
  apply GraphQL.isWordChar_of_not_mem
  intro hmem
  have hall : (GraphQL.wordEnds.all fun c => !isIdentChar c) = true := by decide
  have hno := List.all_eq_true.mp hall c hmem
  rw [h] at hno
  cases hno

theorem isWordChar_number {c : Char} (h : isNumberChar c = true) : GraphQL.isWordChar c = true := by
  apply GraphQL.isWordChar_of_not_mem
  intro hmem
  have hall : (GraphQL.wordEnds.all fun c => !isNumberChar c) = true := by decide
  have hno := List.all_eq_true.mp hall c hmem
  rw [h] at hno
  cases hno

theorem isWord_ident {s : Text} (h : IdentText s) : GraphQL.IsWord s := by
  obtain ⟨hall, c, hc, -⟩ := h
  constructor
  · rintro rfl
    cases hc
  · exact List.all_eq_true.mpr fun c hc => isWordChar_ident (List.all_eq_true.mp hall c hc)

theorem isWord_number {v : Double} (hv : v.Valid) : GraphQL.IsWord v.jsText :=
  ⟨jsText_ne_nil hv, List.all_eq_true.mpr fun c hc =>
    isWordChar_number (List.all_eq_true.mp (jsText_numberChars v) c hc)⟩

theorem isWord_nonZeroInt {t : Text} (h : NonZeroInt t) : GraphQL.IsWord t := by
  constructor
  · obtain ⟨neg, c, ds, rfl, -⟩ := h
    simp
  · refine List.all_eq_true.mpr fun c hc => isWordChar_number ?_
    obtain rfl | hdigit := h.mem hc
    · decide
    · rw [isNumberChar, Char.isAlphanum, hdigit, Bool.or_true, Bool.true_or]

theorem isWord_mutationFieldName {d : DomainDef} (hd : Named d) (verb : Verb) :
    GraphQL.IsWord (mutationFieldName verb d.name) := by
  have hverb : (verb.text ++ ['_']).all GraphQL.isWordChar = true := by cases verb <;> decide
  constructor
  · simp [mutationFieldName]
  · rw [mutationFieldName, List.all_append, hverb, (isWord_ident hd.name).2, Bool.and_self]

/-! Literals. -/

/-- The value that a literal has in a document. -/
def literalValue (literal : Text) : GraphQL.Value :=
  match GraphQL.tokens september2025 literal with
  | some [.string s] => .string s
  | _ => .word literal

theorem literalValue_isWord {t : Text} (h : GraphQL.IsWord t) : literalValue t = .word t := by
  rw [literalValue, (GraphQL.spells_word h).tokens]

theorem spells_stringLiteral (s : Text) : GraphQL.Spells september2025 (stringLiteral s) [.string s] := by
  refine GraphQL.spells_string fun rest hrest => ?_
  have htoken := stringToken_literal september2025 s hrest
  rwa [if_pos (List.all_eq_true.mpr fun c _ => by rw [comesThrough, september2025, Bool.or_true])] at htoken

theorem literalValue_stringLiteral (s : Text) : literalValue (stringLiteral s) = .string s := by
  rw [literalValue, (spells_stringLiteral s).tokens]

theorem eq_of_literalValue {t w : Text} (h : literalValue t = .word w) : t = w := by
  rw [literalValue] at h
  split at h
  · cases h
  · cases h
    rfl

/-- Two kinds of literals are made: words, and texts in quotes. -/
theorem formatArg_literal {name : Text} {v : JsVal} {t : FieldType} {a : Arg} (h : formatArg name v t = .ok a) :
    GraphQL.IsWord a.2 ∨ ∃ s, stringify v = .ok s ∧ a.2 = stringLiteral s := by
  have htext : ∀ t', formatArg name v t' = (stringify v).map (fun s => (name, stringLiteral s)) →
      formatArg name v t' = .ok a → ∃ s, stringify v = .ok s ∧ a.2 = stringLiteral s := by
    intro t' ht' h
    rw [ht'] at h
    cases hs : stringify v with
    | error e =>
      rw [hs] at h
      cases h
    | ok s =>
      rw [hs] at h
      cases h
      exact ⟨s, rfl, rfl⟩
  cases t with
  | int =>
    rw [formatArg, formatIntLiteral_eq] at h
    cases hnumber : idNumber v with
    | none =>
      rw [hnumber] at h
      cases h
    | some x =>
      rw [hnumber] at h
      cases h
      exact .inl (isWord_number (trunc_valid (idNumber_valid hnumber)))
  | float =>
    rw [formatArg] at h
    cases hx : formatFloatLiteral v with
    | error e =>
      rw [hx] at h
      cases h
    | ok x =>
      rw [hx] at h
      cases h
      exact .inl (isWord_number (formatFloatLiteral_valid hx))
  | bool =>
    rw [formatArg] at h
    cases hb : formatBoolLiteral v with
    | error e =>
      rw [hb] at h
      cases h
    | ok b =>
      rw [hb] at h
      cases h
      have hwords : ∀ b : Bool, GraphQL.IsWord (if b then "true".toList else "false".toList) := by
        unfold GraphQL.IsWord
        decide
      exact .inl (hwords b)
  | string => exact .inr (htext .string rfl h)
  | text => exact .inr (htext .text rfl h)
  | date => exact .inr (htext .date rfl h)
  | datetime => exact .inr (htext .datetime rfl h)

/-- A literal is one token. -/
theorem spells_literal {t : Text} (h : GraphQL.IsWord t ∨ ∃ s, t = stringLiteral s) :
    GraphQL.Spells september2025 t [(literalValue t).token] := by
  obtain hword | ⟨s, rfl⟩ := h
  · rw [literalValue_isWord hword]
    exact GraphQL.spells_word hword
  · rw [literalValue_stringLiteral]
    exact spells_stringLiteral s

/-! The text of a mutation. -/

def argValue (a : Arg) : Text × GraphQL.Value := (a.1, literalValue a.2)

/-- The call that a mutation should be. -/
def Mutation.call (m : Mutation) (domainName : Text) : GraphQL.Call :=
  ⟨mutationFieldName m.verb domainName, m.args.map argValue, m.returnFields⟩

theorem spells_arg {a : Arg} (hname : GraphQL.IsWord a.1)
    (hliteral : GraphQL.IsWord a.2 ∨ ∃ s, a.2 = stringLiteral s) :
    GraphQL.Spells september2025 a.text (GraphQL.argTokens (argValue a)) := by
  have hcolon : GraphQL.Closed september2025 ": ".toList [.punctuator ':'] :=
    GraphQL.closed_marks (by decide)
  have hoff : GraphQL.SetOff ": ".toList := GraphQL.setOff_punctuator (by decide) _
  exact ((GraphQL.spells_word hname).append hcolon hoff).append_spells (spells_literal hliteral)

/-- The text of a mutation spells its call and nothing else. -/
theorem closed_render {mutName : Text} {args : List Arg} {returnFields : List Text}
    (hname : GraphQL.IsWord mutName) (hargs : ∀ a ∈ args, GraphQL.IsWord a.1 ∧
      (GraphQL.IsWord a.2 ∨ ∃ s, a.2 = stringLiteral s))
    (hfields : ∀ key ∈ returnFields, GraphQL.IsWord key) :
    GraphQL.Closed september2025 (renderMutationString mutName (args.map Arg.text) returnFields)
      (GraphQL.callTokens "mutation".toList ⟨mutName, args.map argValue, returnFields⟩) := by
  have hoperation : GraphQL.Spells september2025 "mutation".toList [.word "mutation".toList] :=
    GraphQL.spells_word ⟨by decide, by decide⟩
  have hopen : GraphQL.Closed september2025 " \x7b\n  ".toList [.punctuator '\x7b'] :=
    GraphQL.closed_marks (by decide)
  have hparen : GraphQL.Closed september2025 ['('] [.punctuator '('] := GraphQL.closed_marks (by decide)
  have hselect : GraphQL.Closed september2025 ") \x7b\n    ".toList [.punctuator ')', .punctuator '\x7b'] :=
    GraphQL.closed_marks (by decide)
  have hclose : GraphQL.Closed september2025 "\n  \x7d\n\x7d".toList [.punctuator '\x7d', .punctuator '\x7d'] :=
    GraphQL.closed_marks (by decide)
  have hcomma : (", ".toList : Text).all GraphQL.isIgnored = true := by decide
  have hindent : ("\n    ".toList : Text).all GraphQL.isIgnored = true := by decide
  have hargTexts := GraphQL.spells_join hcomma (by decide)
    fun a ha => spells_arg (hargs a ha).1 (hargs a ha).2
  have hkeyWords : ∀ key ∈ returnFields, GraphQL.Spells september2025 key [.word key] :=
    fun key hkey => GraphQL.spells_word (hfields key hkey)
  have hkeys := GraphQL.spells_join hindent (by decide) hkeyWords
  have hhead := (hoperation.append hopen (GraphQL.setOff_ignored (by decide) _)).append_spells
    (GraphQL.spells_word hname)
  have hcalled := (hhead.append hparen (GraphQL.setOff_punctuator (by decide) _)).append_spells hargTexts
  have hasked := (hcalled.append hselect (GraphQL.setOff_punctuator (by decide) _)).append_spells hkeys
  have hall := hasked.append hclose (GraphQL.setOff_ignored (by decide) _)
  rw [List.map_id', ← List.flatMap_map, ← List.map_eq_flatMap] at hall
  have hstart : "mutation \x7b\n  ".toList = "mutation".toList ++ " \x7b\n  ".toList := by decide
  unfold renderMutationString
  rw [hstart]
  exact hall

theorem mutation_names {d : DomainDef} (hd : Named d) {key : Text} (h : key = idKey ∨ Declared d key) :
    GraphQL.IsWord key := by
  obtain rfl | ⟨f, hf⟩ := h
  · exact ⟨by decide, by decide⟩
  · obtain ⟨hmem, rfl⟩ := Args.fieldByName_some hf
    exact isWord_ident (hd.fields f hmem)

variable {d : DomainDef} {data : DataMap} {m : Mutation}

/-- The names and the literals of what is assembled. -/
structure Written (d : DomainDef) (data : DataMap) (m : Mutation) : Prop where
  args : ∀ a ∈ m.args, a.1 = idKey ∧ GraphQL.IsWord a.2 ∨
    Declared d a.1 ∧ (GraphQL.IsWord a.2 ∨ ∃ e ∈ data, e.1 = a.1 ∧ ∃ s, stringify e.2 = .ok s ∧ a.2 = stringLiteral s)
  fields : ∀ key ∈ m.returnFields, key = idKey ∨ Declared d key

theorem MadeOf.literals {args : List Arg} (h : MadeOf d data args) :
    ∀ a ∈ args, Declared d a.1 ∧
      (GraphQL.IsWord a.2 ∨ ∃ e ∈ data, e.1 = a.1 ∧ ∃ s, stringify e.2 = .ok s ∧ a.2 = stringLiteral s) := by
  intro a ha
  obtain ⟨e, he, f, hf, hformat⟩ := h.2 a ha
  have hname := formatArg_name hformat
  refine ⟨⟨f, by rw [hname, hf]⟩, ?_⟩
  obtain hword | htext := formatArg_literal hformat
  · exact .inl hword
  · exact .inr ⟨e, he, hname.symm, htext⟩

theorem Assembled.written (h : Assembled d data m) : Written d data m := by
  have hgiven : ∀ key ∈ givenKeys data, key = idKey ∨ Declared d key :=
    fun key hkey => .inr (declared_of_known h.known hkey)
  cases hempty : isEmptyId (idOf data) with
  | true =>
    obtain ⟨-, hfields, hmade⟩ := h.insert_parts hempty
    constructor
    · exact fun a ha => .inr (hmade.literals a ha)
    · rw [hfields]
      exact List.forall_mem_cons.mpr ⟨.inl rfl, hgiven⟩
  | false =>
    obtain ⟨-, hfields, v, new, hnumber, hargs, hmade⟩ := h.update_parts hempty
    constructor
    · rw [hargs]
      exact List.forall_mem_cons.mpr ⟨.inl ⟨rfl, isWord_number (trunc_valid (idNumber_valid hnumber))⟩,
        fun a ha => .inr (hmade.literals a ha)⟩
    · rw [hfields]
      exact hgiven

/-- The call of a mutation is read from its text if it has arguments and asks for something. -/
theorem Assembled.readMutation (hd : Named d) (h : Assembled d data m) :
    GraphQL.readMutation september2025 (m.render d.name).query =
      if m.args ≠ [] ∧ m.returnFields ≠ [] then some (m.call d.name) else none := by
  obtain ⟨hargs, hfields⟩ := h.written
  have hwords : ∀ a ∈ m.args, GraphQL.IsWord a.1 ∧ (GraphQL.IsWord a.2 ∨ ∃ s, a.2 = stringLiteral s) := by
    intro a ha
    obtain ⟨hkey, hword⟩ | ⟨hdeclared, hliteral⟩ := hargs a ha
    · exact ⟨mutation_names hd (.inl hkey), .inl hword⟩
    · refine ⟨mutation_names hd (.inr hdeclared), hliteral.imp_right ?_⟩
      rintro ⟨-, -, -, s, -, hs⟩
      exact ⟨s, hs⟩
  have hclosed := closed_render (isWord_mutationFieldName hd m.verb) hwords
    fun key hkey => mutation_names hd (hfields key hkey)
  rw [Mutation.render, GraphQL.readMutation_callTokens hclosed, Mutation.call]
  simp

/-! The call that is read. -/

/-- A call that sets something of one row: it has an argument for a field that may be set, it asks
for something back, it names only declared fields, and it is an update just if its id is the literal
of an integer that is not zero. A text that it sends is the text of the value that was given. -/
structure EffectiveCall (d : DomainDef) (data : DataMap) (r : BuildMutationResult) (call : GraphQL.Call) :
    Prop where
  insert : r.verb = .insert → call.field = "insert_".toList ++ d.name ∧ ∀ a ∈ call.args, a.1 ≠ idKey
  update_field : r.verb = .update → call.field = "update_".toList ++ d.name
  update : r.verb = .update ↔ ∃ t, (idKey, GraphQL.Value.word t) ∈ call.args ∧ NonZeroInt t
  settable : ∃ a ∈ call.args, a.1 ≠ idKey ∧ ∃ f, indexFields d a.1 = some f ∧ f.readOnly = false
  selection : call.selection = r.returnFields ∧ call.selection ≠ []
  declared_args : ∀ a ∈ call.args, a.1 ≠ idKey → Declared d a.1
  declared_fields : ∀ key ∈ call.selection, key ≠ idKey → Declared d key
  texts : ∀ a ∈ call.args, ∀ s, a.2 = .string s → ∃ e ∈ data, e.1 = a.1 ∧ stringify e.2 = .ok s

theorem literalValue_nonZeroInt {u : Text} :
    (∃ t, literalValue u = .word t ∧ NonZeroInt t) ↔ NonZeroInt u := by
  constructor
  · rintro ⟨t, ht, hint⟩
    rwa [eq_of_literalValue ht]
  · exact fun h => ⟨u, literalValue_isWord (isWord_nonZeroInt h), h⟩

theorem mem_call_args {name : Text} {a : Text × GraphQL.Value} :
    a ∈ (m.call name).args ↔ ∃ b ∈ m.args, argValue b = a := List.mem_map

/-- The id of the call is that of the mutation. -/
theorem call_update (name : Text) :
    (∃ t, (idKey, GraphQL.Value.word t) ∈ (m.call name).args ∧ NonZeroInt t) ↔
      ∃ a ∈ m.args, a.1 = idKey ∧ NonZeroInt a.2 := by
  constructor
  · rintro ⟨t, ht, hint⟩
    obtain ⟨a, ha, heq⟩ := mem_call_args.mp ht
    refine ⟨a, ha, congrArg Prod.fst heq, ?_⟩
    exact literalValue_nonZeroInt.mp ⟨t, congrArg Prod.snd heq, hint⟩
  · rintro ⟨a, ha, hkey, hint⟩
    obtain ⟨t, ht, hnonzero⟩ := literalValue_nonZeroInt.mpr hint
    exact ⟨t, mem_call_args.mpr ⟨a, ha, by rw [argValue, hkey, ht]⟩, hnonzero⟩

theorem Assembled.texts (h : Assembled d data m) {name : Text} :
    ∀ a ∈ (m.call name).args, ∀ s, a.2 = .string s → ∃ e ∈ data, e.1 = a.1 ∧ stringify e.2 = .ok s := by
  intro a ha s hs
  obtain ⟨b, hb, rfl⟩ := mem_call_args.mp ha
  have hword : ¬GraphQL.IsWord b.2 := by
    intro hword
    rw [argValue, literalValue_isWord hword] at hs
    cases hs
  obtain ⟨-, habs⟩ | ⟨-, habs | ⟨e, he, hkey, s', hs', hliteral⟩⟩ := h.written.args b hb
  · exact absurd habs hword
  · exact absurd habs hword
  · rw [argValue, hliteral, literalValue_stringLiteral] at hs
    cases hs
    exact ⟨e, he, hkey, hs'⟩

theorem Assembled.effectiveCall_iff (h : Assembled d data m) :
    EffectiveCall d data (m.render d.name) (m.call d.name) ↔ m.Effective d := by
  constructor
  · intro heff
    constructor
    case settable =>
      obtain ⟨a, ha, hset⟩ := heff.settable
      obtain ⟨b, hb, rfl⟩ := mem_call_args.mp ha
      exact ⟨b, hb, hset⟩
    case selection => exact heff.selection.2
    case declared_args => exact fun a ha => heff.declared_args _ (mem_call_args.mpr ⟨a, ha, rfl⟩)
    case declared_fields => exact heff.declared_fields
    case update => exact heff.update.trans (call_update d.name)
    case insert => exact fun hverb a ha => (heff.insert hverb).2 _ (mem_call_args.mpr ⟨a, ha, rfl⟩)
  · intro heff
    constructor
    case insert =>
      intro hverb
      have hinsert : m.verb = .insert := hverb
      refine ⟨by simp [Mutation.call, mutationFieldName, hinsert, Verb.text], fun a ha => ?_⟩
      obtain ⟨b, hb, rfl⟩ := mem_call_args.mp ha
      exact heff.insert hinsert b hb
    case update_field =>
      intro hverb
      have hupdate : m.verb = .update := hverb
      simp [Mutation.call, mutationFieldName, hupdate, Verb.text]
    case update => exact heff.update.trans (call_update d.name).symm
    case settable =>
      obtain ⟨a, ha, hset⟩ := heff.settable
      exact ⟨_, mem_call_args.mpr ⟨a, ha, rfl⟩, hset⟩
    case selection => exact ⟨rfl, heff.selection⟩
    case declared_args =>
      intro a ha
      obtain ⟨b, hb, rfl⟩ := mem_call_args.mp ha
      exact heff.declared_args b hb
    case declared_fields => exact heff.declared_fields
    case texts => exact h.texts

/-- What is read from the text is effective if and only if what was assembled is. -/
theorem Assembled.read_effective (hd : Named d) (h : Assembled d data m) :
    (∃ call, GraphQL.readMutation september2025 (m.render d.name).query = some call ∧
      EffectiveCall d data (m.render d.name) call) ↔ m.Effective d := by
  rw [h.readMutation hd]
  constructor
  · rintro ⟨call, hcall, heff⟩
    split at hcall
    · cases hcall
      exact h.effectiveCall_iff.mp heff
    · cases hcall
  · intro heff
    exact ⟨_, if_pos ⟨h.args_ne, heff.selection⟩, h.effectiveCall_iff.mpr heff⟩

theorem buildMutationFromMap_ok {r : BuildMutationResult} :
    buildMutationFromMap d data = .ok r ↔ ∃ m, assemble d data = .ok m ∧ m.render d.name = r := by
  rw [buildMutationFromMap]
  cases assemble d data with
  | error e => exact iff_of_false nofun (by rintro ⟨m, h, -⟩; cases h)
  | ok m =>
    constructor
    · intro h
      cases h
      exact ⟨m, rfl, rfl⟩
    · rintro ⟨m', h, rfl⟩
      cases h
      rfl

/-- In every mutation that comes out an effective call is read if and only if the id counts as
empty, the map is refused, or it sets something of a row that its id targets. -/
theorem mutation_effective_iff {d : DomainDef} (hd : Named d) (data : DataMap) :
    (∀ r, buildMutationFromMap d data = .ok r →
      ∃ call, GraphQL.readMutation september2025 r.query = some call ∧ EffectiveCall d data r call) ↔
      isEmptyId (idOf data) = true ∨ Refused d data ∨ (SetsSomething d data ∧ TargetsRow (idOf data)) := by
  have hread : (∀ r, buildMutationFromMap d data = .ok r →
      ∃ call, GraphQL.readMutation september2025 r.query = some call ∧ EffectiveCall d data r call) ↔
      ∀ m, assemble d data = .ok m → m.Effective d := by
    constructor
    · intro h m hm
      exact ((assemble_ok hm).read_effective hd).mp (h _ (buildMutationFromMap_ok.mpr ⟨m, hm, rfl⟩))
    · intro h r hr
      obtain ⟨m, hm, rfl⟩ := buildMutationFromMap_ok.mp hr
      exact ((assemble_ok hm).read_effective hd).mpr (h m hm)
  rw [hread]
  cases hempty : isEmptyId (idOf data) with
  | true => exact iff_of_true (fun m hm => (assemble_ok hm).effective_insert hempty) (.inl rfl)
  | false =>
    constructor
    · intro h
      by_cases hrefused : Refused d data
      · exact .inr (.inl hrefused)
      · obtain ⟨m, hm⟩ := assembled_of_not_refused hempty hrefused
        exact .inr (.inr ((assemble_ok hm).targets hempty (h m hm)))
    · rintro (hfalse | hrefused | ⟨hset, htarget⟩) m hm
      · cases hfalse
      · exact absurd hrefused ((assemble_ok hm).not_refused hempty)
      · exact (assemble_ok hm).effective_update hempty hset htarget

def flagSource : Text := "domain task from tasks@main { field done: bool filterable }".toList

def flagDomain : DomainDef :=
  { name := "task".toList, source := "tasks".toList, dsn := "main".toList,
    fields := [⟨"done".toList, .bool, false, true, none, []⟩] }

theorem flagSource_parsed : parseDomain flagSource = .ok flagDomain := by
  refine parseDomain_ok.mpr ⟨(lex flagSource).toOption.getD [], ?_, ?_⟩
  · decide
  · decide

theorem valid_five : (Double.finite false ((5 : Nat) : Rat)).Valid :=
  ⟨by norm_num, toDouble_safe (by norm_num) (by norm_num)⟩

/-- An insert of a text that counts as true, and an update of the row 5. -/
theorem task_mutations_effective :
    let insert : DataMap := [("done".toList, .string "yes".toList)]
    let update : DataMap := [(idKey, .number ⟨_, valid_five⟩), ("done".toList, .bool true)]
    ∀ data ∈ [insert, update], (buildMutationFromMap flagDomain data).isOk = true ∧
      ∀ r, buildMutationFromMap flagDomain data = .ok r →
        ∃ call, GraphQL.readMutation september2025 r.query = some call ∧ EffectiveCall flagDomain data r call := by
  have hnamed := named_of_parseDomain flagSource_parsed
  intro insert update data hdata
  simp only [List.mem_cons, List.not_mem_nil, or_false] at hdata
  obtain rfl | rfl := hdata
  · exact ⟨rfl, (mutation_effective_iff hnamed insert).mpr (.inl rfl)⟩
  · refine ⟨rfl, (mutation_effective_iff hnamed update).mpr (.inr (.inr ⟨?_, ?_⟩))⟩
    · exact ⟨("done".toList, .bool true), by simp [update], rfl⟩
    · exact ⟨false, _, rfl, by norm_num, by norm_num⟩

/-- An id alone makes an update that sets nothing and asks for nothing, which is no document, and
"00" one of the row 0. -/
theorem idle_mutations :
    (∃ r, buildMutationFromMap flagDomain [(idKey, .number ⟨_, valid_five⟩)] = .ok r ∧ r.verb = .update ∧
      r.returnFields = [] ∧ GraphQL.readMutation september2025 r.query = none) ∧
    (∃ r, buildMutationFromMap flagDomain [(idKey, .string "00".toList), ("done".toList, .bool true)] = .ok r ∧
      r.verb = .update ∧ GraphQL.readMutation september2025 r.query =
        some ⟨"update_task".toList, [(idKey, .word ['0']), ("done".toList, .word "true".toList)],
          ["done".toList]⟩) ∧
    ¬ ∀ data r, buildMutationFromMap flagDomain data = .ok r →
      ∃ call, GraphQL.readMutation september2025 r.query = some call ∧ EffectiveCall flagDomain data r call := by
  have hidle : assemble flagDomain [(idKey, .number ⟨_, valid_five⟩)] =
      .ok ⟨.update, [(idKey, (Double.finite false ((5 : Nat) : Rat)).trunc.jsText)], []⟩ := rfl
  have hnone := (assemble_ok hidle).readMutation (named_of_parseDomain flagSource_parsed)
  rw [if_neg (by simp)] at hnone
  have hbuilt := buildMutationFromMap_ok.mpr ⟨_, hidle, rfl⟩
  refine ⟨⟨_, hbuilt, rfl, rfl, hnone⟩, ⟨_, rfl, rfl, by decide +kernel⟩, fun h => ?_⟩
  obtain ⟨call, hcall, -⟩ := h _ _ hbuilt
  rw [hnone] at hcall
  cases hcall

end Onisin.Gql.Client
