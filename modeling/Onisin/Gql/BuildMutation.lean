import Onisin.Gql.FilterArgs
import Onisin.Gql.StringLiteral
import Onisin.Lib.JsCoerce

/-!
Mutations from a domain and a map of values. An id that counts as empty makes an insert and any
other one an update; values are coerced to literals of their fields' types, or refused.
-/

set_option autoImplicit false

namespace Onisin.Gql.Client
open Lib Domain

/-! Values of JavaScript. -/

inductive JsVal where
  | undefined
  | null
  | bool (b : Bool)
  | number (v : JsNumber)
  | string (s : Text)
  | bigint (n : Int)
  /-- Anything else: what `typeof` calls it, and its text unless `String` throws. -/
  | other (typeName : Text) (shown : Option Text)

def JsVal.typeof : JsVal → Text
  | .undefined => "undefined".toList
  | .null => "object".toList
  | .bool _ => "boolean".toList
  | .number _ => "number".toList
  | .string _ => "string".toList
  | .bigint _ => "bigint".toList
  | .other typeName _ => typeName

/-! Literals. -/

/-- A missing id, null, an empty text, "0" and zero count as empty. -/
def isEmptyId : JsVal → Bool
  | .undefined | .null => true
  | .number ⟨.finite _ x, _⟩ => x = 0
  | .string s => s.jsTrim = [] || s.jsTrim = ['0']
  | .bigint n => n = 0
  | _ => false

def notAnInteger (v : JsVal) : Text :=
  "buildMutationFromMap: id is not an integer (got ".toList ++ v.typeof ++ [')']

def formatIntLiteral (v : JsVal) : Except Text Double :=
  match v with
  | .number x => .ok x.1.trunc
  | .bigint n => .ok (.ofInt n)
  | .string s =>
    match parseInt s.jsTrim with
    | .finite neg x => .ok (.finite neg x)
    | _ => .error (notAnInteger v)
  | _ => .error (notAnInteger v)

/-- `t.replace(",", ".")`: only the first comma. -/
def commaToPoint (t : Text) : Text :=
  match t.span (· ≠ ',') with
  | (a, []) => a
  | (a, _ :: b) => a ++ '.' :: b

def notAFloat (v : JsVal) : Text :=
  "buildMutationFromMap: cannot coerce to float (got ".toList ++ v.typeof ++ [')']

def formatFloatLiteral (v : JsVal) : Except Text Double :=
  match v with
  | .number ⟨.finite neg x, _⟩ => .ok (.finite neg x)
  | .string s =>
    match parseFloat (commaToPoint s.jsTrim) with
    | .finite neg x => .ok (.finite neg x)
    | _ => .error (notAFloat v)
  | _ => .error (notAFloat v)

def notABool (v : JsVal) : Text :=
  "buildMutationFromMap: cannot coerce to bool (got ".toList ++ v.typeof ++ [')']

def trueWords : List Text := ["true".toList, "1".toList, "yes".toList]

def falseWords : List Text := ["false".toList, "0".toList, "no".toList, []]

/-- Only letters of ASCII matter to the words, and no other letter becomes one of theirs. -/
def lowerWord (s : Text) : Text := s.jsTrim.map Char.toLower

def formatBoolLiteral (v : JsVal) : Except Text Bool :=
  match v with
  | .bool b => .ok b
  | .number ⟨.finite _ x, _⟩ => .ok (x ≠ 0)
  | .number _ => .ok true
  | .string s =>
    if trueWords.contains (lowerWord s) then .ok true
    else if falseWords.contains (lowerWord s) then .ok false
    else .error (notABool v)
  | _ => .error (notABool v)

/-- `String` throws for an object that has no text. -/
def stringify : JsVal → Except Text Text
  | .undefined | .null => .ok []
  | .bool b => .ok (if b then "true".toList else "false".toList)
  | .number v => .ok v.1.jsText
  | .string s => .ok s
  | .bigint n => .ok (toString n).toList
  | .other _ (some shown) => .ok shown
  | .other _ none => .error "Cannot convert object to primitive value".toList

/-- An argument by its name and its literal. -/
abbrev Arg := Text × Text

def Arg.text (a : Arg) : Text := a.1 ++ ": ".toList ++ a.2

def formatArg (name : Text) (value : JsVal) : FieldType → Except Text Arg
  | .int => (formatIntLiteral value).map fun v => (name, v.jsText)
  | .float => (formatFloatLiteral value).map fun v => (name, v.jsText)
  | .bool => (formatBoolLiteral value).map fun b => (name, if b then "true".toList else "false".toList)
  | .string | .text | .date | .datetime => (stringify value).map fun s => (name, stringLiteral s)

/-! The mutation. -/

inductive Verb where
  | insert
  | update
  deriving DecidableEq, Repr

def Verb.text : Verb → Text
  | .insert => "insert".toList
  | .update => "update".toList

def mutationFieldName (verb : Verb) (domainName : Text) : Text := verb.text ++ ['_'] ++ domainName

def renderMutationString (mutName : Text) (args returnFields : List Text) : Text :=
  "mutation \x7b\n  ".toList ++ mutName ++ ['('] ++ Text.join ", ".toList args ++ ") \x7b\n    ".toList ++
    Text.join "\n    ".toList returnFields ++ "\n  \x7d\n\x7d".toList

/-- A map of values in the order of its keys. -/
abbrev DataMap := Dict JsVal

/-- The arguments and the fields of a mutation before they are put together as a text. -/
structure Mutation where
  verb : Verb
  args : List Arg
  returnFields : List Text
  deriving DecidableEq

structure BuildMutationResult where
  query : Text
  verb : Verb
  returnFields : List Text
  deriving DecidableEq

/-- The key that is not looked up among the fields. -/
def idKey : Text := "id".toList

def indexFields (d : DomainDef) (key : Text) : Option DomainFieldDef := Args.fieldByName d key

def idOf (data : DataMap) : JsVal := (data.lookup idKey).getD .undefined

/-- Every key goes into the fields that come back, and those that may be set into the arguments.
The keys have been checked, so there is a field. -/
def addEntry (d : DomainDef) (m : List Arg × List Text) (e : Text × JsVal) :
    Except Text (List Arg × List Text) :=
  if e.1 = idKey then .ok m
  else
    match indexFields d e.1 with
    | none => .error []
    | some field =>
      if field.readOnly then .ok (m.1, m.2 ++ [e.1])
      else (formatArg e.1 e.2 field.fieldType).map fun a => (m.1 ++ [a], m.2 ++ [e.1])

/-- What an update starts with, or an insert. -/
def startArgs (verb : Verb) (id : JsVal) : Except Text (List Arg × List Text) :=
  match verb with
  | .update => (formatIntLiteral id).map fun v => ([(idKey, v.jsText)], [])
  | .insert => .ok ([], [idKey])

def verbOf (data : DataMap) : Verb := if isEmptyId (idOf data) then .insert else .update

def isUnknown (d : DomainDef) (e : Text × JsVal) : Bool := e.1 ≠ idKey && (indexFields d e.1).isNone

def assemble (d : DomainDef) (data : DataMap) : Except Text Mutation :=
  if data.isEmpty then
    .error ("buildMutationFromMap: empty data for domain \"".toList ++ d.name ++ ['"'])
  else
    match data.find? (isUnknown d) with
    | some e =>
      .error ("buildMutationFromMap: unknown field \"".toList ++ e.1 ++ "\" on domain \"".toList ++
        d.name ++ ['"'])
    | none => do
      let verb := verbOf data
      let start ← startArgs verb (idOf data)
      let (args, returnFields) ← data.foldlM (addEntry d) start
      if args.isEmpty then
        .error ("buildMutationFromMap: no settable fields for ".toList ++ verb.text ++ ['_'] ++ d.name)
      else .ok ⟨verb, args, returnFields⟩

def Mutation.render (m : Mutation) (domainName : Text) : BuildMutationResult :=
  ⟨renderMutationString (mutationFieldName m.verb domainName) (m.args.map Arg.text) m.returnFields,
    m.verb, m.returnFields⟩

def buildMutationFromMap (d : DomainDef) (data : DataMap) : Except Text BuildMutationResult :=
  (assemble d data).map fun m => m.render d.name

/-! Which values have a literal. -/

/-- The number that is made of an id or of the value of an integer field. -/
def idNumber : JsVal → Option Double
  | .number x => some x.1
  | .bigint n => some (.ofInt n)
  | .string s =>
    match parseInt s.jsTrim with
    | .finite neg x => some (.finite neg x)
    | _ => none
  | _ => none

def FloatLike : JsVal → Prop
  | .number x => x.1.IsFinite
  | .string s => (parseFloat (commaToPoint s.jsTrim)).IsFinite
  | _ => False

def BoolLike : JsVal → Prop
  | .bool _ | .number _ => True
  | .string s => trueWords.contains (lowerWord s) = true ∨ falseWords.contains (lowerWord s) = true
  | _ => False

def HasText : JsVal → Prop
  | .other _ none => False
  | _ => True

/-- The values that a field of the type takes. -/
def Accepts (t : FieldType) (v : JsVal) : Prop :=
  match t with
  | .int => (idNumber v).isSome = true
  | .float => FloatLike v
  | .bool => BoolLike v
  | .string | .text | .date | .datetime => HasText v

theorem idNumber_valid {v : JsVal} {x : Double} (h : idNumber v = some x) : x.Valid := by
  cases v with
  | number y =>
    cases h
    exact y.2
  | bigint n =>
    cases h
    exact valid_nearest _ (Nat.cast_nonneg _)
  | string s =>
    have hvalid := parseInt_valid s.jsTrim
    rw [idNumber] at h
    split at h
    · next heq =>
      cases h
      rwa [heq] at hvalid
    · cases h
  | _ => cases h

/-- An integer literal is the integer part of the number. -/
theorem formatIntLiteral_eq (v : JsVal) :
    formatIntLiteral v = match idNumber v with
      | some x => .ok x.trunc
      | none => .error (notAnInteger v) := by
  cases v with
  | bigint n => exact congrArg Except.ok (trunc_nearest_nat _ _).symm
  | string s =>
    have hint := trunc_parseInt s.jsTrim
    rw [formatIntLiteral, idNumber]
    cases hparse : parseInt s.jsTrim with
    | finite neg x =>
      rw [hparse] at hint
      exact congrArg Except.ok hint.symm
    | _ => rfl
  | _ => rfl

theorem map_isOk {ε α β : Type} (x : Except ε α) (f : α → β) : (x.map f).isOk = x.isOk := by
  cases x <;> rfl

theorem formatIntLiteral_isOk {v : JsVal} : (formatIntLiteral v).isOk = true ↔ (idNumber v).isSome = true := by
  rw [formatIntLiteral_eq]
  cases idNumber v with
  | none => exact ⟨fun h => (by cases h), fun h => (by cases h)⟩
  | some x => exact ⟨fun _ => rfl, fun _ => rfl⟩

theorem formatFloatLiteral_isOk {v : JsVal} : (formatFloatLiteral v).isOk = true ↔ FloatLike v := by
  cases v with
  | number x =>
    obtain ⟨x, hx⟩ := x
    cases x with
    | finite neg q => exact ⟨fun _ => trivial, fun _ => rfl⟩
    | _ => exact ⟨fun h => (by cases h), fun h => h.elim⟩
  | string s =>
    rw [formatFloatLiteral, FloatLike]
    cases parseFloat (commaToPoint s.jsTrim) with
    | finite neg q => exact ⟨fun _ => trivial, fun _ => rfl⟩
    | _ => exact ⟨fun h => (by cases h), fun h => h.elim⟩
  | _ => exact ⟨fun h => (by cases h), fun h => h.elim⟩

theorem formatFloatLiteral_valid {v : JsVal} {x : Double} (h : formatFloatLiteral v = .ok x) : x.Valid := by
  cases v with
  | number y =>
    obtain ⟨y, hy⟩ := y
    cases y with
    | finite neg q =>
      cases h
      exact hy
    | _ => cases h
  | string s =>
    have hvalid := parseFloat_valid (commaToPoint s.jsTrim)
    rw [formatFloatLiteral] at h
    split at h
    · next heq =>
      cases h
      rwa [heq] at hvalid
    · cases h
  | _ => cases h

theorem formatBoolLiteral_isOk {v : JsVal} : (formatBoolLiteral v).isOk = true ↔ BoolLike v := by
  cases v with
  | bool b => exact ⟨fun _ => trivial, fun _ => rfl⟩
  | number x =>
    obtain ⟨x, hx⟩ := x
    cases x with
    | _ => exact ⟨fun _ => trivial, fun _ => rfl⟩
  | string s =>
    rw [formatBoolLiteral, BoolLike]
    split
    · next htrue => exact ⟨fun _ => .inl htrue, fun _ => rfl⟩
    · next htrue =>
      split
      · next hfalse => exact ⟨fun _ => .inr hfalse, fun _ => rfl⟩
      · next hfalse => exact ⟨fun h => (by cases h), fun h => (h.elim htrue hfalse).elim⟩
  | _ => exact ⟨fun h => (by cases h), fun h => h.elim⟩

theorem stringify_isOk {v : JsVal} : (stringify v).isOk = true ↔ HasText v := by
  cases v with
  | other typeName shown =>
    cases shown with
    | none => exact ⟨fun h => (by cases h), fun h => h.elim⟩
    | some shown => exact ⟨fun _ => trivial, fun _ => rfl⟩
  | _ => exact ⟨fun _ => trivial, fun _ => rfl⟩

theorem formatArg_isOk {name : Text} {v : JsVal} {t : FieldType} :
    (formatArg name v t).isOk = true ↔ Accepts t v := by
  cases t with
  | int => rw [formatArg, map_isOk, formatIntLiteral_isOk, Accepts]
  | float => rw [formatArg, map_isOk, formatFloatLiteral_isOk, Accepts]
  | bool => rw [formatArg, map_isOk, formatBoolLiteral_isOk, Accepts]
  | _ => rw [formatArg, map_isOk, stringify_isOk, Accepts]

theorem formatArg_name {name : Text} {v : JsVal} {t : FieldType} {a : Arg} (h : formatArg name v t = .ok a) :
    a.1 = name := by
  have hmap : ∀ {α : Type} {x : Except Text α} {f : α → Text},
      x.map (fun y => (name, f y)) = .ok a → a.1 = name := by
    intro α x f hx
    cases x with
    | error e => cases hx
    | ok y =>
      cases hx
      rfl
  cases t with
  | _ => exact hmap h

/-! What is assembled. -/

variable {d : DomainDef} {data : DataMap}

def isSettable (d : DomainDef) (e : Text × JsVal) : Bool :=
  e.1 ≠ idKey && (indexFields d e.1).any fun f => !f.readOnly

/-- An entry that goes into the arguments has a literal of its field's type. -/
def AcceptsEntry (d : DomainDef) (e : Text × JsVal) : Prop :=
  e.1 ≠ idKey → ∀ f, indexFields d e.1 = some f → f.readOnly = false → Accepts f.fieldType e.2

/-- The keys that come back beside the id. -/
def givenKeys (data : DataMap) : List Text := (data.filter fun e => e.1 ≠ idKey).map Prod.fst

def settableKeys (d : DomainDef) (data : DataMap) : List Text := (data.filter (isSettable d)).map Prod.fst

/-- The argument is the literal of an entry. -/
def FromEntry (d : DomainDef) (data : DataMap) (a : Arg) : Prop :=
  ∃ e ∈ data, ∃ f, indexFields d e.1 = some f ∧ formatArg e.1 e.2 f.fieldType = .ok a

theorem FromEntry.mono {data' : DataMap} (hsub : data ⊆ data') {a : Arg} (h : FromEntry d data a) :
    FromEntry d data' a := by
  obtain ⟨e, he, hf⟩ := h
  exact ⟨e, hsub he, hf⟩

/-- Arguments of the settable keys, each made of its entry. -/
def MadeOf (d : DomainDef) (data : DataMap) (args : List Arg) : Prop :=
  args.map Prod.fst = settableKeys d data ∧ ∀ a ∈ args, FromEntry d data a

theorem addEntry_ok {m m' : List Arg × List Text} {e : Text × JsVal} (h : addEntry d m e = .ok m') :
    AcceptsEntry d e ∧ m'.2 = m.2 ++ givenKeys [e] ∧ ∃ new : List Arg, m'.1 = m.1 ++ new ∧ MadeOf d [e] new := by
  rw [addEntry] at h
  split at h
  · next hid =>
    cases h
    refine ⟨fun hne => absurd hid hne, by simp [givenKeys, hid], [], by simp, ?_, by simp⟩
    simp [settableKeys, isSettable, hid]
  · next hid =>
    split at h
    · cases h
    · next f hf =>
      split at h
      · next hro =>
        cases h
        refine ⟨fun _ g hg hset => ?_, by simp [givenKeys, hid], [], by simp, ?_, by simp⟩
        · obtain rfl := Option.some.inj (hf.symm.trans hg)
          exact absurd hro (by simp [hset])
        · simp [settableKeys, isSettable, hf, hro]
      · next hro =>
        cases harg : formatArg e.1 e.2 f.fieldType with
        | error err =>
          rw [harg] at h
          cases h
        | ok a =>
          rw [harg] at h
          cases h
          refine ⟨fun _ g hg _ => ?_, by simp [givenKeys, hid], [a], rfl, ?_, ?_⟩
          · obtain rfl := Option.some.inj (hf.symm.trans hg)
            exact formatArg_isOk.mp (by rw [harg]; rfl)
          · simp [settableKeys, isSettable, hid, hf, hro, formatArg_name harg]
          · intro b hb
            obtain rfl := List.mem_singleton.mp hb
            exact ⟨e, List.mem_singleton_self e, f, hf, harg⟩

theorem addEntry_some {e : Text × JsVal} (hknown : isUnknown d e = false) (haccept : AcceptsEntry d e)
    (m : List Arg × List Text) : ∃ m', addEntry d m e = .ok m' := by
  rw [addEntry]
  split
  · exact ⟨m, rfl⟩
  · next hid =>
    cases hf : indexFields d e.1 with
    | none =>
      rw [isUnknown, hf] at hknown
      simp [hid] at hknown
    | some f =>
      dsimp only
      split
      · exact ⟨_, rfl⟩
      · next hro =>
        have hok : (formatArg e.1 e.2 f.fieldType).isOk = true :=
          formatArg_isOk.mpr (haccept hid f hf (by simpa using hro))
        cases harg : formatArg e.1 e.2 f.fieldType with
        | error err =>
          rw [harg] at hok
          cases hok
        | ok a => exact ⟨_, rfl⟩

theorem addEntries_ok {m m' : List Arg × List Text} (h : data.foldlM (addEntry d) m = .ok m') :
    (∀ e ∈ data, AcceptsEntry d e) ∧ m'.2 = m.2 ++ givenKeys data ∧
      ∃ new : List Arg, m'.1 = m.1 ++ new ∧ MadeOf d data new := by
  induction data generalizing m with
  | nil =>
    cases h
    exact ⟨fun e he => (by cases he), by simp [givenKeys], [], by simp, rfl, by simp⟩
  | cons e rest ih =>
    rw [List.foldlM_cons] at h
    cases hstep : addEntry d m e with
    | error err =>
      rw [hstep] at h
      cases h
    | ok m₁ =>
      rw [hstep] at h
      obtain ⟨haccept, hfields, new, hargs, hnames, hfrom⟩ := addEntry_ok hstep
      obtain ⟨hall, hfields', new', hargs', hnames', hfrom'⟩ := ih h
      have hgiven : givenKeys (e :: rest) = givenKeys [e] ++ givenKeys rest := by
        rw [givenKeys, givenKeys, givenKeys, ← List.map_append, ← List.filter_append, List.singleton_append]
      have hset : settableKeys d (e :: rest) = settableKeys d [e] ++ settableKeys d rest := by
        rw [settableKeys, settableKeys, settableKeys, ← List.map_append, ← List.filter_append,
          List.singleton_append]
      refine ⟨List.forall_mem_cons.mpr ⟨haccept, hall⟩, ?_, new ++ new', ?_, ?_, ?_⟩
      · rw [hfields', hfields, hgiven, List.append_assoc]
      · rw [hargs', hargs, List.append_assoc]
      · rw [List.map_append, hnames, hnames', hset]
      · intro a ha
        obtain ha | ha := List.mem_append.mp ha
        · exact (hfrom a ha).mono (by simp)
        · exact (hfrom' a ha).mono (List.subset_cons_self e rest)

theorem addEntries_some (hknown : ∀ e ∈ data, isUnknown d e = false) (haccept : ∀ e ∈ data, AcceptsEntry d e)
    (m : List Arg × List Text) : ∃ m', data.foldlM (addEntry d) m = .ok m' := by
  induction data generalizing m with
  | nil => exact ⟨m, rfl⟩
  | cons e rest ih =>
    obtain ⟨hknown, hknown'⟩ := List.forall_mem_cons.mp hknown
    obtain ⟨haccept, haccept'⟩ := List.forall_mem_cons.mp haccept
    obtain ⟨m₁, hstep⟩ := addEntry_some hknown haccept m
    obtain ⟨m', hrest⟩ := ih hknown' haccept' m₁
    refine ⟨m', ?_⟩
    rw [List.foldlM_cons, hstep]
    exact hrest

/-- What has been checked when a mutation is assembled, and what it is put together from. -/
structure Assembled (d : DomainDef) (data : DataMap) (m : Mutation) : Prop where
  known : ∀ e ∈ data, isUnknown d e = false
  accepted : ∀ e ∈ data, AcceptsEntry d e
  verb : m.verb = verbOf data
  parts : ∃ start, startArgs (verbOf data) (idOf data) = .ok start ∧
    m.returnFields = start.2 ++ givenKeys data ∧
    ∃ new : List Arg, m.args = start.1 ++ new ∧ MadeOf d data new
  args_ne : m.args ≠ []

theorem assemble_ok {m : Mutation} (h : assemble d data = .ok m) : Assembled d data m := by
  rw [assemble] at h
  split at h
  · cases h
  · cases hfind : data.find? (isUnknown d) with
    | some e =>
      rw [hfind] at h
      cases h
    | none =>
      rw [hfind] at h
      cases hstart : startArgs (verbOf data) (idOf data) with
      | error err =>
        simp only [hstart] at h
        cases h
      | ok start =>
        cases hrun : data.foldlM (addEntry d) start with
        | error err =>
          simp only [hstart, bind, Except.bind, hrun] at h
          cases h
        | ok m' =>
          simp only [hstart, bind, Except.bind, hrun] at h
          obtain ⟨haccept, hfields, new, hargs, hmade⟩ := addEntries_ok hrun
          split at h
          · cases h
          · next hne =>
            cases h
            refine ⟨fun e he => by simpa using List.find?_eq_none.mp hfind e he, haccept, rfl,
              ⟨start, hstart, hfields, new, hargs, hmade⟩, ?_⟩
            simpa using hne

theorem assemble_some (hknown : ∀ e ∈ data, isUnknown d e = false) (haccept : ∀ e ∈ data, AcceptsEntry d e)
    {start : List Arg × List Text} (hstart : startArgs (verbOf data) (idOf data) = .ok start)
    (hdata : data ≠ []) (hargs : start.1 ≠ []) : ∃ m, assemble d data = .ok m := by
  have hfind : data.find? (isUnknown d) = none :=
    List.find?_eq_none.mpr fun e he => by simp [hknown e he]
  obtain ⟨m', hrun⟩ := addEntries_some hknown haccept start
  obtain ⟨-, -, new, hnew, -⟩ := addEntries_ok hrun
  have hempty : m'.1.isEmpty = false := by
    rw [hnew]
    simp [hargs]
  rw [assemble, if_neg (by simpa using hdata), hfind]
  simp only [hstart, bind, Except.bind, hrun, hempty]
  exact ⟨_, rfl⟩

/-! What a mutation should be. -/

def Declared (d : DomainDef) (key : Text) : Prop := ∃ f, indexFields d key = some f

/-- A mutation that sets something of one row: it has an argument for a field that may be set, it
asks for something back, it names only declared fields, and it is an update just if its id is the
literal of an integer that is not zero. -/
structure Mutation.Effective (d : DomainDef) (m : Mutation) : Prop where
  settable : ∃ a ∈ m.args, a.1 ≠ idKey ∧ ∃ f, indexFields d a.1 = some f ∧ f.readOnly = false
  selection : m.returnFields ≠ []
  declared_args : ∀ a ∈ m.args, a.1 ≠ idKey → Declared d a.1
  declared_fields : ∀ key ∈ m.returnFields, key ≠ idKey → Declared d key
  update : m.verb = .update ↔ ∃ a ∈ m.args, a.1 = idKey ∧ NonZeroInt a.2
  insert : m.verb = .insert → ∀ a ∈ m.args, a.1 ≠ idKey

/-- Some entry may be set. -/
def SetsSomething (d : DomainDef) (data : DataMap) : Prop := ∃ e ∈ data, isSettable d e = true

/-- The number of the id is at least one or at most minus one, and not so large that it is written
with an exponent. -/
def TargetsRow (id : JsVal) : Prop := ∃ neg x, idNumber id = some (.finite neg x) ∧ 1 ≤ x ∧ x < 10 ^ 21

/-- A key is unknown, or a value has no literal. -/
def Refused (d : DomainDef) (data : DataMap) : Prop :=
  (∃ e ∈ data, isUnknown d e = true) ∨ (∃ e ∈ data, ¬ AcceptsEntry d e) ∨ idNumber (idOf data) = none

theorem mem_givenKeys {key : Text} : key ∈ givenKeys data ↔ (∃ e ∈ data, e.1 = key) ∧ key ≠ idKey := by
  simp only [givenKeys, List.mem_map, List.mem_filter, decide_eq_true_eq]
  constructor
  · rintro ⟨e, ⟨he, hid⟩, rfl⟩
    exact ⟨⟨e, he, rfl⟩, hid⟩
  · rintro ⟨⟨e, he, rfl⟩, hid⟩
    exact ⟨e, ⟨he, hid⟩, rfl⟩

theorem isSettable_iff {e : Text × JsVal} :
    isSettable d e = true ↔ e.1 ≠ idKey ∧ ∃ f, indexFields d e.1 = some f ∧ f.readOnly = false := by
  simp [isSettable, Option.any_eq_true]

theorem mem_settableKeys {key : Text} (h : key ∈ settableKeys d data) :
    key ≠ idKey ∧ ∃ f, indexFields d key = some f ∧ f.readOnly = false := by
  obtain ⟨e, he, rfl⟩ := List.mem_map.mp h
  exact isSettable_iff.mp (List.mem_filter.mp he).2

theorem declared_of_known (hknown : ∀ e ∈ data, isUnknown d e = false) {key : Text} (h : key ∈ givenKeys data) :
    Declared d key := by
  obtain ⟨⟨e, he, rfl⟩, hid⟩ := mem_givenKeys.mp h
  have hfield := hknown e he
  rw [isUnknown, decide_eq_true hid, Bool.true_and, Option.isNone_eq_false_iff] at hfield
  exact Option.isSome_iff_exists.mp hfield

theorem startArgs_empty (hempty : isEmptyId (idOf data) = true) :
    startArgs (verbOf data) (idOf data) = .ok ([], [idKey]) := by
  rw [verbOf, hempty]
  rfl

/-- An update starts with the id, if that has a number. -/
theorem startArgs_given (hempty : isEmptyId (idOf data) = false) {start : List Arg × List Text} :
    startArgs (verbOf data) (idOf data) = .ok start ↔
      ∃ v, idNumber (idOf data) = some v ∧ start = ([(idKey, v.trunc.jsText)], []) := by
  have hint := formatIntLiteral_eq (idOf data)
  have hverb : verbOf data = .update := by
    rw [verbOf, hempty]
    rfl
  rw [hverb, startArgs]
  cases hnumber : idNumber (idOf data) with
  | none =>
    rw [hnumber] at hint
    rw [hint]
    refine iff_of_false (fun h => (by cases h)) ?_
    rintro ⟨v, hv, -⟩
    cases hv
  | some v =>
    rw [hnumber] at hint
    rw [hint]
    constructor
    · intro h
      cases h
      exact ⟨v, rfl, rfl⟩
    · rintro ⟨w, hw, rfl⟩
      cases hw
      rfl

theorem Assembled.insert_parts {m : Mutation} (h : Assembled d data m)
    (hempty : isEmptyId (idOf data) = true) : m.verb = .insert ∧
      m.returnFields = idKey :: givenKeys data ∧ MadeOf d data m.args := by
  obtain ⟨start, hstart, hfields, new, hargs, hmade⟩ := h.parts
  rw [startArgs_empty hempty] at hstart
  cases hstart
  refine ⟨h.verb.trans (by rw [verbOf, hempty]; rfl), hfields, ?_⟩
  rwa [hargs, List.nil_append]

theorem Assembled.update_parts {m : Mutation} (h : Assembled d data m)
    (hempty : isEmptyId (idOf data) = false) : m.verb = .update ∧ m.returnFields = givenKeys data ∧
      ∃ v new, idNumber (idOf data) = some v ∧ m.args = (idKey, v.trunc.jsText) :: new ∧
        MadeOf d data new := by
  obtain ⟨start, hstart, hfields, new, hargs, hmade⟩ := h.parts
  obtain ⟨v, hnumber, rfl⟩ := (startArgs_given hempty).mp hstart
  exact ⟨h.verb.trans (by rw [verbOf, hempty]; rfl), hfields, v, new, hnumber, hargs, hmade⟩

/-- Arguments with the settable keys, one of which there is if and only if an entry may be set. -/
theorem settable_args {args : List Arg} (h : MadeOf d data args) :
    (∀ a ∈ args, a.1 ≠ idKey ∧ ∃ f, indexFields d a.1 = some f ∧ f.readOnly = false) ∧
      (args ≠ [] ↔ SetsSomething d data) := by
  have hnames := h.1
  refine ⟨fun a ha => mem_settableKeys (hnames ▸ List.mem_map_of_mem ha), ?_⟩
  have hset : data.filter (isSettable d) ≠ [] ↔ SetsSomething d data := by
    rw [ne_eq, List.filter_eq_nil_iff, not_forall]
    simp only [SetsSomething, Classical.not_imp, not_not]
  rw [← hset, ne_eq, ne_eq, ← List.map_eq_nil_iff (f := Prod.fst), hnames, settableKeys, List.map_eq_nil_iff]

/-- An insert has no argument but those that are set, and it has one. -/
theorem Assembled.effective_insert {m : Mutation} (h : Assembled d data m)
    (hempty : isEmptyId (idOf data) = true) : m.Effective d := by
  obtain ⟨hverb, hfields, hmade⟩ := h.insert_parts hempty
  obtain ⟨hargs, -⟩ := settable_args hmade
  constructor
  case settable =>
    obtain ⟨a, ha⟩ := List.exists_mem_of_ne_nil _ h.args_ne
    exact ⟨a, ha, hargs a ha⟩
  case selection =>
    rw [hfields]
    exact List.cons_ne_nil _ _
  case declared_args =>
    intro a ha _
    obtain ⟨f, hf, -⟩ := (hargs a ha).2
    exact ⟨f, hf⟩
  case declared_fields =>
    intro key hkey hne
    rw [hfields] at hkey
    exact declared_of_known h.known ((List.mem_cons.mp hkey).resolve_left hne)
  case update =>
    rw [hverb]
    refine ⟨fun hupdate => (by cases hupdate), ?_⟩
    rintro ⟨a, ha, hkey, -⟩
    exact absurd hkey (hargs a ha).1
  case insert => exact fun _ a ha => (hargs a ha).1

/-- An update has its id before the arguments that are set. -/
theorem Assembled.effective_update {m : Mutation} (h : Assembled d data m)
    (hempty : isEmptyId (idOf data) = false) (hset : SetsSomething d data)
    (htarget : TargetsRow (idOf data)) : m.Effective d := by
  obtain ⟨hverb, hfields, v, new, hnumber, hm, hmade⟩ := h.update_parts hempty
  obtain ⟨hargs, hsome⟩ := settable_args hmade
  have hliteral : NonZeroInt v.trunc.jsText := by
    obtain ⟨neg, x, hx, hbounds⟩ := htarget
    obtain rfl := Option.some.inj (hnumber.symm.trans hx)
    exact (nonZeroInt_trunc (idNumber_valid hnumber)).mpr ⟨neg, x, rfl, hbounds⟩
  constructor
  case settable =>
    obtain ⟨a, ha⟩ := List.exists_mem_of_ne_nil _ (hsome.mpr hset)
    exact ⟨a, hm ▸ List.mem_cons_of_mem _ ha, hargs a ha⟩
  case selection =>
    obtain ⟨e, he, heset⟩ := hset
    have hgiven : e.1 ∈ givenKeys data := mem_givenKeys.mpr ⟨⟨e, he, rfl⟩, (isSettable_iff.mp heset).1⟩
    rw [hfields]
    exact List.ne_nil_of_mem hgiven
  case declared_args =>
    intro a ha hne
    rw [hm] at ha
    obtain rfl | ha := List.mem_cons.mp ha
    · exact absurd rfl hne
    · obtain ⟨f, hf, -⟩ := (hargs a ha).2
      exact ⟨f, hf⟩
  case declared_fields => exact fun key hkey _ => declared_of_known h.known (hfields ▸ hkey)
  case update => exact ⟨fun _ => ⟨_, hm ▸ List.mem_cons_self, rfl, hliteral⟩, fun _ => hverb⟩
  case insert =>
    intro hinsert
    rw [hverb] at hinsert
    cases hinsert

/-- What an effective update is assembled from. -/
theorem Assembled.targets {m : Mutation} (h : Assembled d data m) (hempty : isEmptyId (idOf data) = false)
    (heff : m.Effective d) : SetsSomething d data ∧ TargetsRow (idOf data) := by
  obtain ⟨hverb, -, v, new, hnumber, hm, hmade⟩ := h.update_parts hempty
  obtain ⟨hargs, hsome⟩ := settable_args hmade
  constructor
  · obtain ⟨a, ha, hne, -⟩ := heff.settable
    rw [hm] at ha
    have ha := (List.mem_cons.mp ha).resolve_left fun heq => hne (by rw [heq])
    exact hsome.mp (List.ne_nil_of_mem ha)
  · obtain ⟨a, ha, hkey, hliteral⟩ := heff.update.mp hverb
    rw [hm] at ha
    obtain rfl := (List.mem_cons.mp ha).resolve_right fun ha => (hargs a ha).1 hkey
    obtain ⟨neg, x, rfl, hx⟩ := (nonZeroInt_trunc (idNumber_valid hnumber)).mp hliteral
    exact ⟨neg, x, hnumber, hx⟩

theorem Assembled.not_refused {m : Mutation} (h : Assembled d data m)
    (hempty : isEmptyId (idOf data) = false) : ¬Refused d data := by
  rintro (⟨e, he, hunknown⟩ | ⟨e, he, hnot⟩ | hnone)
  · rw [h.known e he] at hunknown
    cases hunknown
  · exact hnot (h.accepted e he)
  · obtain ⟨-, -, v, -, hnumber, -⟩ := h.update_parts hempty
    rw [hnone] at hnumber
    cases hnumber

/-- An update that is not refused is assembled, whether it sets anything or not. -/
theorem assembled_of_not_refused (hempty : isEmptyId (idOf data) = false) (h : ¬Refused d data) :
    ∃ m, assemble d data = .ok m := by
  obtain ⟨hknown, haccept, hnumber⟩ : (∀ e ∈ data, isUnknown d e = false) ∧
      (∀ e ∈ data, AcceptsEntry d e) ∧ idNumber (idOf data) ≠ none := by
    simp only [Refused, not_or, not_exists, not_and, not_not, Bool.not_eq_true] at h
    exact h
  obtain ⟨v, hv⟩ := Option.ne_none_iff_exists'.mp hnumber
  have hdata : data ≠ [] := by
    rintro rfl
    cases hempty
  exact assemble_some hknown haccept ((startArgs_given hempty).mpr ⟨v, hv, rfl⟩) hdata (List.cons_ne_nil _ _)

end Onisin.Gql.Client
