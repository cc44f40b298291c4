import Onisin.Lib.Dict
import Onisin.Lib.JsNumber
import Onisin.Lib.JsonText

/-!
The form's state. A response is parsed, wrapped as an envelope and flattened to one text for
each path; a save takes the texts back under the bare names of the fields.
-/

set_option autoImplicit false

namespace Onisin.Ui
open Lib

/-! Values of JavaScript. -/

/-- A number is what it is printed as. -/
inductive Js where
  | null
  | bool (b : Bool)
  | number (printed : Text)
  | string (s : Text)
  | array (items : List Js)
  | object (fields : List (Text × Js))

mutual

/-- `JSON.parse`: numbers become doubles, and of several fields with one key the last is kept. -/
def Js.ofJson : Json → Js
  | .null => .null
  | .bool b => .bool b
  | .number n => .number (jsNumberText n.toText)
  | .string s => .string s
  | .array items => .array (ofItems items)
  | .object fields => .object (Dict.putAll some (ofFields fields) [])

def ofItems : List Json → List Js
  | [] => []
  | v :: items => Js.ofJson v :: ofItems items

def ofFields : List (Text × Json) → List (Text × Js)
  | [] => []
  | (key, v) :: fields => (key, Js.ofJson v) :: ofFields fields

end

mutual

def Js.stringify : Js → Text
  | .null => "null".toList
  | .bool b => (if b then "true" else "false").toList
  | .number printed =>
    if printed = "Infinity".toList ∨ printed = "-Infinity".toList then "null".toList else printed
  | .string s => quoteText s
  | .array items => ['['] ++ Text.join [','] (stringifyItems items) ++ [']']
  | .object fields => ['\x7b'] ++ Text.join [','] (stringifyFields fields) ++ ['\x7d']

def stringifyItems : List Js → List Text
  | [] => []
  | v :: items => v.stringify :: stringifyItems items

def stringifyFields : List (Text × Js) → List Text
  | [] => []
  | (key, v) :: fields => (quoteText key ++ [':'] ++ v.stringify) :: stringifyFields fields

end

/-- The own property that assigning a text under a key makes; a text is no prototype. -/
def ownProperty (key : Text) : Option Text := if key = "__proto__".toList then none else some key

/-- Plain objects that are filled with texts. -/
def assignAll (g : Text → Option Text) (entries : Dict Text) : Dict Text :=
  Dict.putAll (fun e => (g e.1).map fun key => (key, e.2)) entries []

/-! The state. -/

structure OptionEntry where
  value : Text
  label : Text
  deriving DecidableEq, Repr

structure ViewState where
  values : Dict Text
  options : Dict (List OptionEntry)

def ViewState.empty : ViewState := ⟨[], []⟩

def ViewState.set (s : ViewState) (bindPath value : Text) : ViewState :=
  if s.values.lookup bindPath = some value then s else { s with values := s.values.put bindPath value }

def ViewState.setOptions (s : ViewState) (key : Text) (entries : List OptionEntry) : ViewState :=
  { s with options := s.options.put key entries }

def ViewState.snapshot (s : ViewState) : Dict Text := assignAll ownProperty s.values

/-- A scalar as text; nothing is the empty text. -/
def fmtValue : Option Js → Text
  | some (.string s) => s
  | some (.number printed) => printed
  | some (.bool b) => (if b then "true" else "false").toList
  | _ => []

def joinPath (path key : Text) : Text := if path = [] then key else path ++ ['.'] ++ key

mutual

def flattenInto (s : ViewState) (path : Text) : Js → ViewState
  | .object fields => flattenFields s path fields
  | .array items => s.set path (Js.array items).stringify
  | v => s.set path (fmtValue (some v))

def flattenFields (s : ViewState) (path : Text) : List (Text × Js) → ViewState
  | [] => s
  | (key, child) :: fields => flattenFields (flattenInto s (joinPath path key) child) path fields

end

def optionEntry : Js → Option OptionEntry
  | .object fields =>
    let value := fmtValue (fields.lookup "value".toList)
    let label := fmtValue (fields.lookup "label".toList)
    some ⟨value, if label = [] then value else label⟩
  | .string s => some ⟨s, s⟩
  | _ => none

def loadOptions (s : ViewState) (meta_ : Dict Js) : ViewState :=
  meta_.foldl (fun s e =>
    match e.2 with
    | .array items => s.setOptions e.1 (items.filterMap optionEntry)
    | _ => s) s

/-- The two halves of an envelope; either may be missing. -/
def loadHalves (s : ViewState) (content meta_ : Option Js) : ViewState :=
  let s := match content with
    | some (.object fields) => flattenInto s [] (.object fields)
    | _ => s
  match meta_ with
  | some (.object fields) => loadOptions s fields
  | _ => s

def loadEnvelope (s : ViewState) (raw : Dict Js) : ViewState :=
  let has (key : String) : Bool := (raw.lookup key.toList).isSome
  if has "content" || has "meta" then loadHalves s (raw.lookup "content".toList) (raw.lookup "meta".toList)
  else if has "data" || has "options" then
    -- the names of older responses
    loadHalves s (raw.lookup "data".toList) (raw.lookup "options".toList)
  else flattenInto s [] (.object raw)

/-- What stands behind the first dot, or all if there is none. -/
def flatKey (key : Text) : Text :=
  match key.dropWhile (· ≠ '.') with
  | [] => key
  | _ :: rest => rest

/-- Of several keys with the same rest the one that is listed last decides. -/
def buildEvent (s : ViewState) : Dict Text :=
  assignAll (fun key => ownProperty (flatKey key)) s.snapshot.enumerate

/-- Paths that end alike and are the same start alike. -/
theorem joinPath_left_inj {path path' key : Text} :
    joinPath path key = joinPath path' key ↔ path = path' := by
  refine ⟨fun h => ?_, fun h => by rw [h]⟩
  have hlength := congrArg List.length h
  unfold joinPath at h hlength
  by_cases hpath : path = []
  · by_cases hpath' : path' = []
    · rw [hpath, hpath']
    · simp [hpath, hpath'] at hlength
      omega
  · by_cases hpath' : path' = []
    · simp [hpath, hpath'] at hlength
      omega
    · simpa [hpath, hpath'] using h

/-! Scalars. -/

def Js.IsScalar : Js → Prop
  | .array _ | .object _ => False
  | _ => True

theorem ofItems_eq (items : List Json) : ofItems items = items.map Js.ofJson := by
  induction items with
  | nil => rfl
  | cons v items ih => rw [ofItems, ih, List.map_cons]

theorem ofFields_eq (fields : List (Text × Json)) :
    ofFields fields = fields.map fun e => (e.1, Js.ofJson e.2) := by
  induction fields with
  | nil => rfl
  | cons e fields ih => rw [ofFields, ih, List.map_cons]

/-- Parsing an object that lists every key once parses its fields. -/
theorem lookup_ofJson {fields : Dict Json} (h : (fields.map Prod.fst).Nodup) (k : Text) :
    (Dict.putAll some (ofFields fields) []).lookup k = (fields.lookup k).map Js.ofJson := by
  have hkeys : ((fields.map fun e => (e.1, Js.ofJson e.2)).map Prod.fst).Nodup := by
    rw [List.map_map]
    exact h
  rw [Dict.lookup_putAll, ofFields_eq, List.filterMap_some, Dict.lookup_reverse hkeys, Dict.lookup_map]
  exact Option.or_none

theorem ViewState.lookup_set (s : ViewState) (path value k : Text) :
    (s.set path value).values.lookup k = if k = path then some value else s.values.lookup k := by
  rw [ViewState.set]
  split
  · next h =>
    split
    · next hk => rw [hk, h]
    · rfl
  · exact Dict.lookup_put _ _ _ _

theorem ViewState.nodup_set {s : ViewState} (h : (s.values.map Prod.fst).Nodup) (path value : Text) :
    ((s.set path value).values.map Prod.fst).Nodup := by
  rw [ViewState.set]
  split
  · exact h
  · exact Dict.nodup_put h _ _

theorem flattenInto_scalar {v : Js} (h : v.IsScalar) (s : ViewState) (path : Text) :
    flattenInto s path v = s.set path (fmtValue (some v)) := by
  cases v with
  | array items => exact h.elim
  | object fields => exact h.elim
  | _ => rfl

/-- Flattening a record of scalars sets one text for each field. -/
theorem flattenFields_scalars {fields : List (Text × Js)} (h : ∀ e ∈ fields, e.2.IsScalar) (s : ViewState)
    (path k : Text) :
    (flattenFields s path fields).values.lookup k =
      (List.lookup k (fields.map fun e => (joinPath path e.1, fmtValue (some e.2))).reverse).or
        (s.values.lookup k) := by
  induction fields generalizing s with
  | nil => rfl
  | cons e fields ih =>
    obtain ⟨key, v⟩ := e
    rw [flattenFields, ih fun e he => h e (List.mem_cons_of_mem _ he),
      flattenInto_scalar (h (key, v) List.mem_cons_self), ViewState.lookup_set, List.map_cons,
      List.reverse_cons, Dict.lookup_append, Option.or_assoc, Dict.lookup_cons]
    split <;> rfl

theorem nodup_flattenFields {fields : List (Text × Js)} (h : ∀ e ∈ fields, e.2.IsScalar) {s : ViewState}
    (hs : (s.values.map Prod.fst).Nodup) (path : Text) :
    ((flattenFields s path fields).values.map Prod.fst).Nodup := by
  induction fields generalizing s with
  | nil => exact hs
  | cons e fields ih =>
    obtain ⟨key, v⟩ := e
    rw [flattenFields, flattenInto_scalar (h (key, v) List.mem_cons_self)]
    exact ih (fun e he => h e (List.mem_cons_of_mem _ he)) (ViewState.nodup_set hs _ _)

theorem loadOptions_values (s : ViewState) (meta_ : Dict Js) : (loadOptions s meta_).values = s.values := by
  induction meta_ generalizing s with
  | nil => rfl
  | cons e meta_ ih =>
    rw [loadOptions, List.foldl_cons, ← loadOptions, ih]
    split <;> rfl

end Onisin.Ui
