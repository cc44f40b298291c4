import Onisin.Lib.Text

/-!
JSON values with the accessors of a dynamically typed reader: each of them answers only for
the kind of value it is meant for.
-/

set_option autoImplicit false

namespace Onisin.Lib

/-- Integers by value, anything else by the text it is printed as. -/
inductive Number where
  | int (n : Int)
  | float (printed : Text)
  deriving DecidableEq, Repr

def Number.toText : Number → Text
  | .int n => (toString n).toList
  | .float printed => printed

inductive Json where
  | null
  | bool (b : Bool)
  | number (n : Number)
  | string (s : Text)
  | array (items : List Json)
  | object (fields : List (Text × Json))

def Json.get (v : Json) (key : Text) : Option Json :=
  match v with
  | .object fields => fields.lookup key
  | _ => none

def Json.asObject : Json → Option (List (Text × Json))
  | .object fields => some fields
  | _ => none

def Json.asArray : Json → Option (List Json)
  | .array items => some items
  | _ => none

def Json.asStr : Json → Option Text
  | .string s => some s
  | _ => none

def Json.asBool : Json → Option Bool
  | .bool b => some b
  | _ => none

def Json.getStr (v : Json) (key : Text) : Option Text := (v.get key).bind Json.asStr

def Json.getArray (v : Json) (key : Text) : Option (List Json) := (v.get key).bind Json.asArray

def Json.getObject (v : Json) (key : Text) : Option (List (Text × Json)) :=
  (v.get key).bind Json.asObject

/-! What an accessor returns is smaller than the value, so that a reader may descend. -/

theorem lookup_sizeOf {fields : List (Text × Json)} {key : Text} {v : Json}
    (h : fields.lookup key = some v) : sizeOf v < sizeOf fields := by
  induction fields with
  | nil => cases h
  | cons entry fields ih =>
    obtain ⟨k, w⟩ := entry
    rw [List.lookup_cons] at h
    split at h
    · cases h
      simp only [List.cons.sizeOf_spec, Prod.mk.sizeOf_spec]
      omega
    · have := ih h
      simp only [List.cons.sizeOf_spec]
      omega

theorem Json.get_sizeOf {v w : Json} {key : Text} (h : v.get key = some w) : sizeOf w < sizeOf v := by
  cases v with
  | object fields =>
    have := lookup_sizeOf h
    simp only [Json.object.sizeOf_spec]
    omega
  | _ => cases h

theorem Json.asObject_sizeOf {v : Json} {fields : List (Text × Json)} (h : v.asObject = some fields) :
    sizeOf fields < sizeOf v := by
  cases v with
  | object fs =>
    cases h
    simp only [Json.object.sizeOf_spec]
    omega
  | _ => cases h

theorem Json.getObject_sizeOf {v : Json} {key : Text} {fields : List (Text × Json)}
    (h : v.getObject key = some fields) : sizeOf fields < sizeOf v := by
  obtain ⟨w, hw, hf⟩ := Option.bind_eq_some_iff.mp h
  have := Json.get_sizeOf hw
  have := Json.asObject_sizeOf hf
  omega

theorem mem_fields_sizeOf {fields : List (Text × Json)} {key : Text} {v : Json}
    (h : (key, v) ∈ fields) : sizeOf v < sizeOf fields := by
  have := List.sizeOf_lt_of_mem h
  simp only [Prod.mk.sizeOf_spec] at this
  omega

end Onisin.Lib
