import Onisin.Lib.Json

/-!
The tool grammar: declarations, calls and results in the checkpoint's own syntax. It is
shaped like JSON, with a dedicated quote marker, bare keys and sorted objects.
-/

set_option autoImplicit false

namespace Onisin.Mlx
open Lib

/-- What the renderer takes from outside: the case mapping and the JSON reader. -/
structure Runtime where
  toUppercase : Text → Text
  fromStr : Text → Option Json

structure ToolFunction where
  name : Text
  description : Text
  parameters : Option Json

structure Tool where
  kind : Text
  function : ToolFunction

structure ToolCallFunction where
  name : Text
  arguments : Text
  deriving DecidableEq, Repr

structure ToolCall where
  id : Text
  kind : Text
  function : ToolCallFunction
  deriving DecidableEq, Repr

def quote : Text := "<|\"|>".toList

def quoted (s : Text) : Text := quote ++ s ++ quote

def comma : Text := ",".toList

def braced (s : Text) : Text := "\x7b".toList ++ s ++ "\x7d".toList

def bracketed (s : Text) : Text := "[".toList ++ s ++ "]".toList

mutual

def renderArgument : Json → Text
  | .string s => quoted s
  | .bool b => (if b then "true" else "false").toList
  | .number n => n.toText
  | .null => "null".toList
  | .object fields => braced (Text.join comma ((sortByKey (renderFields fields)).map (·.2)))
  | .array items => bracketed (Text.join comma (renderItems items))

def renderItems : List Json → List Text
  | [] => []
  | v :: items => renderArgument v :: renderItems items

/-- Each field as `key:value`, beside the key it will be sorted by. -/
def renderFields : List (Text × Json) → List (Text × Text)
  | [] => []
  | (k, v) :: fields => (k, k ++ ":".toList ++ renderArgument v) :: renderFields fields

end

def renderRequired (items : List Json) : Text :=
  "required:".toList ++ bracketed (Text.join comma ((items.filterMap Json.asStr).map quoted))

mutual

def renderProperties (rt : Runtime) (props : List (Text × Json)) : Text :=
  let parts := props.attach.map fun ⟨(key, v), _⟩ =>
    (key, key ++ ":".toList ++ braced (renderProperty rt v))
  Text.join comma ((sortByKey parts).map (·.2))
termination_by sizeOf props
decreasing_by exact mem_fields_sizeOf ‹_›

def renderProperty (rt : Runtime) (v : Json) : Text :=
  let ty := rt.toUppercase ((v.getStr "type".toList).getD [])
  let description := ((v.getStr "description".toList).map fun d =>
    "description:".toList ++ quoted d).toList
  let enum := if ty = "STRING".toList then
      ((v.get "enum".toList).map fun e => "enum:".toList ++ renderArgument e).toList
    else []
  let items := if ty = "ARRAY".toList then
      match _h : v.getObject "items".toList with
      | some items =>
        let bits := items.attach.map fun ⟨(key, iv), _⟩ => (key, renderItemBit rt key iv)
        ["items:".toList ++ braced (Text.join comma ((sortByKey bits).flatMap (·.2)))]
      | none => []
    else []
  let nullable := if (v.get "nullable".toList).bind Json.asBool = some true then
      ["nullable:true".toList]
    else []
  let properties := if ty = "OBJECT".toList then
      match _h : v.getObject "properties".toList with
      | some p => ["properties:".toList ++ braced (renderProperties rt p)]
      | none => []
    else []
  let required := if ty = "OBJECT".toList then
      ((v.getArray "required".toList).map renderRequired).toList
    else []
  Text.join comma (description ++ enum ++ items ++ nullable ++ properties ++ required ++
    ["type:".toList ++ quoted ty])
termination_by sizeOf v
decreasing_by
  · have := Json.getObject_sizeOf ‹_›
    have : sizeOf iv < sizeOf items := mem_fields_sizeOf ‹_›
    omega
  · exact Json.getObject_sizeOf ‹_›

/-- One entry of an array's item schema; `properties` that are no object are dropped. -/
def renderItemBit (rt : Runtime) (key : Text) (iv : Json) : List Text :=
  if key = "properties".toList then
    match _h : iv.asObject with
    | some p => ["properties:".toList ++ braced (renderProperties rt p)]
    | none => []
  else if key = "required".toList then [renderRequired (iv.asArray.getD [])]
  else if key = "type".toList then
    ["type:".toList ++ quoted (rt.toUppercase (iv.asStr.getD []))]
  else [key ++ ":".toList ++ renderArgument iv]
termination_by sizeOf iv
decreasing_by exact Json.asObject_sizeOf ‹_›

end

def renderParameters (rt : Runtime) (params : Json) : Text :=
  let properties := match params.getObject "properties".toList with
    | some props => "properties:".toList ++ braced (renderProperties rt props) ++ comma
    | none => []
  let required := match params.getArray "required".toList with
    | some req => renderRequired req ++ comma
    | none => []
  let ty := (params.getStr "type".toList).getD "object".toList
  ",parameters:".toList ++
    braced (properties ++ required ++ "type:".toList ++ quoted (rt.toUppercase ty))

def renderDeclaration (rt : Runtime) (f : ToolFunction) : Text :=
  let parameters := match f.parameters with
    | some params => renderParameters rt params
    | none => []
  "declaration:".toList ++ f.name ++
    braced ("description:".toList ++ quoted f.description ++ parameters)

/-- Arguments that are no JSON object stand as they are. -/
def renderCallArgs (rt : Runtime) (arguments : Text) : Text :=
  match rt.fromStr arguments with
  | some (.object fields) => Text.join comma ((sortByKey (renderFields fields)).map (·.2))
  | _ => arguments

def toolResponseOpen : Text := "<|tool_response>".toList

def toolResponseClose : Text := "<tool_response|>".toList

def renderResponseBlock (name content : Text) : Text :=
  toolResponseOpen ++ "response:".toList ++ name ++ braced ("value:".toList ++ quoted content) ++
    toolResponseClose

end Onisin.Mlx
