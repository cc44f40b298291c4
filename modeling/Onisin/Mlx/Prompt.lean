import Onisin.Mlx.ToolFmt

/-!
The chat prompt. Messages are walked once; the walk carries the role of the turn before and
whether tool traffic left a model turn open, and results of calls are rendered by looking
ahead from the message that issued them.
-/

set_option autoImplicit false

namespace Onisin.Mlx
open Lib

structure ChatMessage where
  role : Text
  content : Text
  toolCalls : Option (List ToolCall)
  toolCallId : Option Text
  deriving DecidableEq, Repr

def roleUser : Text := "user".toList
def roleTool : Text := "tool".toList
def roleAssistant : Text := "assistant".toList
def roleModel : Text := "model".toList

def turnOpen : Text := "<|turn>".toList
def turnClose : Text := "<turn|>\n".toList
def channelOpen : Text := "<|channel>".toList
def channelClose : Text := "<channel|>".toList

/-- What the next model turn starts with. -/
def modelOpener : Text := turnOpen ++ roleModel ++ "\n".toList

/-- The empty thought channel that keeps the model from thinking. -/
def thoughtPrefill : Text := channelOpen ++ "thought\n".toList ++ channelClose

/-- Drop earlier reasoning from what a model turn said. -/
def stripThinking (text : Text) : Text :=
  Text.trim ((Text.split channelClose text).flatMap fun part =>
    (Text.beforeFirst channelOpen part).getD part)

/-- The role a turn is rendered under. -/
def ChatMessage.turnRole (m : ChatMessage) : Text :=
  if m.role = roleAssistant then roleModel else m.role

def firstIsSystem (messages : List ChatMessage) : Bool :=
  match messages.head? with
  | some m => m.role = "system".toList ∨ m.role = "developer".toList
  | none => false

/-- The messages after a leading system message. -/
def conversation (messages : List ChatMessage) : List ChatMessage :=
  if firstIsSystem messages then messages.tail else messages

/-- The state of the walk over the messages. -/
structure Turns where
  text : Text
  prevRole : Option Text
  openModelTurn : Bool
  deriving DecidableEq, Repr

def renderCalls (rt : Runtime) (calls : List ToolCall) : Text :=
  calls.flatMap fun call =>
    "<|tool_call>call:".toList ++ call.function.name ++
      braced (renderCallArgs rt call.function.arguments) ++ "<tool_call|>".toList

def isTool (m : ChatMessage) : Bool := m.role = roleTool

/-- The results that follow a message, each under the name of the call it answers. -/
def renderResponses (calls : List ToolCall) (follows : List ChatMessage) : Text :=
  follows.flatMap fun follow =>
    let name := (follow.toolCallId.bind fun id => calls.find? fun c => c.id = id).map
      (·.function.name)
    renderResponseBlock (name.getD "unknown".toList) follow.content

/-- The calls of a model turn; other turns have none, whatever the message says. -/
def ChatMessage.calls (m : ChatMessage) : Option (List ToolCall) :=
  if m.turnRole = roleModel then m.toolCalls else none

def ChatMessage.turnContent (m : ChatMessage) : Text :=
  if m.turnRole = roleModel then stripThinking m.content else Text.trim m.content

/-- One message that is not a tool result; `after` are the messages behind it. -/
def renderMessage (rt : Runtime) (m : ChatMessage) (after : List ChatMessage) (st : Turns) :
    Turns :=
  let role := m.turnRole
  let continued := role = roleModel ∧ (st.prevRole = some roleModel ∨ st.openModelTurn)
  let opener := if continued then [] else turnOpen ++ role ++ "\n".toList
  let follows := if m.calls.isSome then after.takeWhile isTool else []
  let calls := m.calls.getD []
  let traffic := renderCalls rt calls ++ renderResponses calls follows
  let p := st.text ++ opener ++ traffic ++ m.turnContent
  if calls ≠ [] ∧ follows = [] then
    { text := p ++ toolResponseOpen, prevRole := some role, openModelTurn := true }
  else if follows ≠ [] ∧ m.turnContent = [] then
    { text := p, prevRole := some role, openModelTurn := true }
  else
    { text := p ++ turnClose, prevRole := some role, openModelTurn := false }

def renderMessages (rt : Runtime) : List ChatMessage → Turns → Turns
  | [], st => st
  | m :: rest, st => renderMessages rt rest (if isTool m then st else renderMessage rt m rest st)

/-- Everything before the first turn of the conversation. -/
def renderPreamble (rt : Runtime) (messages : List ChatMessage) (thinking : Bool)
    (tools : List Tool) : Text :=
  let system := if firstIsSystem messages then
      Text.trim ((messages.head?.map ChatMessage.content).getD [])
    else []
  let declarations := tools.flatMap fun tool =>
    "<|tool>".toList ++ Text.trim (renderDeclaration rt tool.function) ++ "<tool|>".toList
  "<bos>".toList ++
    if thinking ∨ firstIsSystem messages ∨ tools ≠ [] then
      turnOpen ++ "system\n".toList ++ (if thinking then "<|think|>".toList else []) ++ system ++
        declarations ++ turnClose
    else []

def renderTurns (rt : Runtime) (messages : List ChatMessage) (thinking : Bool)
    (tools : List Tool) : Turns :=
  renderMessages rt (conversation messages)
    { text := renderPreamble rt messages thinking tools, prevRole := none, openModelTurn := false }

def renderPrompt (rt : Runtime) (messages : List ChatMessage) (thinking : Bool)
    (tools : List Tool) : Text :=
  let st := renderTurns rt messages thinking tools
  if st.openModelTurn then st.text
  else st.text ++ modelOpener ++ (if thinking then [] else thoughtPrefill)

/-- The length in bytes of the part that a later prompt is meant to repeat. -/
def reusablePrefixLen (rendered : Text) : Nat :=
  match Text.stripSuffix thoughtPrefill rendered with
  | some head => byteLen head
  | none => byteLen rendered

end Onisin.Mlx
