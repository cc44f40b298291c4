import Onisin.Lib.Json
import Onisin.Lib.Process

/-!
What an agent turn works with: the messages of a transcript, the completion a model answers
with, the events streamed to the webview, and the actions a turn performs on its environment.
-/

set_option autoImplicit false

namespace Onisin.Agent
open Lib

/-- serde_json as the agent uses it: reading a text, and writing a value as one. -/
structure SerdeJson where
  fromStr : Text → Option Json
  toText : Json → Text

structure ToolCall where
  id : Text
  kind : Text
  name : Text
  arguments : Text
  deriving DecidableEq

inductive Message where
  | system (content : Text)
  | user (content : Text)
  | assistant (content : Option Text) (toolCalls : Option (List ToolCall))
  | tool (toolCallId content : Text)
  deriving DecidableEq

structure Usage where
  promptTokens : Nat := 0
  completionTokens : Nat := 0
  totalTokens : Nat := 0

def Usage.add (u v : Usage) : Usage :=
  ⟨u.promptTokens + v.promptTokens, u.completionTokens + v.completionTokens,
    u.totalTokens + v.totalTokens⟩

structure ResponseMessage where
  content : Option Text := none
  toolCalls : Option (List ToolCall) := none

structure CompletionResponse where
  choices : List ResponseMessage
  usage : Option Usage := none

structure ChatReply where
  text : Text
  toolCalls : List ToolCall
  rawMessage : Message
  usage : Usage

def ChatReply.ofResponse (parsed : CompletionResponse) : Except Text ChatReply :=
  match parsed.choices with
  | [] => .error "chat completions: no choice returned".toList
  | choice :: _ =>
    let calls := choice.toolCalls.getD []
    .ok ⟨choice.content.getD [], calls,
      .assistant choice.content (if calls.isEmpty then none else some calls),
      parsed.usage.getD {}⟩

inductive AgentEvent where
  | toolCallStart (callId name : Text) (args : Json)
  | tabOpen (contextName : Text) (rows : Json) (viewName : Option Text)
  | toolCallEnd (callId name : Text) (ok : Bool) (summary : Text)
  | assistantMessage (text : Text)
  | agentError (message : Text)
  | cancelled

/-- What a turn asks of the process it runs in, of the bus and of the model endpoint. A flag
is named by the number of the `Arc` that holds it. -/
inductive Action where
  | register (turnId : Text)
  | deregister (turnId : Text)
  | aborted (cancel : Nat)
  | emit (turnId : Text) (event : AgentEvent)
  | request (subject : Text) (payload : Json)
  | chatCompletion (messages : List Message)

def Answer : Action → Type
  | .register _ => Nat
  | .deregister _ => Unit
  | .aborted _ => Bool
  | .emit _ _ => Unit
  | .request _ _ => Except Text Json
  | .chatCompletion _ => Except Text CompletionResponse

abbrev Task := Process Action Answer

abbrev History := List (Exchange Action Answer)

structure AgentCtx where
  turnId : Text
  userRole : Text
  username : Text
  viewHint : Option Text
  topHits : Nat
  cancel : Nat

def perform (a : Action) : Task (Answer a) := .call a

def AgentCtx.aborted (ctx : AgentCtx) : Task Bool := perform (.aborted ctx.cancel)

def AgentCtx.emit (ctx : AgentCtx) (event : AgentEvent) : Task Unit :=
  perform (.emit ctx.turnId event)

def AgentCtx.request (_ : AgentCtx) (subject : Text) (payload : Json) : Task (Except Text Json) :=
  perform (.request subject payload)

def post (messages : List Message) : Task (Except Text CompletionResponse) :=
  perform (.chatCompletion messages)

def chatCompletion (messages : List Message) : Task (Except Text ChatReply) := do
  match ← post messages with
  | .error e => return .error e
  | .ok parsed => return ChatReply.ofResponse parsed

end Onisin.Agent
