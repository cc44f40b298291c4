import Onisin.Agent.Prompt
import Onisin.Agent.Tools

/-!
The loop of a chat turn: ask the model, run the tools it asks for, ask again. A turn is a
process; it ends with the answer, with an error, cancelled, or at the limit of steps.
-/

set_option autoImplicit false

namespace Onisin.Agent
open Lib

def MAX_STEPS : Nat := 8

inductive Status where
  | success
  | error
  | cancelled
  | stepLimit
  deriving DecidableEq

structure ToolTrace where
  callId : Text
  name : Text
  args : Json
  ok : Bool
  result : Json

structure TurnTrace where
  usage : Usage
  toolCalls : List ToolTrace
  status : Status
  errorMessage : Option Text

structure ChatResult where
  text : Text
  error : Option Text
  trace : TurnTrace

def notice : Text := "Abgebrochen.".toList

def fallback : Text :=
  ("Ich habe das Limit an Tool-Schritten erreicht, bevor ich eine Antwort fertig hatte. Bitte " ++
   "präzisiere deine Frage.").toList

section Loop
variable (serde : SerdeJson)

def parseArgs (raw : Text) : Json :=
  (serde.fromStr raw).getD
    (errorValue ("invalid JSON arguments: ".toList ++ raw.take 80))

def summariseResult (result : Json) : Text :=
  match result.getStr "error".toList with
  | some err => "error: ".toList ++ err
  | none =>
    match result.getArray "chunks".toList with
    | some chunks => (toString chunks.length).toList ++ " chunk(s)".toList
    | none =>
      match result.getStr "summary".toList with
      | some summary => summary
      | none => "ok".toList

def cancelled (ctx : AgentCtx) (usage : Usage) (toolTraces : List ToolTrace) : Task ChatResult := do
  ctx.emit .cancelled
  ctx.emit (.assistantMessage notice)
  return ⟨notice, none, ⟨usage, toolTraces, .cancelled, none⟩⟩

def dispatchToolCall (ctx : AgentCtx) (call : ToolCall) (messages : List Message)
    (toolTraces : List ToolTrace) : Task (List Message × List ToolTrace) := do
  let args := parseArgs serde call.arguments
  ctx.emit (.toolCallStart call.id call.name args)
  let result ← runTool ctx call.name args
  let ok := (result.get "error".toList).isNone
  ctx.emit (.toolCallEnd call.id call.name ok (summariseResult result))
  return (messages ++ [.tool call.id (serde.toText result)],
    toolTraces ++ [⟨call.id, call.name, args, ok, result⟩])

/-- How the inner loop is left: cut short by a cancel, or with every call answered. -/
inductive ToolsEnd where
  | cut (toolTraces : List ToolTrace)
  | done (messages : List Message) (toolTraces : List ToolTrace)

def dispatchToolCalls (ctx : AgentCtx) : List ToolCall → List Message → List ToolTrace → Task ToolsEnd
  | [], messages, toolTraces => return .done messages toolTraces
  | call :: calls, messages, toolTraces => do
    if ← ctx.aborted then return .cut toolTraces
    else
      let (messages, toolTraces) ← dispatchToolCall serde ctx call messages toolTraces
      dispatchToolCalls ctx calls messages toolTraces

/-- `steps` is what is left of `MAX_STEPS`. -/
def agentLoop (ctx : AgentCtx) : Nat → List Message → Usage → List ToolTrace → Task ChatResult
  | 0, _, usage, toolTraces => do
    ctx.emit (.assistantMessage fallback)
    return ⟨fallback, none, ⟨usage, toolTraces, .stepLimit, none⟩⟩
  | steps + 1, messages, usage, toolTraces => do
    if ← ctx.aborted then cancelled ctx usage toolTraces
    else
      match ← chatCompletion messages with
      | .error msg =>
        if ← ctx.aborted then cancelled ctx usage toolTraces
        else
          ctx.emit (.agentError msg)
          return ⟨[], some msg, ⟨usage, toolTraces, .error, some msg⟩⟩
      | .ok reply =>
        let usage := usage.add reply.usage
        let messages := messages ++ [reply.rawMessage]
        if reply.toolCalls.isEmpty then
          let text := reply.text.trim
          ctx.emit (.assistantMessage text)
          return ⟨text, none, ⟨usage, toolTraces, .success, none⟩⟩
        else
          match ← dispatchToolCalls serde ctx reply.toolCalls messages toolTraces with
          | .cut toolTraces => cancelled ctx usage toolTraces
          | .done messages toolTraces => agentLoop ctx steps messages usage toolTraces

def runAgent (ctx : AgentCtx) (history : List Message) (user : Text) : Task ChatResult := do
  let system ← buildSystemPrompt ctx
  agentLoop serde ctx MAX_STEPS (.system system :: history ++ [.user user]) {} []

end Loop

end Onisin.Agent
