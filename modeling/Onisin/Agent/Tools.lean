import Mathlib.Algebra.Group.Int.Defs
import Onisin.Agent.Context

/-! The two tools of a chat turn: a search over the schema chunks, and a query for rows. -/

set_option autoImplicit false

namespace Onisin.Agent
open Lib

def errorValue (message : Text) : Json := .object [("error".toList, .string message)]

/-- `as_i64`: an integer within 64 signed bits. -/
def asI64 : Json → Option Int
  | .number (.int n) => if -2 ^ 63 ≤ n ∧ n < 2 ^ 63 then some n else none
  | _ => none

def clampLimit (raw : Option Int) (default : Int) : Int := max 1 (min (raw.getD default) 50)

def runSchemaSearch (ctx : AgentCtx) (args : Json) : Task Json :=
  let query := ((args.getStr "query".toList).getD []).trim
  if query.isEmpty then pure (errorValue "query argument is required".toList)
  else do
    let limit := clampLimit ((args.get "limit".toList).bind asI64) (BitVec.ofNat 64 ctx.topHits).toInt
    match ← ctx.request "oos.cmd.search".toList
        (.object [("query".toList, .string query), ("limit".toList, .number (.int limit))]) with
    | .ok reply =>
      match reply.getStr "error".toList with
      | some err => return errorValue err
      | none => return .object [("chunks".toList, (reply.get "hits".toList).getD (.array []))]
    | .error e => return errorValue ("schema search failed: ".toList ++ e)

def summariseRows (rows : Json) : Text :=
  match rows.asArray with
  | some a => (toString a.length).toList ++ " row".toList ++ (if a.length = 1 then [] else ['s'])
  | none => "no rows".toList

def dataQuery (contextName : Text) (args : Json) : Json :=
  let passed (key : Text) : List (Text × Json) := ((args.get key).map fun v => (key, v)).toList
  .object (("domain".toList, .string contextName) ::
    (passed "where".toList ++ passed "fields".toList ++ passed "limit".toList))

def runQuery (ctx : AgentCtx) (args : Json) : Task Json :=
  let contextName := ((args.getStr "context_name".toList).getD []).trim
  if contextName.isEmpty then pure (errorValue "context_name is required".toList)
  else do
    match ← ctx.request "oos.cmd.data.query".toList (dataQuery contextName args) with
    | .error e => return errorValue ("data query failed: ".toList ++ e)
    | .ok reply =>
      match reply.getStr "error".toList with
      | some err => return errorValue err
      | none =>
        let rows := (reply.get "rows".toList).getD (.array [])
        -- the rows go to the webview, the model gets the summary only
        ctx.emit (.tabOpen contextName rows ctx.viewHint)
        return .object [("ok".toList, .bool true), ("summary".toList, .string (summariseRows rows))]

def runTool (ctx : AgentCtx) (name : Text) (args : Json) : Task Json :=
  if name = "oos_schema_search".toList then runSchemaSearch ctx args
  else if name = "oos_query".toList then runQuery ctx args
  else pure (errorValue ("unknown tool: ".toList ++ name))

end Onisin.Agent
