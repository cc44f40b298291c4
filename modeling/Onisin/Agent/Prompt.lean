import Onisin.Agent.Context

/-!
The system prompt of a chat turn: the standing instructions and the domain index, each fetched
once over the bus, around the fixed sections.
-/

set_option autoImplicit false

namespace Onisin.Agent
open Lib

def workedExamples : Text :=
  ("# How to answer a data question\n" ++
   "\n1. Recognise which domain the user means. Use the *Available domains* list above as the " ++
   "index.\n" ++
   "2. Call `oos_schema_search` with a short query (e.g. \"person\") to get the field list, the " ++
   "per-field operators, and the where shape.\n" ++
   "3. Call `oos_query` with `context_name` set to the domain name. For filters, pass a `where` " ++
   "array of \x7bfield, op, value\x7d entries — use ONLY fields from the chunk's `ALLOWED query " ++
   "fields` line and operators the chunk lists. Omit `where` for all rows.\n" ++
   "4. Reply briefly. Do not paste the data back — the frontend opens it as a tab automatically " ++
   "when oos_query succeeds.\n" ++
   "\n## Filters narrow the rows, not the field set\n" ++
   "\nA `where` clause changes which rows return; it never changes which fields you get. Leave " ++
   "`fields` unset unless the user explicitly asks for a subset.\n" ++
   "\n## Example: \"Zeig mir alle Personen\"\n" ++
   "\n- oos_schema_search(\x7b query: \"person\" \x7d)\n" ++
   "- oos_query(\x7b context_name: \"person\" \x7d)\n" ++
   "- Reply: \"Hier sind alle Personen.\"\n" ++
   "\n## Example: \"Personen aus Berlin\"\n" ++
   "\n- oos_schema_search(\x7b query: \"person\" \x7d)\n" ++
   "- oos_query(\x7b context_name: \"person\", where: [\x7b field: \"city\", op: \"eq\", value: " ++
   "\"Berlin\" \x7d] \x7d)\n" ++
   "- Reply: \"Hier sind die Personen aus Berlin.\"\n" ++
   "\n## Example: \"Personen älter als 49 in London\" (combined filters, AND)\n" ++
   "\n- oos_schema_search(\x7b query: \"person\" \x7d)\n" ++
   "- oos_query(\x7b context_name: \"person\", where: [\x7b field: \"age\", op: \"gt\", value: " ++
   "49 \x7d, \x7b field: \"city\", op: \"eq\", value: \"London\" \x7d] \x7d)\n" ++
   "- Reply: \"Hier die Personen über 49 aus London.\"").toList

def footer : Text :=
  ("# Rules\n" ++
   "\n- Never invent field names. If a field is not in the chunk's ALLOWED query fields list, do " ++
   "not use it.\n" ++
   "- Use only the operators the chunk lists for a field; the runtime rejects any other " ++
   "operator.\n" ++
   "- Do not attempt writes (insert/update/delete) — only reads are available in this mode.\n" ++
   "- If `oos_query` returns an error, read it, fix the where or fields, and retry once. If it " ++
   "still fails, reply with a brief apology.").toList

def buildHeader (ctx : AgentCtx) : Text :=
  let who := if ctx.username.isEmpty then [] else "Current user: ".toList ++ ctx.username
  let role := if ctx.userRole.isEmpty then [] else "(role: ".toList ++ ctx.userRole ++ [')']
  Text.join ['\n']
    (["You are OOS Assistant, the AI inside Onisin OS.".toList,
      ("Reply in the user's language. Keep replies brief — the data goes into a side tab; the " ++
       "chat is for confirmation and follow-up.").toList] ++
    (if !ctx.username.isEmpty || !ctx.userRole.isEmpty then
      [Text.trim (who ++ [' '] ++ role)] else []) ++
    (if !ctx.userRole.isEmpty then
      [("Writes (insert/update/delete) are allowed for role admin and manager; role user may " ++
        "only read. If the user asks for a change their role does not permit, explain politely " ++
        "that they lack write access.").toList] else []))

def renderGlobals (prompts : List (Text × Text)) : Text :=
  if prompts.isEmpty then []
  else
    "# Behaviour conventions\n\n".toList ++
      Text.join "\n\n".toList (prompts.map fun (name, chunk) =>
        "## ".toList ++ name ++ ['\n'] ++ chunk.trim)

structure DomainEntry where
  name : Text
  source : Text
  scope : Option Text

def renderDomainIndex (domains : List DomainEntry) : Text :=
  if domains.isEmpty then "# Available domains\n\n(none registered yet)".toList
  else
    "# Available domains\n\n".toList ++
      Text.join ['\n'] (domains.map fun d =>
        "- **".toList ++ d.name ++ "** (".toList ++ d.source ++ [')'] ++
          (d.scope.map fun s => " — ".toList ++ s).getD [])

def fetchGlobals (ctx : AgentCtx) : Task (List (Text × Text)) := do
  match ← ctx.request "oos.cmd.global".toList (.object []) with
  | .ok v =>
    return ((v.getArray "prompts".toList).getD []).filterMap fun p => do
      let name ← p.getStr "name".toList
      let chunk ← p.getStr "chunk".toList
      return (name, chunk)
  | .error _ => return []

def fetchDomainIndex (ctx : AgentCtx) : Task (List DomainEntry) := do
  match ← ctx.request "oos.cmd.domains".toList (.object []) with
  | .ok v =>
    return ((v.getArray "domains".toList).getD []).filterMap fun d => do
      let name ← d.getStr "name".toList
      return ⟨name, (d.getStr "source".toList).getD [], d.getStr "scope".toList⟩
  | .error _ => return []

def buildSystemPrompt (ctx : AgentCtx) : Task Text := do
  let globals ← fetchGlobals ctx
  let domains ← fetchDomainIndex ctx
  let sections := [buildHeader ctx, renderGlobals globals, renderDomainIndex domains,
    workedExamples, footer]
  return Text.join "\n\n".toList (sections.filter fun s => !s.trim.isEmpty)

end Onisin.Agent
