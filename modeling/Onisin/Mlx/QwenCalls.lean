import Onisin.Mlx.ToolRoundTrip

/-!
Tool calls in tags: one block for each parameter, with the value on lines of its own. Strings
are written as they are and read back as JSON wherever they can be.
-/

set_option autoImplicit false

namespace Onisin.Mlx
open Lib

def functionOpen : Text := "<function=".toList
def parameterOpen : Text := "<parameter=".toList
def parameterClose : Text := "</parameter>".toList

/-! Writing. -/

def paramText : Json → Text
  | .string s => s
  | v => v.print

def renderParam (e : Text × Json) : Text :=
  parameterOpen ++ e.1 ++ ">\n".toList ++ paramText e.2 ++ "\n".toList ++ parameterClose ++ "\n".toList

/-- Arguments that are no JSON object yield no parameters. -/
def renderCallParams (fromStr : Text → Option Json) (arguments : Text) : Text :=
  match fromStr arguments with
  | some (.object fields) => fields.flatMap renderParam
  | _ => []

/-- What stands between the markers of a call in the prompt. -/
def qwenCallSpan (fromStr : Text → Option Json) (name arguments : Text) : Text :=
  "\n".toList ++ functionOpen ++ name ++ ">\n".toList ++ renderCallParams fromStr arguments ++
    "</function>\n".toList

/-! Reading. -/

inductive QwenError where
  | noFunction
  | unclosedName
  deriving DecidableEq, Repr

/-- What stands before and behind the first occurrence of a pattern. -/
def cut (pat t : Text) : Option (Text × Text) :=
  (Text.beforeFirst pat t).map fun s => (s, t.drop (s.length + pat.length))

def trimNewlines (t : Text) : Text := Text.trimBy (· = '\n') t

section Reading
variable (fromStr : Text → Option Json)

/-- A value is JSON if it reads as such, and else the string that it is. -/
def readParam (raw : Text) : Json :=
  let raw := trimNewlines raw
  (fromStr raw).getD (.string raw)

/-- The loop over the parameters. It takes every value up to the next closing tag. -/
def readParams : Nat → List (Text × Json) → Text → List (Text × Json)
  | 0, args, _ => args
  | fuel + 1, args, rest =>
    match cut parameterOpen rest with
    | none => args
    | some (_, keyPart) =>
      match cut ">".toList keyPart with
      | none => args
      | some (key, valPart) =>
        match cut parameterClose valPart with
        | none => args
        | some (raw, rest) => readParams fuel (insertField (Text.trim key) (readParam fromStr raw) args) rest

/-- The name of the function and its arguments. -/
def readQwenCall (span : Text) : Except QwenError (Text × List (Text × Json)) :=
  match cut functionOpen span with
  | none => .error .noFunction
  | some (_, after) =>
    match cut ">".toList after with
    | none => .error .unclosedName
    | some (name, rest) => .ok (Text.trim name, readParams fromStr (rest.length + 1) [] rest)

/-- The arguments are handed on as JSON text. -/
def parseQwenToolCall (span : Text) : Except QwenError (Text × Text) :=
  (readQwenCall fromStr span).map fun call => (call.1, (Json.object call.2).print)

end Reading

/-! What comes back. -/

variable {fromStr : Text → Option Json} {key name pat s t rest arguments : Text} {v : Json}
  {args acc : List (Text × Json)} {fuel : Nat}

theorem cut_append (h : IsMarker pat) (hs : ¬ pat <:+: s) (rest : Text) :
    cut pat (s ++ (pat ++ rest)) = some (s, rest) := by
  have hdrop : (s ++ (pat ++ rest)).drop (s.length + pat.length) = rest := by
    rw [← List.append_assoc, ← List.length_append]
    exact List.drop_left
  rw [cut, beforeFirst_marker h hs rest]
  simp only [Option.map_some, hdrop]

theorem cut_length {before after : Text} (hpat : pat ≠ []) (h : cut pat t = some (before, after)) :
    after.length < t.length := by
  obtain ⟨s, hs, heq⟩ := Option.map_eq_some_iff.mp h
  obtain ⟨rfl, rfl⟩ := Prod.mk.inj heq
  have hne : t ≠ [] := by
    rintro rfl
    rw [Text.beforeFirst, if_neg hpat] at hs
    cases hs
  have hpos := List.length_pos_iff.mpr hpat
  have hlen := List.length_pos_iff.mpr hne
  rw [List.length_drop]
  omega

/-- Every pass of the loop shortens the text, so its bound is not met. -/
theorem readParams_fuel (h : rest.length < fuel) :
    readParams fromStr (fuel + 1) acc rest = readParams fromStr fuel acc rest := by
  induction fuel generalizing acc rest with
  | zero => exact absurd h (Nat.not_lt_zero _)
  | succ fuel ih =>
    rw [readParams, readParams]
    split
    · rfl
    · next hopen =>
      split
      · rfl
      · next hkey =>
        split
        · rfl
        · next hclose =>
          have h₁ := cut_length (by decide) hopen
          have h₂ := cut_length (by decide) hkey
          have h₃ := cut_length (by decide) hclose
          exact ih (by omega)

/-- Neither a name nor a key can hold the bracket that closes its tag. -/
structure TagName (name : Text) : Prop where
  bracket : '>' ∉ name
  trimmed : Text.trim name = name

theorem cut_name (h : TagName name) (rest : Text) :
    cut ">".toList (name ++ '>' :: rest) = some (name, rest) :=
  cut_append (by decide) (fun hin => h.bracket (hin.subset List.mem_cons_self)) rest

/-- A newline on either side does not make up a pattern that has none. -/
theorem infix_of_wrapped (hpat : '\n' ∉ pat) (h : pat <:+: '\n' :: (s ++ ['\n'])) : pat <:+: s := by
  rcases List.infix_cons_iff.mp h with hp | h
  · cases pat with
    | nil => exact List.nil_infix
    | cons c pat =>
      obtain ⟨u, hu⟩ := hp
      exact absurd ((List.cons.inj hu).1 ▸ List.mem_cons_self) hpat
  · rcases List.infix_concat_iff.mp h with hs | h
    · rcases List.eq_nil_or_concat pat with rfl | ⟨pat, c, rfl⟩
      · exact List.nil_infix
      · obtain ⟨u, hu⟩ := hs
        rw [List.concat_eq_append, ← List.append_assoc] at hu
        obtain ⟨-, hc⟩ := List.append_inj' hu rfl
        refine absurd ?_ hpat
        rw [List.concat_eq_append, ← (List.cons.inj hc).1]
        exact List.mem_append_right _ List.mem_cons_self
    · exact h

theorem trimNewlines_wrapped (s : Text) : trimNewlines ('\n' :: (s ++ ['\n'])) = trimNewlines s := by
  rw [trimNewlines, trimNewlines, Text.trimBy, Text.trimBy, List.dropWhile_cons_of_pos (by simp),
    List.dropWhile_append]
  cases hs : s.dropWhile (· = '\n') with
  | nil => rfl
  | cons c u =>
    rw [List.isEmpty_cons, if_neg Bool.false_ne_true, List.reverse_append, List.reverse_singleton,
      List.singleton_append, List.dropWhile_cons_of_pos (by simp)]

theorem ascending_iff_keys {fields : List (Text × Json)} :
    Ascending fields ↔ (fields.map Prod.fst).Pairwise fun a b => a ≠ b ∧ Text.precedes a b = true := by
  rw [Ascending, List.pairwise_map]

/-- One pass of the loop over a parameter whose value has no closing tag in it. -/
theorem readParams_step (hkey : TagName key) (hclose : ¬ parameterClose <:+: paramText v)
    (hlast : ∀ e ∈ acc, e.1 ≠ key ∧ Text.precedes e.1 key = true) (rest : Text) :
    readParams fromStr (fuel + 1) acc ('\n' :: (renderParam (key, v) ++ rest)) =
      readParams fromStr fuel (acc ++ [(key, readParam fromStr (paramText v))]) ('\n' :: rest) := by
  have htext : '\n' :: (renderParam (key, v) ++ rest) =
      ['\n'] ++ (parameterOpen ++ (key ++ '>' ::
        ('\n' :: (paramText v ++ ['\n']) ++ (parameterClose ++ '\n' :: rest)))) := by
    have hbracket : ">\n".toList = ['>', '\n'] := rfl
    have hnewline : "\n".toList = ['\n'] := rfl
    simp only [renderParam, hbracket, hnewline, List.append_assoc, List.cons_append, List.nil_append]
  have hopen : ¬ parameterOpen <:+: ['\n'] := by decide
  have hnone : ¬ parameterClose <:+: '\n' :: (paramText v ++ ['\n']) := fun h =>
    hclose (infix_of_wrapped (by decide) h)
  rw [htext, readParams, cut_append (by decide) hopen]
  dsimp only
  rw [cut_name hkey]
  dsimp only
  rw [cut_append (by decide) hnone]
  dsimp only
  rw [hkey.trimmed, readParam, trimNewlines_wrapped, ← readParam, insertField_last hlast]

/-- What the values are read as. -/
def readBack (fromStr : Text → Option Json) (args : List (Text × Json)) : List (Text × Json) :=
  args.map fun e => (e.1, readParam fromStr (paramText e.2))

theorem readParams_render (hkeys : ∀ e ∈ args, TagName e.1)
    (hclose : ∀ e ∈ args, ¬ parameterClose <:+: paramText e.2) (hasc : Ascending (acc ++ args))
    (hfuel : args.length < fuel) :
    readParams fromStr fuel acc ('\n' :: (args.flatMap renderParam ++ "</function>\n".toList)) =
      acc ++ readBack fromStr args := by
  induction args generalizing acc fuel with
  | nil =>
    obtain ⟨fuel, rfl⟩ : ∃ n, fuel = n + 1 := ⟨fuel - 1, by omega⟩
    have hnone : cut parameterOpen ('\n' :: "</function>\n".toList) = none := by decide
    rw [List.flatMap_nil, List.nil_append, readParams, hnone]
    exact (List.append_nil acc).symm
  | cons e args ih =>
    obtain ⟨fuel, rfl⟩ : ∃ n, fuel = n + 1 := ⟨fuel - 1, by omega⟩
    obtain ⟨key, v⟩ := e
    have hlast : ∀ e ∈ acc, e.1 ≠ key ∧ Text.precedes e.1 key = true := fun e he =>
      (List.pairwise_append.mp hasc).2.2 e he (key, v) List.mem_cons_self
    have hnext : Ascending (acc ++ [(key, readParam fromStr (paramText v))] ++ args) := by
      rw [ascending_iff_keys] at hasc ⊢
      simpa using hasc
    rw [List.flatMap_cons, List.append_assoc,
      readParams_step (hkeys _ List.mem_cons_self) (hclose _ List.mem_cons_self) hlast,
      ih (fun e he => hkeys e (List.mem_cons_of_mem _ he))
        (fun e he => hclose e (List.mem_cons_of_mem _ he))
        hnext (by simpa using hfuel), List.append_assoc]
    rfl

theorem length_renderParams (args : List (Text × Json)) :
    args.length ≤ (args.flatMap renderParam).length := by
  induction args with
  | nil => exact Nat.le_refl _
  | cons e args ih =>
    have hpos : 0 < (renderParam e).length := by
      rw [renderParam, List.length_append]
      exact Nat.lt_add_left _ (by decide)
    rw [List.flatMap_cons, List.length_append, List.length_cons]
    omega

/-- As long as no value holds the closing tag, every argument is read from its own block. -/
theorem readQwenCall_render (hread : fromStr arguments = some (.object args)) (hname : TagName name)
    (hkeys : ∀ e ∈ args, TagName e.1) (hasc : Ascending args)
    (hclose : ∀ e ∈ args, ¬ parameterClose <:+: paramText e.2) :
    readQwenCall fromStr (qwenCallSpan fromStr name arguments) = .ok (name, readBack fromStr args) := by
  have htext : qwenCallSpan fromStr name arguments = ['\n'] ++ (functionOpen ++ (name ++ '>' ::
      ('\n' :: (args.flatMap renderParam ++ "</function>\n".toList)))) := by
    have hbracket : ">\n".toList = ['>', '\n'] := rfl
    have hnewline : "\n".toList = ['\n'] := rfl
    simp only [qwenCallSpan, renderCallParams, hread, hbracket, hnewline, List.append_assoc,
      List.cons_append, List.nil_append]
  have hopen : ¬ functionOpen <:+: ['\n'] := by decide
  have hstart : Ascending ([] ++ args) := hasc
  have hfuel : args.length <
      ('\n' :: (args.flatMap renderParam ++ "</function>\n".toList)).length + 1 := by
    have := length_renderParams args
    rw [List.length_cons, List.length_append]
    omega
  rw [htext, readQwenCall, cut_append (by decide) hopen]
  dsimp only
  rw [cut_name hname]
  dsimp only
  rw [hname.trimmed, readParams_render hkeys hclose hstart hfuel]
  rfl

/-! Which values are read as what they are. -/

/-- A string that is no JSON text and has no newline at its ends; JSON that reads as itself. -/
def Readable (fromStr : Text → Option Json) : Json → Prop
  | .string s => trimNewlines s = s ∧ fromStr s = none
  | v => fromStr v.print = some v

/-- The text of a number has no newline around it. -/
def NumberText : Json → Prop
  | .number (.float printed) => trimNewlines printed = printed
  | _ => True

/-- A JSON text of a string has its quotes besides its characters. -/
def QuotesStrings (fromStr : Text → Option Json) : Prop :=
  ∀ t s, fromStr t = some (.string s) → s.length + 2 ≤ t.length

theorem trimNewlines_print (hv : NumberText v) (hstring : ∀ s, v ≠ .string s) :
    trimNewlines v.print = v.print := by
  cases v with
  | null => decide
  | bool b => cases b <;> decide
  | number n =>
    cases n with
    | int n =>
      refine Text.trimBy_of_none fun c hc => decide_eq_false ?_
      rintro rfl
      exact absurd (graphic_toString n _ hc) (by decide)
    | float printed => exact hv
  | string s => exact absurd rfl (hstring s)
  | array items =>
    rw [Json.print, List.append_assoc]
    exact Text.trimBy_of_ends (by decide) (by decide) _
  | object fields =>
    rw [Json.print, List.append_assoc]
    exact Text.trimBy_of_ends (by decide) (by decide) _

theorem readParam_iff (hquotes : QuotesStrings fromStr) (hv : NumberText v) :
    readParam fromStr (paramText v) = v ↔ Readable fromStr v := by
  by_cases hstring : ∃ s, v = .string s
  · obtain ⟨s, rfl⟩ := hstring
    have hlen : (trimNewlines s).length ≤ s.length := Text.length_trimBy_le _ s
    rw [readParam, paramText, Readable]
    cases hread : fromStr (trimNewlines s) with
    | none =>
      rw [Option.getD_none, Json.string.injEq]
      refine ⟨fun h => ⟨h, h ▸ hread⟩, fun h => h.1⟩
    | some w =>
      rw [Option.getD_some]
      constructor
      · rintro rfl
        have := hquotes _ _ hread
        omega
      · rintro ⟨htrim, hnone⟩
        rw [htrim, hnone] at hread
        cases hread
  · have hne : ∀ s, v ≠ .string s := fun s hs => hstring ⟨s, hs⟩
    have htext : paramText v = v.print := by
      cases v with
      | string s => exact absurd rfl (hne s)
      | _ => rfl
    have hreadable : Readable fromStr v ↔ fromStr v.print = some v := by
      cases v with
      | string s => exact absurd rfl (hne s)
      | _ => exact Iff.rfl
    rw [hreadable, readParam, htext, trimNewlines_print hv hne]
    cases hread : fromStr v.print with
    | none =>
      rw [Option.getD_none]
      exact iff_of_false (fun h => hne _ h.symm) fun h => by cases h
    | some w => rw [Option.getD_some, Option.some.injEq]

theorem readBack_eq_iff (hquotes : QuotesStrings fromStr) (hnum : ∀ e ∈ args, NumberText e.2) :
    readBack fromStr args = args ↔ ∀ e ∈ args, Readable fromStr e.2 := by
  have hself : readBack fromStr args = args ↔ readBack fromStr args = args.map id := by rw [List.map_id]
  rw [hself, readBack, List.map_inj_left]
  refine forall₂_congr fun e he => ?_
  rw [← readParam_iff hquotes (hnum e he), Prod.ext_iff]
  exact and_iff_right rfl

/-- A call that is written and read back has the same name and arguments if no value has the closing
tag in its text and every value reads as itself; where no value has it, also only if. -/
theorem qwen_call_round_trip (hquotes : QuotesStrings fromStr)
    (hread : fromStr arguments = some (.object args)) (hasc : Ascending args)
    (hnum : ∀ e ∈ args, NumberText e.2) (hname : TagName name) (hkeys : ∀ e ∈ args, TagName e.1) :
    ((∀ e ∈ args, ¬ parameterClose <:+: paramText e.2 ∧ Readable fromStr e.2) →
      parseQwenToolCall fromStr (qwenCallSpan fromStr name arguments) =
        .ok (name, (Json.object args).print)) ∧
    ((∀ e ∈ args, ¬ parameterClose <:+: paramText e.2) →
      readQwenCall fromStr (qwenCallSpan fromStr name arguments) = .ok (name, args) →
        ∀ e ∈ args, Readable fromStr e.2) := by
  constructor
  · intro hgood
    have hback := (readBack_eq_iff hquotes hnum).mpr fun e he => (hgood e he).2
    rw [parseQwenToolCall, readQwenCall_render hread hname hkeys hasc fun e he => (hgood e he).1, hback]
    rfl
  · intro hclose hsame
    rw [readQwenCall_render hread hname hkeys hasc hclose] at hsame
    exact (readBack_eq_iff hquotes hnum).mp (Prod.mk.inj (Except.ok.inj hsame)).2

def noteArguments : Text := "\x7b\"n\":5,\"note\":\"hi\"\x7d".toList

def noteFields : List (Text × Json) :=
  [("n".toList, .number (.int 5)), ("note".toList, .string "hi".toList)]

def digitArguments : Text := "\x7b\"id\":\"5\"\x7d".toList

def digitFields : List (Text × Json) := [("id".toList, .string "5".toList)]

/-- The JSON reader on three texts. -/
def threeTexts (t : Text) : Option Json :=
  if t = noteArguments then some (.object noteFields)
  else if t = digitArguments then some (.object digitFields)
  else if t = "5".toList then some (.number (.int 5))
  else none

theorem threeTexts_quotes : QuotesStrings threeTexts := by
  intro t s h
  rw [threeTexts] at h
  split at h
  · cases h
  · split at h
    · cases h
    · split at h <;> cases h

theorem read_note : threeTexts noteArguments = some (.object noteFields) := by
  rw [threeTexts, if_pos rfl]

theorem read_digit : threeTexts digitArguments = some (.object digitFields) := by
  rw [threeTexts, if_neg (by decide), if_pos rfl]

theorem read_five : threeTexts "5".toList = some (.number (.int 5)) := by
  rw [threeTexts, if_neg (by decide), if_neg (by decide), if_pos rfl]

theorem qwen_call_round_trip_note :
    parseQwenToolCall threeTexts (qwenCallSpan threeTexts "save".toList noteArguments) =
        .ok ("save".toList, (Json.object noteFields).print) ∧
      ∀ e ∈ noteFields, Readable threeTexts e.2 := by
  have hmem : ∀ e ∈ noteFields, e = ("n".toList, Json.number (.int 5)) ∨
      e = ("note".toList, Json.string "hi".toList) := by
    intro e he
    simpa [noteFields] using he
  have hasc : Ascending noteFields := by
    refine List.pairwise_cons.mpr ⟨fun e he => ?_, List.pairwise_singleton _ _⟩
    rw [List.mem_singleton.mp he]
    exact ⟨by decide, by decide⟩
  have hnum : ∀ e ∈ noteFields, NumberText e.2 := by
    intro e he
    rcases hmem e he with rfl | rfl <;> trivial
  have hkeys : ∀ e ∈ noteFields, TagName e.1 := by
    intro e he
    rcases hmem e he with rfl | rfl
    · exact ⟨by decide, by decide⟩
    · exact ⟨by decide, by decide⟩
  have hclose : ∀ e ∈ noteFields, ¬ parameterClose <:+: paramText e.2 := by
    intro e he
    rcases hmem e he with rfl | rfl
    · decide
    · decide
  have hreadable : ∀ e ∈ noteFields, Readable threeTexts e.2 := by
    intro e he
    rcases hmem e he with rfl | rfl
    · exact read_five
    · exact ⟨by decide, by rw [threeTexts, if_neg (by decide), if_neg (by decide), if_neg (by decide)]⟩
  have htrip := qwen_call_round_trip threeTexts_quotes read_note hasc hnum
    (show TagName "save".toList from ⟨by decide, by decide⟩) hkeys
  refine ⟨htrip.1 fun e he => ⟨hclose e he, hreadable e he⟩, hreadable⟩

/-- A string of digits comes back as a number. -/
theorem digits_become_number :
    ¬ ∀ (name arguments : Text) (args : List (Text × Json)),
      threeTexts arguments = some (.object args) → Ascending args → TagName name →
      (∀ e ∈ args, TagName e.1) →
      parseQwenToolCall threeTexts (qwenCallSpan threeTexts name arguments) =
        .ok (name, (Json.object args).print) := by
  intro hall
  have hasc : Ascending digitFields := List.pairwise_singleton _ _
  have hname : TagName "find".toList := ⟨by decide, by decide⟩
  have hkeys : ∀ e ∈ digitFields, TagName e.1 := by
    intro e he
    rw [List.mem_singleton.mp he]
    exact ⟨by decide, by decide⟩
  have hclose : ∀ e ∈ digitFields, ¬ parameterClose <:+: paramText e.2 := by
    intro e he
    rw [List.mem_singleton.mp he]
    decide
  have hsame := hall "find".toList digitArguments digitFields read_digit hasc hname hkeys
  have htrim : trimNewlines (paramText (.string "5".toList)) = "5".toList := by decide
  have hback : readBack threeTexts digitFields = [("id".toList, .number (.int 5))] := by
    rw [readBack, digitFields, List.map_singleton, readParam, htrim, read_five]
    rfl
  rw [parseQwenToolCall, readQwenCall_render read_digit hname hkeys hasc hclose, hback] at hsame
  have hprint : (Json.object [("id".toList, .number (.int 5))]).print = (Json.object digitFields).print :=
    (Prod.mk.inj (Except.ok.inj hsame)).2
  exact absurd hprint (by decide)

end Onisin.Mlx
