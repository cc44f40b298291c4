import Onisin.Lib.GraphQLString

/-!
GraphQL documents with one operation that calls one field: the tokens of a document, and the call
that is read from them. A text spells tokens if they are what it adds to those of any text behind
it; how that composes is the way a rendered document is read back.
-/

set_option autoImplicit false

namespace Onisin.Lib.GraphQL

/-- A name or a number is left as it is written, and what is in quotes is its value. -/
inductive Token where
  | punctuator (c : Char)
  | word (t : Text)
  | string (value : Text)
  deriving DecidableEq, Repr

/-- White space, line ends and commas stand for nothing. -/
def isIgnored (c : Char) : Bool :=
  c = ' ' || c = '\t' || c = '\n' || c = '\r' || c = ',' || c.toNat = 0xFEFF

def isPunctuator (c : Char) : Bool := "!$&()=:@[]\x7b|\x7d".toList.contains c

def isWordChar (c : Char) : Bool := !isIgnored c && !isPunctuator c && c ≠ '"' && c ≠ '#'

section Tokens
variable (ed : GraphQLEdition)

/-- The number is how much is left of the token or the comment that was read last. -/
def tokensFrom : Nat → Text → Option (List Token)
  | _, [] => some []
  | skip + 1, _ :: t => tokensFrom skip t
  | 0, c :: t =>
    if isIgnored c then tokensFrom 0 t
    else if isPunctuator c then (tokensFrom 0 t).map (.punctuator c :: ·)
    else if c = '"' then
      (stringToken ed (c :: t)).bind fun r =>
        (tokensFrom (t.length - r.2.length) t).map (.string r.1 :: ·)
    else if c = '#' then tokensFrom (t.takeWhile (· ≠ '\n')).length t
    else
      let w := t.takeWhile isWordChar
      (tokensFrom w.length t).map (.word (c :: w) :: ·)

def tokens (t : Text) : Option (List Token) := tokensFrom ed 0 t

end Tokens

/-! The call. -/

/-- The value of an argument that is no list and no object. -/
inductive Value where
  | word (t : Text)
  | string (s : Text)
  deriving DecidableEq, Repr

/-- The field that an operation calls, with its arguments and the names it asks for. -/
structure Call where
  field : Text
  args : List (Text × Value)
  selection : List Text
  deriving DecidableEq, Repr

/-- Up to the closing bracket. -/
def readArgs : List Token → Option (List (Text × Value) × List Token)
  | .punctuator ')' :: ts => some ([], ts)
  | .word name :: .punctuator ':' :: .word t :: ts =>
    (readArgs ts).map fun r => ((name, .word t) :: r.1, r.2)
  | .word name :: .punctuator ':' :: .string s :: ts =>
    (readArgs ts).map fun r => ((name, .string s) :: r.1, r.2)
  | _ => none

/-- Up to the closing brace. -/
def readSelection : List Token → Option (List Text × List Token)
  | .punctuator '\x7d' :: ts => some ([], ts)
  | .word name :: ts => (readSelection ts).map fun r => (name :: r.1, r.2)
  | _ => none

/-- The call in an operation of the given kind. Brackets and braces hold at least one entry. -/
def readCall (operation : Text) : List Token → Option Call
  | .word op :: .punctuator '\x7b' :: .word field :: .punctuator '(' :: ts => do
    let (args, ts) ← readArgs ts
    match ts with
    | .punctuator '\x7b' :: ts =>
      let (selection, ts) ← readSelection ts
      if op = operation ∧ args ≠ [] ∧ selection ≠ [] ∧ ts = [.punctuator '\x7d'] then
        some ⟨field, args, selection⟩
      else none
    | _ => none
  | _ => none

/-- The call that a document makes by a mutation. -/
def readMutation (ed : GraphQLEdition) (document : Text) : Option Call :=
  (tokens ed document).bind (readCall "mutation".toList)

/-! What a text spells. -/

/-- Nothing that stands before such a character goes on with it. -/
def setsOff (c : Char) : Bool := isIgnored c || isPunctuator c

/-- The text begins apart from what stands in front of it. -/
def SetOff (t : Text) : Prop := ∃ c rest, t = c :: rest ∧ setsOff c = true

def IsWord (w : Text) : Prop := w ≠ [] ∧ w.all isWordChar = true

section Spelling
variable {ed : GraphQLEdition} {s t : Text} {ts us : List Token}

/-- In front of a text that begins apart. -/
def Spells (ed : GraphQLEdition) (t : Text) (ts : List Token) : Prop :=
  ∀ rest : Text, (∀ c ∈ rest.head?, setsOff c = true) →
    tokens ed (t ++ rest) = (tokens ed rest).map (ts ++ ·)

/-- In front of any text. -/
def Closed (ed : GraphQLEdition) (t : Text) (ts : List Token) : Prop :=
  ∀ rest : Text, tokens ed (t ++ rest) = (tokens ed rest).map (ts ++ ·)

theorem tokensFrom_skip (s t : Text) : tokensFrom ed s.length (s ++ t) = tokens ed t := by
  induction s with
  | nil => rfl
  | cons c s ih =>
    rw [List.length_cons, List.cons_append, tokensFrom]
    exact ih

theorem Closed.spells (h : Closed ed t ts) : Spells ed t ts := fun rest _ => h rest

theorem Closed.nil : Closed ed [] [] := fun rest => by simp

theorem Closed.append (hs : Closed ed s ts) (ht : Closed ed t us) : Closed ed (s ++ t) (ts ++ us) := by
  intro rest
  rw [List.append_assoc, hs, ht, Option.map_map]
  simp [Function.comp_def]

theorem Closed.append_spells (hs : Closed ed s ts) (ht : Spells ed t us) :
    Spells ed (s ++ t) (ts ++ us) := by
  intro rest hrest
  rw [List.append_assoc, hs, ht rest hrest, Option.map_map]
  simp [Function.comp_def]

theorem Spells.append (hs : Spells ed s ts) (ht : Closed ed t us) (hoff : SetOff t) :
    Closed ed (s ++ t) (ts ++ us) := by
  obtain ⟨c, t, rfl, hc⟩ := hoff
  intro rest
  rw [List.append_assoc, hs _ (by simpa using hc), ht, Option.map_map]
  simp [Function.comp_def]

theorem Spells.tokens (h : Spells ed t ts) : tokens ed t = some ts := by
  have hall := h [] (by simp)
  rw [List.append_nil] at hall
  rw [hall, GraphQL.tokens, tokensFrom, Option.map_some, List.append_nil]

theorem setOff_ignored {c : Char} (h : isIgnored c = true) (t : Text) : SetOff (c :: t) :=
  ⟨c, t, rfl, by rw [setsOff, h, Bool.true_or]⟩

theorem setOff_punctuator {c : Char} (h : isPunctuator c = true) (t : Text) : SetOff (c :: t) :=
  ⟨c, t, rfl, by rw [setsOff, h, Bool.or_true]⟩

theorem isWordChar_of_setsOff {c : Char} (h : setsOff c = true) : isWordChar c = false := by
  rw [setsOff, Bool.or_eq_true] at h
  rcases h with h | h
  · simp [isWordChar, h]
  · simp [isWordChar, h]

/-- The characters that end a word. -/
def wordEnds : Text := " \t\n\r,\uFEFF!$&()=:@[]\x7b|\x7d\"#".toList

theorem wordEnds_punctuators : "!$&()=:@[]\x7b|\x7d".toList ⊆ wordEnds := by decide

theorem isWordChar_of_not_mem {c : Char} (h : c ∉ wordEnds) : isWordChar c = true := by
  have hne : ∀ d ∈ wordEnds, c ≠ d := fun d hd hcd => h (hcd ▸ hd)
  have hmark : c.toNat ≠ 0xFEFF := by
    intro hc
    refine hne (Char.ofNat 0xFEFF) (by decide) ?_
    rw [← hc, Char.ofNat_toNat]
  have hpunctuator : isPunctuator c = false := by
    rw [isPunctuator, Bool.eq_false_iff, ne_eq, List.contains_iff_mem]
    exact fun hmem => h (wordEnds_punctuators hmem)
  have hspace := hne ' ' (by decide)
  have htab := hne '\t' (by decide)
  have hlf := hne '\n' (by decide)
  have hcr := hne '\r' (by decide)
  have hcomma := hne ',' (by decide)
  have hquote := hne '"' (by decide)
  have hcomment := hne '#' (by decide)
  simp [isWordChar, isIgnored, hspace, htab, hlf, hcr, hcomma, hquote, hcomment, hmark, hpunctuator]

theorem not_ignored_of_punctuator {c : Char} (h : isPunctuator c = true) : isIgnored c = false := by
  rw [isPunctuator, List.contains_iff_mem] at h
  have hall : ("!$&()=:@[]\x7b|\x7d".toList.all fun c => !isIgnored c) = true := by decide
  simpa using List.all_eq_true.mp hall c h

theorem closed_ignored {c : Char} (h : isIgnored c = true) : Closed ed [c] [] := by
  intro rest
  rw [List.singleton_append, GraphQL.tokens, tokensFrom, if_pos h]
  simp [GraphQL.tokens]

theorem closed_punctuator {c : Char} (h : isPunctuator c = true) : Closed ed [c] [.punctuator c] := by
  intro rest
  rw [List.singleton_append, GraphQL.tokens, tokensFrom, if_neg, if_pos h]
  · simp [GraphQL.tokens]
  · simp [not_ignored_of_punctuator h]

/-- Punctuators between what is ignored. -/
theorem closed_marks (h : t.all setsOff = true) :
    Closed ed t ((t.filter isPunctuator).map Token.punctuator) := by
  induction t with
  | nil => exact .nil
  | cons c t ih =>
    rw [List.all_cons, Bool.and_eq_true] at h
    have hrest := ih h.2
    cases hc : isPunctuator c with
    | true =>
      rw [List.filter_cons_of_pos hc]
      exact (closed_punctuator hc).append hrest
    | false =>
      have hignored : isIgnored c = true := by simpa [setsOff, hc] using h.1
      rw [List.filter_cons_of_neg (by simp [hc])]
      exact (closed_ignored hignored).append hrest

theorem closed_blank (h : t.all isIgnored = true) : Closed ed t [] := by
  have hmarks : t.filter isPunctuator = [] := by
    rw [List.filter_eq_nil_iff]
    intro c hc hmark
    have hignored := List.all_eq_true.mp h c hc
    rw [not_ignored_of_punctuator hmark] at hignored
    cases hignored
  have hall : t.all setsOff = true :=
    List.all_eq_true.mpr fun c hc => by rw [setsOff, List.all_eq_true.mp h c hc, Bool.true_or]
  have hclosed : Closed ed t ((t.filter isPunctuator).map Token.punctuator) := closed_marks hall
  rwa [hmarks] at hclosed

/-- A word is read up to where something begins apart from it. -/
theorem spells_word {w : Text} (h : IsWord w) : Spells ed w [.word w] := by
  obtain ⟨hne, hw⟩ := h
  obtain ⟨c, w, rfl⟩ := List.exists_cons_of_ne_nil hne
  intro rest hrest
  rw [List.all_cons, Bool.and_eq_true] at hw
  obtain ⟨hc, hw⟩ := hw
  have htake : (w ++ rest).takeWhile isWordChar = w := by
    have hnone : rest.takeWhile isWordChar = [] := by
      cases rest with
      | nil => rfl
      | cons d rest => simp [isWordChar_of_setsOff (hrest d rfl)]
    rw [List.takeWhile_append_of_pos (by simpa using hw), hnone, List.append_nil]
  simp only [isWordChar, Bool.and_eq_true, Bool.not_eq_true', decide_eq_true_eq] at hc
  obtain ⟨⟨⟨hignored, hpunctuator⟩, hquote⟩, hcomment⟩ := hc
  rw [List.cons_append, GraphQL.tokens, tokensFrom, if_neg (by simp [hignored]),
    if_neg (by simp [hpunctuator]), if_neg hquote, if_neg hcomment]
  simp only [htake, tokensFrom_skip]
  rfl

/-- A string token is read up to its end. -/
theorem spells_string (h : ∀ rest : Text, rest.head? ≠ some '"' →
    stringToken ed ('"' :: t ++ rest) = some (s, rest)) : Spells ed ('"' :: t) [.string s] := by
  intro rest hrest
  have hquote : rest.head? ≠ some '"' := fun hhead => absurd (hrest '"' hhead) (by decide)
  rw [List.cons_append, GraphQL.tokens, tokensFrom, if_neg (by decide), if_neg (by decide), if_pos rfl,
    ← List.cons_append, h rest hquote, Option.bind_some, List.length_append, Nat.add_sub_cancel,
    tokensFrom_skip]
  rfl

/-- Texts with something between them that begins apart and stands for nothing. -/
theorem spells_join {α : Type} {text : α → Text} {spelled : α → List Token} {sep : Text}
    (hsep : sep.all isIgnored = true) (hne : sep ≠ []) {l : List α}
    (h : ∀ x ∈ l, Spells ed (text x) (spelled x)) :
    Spells ed (Text.join sep (l.map text)) (l.flatMap spelled) := by
  have hoff : SetOff sep := by
    obtain ⟨c, rest, rfl⟩ := List.exists_cons_of_ne_nil hne
    rw [List.all_cons, Bool.and_eq_true] at hsep
    exact setOff_ignored hsep.1 rest
  induction l with
  | nil => exact Closed.nil.spells
  | cons x l ih =>
    obtain ⟨hx, hl⟩ := List.forall_mem_cons.mp h
    rw [List.map_cons, Text.join_cons, List.flatMap_cons]
    split
    · rename_i hnil
      obtain rfl := List.map_eq_nil_iff.mp hnil
      simpa using hx
    · have hclosed := hx.append (closed_blank hsep) hoff
      have hall := hclosed.append_spells (ih hl)
      simpa using hall

end Spelling

/-! A call that is written out is read. -/

def Value.token : Value → Token
  | .word t => .word t
  | .string s => .string s

def argTokens (a : Text × Value) : List Token := [.word a.1, .punctuator ':', a.2.token]

theorem readArgs_tokens (args : List (Text × Value)) (ts : List Token) :
    readArgs (args.flatMap argTokens ++ .punctuator ')' :: ts) = some (args, ts) := by
  induction args with
  | nil => rfl
  | cons a args ih =>
    obtain ⟨name, v⟩ := a
    cases v with
    | word t =>
      simp only [List.flatMap_cons, argTokens, Value.token, List.cons_append, List.nil_append, readArgs]
      rw [ih]
      rfl
    | string s =>
      simp only [List.flatMap_cons, argTokens, Value.token, List.cons_append, List.nil_append, readArgs]
      rw [ih]
      rfl

theorem readSelection_tokens (names : List Text) (ts : List Token) :
    readSelection (names.map Token.word ++ .punctuator '\x7d' :: ts) = some (names, ts) := by
  induction names with
  | nil => rfl
  | cons name names ih =>
    rw [List.map_cons, List.cons_append, readSelection, ih]
    rfl

def callTokens (operation : Text) (call : Call) : List Token :=
  [.word operation, .punctuator '\x7b', .word call.field, .punctuator '('] ++
    call.args.flatMap argTokens ++ [.punctuator ')', .punctuator '\x7b'] ++
    call.selection.map Token.word ++ [.punctuator '\x7d', .punctuator '\x7d']

/-- The call is what was written, provided that it has an argument and asks for something. -/
theorem readCall_tokens (operation : Text) (call : Call) :
    readCall operation (callTokens operation call) =
      if call.args ≠ [] ∧ call.selection ≠ [] then some call else none := by
  have htokens : callTokens operation call =
      .word operation :: .punctuator '\x7b' :: .word call.field :: .punctuator '(' ::
        (call.args.flatMap argTokens ++ .punctuator ')' :: .punctuator '\x7b' ::
          (call.selection.map Token.word ++ [.punctuator '\x7d', .punctuator '\x7d'])) := by
    simp [callTokens]
  rw [htokens, readCall, readArgs_tokens]
  simp only [Option.bind_eq_bind, Option.bind_some, readSelection_tokens, true_and, and_true]

theorem readMutation_callTokens {ed : GraphQLEdition} {document : Text} {call : Call}
    (h : Closed ed document (callTokens "mutation".toList call)) :
    readMutation ed document = if call.args ≠ [] ∧ call.selection ≠ [] then some call else none := by
  rw [readMutation, h.spells.tokens, Option.bind_some, readCall_tokens]

example : readMutation september2025 "mutation \x7b f(a: -1, b: \"x\\\"y\") \x7b id a \x7d \x7d".toList =
    some ⟨['f'], [(['a'], .word "-1".toList), (['b'], .string "x\"y".toList)], ["id".toList, ['a']]⟩ := by
  decide

end Onisin.Lib.GraphQL
