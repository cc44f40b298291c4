import Onisin.Dsl.DomainCorrect
import Onisin.Lib.Decimal

/-!
The tokenizer of the domain language. It reads the source character by character, with the
position of the next character beside it.
-/

set_option autoImplicit false

namespace Onisin.Domain
open Lib

structure Pos where
  line : Nat
  col : Nat
  deriving DecidableEq, Repr

/-- The position behind a character. -/
def Pos.bump (p : Pos) (c : Char) : Pos :=
  if c = '\n' then ⟨p.line + 1, 1⟩ else ⟨p.line, p.col + 1⟩

def Pos.bumpAll (p : Pos) (t : Text) : Pos := t.foldl Pos.bump p

def Pos.err (p : Pos) (message : Text) : ParseError := ⟨p.line, p.col, message⟩

/-- Where the skipping of trivia is: at the top of its loop, in a line comment, or in a block
comment, whose two marks are read one character at a time. -/
inductive Trivia where
  | top
  | line
  | blockOpen
  | block
  | blockClose
  deriving DecidableEq, Repr

def skipTrivia : Trivia → Pos → Text → Except ParseError (Pos × Text)
  | .top, p, c :: t =>
    if isWhitespace c then skipTrivia .top (p.bump c) t
    else if c = '/' ∧ t.head? = some '/' then skipTrivia .line (p.bump c) t
    else if c = '/' ∧ t.head? = some '*' then skipTrivia .blockOpen (p.bump c) t
    else .ok (p, c :: t)
  -- the end of the line is left to the loop, which takes it as whitespace
  | .line, p, c :: t => skipTrivia (if c = '\n' then .top else .line) (p.bump c) t
  | .blockOpen, p, c :: t => skipTrivia .block (p.bump c) t
  | .block, p, c :: t =>
    skipTrivia (if c = '*' ∧ t.head? = some '/' then .blockClose else .block) (p.bump c) t
  | .blockClose, p, c :: t => skipTrivia .top (p.bump c) t
  | .top, p, [] => .ok (p, [])
  | .line, p, [] => .ok (p, [])
  | _, p, [] => .error (p.err "unterminated block comment".toList)

def isAlphaAscii (c : Char) : Bool := ('a' ≤ c && c ≤ 'z') || ('A' ≤ c && c ≤ 'Z')

def isDigitAscii (c : Char) : Bool := c.isDigit

def isIdentStart (c : Char) : Bool := c = '_' || isAlphaAscii c

def isIdentChar (c : Char) : Bool := c = '_' || isAlphaAscii c || isDigitAscii c

def lexIdent (t : Text) : Text × Text := t.span isIdentChar

def nextIsDigit (t : Text) : Bool := (t.head?.map isDigitAscii).getD false

/-- The fraction of a number, if a digit stands behind the point. -/
def lexFraction (t : Text) : Text × Text :=
  match t with
  | '.' :: t' =>
    if nextIsDigit t' then ('.' :: (t'.span isDigitAscii).1, (t'.span isDigitAscii).2) else ([], t)
  | _ => ([], t)

def lexDigits (t : Text) : Text × Text :=
  let int := t.span isDigitAscii
  let fraction := lexFraction int.2
  (int.1 ++ fraction.1, fraction.2)

def lexNumber (t : Text) : Text × Text :=
  match t with
  | '-' :: t' => ('-' :: (lexDigits t').1, (lexDigits t').2)
  | _ => lexDigits t

/-- What an escaped character stands for; most stand for themselves. -/
def unescape (c : Char) : Char :=
  if c = 'n' then '\n' else if c = 't' then '\t' else if c = 'r' then '\r' else c

/-- The value of a string from behind its opening quote, with where it ends. -/
def lexString : Pos → Text → Except ParseError (Text × Pos × Text)
  | p, [] => .error (p.err "unterminated string literal".toList)
  | p, '"' :: t => .ok ([], p.bump '"', t)
  | p, ['\\'] => .error ((p.bump '\\').err "unterminated string literal".toList)
  | p, '\\' :: c :: t => do
    let (s, q, rest) ← lexString ((p.bump '\\').bump c) t
    return (unescape c :: s, q, rest)
  | p, c :: t => do
    let (s, q, rest) ← lexString (p.bump c) t
    return (c :: s, q, rest)

def symbol (c : Char) : Option Tok :=
  match c with
  | '\x7b' => some .lBrace
  | '\x7d' => some .rBrace
  | '[' => some .lBracket
  | ']' => some .rBracket
  | ':' => some .colon
  | ',' => some .comma
  | '@' => some .atSign
  | '=' => some .eq
  | _ => none

/-- One token from a source that starts with `c`. -/
def lexToken (p : Pos) (c : Char) (t : Text) : Except ParseError (Tok × Pos × Text) :=
  if isIdentStart c then
    let s := lexIdent (c :: t)
    .ok (.ident s.1, p.bumpAll s.1, s.2)
  else if isDigitAscii c || (c = '-' && nextIsDigit t) then
    let s := lexNumber (c :: t)
    .ok (.number s.1, p.bumpAll s.1, s.2)
  else if c = '"' then (lexString (p.bump c) t).map fun r => (.str r.1, r.2)
  else if c = '-' ∧ t.head? = some '>' then .ok (.arrow, (p.bump '-').bump '>', t.tail)
  else
    match symbol c with
    | some k => .ok (k, p.bump c, t)
    | none => .error (p.err ("unexpected character '".toList ++ [c] ++ "'".toList))

/-- The tokens of a source. The fuel is one more than its length: every token takes a character. -/
def run : Nat → Pos → Text → Except ParseError (List (Located Tok))
  | 0, p, _ => .error (p.err "out of fuel".toList)
  | fuel + 1, p, t => do
    let (p, t) ← skipTrivia .top p t
    match t with
    | [] => return []
    | c :: t =>
      let (tok, q, t) ← lexToken p c t
      let toks ← run fuel q t
      return ⟨tok, p.line, p.col⟩ :: toks

def lex (src : Text) : Except ParseError (List (Located Tok)) := run (src.length + 1) ⟨1, 1⟩ src

def parseDomain (source : Text) : Except ParseError DomainDef := do
  let tokens ← lex source
  parse tokens

theorem parseDomain_ok {source : Text} {d : DomainDef} :
    parseDomain source = .ok d ↔ ∃ toks, lex source = .ok toks ∧ parse toks = .ok d := by
  rw [parseDomain]
  cases lex source with
  | error e => exact iff_of_false nofun (by rintro ⟨toks, h, -⟩; cases h)
  | ok toks =>
    constructor
    · exact fun h => ⟨toks, rfl, h⟩
    · rintro ⟨toks', h, hparse⟩
      cases h
      exact hparse

/-! Identifiers are words. -/

def IdentText (s : Text) : Prop := s.all isIdentChar = true ∧ ∃ c ∈ s.head?, isIdentStart c = true

theorem isIdentChar_of_start {c : Char} (h : isIdentStart c = true) : isIdentChar c = true := by
  rw [isIdentChar, ← isIdentStart, h, Bool.true_or]

theorem isDigit_of_identStart {c : Char} (h : isIdentStart c = true) : c.isDigit = false := by
  simp only [isIdentStart, isAlphaAscii, Bool.or_eq_true, Bool.and_eq_true, decide_eq_true_eq,
    Char.le_def, UInt32.le_iff_toNat_le] at h
  rw [Bool.eq_false_iff]
  intro hdigit
  simp only [Char.isDigit, ge_iff_le, Bool.and_eq_true, decide_eq_true_eq,
    UInt32.le_iff_toNat_le] at hdigit
  have hnine : c.val.toNat ≤ 57 := hdigit.2
  rcases h with rfl | h | h
  · exact absurd hdigit (by decide)
  · have hlower : 97 ≤ c.val.toNat := h.1
    omega
  · have hupper : 65 ≤ c.val.toNat := h.1
    omega

theorem lexToken_ident {p q : Pos} {c : Char} {t rest s : Text}
    (h : lexToken p c t = .ok (.ident s, q, rest)) : IdentText s := by
  unfold lexToken at h
  split at h
  · rename_i hstart
    obtain ⟨hs, -⟩ := Prod.mk.inj (Except.ok.inj h)
    obtain rfl := Tok.ident.inj hs
    have hspan : (lexIdent (c :: t)).1 = c :: t.takeWhile isIdentChar := by
      rw [lexIdent, List.span_eq_takeWhile_dropWhile,
        List.takeWhile_cons_of_pos (isIdentChar_of_start hstart)]
    rw [hspan]
    refine ⟨?_, c, rfl, hstart⟩
    rw [List.all_cons, isIdentChar_of_start hstart, List.all_takeWhile]
    rfl
  split at h
  · cases h
  split at h
  · cases hstr : lexString (p.bump c) t with
    | error e => rw [hstr] at h; cases h
    | ok r => rw [hstr] at h; cases h
  split at h
  · cases h
  split at h
  · rename_i k hk
    obtain ⟨rfl, -⟩ := Prod.mk.inj (Except.ok.inj h)
    unfold symbol at hk
    split at hk <;> cases hk
  · cases h

/-! Numbers are decimal literals. -/

theorem allDigits_takeWhile (t : Text) : AllDigits (t.takeWhile isDigitAscii) :=
  List.all_eq_true.mp List.all_takeWhile

theorem takeWhile_ne_nil {t : Text} (h : nextIsDigit t = true) : t.takeWhile isDigitAscii ≠ [] := by
  cases t with
  | nil => cases h
  | cons c t =>
    have hc : isDigitAscii c = true := h
    rw [List.takeWhile_cons_of_pos hc]
    exact nofun

theorem lexFraction_digits (t : Text) :
    ∃ frac, AllDigits frac ∧ (lexFraction t).1 = if frac = [] then [] else '.' :: frac := by
  unfold lexFraction
  split
  · rename_i t'
    split
    · rename_i hnext
      have hne := takeWhile_ne_nil hnext
      refine ⟨t'.takeWhile isDigitAscii, allDigits_takeWhile t', ?_⟩
      rw [if_neg hne, List.span_eq_takeWhile_dropWhile]
    · exact ⟨[], nofun, rfl⟩
  · exact ⟨[], nofun, rfl⟩

theorem lexDigits_literal {t : Text} (h : nextIsDigit t = true) (neg : Bool) :
    ∃ l : DecimalLit, l.neg = neg ∧ (lexDigits t).1 = l.unsigned := by
  obtain ⟨frac, hfrac, heq⟩ := lexFraction_digits (t.span isDigitAscii).2
  refine ⟨⟨neg, t.takeWhile isDigitAscii, frac, takeWhile_ne_nil h, allDigits_takeWhile t, hfrac⟩, rfl, ?_⟩
  rw [lexDigits, DecimalLit.unsigned, DecimalLit.fracText]
  dsimp only
  rw [heq, List.span_eq_takeWhile_dropWhile]

theorem lexNumber_literal {c : Char} {t : Text}
    (h : (isDigitAscii c || (c = '-' && nextIsDigit t)) = true) :
    ∃ l : DecimalLit, (lexNumber (c :: t)).1 = l.text := by
  rw [Bool.or_eq_true, Bool.and_eq_true, decide_eq_true_eq] at h
  obtain hdigit | ⟨rfl, hnext⟩ := h
  · obtain ⟨l, hneg, hl⟩ := @lexDigits_literal (c :: t) hdigit false
    refine ⟨l, ?_⟩
    rw [DecimalLit.text, if_neg (by simp [hneg]), ← hl, lexNumber]
    intro t' heq
    obtain ⟨rfl, -⟩ := List.cons.inj heq
    exact absurd hdigit (by decide)
  · obtain ⟨l, hneg, hl⟩ := lexDigits_literal hnext true
    refine ⟨l, ?_⟩
    rw [DecimalLit.text, if_pos hneg, ← hl, lexNumber]

theorem lexToken_number {p q : Pos} {c : Char} {t rest s : Text}
    (h : lexToken p c t = .ok (.number s, q, rest)) : ∃ l : DecimalLit, s = l.text := by
  unfold lexToken at h
  split at h
  · cases h
  split at h
  · rename_i hnumber
    obtain ⟨hs, -⟩ := Prod.mk.inj (Except.ok.inj h)
    obtain rfl := Tok.number.inj hs
    exact lexNumber_literal hnumber
  split at h
  · cases hstr : lexString (p.bump c) t with
    | error e => rw [hstr] at h; cases h
    | ok r => rw [hstr] at h; cases h
  split at h
  · cases h
  split at h
  · rename_i k hk
    obtain ⟨rfl, -⟩ := Prod.mk.inj (Except.ok.inj h)
    unfold symbol at hk
    split at hk <;> cases hk
  · cases h

theorem run_cons {fuel : Nat} {p : Pos} {t : Text} {toks : List (Located Tok)}
    (h : run (fuel + 1) p t = .ok toks) :
    ∃ q rest, skipTrivia .top p t = .ok (q, rest) ∧ ((rest = [] ∧ toks = []) ∨
      ∃ c t' k q' rest' toks', rest = c :: t' ∧ lexToken q c t' = .ok (k, q', rest') ∧
        run fuel q' rest' = .ok toks' ∧ toks = ⟨k, q.line, q.col⟩ :: toks') := by
  rw [run] at h
  cases hskip : skipTrivia .top p t with
  | error e => rw [hskip] at h; cases h
  | ok r =>
    obtain ⟨q, rest⟩ := r
    refine ⟨q, rest, rfl, ?_⟩
    rw [hskip] at h
    cases rest with
    | nil => exact .inl ⟨rfl, (Except.ok.inj h).symm⟩
    | cons c t' =>
      right
      cases htok : lexToken q c t' with
      | error e => simp only [bind, Except.bind, htok] at h; cases h
      | ok r =>
        obtain ⟨k, q', rest'⟩ := r
        simp only [bind, Except.bind, htok] at h
        cases hrun : run fuel q' rest' with
        | error e => rw [hrun] at h; cases h
        | ok toks' =>
          rw [hrun] at h
          exact ⟨c, t', k, q', rest', toks', rfl, htok, hrun, (Except.ok.inj h).symm⟩

/-- What holds of every token that can be read holds of all tokens of a source. -/
theorem run_forall {P : Tok → Prop}
    (hP : ∀ p c t k q rest, lexToken p c t = .ok (k, q, rest) → P k) {fuel : Nat} {p : Pos} {t : Text}
    {toks : List (Located Tok)} (h : run fuel p t = .ok toks) : ∀ k ∈ toks.map Located.tok, P k := by
  induction fuel generalizing p t toks with
  | zero => cases h
  | succ fuel ih =>
    obtain ⟨q, rest, -, ⟨-, rfl⟩ | ⟨c, t', k, q', rest', toks', -, htok, hrun, rfl⟩⟩ := run_cons h
    · exact nofun
    · intro k' hk'
      rw [List.map_cons, List.mem_cons] at hk'
      obtain rfl | hk' := hk'
      · exact hP _ _ _ _ _ _ htok
      · exact ih hrun k' hk'

theorem lex_ident {source s : Text} {toks : List (Located Tok)} (h : lex source = .ok toks)
    (hs : .ident s ∈ toks.map Located.tok) : IdentText s :=
  run_forall (P := fun k => ∀ s, k = .ident s → IdentText s)
    (fun _ _ _ _ _ _ htok _ hk => lexToken_ident (hk ▸ htok)) h _ hs s rfl

theorem lex_number {source s : Text} {toks : List (Located Tok)} (h : lex source = .ok toks)
    (hs : .number s ∈ toks.map Located.tok) : ∃ l : DecimalLit, s = l.text :=
  run_forall (P := fun k => ∀ s, k = .number s → ∃ l : DecimalLit, s = l.text)
    (fun _ _ _ _ _ _ htok _ hk => lexToken_number (hk ▸ htok)) h _ hs s rfl

theorem Field.name_mem_yield (f : Field Text Text) : .ident f.name ∈ f.yield tokens := by
  simp [Field.yield, tokens]

/-- The names in a parsed domain are identifiers of its source. -/
theorem parse_names {toks : List (Located Tok)} {d : DomainDef} (h : parse toks = .ok d) :
    .ident d.source ∈ toks.map Located.tok ∧ ∀ f ∈ d.fields, .ident f.name ∈ toks.map Located.tok := by
  obtain ⟨t, ht, -, rfl⟩ := parse_ok.mp h
  rw [← ht]
  refine ⟨by simp [DomainDecl.yield, DomainDecl.fold, tokens], ?_⟩
  intro f hf
  obtain ⟨m, hm, hmf⟩ := List.mem_filterMap.mp hf
  cases m with
  | field tf =>
    obtain rfl := Option.some.inj hmf
    have hmember : .ident tf.name ∈ t.members.flatMap (DomainMember.yield tokens) :=
      List.mem_flatMap.mpr ⟨_, hm, tf.name_mem_yield⟩
    exact List.mem_append_left _ (List.mem_append_right _ hmember)
  | _ => cases hmf

theorem parse_name {toks : List (Located Tok)} {d : DomainDef} (h : parse toks = .ok d) :
    .ident d.name ∈ toks.map Located.tok := by
  obtain ⟨t, ht, -, rfl⟩ := parse_ok.mp h
  rw [← ht]
  simp [DomainDecl.yield, DomainDecl.fold, tokens]

theorem Field.number_mem_yield {f : Field Text Text} {e : Example Text Text} {n : Text}
    (he : e ∈ f.examples.getD []) (hn : e.value = .number n) : .number n ∈ f.yield tokens := by
  cases hes : f.examples with
  | none => rw [hes] at he; cases he
  | some es =>
    rw [hes] at he
    have hyield : Tok.number n ∈ e.yield tokens := by simp [Example.yield, hn, ExampleValue.yield, tokens]
    have hexamples : Tok.number n ∈ es.flatMap (Example.yield tokens) :=
      List.mem_flatMap.mpr ⟨e, he, hyield⟩
    simp [Field.yield, hes, examplesYield, hexamples]

/-- A value that is not a string is a number of the source. -/
theorem parse_numbers {toks : List (Located Tok)} {d : DomainDef} (h : parse toks = .ok d) :
    ∀ f ∈ d.fields, ∀ e ∈ f.examples, e.valueIsString = false → .number e.value ∈ toks.map Located.tok := by
  obtain ⟨t, ht, -, rfl⟩ := parse_ok.mp h
  rw [← ht]
  intro f hf e he hvalue
  obtain ⟨m, hm, hmf⟩ := List.mem_filterMap.mp hf
  cases m with
  | field tf =>
    obtain rfl := Option.some.inj hmf
    obtain ⟨te, hte, rfl⟩ := List.mem_map.mp he
    cases hv : te.value with
    | string s =>
      rw [Example.def_, hv] at hvalue
      cases hvalue
    | number n =>
      have hname : (te.def_ verbatim).value = n := by
        rw [Example.def_, hv]
        rfl
      rw [hname]
      have hmember : .number n ∈ t.members.flatMap (DomainMember.yield tokens) :=
        List.mem_flatMap.mpr ⟨_, hm, Field.number_mem_yield hte hv⟩
      exact List.mem_append_left _ (List.mem_append_right _ hmember)
  | _ => cases hmf

theorem parseDomain_numbers {source : Text} {d : DomainDef} (h : parseDomain source = .ok d) :
    ∀ f ∈ d.fields, ∀ e ∈ f.examples, e.valueIsString = false → ∃ l : DecimalLit, e.value = l.text := by
  obtain ⟨toks, hlex, hparse⟩ := parseDomain_ok.mp h
  exact fun f hf e he hvalue => lex_number hlex (parse_numbers hparse f hf e he hvalue)

theorem parseDomain_names {source : Text} {d : DomainDef} (h : parseDomain source = .ok d) :
    IdentText d.source ∧ ∀ f ∈ d.fields, IdentText f.name := by
  obtain ⟨toks, hlex, hparse⟩ := parseDomain_ok.mp h
  obtain ⟨hsource, hfields⟩ := parse_names hparse
  exact ⟨lex_ident hlex hsource, fun f hf => lex_ident hlex (hfields f hf)⟩

theorem parseDomain_name {source : Text} {d : DomainDef} (h : parseDomain source = .ok d) :
    IdentText d.name := by
  obtain ⟨toks, hlex, hparse⟩ := parseDomain_ok.mp h
  exact lex_ident hlex (parse_name hparse)

/-- A domain with the one field `title`. -/
def titled (name : Text) : DomainDef :=
  ⟨name, "books".toList, "main".toList, [], [⟨"title".toList, .string, false, false, none, []⟩],
    [], [], [], []⟩

def bookSource : Text := "domain book from books@main \x7b field title: string \x7d".toList

theorem bookSource_parsed : parseDomain bookSource = .ok (titled "book".toList) := by
  refine parseDomain_ok.mpr ⟨(lex bookSource).toOption.getD [], ?_, ?_⟩
  · decide
  · decide

end Onisin.Domain
