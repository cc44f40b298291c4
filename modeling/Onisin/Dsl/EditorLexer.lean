import Onisin.Dsl.Editor
import Mathlib.Data.List.TakeWhile

/-!
The two lexers of the domain language side by side. What one takes for a comment or for white
space the other may not: a line comment ends at a carriage return for the editor only, and the
byte order mark is white space for the editor only.
-/

set_option autoImplicit false

namespace Onisin.Domain
open Lib

/-- The token that a lexeme is, unless it is hidden. -/
def Lexeme.tok : Lexeme → Option Tok
  | .kw w => some (.ident w)
  | .id w => some (.ident w)
  | .number raw => some (.number raw)
  | .string raw => some (.str (replaceEscapes unescape raw))
  | .sym s => some (tokens.sym s)
  | _ => none

/-! Numbers. -/

theorem matchDigits_eq (t : Text) :
    matchDigits t = if nextIsDigit t then some (t.span isDigitAscii) else none := by
  cases t with
  | nil => rfl
  | cons c t =>
    have hascii : isDigitAscii = Char.isDigit := rfl
    rw [matchDigits, nextIsDigit, hascii]
    cases hc : c.isDigit <;> simp [List.span_eq_takeWhile_dropWhile, hc]

theorem matchFraction_eq (t : Text) : matchFraction t = lexFraction t := by
  unfold matchFraction
  split
  · rename_i t'
    rw [matchDigits_eq, lexFraction]
    cases nextIsDigit t' <;> rfl
  · rename_i hdot
    rw [lexFraction]
    exact hdot

theorem matchUnsigned_eq (t : Text) :
    matchUnsigned t = if nextIsDigit t then some (lexDigits t) else none := by
  rw [matchUnsigned, matchDigits_eq]
  cases nextIsDigit t with
  | false => rfl
  | true => simp only [if_true, Option.map_some, matchFraction_eq, lexDigits]

theorem matchNumber_eq (c : Char) (t : Text) :
    matchNumber (c :: t) =
      if isDigitAscii c || (c = '-' && nextIsDigit t) then some (lexNumber (c :: t)) else none := by
  by_cases hc : c = '-'
  · subst hc
    have hdigit : isDigitAscii '-' = false := by decide
    rw [matchNumber, matchUnsigned_eq, hdigit, lexNumber]
    cases nextIsDigit t <;> rfl
  · have hmatch : matchNumber (c :: t) = matchUnsigned (c :: t) := by
      rw [matchNumber]
      exact fun t' heq => hc (List.cons.inj heq).1
    have hlex : lexNumber (c :: t) = lexDigits (c :: t) := by
      rw [lexNumber]
      exact fun t' heq => hc (List.cons.inj heq).1
    have hnext : (isDigitAscii c || (c = '-' && nextIsDigit t)) = nextIsDigit (c :: t) := by
      simp [hc, nextIsDigit]
    rw [hmatch, matchUnsigned_eq, hlex, hnext]

/-! Strings. -/

theorem replaceEscapes_plain (escape : Char → Char) {c : Char} (h : c ≠ '\\') (t : Text) :
    replaceEscapes escape (c :: t) = c :: replaceEscapes escape t := by
  rw [replaceEscapes]
  exact fun d t' hc _ => h hc

theorem lexString_of_match {t raw rest : Text} (h : matchString t = some (raw, rest)) (p : Pos) :
    ∃ q, lexString p t = .ok (replaceEscapes unescape raw, q, rest) := by
  fun_induction matchString t generalizing raw p with
  | case1 => cases h
  | case2 t =>
    cases h
    exact ⟨p.bump '"', by rw [lexString, replaceEscapes]⟩
  | case3 => cases h
  | case4 c t hline => cases h
  | case5 c t hline ih =>
    obtain ⟨⟨raw', rest'⟩, hmatch, heq⟩ := Option.map_eq_some_iff.mp h
    cases heq
    obtain ⟨q, hlex⟩ := ih hmatch ((p.bump '\\').bump c)
    exact ⟨q, by rw [lexString, hlex, replaceEscapes]; rfl⟩
  | case6 c t hquote hend hescape ih =>
    obtain ⟨⟨raw', rest'⟩, hmatch, heq⟩ := Option.map_eq_some_iff.mp h
    cases heq
    obtain ⟨q, hlex⟩ := ih hmatch (p.bump c)
    have hslash : c ≠ '\\' := by
      intro hc
      cases t with
      | nil => exact hend hc rfl
      | cons d t => exact hescape d t hc rfl
    refine ⟨q, ?_⟩
    rw [lexString, hlex, replaceEscapes_plain unescape hslash]
    · rfl
    · exact hquote
    · exact fun hc _ => hslash hc
    · exact fun d t' hc _ => hslash hc

/-! Visible lexemes are tokens. -/

/-- A character that neither white space nor a comment starts with. -/
def StartsToken (c : Char) : Prop := isWhitespace c = false ∧ c ≠ '/'

theorem startsToken_identChar {c : Char} (h : isIdentChar c = true) : StartsToken c := by
  refine ⟨?_, ?_⟩
  · rw [Bool.eq_false_iff]
    intro hspace
    simp only [isIdentChar, isAlphaAscii, isDigitAscii, Char.isDigit, Bool.or_eq_true, Bool.and_eq_true,
      decide_eq_true_eq, Char.le_def, ge_iff_le, UInt32.le_iff_toNat_le] at h
    simp only [isWhitespace, Bool.or_eq_true, Bool.and_eq_true, decide_eq_true_eq, beq_iff_eq] at hspace
    have hval : c.toNat = c.val.toNat := rfl
    have hcode : c.val.toNat = 95 ∨ (97 ≤ c.val.toNat ∧ c.val.toNat ≤ 122) ∨
        (65 ≤ c.val.toNat ∧ c.val.toNat ≤ 90) ∨ (48 ≤ c.val.toNat ∧ c.val.toNat ≤ 57) := by
      rcases h with (rfl | h | h) | h
      · exact .inl rfl
      · exact .inr (.inl h)
      · exact .inr (.inr (.inl h))
      · exact .inr (.inr (.inr h))
    omega
  · rintro rfl
    exact absurd h (by decide)

theorem skipTrivia_token {c : Char} (h : StartsToken c) (p : Pos) (t : Text) :
    skipTrivia .top p (c :: t) = .ok (p, c :: t) := by
  rw [skipTrivia, if_neg (by simp [h.1]), if_neg (by simp [h.2]), if_neg (by simp [h.2])]

theorem lexToken_sym {c : Char} {t rest : Text} {s : Sym} (h : matchSym (c :: t) = some (s, rest))
    (p : Pos) : StartsToken c ∧ ∃ q, lexToken p c t = .ok (tokens.sym s, q, rest) := by
  unfold matchSym at h
  split at h
  case h_10 => cases h
  all_goals
    rename_i heq
    cases heq
    cases h
    exact ⟨⟨by decide, by decide⟩, _, rfl⟩

theorem lexToken_number_of_match {c : Char} {t : Text} {r : Text × Text}
    (h : matchNumber (c :: t) = some r) (p : Pos) :
    StartsToken c ∧ ∃ q, lexToken p c t = .ok (.number r.1, q, r.2) := by
  rw [matchNumber_eq] at h
  split at h
  · rename_i hnumber
    cases h
    have hstart : isIdentStart c = false := by
      rw [Bool.eq_false_iff]
      intro hstart
      have hdigit := isDigit_of_identStart hstart
      have hminus : c ≠ '-' := by
        rintro rfl
        exact absurd hstart (by decide)
      simp [isDigitAscii, hdigit, hminus] at hnumber
    refine ⟨?_, p.bumpAll (lexNumber (c :: t)).1, ?_⟩
    · rw [Bool.or_eq_true, Bool.and_eq_true, decide_eq_true_eq] at hnumber
      obtain hdigit | ⟨rfl, -⟩ := hnumber
      · exact startsToken_identChar (by rw [isIdentChar, hdigit, Bool.or_true])
      · exact ⟨by decide, by decide⟩
    · rw [lexToken, if_neg (by simp [hstart]), if_pos hnumber]
  · cases h

/-- A visible lexeme is the token that stands there. -/
theorem lexToken_of_lexeme {c : Char} {t rest : Text} {l : Lexeme}
    (h : nextLexeme (c :: t) = some (l, rest)) (hl : l.hidden = false) (p : Pos) :
    StartsToken c ∧ ∃ k q, l.tok = some k ∧ lexToken p c t = .ok (k, q, rest) := by
  rw [nextLexeme] at h
  split at h
  · cases h
    cases hl
  split at h
  · rename_i hstart
    have hword : lexToken p c t =
        .ok (.ident (lexIdent (c :: t)).1, p.bumpAll (lexIdent (c :: t)).1, (lexIdent (c :: t)).2) := by
      rw [lexToken, if_pos hstart]
    obtain ⟨hl, rfl⟩ := Prod.mk.inj (Option.some.inj h)
    refine ⟨startsToken_identChar (isIdentChar_of_start hstart), _, _, ?_, hword⟩
    rw [← hl]
    split <;> rfl
  rename_i hstart
  split at h
  · rename_i hquote
    subst hquote
    obtain ⟨⟨raw, rest'⟩, hmatch, heq⟩ := Option.map_eq_some_iff.mp h
    cases heq
    obtain ⟨q, hlex⟩ := lexString_of_match hmatch (p.bump '"')
    refine ⟨⟨by decide, by decide⟩, _, q, rfl, ?_⟩
    have htoken : lexToken p '"' t = (lexString (p.bump '"') t).map fun r => (.str r.1, r.2) := rfl
    rw [htoken, hlex]
    rfl
  split at h
  · obtain ⟨body, -, heq⟩ := Option.map_eq_some_iff.mp h
    cases heq
    cases hl
  split at h
  · cases h
    cases hl
  split at h
  · rename_i r hnumber
    cases h
    obtain ⟨hc, q, hlex⟩ := lexToken_number_of_match hnumber p
    exact ⟨hc, _, q, rfl, hlex⟩
  · obtain ⟨⟨s, rest'⟩, hsym, heq⟩ := Option.map_eq_some_iff.mp h
    cases heq
    obtain ⟨hc, q, hlex⟩ := lexToken_sym hsym p
    exact ⟨hc, _, q, rfl, hlex⟩

/-! Hidden lexemes are trivia, in and behind a line comment. -/

def byteOrderMark : Char := Char.ofNat 0xFEFF

theorem isWhitespace_of_js {c : Char} (h : isJsSpace c = true) (hmark : c ≠ byteOrderMark) :
    isWhitespace c = true := by
  have hcode : c.toNat ≠ 0xFEFF := by
    intro hcode
    exact hmark (by rw [byteOrderMark, ← hcode, Char.ofNat_toNat])
  simp only [isJsSpace, isWhitespace, Bool.or_eq_true, Bool.and_eq_true, decide_eq_true_eq, beq_iff_eq] at h ⊢
  omega

theorem skipTrivia_spaces {u : Text} (h : ∀ c ∈ u, isWhitespace c = true) (p : Pos) (rest : Text) :
    ∃ q, skipTrivia .top p (u ++ rest) = skipTrivia .top q rest := by
  induction u generalizing p with
  | nil => exact ⟨p, rfl⟩
  | cons c u ih =>
    obtain ⟨q, hq⟩ := ih (fun c hc => h c (List.mem_cons_of_mem _ hc)) (p.bump c)
    exact ⟨q, by rw [List.cons_append, skipTrivia, if_pos (h c List.mem_cons_self), hq]⟩

/-- A line comment goes on up to a newline. -/
theorem skipTrivia_line {u : Text} (h : '\n' ∉ u) (p : Pos) (rest : Text) :
    ∃ q, skipTrivia .line p (u ++ rest) = skipTrivia .line q rest := by
  induction u generalizing p with
  | nil => exact ⟨p, rfl⟩
  | cons c u ih =>
    rw [List.mem_cons, not_or] at h
    obtain ⟨q, hq⟩ := ih h.2 (p.bump c)
    exact ⟨q, by rw [List.cons_append, skipTrivia, if_neg (Ne.symm h.1), hq]⟩

theorem skipTrivia_block {t body : Text} (h : Text.beforeFirst commentEnd t = some body) (p : Pos) :
    ∃ q, skipTrivia .block p t = skipTrivia .top q (t.drop (body.length + commentEnd.length)) := by
  induction t generalizing p body with
  | nil => cases h
  | cons c t ih =>
    rw [Text.beforeFirst] at h
    split at h
    · rename_i hend
      obtain ⟨rest, hrest⟩ := hend
      cases h
      cases hrest
      exact ⟨(p.bump '*').bump '/', rfl⟩
    · rename_i hend
      obtain ⟨body', hbody, rfl⟩ := Option.map_eq_some_iff.mp h
      obtain ⟨q, hq⟩ := ih hbody (p.bump c)
      have hmode : ¬(c = '*' ∧ t.head? = some '/') := by
        rintro ⟨rfl, hhead⟩
        obtain ⟨t', rfl⟩ : ∃ t', t = '/' :: t' := by
          cases t with
          | nil => cases hhead
          | cons d t => exact ⟨t, by rw [Option.some.inj hhead]⟩
        exact hend ⟨t', rfl⟩
      refine ⟨q, ?_⟩
      rw [skipTrivia, if_neg hmode, hq, List.length_cons, Nat.add_right_comm, List.drop_succ_cons]

/-- Whether the other lexer is in a line comment behind a lexeme. -/
def inLineAfter (inLine : Bool) : Lexeme → Bool
  | .ws t => inLine && !t.contains '\n'
  | .slComment _ => true
  | _ => inLine

def triviaMode (inLine : Bool) : Trivia := if inLine then .line else .top

/-- What a line comment goes on over is hidden, and has no newline inside. -/
def SwallowsHidden (inLine : Bool) : Lexeme → Prop
  | .ws _ => True
  | .slComment _ => True
  | .mlComment body => inLine = true → '\n' ∉ body
  | _ => inLine = false

instance (inLine : Bool) : (l : Lexeme) → Decidable (SwallowsHidden inLine l)
  | .ws _ | .slComment _ => .isTrue trivial
  | .mlComment body => inferInstanceAs (Decidable (inLine = true → '\n' ∉ body))
  | .kw _ | .id _ | .number _ | .string _ | .sym _ => inferInstanceAs (Decidable (inLine = false))

/-- White space outside of line comments has no byte order mark. -/
def FreeOfMark (inLine : Bool) : Lexeme → Prop
  | .ws t => byteOrderMark ∉ if inLine then t.dropWhile (· ≠ '\n') else t
  | _ => True

instance (inLine : Bool) : (l : Lexeme) → Decidable (FreeOfMark inLine l)
  | .ws t => inferInstanceAs (Decidable (byteOrderMark ∉ if inLine then t.dropWhile (· ≠ '\n') else t))
  | .mlComment _ | .slComment _ | .kw _ | .id _ | .number _ | .string _ | .sym _ => .isTrue trivial

/-- A property of every lexeme, where the other lexer has it. -/
def Along (P : Bool → Lexeme → Prop) : Bool → List Lexeme → Prop
  | _, [] => True
  | inLine, l :: ls => P inLine l ∧ Along P (inLineAfter inLine l) ls

instance Along.decidable {P : Bool → Lexeme → Prop} [∀ inLine l, Decidable (P inLine l)] :
    (inLine : Bool) → (ls : List Lexeme) → Decidable (Along P inLine ls)
  | _, [] => .isTrue trivial
  | inLine, l :: ls =>
    have := Along.decidable (P := P) (inLineAfter inLine l) ls
    inferInstanceAs (Decidable (P inLine l ∧ Along P (inLineAfter inLine l) ls))

theorem beforeFirst_append {pat t body : Text} (h : Text.beforeFirst pat t = some body) :
    t = body ++ pat ++ t.drop (body.length + pat.length) := by
  induction t generalizing body with
  | nil =>
    rw [Text.beforeFirst] at h
    split at h
    · cases h
      rename_i hpat
      rw [hpat]
      rfl
    · cases h
  | cons c t ih =>
    rw [Text.beforeFirst] at h
    split at h
    · rename_i hpat
      cases h
      obtain ⟨rest, hrest⟩ := hpat
      simp [← hrest]
    · obtain ⟨body', hbody, rfl⟩ := Option.map_eq_some_iff.mp h
      rw [List.length_cons, Nat.add_right_comm, List.drop_succ_cons, List.cons_append, List.cons_append,
        ← ih hbody]

/-- What hidden lexemes are made of. -/
def HiddenText : Lexeme → Text → Text → Prop
  | .ws u, t, rest => t = u ++ rest ∧ ∀ d ∈ u, isJsSpace d = true
  | .mlComment body, t, rest => ∃ t', t = '/' :: '*' :: t' ∧
      Text.beforeFirst commentEnd t' = some body ∧ rest = t'.drop (body.length + commentEnd.length)
  | .slComment body, t, rest => t = '/' :: '/' :: (body ++ rest) ∧ '\n' ∉ body
  | _, _, _ => True

theorem head_tail {c : Char} {t : Text} (h : t.head? = some c) : t = c :: t.tail := by
  cases t with
  | nil => cases h
  | cons d t => rw [Option.some.inj h, List.tail_cons]

theorem nextLexeme_hidden {c : Char} {t rest : Text} {l : Lexeme}
    (h : nextLexeme (c :: t) = some (l, rest)) : HiddenText l (c :: t) rest := by
  rw [nextLexeme] at h
  split at h
  · rename_i hspace
    cases h
    refine ⟨by rw [List.cons_append, List.takeWhile_append_dropWhile], ?_⟩
    intro d hd
    obtain rfl | hd := List.mem_cons.mp hd
    · exact hspace
    · exact List.all_eq_true.mp List.all_takeWhile d hd
  split at h
  · cases h
    split <;> trivial
  split at h
  · obtain ⟨r, -, heq⟩ := Option.map_eq_some_iff.mp h
    cases heq
    trivial
  split at h
  · rename_i hopen
    obtain ⟨rfl, hhead⟩ := hopen
    obtain ⟨body, hbody, heq⟩ := Option.map_eq_some_iff.mp h
    cases heq
    exact ⟨t.tail, by rw [← head_tail hhead], hbody, rfl⟩
  split at h
  · rename_i hopen
    obtain ⟨rfl, hhead⟩ := hopen
    cases h
    refine ⟨by rw [List.takeWhile_append_dropWhile, ← head_tail hhead], fun hmem => ?_⟩
    exact absurd (List.all_eq_true.mp List.all_takeWhile _ hmem) (by decide)
  split at h
  · cases h
    trivial
  · obtain ⟨r, -, heq⟩ := Option.map_eq_some_iff.mp h
    cases heq
    trivial

/-- A newline in the white space behind a line comment ends it. -/
theorem dropWhile_newline {u : Text} (h : '\n' ∈ u) :
    ∃ u₁ u₂, u = u₁ ++ '\n' :: u₂ ∧ '\n' ∉ u₁ ∧ u.dropWhile (· ≠ '\n') = '\n' :: u₂ := by
  obtain ⟨u₁, u₂, rfl, hu₁⟩ := List.eq_append_cons_of_mem h
  refine ⟨u₁, u₂, rfl, hu₁, ?_⟩
  rw [List.dropWhile_append_of_pos, List.dropWhile_cons_of_neg (by simp)]
  intro c hc
  exact decide_eq_true fun heq => hu₁ (heq ▸ hc)

/-- A hidden lexeme is skipped, if the other lexer sees it as one. -/
theorem skipTrivia_hidden {l : Lexeme} {t rest : Text} (h : HiddenText l t rest) (hl : l.hidden = true)
    {inLine : Bool} (hswallow : SwallowsHidden inLine l) (hmark : FreeOfMark inLine l) (p : Pos) :
    ∃ q, skipTrivia (triviaMode inLine) p t = skipTrivia (triviaMode (inLineAfter inLine l)) q rest := by
  cases l with
  | ws u =>
    obtain ⟨rfl, hspace⟩ := h
    cases inLine with
    | false =>
      refine skipTrivia_spaces (fun c hc => ?_) p rest
      exact isWhitespace_of_js (hspace c hc) fun heq => hmark (heq ▸ hc)
    | true =>
      by_cases hnewline : '\n' ∈ u
      · obtain ⟨u₁, u₂, rfl, hu₁, hdrop⟩ := dropWhile_newline hnewline
        have hmark' : byteOrderMark ∉ '\n' :: u₂ := hdrop ▸ hmark
        obtain ⟨q₁, hq₁⟩ := skipTrivia_line hu₁ p ('\n' :: (u₂ ++ rest))
        obtain ⟨q₂, hq₂⟩ := @skipTrivia_spaces u₂ (fun c hc => isWhitespace_of_js (hspace c (by simp [hc]))
          fun heq => hmark' (heq ▸ List.mem_cons_of_mem _ hc)) (q₁.bump '\n') rest
        refine ⟨q₂, ?_⟩
        have hmode : triviaMode (inLineAfter true (.ws (u₁ ++ '\n' :: u₂))) = .top := by
          simp [inLineAfter, triviaMode]
        rw [hmode, List.append_assoc, List.cons_append, ← hq₂]
        exact hq₁
      · have hmode : triviaMode (inLineAfter true (.ws u)) = .line := by
          simp [inLineAfter, triviaMode, hnewline]
        rw [hmode]
        exact skipTrivia_line hnewline p rest
  | mlComment body =>
    obtain ⟨t', rfl, hbody, rfl⟩ := h
    cases inLine with
    | false =>
      obtain ⟨q, hq⟩ := skipTrivia_block hbody ((p.bump '/').bump '*')
      exact ⟨q, hq⟩
    | true =>
      have htext := beforeFirst_append hbody
      have hline : '\n' ∉ '/' :: '*' :: (body ++ commentEnd) := by
        have hbody := hswallow rfl
        simp [commentEnd, hbody]
      obtain ⟨q, hq⟩ := skipTrivia_line hline p (t'.drop (body.length + commentEnd.length))
      refine ⟨q, ?_⟩
      rw [List.cons_append, List.cons_append, ← htext] at hq
      exact hq
  | slComment body =>
    obtain ⟨rfl, hbody⟩ := h
    have hline : ∀ p : Pos, ∃ q, skipTrivia .line p ('/' :: (body ++ rest)) = skipTrivia .line q rest := by
      intro p
      exact @skipTrivia_line ('/' :: body) (by simp [hbody]) p rest
    cases inLine with
    | false => exact hline (p.bump '/')
    | true => exact hline (p.bump '/')
  | _ => cases hl

theorem skipTrivia_mark {u : Text} (hspace : ∀ c ∈ u, isJsSpace c = true) (hmark : byteOrderMark ∈ u)
    (p : Pos) (rest : Text) : ∃ q rest', skipTrivia .top p (u ++ rest) = .ok (q, byteOrderMark :: rest') := by
  obtain ⟨u₁, u₂, rfl, hu₁⟩ := List.eq_append_cons_of_mem hmark
  obtain ⟨q, hq⟩ := @skipTrivia_spaces u₁ (fun c hc => isWhitespace_of_js (hspace c (by simp [hc]))
    fun heq => hu₁ (heq ▸ hc)) p (byteOrderMark :: (u₂ ++ rest))
  refine ⟨q, u₂ ++ rest, ?_⟩
  rw [List.append_assoc, List.cons_append, hq]
  exact skipTrivia_token ⟨by decide, by decide⟩ q _

/-- A byte order mark outside of comments stops the other lexer. -/
theorem skipTrivia_marked {l : Lexeme} {t rest : Text} (h : HiddenText l t rest) {inLine : Bool}
    (hmark : ¬FreeOfMark inLine l) (p : Pos) :
    ∃ q rest', skipTrivia (triviaMode inLine) p t = .ok (q, byteOrderMark :: rest') := by
  cases l with
  | ws u =>
    obtain ⟨rfl, hspace⟩ := h
    cases inLine with
    | false => exact skipTrivia_mark hspace (not_not.mp hmark) p rest
    | true =>
      have hmem : byteOrderMark ∈ u.dropWhile (· ≠ '\n') := not_not.mp hmark
      by_cases hnewline : '\n' ∈ u
      · obtain ⟨u₁, u₂, rfl, hu₁, hdrop⟩ := dropWhile_newline hnewline
        rw [hdrop, List.mem_cons] at hmem
        obtain ⟨q, hq⟩ := skipTrivia_line hu₁ p ('\n' :: (u₂ ++ rest))
        obtain ⟨q', rest', hq'⟩ := @skipTrivia_mark u₂ (fun c hc => hspace c (by simp [hc]))
          (hmem.resolve_left (by decide)) (q.bump '\n') rest
        refine ⟨q', rest', ?_⟩
        rw [List.append_assoc, List.cons_append, ← hq']
        exact hq
      · have hnone : u.dropWhile (· ≠ '\n') = [] :=
          List.dropWhile_eq_nil_iff.mpr fun c hc => decide_eq_true fun heq => hnewline (heq ▸ hc)
        rw [hnone] at hmem
        cases hmem
  | _ => exact absurd trivial hmark

/-! Whole sources. -/

/-- The rest of a run, from inside a line comment or outside of it. -/
def runFrom (inLine : Bool) (fuel : Nat) (p : Pos) (t : Text) : Except ParseError (List (Located Tok)) := do
  let (p, t) ← skipTrivia (triviaMode inLine) p t
  match t with
  | [] => return []
  | c :: t =>
    let (tok, q, t) ← lexToken p c t
    let toks ← run fuel q t
    return ⟨tok, p.line, p.col⟩ :: toks

theorem run_eq_runFrom (fuel : Nat) (p : Pos) (t : Text) : run (fuel + 1) p t = runFrom false fuel p t := rfl

theorem runFrom_token {c : Char} (hc : StartsToken c) {p q : Pos} {t rest : Text} {k : Tok}
    (h : lexToken p c t = .ok (k, q, rest)) (fuel : Nat) :
    runFrom false (fuel + 1) p (c :: t) =
      (runFrom false fuel q rest).map fun toks => ⟨k, p.line, p.col⟩ :: toks := by
  have hskip : skipTrivia (triviaMode false) p (c :: t) = .ok (p, c :: t) := skipTrivia_token hc p t
  rw [← run_eq_runFrom fuel q rest, runFrom, hskip]
  simp only [bind, Except.bind, h]
  cases run (fuel + 1) q rest <;> rfl

theorem runFrom_lexemes {n : Nat} {t : Text} {ls : List Lexeme} (h : lexemes n t = some ls) {inLine : Bool}
    (hswallow : Along SwallowsHidden inLine ls) {fuel : Nat} (hfuel : n ≤ fuel + 1) (p : Pos) :
    (Along FreeOfMark inLine ls → ∃ toks, runFrom inLine fuel p t = .ok toks ∧
      toks.map Located.tok = ls.filterMap Lexeme.tok) ∧
    ((∃ toks, runFrom inLine fuel p t = .ok toks) → Along FreeOfMark inLine ls) := by
  induction n generalizing t ls inLine fuel p with
  | zero => cases h
  | succ n ih =>
    cases t with
    | nil =>
      cases h
      have hempty : runFrom inLine fuel p [] = .ok [] := by cases inLine <;> rfl
      exact ⟨fun _ => ⟨[], hempty, rfl⟩, fun _ => trivial⟩
    | cons c t =>
      rw [lexemes] at h
      obtain ⟨⟨l, rest⟩, hnext, h⟩ := Option.bind_eq_some_iff.mp h
      obtain ⟨ls', hmore, h⟩ := Option.bind_eq_some_iff.mp h
      cases h
      obtain ⟨hl, hls⟩ := hswallow
      cases hhidden : l.hidden with
      | true =>
        have hnone : l.tok = none := by cases l <;> first | rfl | cases hhidden
        have htext := nextLexeme_hidden hnext
        by_cases hmark : FreeOfMark inLine l
        · obtain ⟨q, hq⟩ := skipTrivia_hidden htext hhidden hl hmark p
          have hrun : runFrom inLine fuel p (c :: t) = runFrom (inLineAfter inLine l) fuel q rest := by
            rw [runFrom, hq, runFrom]
          obtain ⟨hread, hfree⟩ := ih hmore hls (by omega : n ≤ fuel + 1) q
          rw [hrun, List.filterMap_cons_none hnone]
          exact ⟨fun h => hread h.2, fun h => ⟨hmark, hfree h⟩⟩
        · obtain ⟨q, rest', hq⟩ := skipTrivia_marked htext hmark p
          refine ⟨fun h => absurd h.1 hmark, ?_⟩
          rintro ⟨toks, htoks⟩
          rw [runFrom, hq] at htoks
          cases htoks
      | false =>
        obtain ⟨hc, k, q, htok, hlex⟩ := lexToken_of_lexeme hnext hhidden p
        obtain rfl : inLine = false := by cases l <;> first | exact hl | cases hhidden
        obtain ⟨m, rfl⟩ : ∃ m, n = m + 1 := by
          cases n with
          | zero => cases hmore
          | succ m => exact ⟨m, rfl⟩
        obtain ⟨fuel, rfl⟩ : ∃ f, fuel = f + 1 := ⟨fuel - 1, by omega⟩
        have hmode : inLineAfter false l = false := by cases l <;> first | rfl | cases hhidden
        rw [hmode] at hls
        obtain ⟨hread, hfree⟩ := ih hmore hls (by omega : m + 1 ≤ fuel + 1) q
        rw [runFrom_token hc hlex, List.filterMap_cons_some htok]
        have hfreel : FreeOfMark false l := by cases l <;> trivial
        constructor
        · rintro ⟨-, h⟩
          rw [hmode] at h
          obtain ⟨toks, htoks, hmap⟩ := hread h
          exact ⟨_, by rw [htoks]; rfl, by rw [List.map_cons, hmap]⟩
        · rintro ⟨toks, htoks⟩
          refine ⟨hfreel, ?_⟩
          rw [hmode]
          refine hfree ?_
          cases hrun : runFrom false fuel q rest with
          | error e => rw [hrun] at htoks; cases htoks
          | ok toks' => exact ⟨toks', rfl⟩

end Onisin.Domain
