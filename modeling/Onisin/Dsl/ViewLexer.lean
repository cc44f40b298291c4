import Onisin.Dsl.DomainLexer
import Onisin.Dsl.View

/-!
The tokenizer of the view language. It reads trivia, words, numbers and strings the way the
tokenizer of the domain language does, and has parentheses and dots beside.
-/

set_option autoImplicit false

namespace Onisin.View
open Lib
open Domain (Pos isIdentStart isDigitAscii nextIsDigit lexIdent lexNumber lexString skipTrivia)

def symbol (c : Char) : Option Tok :=
  match c with
  | '\x7b' => some .lBrace
  | '\x7d' => some .rBrace
  | '(' => some .lParen
  | ')' => some .rParen
  | '.' => some .dot
  | ':' => some .colon
  | ',' => some .comma
  | '=' => some .eq
  | _ => none

/-- One token from a source that starts with `c`. -/
def lexToken (p : Pos) (c : Char) (t : Text) : Except ParseError (Tok × Pos × Text) :=
  if isIdentStart c then
    let s := lexIdent (c :: t)
    .ok (.ident s.1, p.bumpAll s.1, s.2)
  else if isDigitAscii c || (c = '-' && nextIsDigit t) then
    let s := lexNumber (c :: t)
    .ok (.number s.1, p.bumpAll s.1, s.2)
  else if c = '"' then (lexString (p.bump c) t).map fun r => (.str r.1, r.2)
  else if c = '-' ∧ t.head? = some '>' then .ok (.arrow, (p.bump '-').bump '>', t.tail)
  else
    match symbol c with
    | some k => .ok (k, p.bump c, t)
    | none => .error (p.err ("unexpected character '".toList ++ [c] ++ "'".toList))

/-- The tokens of a source. The fuel is one more than its length: every token takes a character. -/
def run : Nat → Pos → Text → Except ParseError (List (Located Tok))
  | 0, p, _ => .error (p.err "out of fuel".toList)
  | fuel + 1, p, t => do
    let (p, t) ← skipTrivia .top p t
    match t with
    | [] => return []
    | c :: t =>
      let (tok, q, t) ← lexToken p c t
      let toks ← run fuel q t
      return ⟨tok, p.line, p.col⟩ :: toks

def lex (src : Text) : Except ParseError (List (Located Tok)) := run (src.length + 1) ⟨1, 1⟩ src

def parseView (source : Text) : Except ParseError ViewDef := do
  let tokens ← lex source
  parse tokens

end Onisin.View
