import Onisin.Lib.Decimal
import Mathlib.Data.Int.Log
import Mathlib.Data.Rat.Floor

/-!
Numbers as ECMAScript has them: a decimal text is rounded to a double, and a double is printed
with the fewest digits that are rounded back to it.
-/

set_option autoImplicit false

namespace Onisin.Lib

/-- The nearest integer, the even one of two. -/
def roundEven (q : Rat) : Int :=
  let n := ⌊q⌋
  if q - n < 1 / 2 then n
  else if 1 / 2 < q - n then n + 1
  else if n % 2 = 0 then n
  else n + 1

/-- The distance of the doubles around a positive number, as an exponent of two. -/
def doubleExponent (q : Rat) : Int := max (-1074) (Int.log 2 q - 52)

/-- The double next to a number that is not negative; one out of range is infinite. -/
def toDouble (q : Rat) : Option Rat :=
  if q = 0 then some 0
  else
    let e := doubleExponent q
    let x := roundEven (q / 2 ^ e) * (2 : Rat) ^ e
    if x < 2 ^ 1024 then some x else none

/-- Digits in front of a power of ten. -/
structure Scientific where
  digits : Nat
  exponent : Int
  deriving DecidableEq, Repr

def Scientific.value (s : Scientific) : Rat := s.digits * (10 : Rat) ^ s.exponent

/-- The two numbers of `k` digits around `x`, the nearer one first. -/
def scientificAround (x : Rat) (k : Nat) : List Scientific :=
  let e := Int.log 10 x + 1 - k
  let q := x / (10 : Rat) ^ e
  let n := ⌊q⌋₊
  if q - n ≤ 1 / 2 then [⟨n, e⟩, ⟨n + 1, e⟩] else [⟨n + 1, e⟩, ⟨n, e⟩]

/-- The digits of a positive double: as few as are rounded to it. Seventeen are always enough. -/
def shortest (x : Rat) : Scientific :=
  (((List.range' 1 17).flatMap (scientificAround x)).find? fun s => toDouble s.value = some x).getD ⟨0, 0⟩

def stripZeros (ds : Text) : Text := (ds.reverse.dropWhile (· = '0')).reverse

def exponentText (e : Int) : Text := (if e < 0 then "e-" else "e+").toList ++ Nat.toDigits 10 e.natAbs

/-- Digits with the point behind the first `n` of them. -/
def placePoint (ds : Text) (n : Int) : Text :=
  if ds.length ≤ n ∧ n ≤ 21 then ds ++ List.replicate (n.toNat - ds.length) '0'
  else if 0 < n ∧ n ≤ 21 then ds.take n.toNat ++ ['.'] ++ ds.drop n.toNat
  else if -6 < n ∧ n ≤ 0 then "0.".toList ++ List.replicate n.natAbs '0' ++ ds
  else if ds.length = 1 then ds ++ exponentText (n - 1)
  else ds.take 1 ++ ['.'] ++ ds.drop 1 ++ exponentText (n - 1)

/-- A positive double as text. -/
def doubleText (x : Rat) : Text :=
  let s := shortest x
  let ds := Nat.toDigits 10 s.digits
  placePoint (stripZeros ds) (s.exponent + ds.length)

/-- The text of the number that a decimal text is read as; zero has no sign. -/
def jsNumberText (t : Text) : Text :=
  let q := decimal t
  let sign : Text := if q < 0 then ['-'] else []
  match toDouble |q| with
  | none => sign ++ "Infinity".toList
  | some x => if x = 0 then "0".toList else sign ++ doubleText x

end Onisin.Lib
