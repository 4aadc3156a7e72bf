/-! # Binary64 numbers

Positive numbers with 53 significant bits, as a significand and a power of two, and the one that
is nearest to a ratio. Nothing here rounds twice: a ratio is compared exactly.
-/
namespace Signpost.Decimal

/-- The power of two; one for a negative exponent. -/
def twoTo (e : Int) : Nat :=
  Nat.pow 2 e.toNat

def tenTo (e : Int) : Nat :=
  Nat.pow 10 e.toNat

/-- The number `significand * 2 ^ exponent`. -/
structure Binary64 where
  significand : Nat
  exponent : Int
  deriving DecidableEq, Repr

namespace Binary64

def precision : Nat := 53

def minExponent : Int := -1074

def maxExponent : Int := 971

/-- The quotient rounded to the nearest integer, and to the even one of two. -/
def divRound (num den : Nat) : Nat :=
  let q := num / den
  let r := num % den
  if 2 * r < den then q
  else if den < 2 * r then q + 1
  else if q % 2 = 0 then q else q + 1

def scale (num den : Nat) (e : Int) : Nat × Nat :=
  if 0 ≤ e then (num, den * twoTo e) else (num * twoTo (-e), den)

/-- The exponent at which a positive ratio has a significand of 53 bits, or the least one. -/
def exponentFor (num den : Nat) : Int :=
  let guess := (Nat.log2 num : Int) - (Nat.log2 den : Int) - 52
  let (n, d) := scale num den guess
  let exact := if n / d < twoTo 52 then guess - 1 else guess
  max exact minExponent

def nearest? (num den : Nat) : Option Binary64 :=
  if num = 0 then some ⟨0, minExponent⟩
  else
    let e := exponentFor num den
    let (n, d) := scale num den e
    let q := divRound n d
    let rounded : Binary64 := if q = twoTo precision then ⟨twoTo 52, e + 1⟩ else ⟨q, e⟩
    if maxExponent < rounded.exponent then none else some rounded

end Binary64

/-- The parts of a decimal numeral: its digits and the power of ten of the last one. -/
structure Numeral where
  digits : Nat
  exponent : Int
  deriving DecidableEq, Repr

namespace Numeral

def digitCount (n : Nat) : Nat :=
  if n = 0 then 0 else (Nat.toDigits 10 n).length

/-- The nearest number. Exponents far outside the range are settled by the number of digits. -/
def nearest? (x : Numeral) : Option Binary64 :=
  let magnitude := (digitCount x.digits : Int) + x.exponent
  if x.digits = 0 ∨ magnitude < -330 then some ⟨0, Binary64.minExponent⟩
  else if 310 < magnitude then none
  else if 0 ≤ x.exponent then Binary64.nearest? (x.digits * tenTo x.exponent) 1
  else Binary64.nearest? x.digits (tenTo (-x.exponent))

end Numeral

end Signpost.Decimal
