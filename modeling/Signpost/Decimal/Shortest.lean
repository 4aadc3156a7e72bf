import Signpost.Decimal.Binary64

/-! # Shortest decimals

The decimal with the fewest digits that reads back as a given number, and the nearest one among
those. A decimal reads back when it lies between the midpoints to the neighbours of the number;
the midpoints themselves count when the significand is even.
-/
namespace Signpost.Decimal

/-- A number and its two midpoints over one denominator. -/
structure Window where
  low : Nat
  value : Nat
  high : Nat
  den : Nat
  closed : Bool

namespace Window

/-- Below a power of two the neighbour is half as far as above it. -/
def ofBinary64 (x : Binary64) : Window :=
  let narrow := x.significand = twoTo 52 ∧ Binary64.minExponent < x.exponent
  let scaled := 4 * x.significand
  let below := if narrow then 1 else 2
  let closed := x.significand % 2 = 0
  if 0 ≤ x.exponent then
    let p := twoTo x.exponent
    ⟨(scaled - below) * p, scaled * p, (scaled + 2) * p, 4, closed⟩
  else
    ⟨scaled - below, scaled, scaled + 2, 4 * twoTo (-x.exponent), closed⟩

def scaleTo (w : Window) (k : Int) : Window :=
  if 0 ≤ k then { w with den := w.den * tenTo k }
  else
    let p := tenTo (-k)
    { w with low := w.low * p, value := w.value * p, high := w.high * p }

def holds (w : Window) (n : Nat) : Bool :=
  let scaled := n * w.den
  if w.closed then w.low ≤ scaled && scaled ≤ w.high
  else w.low < scaled && scaled < w.high

def nearest? (w : Window) : Option Nat :=
  let below := w.value / w.den
  let r := w.value % w.den
  let upFirst := w.den < 2 * r || (2 * r == w.den && below % 2 == 1)
  let candidates := if upFirst then [below + 1, below] else [below, below + 1]
  candidates.find? fun n => n != 0 && w.holds n

end Window

/-- The power of ten of the first digit of a positive ratio, from an estimate not above it. -/
def leadingPower (num den : Nat) : Nat → Int → Int
  | 0, k => k
  | fuel + 1, k =>
    let (n, d) := if 0 ≤ k + 1 then (num, den * tenTo (k + 1))
      else (num * tenTo (-(k + 1)), den)
    if d ≤ n then leadingPower num den fuel (k + 1) else k

def shortestFrom (w : Window) : Nat → Int → Numeral
  | 0, k => ⟨w.value / w.den, k⟩
  | fuel + 1, k =>
    match (w.scaleTo k).nearest? with
    | some n => ⟨n, k⟩
    | none => shortestFrom w fuel (k - 1)

def dropZeros : Nat → Numeral → Numeral
  | 0, x => x
  | fuel + 1, x =>
    if x.digits % 10 = 0 ∧ x.digits ≠ 0 then dropZeros fuel ⟨x.digits / 10, x.exponent + 1⟩ else x

/-- The shortest decimal of a positive number. -/
def shortest (x : Binary64) : Numeral :=
  let w := Window.ofBinary64 x
  let bits := (Nat.log2 w.value : Int) - (Nat.log2 w.den : Int)
  let estimate := (bits - 1) * 30103 / 100000 - 1
  let k := leadingPower w.value w.den 4 estimate
  dropZeros 20 (shortestFrom w 20 k)

end Signpost.Decimal
