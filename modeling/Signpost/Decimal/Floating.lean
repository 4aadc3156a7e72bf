import Signpost.Decimal.Shortest
import Signpost.Text.Numeral

/-! # Floating numbers

Binary64 numbers with a sign, the two infinities, and the value that is no number; how a decimal
numeral is read, and how a number is written.
-/
namespace Signpost.Decimal
open Signpost.Text

inductive Floating where
  | finite (negative : Bool) (size : Binary64)
  | infinite (negative : Bool)
  | nan
  deriving DecidableEq, Repr

namespace Numeral

def splitSign : List Char → Bool × List Char
  | '-' :: rest => (true, rest)
  | '+' :: rest => (false, rest)
  | cs => (false, cs)

def exponent? : List Char → Option Int
  | [] => some 0
  | e :: rest =>
    let (negative, digits) := splitSign rest
    if e = 'e' ∨ e = 'E' then
      (Numeral.digits? 10 digits).map fun n => if negative then -(n : Int) else n
    else none

def splitFraction : List Char → List Char × List Char
  | '.' :: rest => (rest.takeWhile Char.isDigit, rest.dropWhile Char.isDigit)
  | cs => ([], cs)

/-- A numeral without a sign: digits with a point somewhere among them, and an exponent. -/
def read? (cs : List Char) : Option Numeral :=
  let whole := cs.takeWhile Char.isDigit
  let (fraction, rest) := splitFraction (cs.dropWhile Char.isDigit)
  if whole.isEmpty && fraction.isEmpty then none
  else (exponent? rest).map fun e =>
    ⟨Numeral.value 10 (whole ++ fraction), e - fraction.length⟩

end Numeral

namespace Floating

def read? (cs : List Char) : Option Floating :=
  let (negative, body) := Numeral.splitSign cs
  ((Numeral.read? body).bind Numeral.nearest?).map (finite negative)

/-- The numeral that a number is written with; zero has one digit too. -/
def numeral (x : Binary64) : Numeral :=
  if x.significand = 0 then ⟨0, 0⟩ else shortest x

def zeros (n : Int) : List Char :=
  List.replicate n.toNat '0'

/-- Digits with the point after `point` of them. -/
def positional (digits : List Char) (point : Int) : List Char :=
  if (digits.length : Int) ≤ point then digits ++ zeros (point - digits.length) ++ ".0".toList
  else if 0 < point then digits.take point.toNat ++ '.' :: digits.drop point.toNat
  else "0.".toList ++ zeros (-point) ++ digits

def scientific (digits : List Char) (point : Int) : List Char :=
  digits.take 1 ++ (if digits.length ≤ 1 then [] else '.' :: digits.drop 1) ++
    'e' :: (toString (point - 1)).toList

/-- Numbers from `0.00001` to below `10 ^ 16` are written without a power of ten. -/
def writeSize (x : Binary64) : List Char :=
  let n := numeral x
  let digits := Nat.toDigits 10 n.digits
  let point := n.exponent + digits.length
  if -5 < point ∧ point ≤ 16 then positional digits point else scientific digits point

def signText (negative : Bool) : String :=
  if negative then "-" else ""

def text : Floating → String
  | finite negative x => signText negative ++ String.ofList (writeSize x)
  | infinite negative => signText negative ++ ".inf"
  | nan => ".nan"

end Floating

end Signpost.Decimal
