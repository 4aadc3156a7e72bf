/-! # Numerals

Integers written as digits of some base. Numerals have a range: a text that writes a larger number
is no numeral.
-/
namespace Signpost.Text.Numeral

/-- The value of a digit; letters of either case follow the ten decimal digits. -/
def digitValue (c : Char) : Nat :=
  if '0' ≤ c && c ≤ '9' then c.toNat - '0'.toNat
  else if 'a' ≤ c && c ≤ 'z' then c.toNat - 'a'.toNat + 10
  else if 'A' ≤ c && c ≤ 'Z' then c.toNat - 'A'.toNat + 10
  else 36

def isDigit (base : Nat) (c : Char) : Bool :=
  digitValue c < base

def value (base : Nat) (digits : List Char) : Nat :=
  digits.foldl (fun n c => base * n + digitValue c) 0

def digits? (base : Nat) (cs : List Char) : Option Nat :=
  if !cs.isEmpty && cs.all (isDigit base) then some (value base cs) else none

/-- A number below `2 ^ bits`, which may have a plus sign. -/
def unsigned? (base bits : Nat) (cs : List Char) : Option Nat :=
  let unsigned := match cs with
    | '+' :: rest => rest
    | _ => cs
  (digits? base unsigned).filter (· < Nat.pow 2 bits)

def signed? (base bits : Nat) (cs : List Char) : Option Int :=
  match cs with
  | '-' :: rest => ((digits? base rest).filter (· ≤ Nat.pow 2 (bits - 1))).map fun n => -(n : Int)
  | _ => (unsigned? base (bits - 1) cs).map Int.ofNat

end Signpost.Text.Numeral
