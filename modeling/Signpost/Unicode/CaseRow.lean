/-! # Case rows

Case mappings are regular over long stretches of the code space: a row covers every `step`th
code point from `first` to `last` and moves each by the same `shift`.
-/
namespace Signpost.Unicode

structure CaseRow where
  first : Nat
  last : Nat
  step : Nat
  shift : Int
  deriving DecidableEq, Repr, Inhabited

def CaseRow.covers (row : CaseRow) (n : Nat) : Bool :=
  row.first ≤ n && n ≤ row.last && (n - row.first) % row.step == 0

def CaseRow.image (row : CaseRow) (n : Nat) : Nat :=
  ((n : Int) + row.shift).toNat

def CaseRow.preimage? (row : CaseRow) (n : Nat) : Option Nat :=
  let m := ((n : Int) - row.shift).toNat
  if row.covers m && row.image m == n then some m else none

/-- The image of `n` under the first row that covers it. -/
def mapCase (rows : Array CaseRow) (n : Nat) : Nat :=
  match rows.find? (·.covers n) with
  | some row => row.image n
  | none => n

end Signpost.Unicode
