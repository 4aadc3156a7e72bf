/-! # Sorted ranges

Binary search in tables of code points. `lastAtMost` finds the last entry of a sorted table that
is not above a code point; `inRanges` decides membership in a sorted list of closed ranges.
-/
namespace Signpost.Unicode

/-- The last index below `high` whose entry is at most `n`, when the entry at `low` is and the
entries from `high` on are not. -/
def lastAtMostBetween (entry : Nat → Nat) (n low high : Nat) : Nat :=
  if _ : low + 1 < high then
    let middle := (low + high) / 2
    if entry middle ≤ n then lastAtMostBetween entry n middle high
    else lastAtMostBetween entry n low middle
  else low
termination_by high - low

def lastAtMost (entry : Nat → Nat) (n size : Nat) : Nat :=
  lastAtMostBetween entry n 0 size

/-- Membership in sorted, disjoint, closed ranges. -/
def inRanges (ranges : Array (Nat × Nat)) (n : Nat) : Bool :=
  match ranges[lastAtMost (fun i => (ranges.getD i (0, 0)).1) n ranges.size]? with
  | some range => range.1 ≤ n && n ≤ range.2
  | none => false

end Signpost.Unicode
