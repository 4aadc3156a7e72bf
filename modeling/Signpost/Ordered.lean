/-! # Ordered entries

Maps as lists of entries in strictly increasing order of their keys. A key occurs once, and equal
maps are equal lists.
-/
namespace Signpost

/-- The entries of a map, in increasing order of their keys. -/
abbrev Entries (κ α : Type) := List (κ × α)

namespace Entries
variable {κ α : Type} [Ord κ]

def insert (k : κ) (v : α) : Entries κ α → Entries κ α
  | [] => [(k, v)]
  | (k', v') :: rest =>
    match compare k k' with
    | .lt => (k, v) :: (k', v') :: rest
    | .eq => (k, v) :: rest
    | .gt => (k', v') :: insert k v rest

def find? (k : κ) : Entries κ α → Option α
  | [] => none
  | (k', v) :: rest => if compare k k' == .eq then some v else find? k rest

def contains (k : κ) (m : Entries κ α) : Bool :=
  (find? k m).isSome

/-- Sets the entries of `later` one after the other: later ones win. -/
def extend (m : Entries κ α) (later : List (κ × α)) : Entries κ α :=
  later.foldl (fun m e => insert e.1 e.2 m) m

/-- The map of a list of entries, where a later entry replaces an earlier one. -/
def ofList (es : List (κ × α)) : Entries κ α :=
  extend [] es

def mapValues {β : Type} (f : α → β) (m : Entries κ α) : Entries κ β :=
  m.map fun e => (e.1, f e.2)

end Entries

end Signpost
