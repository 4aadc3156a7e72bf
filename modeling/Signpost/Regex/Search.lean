import Signpost.Regex.Parser
import Signpost.Regex.Program

/-! # Searching

A search follows the program from one position of the text in order of preference and comes back
to the next alternative when a way fails. Whether a way from an instruction and a position
succeeds does not depend on how it was reached, so each pair is followed once: a search takes
time proportional to the product of program and text. The first way that reaches the end of the
program is the preferred match, and the groups are what it saved last.
-/
namespace Signpost.Regex

/-- A way through the program: where it stands and the positions it saved, latest first. -/
structure Thread where
  pc : Nat
  pos : Nat
  saved : List (Nat × Nat)

def target (pc : Nat) (offset : Int) : Nat :=
  ((pc : Int) + offset).toNat

/-- Where a way goes on after one instruction, in order of preference. -/
def successors (text : Array Char) (instr : Instr) (t : Thread) : List Thread :=
  match instr with
  | .read set =>
    match text[t.pos]? with
    | some c => if set.mem c then [⟨t.pc + 1, t.pos + 1, t.saved⟩] else []
    | none => []
  | .look condition =>
    let before := if t.pos = 0 then none else text[t.pos - 1]?
    if condition.holds before text[t.pos]? then [⟨t.pc + 1, t.pos, t.saved⟩] else []
  | .save slot => [⟨t.pc + 1, t.pos, (slot, t.pos) :: t.saved⟩]
  | .jump offset => [⟨target t.pc offset, t.pos, t.saved⟩]
  | .fork preferred other =>
    [⟨target t.pc preferred, t.pos, t.saved⟩, ⟨target t.pc other, t.pos, t.saved⟩]

theorem count_set_lt (visited : Array Bool) (i : Nat) (h : i < visited.size)
    (hv : visited[i] = false) :
    (visited.set i true).toList.count false < visited.toList.count false := by
  have hpos : 0 < visited.count false :=
    Array.count_pos_iff.2 (hv ▸ Array.getElem_mem h)
  have hne : ¬ (true == false) = true := by decide
  rw [Array.count_toList, Array.count_toList, Array.count_set, hv,
    if_pos (beq_self_eq_true false), if_neg hne]
  omega

theorem length_successors_le (text : Array Char) (instr : Instr) (t : Thread) :
    (successors text instr t).length ≤ 2 := by
  fun_cases successors text instr t <;> simp

/-- Follows the ways on the stack, the first one first. The answer holds the table of the pairs
followed and the way that reached the end, if one did. -/
def explore (program : Array Instr) (text : Array Char) (visited : Array Bool) :
    List Thread → Array Bool × Option Thread
  | [] => (visited, none)
  | t :: rest =>
    if hp : t.pc < program.size then
      let i := t.pos * program.size + t.pc
      if h : i < visited.size then
        if hv : visited[i] = true then explore program text visited rest
        else
          explore program text (visited.set i true) (successors text program[t.pc] t ++ rest)
      else explore program text visited rest
    else (visited, some t)
-- a pair that is followed for the first time puts at most two ways in the place of one
termination_by stack => 2 * visited.toList.count false + stack.length
decreasing_by
  · simp
  · have hcount : (visited.set i true).toList.count false < visited.toList.count false :=
      count_set_lt visited i h (by simpa using hv)
    have hlength := length_successors_le text program[t.pc] t
    rw [List.length_append, List.length_cons]
    change 2 * (visited.set i true).toList.count false + _ < _
    omega
  · simp

/-- The preferred match that starts at the first of `count` positions from `start` where one
does. -/
def searchFrom (program : Array Instr) (text : Array Char) (visited : Array Bool)
    (start : Nat) : Nat → Option (Nat × Thread)
  | 0 => none
  | count + 1 =>
    match explore program text visited [⟨0, start, []⟩] with
    | (_, some t) => some (start, t)
    | (visited, none) => searchFrom program text visited (start + 1) count

/-- The leftmost, preferred match: its start and the way that ends it. -/
def search (program : Array Instr) (text : Array Char) : Option (Nat × Thread) :=
  searchFrom program text (Array.replicate (program.size * (text.size + 1)) false) 0
    (text.size + 1)

end Signpost.Regex

namespace Signpost

structure Regex where
  source : String
  groups : Nat
  node : Regex.Node
  program : Array Regex.Instr

namespace Regex

def compile (source : String) (ignoreCase : Bool) : Except Error Regex := do
  let (node, groups) ← parse source.toList ignoreCase
  if Node.maxProgramSize < node.programSize then throw .tooLarge
  return ⟨source, groups, node, node.code.toArray⟩

/-- The text that each group matched, the whole match as group 0. -/
structure Captures where
  text : Array Char
  start : Nat
  stop : Nat
  saved : List (Nat × Nat)

def Captures.slice (c : Captures) (start stop : Nat) : String :=
  String.ofList (c.text.toList.drop start |>.take (stop - start))

def Captures.get? (c : Captures) (index : Nat) : Option String :=
  if index = 0 then some (c.slice c.start c.stop)
  else match c.saved.lookup (2 * index), c.saved.lookup (2 * index + 1) with
    | some start, some stop => some (c.slice start stop)
    | _, _ => none

def captures? (r : Regex) (text : String) : Option Captures :=
  let chars := text.toList.toArray
  (search r.program chars).map fun (start, t) => ⟨chars, start, t.pos, t.saved⟩

end Regex

end Signpost
