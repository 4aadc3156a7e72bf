import Signpost.Regex.CharSet

/-! # Syntax of regular expressions

The tree that a pattern denotes. Flags are resolved: a node says by itself which characters it
reads and where its assertions hold.
-/
namespace Signpost.Regex

inductive WordPosition where
  | edge
  | inside
  | start
  | stop
  | startHalf
  | stopHalf
  deriving DecidableEq, Repr

/-- Conditions on a position of the text, which read no character. -/
inductive Look where
  | textStart
  | textEnd
  | lineStart (crlf : Bool)
  | lineEnd (crlf : Bool)
  | atWord (position : WordPosition) (letters : CharSet)

inductive Node where
  | empty
  | read (set : CharSet)
  | look (condition : Look)
  | group (index : Nat) (body : Node)
  | cat (first second : Node)
  | alt (preferred other : Node)
  | loop (body : Node) (min : Nat) (max : Option Nat) (greedy : Bool)

namespace Look

def holds (condition : Look) (before after : Option Char) : Bool :=
  match condition with
  | textStart => before.isNone
  | textEnd => after.isNone
  | lineStart false => before.isNone || before == some '\n'
  | lineEnd false => after.isNone || after == some '\n'
  | lineStart true =>
    before.isNone || before == some '\n' || (before == some '\r' && after != some '\n')
  | lineEnd true =>
    after.isNone || after == some '\r' || (after == some '\n' && before != some '\r')
  | atWord position letters =>
    let left := before.any letters.mem
    let right := after.any letters.mem
    match position with
    | .edge => left != right
    | .inside => left == right
    | .start => !left && right
    | .stop => left && !right
    | .startHalf => !left
    | .stopHalf => !right

end Look

namespace Node

def readsNothing : Node → Bool
  | empty => true
  | read _ => false
  | look _ => true
  | group _ body => body.readsNothing
  | cat first second => first.readsNothing && second.readsNothing
  | alt preferred other => preferred.readsNothing && other.readsNothing
  | loop body _ max _ => body.readsNothing || max == some 0

/-- Repetition, where a body that reads nothing is needed once at most. -/
def repeated (body : Node) (min : Nat) (max : Option Nat) (greedy : Bool) : Node :=
  let once := body.readsNothing
  let least := if once then Nat.min min 1 else min
  let most := if once then some ((max.map (Nat.min · 1)).getD 1) else max
  if least = 0 ∧ most = some 0 then empty
  else if least = 1 ∧ most = some 1 then body
  else loop body least most greedy

def catAll : List Node → Node
  | [] => empty
  | [n] => n
  | n :: rest => cat n (catAll rest)

def altAll : List Node → Node
  | [] => empty
  | [n] => n
  | n :: rest => alt n (altAll rest)

end Node

end Signpost.Regex
