import Signpost.Regex.Syntax

/-! # Programs

A pattern runs as a list of instructions. Jumps are relative, so the code of a node can stand
anywhere in a program, and a repeated node is its code written several times.

`programSize` says how large the program of a node is, before it is written out, so that patterns
over a limit can be refused. It is an estimate in bytes, not a count: the figures for sets beyond
ASCII (digits, words, categories, properties, letters with their case variants) are rough ones, and
so is what is added for a repetition. What is said about texts whose patterns stay below the limit
is said of this measure.
-/
namespace Signpost.Regex

/-- A program stops with a match when control passes its last instruction. -/
inductive Instr where
  | read (set : CharSet)
  | look (condition : Look)
  | save (slot : Nat)
  | jump (offset : Int)
  | fork (preferred other : Int)

namespace Node

def forkTo (greedy : Bool) (enter leave : Int) : Instr :=
  if greedy then .fork enter leave else .fork leave enter

def atLeastOnce (body : List Instr) (greedy : Bool) : List Instr :=
  body ++ [forkTo greedy (-(body.length : Int)) 1]

/-- A body that may read nothing needs two forks, for entering and for going on, so that the
preferred of two ways to read nothing is kept. -/
def anyTimes (body : List Instr) (greedy : Bool) : List Instr :=
  forkTo greedy 1 (body.length + 2) :: atLeastOnce body greedy

/-- Up to `n` runs of `body`; a run is entered only after the one before it. -/
def atMost (body : List Instr) (greedy : Bool) : Nat → List Instr
  | 0 => []
  | n + 1 =>
    let rest := atMost body greedy n
    forkTo greedy 1 (body.length + rest.length + 1) :: (body ++ rest)

def times (body : List Instr) : Nat → List Instr
  | 0 => []
  | n + 1 => body ++ times body n

def loopCode (body : List Instr) (min : Nat) (max : Option Nat) (greedy : Bool) : List Instr :=
  match max, min with
  | none, 0 => anyTimes body greedy
  | none, n + 1 => times body n ++ atLeastOnce body greedy
  | some max, min => times body min ++ atMost body greedy (max - min)

def code : Node → List Instr
  | empty => []
  | read set => [.read set]
  | look condition => [.look condition]
  | group index body => .save (2 * index) :: (body.code ++ [.save (2 * index + 1)])
  | cat first second => first.code ++ second.code
  | alt preferred other =>
    .fork 1 (preferred.code.length + 2) ::
      (preferred.code ++ .jump (other.code.length + 1) :: other.code)
  | loop body min max greedy => loopCode body.code min max greedy

end Node

namespace CharSet

def asciiRanges? : CharSet → Option Nat
  | range _ last => if last.toNat < 0x80 then some 1 else Option.none
  | union left right => do return (← left.asciiRanges?) + (← right.asciiRanges?)
  | anyCase of => of.asciiRanges?.map (2 * ·)
  | anyAsciiCase of => of.asciiRanges?.map (2 * ·)
  | none => some 0
  | _ => Option.none

/-- An estimate of the bytes for a set with members beyond ASCII, by the kind of the set. -/
def wideStorage : CharSet → Nat
  | none => 0
  | range first last => if first == last then 32 * first.utf8Size else 300
  | digit => 5000
  | space => 700
  | word => 50000
  | categories _ => 40000
  | property _ => 50000
  | union left right => left.wideStorage + right.wideStorage
  | inter left right => Nat.min left.wideStorage right.wideStorage
  | compl of => 400 + of.wideStorage
  | anyCase of => 64 + of.wideStorage
  | anyAsciiCase of => 16 + of.wideStorage

def anyPart (holds : CharSet → Bool) : CharSet → Bool
  | union left right => left.anyPart holds || right.anyPart holds
  | anyCase of => of.anyPart holds
  | set => holds set

/-- Whether a set is seen to hold every character, since a class and its complement are parts. -/
def coversAll (set : CharSet) : Bool :=
  (set.anyPart (· matches digit) && set.anyPart (· matches compl digit)) ||
  (set.anyPart (· matches space) && set.anyPart (· matches compl space)) ||
  (set.anyPart (· matches word) && set.anyPart (· matches compl word))

/-- An estimate of the bytes that reading a member of the set takes in a program. -/
def storage : CharSet → Nat
  | range first last => if first == last then 32 * first.utf8Size else 72
  | set =>
    match set.asciiRanges? with
    | some n => 64 + 8 * n
    | Option.none => if set.coversAll then 400 else set.wideStorage

end CharSet

namespace Node

/-- An estimate of the bytes that the program for a node takes, made from those for its sets. -/
def programSize : Node → Nat
  | empty => 32
  | read set => set.storage
  | look _ => 32
  | group _ body => 64 + body.programSize
  | cat first second => first.programSize + second.programSize
  | alt preferred other => 36 + preferred.programSize + other.programSize
  | loop body min max _ =>
    match max with
    | none => Nat.max min 1 * body.programSize + (if min = 0 ∧ body.readsNothing then 112 else 40)
    | some most => most * body.programSize + (most - min) * 40 + (if most = min then 0 else 32)

def maxProgramSize : Nat := 10 * 1024 * 1024

end Node

end Signpost.Regex
