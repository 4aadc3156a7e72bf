import Signpost.Text.Numeral
import Signpost.Yaml.Source

/-! # Texts of scalars

Scalars are written plainly, in quotes, or as a block of lines. Line breaks inside the first two
are folded: one break is a space, and of more breaks one is dropped. Blocks keep their breaks or
fold them.
-/
namespace Signpost.Yaml
open Signpost.Text

inductive Gap where
  /-- Blanks in one line. -/
  | blanks (text : List Char)
  /-- A line's end, which is missing if it was escaped, and the breaks after it. -/
  | lines (first : Option Char) (more : List Char)
  deriving DecidableEq, Repr

namespace Gap

def isEmpty : Gap → Bool
  | blanks [] => true
  | _ => false

def hasBreak : Gap → Bool
  | blanks _ => false
  | lines _ _ => true

/-- The gap with one more blank. Blanks around a line's end do not count. -/
def addBlank (c : Char) : Gap → Gap
  | blanks text => blanks (text ++ [c])
  | gap => gap

def addBreak (c : Char) : Gap → Gap
  | blanks _ => lines (some c) []
  | lines first more => lines first (more ++ [c])

def text : Gap → List Char
  | blanks text => text
  | lines (some '\n') [] => [' ']
  | lines (some '\n') more => more
  | lines first more => first.toList ++ more

end Gap

/-- The text of a scalar, whether it ended after a line's end, and the rest. -/
structure PlainScalar where
  text : List Char
  brokeLine : Bool
  rest : Source

def isFlowMark (c : Char) : Bool :=
  [',', '[', ']', '\x7b', '\x7d'].contains c

def endsAfterGap (flow : Bool) (indent : Nat) (s : Source) : Bool :=
  (!flow && s.column < indent) || s.atDocumentMark || s.startsWith '#'

/-- A colon before a gap ends a plain scalar, and so do marks of collections. -/
def endsPlain (flow : Bool) (c : Char) (rest : Source) : Bool :=
  (c = ':' && rest.atGap) || (flow && isFlowMark c)

/-- A colon before a mark is refused inside collections. -/
def refusesColon (flow : Bool) (c : Char) (rest : Source) : Bool :=
  flow && c = ':' && rest.startsIn [',', '?', '[', ']', '\x7b', '\x7d']

/-- Reads on after `taken`, which is held in reverse, and a gap. A line is not indented by tabs. -/
def plainFrom? (flow : Bool) (indent : Nat) (taken : List Char) (gap : Gap) :
    Source → Option PlainScalar
  | [] => some ⟨taken.reverse, gap.hasBreak, []⟩
  | p :: rest =>
    if isBlank p.char then
      if gap.hasBreak && p.column < indent && p.char = '\t' then none
      else plainFrom? flow indent taken (gap.addBlank p.char) rest
    else if isBreak p.char then plainFrom? flow indent taken (gap.addBreak p.char) rest
    else if !gap.isEmpty && endsAfterGap flow indent (p :: rest) then
      some ⟨taken.reverse, gap.hasBreak, p :: rest⟩
    else if refusesColon flow p.char rest then none
    else if endsPlain flow p.char rest then some ⟨taken.reverse, gap.hasBreak, p :: rest⟩
    else plainFrom? flow indent (p.char :: (gap.text.reverse ++ taken)) (.blanks []) rest

def plain? (flow : Bool) (indent : Nat) (s : Source) : Option PlainScalar :=
  plainFrom? flow indent [] (.blanks []) s

def singleFrom? (taken : List Char) (gap : Gap) : Source → Option (List Char × Source)
  | [] => none
  | p :: rest =>
    if isBlank p.char then singleFrom? taken (gap.addBlank p.char) rest
    else if isBreak p.char then singleFrom? taken (gap.addBreak p.char) rest
    else if Source.atDocumentMark (p :: rest) then none
    else
      let taken := gap.text.reverse ++ taken
      if p.char = '\'' then
        match rest with
        | [] => some (taken.reverse, [])
        | q :: more =>
          if q.char = '\'' then singleFrom? ('\'' :: taken) (.blanks []) more
          else some (taken.reverse, rest)
      else singleFrom? (p.char :: taken) (.blanks []) rest

def single? (s : Source) : Option (List Char × Source) :=
  singleFrom? [] (.blanks []) s

inductive Escape where
  | none
  | opened
  | code (left value : Nat)
  deriving DecidableEq, Repr

namespace Escape

def simple? : Char → Option Char
  | '0' => some '\x00'
  | 'a' => some '\x07'
  | 'b' => some '\x08'
  | 't' => some '\t'
  | '\t' => some '\t'
  | 'n' => some '\n'
  | 'v' => some '\x0b'
  | 'f' => some '\x0c'
  | 'r' => some '\r'
  | 'e' => some '\x1b'
  | ' ' => some ' '
  | '"' => some '"'
  | '/' => some '/'
  | '\\' => some '\\'
  | 'N' => some nextLine
  | '_' => some '\u00a0'
  | 'L' => some lineSeparator
  | 'P' => some paragraphSeparator
  | _ => Option.none

def digits? : Char → Option Nat
  | 'x' => some 2
  | 'u' => some 4
  | 'U' => some 8
  | _ => Option.none

def char? (n : Nat) : Option Char :=
  if n.isValidChar then some (Char.ofNat n) else Option.none

end Escape

def doubleFrom? (taken : List Char) (gap : Gap) : Escape → Source → Option (List Char × Source)
  | _, [] => none
  | .opened, p :: rest =>
    if isBreak p.char then doubleFrom? taken (.lines none []) .none rest
    else
      match Escape.simple? p.char, Escape.digits? p.char with
      | some c, _ => doubleFrom? (c :: taken) (.blanks []) .none rest
      | none, some n => doubleFrom? taken (.blanks []) (.code n 0) rest
      | none, none => none
  | .code left value, p :: rest =>
    let value := 16 * value + Numeral.digitValue p.char
    if !Numeral.isDigit 16 p.char then none
    else if left ≤ 1 then
      match Escape.char? value with
      | some c => doubleFrom? (c :: taken) (.blanks []) .none rest
      | none => none
    else doubleFrom? taken (.blanks []) (.code (left - 1) value) rest
  | .none, p :: rest =>
    if isBlank p.char then doubleFrom? taken (gap.addBlank p.char) .none rest
    else if isBreak p.char then doubleFrom? taken (gap.addBreak p.char) .none rest
    else if Source.atDocumentMark (p :: rest) then none
    else
      let taken := gap.text.reverse ++ taken
      if p.char = '"' then some (taken.reverse, rest)
      else if p.char = '\\' then doubleFrom? taken (.blanks []) .opened rest
      else doubleFrom? (p.char :: taken) (.blanks []) .none rest

def double? (s : Source) : Option (List Char × Source) :=
  doubleFrom? [] (.blanks []) .none s

/-- What becomes of the breaks at the end of a block. -/
inductive Chomp where
  | strip
  | clip
  | keep
  deriving DecidableEq, Repr

structure BlockHeader where
  chomp : Chomp
  indent : Option Nat
  deriving DecidableEq, Repr

namespace BlockHeader

def chomp? : Source → Option (Chomp × Source)
  | p :: rest =>
    if p.char = '+' then some (.keep, rest)
    else if p.char = '-' then some (.strip, rest)
    else none
  | [] => none

def indent? : Source → Option (Nat × Source)
  | p :: rest =>
    if p.char.isDigit then some (p.char.toNat - '0'.toNat, rest) else none
  | [] => none

/-- Both parts, in either order; an indentation of zero is refused. -/
def read? (s : Source) : Option (BlockHeader × Source) :=
  let (chomp, indent, rest) :=
    match chomp? s with
    | some (chomp, s) =>
      match indent? s with
      | some (n, s) => (chomp, some n, s)
      | none => (chomp, none, s)
    | none =>
      match indent? s with
      | some (n, s) =>
        match chomp? s with
        | some (chomp, s) => (chomp, some n, s)
        | none => (.clip, some n, s)
      | none => (.clip, none, s)
  if indent = some 0 then none
  else rest.endLine?.map fun rest => (⟨chomp, indent⟩, rest)

end BlockHeader

/-- Empty lines before a block: the widest indentation among them, their breaks, and the rest. -/
def leadingLines? (widest : Nat) (breaks : List Char) :
    Source → Option (Nat × List Char × Source)
  | [] => some (widest, breaks.reverse, [])
  | p :: rest =>
    if p.char = ' ' then leadingLines? (max widest (p.column + 1)) breaks rest
    else if p.char = '\t' then none
    else if isBreak p.char then leadingLines? widest (p.char :: breaks) rest
    else some (widest, breaks.reverse, p :: rest)

/-- A block as far as it was read: its text in reverse, the end of its last line, the breaks
after that, and whether that line started with a blank. -/
structure BlockState where
  taken : List Char
  lineEnd : List Char
  breaks : List Char
  blankStart : Bool

namespace BlockState

/-- The text when a line follows that starts with `first`. A folded break is a space, or nothing
before other breaks, unless a line beside it starts with a blank. -/
def join (b : BlockState) (literal : Bool) (first : Char) : List Char :=
  let folds := !literal && b.lineEnd == ['\n'] && !b.blankStart && !isBlank first
  let lineEnd :=
    if !folds then b.lineEnd
    else if b.breaks.isEmpty then [' '] else []
  b.breaks.reverse ++ (lineEnd ++ b.taken)

def finish (b : BlockState) (chomp : Chomp) : List Char :=
  match chomp with
  | .strip => b.taken.reverse
  | .clip => b.taken.reverse ++ b.lineEnd
  | .keep => b.taken.reverse ++ b.lineEnd ++ b.breaks

end BlockState

/-- Reads the lines of a block that are indented by `indent`, from inside a line or from before
one. -/
def blockFrom? (literal : Bool) (chomp : Chomp) (indent : Nat) (b : BlockState) :
    Bool → Source → Option (List Char × Source)
  | _, [] => some (b.finish chomp, [])
  | true, p :: rest =>
    if isBreak p.char then
      blockFrom? literal chomp indent { b with lineEnd := [p.char], breaks := [] } false rest
    else blockFrom? literal chomp indent { b with taken := p.char :: b.taken } true rest
  | false, p :: rest =>
    if p.char = ' ' && p.column < indent then blockFrom? literal chomp indent b false rest
    else if p.char = '\t' && p.column < indent then none
    else if isBreak p.char then
      blockFrom? literal chomp indent { b with breaks := b.breaks ++ [p.char] } false rest
    else if p.column = indent then
      blockFrom? literal chomp indent
        ⟨p.char :: b.join literal p.char, [], [], isBlank p.char⟩ true rest
    else some (b.finish chomp, p :: rest)

def block? (literal : Bool) (least : Nat) (s : Source) : Option (List Char × Source) := do
  let (header, s) ← BlockHeader.read? s
  match header.indent with
  | some n => blockFrom? literal header.chomp (least - 1 + n) ⟨[], [], [], false⟩ false s
  | none =>
    let (widest, breaks, s) ← leadingLines? 0 [] s
    let indent := max (max widest least) 1
    blockFrom? literal header.chomp indent ⟨[], [], breaks, false⟩ false s

end Signpost.Yaml
