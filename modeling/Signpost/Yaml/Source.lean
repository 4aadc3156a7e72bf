/-! # Sources

A source is a text whose characters know their line and column. Line breaks are read as one
character, however many they are written with.
-/
namespace Signpost.Yaml

structure Placed where
  char : Char
  line : Nat
  column : Nat
  deriving DecidableEq, Repr

/-- The rest of a text, each character with its place. -/
abbrev Source := List Placed

def lineSeparator : Char := '\u2028'
def paragraphSeparator : Char := '\u2029'
def nextLine : Char := '\u0085'
def byteOrderMark : Char := '\ufeff'

def isBreak (c : Char) : Bool :=
  c = '\n' || c = lineSeparator || c = paragraphSeparator

def isBlank (c : Char) : Bool :=
  c = ' ' || c = '\t'

def isNameChar (c : Char) : Bool :=
  c.isAlphanum || c = '_' || c = '-'

def isAllowed (c : Char) : Bool :=
  let n := c.toNat
  c = '\t' || c = '\n' || c = '\r' || c = nextLine || (0x20 ≤ n && n ≤ 0x7e) ||
    (0xa0 ≤ n && n ≤ 0xfffd) || 0x10000 ≤ n

def joinBreaks : List Char → List Char
  | [] => []
  | '\r' :: '\n' :: rest => '\n' :: joinBreaks rest
  | c :: rest => (if c = '\r' || c = nextLine then '\n' else c) :: joinBreaks rest

def place (line column : Nat) : List Char → Source
  | [] => []
  | c :: rest =>
    ⟨c, line, column⟩ ::
      (if isBreak c then place (line + 1) 0 rest else place line (column + 1) rest)

namespace Source

def ofText (text : String) : Source :=
  place 0 0 (joinBreaks text.toList)

def startsIn (chars : List Char) : Source → Bool
  | [] => false
  | p :: _ => chars.contains p.char

def startsWith (c : Char) (s : Source) : Bool :=
  s.startsIn [c]

def atGap : Source → Bool
  | [] => true
  | p :: _ => isBlank p.char || isBreak p.char

def atLineEnd : Source → Bool
  | [] => true
  | p :: _ => isBreak p.char

def column : Source → Nat
  | [] => 0
  | p :: _ => p.column

/-- A line starts with the mark three times, and a gap. -/
def atMark (mark : Char) : Source → Bool
  | a :: b :: c :: rest =>
    a.column = 0 && a.char = mark && b.char = mark && c.char = mark && atGap rest
  | _ => false

def atDocumentMark (s : Source) : Bool :=
  s.atMark '-' || s.atMark '.'

def dropBlanks : Source → Source :=
  List.dropWhile fun p => isBlank p.char

def dropLine : Source → Source :=
  List.dropWhile fun p => !isBreak p.char

/-- Drops blanks and a comment to the end of the line, and the end; none if there is more. -/
def endLine? (s : Source) : Option Source :=
  let s := s.dropBlanks
  let s := if s.startsWith '#' then s.dropLine else s
  if s.atLineEnd then some (s.drop 1) else none

def takeText (p : Char → Bool) (s : Source) : List Char × Source :=
  ((s.takeWhile fun q => p q.char).map Placed.char, s.dropWhile fun q => p q.char)

end Source

end Signpost.Yaml
