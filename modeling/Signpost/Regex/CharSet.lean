import Signpost.Unicode.CaseFolding
import Signpost.Unicode.Property

/-! # Character sets

Sets of characters as patterns write them, and the decidable membership that gives each its
meaning. A set closed under case holds every character that has a case variant in the set.
-/
namespace Signpost.Regex
open Signpost.Unicode

inductive CharSet where
  | none
  | range (first last : Char)
  | digit
  | space
  | word
  | categories (members : List Category)
  | property (holds : Char → Bool)
  | union (left right : CharSet)
  | inter (left right : CharSet)
  | compl (of : CharSet)
  | anyCase (of : CharSet)
  | anyAsciiCase (of : CharSet)

namespace CharSet

def asciiVariants (c : Char) : List Char :=
  if c.isAlpha then [c.toLower, c.toUpper] else [c]

def mem : CharSet → Char → Bool
  | none, _ => false
  | range first last, c => first ≤ c && c ≤ last
  | digit, c => isDecimalDigit c
  | space, c => isWhiteSpace c
  | word, c => isWordChar c
  | categories members, c => members.contains (category c)
  | property holds, c => holds c
  | union left right, c => left.mem c || right.mem c
  | inter left right, c => left.mem c && right.mem c
  | compl of, c => !of.mem c
  | anyCase of, c => (caseVariants c).any of.mem
  | anyAsciiCase of, c => (asciiVariants c).any of.mem

def single (c : Char) : CharSet :=
  range c c

def all : CharSet :=
  compl none

def ofList (cs : List Char) : CharSet :=
  cs.foldr (fun c s => union (single c) s) none

def diff (left right : CharSet) : CharSet :=
  inter left (compl right)

def symmDiff (left right : CharSet) : CharSet :=
  union (diff left right) (diff right left)

def ascii : CharSet :=
  range '\x00' '\x7f'

def asciiDigit : CharSet :=
  range '0' '9'

def asciiSpace : CharSet :=
  ofList ['\t', '\n', '\x0b', '\x0c', '\r', ' ']

def asciiAlpha : CharSet :=
  union (range 'a' 'z') (range 'A' 'Z')

def asciiWord : CharSet :=
  union asciiAlpha (union asciiDigit (single '_'))

/-- The sets that bracketed names such as alpha stand for. -/
def ofAsciiName? : String → Option CharSet
  | "alnum" => some (union asciiAlpha asciiDigit)
  | "alpha" => some asciiAlpha
  | "ascii" => some ascii
  | "blank" => some (ofList ['\t', ' '])
  | "cntrl" => some (union (range '\x00' '\x1f') (single '\x7f'))
  | "digit" => some asciiDigit
  | "graph" => some (range '!' '~')
  | "lower" => some (range 'a' 'z')
  | "print" => some (range ' ' '~')
  | "punct" => some (union (union (range '!' '/') (range ':' '@'))
      (union (range '[' '\x60') (range '\x7b' '~')))
  | "space" => some asciiSpace
  | "upper" => some (range 'A' 'Z')
  | "word" => some asciiWord
  | "xdigit" => some (union asciiDigit (union (range 'a' 'f') (range 'A' 'F')))
  | _ => Option.none

end CharSet

end Signpost.Regex
