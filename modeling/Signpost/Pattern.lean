import Signpost.Field
import Signpost.Ordered
import Signpost.Unicode.Lowercase

/-! # Patterns

What a declaration writes for a field: a text to be matched as it is, a symbol whose text is the
inside of an anchored expression, or an expression used as it is written.
-/
namespace Signpost

inductive Pattern where
  | literal (text : String)
  | symbol (text : String)
  | regex (source : String)
  deriving DecidableEq, Repr

abbrev Conditions := Entries Field Pattern

namespace Pattern

def isRegex : Pattern → Bool
  | regex _ => true
  | _ => false

/-- The template that the pattern's text is, unless it is an expression. -/
def template? : Pattern → Option String
  | literal text => some text
  | symbol text => some text
  | regex _ => none

def isSpecial (c : Char) : Bool :=
  "\\.+*?()|[]\x7b\x7d^$#&-~".toList.contains c

def escape (cs : List Char) : List Char :=
  cs.flatMap fun c => if isSpecial c then ['\\', c] else [c]

/-- Methods are compared in lower case. -/
def fold (field : Field) (text : String) : String :=
  if field = .method then Unicode.lowercase text else text

/-- The expression for the pattern, before its placeholders are replaced. -/
def source (field : Field) : Pattern → String
  | literal text => String.ofList ('^' :: (escape (fold field text).toList ++ ['$']))
  | symbol text => String.ofList ('^' :: ((fold field text).toList ++ ['$']))
  | regex source => source

end Pattern

end Signpost
