import Signpost.Text.Numeral

/-! # Log levels

How much is logged, from nothing to everything. A level is written as a word or as a number.
-/
namespace Signpost.Log
open Signpost.Text

inductive Level where
  | off
  | error
  | warn
  | info
  | debug
  | trace
  deriving DecidableEq, Repr

namespace Level

def all : List Level :=
  [off, error, warn, info, debug, trace]

def name : Level → String
  | off => "off"
  | error => "error"
  | warn => "warn"
  | info => "info"
  | debug => "debug"
  | trace => "trace"

/-- A letter of a word in lower case; words of levels have ASCII letters only. -/
def foldWord (cs : List Char) : List Char :=
  cs.map Char.toLower

def read? (cs : List Char) : Option Level :=
  match (Numeral.unsigned? 10 64 cs).bind (all[·]?) with
  | some level => some level
  | none => all.find? fun level => level.name.toList == foldWord cs

end Level

end Signpost.Log
