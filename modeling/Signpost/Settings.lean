import Signpost.Text.Numeral

/-! # Settings

Settings of the program that are read from named variables. A variable that is not set, or holds
no proper value, leaves the setting at its default.
-/
namespace Signpost
open Signpost.Text

structure Settings where
  /-- The route file that is used when no other is named. -/
  routesFile : Option String := none
  /-- The route file is read again when it changes. -/
  watch : Bool := false
  /-- Matches that take more microseconds than this count as slow. -/
  slowMatch : Nat := 1000
  deriving DecidableEq, Repr

def readSwitch? : String → Option Bool
  | "true" => some true
  | "false" => some false
  | _ => none

namespace Settings

/-- A number below 2^64: decimal, or hexadecimal after `0x`. -/
def readMicros? (s : String) : Option Nat :=
  match s.toList with
  | '0' :: 'x' :: digits => Numeral.unsigned? 16 64 digits
  | digits => Numeral.unsigned? 10 64 digits

def ofLookup (lookup : String → Option String) : Settings :=
  { routesFile := (lookup "ROUTEFORGE_ROUTES").filter (· ≠ "")
    watch := ((lookup "ROUTEFORGE_WATCH").bind readSwitch?).getD false
    slowMatch := ((lookup "ROUTEFORGE_SLOW_MATCH_US").bind readMicros?).getD 1000 }

end Settings

end Signpost
