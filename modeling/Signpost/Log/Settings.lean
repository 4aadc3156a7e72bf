import Signpost.Log.Filter
import Signpost.Settings
import Signpost.Unicode.Lowercase

/-! # Log settings

How the program logs: the level, the form of the lines, and which parts of the program log more or
less than others. Settings are read from named variables.
-/
namespace Signpost.Log

inductive Format where
  | json
  | pretty
  deriving DecidableEq, Repr

namespace Format

/-- One word, in any case, chooses the second form. -/
def ofText (s : String) : Format :=
  if Unicode.lowercase s = "pretty" then pretty else json

def name : Format → String
  | json => "json"
  | pretty => "pretty"

end Format

structure Settings where
  level : String
  format : Format
  /-- Lines are written in the background. -/
  background : Bool
  /-- Further directives, between commas. -/
  targets : Option String
  /-- Lines show where in the program they come from. -/
  location : Bool
  deriving DecidableEq, Repr

namespace Settings

def ofLookup (lookup : String → Option String) : Settings :=
  { level := (lookup "ROUTEFORGE_LOG_LEVEL").getD "info"
    format := Format.ofText ((lookup "ROUTEFORGE_LOG_FORMAT").getD "json")
    background := ((lookup "ROUTEFORGE_LOG_ASYNC").bind readSwitch?).getD false
    targets := lookup "ROUTEFORGE_LOG_TARGET_FILTER"
    location := ((lookup "ROUTEFORGE_LOG_INCLUDE_LOCATION").bind readSwitch?).getD false }

def development : Settings :=
  ⟨"debug", .pretty, false, none, true⟩

def production : Settings :=
  ⟨"info", .json, true, none, false⟩

def baseLevel (s : Settings) : Level :=
  match Unicode.lowercase s.level with
  | "trace" => .trace
  | "debug" => .debug
  | "warn" => .warn
  | "error" => .error
  | _ => .info

/-- The filter of the settings. Directives of the environment take the place of the level if they
are proper. -/
def filter (s : Settings) (environment : Option String) : Filter :=
  let base := (environment.bind Filter.read?).getD (Filter.ofList [⟨none, none, none, s.baseLevel⟩])
  match s.targets with
  | some targets => base.addAll targets
  | none => base

end Settings

end Signpost.Log
