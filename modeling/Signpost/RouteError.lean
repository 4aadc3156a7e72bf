import Signpost.Field
import Signpost.Placeholder
import Signpost.Regex.Parser

/-! # Errors of routes

What can be wrong with a declaration, and with a name that an address is asked for.
-/
namespace Signpost

inductive OptionProblem where
  | groupOutOfRange (digits param : String)
  | resourceName (name : String)
  | singularActions (name : String)
  | unattachedName (name : String)
  deriving DecidableEq, Repr

def OptionProblem.message : OptionProblem → String
  | groupOutOfRange digits param =>
    "capture index [" ++ digits ++ "] in param '" ++ param ++ "' is out of range"
  | resourceName name =>
    "resource name '" ++ name ++ "' must be a single non-empty path segment"
  | singularActions name =>
    "singular resource '" ++ name ++ "' does not take member or collection actions"
  | unattachedName name =>
    "name '" ++ name ++ "' on a scope entry needs a catch_all route to attach to"

inductive RouteError where
  | invalidPattern (field : Field) (source : String) (cause : Regex.Error)
  | unknownPlaceholder (param placeholder : String)
  | namedRouteNotFound (name : String)
  | notReversible (name : String) (reason : Irreversible)
  | invalidOptions (problem : OptionProblem)
  deriving DecidableEq, Repr

/-- The text of an error, with `diagnostic` for what is wrong with an expression. -/
def RouteError.messageWith (diagnostic : Regex.Error → String) : RouteError → String
  | invalidPattern field source cause =>
    "invalid pattern for condition '" ++ field.name ++ "': /" ++ source ++ "/ (" ++
      diagnostic cause ++ ")"
  | unknownPlaceholder param placeholder =>
    "placeholder not found while compiling routes: :" ++ placeholder ++ " (in param '" ++
      param ++ "')"
  | namedRouteNotFound name => "named route not found: " ++ name
  | notReversible name reason =>
    "route '" ++ name ++ "' cannot be used for URL generation: " ++ reason.message
  | invalidOptions problem => "invalid route options: " ++ problem.message

def RouteError.message : RouteError → String :=
  messageWith Regex.Error.message

end Signpost
