import Signpost.RouteFile.Declare
import Signpost.RouteFile.Read

/-! # Loading route files

Reads a file's bytes as a route file and installs it. A file that cannot be loaded changes nothing.
-/
namespace Signpost

inductive LoadError where
  | unreadable
  | invalid (problem : RouteFile.Problem)
  | rejected (error : RouteError)
  deriving DecidableEq, Repr

namespace LoadError

/-- What went wrong with the file at `path`, from the outside to the cause, with `routeMessage`
for the text of an error of routes. -/
def messagesWith (routeMessage : RouteError → String) (path : String) : LoadError → List String
  | unreadable => ["Failed to read route file " ++ path]
  | invalid problem => ["Invalid route file " ++ path, problem.message]
  | rejected error => ["Invalid routes in " ++ path, routeMessage error]

end LoadError

namespace Router

def load (r : Router) (bytes : Option ByteArray) : Except LoadError Router :=
  match bytes.bind String.fromUTF8? with
  | none => .error .unreadable
  | some text =>
    match RouteFile.ofText text with
    | .error problem => .error (.invalid problem)
    | .ok file =>
      let change := r.install file
      match change.failure with
      | some error => .error (.rejected error)
      | none => .ok change.router

end Router

end Signpost
