/-! # Commands

What the program is told to do: to show the routes of a file, to match requests, or to build an
address.
-/
namespace Signpost.Cli

/-- What requests have in common that are made on the command line. -/
structure RequestOptions where
  method : String := "get"
  host : String := ""
  protocol : String := "http://"
  fields : List (String × String) := []
  deriving DecidableEq, Repr

inductive Command where
  | routes
  /-- Matches one path, or the lines of the input if there is none. -/
  | matching (path : Option String) (request : RequestOptions)
  | generate (name : String) (params : List (String × String))
  | watch (request : RequestOptions)
  deriving DecidableEq, Repr

def Command.readsInput : Command → Bool
  | matching none _ => true
  | watch _ => true
  | _ => false

structure Invocation where
  file : Option String
  command : Command
  deriving DecidableEq, Repr

end Signpost.Cli
