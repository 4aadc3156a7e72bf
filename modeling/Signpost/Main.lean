import Signpost.Cli.Arguments
import Signpost.Cli.Run

/-! # Program

Reads arguments, variables, the route file and the input, and prints what the command writes.
-/
namespace Signpost.Cli

partial def readAll (stream : IO.FS.Stream) (bytes : ByteArray) : IO ByteArray := do
  let chunk ← stream.read 65536
  if chunk.isEmpty then return bytes
  readAll stream (bytes ++ chunk)

def readFile? (path : String) : IO (Option ByteArray) := do
  try
    return some (← IO.FS.readBinFile path)
  catch _ =>
    return none

def readSettings : IO Settings := do
  let names := ["ROUTEFORGE_ROUTES", "ROUTEFORGE_WATCH", "ROUTEFORGE_SLOW_MATCH_US"]
  let values ← names.mapM fun name => return (name, ← IO.getEnv name)
  return Settings.ofLookup fun name => (values.lookup name).join

def runInvocation (i : Invocation) : IO UInt32 := do
  let settings ← readSettings
  let path := i.file.or settings.routesFile
  let bytes ← match path with
    | some path => readFile? path
    | none => pure none
  let input ← if i.command.readsInput then readAll (← IO.getStdin) .empty else pure .empty
  let written := i.run settings (fun _ => bytes) input
  IO.print written.out
  match written.failure with
  | none => return 0
  | some error =>
    IO.eprintln ("Error: " ++ ": ".intercalate (error.messagesWith RouteError.message))
    return 1

end Signpost.Cli

def main (args : List String) : IO UInt32 := do
  match Signpost.Cli.Invocation.read args with
  | .ok i => Signpost.Cli.runInvocation i
  | .error e =>
    if e.isRequested then
      IO.println e.message
      return 0
    else
      IO.eprintln ("error: " ++ e.message)
      return 2
