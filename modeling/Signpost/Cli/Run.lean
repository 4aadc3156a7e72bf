import Signpost.Cli.Command
import Signpost.RouteFile.Load
import Signpost.Settings
import Signpost.Text.Json

/-! # Running commands

What a command writes, given the files that can be read and the bytes of the input, and where it
fails. Text that was written before a failure stays written.

A command that watches its file answers lines with the routes that it loaded first. That the file is
loaded again when it changes, and that it may be impossible to watch, is left out.
-/
namespace Signpost.Cli
open Signpost.Text (JsonValue)

inductive RunError where
  | noFile
  | load (path : String) (error : LoadError)
  | address (name : String) (error : RouteError)
  /-- A line of the input is not a text. -/
  | input
  deriving DecidableEq, Repr

namespace RunError

/-- What went wrong, from the outside to the cause. -/
def messagesWith (routeMessage : RouteError → String) : RunError → List String
  | noFile => ["no route file given: pass --file or set ROUTEFORGE_ROUTES"]
  | load path error => error.messagesWith routeMessage path
  | address name error =>
    ["Failed to generate URL for '" ++ name ++ "'", routeMessage error]
  | input => ["Failed to read request line"]

end RunError

structure Written where
  out : String
  failure : Option RunError := none
  deriving DecidableEq, Repr

/-- A named route with its template, or nothing if it has none. -/
def namedLine (r : Router) (name : String) : String :=
  let template := ((r.namedRoute? name).bind Route.template?).getD ""
  "[named] " ++ name ++ " => " ++ template

def routeLines (r : Router) : List String :=
  ("[routes] count=" ++ toString r.size) :: r.summaries ++ r.routeNames.map (namedLine r)

def lines (ls : List String) : String :=
  String.join (ls.map (· ++ "\n"))

def RequestOptions.request (o : RequestOptions) (path method : String) : Request :=
  let plain := ({ path } : Request).withMethod method
  o.fields.foldl (fun r (name, value) => r.withField name value)
    { plain with host := o.host, protocol := o.protocol }

def answer (r : Router) (request : Request) : JsonValue :=
  let found := r.matchRequest request
  let name := (found.index.bind r.routeAt?).bind Route.name
  .object
    [("index", (found.index.map JsonValue.number).getD .null),
     ("name", (name.map JsonValue.string).getD .null),
     ("params", .object (found.params.map fun (key, value) => (key, .string value)))]

/-- A line of the input with its end, and the bytes after it. -/
def splitLine (bytes : List UInt8) : List UInt8 × List UInt8 :=
  let line := bytes.takeWhile (· ≠ 10)
  let rest := bytes.drop line.length
  (line ++ rest.take 1, rest.drop 1)

theorem splitLine_length (b : UInt8) (bytes : List UInt8) :
    (splitLine (b :: bytes)).2.length < (b :: bytes).length := by
  simp only [splitLine, List.length_drop, List.length_cons]
  omega

/-- The lines of the input as bytes; a last line without an end counts if it is not empty. -/
def inputLines (bytes : List UInt8) : List (List UInt8) :=
  match bytes with
  | [] => []
  | b :: rest => (splitLine (b :: rest)).1 :: inputLines (splitLine (b :: rest)).2
termination_by bytes.length
decreasing_by exact splitLine_length b rest

/-- The request of a line: a method and a path, or a path alone. Blank lines and comments are none. -/
def lineRequest? (o : RequestOptions) (line : String) : Option Request :=
  match Unicode.trim line.toList with
  | [] => none
  | '#' :: _ => none
  | cs =>
    match cs.dropWhile (!Unicode.isWhiteSpace ·) with
    | [] => some (o.request (String.ofList cs) o.method)
    | _ :: path =>
      let method := String.ofList (cs.takeWhile (!Unicode.isWhiteSpace ·))
      some (o.request (String.ofList (Unicode.trim path)) method)

def lineAnswer (r : Router) (o : RequestOptions) (line : String) : String :=
  match lineRequest? o line with
  | some request => (answer r request).compact ++ "\n"
  | none => ""

/-- Answers lines up to the first one that is not a text. -/
def serve (r : Router) (o : RequestOptions) : List (List UInt8) → Written
  | [] => { out := "" }
  | line :: rest =>
    match String.fromUTF8? line.toByteArray with
    | none => ⟨"", some .input⟩
    | some text =>
      let after := serve r o rest
      { after with out := lineAnswer r o text ++ after.out }

def Command.run (r : Router) (input : ByteArray) : Command → Written
  | .routes => { out := lines (routeLines r) }
  | .matching (some path) o =>
    { out := lines [(answer r (o.request path o.method)).pretty 0] }
  | .matching none o => serve r o (inputLines input.toList)
  | .watch o => serve r o (inputLines input.toList)
  | .generate name params =>
    match r.url name (.texts (Entries.ofList params)) with
    | .ok address => { out := lines [address] }
    | .error error => ⟨"", some (.address name error)⟩

/-- Loads the route file of an invocation, or that of the settings, and runs the command. -/
def Invocation.run (i : Invocation) (settings : Settings) (file? : String → Option ByteArray)
    (input : ByteArray) : Written :=
  match i.file.or settings.routesFile with
  | none => ⟨"", some .noFile⟩
  | some path =>
    match Router.new.load (file? path) with
    | .error error => ⟨"", some (.load path error)⟩
    | .ok router => i.command.run router input

end Signpost.Cli
