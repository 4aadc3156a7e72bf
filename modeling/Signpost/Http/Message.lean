import Signpost.Http.Uri
import Signpost.Request

/-! # HTTP messages

The head of an HTTP request: its method, its target and its header fields. A message that holds
what HTTP does not allow is refused; others are read as requests.
-/
namespace Signpost.Http

structure Message where
  method : String
  target : Uri
  /-- Fields in order of arrival, their names in lower case. -/
  headers : List (String × String)
  deriving DecidableEq, Repr

namespace Message

def isTokenChar (c : Char) : Bool :=
  c.isAlphanum || "!#$%&'*+-.^_\x60|~".toList.contains c

def isToken (s : String) : Bool :=
  !s.isEmpty && s.toList.all isTokenChar

def maxNameLength : Nat := 65535

/-- Characters of header values; a tab is the only control among them. -/
def isValueChar (c : Char) : Bool :=
  c = '\t' || (' ' ≤ c && c != '\x7f')

def isVisible (value : String) : Bool :=
  value.toList.all fun c => c = '\t' || (' ' ≤ c && c < '\x7f')

def asciiLower (s : String) : String :=
  s.map Char.toLower

def header? (name value : String) : Option (String × String) :=
  if isToken name && name.length ≤ maxNameLength && value.toList.all isValueChar then
    some (asciiLower name, value)
  else none

def parse? (method target : String) (headers : List (String × String)) : Option Message := do
  let uri ← Uri.parse? target
  let fields ← headers.mapM fun (name, value) => header? name value
  if isToken method then some ⟨method, uri, fields⟩ else none

/-- The fields grouped by name, in the order in which the names first arrive. -/
def grouped (headers : List (String × String)) : List (String × String) :=
  (headers.map Prod.fst).eraseDups.flatMap fun name => headers.filter (·.1 == name)

/-- The first host field if it is readable, else the authority of the target. -/
def host (m : Message) : String :=
  match m.headers.lookup "host" with
  | some value => if isVisible value then value else m.target.authority
  | none => m.target.authority

/-- Header fields are request fields with underscores for hyphens. -/
def fieldName (name : String) : String :=
  name.map fun c => if c = '-' then '_' else c

def withHeaders (r : Request) (headers : List (String × String)) : Request :=
  (grouped headers).foldl (fun r (name, value) =>
    if isVisible value then r.withField (fieldName name) value else r) r

/-- The request was sent by a script of a page. -/
def isScripted (r : Request) : Bool :=
  match r.get? "x_requested_with" with
  | some value => asciiLower value == "xmlhttprequest"
  | none => false

def toRequest (m : Message) : Request :=
  let plain : Request :=
    { path := m.target.path
      protocol := if m.target.scheme = some "https" then "https://" else "http://"
      host := m.host }
  let r := withHeaders (plain.withMethod m.method) m.headers
  r.withFlag "xhr" (isScripted r)

end Message

end Signpost.Http
