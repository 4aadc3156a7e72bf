import Signpost.Field
import Signpost.Ordered
import Signpost.Unicode.Lowercase

/-! # Requests

What routes can look at in a request. Methods are held in lower case, and a field that a request
does not carry reads as the empty text.
-/
namespace Signpost

structure Request where
  path : String
  method : String := "get"
  protocol : String := "http://"
  host : String := ""
  fields : Entries String String := []
  deriving DecidableEq, Repr

namespace Request

def withMethod (r : Request) (method : String) : Request :=
  { r with method := Unicode.lowercase method }

def withField (r : Request) (name value : String) : Request :=
  { r with fields := r.fields.insert name value }

def withFlag (r : Request) (name : String) (on : Bool) : Request :=
  r.withField name (if on then "true" else "false")

def get? (r : Request) (name : String) : Option String :=
  r.fields.find? name

def isOn (r : Request) (name : String) : Bool :=
  r.get? name == some "true"

/-- The text that a condition on a field is tested against. -/
def value (r : Request) : Field → String
  | .path => r.path
  | .method => r.method
  | .protocol => r.protocol
  | .host => r.host
  | .custom name => (r.get? name).getD ""

end Request

end Signpost
