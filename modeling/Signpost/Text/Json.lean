/-! # JSON

Values of the JSON format without fractions and lists, and their text in one line or indented.
-/
namespace Signpost.Text

inductive JsonValue where
  | null
  | number (n : Nat)
  | string (s : String)
  | object (entries : List (String × JsonValue))

namespace JsonValue

def hexDigit (n : Nat) : Char :=
  if n < 10 then Char.ofNat ('0'.toNat + n) else Char.ofNat ('a'.toNat + (n - 10))

/-- Quotes, backslashes and control characters are escaped; all else stands for itself. -/
def escape (c : Char) : List Char :=
  if c = '"' || c = '\\' then ['\\', c]
  else if c = '\x08' then ['\\', 'b']
  else if c = '\x0c' then ['\\', 'f']
  else if c = '\n' then ['\\', 'n']
  else if c = '\r' then ['\\', 'r']
  else if c = '\t' then ['\\', 't']
  else if c.toNat < 32 then
    ['\\', 'u', '0', '0', hexDigit (c.toNat / 16), hexDigit (c.toNat % 16)]
  else [c]

def quote (s : String) : String :=
  String.ofList ('"' :: (s.toList.flatMap escape ++ ['"']))

mutual

def compact : JsonValue → String
  | null => "null"
  | number n => toString n
  | string s => quote s
  | object entries => "\x7b" ++ ",".intercalate (compactEntries entries) ++ "\x7d"

def compactEntries : List (String × JsonValue) → List String
  | [] => []
  | (key, value) :: rest => (quote key ++ ":" ++ compact value) :: compactEntries rest

end

def newLine (indent : Nat) : String :=
  String.ofList ('\n' :: List.replicate indent ' ')

mutual

/-- The value with every entry in a line of its own, indented by two more than its object. -/
def pretty (indent : Nat) : JsonValue → String
  | null => "null"
  | number n => toString n
  | string s => quote s
  | object [] => "\x7b\x7d"
  | object entries =>
    "\x7b" ++ ",".intercalate (prettyEntries (indent + 2) entries) ++ newLine indent ++ "\x7d"

def prettyEntries (indent : Nat) : List (String × JsonValue) → List String
  | [] => []
  | (key, value) :: rest =>
    (newLine indent ++ quote key ++ ": " ++ pretty indent value) :: prettyEntries indent rest

end

end JsonValue

end Signpost.Text
