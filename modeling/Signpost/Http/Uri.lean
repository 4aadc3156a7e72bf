/-! # Request targets

The target of a request is a path, an asterisk, an authority by itself, or an address with a
scheme. Reading one splits it into these parts and refuses characters that a target cannot hold.
-/
namespace Signpost.Http

structure Uri where
  scheme : Option String
  /-- Host and port, with user information before them; empty if there is none. -/
  authority : String
  path : String
  deriving DecidableEq, Repr

namespace Uri

def maxLength : Nat := 65534

def maxSchemeLength : Nat := 64

def isSchemeChar (c : Char) : Bool :=
  c.isAlphanum || c = '+' || c = '-' || c = '.' || c = '~'

inductive SchemePart where
  | absent
  | tooLong
  | present (scheme rest : List Char)

def sameLetters (a b : List Char) : Bool :=
  a.map Char.toLower == b.map Char.toLower

def schemePart (cs : List Char) : SchemePart :=
  if sameLetters (cs.take 7) "http://".toList then .present "http".toList (cs.drop 7)
  else if sameLetters (cs.take 8) "https://".toList then .present "https".toList (cs.drop 8)
  else if cs.length ≤ 3 then .absent
  else
    let scheme := cs.takeWhile isSchemeChar
    match cs.dropWhile isSchemeChar with
    | ':' :: '/' :: '/' :: rest =>
      if maxSchemeLength < scheme.length then .tooLong else .present scheme rest
    | _ => .absent

/-- Characters of an authority; a percent sign counts only in user information and zones. -/
def isAuthorityChar (c : Char) : Bool :=
  c.isAlphanum || "!$&'()*+,-.:;=@[]_~%".toList.contains c

def endsAuthority (c : Char) : Bool :=
  c = '/' || c = '?' || c = '#'

/-- What was seen since the last at sign or closing bracket. -/
structure AuthorityScan where
  colons : Nat := 0
  opened : Bool := false
  closed : Bool := false
  percent : Bool := false
  afterAt : Bool := false

def maxColons : Nat := 8

def AuthorityScan.step (s : AuthorityScan) (c : Char) : Option AuthorityScan :=
  let s := { s with afterAt := false }
  if !isAuthorityChar c then none
  else match c with
    | ':' => if maxColons ≤ s.colons then none else some { s with colons := s.colons + 1 }
    | '[' => if s.percent || s.opened then none else some { s with opened := true }
    | ']' =>
      if !s.opened || s.closed then none
      else some { s with closed := true, colons := 0, percent := false }
    | '@' => some { s with colons := 0, percent := false, afterAt := true }
    | '%' => some { s with percent := true }
    | _ => some s

def AuthorityScan.accepts (s : AuthorityScan) : Bool :=
  s.opened == s.closed && s.colons ≤ 1 && !s.afterAt && !s.percent

def authorityPart? (cs : List Char) : Option (List Char × List Char) :=
  let authority := cs.takeWhile (!endsAuthority ·)
  match authority.foldlM AuthorityScan.step {} with
  | some s => if s.accepts then some (authority, cs.dropWhile (!endsAuthority ·)) else none
  | none => none

def isPathChar (c : Char) : Bool :=
  '!' ≤ c && !("#<>?\x60".toList.contains c)

def isQueryChar (c : Char) : Bool :=
  '!' ≤ c && !("\"#<>".toList.contains c)

/-- The path at the start of a text, before its query and fragment; none if a character of it or
of the query is not allowed. -/
def pathPart? (cs : List Char) : Option (List Char) :=
  let whole := cs.takeWhile (· != '#')
  let path := whole.takeWhile (· != '?')
  let query := (whole.dropWhile (· != '?')).drop 1
  if path.all isPathChar && query.all isQueryChar then some path else none

/-- A path that is written empty is a slash. -/
def orSlash (path : List Char) : String :=
  if path.isEmpty then "/" else String.ofList path

def parse? (s : String) : Option Uri :=
  if maxLength < s.utf8ByteSize then none
  else match s.toList with
    | [] => none
    | ['*'] => some ⟨none, "", "*"⟩
    | '/' :: rest => (pathPart? ('/' :: rest)).map fun path => ⟨none, "", String.ofList path⟩
    | cs =>
      match schemePart cs with
      | .tooLong => none
      | .absent =>
        match authorityPart? cs with
        | some (authority, []) => some ⟨none, String.ofList authority, ""⟩
        | _ => none
      | .present scheme rest =>
        match authorityPart? rest with
        | some (c :: authority, after) =>
          (pathPart? after).map fun path =>
            ⟨some (String.ofList scheme), String.ofList (c :: authority), orSlash path⟩
        | _ => none

end Uri

end Signpost.Http
