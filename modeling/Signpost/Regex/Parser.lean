import Signpost.Regex.Syntax

/-! # Reading patterns

A pattern is read from left to right. The reader keeps the terms of the current branch, the
branches before it, the flags in force, and for every open group what was there when the group
opened. Sets in brackets are read the same way, with a stack of open brackets and of operators
that wait for their right side.

Of the properties of characters, the general categories and those of `namedProperty?` can be named.
Scripts, script extensions, ages and the other boolean properties are left out: their names are
refused as unknown, though an engine with the full tables takes them.
-/
namespace Signpost.Regex
open Signpost.Unicode

inductive Error where
  | missingOperand
  | unclosedGroup
  | unopenedGroup
  | invalidGroupName
  | repeatedGroupName
  | invalidFlags
  | unsupportedLookaround
  | unsupportedReference
  | invalidEscape
  | unknownProperty
  | unclosedSet
  | invalidSetMember
  | invalidRange
  | invalidCount
  | beyondAscii
  | nestedTooDeeply
  | tooLarge
  deriving DecidableEq, Repr

def Error.message : Error → String
  | missingOperand => "repetition operator without an operand"
  | unclosedGroup => "unclosed group"
  | unopenedGroup => "unopened group"
  | invalidGroupName => "invalid group name"
  | repeatedGroupName => "group name used twice"
  | invalidFlags => "invalid flags"
  | unsupportedLookaround => "look-around is not supported"
  | unsupportedReference => "back-references are not supported"
  | invalidEscape => "unrecognized escape sequence"
  | unknownProperty => "unknown character property"
  | unclosedSet => "unclosed character set"
  | invalidSetMember => "not a member of a character set"
  | invalidRange => "invalid character range"
  | invalidCount => "invalid repetition count"
  | beyondAscii => "characters beyond ASCII without Unicode mode"
  | nestedTooDeeply => "nested too deeply"
  | tooLarge => "compiled size is too large"

structure Flags where
  ignoreCase : Bool := false
  multiLine : Bool := false
  dotAll : Bool := false
  swapGreed : Bool := false
  unicode : Bool := true
  crlf : Bool := false
  verbose : Bool := false
  deriving DecidableEq, Repr

inductive Primitive where
  | literal (c : Char)
  /-- A code unit above ASCII, written with two hexadecimal digits outside Unicode mode. -/
  | unit (c : Char)
  | set (s : CharSet)
  | look (l : Look)

def afterLine (cs : List Char) : List Char :=
  (cs.dropWhile (· != '\n')).drop 1

/-- In verbose mode, the text without leading white space and comments. -/
def skipBlank (verbose : Bool) (cs : List Char) : List Char :=
  if verbose then go cs.length cs else cs
where
  go : Nat → List Char → List Char
    | 0, cs => cs
    | fuel + 1, cs =>
      match cs with
      | '#' :: rest => go fuel (afterLine rest)
      | c :: rest => if isWhiteSpace c then go fuel rest else cs
      | [] => []

def isMetaChar (c : Char) : Bool :=
  "\\.+*?()|[]\x7b\x7d^$#&-~".toList.contains c

/-- Punctuation and controls of ASCII may be escaped though they need not be. -/
def isEscapable (c : Char) : Bool :=
  isMetaChar c || (c.toNat < 0x80 && !c.isAlphanum && c != '<' && c != '>')

def hexValue? (c : Char) : Option Nat :=
  if '0' ≤ c && c ≤ '9' then some (c.toNat - '0'.toNat)
  else if 'a' ≤ c && c ≤ 'f' then some (c.toNat - 'a'.toNat + 10)
  else if 'A' ≤ c && c ≤ 'F' then some (c.toNat - 'A'.toNat + 10)
  else none

def charOf? (n : Nat) : Option Char :=
  if n.isValidChar then some (Char.ofNat n) else none

def hexDigits (verbose : Bool) : Nat → Nat → List Char → Except Error (Nat × List Char)
  | 0, value, cs => .ok (value, cs)
  | count + 1, value, c :: rest =>
    match hexValue? c with
    | some d => hexDigits verbose count (16 * value + d) (skipBlank verbose rest)
    | none => .error .invalidEscape
  | _ + 1, _, [] => .error .invalidEscape

def hexBrace (verbose : Bool) : Nat → Nat → List Char → Except Error (Nat × List Char)
  | 0, _, _ => .error .invalidEscape
  | fuel + 1, value, cs =>
    match cs with
    | '\x7d' :: rest => .ok (value, skipBlank verbose rest)
    | c :: rest =>
      match hexValue? c with
      | some d => hexBrace verbose fuel (16 * value + d) (skipBlank verbose rest)
      | none => .error .invalidEscape
    | [] => .error .invalidEscape

def hexEscape (f : Flags) (count : Nat) (cs : List Char) :
    Except Error (Primitive × List Char) := do
  match skipBlank f.verbose cs with
  | '\x7b' :: rest =>
    let digits := skipBlank f.verbose rest
    if digits.head? = some '\x7d' then throw .invalidEscape
    let (n, rest) ← hexBrace f.verbose (digits.length + 1) 0 digits
    match charOf? n with
    | some c => return (.literal c, rest)
    | none => throw .invalidEscape
  | digits =>
    let (n, rest) ← hexDigits f.verbose count 0 digits
    match charOf? n with
    | some c =>
      if count = 2 && 0x80 ≤ n && !f.unicode then return (.unit c, rest)
      else return (.literal c, rest)
    | none => throw .invalidEscape

/-- Spaces, hyphens and underscores do not count in the names of properties, nor does case. -/
def looseName (cs : List Char) : String :=
  let plain := (cs.filter fun c => !isWhiteSpace c && c != '_' && c != '-').map Char.toLower
  String.ofList (match plain with
    | 'i' :: 's' :: rest => if rest = ['c'] then plain else rest
    | _ => plain)

def categoryGroup? : String → Option (List Category)
  | "l" | "letter" =>
    some [.upperLetter, .lowerLetter, .titleLetter, .modifierLetter, .otherLetter]
  | "lc" | "casedletter" => some [.upperLetter, .lowerLetter, .titleLetter]
  | "m" | "mark" | "combiningmark" => some [.nonspacingMark, .spacingMark, .enclosingMark]
  | "n" | "number" => some [.decimalNumber, .letterNumber, .otherNumber]
  | "p" | "punctuation" | "punct" =>
    some [.connectorPunctuation, .dashPunctuation, .openPunctuation, .closePunctuation,
      .initialQuote, .finalQuote, .otherPunctuation]
  | "s" | "symbol" => some [.mathSymbol, .currencySymbol, .modifierSymbol, .otherSymbol]
  | "z" | "separator" => some [.spaceSeparator, .lineSeparator, .paragraphSeparator]
  | "c" | "other" => some [.control, .format, .surrogate, .privateUse, .unassigned]
  | "lu" | "uppercaseletter" => some [.upperLetter]
  | "ll" | "lowercaseletter" => some [.lowerLetter]
  | "lt" | "titlecaseletter" => some [.titleLetter]
  | "lm" | "modifierletter" => some [.modifierLetter]
  | "lo" | "otherletter" => some [.otherLetter]
  | "mn" | "nonspacingmark" => some [.nonspacingMark]
  | "mc" | "spacingmark" => some [.spacingMark]
  | "me" | "enclosingmark" => some [.enclosingMark]
  | "nd" | "decimalnumber" | "digit" => some [.decimalNumber]
  | "nl" | "letternumber" => some [.letterNumber]
  | "no" | "othernumber" => some [.otherNumber]
  | "pc" | "connectorpunctuation" => some [.connectorPunctuation]
  | "pd" | "dashpunctuation" => some [.dashPunctuation]
  | "ps" | "openpunctuation" => some [.openPunctuation]
  | "pe" | "closepunctuation" => some [.closePunctuation]
  | "pi" | "initialpunctuation" => some [.initialQuote]
  | "pf" | "finalpunctuation" => some [.finalQuote]
  | "po" | "otherpunctuation" => some [.otherPunctuation]
  | "sm" | "mathsymbol" => some [.mathSymbol]
  | "sc" | "currencysymbol" => some [.currencySymbol]
  | "sk" | "modifiersymbol" => some [.modifierSymbol]
  | "so" | "othersymbol" => some [.otherSymbol]
  | "zs" | "spaceseparator" => some [.spaceSeparator]
  | "zl" | "lineseparator" => some [.lineSeparator]
  | "zp" | "paragraphseparator" => some [.paragraphSeparator]
  | "cc" | "control" | "cntrl" => some [.control]
  | "cf" | "format" => some [.format]
  | "cs" | "surrogate" => some [.surrogate]
  | "co" | "privateuse" => some [.privateUse]
  | "cn" | "unassigned" => some [.unassigned]
  | _ => none

/-- The properties that are in the tables, besides the general categories. -/
def namedProperty? : String → Option CharSet
  | "any" => some .all
  | "ascii" => some .ascii
  | "assigned" => some (.compl (.categories [.unassigned]))
  | "alphabetic" | "alpha" => some (.property isAlphabetic)
  | "whitespace" | "wspace" | "space" => some .space
  | "cased" => some (.property isCased)
  | "caseignorable" | "ci" => some (.property isCaseIgnorable)
  | "graphemeextend" | "grext" => some (.property extendsGrapheme)
  | "joincontrol" | "joinc" => some (.property isJoinControl)
  | _ => none

def propertySet? (name : List Char) : Option CharSet :=
  let keyed := name.span (fun c => c != '=' && c != ':')
  match keyed.2 with
  | [] =>
    match namedProperty? (looseName name) with
    | some s => some s
    | none => (categoryGroup? (looseName name)).map .categories
  | _ :: value =>
    let negated := keyed.1.getLast? = some '!'
    let key := looseName (if negated then keyed.1.dropLast else keyed.1)
    if key = "gc" ∨ key = "generalcategory" then
      let s := (categoryGroup? (looseName value)).map CharSet.categories
      if negated then s.map .compl else s
    else none

/-- Closes a set under case where case is ignored, then takes its complement if it is negated. -/
def closeSet (f : Flags) (negated : Bool) (s : CharSet) : CharSet :=
  let folded :=
    if f.ignoreCase then (if f.unicode then .anyCase s else .anyAsciiCase s) else s
  if negated then .compl folded else folded

def propertyEscape (f : Flags) (negated : Bool) (cs : List Char) :
    Except Error (Primitive × List Char) := do
  let close (name rest : List Char) : Except Error (Primitive × List Char) :=
    if !f.unicode then .error .beyondAscii
    else match propertySet? name with
      | some s => .ok (.set (closeSet f negated s), rest)
      | none => .error .unknownProperty
  match skipBlank f.verbose cs with
  | '\x7b' :: rest =>
    let split := rest.span (· != '\x7d')
    match split.2 with
    | _ :: after =>
      close (if f.verbose then split.1.filter (!isWhiteSpace ·) else split.1) after
    | [] => throw .invalidEscape
  | '\\' :: _ => throw .invalidEscape
  | c :: rest => close [c] (skipBlank f.verbose rest)
  | [] => throw .invalidEscape

def wordSet (f : Flags) : CharSet :=
  if f.unicode then .word else .asciiWord

def digitSet (f : Flags) : CharSet :=
  if f.unicode then .digit else .asciiDigit

def spaceSet (f : Flags) : CharSet :=
  if f.unicode then .space else .asciiSpace

def wordLook (f : Flags) (position : WordPosition) : Primitive :=
  .look (.atWord position (wordSet f))

def namedBoundary? : List Char → Option WordPosition
  | ['s', 't', 'a', 'r', 't'] => some .start
  | ['e', 'n', 'd'] => some .stop
  | ['s', 't', 'a', 'r', 't', '-', 'h', 'a', 'l', 'f'] => some .startHalf
  | ['e', 'n', 'd', '-', 'h', 'a', 'l', 'f'] => some .stopHalf
  | _ => none

def boundaryName (verbose : Bool) : Nat → List Char → List Char →
    Except Error (List Char × List Char)
  | 0, _, _ => .error .invalidEscape
  | fuel + 1, name, cs =>
    match cs with
    | '\x7d' :: rest => .ok (name.reverse, rest)
    | c :: rest =>
      if c.isAlpha || c = '-' then
        boundaryName verbose fuel (c :: name) (skipBlank verbose rest)
      else .error .invalidEscape
    | [] => .error .invalidEscape

/-- A word boundary. Braces after it name a special boundary, unless they hold a count. -/
def boundaryEscape (f : Flags) (cs : List Char) : Except Error (Primitive × List Char) := do
  match cs with
  | '\x7b' :: rest =>
    match skipBlank f.verbose rest with
    | [] => throw .invalidEscape
    | c :: more =>
      if c.isAlpha || c = '-' then
        let (name, after) ← boundaryName f.verbose (more.length + 2) [] (c :: more)
        match namedBoundary? name with
        | some position => return (wordLook f position, after)
        | none => throw .invalidEscape
      else return (wordLook f .edge, cs)
  | _ => return (wordLook f .edge, cs)

def escape (f : Flags) : List Char → Except Error (Primitive × List Char)
  | [] => .error .invalidEscape
  | c :: rest =>
    if c.isDigit then .error .unsupportedReference
    else match c with
    | 'x' => hexEscape f 2 rest
    | 'u' => hexEscape f 4 rest
    | 'U' => hexEscape f 8 rest
    | 'p' => propertyEscape f false rest
    | 'P' => propertyEscape f true rest
    | 'd' => .ok (.set (digitSet f), rest)
    | 'D' => .ok (.set (.compl (digitSet f)), rest)
    | 's' => .ok (.set (spaceSet f), rest)
    | 'S' => .ok (.set (.compl (spaceSet f)), rest)
    | 'w' => .ok (.set (wordSet f), rest)
    | 'W' => .ok (.set (.compl (wordSet f)), rest)
    | 'a' => .ok (.literal '\x07', rest)
    | 'f' => .ok (.literal '\x0c', rest)
    | 't' => .ok (.literal '\t', rest)
    | 'n' => .ok (.literal '\n', rest)
    | 'r' => .ok (.literal '\r', rest)
    | 'v' => .ok (.literal '\x0b', rest)
    | 'A' => .ok (.look .textStart, rest)
    | 'z' => .ok (.look .textEnd, rest)
    | 'b' => boundaryEscape f rest
    | 'B' => .ok (wordLook f .inside, rest)
    | '<' => .ok (wordLook f .start, rest)
    | '>' => .ok (wordLook f .stop, rest)
    | _ => if isEscapable c then .ok (.literal c, rest) else .error .invalidEscape

/-- A set with the depth of brackets and operators in it. -/
structure SetTerm where
  set : CharSet
  depth : Nat

inductive SetOperator where
  | inter
  | diff
  | symmDiff
  deriving DecidableEq

/-- What waits around the members being read: an open bracket, or an operator's left side. -/
inductive SetFrame where
  | bracket (members : List SetTerm) (negated : Bool)
  | operator (op : SetOperator) (left : SetTerm)

def unionTerm : List SetTerm → SetTerm
  | [] => ⟨.none, 0⟩
  | [t] => t
  | ts =>
    let members := ts.reverse
    ⟨(members.map SetTerm.set).foldr .union .none,
      1 + (members.map SetTerm.depth).foldl max 0⟩

def applyOperator (f : Flags) (op : SetOperator) (left right : SetTerm) : SetTerm :=
  let a := closeSet f false left.set
  let b := closeSet f false right.set
  let set := match op with
    | .inter => CharSet.inter a b
    | .diff => CharSet.diff a b
    | .symmDiff => CharSet.symmDiff a b
  ⟨set, 1 + max left.depth right.depth⟩

def completeOperator (f : Flags) (frames : List SetFrame) (right : SetTerm) :
    List SetFrame × SetTerm :=
  match frames with
  | .operator op left :: rest => (rest, applyOperator f op left right)
  | _ => (frames, right)

/-- Hyphens right after an opening bracket stand for themselves. -/
def leadingHyphens (verbose : Bool) : Nat → List SetTerm → List Char → List SetTerm × List Char
  | fuel + 1, members, '-' :: rest =>
    leadingHyphens verbose fuel (⟨.single '-', 0⟩ :: members) (skipBlank verbose rest)
  | _, members, cs => (members, cs)

def openBracket (f : Flags) (cs : List Char) : Bool × List SetTerm × List Char :=
  let body := skipBlank f.verbose cs
  let negated := body.head? = some '^'
  let inner := if negated then skipBlank f.verbose (body.drop 1) else body
  let (members, rest) := leadingHyphens f.verbose (inner.length + 1) [] inner
  match members, rest with
  | [], ']' :: after => (negated, [⟨.single ']', 0⟩], skipBlank f.verbose after)
  | _, _ => (negated, members, rest)

def asciiNamed? (f : Flags) : List Char → Option (CharSet × List Char)
  | '[' :: ':' :: body =>
    let negated := body.head? = some '^'
    let inner := if negated then body.drop 1 else body
    let split := inner.span (· != ':')
    match split.2 with
    | ':' :: ']' :: rest =>
      (CharSet.ofAsciiName? (String.ofList split.1)).map fun s => (closeSet f negated s, rest)
    | _ => none
  | _ => none

def setPrimitive (f : Flags) : List Char → Except Error (Primitive × List Char)
  | [] => .error .unclosedSet
  | '\\' :: rest => escape f rest
  | c :: rest => .ok (.literal c, rest)

/-- The character that a bound of a range, or a member outside Unicode mode, denotes. -/
def memberChar (f : Flags) : Primitive → Except Error Char
  | .literal c => if f.unicode || c.toNat < 0x80 then .ok c else .error .beyondAscii
  | .unit c => .ok c
  | _ => .error .invalidRange

def setMember (f : Flags) (cs : List Char) : Except Error (SetTerm × List Char) := do
  let (first, afterFirst) ← setPrimitive f cs
  let rest := skipBlank f.verbose afterFirst
  let following := (skipBlank f.verbose (rest.drop 1)).head?
  if rest.isEmpty then throw .unclosedSet
  if rest.head? != some '-' || following == some ']' || following == some '-' then
    match first with
    | .set s => return (⟨s, 0⟩, rest)
    | .look _ => throw .invalidSetMember
    | p => return (⟨.single (← memberChar f p), 0⟩, rest)
  else
    let (last, after) ← setPrimitive f (skipBlank f.verbose (rest.drop 1))
    let low ← memberChar f first
    let high ← memberChar f last
    if low ≤ high then return (⟨.range low high, 0⟩, after) else throw .invalidRange

/-- Outside Unicode mode a set may hold code units of ASCII only. -/
def checkedSet (f : Flags) (s : CharSet) : Except Error CharSet :=
  if f.unicode then .ok s
  else if (List.range 128).any (fun i => s.mem (Char.ofNat (0x80 + i))) then
    .error .beyondAscii
  else .ok (.inter s .ascii)

def setLoop (f : Flags) : Nat → List SetFrame → List SetTerm → List Char →
    Except Error (SetTerm × List Char)
  | 0, _, _, _ => .error .unclosedSet
  | fuel + 1, frames, members, cs =>
    match skipBlank f.verbose cs with
    | [] => .error .unclosedSet
    | '[' :: rest =>
      match asciiNamed? f ('[' :: rest) with
      | some (s, after) => setLoop f fuel frames (⟨s, 0⟩ :: members) after
      | none =>
        let (negated, opening, after) := openBracket f rest
        setLoop f fuel (.bracket members negated :: frames) opening after
    | ']' :: rest =>
      match completeOperator f frames (unionTerm members) with
      | (.bracket outer negated :: below, inner) =>
        let closed : SetTerm := ⟨closeSet f negated inner.set, 1 + inner.depth⟩
        if below.isEmpty then .ok (closed, rest)
        else setLoop f fuel below (closed :: outer) rest
      | _ => .error .unclosedSet
    | '&' :: '&' :: rest => operator fuel .inter frames members rest
    | '-' :: '-' :: rest => operator fuel .diff frames members rest
    | '~' :: '~' :: rest => operator fuel .symmDiff frames members rest
    | other => do
      let (member, rest) ← setMember f other
      setLoop f fuel frames (member :: members) rest
termination_by fuel => 2 * fuel
where
  operator (fuel : Nat) (op : SetOperator) (frames : List SetFrame) (members : List SetTerm)
      (rest : List Char) : Except Error (SetTerm × List Char) :=
    let (below, left) := completeOperator f frames (unionTerm members)
    setLoop f fuel (.operator op left :: below) [] rest
  termination_by 2 * fuel + 1

def bracketed (f : Flags) (cs : List Char) : Except Error (SetTerm × List Char) := do
  let (negated, opening, rest) := openBracket f cs
  let (term, after) ← setLoop f (2 * cs.length + 2) [.bracket [] negated] opening rest
  return (⟨← checkedSet f term.set, term.depth⟩, after)

/-- A part of a branch. Flags stand in a branch but take no repetition operator. -/
structure Term where
  node : Node
  depth : Nat
  repeatable : Bool := true

structure OpenGroup where
  terms : List Term
  branches : List Term
  flags : Flags
  capture : Option Nat

structure ReadState where
  groups : List OpenGroup
  terms : List Term
  branches : List Term
  flags : Flags
  captures : Nat
  names : List (List Char)

def branchTerm : List Term → Term
  | [] => ⟨.empty, 0, true⟩
  | [t] => t
  | ts =>
    let terms := ts.reverse
    ⟨Node.catAll (terms.map Term.node), 1 + (terms.map Term.depth).foldl max 0, true⟩

def groupBody (branches terms : List Term) : Term :=
  match branches with
  | [] => branchTerm terms
  | _ =>
    let all := (branchTerm terms :: branches).reverse
    ⟨Node.altAll (all.map Term.node), 1 + (all.map Term.depth).foldl max 0, true⟩

def ReadState.push (st : ReadState) (t : Term) : ReadState :=
  { st with terms := t :: st.terms }

def literalNode (f : Flags) (c : Char) : Node :=
  if !f.ignoreCase then .read (.single c)
  else if f.unicode then .read (.anyCase (.single c))
  else .read (.anyAsciiCase (.single c))

def dotSet (f : Flags) : CharSet :=
  if f.dotAll then .all
  else if f.crlf then .compl (.ofList ['\r', '\n'])
  else .compl (.single '\n')

def primitiveNode (f : Flags) : Primitive → Except Error Node
  | .literal c => .ok (literalNode f c)
  | .unit _ => .error .beyondAscii
  | .set s => (checkedSet f s).map .read
  | .look l => .ok (.look l)

def ReadState.repeatLast (st : ReadState) (min : Nat) (max : Option Nat) (lazily : Bool) :
    Except Error ReadState :=
  match st.terms with
  | t :: before =>
    if t.repeatable then
      .ok { st with terms :=
        ⟨t.node.repeated min max (st.flags.swapGreed == lazily), 1 + t.depth, true⟩ :: before }
    else .error .missingOperand
  | [] => .error .missingOperand

/-- A question mark right after a repetition operator makes it lazy. -/
def lazyMark : List Char → Bool × List Char
  | '?' :: rest => (true, rest)
  | cs => (false, cs)

/-- A decimal number below 2^32 with white space around it, and the rest. -/
def decimal (verbose : Bool) (cs : List Char) : Option (Except Error Nat) × List Char :=
  let body := cs.dropWhile isWhiteSpace
  let (digits, after) := digitRun (body.length + 1) [] body
  let rest := after.dropWhile isWhiteSpace
  if digits.isEmpty then (none, rest)
  else
    let n := digits.foldl (fun n d => 10 * n + (d.toNat - '0'.toNat)) 0
    (some (if n < Nat.pow 2 32 then .ok n else .error .invalidCount), rest)
where
  digitRun : Nat → List Char → List Char → List Char × List Char
    | fuel + 1, digits, c :: rest =>
      if c.isDigit then digitRun fuel (c :: digits) (skipBlank verbose rest)
      else (digits.reverse, c :: rest)
    | _, digits, cs => (digits.reverse, cs)

def bounds (verbose : Bool) (cs : List Char) :
    Except Error (Nat × Option Nat × List Char) := do
  let (first, rest) := decimal verbose (skipBlank verbose cs)
  let needed : Option (Except Error Nat) → Except Error Nat
    | some n => n
    | none => .error .invalidCount
  match rest with
  | ',' :: more =>
    match skipBlank verbose more with
    | '\x7d' :: after => return (← needed first, none, after)
    | [] => throw .invalidCount
    | other =>
      let low ← needed first
      let (second, after) := decimal verbose other
      let high ← needed second
      match after with
      | '\x7d' :: after => if low ≤ high then return (low, some high, after)
                           else throw .invalidCount
      | _ => throw .invalidCount
  | '\x7d' :: after => do
    let n ← needed first
    return (n, some n, after)
  | _ => throw .invalidCount

def Flags.set? (f : Flags) (letter : Char) (value : Bool) : Option Flags :=
  match letter with
  | 'i' => some { f with ignoreCase := value }
  | 'm' => some { f with multiLine := value }
  | 's' => some { f with dotAll := value }
  | 'U' => some { f with swapGreed := value }
  | 'u' => some { f with unicode := value }
  | 'R' => some { f with crlf := value }
  | 'x' => some { f with verbose := value }
  | _ => none

/-- Reads flags up to the colon or parenthesis after them. No flag and no sign stands twice, and
a sign is followed by a flag. -/
def flagItems : List Char → (seen : List Char) → Flags →
    Except Error (List Char × Flags × List Char)
  | [], _, _ => .error .invalidFlags
  | c :: rest, seen, f =>
    if c = ':' || c = ')' then
      if seen.head? = some '-' then .error .invalidFlags else .ok (seen, f, c :: rest)
    else if seen.contains c then .error .invalidFlags
    else if c = '-' then flagItems rest (c :: seen) f
    else match f.set? c (!seen.contains '-') with
      | some f => flagItems rest (c :: seen) f
      | none => .error .invalidFlags

def isGroupNameStart (c : Char) : Bool :=
  c = '_' || isAlphabetic c

def isGroupNameChar (c : Char) : Bool :=
  c = '_' || c = '.' || c = '[' || c = ']' || isAlphabetic c || isNumeric c

def groupName (cs : List Char) : Except Error (List Char × List Char) :=
  let split := cs.span (· != '>')
  match split with
  | (c :: name, _ :: rest) =>
    if isGroupNameStart c && name.all isGroupNameChar then .ok (c :: name, rest)
    else .error .invalidGroupName
  | _ => .error .invalidGroupName

/-- Opens a group; its branches start empty and its flags end with it. -/
def ReadState.openGroup (st : ReadState) (capture : Option Nat) (inside : Flags) : ReadState :=
  { st with
    groups := ⟨st.terms, st.branches, st.flags, capture⟩ :: st.groups
    terms := []
    branches := []
    flags := inside
    captures := if capture.isSome then st.captures + 1 else st.captures }

def ReadState.closeGroup (st : ReadState) : Except Error ReadState :=
  match st.groups with
  | [] => .error .unopenedGroup
  | g :: outer =>
    let body := groupBody st.branches st.terms
    let node := match g.capture with
      | some index => Node.group index body.node
      | none => body.node
    .ok { st with
      groups := outer
      terms := ⟨node, 1 + body.depth, true⟩ :: g.terms
      branches := g.branches
      flags := g.flags }

def ReadState.openNamed (st : ReadState) (cs : List Char) :
    Except Error (ReadState × List Char) := do
  let (name, rest) ← groupName cs
  if st.names.contains name then throw .repeatedGroupName
  let opened := st.openGroup (some (st.captures + 1)) st.flags
  return ({ opened with names := name :: st.names }, rest)

/-- What an opening parenthesis begins: a group of some kind, or flags for the rest of the
group around it. -/
def ReadState.parenthesis (st : ReadState) (cs : List Char) :
    Except Error (ReadState × List Char) :=
  match skipBlank st.flags.verbose cs with
  | '?' :: '=' :: _ | '?' :: '!' :: _ | '?' :: '<' :: '=' :: _ | '?' :: '<' :: '!' :: _ =>
    .error .unsupportedLookaround
  | '?' :: 'P' :: '<' :: rest => st.openNamed rest
  | '?' :: '<' :: rest => st.openNamed rest
  | '?' :: rest => do
    let (seen, flags, after) ← flagItems rest [] st.flags
    match after with
    | ':' :: rest => return (st.openGroup none flags, rest)
    | _ :: rest =>
      if seen.isEmpty then throw .missingOperand
      else return ({ st.push ⟨.empty, 0, false⟩ with flags := flags }, rest)
    | [] => throw .unclosedGroup
  | rest => .ok (st.openGroup (some (st.captures + 1)) st.flags, rest)

def ReadState.element (st : ReadState) (c : Char) (rest : List Char) :
    Except Error (ReadState × List Char) :=
  match c with
  | '(' => st.parenthesis rest
  | ')' => st.closeGroup.map (·, rest)
  | '|' => .ok ({ st with terms := [], branches := branchTerm st.terms :: st.branches }, rest)
  | '[' => do
    let (term, after) ← bracketed st.flags rest
    return (st.push ⟨.read term.set, term.depth, true⟩, after)
  | '?' =>
    let (lazily, after) := lazyMark rest
    (st.repeatLast 0 (some 1) lazily).map (·, after)
  | '*' =>
    let (lazily, after) := lazyMark rest
    (st.repeatLast 0 none lazily).map (·, after)
  | '+' =>
    let (lazily, after) := lazyMark rest
    (st.repeatLast 1 none lazily).map (·, after)
  | '\x7b' => do
    let (min, max, after) ← bounds st.flags.verbose rest
    let (lazily, after) := lazyMark (skipBlank st.flags.verbose after)
    return (← st.repeatLast min max lazily, after)
  | '.' => do
    let set ← checkedSet st.flags (dotSet st.flags)
    return (st.push ⟨.read set, 0, true⟩, rest)
  | '^' =>
    let look := if st.flags.multiLine then Look.lineStart st.flags.crlf else .textStart
    .ok (st.push ⟨.look look, 0, true⟩, rest)
  | '$' =>
    let look := if st.flags.multiLine then Look.lineEnd st.flags.crlf else .textEnd
    .ok (st.push ⟨.look look, 0, true⟩, rest)
  | '\\' => do
    let (p, after) ← escape st.flags rest
    return (st.push ⟨← primitiveNode st.flags p, 0, true⟩, after)
  | c => .ok (st.push ⟨literalNode st.flags c, 0, true⟩, rest)

def ReadState.run : Nat → ReadState → List Char → Except Error ReadState
  | 0, st, _ => .ok st
  | fuel + 1, st, cs =>
    match skipBlank st.flags.verbose cs with
    | [] => .ok st
    | c :: rest => do
      let (st, rest) ← st.element c rest
      run fuel st rest

def maxDepth : Nat := 250

/-- The tree of a pattern and the number of its capturing groups. -/
def parse (source : List Char) (ignoreCase : Bool) : Except Error (Node × Nat) := do
  let start : ReadState := ⟨[], [], [], { ignoreCase }, 0, []⟩
  let st ← start.run (source.length + 1) source
  if !st.groups.isEmpty then throw .unclosedGroup
  let body := groupBody st.branches st.terms
  if maxDepth < body.depth then throw .nestedTooDeeply
  return (body.node, st.captures)

end Signpost.Regex
