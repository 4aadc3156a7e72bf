import Signpost.Yaml.Property
import Signpost.Yaml.Scalar

/-! # Layout

Turns a source into tokens. The layout keeps the columns of the open blocks and the place where a
key may have started: a colon after it makes it one, and opens a block if it is indented more than
the block around it.
-/
namespace Signpost.Yaml

/-- Where a key may have started: the number of its token, and its place. A key that is required
has to turn out to be one. -/
structure PossibleKey where
  token : Nat
  line : Nat
  column : Nat
  required : Bool
  deriving DecidableEq, Repr

structure Layout where
  tokens : Array Token
  /-- Columns of the open blocks, innermost first. -/
  indents : List Nat
  /-- The possible key within the innermost collection in brackets, if any is open. -/
  key : Option PossibleKey
  /-- Possible keys around each open bracket, innermost first. -/
  outerKeys : List (Option PossibleKey)
  keyAllowed : Bool

namespace Layout

def empty : Layout :=
  ⟨#[], [], none, [], true⟩

def inFlow (l : Layout) : Bool :=
  !l.outerKeys.isEmpty

def least (l : Layout) : Nat :=
  match l.indents with
  | [] => 0
  | indent :: _ => indent + 1

def push (l : Layout) (t : Token) : Layout :=
  { l with tokens := l.tokens.push t }

/-- Ends the blocks that satisfy `p`, unless a bracket is open. -/
def closeWhile (p : Nat → Bool) (l : Layout) : Layout :=
  if l.inFlow then l
  else
    { l with
      tokens := (l.indents.takeWhile p).foldl (fun ts _ => ts.push .blockEnd) l.tokens
      indents := l.indents.dropWhile p }

def closeTo (l : Layout) (column : Nat) : Layout :=
  l.closeWhile (column < ·)

def closeAll (l : Layout) : Layout :=
  l.closeWhile fun _ => true

def openBlock (l : Layout) (column at_ : Nat) (t : Token) : Layout :=
  if l.inFlow || column < l.least then l
  else { l with indents := column :: l.indents, tokens := l.tokens.insertIdxIfInBounds at_ t }

def forget? : Option PossibleKey → Option (Option PossibleKey)
  | some key => if key.required then none else some none
  | none => some none

def dropKey? (l : Layout) : Option Layout :=
  (forget? l.key).map fun key => { l with key }

/-- A key ends in its line and within 1024 characters. -/
def keepFresh? (p : Placed) : Option PossibleKey → Option (Option PossibleKey)
  | some key =>
    if key.line < p.line || key.column + 1024 < p.column then forget? (some key)
    else some (some key)
  | none => some none

def dropStale? (l : Layout) (p : Placed) : Option Layout := do
  let key ← keepFresh? p l.key
  let outerKeys ← l.outerKeys.mapM (keepFresh? p)
  return { l with key, outerKeys }

/-- The next token may start a key, if one is allowed here. A key in the column of its block is
required. -/
def saveKey? (l : Layout) (p : Placed) : Option Layout :=
  if l.keyAllowed then do
    let l ← l.dropKey?
    let required := !l.inFlow && l.indents.head? == some p.column
    return { l with key := some ⟨l.tokens.size, p.line, p.column, required⟩ }
  else some l

def margin? (l : Layout) (t : Token) : Option Layout := do
  let l ← l.closeAll.dropKey?
  return { l with keyAllowed := false }.push t

def openFlow? (l : Layout) (p : Placed) (t : Token) : Option Layout := do
  let l ← l.saveKey? p
  return { l with key := none, outerKeys := l.key :: l.outerKeys, keyAllowed := true }.push t

def closeFlow? (l : Layout) (t : Token) : Option Layout := do
  let l ← l.dropKey?
  return { l with key := l.outerKeys.head?.join, outerKeys := l.outerKeys.tail,
                  keyAllowed := false }.push t

def flowEntry? (l : Layout) : Option Layout := do
  let l ← l.dropKey?
  return { l with keyAllowed := true }.push .flowEntry

def marked? (l : Layout) (p : Placed) (start : Token) : Option Layout :=
  if l.inFlow then some l
  else if l.keyAllowed then some (l.openBlock p.column l.tokens.size start)
  else none

def blockEntry? (l : Layout) (p : Placed) : Option Layout := do
  let l ← l.marked? p .blockSequenceStart
  let l ← l.dropKey?
  return { l with keyAllowed := true }.push .blockEntry

def markedKey? (l : Layout) (p : Placed) : Option Layout := do
  let l ← l.marked? p .blockMappingStart
  let l ← l.dropKey?
  return { l with keyAllowed := !l.inFlow }.push .key

/-- A colon makes the possible key a key, or follows a marked one. -/
def value? (l : Layout) (p : Placed) : Option Layout :=
  match l.key with
  | some key =>
    let l := { l with tokens := l.tokens.insertIdxIfInBounds key.token .key }
    let l := l.openBlock key.column key.token .blockMappingStart
    some ({ l with key := none, keyAllowed := false }.push .value)
  | none => do
    let l ← l.marked? p .blockMappingStart
    return { l with keyAllowed := !l.inFlow }.push .value

def starting? (l : Layout) (p : Placed) (read : Option (Token × Source)) :
    Option (Layout × Source) := do
  let l ← l.saveKey? p
  let (t, rest) ← read
  return ({ l with keyAllowed := false }.push t, rest)

def plainScalar? (l : Layout) (p : Placed) (s : Source) : Option (Layout × Source) := do
  let l ← l.saveKey? p
  let scalar ← plain? l.inFlow l.least s
  return ({ l with keyAllowed := scalar.brokeLine }.push (.scalar scalar.text true), scalar.rest)

def blockScalar? (l : Layout) (literal : Bool) (s : Source) : Option (Layout × Source) := do
  let l ← l.dropKey?
  let (text, rest) ← block? literal l.least s
  return ({ l with keyAllowed := true }.push (.scalar text false), rest)

def quoted (read : Option (List Char × Source)) : Option (Token × Source) :=
  read.map fun (text, rest) => (.scalar text false, rest)

def isMark (c : Char) : Bool :=
  "-?:,[]#&*!|>'\"%@\x60\x7b\x7d".toList.contains c

def startsPlain (flow : Bool) (c : Char) (rest : Source) : Bool :=
  !(isBlank c || isBreak c || isMark c) ||
    (c = '-' && !rest.atGap) ||
    (!flow && (c = '?' || c = ':') && !rest.atGap)

def read? (l : Layout) (p : Placed) (rest : Source) : Option (Layout × Source) :=
  let s : Source := p :: rest
  let alone (l : Option Layout) : Option (Layout × Source) := l.map (·, rest)
  let flow := l.inFlow
  if p.column = 0 && p.char = '%' then do
    let (t, rest) ← directive? rest
    return (← l.margin? t, rest)
  else if s.atMark '-' then (l.margin? .documentStart).map (·, s.drop 3)
  else if s.atMark '.' then (l.margin? .documentEnd).map (·, s.drop 3)
  else if p.char = '[' then alone (l.openFlow? p .flowSequenceStart)
  else if p.char = '\x7b' then alone (l.openFlow? p .flowMappingStart)
  else if p.char = ']' then alone (l.closeFlow? .flowSequenceEnd)
  else if p.char = '\x7d' then alone (l.closeFlow? .flowMappingEnd)
  else if p.char = ',' then alone l.flowEntry?
  else if p.char = '-' && rest.atGap then alone (l.blockEntry? p)
  else if p.char = '?' && (flow || rest.atGap) then alone (l.markedKey? p)
  else if p.char = ':' && (flow || rest.atGap) then alone (l.value? p)
  else if p.char = '*' then
    l.starting? p ((anchorName? rest).map fun (name, rest) => (.alias name, rest))
  else if p.char = '&' then
    l.starting? p ((anchorName? rest).map fun (name, rest) => (.anchor name, rest))
  else if p.char = '!' then l.starting? p (tag? flow rest)
  else if p.char = '|' && !flow then l.blockScalar? true rest
  else if p.char = '>' && !flow then l.blockScalar? false rest
  else if p.char = '\'' then l.starting? p (quoted (single? rest))
  else if p.char = '"' then l.starting? p (quoted (double? rest))
  else if startsPlain flow p.char rest then l.plainScalar? p s
  else none

/-- Skips blanks, comments and breaks. A new line allows a key, unless a bracket is open. Tabs do
not count as blanks where a key is allowed. -/
def skipGap (flow : Bool) (inComment keyAllowed : Bool) : Source → Bool × Source
  | [] => (keyAllowed, [])
  | p :: rest =>
    if isBreak p.char then skipGap flow false (keyAllowed || !flow) rest
    else if inComment then skipGap flow true keyAllowed rest
    else if p.char = '#' then skipGap flow true keyAllowed rest
    else if p.char = ' ' || (p.char = '\t' && (flow || !keyAllowed)) ||
        (p.char = byteOrderMark && p.column = 0) then
      skipGap flow false keyAllowed rest
    else (keyAllowed, p :: rest)

def tokensFrom? : Nat → Layout → Source → Option Layout
  | 0, _, _ => none
  | fuel + 1, l, s =>
    let (keyAllowed, s) := skipGap l.inFlow false l.keyAllowed s
    let l := { l with keyAllowed }
    match s with
    | [] => l.closeAll.dropKey?
    | p :: rest => do
      let l ← l.dropStale? p
      let (l, s) ← (l.closeTo p.column).read? p rest
      tokensFrom? fuel l s

/-- The tokens of a source. Each of them takes at least one character. -/
def tokens? (s : Source) : Option (List Token) :=
  (tokensFrom? (s.length + 1) empty s).map (·.tokens.toList)

end Layout

end Signpost.Yaml
