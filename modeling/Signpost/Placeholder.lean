/-! # Placeholders

A pattern's text may hold placeholders: a colon and a name, or two colons for a capture without a
name. In an expression each placeholder becomes a group that captures one segment; in a template
the names and the texts between them are the segments that an address is built from.
-/
namespace Signpost

inductive Placeholder where
  | named (name : List Char)
  | anonymous
  deriving DecidableEq, Repr

namespace Placeholder

def isNameStart (c : Char) : Bool :=
  ('a' ≤ c && c ≤ 'z') || c = '_'

def isNameChar (c : Char) : Bool :=
  isNameStart c || c.isDigit

def written : Placeholder → List Char
  | named name => ':' :: name
  | anonymous => [':', ':']

def atStart? : List Char → Option (Placeholder × List Char)
  | ':' :: ':' :: rest => some (anonymous, rest)
  | ':' :: c :: rest =>
    if isNameStart c then
      some (named (c :: rest.takeWhile isNameChar), rest.dropWhile isNameChar)
    else none
  | _ => none

theorem atStart?_eq {cs rest : List Char} {p : Placeholder} (h : atStart? cs = some (p, rest)) :
    cs = p.written ++ rest := by
  unfold atStart? at h
  split at h
  · simp only [Option.some.injEq, Prod.mk.injEq] at h
    obtain ⟨rfl, rfl⟩ := h
    rfl
  · split at h
    · simp only [Option.some.injEq, Prod.mk.injEq] at h
      obtain ⟨rfl, rfl⟩ := h
      simp [written, List.takeWhile_append_dropWhile]
    · simp at h
  · simp at h

theorem colon_mem_written (p : Placeholder) : 0 < p.written.count ':' := by
  cases p <;> simp [written]

/-- The first placeholder of a text, between what stands before and after it. -/
def first? : List Char → Option (List Char × Placeholder × List Char)
  | [] => none
  | c :: rest =>
    match atStart? (c :: rest) with
    | some (p, after) => some ([], p, after)
    | none => (first? rest).map fun (before, p, after) => (c :: before, p, after)

theorem first?_eq {cs before after : List Char} {p : Placeholder}
    (h : first? cs = some (before, p, after)) : cs = before ++ (p.written ++ after) := by
  induction cs generalizing before with
  | nil => simp [first?] at h
  | cons c rest ih =>
    rw [first?] at h
    split at h
    · rename_i p' after' hs
      simp only [Option.some.injEq, Prod.mk.injEq] at h
      obtain ⟨rfl, rfl, rfl⟩ := h
      exact atStart?_eq hs
    · obtain ⟨⟨before', p', after'⟩, hr, heq⟩ := Option.map_eq_some_iff.1 h
      simp only [Prod.mk.injEq] at heq
      obtain ⟨rfl, rfl, rfl⟩ := heq
      rw [ih hr]
      rfl

/-- The group that stands for a placeholder: one segment, up to the characters that end one. -/
def capture : List Char :=
  "([^/.,;?]+)".toList

/-- The number of opening parentheses in an expression, which is the number of its groups when
none of them is escaped. -/
def countGroups (cs : List Char) : Nat :=
  cs.count '('

theorem count_colon_lt {cs before after : List Char} {p : Placeholder}
    (h : first? cs = some (before, p, after)) :
    (before ++ (capture ++ after)).count ':' < cs.count ':' := by
  have hp := colon_mem_written p
  have hc : capture.count ':' = 0 := by decide
  rw [first?_eq h]
  simp only [List.count_append]
  omega

/-- Replaces the first placeholder by its group until none is left. Each named placeholder is
listed with the number of its group, counted by the parentheses up to it. -/
def substitute (cs : List Char) : List Char × List (String × Nat) :=
  match _ : first? cs with
  | none => (cs, [])
  | some (before, p, after) =>
    let result := substitute (before ++ (capture ++ after))
    match p with
    | named name => (result.1, (String.ofList name, countGroups before + 1) :: result.2)
    | anonymous => result
termination_by cs.count ':'
decreasing_by exact count_colon_lt ‹_›

end Placeholder

inductive Segment where
  | literal (text : String)
  | placeholder (name : String)
  deriving DecidableEq, Repr

inductive Irreversible where
  | expression (source : String)
  | anonymousCapture
  deriving DecidableEq, Repr

def Irreversible.message : Irreversible → String
  | expression source => "path fragment /" ++ source ++ "/ is a regular expression"
  | anonymousCapture => "path contains an anonymous \x60::\x60 capture"

namespace Segment

def written : Segment → String
  | literal text => text
  | placeholder name => ":" ++ name

def ofText (cs : List Char) : List Segment :=
  if cs.isEmpty then [] else [literal (String.ofList cs)]

/-- The segments of a template, which has no anonymous captures. -/
def ofTemplate (cs : List Char) : Except Irreversible (List Segment) :=
  match _h : Placeholder.first? cs with
  | none => .ok (ofText cs)
  | some (_, .anonymous, _) => .error .anonymousCapture
  | some (before, .named name, after) => do
    let rest ← ofTemplate after
    return ofText before ++ placeholder (String.ofList name) :: rest
termination_by cs.length
decreasing_by
  rw [Placeholder.first?_eq _h]
  simp [Placeholder.written]
  omega

end Segment

end Signpost
