import Signpost.Proofs.Output
import Signpost.Proofs.Regex.Reads

/-! # References in templates

A template is split at its references from left to right, and each of them is as long as it can be.
What the split gives is said without the reader: no reference begins in the texts between, and none
that begins where one was taken is longer. Only one split of a template is of this kind.
-/
namespace Signpost
open Placeholder (isNameStart isNameChar)

namespace OutputToken

def IsNumber (digits : List Char) : Prop :=
  digits ≠ [] ∧ ∀ d ∈ digits, Unicode.isDecimalDigit d = true

def bracketed (digits : List Char) : List Char := '[' :: (digits ++ [']'])

/-- The reference is written so. -/
inductive Written : OutputToken → List Char → Prop
  | name {c : Char} {tail : List Char} (hc : isNameStart c = true)
      (htail : ∀ d ∈ tail, isNameChar d = true) :
      Written (.name (c :: tail)) (':' :: c :: tail)
  | fieldGroup {c : Char} {tail digits : List Char} (hc : isNameStart c = true)
      (htail : ∀ d ∈ tail, isNameChar d = true) (hdigits : IsNumber digits) :
      Written (.fieldGroup (c :: tail) digits) (':' :: c :: (tail ++ bracketed digits))
  | pathGroup {digits : List Char} (hdigits : IsNumber digits) :
      Written (.pathGroup digits) (bracketed digits)

/-- No reference begins the text. -/
def Bare (cs : List Char) : Prop := ∀ t w, Written t w → ¬ w <+: cs

section Expression
open Regex

def expression : String := ":([a-z_][a-z0-9_]*)(?:\\[(\\d+)\\])?|\\[(\\d+)\\]"

def nameStarts : CharSet := .union (.range 'a' 'z') (.union (.single '_') .none)

def nameChars : CharSet :=
  .union (.range 'a' 'z') (.union (.range '0' '9') (.union (.single '_') .none))

def nameNode : Node := .cat (.read nameStarts) (.loop (.read nameChars) 0 none true)

def numberNode (group : Nat) : Node :=
  .cat (.read (.single '[')) (.cat (.group group (.loop (.read .digit) 1 none true))
    (.read (.single ']')))

def expressionNode : Node :=
  .alt (.cat (.read (.single ':')) (.cat (.group 1 nameNode)
    (.loop (numberNode 2) 0 (some 1) true))) (numberNode 3)

theorem compile_expression : Regex.compile expression false =
    .ok ⟨expression, 3, expressionNode, expressionNode.code.toArray⟩ := by
  have hparse : parse expression.toList false = .ok (expressionNode, 3) := by with_unfolding_all rfl
  have hsize : ¬ Node.maxProgramSize < expressionNode.programSize := by decide
  have hcompile := compile_of_parse hparse
  rwa [if_neg hsize, String.ofList_toList] at hcompile

theorem mem_nameStarts (c : Char) : nameStarts.mem c = isNameStart c := by
  rw [Bool.eq_iff_iff]
  simp [nameStarts, CharSet.mem, isNameStart, Template.mem_single]

theorem mem_nameChars (c : Char) : nameChars.mem c = isNameChar c := by
  rw [Bool.eq_iff_iff]
  simp [nameChars, CharSet.mem, isNameChar, isNameStart, Template.mem_single, Char.isDigit]
  tauto

theorem reads_nameNode : nameNode.Reads fun w =>
    ∃ c tail, isNameStart c = true ∧ (∀ d ∈ tail, isNameChar d = true) ∧ w = c :: tail := by
  refine ((Node.Reads.read nameStarts).cat (.loop_read nameChars 0 true)).congr fun w => ?_
  constructor
  · rintro ⟨_, tail, ⟨c, hc, rfl⟩, ⟨-, htail⟩, rfl⟩
    exact ⟨c, tail, mem_nameStarts c ▸ hc, fun d hd => mem_nameChars d ▸ htail d hd, rfl⟩
  · rintro ⟨c, tail, hc, htail, rfl⟩
    exact ⟨[c], tail, ⟨c, (mem_nameStarts c).trans hc, rfl⟩,
      ⟨Nat.zero_le _, fun d hd => (mem_nameChars d).trans (htail d hd)⟩, rfl⟩

theorem reads_numberNode (group : Nat) : (numberNode group).Reads fun w =>
    ∃ digits, IsNumber digits ∧ w = bracketed digits := by
  refine ((Node.Reads.single '[').cat (((Node.Reads.loop_read .digit 1 true).group group).cat
    (Node.Reads.single ']'))).congr fun w => ?_
  constructor
  · rintro ⟨_, _, rfl, ⟨digits, _, ⟨hlength, hdigits⟩, rfl, rfl⟩, rfl⟩
    exact ⟨digits, ⟨List.ne_nil_of_length_pos hlength, hdigits⟩, rfl⟩
  · rintro ⟨digits, ⟨hne, hdigits⟩, rfl⟩
    exact ⟨_, _, rfl, ⟨digits, _, ⟨List.length_pos_of_ne_nil hne, hdigits⟩, rfl, rfl⟩, rfl⟩

/-- The expression reads references and nothing else. -/
theorem reads_expressionNode : expressionNode.Reads fun w => ∃ t, Written t w := by
  refine (((Node.Reads.single ':').cat ((reads_nameNode.group 1).cat
    ((reads_numberNode 2).optional true))).alt (reads_numberNode 3)).congr fun w => ?_
  constructor
  · rintro (⟨_, _, rfl, ⟨_, _, ⟨c, tail, hc, htail, rfl⟩, hnumber, rfl⟩, rfl⟩ |
      ⟨digits, hdigits, rfl⟩)
    · rcases hnumber with rfl | ⟨digits, hdigits, rfl⟩
      · rw [List.append_nil]
        exact ⟨_, .name hc htail⟩
      · exact ⟨_, .fieldGroup hc htail hdigits⟩
    · exact ⟨_, .pathGroup hdigits⟩
  · rintro ⟨t, hw⟩
    cases hw with
    | @name c tail hc htail =>
      exact .inl ⟨_, _, rfl, ⟨_, [], ⟨c, tail, hc, htail, rfl⟩, .inl rfl, rfl⟩, by simp⟩
    | @fieldGroup c tail digits hc htail hdigits =>
      exact .inl ⟨_, _, rfl,
        ⟨_, _, ⟨c, tail, hc, htail, rfl⟩, .inr ⟨digits, hdigits, rfl⟩, rfl⟩, rfl⟩
    | pathGroup hdigits => exact .inr ⟨_, hdigits, rfl⟩

end Expression

theorem not_isDecimalDigit_bracket : Unicode.isDecimalDigit ']' = false := by decide

theorem bracketed?_bracketed {digits : List Char} (h : IsNumber digits) (rest : List Char) :
    bracketed? (bracketed digits ++ rest) = some (digits, rest) := by
  have htake : (digits ++ ']' :: rest).takeWhile Unicode.isDecimalDigit = digits := by
    rw [List.takeWhile_append_of_pos h.2, List.takeWhile_cons_of_neg, List.append_nil]
    simp [not_isDecimalDigit_bracket]
  have hdrop : (digits ++ ']' :: rest).dropWhile Unicode.isDecimalDigit = ']' :: rest := by
    rw [List.dropWhile_append_of_pos h.2, List.dropWhile_cons_of_neg]
    simp [not_isDecimalDigit_bracket]
  have hcons : bracketed digits ++ rest = '[' :: (digits ++ ']' :: rest) := by simp [bracketed]
  rw [hcons, bracketed?]
  simp only [htake, hdrop]
  obtain ⟨d, ds, rfl⟩ := List.exists_cons_of_ne_nil h.1
  rfl

theorem eq_of_bracketed? {cs digits rest : List Char} (h : bracketed? cs = some (digits, rest)) :
    IsNumber digits ∧ cs = bracketed digits ++ rest := by
  unfold bracketed? at h
  split at h
  · rename_i more
    simp only at h
    split at h
    · rename_i d ds after htake hdrop
      cases h
      refine ⟨⟨?_, fun c hc => List.mem_takeWhile_imp hc⟩, ?_⟩
      · rw [htake]
        exact List.cons_ne_nil d ds
      · have hmore := List.takeWhile_append_dropWhile (p := Unicode.isDecimalDigit) (l := more)
        rw [hdrop] at hmore
        rw [bracketed, List.cons_append, List.append_assoc]
        exact congrArg ('[' :: ·) hmore.symm
    · cases h
  · cases h

theorem not_isNameChar_bracket : isNameChar '[' = false := by decide

theorem atStart?_pathGroup {digits : List Char} (h : IsNumber digits) (rest : List Char) :
    atStart? (bracketed digits ++ rest) = some (.pathGroup digits, rest) := by
  have hbracket : atStart? (bracketed digits ++ rest) =
      (bracketed? (bracketed digits ++ rest)).map fun e => (.pathGroup e.1, e.2) := rfl
  rw [hbracket, bracketed?_bracketed h]
  rfl

section Name
variable {c : Char} {tail : List Char} (hc : isNameStart c = true)
  (htail : ∀ d ∈ tail, isNameChar d = true)
include hc htail

theorem atStart?_fieldGroup {digits : List Char} (h : IsNumber digits) (rest : List Char) :
    atStart? (':' :: c :: (tail ++ (bracketed digits ++ rest))) =
      some (.fieldGroup (c :: tail) digits, rest) := by
  have htake : (tail ++ (bracketed digits ++ rest)).takeWhile isNameChar = tail := by
    rw [List.takeWhile_append_of_pos htail, bracketed, List.cons_append,
      List.takeWhile_cons_of_neg, List.append_nil]
    simp [not_isNameChar_bracket]
  have hdrop : (tail ++ (bracketed digits ++ rest)).dropWhile isNameChar =
      bracketed digits ++ rest := by
    rw [List.dropWhile_append_of_pos htail, bracketed, List.cons_append,
      List.dropWhile_cons_of_neg]
    simp [not_isNameChar_bracket]
  rw [atStart?, if_pos hc]
  simp only [htake, hdrop, bracketed?_bracketed h]

theorem exists_atStart?_name (rest : List Char) :
    ∃ t more, atStart? (':' :: c :: (tail ++ rest)) = some (t, more) ∧
      more.length ≤ rest.length := by
  have hdrop : (tail ++ rest).dropWhile isNameChar = rest.dropWhile isNameChar :=
    List.dropWhile_append_of_pos htail
  have hle : (rest.dropWhile isNameChar).length ≤ rest.length :=
    (List.dropWhile_sublist _).length_le
  rw [atStart?, if_pos hc]
  simp only [hdrop]
  split
  · rename_i digits after hdigits
    have hlt := bracketed?_length hdigits
    exact ⟨_, _, rfl, by omega⟩
  · exact ⟨_, _, rfl, hle⟩

end Name

theorem Written.exists_atStart? {t : OutputToken} {w : List Char} (h : Written t w)
    (rest : List Char) :
    ∃ t' more, atStart? (w ++ rest) = some (t', more) ∧ more.length ≤ rest.length := by
  cases h with
  | name hc htail => exact exists_atStart?_name hc htail rest
  | @fieldGroup c tail digits hc htail hdigits =>
    refine ⟨.fieldGroup (c :: tail) digits, rest, ?_, le_rfl⟩
    rw [List.cons_append, List.cons_append, List.append_assoc]
    exact atStart?_fieldGroup hc htail hdigits rest
  | pathGroup hdigits => exact ⟨_, rest, atStart?_pathGroup hdigits rest, le_rfl⟩

theorem Written.atStart?_eq {t : OutputToken} {w : List Char} (h : Written t w) :
    atStart? w = some (t, []) := by
  cases h with
  | name hc htail => exact Output.atStart?_name hc htail
  | @fieldGroup c tail digits hc htail hdigits =>
    have hread := atStart?_fieldGroup hc htail hdigits []
    rwa [List.append_nil] at hread
  | @pathGroup digits hdigits =>
    have hread := atStart?_pathGroup hdigits []
    rwa [List.append_nil] at hread

theorem Written.unique {t t' : OutputToken} {w : List Char} (h : Written t w)
    (h' : Written t' w) : t = t' := by
  have heq := h.atStart?_eq.symm.trans h'.atStart?_eq
  simpa using heq

theorem exists_written_of_atStart? {cs rest : List Char} {t : OutputToken}
    (h : atStart? cs = some (t, rest)) : ∃ w, Written t w ∧ cs = w ++ rest := by
  unfold atStart? at h
  split at h
  · rename_i c more
    split at h
    · rename_i hc
      have hmore := List.takeWhile_append_dropWhile (p := isNameChar) (l := more)
      have htail : ∀ d ∈ more.takeWhile isNameChar, isNameChar d = true :=
        fun d hd => List.mem_takeWhile_imp hd
      simp only at h
      split at h
      · rename_i digits after hdigits
        cases h
        obtain ⟨hnumber, hafter⟩ := eq_of_bracketed? hdigits
        refine ⟨_, .fieldGroup hc htail hnumber, ?_⟩
        rw [List.cons_append, List.cons_append, List.append_assoc, ← hafter, hmore]
      · cases h
        refine ⟨_, .name hc htail, ?_⟩
        rw [List.cons_append, List.cons_append, hmore]
    · cases h
  · obtain ⟨⟨digits, after⟩, hdigits, heq⟩ := Option.map_eq_some_iff.mp h
    cases heq
    obtain ⟨hnumber, rfl⟩ := eq_of_bracketed? hdigits
    exact ⟨_, .pathGroup hnumber, rfl⟩

theorem atStart?_eq_none_iff {cs : List Char} : atStart? cs = none ↔ Bare cs := by
  constructor
  · rintro hnone t w hw ⟨rest, rfl⟩
    obtain ⟨t', more, hread, -⟩ := hw.exists_atStart? rest
    rw [hnone] at hread
    cases hread
  · intro hbare
    cases hread : atStart? cs with
    | none => rfl
    | some found =>
      obtain ⟨w, hw, rfl⟩ := exists_written_of_atStart? hread
      exact absurd (List.prefix_append w found.2) (hbare _ w hw)

/-- The reader takes the longest reference that begins the text. -/
theorem atStart?_eq_some_iff {w rest : List Char} {t : OutputToken} (hw : Written t w) :
    atStart? (w ++ rest) = some (t, rest) ↔
      ∀ t' w', Written t' w' → w' <+: w ++ rest → w'.length ≤ w.length := by
  constructor
  · rintro hread t' w' hw' ⟨rest', heq⟩
    obtain ⟨t'', more, hread', hle⟩ := hw'.exists_atStart? rest'
    rw [heq, hread] at hread'
    cases hread'
    have hlength := congrArg List.length heq
    simp only [List.length_append] at hlength
    omega
  · intro hlongest
    obtain ⟨t', rest', hread, hle⟩ := hw.exists_atStart? rest
    obtain ⟨w', hw', heq⟩ := exists_written_of_atStart? hread
    have hle' : w'.length ≤ w.length := hlongest t' w' hw' ⟨rest', heq.symm⟩
    have hlength := congrArg List.length heq
    simp only [List.length_append] at hlength
    obtain ⟨rfl, rfl⟩ := List.append_inj heq (by omega)
    rw [hread, hw.unique hw']

end OutputToken

open OutputToken (Written Bare)

/-- A template is split at its references: none begins in the text before one that is taken, or in
the text behind the last, and none is longer that begins where one is taken. -/
inductive SplitsInto : List Char → List (List Char × OutputToken) → List Char → Prop
  | last {cs : List Char} (h : ∀ i, Bare (cs.drop i)) : SplitsInto cs [] cs
  | reference {before w rest last : List Char} {t : OutputToken}
      {parts : List (List Char × OutputToken)} (hw : Written t w)
      (hbefore : ∀ i < before.length, Bare ((before ++ (w ++ rest)).drop i))
      (hlongest : ∀ t' w', Written t' w' → w' <+: w ++ rest → w'.length ≤ w.length)
      (h : SplitsInto rest parts last) :
      SplitsInto (before ++ (w ++ rest)) ((before, t) :: parts) last

theorem SplitsInto.last_eq {cs last : List Char} (h : SplitsInto cs [] last) : last = cs := by
  cases h
  rfl

namespace Output

theorem splitTemplate_append {skipped rest : List Char}
    (h : ∀ i < skipped.length, Bare ((skipped ++ rest).drop i)) (before : List Char) :
    splitTemplate before (skipped ++ rest) = splitTemplate (skipped.reverse ++ before) rest := by
  induction skipped generalizing before with
  | nil => rfl
  | cons c skipped ih =>
    have hnone : OutputToken.atStart? (c :: (skipped ++ rest)) = none :=
      OutputToken.atStart?_eq_none_iff.mpr (h 0 (Nat.zero_lt_succ _))
    rw [List.cons_append, splitTemplate_of_none hnone,
      ih (fun i hi => h (i + 1) (Nat.succ_lt_succ hi)), List.reverse_cons, List.append_assoc]
    rfl

theorem splitsInto_splitTemplate (before : List Char) {cs : List Char}
    (h : ∀ i < before.length, Bare ((before.reverse ++ cs).drop i)) :
    SplitsInto (before.reverse ++ cs) (splitTemplate before cs).1 (splitTemplate before cs).2 := by
  induction hn : cs.length using Nat.strongRecOn generalizing before cs with
  | _ n ih =>
    cases hread : OutputToken.atStart? cs with
    | some found =>
      obtain ⟨t, rest⟩ := found
      have hlt := OutputToken.atStart?_length hread
      rw [splitTemplate_of_atStart? hread]
      obtain ⟨w, hw, rfl⟩ := OutputToken.exists_written_of_atStart? hread
      refine .reference hw (by simpa using h) ((OutputToken.atStart?_eq_some_iff hw).mp hread) ?_
      exact ih rest.length (hn ▸ hlt) [] (fun i hi => absurd hi (Nat.not_lt_zero i)) rfl
    | none =>
      have hbare := OutputToken.atStart?_eq_none_iff.mp hread
      cases cs with
      | nil =>
        rw [splitTemplate_end, List.append_nil]
        rw [List.append_nil] at h
        refine .last fun i => ?_
        by_cases hi : i < before.length
        · exact h i hi
        · rwa [List.drop_eq_nil_of_le (by simpa using hi)]
      | cons c rest =>
        rw [splitTemplate_of_none hread, List.append_cons, ← List.reverse_cons]
        refine ih rest.length (by simp [← hn]) (c :: before) (fun i hi => ?_) rfl
        rw [List.reverse_cons, ← List.append_cons]
        rw [List.length_cons, Nat.lt_succ_iff_lt_or_eq] at hi
        rcases hi with hi | rfl
        · exact h i hi
        · rwa [List.drop_left' (List.length_reverse)]

/-- What the reader splits a template into is the one split at its references. -/
theorem splitsInto_iff {cs last : List Char} {parts : List (List Char × OutputToken)} :
    SplitsInto cs parts last ↔ splitTemplate [] cs = (parts, last) := by
  constructor
  · intro h
    induction h with
    | @last cs hbare =>
      have hskip : splitTemplate [] (cs ++ []) = splitTemplate (cs.reverse ++ []) [] :=
        splitTemplate_append (fun i _ => by simpa using hbare i) []
      rw [List.append_nil] at hskip
      rw [hskip, splitTemplate_end]
      simp
    | @reference before w rest last t parts hw hbefore hlongest _ ih =>
      rw [splitTemplate_append hbefore,
        splitTemplate_of_atStart? ((OutputToken.atStart?_eq_some_iff hw).mpr hlongest), ih]
      simp
  · intro h
    have hsplits : SplitsInto cs (splitTemplate [] cs).1 (splitTemplate [] cs).2 :=
      splitsInto_splitTemplate [] fun i hi => absurd hi (Nat.not_lt_zero i)
    rwa [h] at hsplits

end Output

end Signpost
