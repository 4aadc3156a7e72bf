import Signpost.Proofs.Regex.Capture
import Signpost.Proofs.Template.Source

/-! # Reading literal expressions

The reader takes the expression of a literal path one token at a time: an escaped character is a
term that reads it, and the group of a placeholder is a term that repeats the set of the characters
that end no segment.
-/
namespace Signpost.Template
open Placeholder Regex

def segmentSet : CharSet := .compl (.ofList ['/', '.', ',', ';', '?'])

def holeNode (group : Nat) : Node := .group group (.loop (.read segmentSet) 1 none true)

def nodes (groups : Nat) : List Token → List Node
  | [] => []
  | .text c :: ts => .read (.single c) :: nodes groups ts
  | .hole _ :: ts => holeNode (groups + 1) :: nodes (groups + 1) ts

def holes (ts : List Token) : Nat := ts.countP fun | .hole _ => true | .text _ => false

def pathNode (ts : List Token) : Node :=
  Node.catAll (.look .textStart :: (nodes 0 ts ++ [.look .textEnd]))

theorem bracketed_segment (rest : List Char) :
    bracketed {} ('^' :: '/' :: '.' :: ',' :: ';' :: '?' :: ']' :: rest) =
      .ok (⟨segmentSet, 2⟩, rest) := by
  rw [bracketed_capture]
  rfl

/-- The reader comes from one state and text to another. -/
def Reads (st : ReadState) (cs : List Char) (st' : ReadState) (rest : List Char) : Prop :=
  ∀ fuel, cs.length < fuel →
    ∃ fuel', rest.length < fuel' ∧ ReadState.run fuel st cs = ReadState.run fuel' st' rest

theorem Reads.refl (st : ReadState) (cs : List Char) : Reads st cs st cs :=
  fun fuel h => ⟨fuel, h, rfl⟩

theorem Reads.trans {st st' st'' : ReadState} {cs cs' cs'' : List Char} (h : Reads st cs st' cs')
    (h' : Reads st' cs' st'' cs'') : Reads st cs st'' cs'' := by
  intro fuel hfuel
  obtain ⟨fuel', hfuel', hrun⟩ := h fuel hfuel
  obtain ⟨fuel'', hfuel'', hrun'⟩ := h' fuel' hfuel'
  exact ⟨fuel'', hfuel'', hrun.trans hrun'⟩

theorem Reads.element {st st' : ReadState} {c : Char} {cs rest : List Char}
    (hst : st.flags.verbose = false) (h : st.element c cs = .ok (st', rest))
    (hrest : rest.length ≤ cs.length) : Reads st (c :: cs) st' rest := by
  intro fuel hfuel
  cases fuel with
  | zero => cases hfuel
  | succ fuel =>
    refine ⟨fuel, ?_, ?_⟩
    · rw [List.length_cons] at hfuel
      omega
    · simp only [ReadState.run, hst, skipBlank, Bool.false_eq_true, if_false, h, bind,
        Except.bind]

theorem Reads.run_eq {st st' : ReadState} {cs : List Char} (h : Reads st cs st' []) :
    ReadState.run (cs.length + 1) st cs = .ok st' := by
  obtain ⟨fuel, hfuel, hrun⟩ := h (cs.length + 1) (Nat.lt_succ_self _)
  cases fuel with
  | zero => cases hfuel
  | succ fuel =>
    rw [hrun, ReadState.run]
    cases st'.flags.verbose <;> rfl

theorem escape_of_isSpecial {c : Char} (hc : Pattern.isSpecial c = true) (f : Flags)
    (rest : List Char) : Regex.escape f (c :: rest) = .ok (.literal c, rest) := by
  have hspecial : c ∈ "\\.+*?()|[]\x7b\x7d^$#&-~".toList := List.contains_iff_mem.mp hc
  simp only [String.reduceToList, List.mem_cons, List.not_mem_nil, or_false] at hspecial
  rcases hspecial with rfl | rfl | rfl | rfl | rfl | rfl | rfl | rfl | rfl | rfl | rfl | rfl |
    rfl | rfl | rfl | rfl | rfl | rfl <;> rfl

section Tokens
variable {st : ReadState} (hst : st.flags = {})
include hst

theorem reads_ordinary {c : Char} (hc : ¬ Pattern.isSpecial c = true) (rest : List Char) :
    Reads st (c :: rest) (st.push ⟨.read (.single c), 0, true⟩) rest := by
  refine Reads.element (by rw [hst]) ?_ (Nat.le_refl _)
  unfold ReadState.element
  split <;> first | exact absurd (by decide) hc | skip
  rw [hst]
  rfl

theorem reads_escaped {c : Char} (hc : Pattern.isSpecial c = true) (rest : List Char) :
    Reads st ('\\' :: c :: rest) (st.push ⟨.read (.single c), 0, true⟩) rest := by
  refine Reads.element (by rw [hst]) ?_ (Nat.le_succ _)
  simp only [ReadState.element, hst, escape_of_isSpecial hc, bind, Except.bind]
  rfl

theorem reads_capture (rest : List Char) :
    Reads st (capture ++ rest)
      { st with
        terms := ⟨holeNode (st.captures + 1), 4, true⟩ :: st.terms
        captures := st.captures + 1 } rest := by
  obtain ⟨groups, terms, branches, flags, captures, names⟩ := st
  cases hst
  let inside : ReadState :=
    ⟨⟨terms, branches, {}, some (captures + 1)⟩ :: groups, [], [], {}, captures + 1, names⟩
  let set : List Char := '^' :: '/' :: '.' :: ',' :: ';' :: '?' :: ']' :: '+' :: ')' :: rest
  have hcapture : capture ++ rest = '(' :: '[' :: set :=
    congrArg (· ++ rest) (show capture = ['(', '[', '^', '/', '.', ',', ';', '?', ']', '+', ')'] by
      decide)
  rw [hcapture]
  have hopen : Reads ⟨groups, terms, branches, {}, captures, names⟩ ('(' :: '[' :: set) inside
      ('[' :: set) :=
    Reads.element rfl rfl (Nat.le_refl _)
  have hset : Reads inside ('[' :: set) (inside.push ⟨.read segmentSet, 2, true⟩)
      ('+' :: ')' :: rest) := by
    refine Reads.element rfl ?_ (by simp [set])
    simp only [ReadState.element, inside, set, bracketed_segment, bind, Except.bind]
    rfl
  have hrepeat : Reads (inside.push ⟨.read segmentSet, 2, true⟩) ('+' :: ')' :: rest)
      (inside.push ⟨.loop (.read segmentSet) 1 none true, 3, true⟩) (')' :: rest) :=
    Reads.element rfl rfl (by simp)
  have hclose : Reads (inside.push ⟨.loop (.read segmentSet) 1 none true, 3, true⟩) (')' :: rest)
      ⟨groups, ⟨holeNode (captures + 1), 4, true⟩ :: terms, branches, {}, captures + 1, names⟩
      rest :=
    Reads.element rfl rfl (by simp)
  exact hopen.trans (hset.trans (hrepeat.trans hclose))

end Tokens

theorem reads_body (st : ReadState) (hst : st.flags = {}) (ts : List Token) (rest : List Char) :
    ∃ terms : List Term, terms.map Term.node = nodes st.captures ts ∧
      (∀ t ∈ terms, t.depth ≤ 4) ∧
      Reads st (body ts ++ rest)
        { st with terms := terms.reverse ++ st.terms, captures := st.captures + holes ts } rest := by
  induction ts generalizing st with
  | nil => exact ⟨[], rfl, by simp, Reads.refl st rest⟩
  | cons t ts ih =>
    cases t with
    | text c =>
      obtain ⟨terms, hnodes, hdepth, hreads⟩ := ih (st.push ⟨.read (.single c), 0, true⟩) hst
      refine ⟨⟨.read (.single c), 0, true⟩ :: terms, ?_, ?_, ?_⟩
      · rw [List.map_cons, hnodes]
        rfl
      · exact List.forall_mem_cons.mpr ⟨Nat.zero_le 4, hdepth⟩
      · have hfirst : Reads st (body (.text c :: ts) ++ rest)
            (st.push ⟨.read (.single c), 0, true⟩) (body ts ++ rest) := by
          rw [body_cons, List.append_assoc]
          by_cases hc : Pattern.isSpecial c = true
          · rw [expression, escape_cons_of_isSpecial hc]
            exact reads_escaped hst hc _
          · rw [expression, escape_cons_of_not hc]
            exact reads_ordinary hst hc _
        have htail := hfirst.trans hreads
        simpa [ReadState.push, holes] using htail
    | hole p =>
      let read : ReadState :=
        { st with
          terms := ⟨holeNode (st.captures + 1), 4, true⟩ :: st.terms
          captures := st.captures + 1 }
      obtain ⟨terms, hnodes, hdepth, hreads⟩ := ih read hst
      refine ⟨⟨holeNode (st.captures + 1), 4, true⟩ :: terms, ?_, ?_, ?_⟩
      · rw [List.map_cons, hnodes]
        rfl
      · exact List.forall_mem_cons.mpr ⟨Nat.le_refl 4, hdepth⟩
      · have hfirst : Reads st (body (.hole p :: ts) ++ rest) read (body ts ++ rest) := by
          rw [body_cons, List.append_assoc]
          exact reads_capture hst _
        have htail := hfirst.trans hreads
        simpa [read, holes, Nat.add_assoc, Nat.add_comm 1] using htail

theorem reads_anchor {st : ReadState} (hst : st.flags = {}) (rest : List Char) :
    Reads st ('^' :: rest) (st.push ⟨.look .textStart, 0, true⟩) rest ∧
      Reads st ('$' :: rest) (st.push ⟨.look .textEnd, 0, true⟩) rest := by
  obtain ⟨groups, terms, branches, flags, captures, names⟩ := st
  cases hst
  exact ⟨Reads.element rfl rfl (Nat.le_refl _), Reads.element rfl rfl (Nat.le_refl _)⟩

theorem foldl_max_le {bound : Nat} {ds : List Nat} (h : ∀ d ∈ ds, d ≤ bound) {start : Nat}
    (hstart : start ≤ bound) : ds.foldl max start ≤ bound := by
  induction ds generalizing start with
  | nil => exact hstart
  | cons d ds ih =>
    obtain ⟨hd, hds⟩ := List.forall_mem_cons.mp h
    exact ih hds (Nat.max_le.mpr ⟨hstart, hd⟩)

theorem branchTerm_of_two {ts : List Term} (h : 2 ≤ ts.length) :
    branchTerm ts = ⟨Node.catAll (ts.reverse.map Term.node),
      1 + (ts.reverse.map Term.depth).foldl max 0, true⟩ := by
  unfold branchTerm
  split
  · simp at h
  · simp at h
  · rfl

/-- The expression of a literal path is a pattern, and its tree is the node of its tokens. -/
theorem parse_path (ts : List Token) :
    parse ('^' :: (body ts ++ ['$'])) false = .ok (pathNode ts, holes ts) := by
  let start : ReadState := ⟨[], [], [], {}, 0, []⟩
  let opened := start.push ⟨.look .textStart, 0, true⟩
  obtain ⟨terms, hnodes, hdepth, hbody⟩ := reads_body opened rfl ts ['$']
  let all : List Term :=
    ⟨.look .textEnd, 0, true⟩ :: (terms.reverse ++ [⟨.look .textStart, 0, true⟩])
  let last : ReadState := ⟨[], all, [], {}, 0 + holes ts, []⟩
  have hreads : Reads start ('^' :: (body ts ++ ['$'])) last [] :=
    (reads_anchor rfl _).1.trans (hbody.trans (reads_anchor rfl _).2)
  have hall : all.reverse =
      ⟨.look .textStart, 0, true⟩ :: (terms ++ [⟨.look .textEnd, 0, true⟩]) := by
    simp [all]
  have hterm := @branchTerm_of_two all (by simp [all])
  have hnode : (branchTerm all).node = pathNode ts := by
    rw [hterm, hall]
    simp only [List.map_cons, List.map_append, hnodes, List.map_nil]
    rfl
  have hle : (branchTerm all).depth ≤ maxDepth := by
    have hfold : (all.reverse.map Term.depth).foldl max 0 ≤ 4 := by
      refine foldl_max_le (fun d hd => ?_) (Nat.zero_le 4)
      obtain ⟨t, ht, rfl⟩ := List.mem_map.mp hd
      rw [hall] at ht
      rcases List.mem_cons.mp ht with rfl | ht
      · exact Nat.zero_le 4
      · rcases List.mem_append.mp ht with ht | ht
        · exact hdepth t ht
        · rw [List.mem_singleton.mp ht]
          exact Nat.zero_le 4
    rw [hterm]
    change 1 + _ ≤ 250
    omega
  have hbound : ¬ maxDepth < (groupBody last.branches last.terms).depth := Nat.not_lt.mpr hle
  simp only [parse, bind, Except.bind]
  rw [hreads.run_eq]
  simp only [last, List.isEmpty_nil, Bool.not_true, Bool.false_eq_true, if_false] at hbound ⊢
  rw [if_neg hbound]
  simp only [groupBody, hnode, Nat.zero_add]
  rfl

end Signpost.Template
