import Signpost.Proofs.Regex.Longer
import Signpost.Proofs.Template.Language

/-! # Literal texts behind a pattern

A literal text that is put behind the text of a pattern goes on with its last branch only, and is
read under the flags that are in force at the end of the pattern.
-/
namespace Signpost.Template
open Relation Regex

theorem ofElement_of_isSpecial {c : Char} (hc : Pattern.isSpecial c = true) (f : Flags)
    (rest : List Char) :
    Action.ofElement f '\\' (c :: rest) = (Action.ofPrimitive f (.literal c)).map (·, rest) := by
  simp only [Action.ofElement, escape_of_isSpecial hc, bind, Except.bind]

theorem ofElement_of_not {c : Char} (hc : ¬ Pattern.isSpecial c = true) (f : Flags)
    (rest : List Char) :
    Action.ofElement f c rest = (Action.ofPrimitive f (.literal c)).map (·, rest) := by
  unfold Action.ofElement
  split <;> first | exact absurd (by decide) hc | rfl

def literalTerm (f : Flags) (c : Char) : Term := ⟨literalNode f c, 0, true⟩

theorem exists_ofPrimitive_literal (f : Flags) (c : Char) :
    ∃ a, Action.ofPrimitive f (.literal c) = .ok a ∧
      ∀ st, a.perform st = .ok (st.push (literalTerm f c)) := by
  refine ⟨_, rfl, fun st => ?_⟩
  simp only [Action.perform, literalTerm, literalNode]
  split
  · rfl
  · split <;> rfl

variable {st : ReadState}

theorem advances_literal (hverbose : st.flags.verbose = false) (c : Char) (rest : List Char) :
    Advances (st, Pattern.escape [c] ++ rest) (st.push (literalTerm st.flags c), rest) := by
  obtain ⟨a, ha, hperform⟩ := exists_ofPrimitive_literal st.flags c
  have hskip : rest = skipBlank (st.push (literalTerm st.flags c)).flags.verbose rest := by
    change rest = skipBlank st.flags.verbose rest
    rw [hverbose]
    rfl
  by_cases hc : Pattern.isSpecial c = true
  · have hread : Action.ofElement st.flags '\\' (c :: rest) = .ok (a, rest) := by
      rw [ofElement_of_isSpecial hc, ha]
      rfl
    have hstep := Advances.element hread (hperform st)
    rw [← hskip] at hstep
    simpa [Pattern.escape, hc] using hstep
  · have hread : Action.ofElement st.flags c rest = .ok (a, rest) := by
      rw [ofElement_of_not hc, ha]
      rfl
    have hstep := Advances.element hread (hperform st)
    rw [← hskip] at hstep
    simpa [Pattern.escape, hc] using hstep

theorem advances_escape (hverbose : st.flags.verbose = false) (cs rest : List Char) :
    ReflTransGen Advances (st, Pattern.escape cs ++ rest)
      ({ st with terms := (cs.map (literalTerm st.flags)).reverse ++ st.terms }, rest) := by
  induction cs generalizing st with
  | nil => exact .refl
  | cons c cs ih =>
    have hfirst := advances_literal hverbose c (Pattern.escape cs ++ rest)
    rw [← List.append_assoc, ← escape_append, List.singleton_append] at hfirst
    have hrest := ih (show (st.push (literalTerm st.flags c)).flags.verbose = false from hverbose)
    refine .head hfirst ?_
    simpa [ReadState.push] using hrest

theorem closes_escape {cs : List Char} (hcs : cs.head? = some '/') (more : List Char) :
    Closes (Pattern.escape cs ++ more) := by
  obtain ⟨tail, rfl⟩ := List.head?_eq_some_iff.mp hcs
  exact ⟨'/', by decide, rfl⟩

/-- What the reader makes of a pattern with a literal text and an anchor behind it. -/
theorem stands_followed {ignoreCase : Bool} {source cs : List Char}
    (hstands : Stands ignoreCase source st []) (hgroups : st.groups = [])
    (hverbose : st.flags.verbose = false) (hcloses : Closes (Pattern.escape cs ++ ['$'])) :
    Stands ignoreCase (source ++ (Pattern.escape cs ++ ['$']))
      { st with terms := ⟨.look st.flags.endLook, 0, true⟩ ::
          ((cs.map (literalTerm st.flags)).reverse ++ st.terms) } [] := by
  have hinside := advances_append hstands hcloses hgroups hverbose
  have hliteral := advances_escape hverbose cs ['$']
  refine (ReflTransGen.trans hinside hliteral).tail ?_
  have hstep : Advances
      ({ st with terms := (cs.map (literalTerm st.flags)).reverse ++ st.terms }, ['$'])
      ({ st with terms := ⟨.look st.flags.endLook, 0, true⟩ ::
          ((cs.map (literalTerm st.flags)).reverse ++ st.terms) },
        skipBlank st.flags.verbose []) :=
    .element (a := .look st.flags.endLook) rfl rfl
  rwa [skipBlank_nil] at hstep

theorem run_branchTerm_append {text : Array Char} {s t : Spot} {more ts : List Term} :
    (branchTerm (more.reverse ++ ts)).node.Run text s t ↔
      ∃ u, (branchTerm ts).node.Run text s u ∧ RunAll text (more.map Term.node) u t := by
  simp only [run_branchTerm, List.reverse_append, List.reverse_reverse, List.map_append,
    runAll_append]

/-- A literal text behind a pattern goes on with its last branch, to a position that the anchor
behind the text allows. The other branches of the pattern stay as they are. -/
theorem run_followed {ignoreCase : Bool} {source cs : List Char} {node node' : Node}
    {groups groups' : Nat} (h : parse source ignoreCase = .ok (node, groups))
    (h' : parse (source ++ (Pattern.escape cs ++ ['$'])) ignoreCase = .ok (node', groups'))
    (hcloses : Closes (Pattern.escape cs ++ ['$'])) :
    ∃ st, Stands ignoreCase source st [] ∧ (groupBody st.branches st.terms).node = node ∧
      (st.flags.verbose = false → ∀ (text : Array Char) (s t : Spot), node'.Run text s t ↔
        (∃ b ∈ st.branches, b.node.Run text s t) ∨
          ∃ u, (branchTerm st.terms).node.Run text s u ∧
            RunAll text (cs.map (literalNode st.flags)) u t ∧
            st.flags.endLook.holds (charBefore text t.pos) text[t.pos]? = true) := by
  obtain ⟨st, hstands, hgroups, -, hnode⟩ := exists_stands_of_parse h
  refine ⟨st, hstands, hnode, fun hverbose text s t => ?_⟩
  have hall := stands_followed hstands hgroups hverbose hcloses
  obtain ⟨last, hlast, -, -, rfl⟩ := exists_stands_of_parse h'
  cases hlast.unique hall
  have hnodes : (cs.map (literalTerm st.flags)).map Term.node = cs.map (literalNode st.flags) := by
    rw [List.map_map]
    rfl
  dsimp only
  simp only [run_groupBody, branchNodes_eq, List.mem_append, List.mem_map, List.mem_reverse,
    List.mem_singleton, or_and_right, exists_or, exists_eq_left, run_branchTerm_look,
    run_branchTerm_append, hnodes]
  refine or_congr ?_ ?_
  · constructor
    · rintro ⟨_, ⟨b, hb, rfl⟩, hrun⟩
      exact ⟨b, hb, hrun⟩
    · rintro ⟨b, hb, hrun⟩
      exact ⟨_, ⟨b, hb, rfl⟩, hrun⟩
  · constructor
    · rintro ⟨⟨u, hrun, hliteral⟩, hholds⟩
      exact ⟨u, hrun, hliteral, hholds⟩
    · rintro ⟨u, hrun, hliteral, hholds⟩
      exact ⟨⟨u, hrun, hliteral⟩, hholds⟩

theorem runAll_single {cs text : List Char} {s t : Spot} :
    RunAll text.toArray (cs.map fun c => .read (.single c)) s t ↔
      text.drop s.pos = cs ++ text.drop t.pos ∧ t = ⟨s.pos + cs.length, s.saved⟩ := by
  induction cs generalizing s with
  | nil =>
    constructor
    · rintro rfl
      exact ⟨rfl, rfl⟩
    · rintro ⟨-, rfl⟩
      rfl
  | cons c cs ih =>
    simp only [List.map_cons, RunAll, run_read, mem_single, ih]
    constructor
    · rintro ⟨u, ⟨d, rfl, hdrop, rfl⟩, hrest, rfl⟩
      refine ⟨?_, ?_⟩
      · rw [hdrop, hrest]
        rfl
      · simp [Nat.add_assoc, Nat.add_comm 1]
    · rintro ⟨hdrop, rfl⟩
      have hnext : text.drop (s.pos + 1) = cs ++ text.drop (s.pos + (c :: cs).length) := by
        rw [← List.drop_drop, hdrop]
        rfl
      refine ⟨⟨s.pos + 1, s.saved⟩, ⟨c, rfl, ?_, rfl⟩, hnext, ?_⟩
      · rw [hdrop, hnext]
        rfl
      · simp [Nat.add_assoc, Nat.add_comm 1]

/-- A run that a literal text follows to the end of the value is a run to the end of what stands
before the text, unless a condition in it sees that the text follows. -/
theorem run_literal_iff {n : Node} (hn : n.Blind '/') {cs text : List Char}
    (hcs : cs.head? = some '/') :
    (∃ start t, start ≤ text.length ∧ ∃ u, n.Run text.toArray ⟨start, []⟩ u ∧
      RunAll text.toArray (cs.map fun c => .read (.single c)) u t ∧
      Look.textEnd.holds (charBefore text.toArray t.pos) text.toArray[t.pos]? = true) ↔
      ∃ front, text = front ++ cs ∧ ∃ start t, start ≤ front.length ∧
        n.Run front.toArray ⟨start, []⟩ t ∧ t.pos = front.length := by
  obtain ⟨tail, rfl⟩ := List.head?_eq_some_iff.mp hcs
  simp only [runAll_single]
  constructor
  · rintro ⟨start, t, hstart, u, hrun, ⟨hdrop, -⟩, hholds⟩
    have hend : text.drop t.pos = [] := by
      have hnone := Option.isNone_iff_eq_none.mp hholds
      rw [List.getElem?_toArray, List.getElem?_eq_none_iff] at hnone
      exact List.drop_eq_nil_of_le hnone
    rw [hend, List.append_nil] at hdrop
    have hle : u.pos ≤ text.length := by simpa using pos_le_of_run hrun (by simpa using hstart)
    have hsplit : text = text.take u.pos ++ '/' :: tail := by rw [← hdrop, List.take_append_drop]
    have hlength : (text.take u.pos).length = u.pos := by simp [hle]
    refine ⟨text.take u.pos, hsplit, start, u, ?_, ?_, hlength.symm⟩
    · rw [hlength]
      exact pos_le_pos_of_run hrun
    · rw [hsplit] at hrun
      exact (run_append_iff hn (Nat.le_of_eq hlength.symm)).mp hrun
  · rintro ⟨front, rfl, start, t, hstart, hrun, hlength⟩
    have hend : (front ++ '/' :: tail).drop (t.pos + ('/' :: tail).length) = [] :=
      List.drop_eq_nil_of_le (by simp [hlength])
    refine ⟨start, ⟨t.pos + ('/' :: tail).length, t.saved⟩, ?_, t, ?_, ⟨?_, rfl⟩, ?_⟩
    · rw [List.length_append]
      omega
    · exact (run_append_iff hn (Nat.le_of_eq hlength)).mpr hrun
    · rw [hend, hlength, List.drop_left, List.append_nil]
    · rw [List.getElem?_toArray, ← List.head?_drop, hend]
      rfl

end Signpost.Template
