import Signpost.Proofs.Regex.Capture

/-! # Anchors put around a pattern

An anchor that is put before the text of a pattern belongs to its first branch only, and one that is
put behind it to its last branch only. So a run of the whole is a run of a branch of the pattern,
which the anchors hold to the ends of the text if it is the first or the last.
-/
namespace Signpost.Regex
open Relation

variable {st st' : ReadState} {a : Action} {text : Array Char} {s t : Spot}

theorem Action.flags_perform (h : a.perform st = .ok st') (ha : a.resetsFlags = false)
    (hgroups : st'.groups = []) : st'.flags = st.flags := by
  cases a with
  | again min max lazily =>
    simp only [perform, ReadState.repeatLast] at h
    split at h
    · split at h
      · cases h
        rfl
      · cases h
    · cases h
  | named name =>
    simp only [perform] at h
    split at h
    · cases h
    · cases h
      cases hgroups
  | capture | group inside =>
    cases h
    cases hgroups
  | flags inside | close => cases ha
  | read set depth | look condition | bar =>
    cases h
    rfl

/-- An element is read alike if more text stands behind the pattern: some of the pattern is left, or
the pattern ends here outside groups and outside verbose mode. -/
theorem Advances.append {x y : ReadState × List Char} (h : Advances x y) {more : List Char}
    (hmore : Closes more)
    (hend : y.2 ≠ [] ∨ y.1.groups = [] ∧ y.1.flags.verbose = false) :
    Advances (x.1, x.2 ++ more) (y.1, y.2 ++ more) := by
  cases h with
  | @element st st' c cs rest a ha hst =>
    dsimp only at hend
    have hends : Action.Ends st.flags a rest := by
      rintro hresets hverbose rfl
      rcases hend with hne | ⟨hgroups, hfalse⟩
      · exact hne (skipBlank_nil _)
      · rw [Action.flags_perform hst hresets hgroups, hverbose] at hfalse
        cases hfalse
    have hskip : st'.flags.verbose = true → skipBlank st'.flags.verbose rest ≠ [] := by
      intro hverbose hnil
      rcases hend with hne | ⟨-, hfalse⟩
      · exact hne hnil
      · rw [hverbose] at hfalse
        cases hfalse
    dsimp only
    rw [← skipBlank_append hskip]
    exact .element ((Action.ofElement_append ha).2 more hmore hends) hst

theorem advances_append {x : ReadState × List Char} (h : ReflTransGen Advances x (st, []))
    {more : List Char} (hmore : Closes more) (hgroups : st.groups = [])
    (hverbose : st.flags.verbose = false) :
    ReflTransGen Advances (x.1, x.2 ++ more) (st, more) := by
  induction h using ReflTransGen.head_induction_on with
  | refl => exact .refl
  | @head x y hstep hrest ih =>
    refine .head (hstep.append hmore ?_) ih
    by_cases hy : y.2 = []
    · rw [eq_of_advances_of_length hrest (by simp [hy])]
      exact Or.inr ⟨hgroups, hverbose⟩
    · exact Or.inl hy

theorem run_branchTerm {ts : List Term} :
    (branchTerm ts).node.Run text s t ↔ RunAll text (ts.reverse.map Term.node) s t := by
  unfold branchTerm
  split
  · rfl
  · rw [← List.reverse_singleton, ← run_catAll]
    rfl
  · exact run_catAll

/-- The branches of a group that is being read, the last of them still in its terms. -/
def branchNodes (branches terms : List Term) : List Node :=
  (branchTerm terms :: branches).reverse.map Term.node

theorem branchNodes_ne_nil (branches terms : List Term) : branchNodes branches terms ≠ [] := by
  simp [branchNodes]

theorem run_groupBody {branches terms : List Term} :
    (groupBody branches terms).node.Run text s t ↔
      ∃ n ∈ branchNodes branches terms, n.Run text s t := by
  rw [← run_altAll (branchNodes_ne_nil branches terms)]
  unfold groupBody
  split
  · rfl
  · rfl

def startTerm : Term := ⟨.look .textStart, 0, true⟩

/-- A run of the second node is a run of the first from the start of the text. -/
def Leads (n n' : Node) : Prop :=
  ∀ (text : Array Char) (s t : Spot), s.pos ≤ text.size →
    (n'.Run text s t ↔ s.pos = 0 ∧ n.Run text s t)

theorem run_textStart (hs : s.pos ≤ text.size) :
    (Node.look .textStart).Run text s t ↔ s.pos = 0 ∧ s = t := by
  rw [← charBefore_eq_none_iff hs, ← Option.isNone_iff_eq_none]
  rfl

theorem leads_branchTerm (terms : List Term) :
    Leads (branchTerm terms).node (branchTerm (terms ++ [startTerm])).node := by
  intro text s t hs
  rw [run_branchTerm, run_branchTerm, List.reverse_append]
  change (∃ u, (Node.look .textStart).Run text s u ∧ RunAll text _ u t) ↔ _
  simp only [run_textStart hs]
  constructor
  · rintro ⟨u, ⟨hzero, rfl⟩, hrun⟩
    exact ⟨hzero, hrun⟩
  · rintro ⟨hzero, hrun⟩
    exact ⟨s, ⟨hzero, rfl⟩, hrun⟩

/-- The terms and branches of a group, and those that it has when an anchor stands before them. -/
inductive LedBody : List Term → List Term → List Term → List Term → Prop
  | first (terms : List Term) : LedBody terms [] (terms ++ [startTerm]) []
  | later (terms branches : List Term) {b b' : Term} (h : Leads b.node b'.node) :
      LedBody terms (branches ++ [b]) terms (branches ++ [b'])

namespace LedBody
variable {terms branches terms' branches' : List Term}

theorem cons (h : LedBody terms branches terms' branches') (t : Term) :
    LedBody (t :: terms) branches (t :: terms') branches' := by
  cases h with
  | first => exact .first (t :: terms)
  | later branches hlead => exact .later (t :: terms) branches hlead

theorem of_cons {t : Term} (h : LedBody (t :: terms) branches terms' branches') :
    ∃ rest, terms' = t :: rest ∧ LedBody terms branches rest branches' := by
  cases h with
  | first => exact ⟨terms ++ [startTerm], rfl, .first terms⟩
  | later branches hlead => exact ⟨terms, rfl, .later terms branches hlead⟩

theorem bar (h : LedBody terms branches terms' branches') :
    LedBody [] (branchTerm terms :: branches) [] (branchTerm terms' :: branches') := by
  cases h with
  | first => exact .later [] [] (leads_branchTerm terms)
  | later branches hlead => exact .later [] (branchTerm terms :: branches) hlead

end LedBody

/-- The state of the reader, and the one that it has when an anchor stands before the pattern. -/
inductive Led : ReadState → ReadState → Prop
  | outside {terms branches terms' branches' : List Term} (flags : Flags) (captures : Nat)
      (names : List (List Char)) (h : LedBody terms branches terms' branches') :
      Led ⟨[], terms, branches, flags, captures, names⟩
        ⟨[], terms', branches', flags, captures, names⟩
  | inside {terms branches terms' branches' : List Term} (outer : Flags) (capture : Option Nat)
      (groups : List OpenGroup) (inner innerBranches : List Term) (flags : Flags) (captures : Nat)
      (names : List (List Char)) (h : LedBody terms branches terms' branches') :
      Led ⟨groups ++ [⟨terms, branches, outer, capture⟩], inner, innerBranches, flags, captures,
          names⟩
        ⟨groups ++ [⟨terms', branches', outer, capture⟩], inner, innerBranches, flags, captures,
          names⟩

namespace Led

theorem flags_eq (h : Led st st') : st'.flags = st.flags := by
  cases h <;> rfl

theorem captures_eq (h : Led st st') : st'.captures = st.captures := by
  cases h <;> rfl

theorem names_eq (h : Led st st') : st'.names = st.names := by
  cases h <;> rfl

theorem push (h : Led st st') (t : Term) : Led (st.push t) (st'.push t) := by
  cases h with
  | outside flags captures names h => exact .outside flags captures names (h.cons t)
  | inside outer capture groups inner innerBranches flags captures names h =>
    exact .inside outer capture groups (t :: inner) innerBranches flags captures names h

theorem openGroup (h : Led st st') (capture : Option Nat) (inside : Flags) :
    Led (st.openGroup capture inside) (st'.openGroup capture inside) := by
  cases h with
  | outside flags captures names h => exact .inside flags capture [] [] [] inside _ names h
  | inside outer capture' groups inner innerBranches flags captures names h =>
    exact .inside outer capture' (⟨inner, innerBranches, flags, capture⟩ :: groups) [] [] inside _
      names h

theorem setFlags (h : Led st st') (flags : Flags) :
    Led { st with flags } { st' with flags } := by
  cases h with
  | outside _ captures names h => exact .outside flags captures names h
  | inside outer capture groups inner innerBranches _ captures names h =>
    exact .inside outer capture groups inner innerBranches flags captures names h

theorem setNames (h : Led st st') (names : List (List Char)) :
    Led { st with names } { st' with names } := by
  cases h with
  | outside flags captures _ h => exact .outside flags captures names h
  | inside outer capture groups inner innerBranches flags captures _ h =>
    exact .inside outer capture groups inner innerBranches flags captures names h

theorem bar (h : Led st st') :
    Led { st with terms := [], branches := branchTerm st.terms :: st.branches }
      { st' with terms := [], branches := branchTerm st'.terms :: st'.branches } := by
  cases h with
  | outside flags captures names h => exact .outside flags captures names h.bar
  | inside outer capture groups inner innerBranches flags captures names h =>
    exact .inside outer capture groups [] (branchTerm inner :: innerBranches) flags captures names h

theorem repeatLast (h : Led st st') {min : Nat} {max : Option Nat} {lazily : Bool}
    {next : ReadState} (hnext : st.repeatLast min max lazily = .ok next) :
    ∃ next', st'.repeatLast min max lazily = .ok next' ∧ Led next next' := by
  unfold ReadState.repeatLast at hnext
  split at hnext
  · rename_i t before hterms
    split at hnext
    · rename_i hrepeatable
      cases hnext
      cases h with
      | outside flags captures names h =>
        cases hterms
        obtain ⟨rest, rfl, hrest⟩ := h.of_cons
        refine ⟨_, if_pos hrepeatable, ?_⟩
        exact .outside flags captures names (hrest.cons _)
      | inside outer capture groups inner innerBranches flags captures names h =>
        cases hterms
        refine ⟨_, if_pos hrepeatable, ?_⟩
        exact .inside outer capture groups _ innerBranches flags captures names h
    · cases hnext
  · cases hnext

theorem closeGroup (h : Led st st') {next : ReadState} (hnext : st.closeGroup = .ok next) :
    ∃ next', st'.closeGroup = .ok next' ∧ Led next next' := by
  cases h with
  | outside flags captures names h => cases hnext
  | inside outer capture groups inner innerBranches flags captures names h =>
    cases groups with
    | nil =>
      cases hnext
      exact ⟨_, rfl, .outside outer captures names (h.cons _)⟩
    | cons g groups =>
      cases hnext
      exact ⟨_, rfl, .inside outer capture groups _ g.branches g.flags captures names h⟩

theorem perform (h : Led st st') {next : ReadState} (hnext : a.perform st = .ok next) :
    ∃ next', a.perform st' = .ok next' ∧ Led next next' := by
  cases a with
  | read set depth | look condition =>
    cases hnext
    exact ⟨_, rfl, h.push _⟩
  | again min max lazily => exact h.repeatLast hnext
  | bar =>
    cases hnext
    exact ⟨_, rfl, h.bar⟩
  | capture =>
    cases hnext
    refine ⟨_, rfl, ?_⟩
    rw [h.flags_eq, h.captures_eq]
    exact h.openGroup _ _
  | named name =>
    simp only [Action.perform, h.names_eq, h.flags_eq, h.captures_eq] at hnext ⊢
    split at hnext
    · cases hnext
    · rename_i hname
      cases hnext
      rw [if_neg hname]
      exact ⟨_, rfl, (h.openGroup _ _).setNames _⟩
  | group inside =>
    cases hnext
    exact ⟨_, rfl, h.openGroup _ _⟩
  | flags inside =>
    cases hnext
    exact ⟨_, rfl, (h.push _).setFlags inside⟩
  | close => exact h.closeGroup hnext

theorem advances {x y : ReadState × List Char} (hstep : Advances x y) (h : Led x.1 st') :
    ∃ next', Advances (st', x.2) (next', y.2) ∧ Led y.1 next' := by
  cases hstep with
  | element ha hst =>
    obtain ⟨next', hnext', hled⟩ := h.perform hst
    refine ⟨next', ?_, hled⟩
    dsimp only
    rw [← hled.flags_eq]
    exact .element (h.flags_eq.symm ▸ ha) hnext'

theorem reflTransGen {x y : ReadState × List Char} (hrun : ReflTransGen Advances x y)
    (h : Led x.1 st') : ∃ last', ReflTransGen Advances (st', x.2) (last', y.2) ∧ Led y.1 last' := by
  induction hrun with
  | refl => exact ⟨st', .refl, h⟩
  | tail _ hstep ih =>
    obtain ⟨mid', hmid, hled⟩ := ih
    obtain ⟨next', hnext, hled'⟩ := hled.advances hstep
    exact ⟨next', hmid.tail hnext, hled'⟩

end Led

def Flags.endLook (f : Flags) : Look :=
  if f.multiLine then .lineEnd f.crlf else .textEnd

/-- A run of one of the branches: from the start of the text if it is the first of them, and to a
position that the condition allows if it is the last. -/
def Anchored (text : Array Char) (condition : Look) (ns : List Node) (s t : Spot) : Prop :=
  ∃ front n back, ns = front ++ n :: back ∧ n.Run text s t ∧ (front = [] → s.pos = 0) ∧
    (back = [] → condition.holds (charBefore text t.pos) text[t.pos]? = true)

theorem run_branchTerm_cons {t₀ : Term} {ts : List Term} :
    (branchTerm (t₀ :: ts)).node.Run text s t ↔
      ∃ u, (branchTerm ts).node.Run text s u ∧ t₀.node.Run text u t := by
  simp only [run_branchTerm, List.reverse_cons, List.map_append, runAll_append, List.map_cons,
    List.map_nil, RunAll, exists_eq_right]

theorem run_branchTerm_look {condition : Look} {ts : List Term} :
    (branchTerm (⟨.look condition, 0, true⟩ :: ts)).node.Run text s t ↔
      (branchTerm ts).node.Run text s t ∧
        condition.holds (charBefore text t.pos) text[t.pos]? = true := by
  rw [run_branchTerm_cons]
  constructor
  · rintro ⟨u, hrun, hholds, rfl⟩
    exact ⟨hrun, hholds⟩
  · rintro ⟨hrun, hholds⟩
    exact ⟨t, hrun, hholds, rfl⟩

theorem branchNodes_eq (branches terms : List Term) :
    branchNodes branches terms =
      branches.reverse.map Term.node ++ [(branchTerm terms).node] := by
  simp [branchNodes]

theorem anchored_singleton {condition : Look} {n : Node} :
    Anchored text condition [n] s t ↔
      s.pos = 0 ∧ n.Run text s t ∧ condition.holds (charBefore text t.pos) text[t.pos]? = true := by
  constructor
  · rintro ⟨front, m, back, heq, hrun, hzero, hholds⟩
    cases front with
    | nil =>
      obtain ⟨rfl, rfl⟩ := List.cons.inj heq
      exact ⟨hzero rfl, hrun, hholds rfl⟩
    | cons m' front => simp at heq
  · rintro ⟨hzero, hrun, hholds⟩
    exact ⟨[], n, [], rfl, hrun, fun _ => hzero, fun _ => hholds⟩

theorem anchored_cons_concat {condition : Look} {first last : Node} {ns : List Node} :
    Anchored text condition (first :: (ns ++ [last])) s t ↔
      s.pos = 0 ∧ first.Run text s t ∨ (∃ n ∈ ns, n.Run text s t) ∨
        last.Run text s t ∧ condition.holds (charBefore text t.pos) text[t.pos]? = true := by
  constructor
  · rintro ⟨front, n, back, heq, hrun, hzero, hholds⟩
    cases front with
    | nil =>
      obtain ⟨rfl, -⟩ := List.cons.inj heq
      exact Or.inl ⟨hzero rfl, hrun⟩
    | cons m front =>
      obtain ⟨-, heq⟩ := List.cons.inj heq
      refine Or.inr ?_
      rcases back.eq_nil_or_concat with rfl | ⟨back, m', rfl⟩
      · obtain ⟨-, hn⟩ := List.append_inj' heq rfl
        cases hn
        exact Or.inr ⟨hrun, hholds rfl⟩
      · have heq' : ns ++ [last] = (front ++ n :: back) ++ [m'] := by simp [heq]
        obtain ⟨rfl, -⟩ := List.append_inj' heq' rfl
        exact Or.inl ⟨n, by simp, hrun⟩
  · rintro (⟨hzero, hrun⟩ | ⟨n, hn, hrun⟩ | ⟨hrun, hholds⟩)
    · exact ⟨[], first, _, rfl, hrun, fun _ => hzero, fun hback => by simp at hback⟩
    · obtain ⟨front, back, rfl⟩ := List.append_of_mem hn
      exact ⟨first :: front, n, back ++ [last], by simp, hrun, fun hfront => by simp at hfront,
        fun hback => by simp at hback⟩
    · exact ⟨first :: ns, last, [], rfl, hrun, fun hfront => by simp at hfront,
        fun _ => hholds⟩

theorem LedBody.run {terms branches terms' branches' : List Term} (condition : Look)
    (h : LedBody terms branches terms' branches') (hs : s.pos ≤ text.size) :
    (groupBody branches' (⟨.look condition, 0, true⟩ :: terms')).node.Run text s t ↔
      Anchored text condition (branchNodes branches terms) s t := by
  rw [run_groupBody, branchNodes_eq, branchNodes_eq]
  cases h with
  | first =>
    simp only [List.reverse_nil, List.map_nil, List.nil_append, List.mem_singleton,
      exists_eq_left, anchored_singleton, run_branchTerm_look, leads_branchTerm _ _ _ _ hs,
      and_assoc]
  | @later branches b b' hlead =>
    have hfront : ∀ b : Term, (branches ++ [b]).reverse.map Term.node =
        b.node :: branches.reverse.map Term.node := by
      simp
    simp only [hfront, List.cons_append, anchored_cons_concat, List.mem_cons, List.mem_append,
      List.not_mem_nil, or_false, or_and_right, exists_or, exists_eq_left, hlead _ _ _ hs,
      run_branchTerm_look]

theorem pos_le_of_run {n : Node} (hrun : n.Run text s t) (hs : s.pos ≤ text.size) :
    t.pos ≤ text.size := by
  induction n generalizing s t with
  | empty => exact (show s = t from hrun) ▸ hs
  | read set =>
    obtain ⟨c, hc, -, rfl⟩ := hrun
    exact (Array.getElem?_eq_some_iff.mp hc).1
  | look condition => exact hrun.2 ▸ hs
  | group index body ih =>
    obtain ⟨u, hbody, rfl⟩ := hrun
    change u.pos ≤ text.size
    exact ih hbody hs
  | cat first second ihf ihs =>
    obtain ⟨u, hfirst, hsecond⟩ := hrun
    exact ihs hsecond (ihf hfirst hs)
  | alt preferred other ihp iho =>
    rcases hrun with hrun | hrun
    · exact ihp hrun hs
    · exact iho hrun hs
  | loop body min max greedy ih =>
    obtain ⟨count, -, -, hcount⟩ := hrun
    exact iterate_induction (I := fun u => u.pos ≤ text.size) (fun x y hxy hx => ih hxy hx) hcount hs

theorem holds_textEnd_iff {n : Node} (hrun : n.Run text s t) (hs : s.pos ≤ text.size) :
    Look.textEnd.holds (charBefore text t.pos) text[t.pos]? = true ↔ t.pos = text.size := by
  have hle := pos_le_of_run hrun hs
  simp only [Look.holds, Option.isNone_iff_eq_none, Array.getElem?_eq_none_iff]
  omega

/-- A pattern between anchors has the branches of the pattern, the first held by the one anchor and
the last by the other. -/
theorem run_anchored {ignoreCase : Bool} {source : List Char} {node node' : Node}
    {groups groups' : Nat} (h : parse source ignoreCase = .ok (node, groups))
    (h' : parse ('^' :: (source ++ ['$'])) ignoreCase = .ok (node', groups')) :
    ∃ st, Stands ignoreCase source st [] ∧ (groupBody st.branches st.terms).node = node ∧
      (st.flags.verbose = false → ∀ (text : Array Char) (s t : Spot), s.pos ≤ text.size →
        (node'.Run text s t ↔
          Anchored text st.flags.endLook (branchNodes st.branches st.terms) s t)) := by
  obtain ⟨st, hstands, hgroups, -, hnode⟩ := exists_stands_of_parse h
  refine ⟨st, hstands, hnode, fun hverbose text s t hs => ?_⟩
  let led : ReadState := (ReadState.start ignoreCase).push startTerm
  have hopen : Advances (.start ignoreCase, '^' :: (source ++ ['$'])) (led, source ++ ['$']) :=
    Advances.element (a := .look .textStart) rfl rfl
  have hinside : ReflTransGen Advances (.start ignoreCase, source ++ ['$']) (st, ['$']) :=
    advances_append hstands ⟨'$', by decide, rfl⟩ hgroups hverbose
  have hstart : Led (.start ignoreCase) led := .outside _ _ _ (.first [])
  obtain ⟨st', hrun, hled⟩ := hstart.reflTransGen hinside
  dsimp only at hrun hled
  have hclose : Advances (st', ['$']) (st'.push ⟨.look st'.flags.endLook, 0, true⟩, []) := by
    have hstep : Advances (st', ['$'])
        (st'.push ⟨.look st'.flags.endLook, 0, true⟩, skipBlank st'.flags.verbose []) :=
      .element (a := .look st'.flags.endLook) rfl rfl
    rwa [skipBlank_nil] at hstep
  have hall : Stands ignoreCase ('^' :: (source ++ ['$']))
      (st'.push ⟨.look st'.flags.endLook, 0, true⟩) [] :=
    .head hopen (hrun.tail hclose)
  obtain ⟨last, hlast, -, -, rfl⟩ := exists_stands_of_parse h'
  cases hlast.unique hall
  cases hled with
  | outside flags captures names hbody => exact hbody.run _ hs
  | inside => simp at hgroups

end Signpost.Regex
