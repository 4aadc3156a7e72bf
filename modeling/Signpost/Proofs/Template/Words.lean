import Mathlib.Algebra.Order.BigOperators.Group.List
import Mathlib.Algebra.Order.Group.Nat
import Signpost.Proofs.Route.Accept
import Signpost.Proofs.Template.Behind

/-! # Words without regard to case

A pattern of words between two anchors, read without regard to case, accepts the texts that are one
of the words up to case. It is too large only when the words are long.
-/
namespace Signpost.Template
open Relation Regex Unicode

/-- The text is the word up to case. -/
def SameWord (w text : List Char) : Prop := List.Forall₂ (fun x c => x ∈ caseVariants c) w text

def wordSource (w : List Char) : List Char := '^' :: (Pattern.escape w ++ ['$'])

def wordsSource (words : List (List Char)) : List Char :=
  '^' :: '(' :: (['|'].intercalate (words.map Pattern.escape) ++ [')', '$'])

def folding : Flags := { ignoreCase := true }

def wordTerm (w : List Char) : Term := branchTerm (w.map (literalTerm folding)).reverse

theorem advances_caret (st : ReadState) (hst : st.flags = folding) (rest : List Char) :
    Advances (st, '^' :: rest) (st.push startTerm, rest) := by
  have hskip : rest = skipBlank (st.push startTerm).flags.verbose rest := by
    change rest = skipBlank st.flags.verbose rest
    rw [hst]
    rfl
  have hread : Action.ofElement st.flags '^' rest = .ok (.look .textStart, rest) := by
    rw [hst]
    rfl
  have hstep : Advances (st, '^' :: rest)
      (st.push startTerm, skipBlank (st.push startTerm).flags.verbose rest) := .element hread rfl
  rwa [← hskip] at hstep

def endTerm : Term := ⟨.look .textEnd, 0, true⟩

theorem advances_dollar (st : ReadState) (hst : st.flags = folding) :
    Advances (st, ['$']) (st.push endTerm, []) := by
  have hread : Action.ofElement st.flags '$' [] = .ok (.look .textEnd, []) := by
    rw [hst]
    rfl
  have hstep : Advances (st, ['$'])
      (st.push endTerm, skipBlank (st.push endTerm).flags.verbose []) := .element hread rfl
  rwa [skipBlank_nil] at hstep

theorem advances_bar (st : ReadState) (hst : st.flags = folding) (rest : List Char) :
    Advances (st, '|' :: rest)
      ({ st with terms := [], branches := branchTerm st.terms :: st.branches }, rest) := by
  obtain ⟨groups, terms, branches, flags, captures, names⟩ := st
  cases hst
  exact Advances.element (a := .bar) rfl rfl

theorem advances_word {st : ReadState} (hst : st.flags = folding) (hterms : st.terms = [])
    (w rest : List Char) :
    ReflTransGen Advances (st, Pattern.escape w ++ rest)
      ({ st with terms := (w.map (literalTerm folding)).reverse }, rest) := by
  obtain ⟨groups, terms, branches, flags, captures, names⟩ := st
  obtain rfl : flags = folding := hst
  cases hterms
  have hverbose : (ReadState.mk groups [] branches folding captures names).flags.verbose = false :=
    rfl
  simpa using advances_escape hverbose w rest

/-- What is read of words between bars is a branch for each word. -/
theorem advances_words (st : ReadState) (hst : st.flags = folding) (hterms : st.terms = [])
    (w : List Char) (words : List (List Char)) (rest : List Char) :
    ∃ branches terms,
      ReflTransGen Advances
        (st, ['|'].intercalate ((w :: words).map Pattern.escape) ++ rest)
        ({ st with terms, branches }, rest) ∧
      branchTerm terms :: branches = ((w :: words).map wordTerm).reverse ++ st.branches := by
  induction words generalizing st w with
  | nil =>
    refine ⟨st.branches, (w.map (literalTerm folding)).reverse, ?_, rfl⟩
    simpa using advances_word hst hterms w rest
  | cons w' words ih =>
    let more := ['|'].intercalate ((w' :: words).map Pattern.escape) ++ rest
    have hword := advances_word hst hterms w ('|' :: more)
    have hbar := advances_bar { st with terms := (w.map (literalTerm folding)).reverse } hst more
    obtain ⟨branches, terms, hmore, heq⟩ :=
      ih { st with terms := [], branches := wordTerm w :: st.branches } hst rfl w'
    refine ⟨branches, terms, ?_, ?_⟩
    · rw [List.map_cons, List.map_cons, List.intercalate_cons_cons, ← List.map_cons]
      have hall := (hword.tail hbar).trans hmore
      simpa [more] using hall
    · rw [heq]
      simp

theorem depth_wordTerm_le (w : List Char) : (wordTerm w).depth ≤ 1 := by
  unfold wordTerm branchTerm
  split
  · exact Nat.zero_le 1
  · rename_i t heq
    have hmem : t ∈ (w.map (literalTerm folding)).reverse := by rw [heq]; simp
    obtain ⟨c, -, rfl⟩ := List.mem_map.mp (List.mem_reverse.mp hmem)
    exact Nat.zero_le 1
  · have hmax : (((w.map (literalTerm folding)).reverse.reverse).map Term.depth).foldl max 0 ≤ 0 := by
      refine foldl_max_le (fun d hd => ?_) (Nat.le_refl 0)
      rw [List.reverse_reverse, List.map_map] at hd
      obtain ⟨c, -, rfl⟩ := List.mem_map.mp hd
      exact Nat.le_refl 0
    change 1 + _ ≤ 1
    omega

theorem depth_groupBody_le {branches terms : List Term} {bound : Nat}
    (h : ∀ t ∈ branchTerm terms :: branches, t.depth ≤ bound) :
    (groupBody branches terms).depth ≤ 1 + bound := by
  unfold groupBody
  split
  · have hdepth := h (branchTerm terms) List.mem_cons_self
    omega
  · refine Nat.add_le_add_left (foldl_max_le (fun d hd => ?_) (Nat.zero_le bound)) 1
    obtain ⟨t, ht, rfl⟩ := List.mem_map.mp hd
    exact h t (List.mem_reverse.mp ht)

def anchoredNode (ns : List Node) : Node :=
  Node.catAll (.look .textStart :: (ns ++ [.look .textEnd]))

def wordNode (w : List Char) : Node := anchoredNode (w.map (literalNode folding))

def wordsNode (words : List (List Char)) : Node :=
  anchoredNode [.group 1 (Node.altAll ((if words = [] then [[]] else words).map
    fun w => (wordTerm w).node))]

theorem parse_anchored {source : List Char} {ts : List Term} {captures : Nat}
    (h : Stands true source ⟨[], endTerm :: (ts ++ [startTerm]), [], folding, captures, []⟩ [])
    (hdepth : ∀ t ∈ ts, t.depth ≤ 3) :
    parse source true = .ok (anchoredNode (ts.reverse.map Term.node), captures) := by
  have hterm : branchTerm (endTerm :: (ts ++ [startTerm])) =
      ⟨anchoredNode (ts.reverse.map Term.node),
        1 + ((endTerm :: (ts ++ [startTerm])).reverse.map Term.depth).foldl max 0, true⟩ := by
    rw [branchTerm_of_two (by simp), anchoredNode]
    simp [endTerm, startTerm]
  have hmax : ((endTerm :: (ts ++ [startTerm])).reverse.map Term.depth).foldl max 0 ≤ 3 := by
    refine foldl_max_le (fun d hd => ?_) (Nat.zero_le 3)
    obtain ⟨t, ht, rfl⟩ := List.mem_map.mp hd
    rcases List.mem_cons.mp (List.mem_reverse.mp ht) with rfl | ht
    · exact Nat.zero_le 3
    · rcases List.mem_append.mp ht with ht | ht
      · exact hdepth t ht
      · rw [List.mem_singleton.mp ht]
        exact Nat.zero_le 3
  have hparse := parse_of_stands h rfl (by
    rw [groupBody, hterm]
    exact (Nat.add_le_add_left hmax 1).trans (by decide))
  rwa [groupBody, hterm] at hparse

theorem parse_word (w : List Char) : parse (wordSource w) true = .ok (wordNode w, 0) := by
  let ts := (w.map (literalTerm folding)).reverse
  have hverbose : ((ReadState.start true).push startTerm).flags.verbose = false := rfl
  have hcaret := advances_caret (.start true) rfl (Pattern.escape w ++ ['$'])
  have hword := advances_escape hverbose w ['$']
  have hdollar := advances_dollar
    { (ReadState.start true).push startTerm with terms := ts ++ [startTerm] } rfl
  have hstands : Stands true (wordSource w)
      ⟨[], endTerm :: (ts ++ [startTerm]), [], folding, 0, []⟩ [] :=
    .head hcaret (hword.tail hdollar)
  have hparse := parse_anchored hstands fun t ht => by
    obtain ⟨c, -, rfl⟩ := List.mem_map.mp (List.mem_reverse.mp ht)
    exact Nat.zero_le 3
  refine hparse.trans ?_
  rw [List.reverse_reverse, List.map_map]
  rfl

theorem node_branchTerm (ts : List Term) :
    (branchTerm ts).node = Node.catAll (ts.reverse.map Term.node) := by
  unfold branchTerm
  split <;> rfl

theorem node_wordTerm (w : List Char) :
    (wordTerm w).node = Node.catAll (w.map (literalNode folding)) := by
  rw [wordTerm, node_branchTerm, List.reverse_reverse, List.map_map]
  rfl

theorem node_groupBody (branches terms : List Term) :
    (groupBody branches terms).node = Node.altAll (branchNodes branches terms) := by
  cases branches <;> rfl

/-- An escaped text does not begin with a question mark, which would make a parenthesis before it
one of another kind. -/
theorem head?_escape_append_ne (w : List Char) {rest : List Char} (hrest : rest.head? ≠ some '?') :
    (Pattern.escape w ++ rest).head? ≠ some '?' := by
  cases w with
  | nil => exact hrest
  | cons c w => exact head?_escape_cons_append_ne c w rest

theorem parse_words_cons (w : List Char) (words : List (List Char)) :
    parse (wordsSource (w :: words)) true = .ok (wordsNode (w :: words), 1) := by
  let outer : OpenGroup := ⟨[startTerm], [], folding, some 1⟩
  let inside : ReadState := ⟨[outer], [], [], folding, 1, []⟩
  let barred := ['|'].intercalate ((w :: words).map Pattern.escape)
  obtain ⟨branches, terms, hwords, heq⟩ :=
    advances_words inside rfl rfl w words [')', '$']
  rw [List.append_nil] at heq
  let body := groupBody branches terms
  let closed : ReadState :=
    ⟨[], [⟨.group 1 body.node, 1 + body.depth, true⟩, startTerm], [], folding, 1, []⟩
  have hcaret := advances_caret (.start true) rfl ('(' :: (barred ++ [')', '$']))
  have hmark : (barred ++ [')', '$']).head? ≠ some '?' := by
    cases words with
    | nil =>
      have hclose : [')', '$'].head? ≠ some '?' := by decide
      simpa [barred] using head?_escape_append_ne w hclose
    | cons w' words =>
      have hbar : ('|' :: (['|'].intercalate ((w' :: words).map Pattern.escape) ++
          [')', '$'])).head? ≠ some '?' := by simp
      simpa [barred, List.intercalate_cons_cons] using head?_escape_append_ne w hbar
  have hopen : Advances ((ReadState.start true).push startTerm, '(' :: (barred ++ [')', '$']))
      (inside, barred ++ [')', '$']) :=
    .element (a := .capture) (Action.ofParenthesis_of_ne hmark) rfl
  have hclose : Advances ({ inside with terms, branches }, [')', '$']) (closed, ['$']) :=
    .element (a := .close) rfl rfl
  have hdollar := advances_dollar closed rfl
  have hall : Stands true (wordsSource (w :: words))
      ⟨[], endTerm :: ([⟨.group 1 body.node, 1 + body.depth, true⟩] ++ [startTerm]), [], folding, 1,
        []⟩ [] :=
    ((ReflTransGen.head hcaret (.head hopen hwords)).tail hclose).tail hdollar
  have hdepth : body.depth ≤ 2 := depth_groupBody_le fun t ht => by
    rw [heq] at ht
    obtain ⟨w', -, rfl⟩ := List.mem_map.mp (List.mem_reverse.mp ht)
    exact depth_wordTerm_le w'
  have hnode : body.node = Node.altAll ((w :: words).map fun w => (wordTerm w).node) := by
    rw [node_groupBody, branchNodes, heq, List.reverse_reverse, List.map_map]
    rfl
  have hparse := parse_anchored hall fun t ht => by
    rw [List.mem_singleton.mp ht]
    exact Nat.add_le_add_left hdepth 1
  refine hparse.trans ?_
  rw [wordsNode, if_neg (List.cons_ne_nil w words), ← hnode]
  rfl

theorem parse_words (words : List (List Char)) :
    parse (wordsSource words) true = .ok (wordsNode words, 1) := by
  cases words with
  | nil => exact parse_words_cons [] []
  | cons w words => exact parse_words_cons w words

variable {s t : Spot}

theorem mem_anyCase {x c : Char} :
    (CharSet.anyCase (.single x)).mem c = true ↔ x ∈ caseVariants c := by
  simp only [CharSet.mem, List.any_eq_true, mem_single]
  constructor
  · rintro ⟨d, hd, rfl⟩
    exact hd
  · intro hx
    exact ⟨x, hx, rfl⟩

theorem runAll_word {w cs : List Char} :
    RunAll cs.toArray (w.map (literalNode folding)) s t ↔ ∃ part, SameWord w part ∧
      cs.drop s.pos = part ++ cs.drop t.pos ∧ t = ⟨s.pos + part.length, s.saved⟩ := by
  induction w generalizing s with
  | nil =>
    constructor
    · rintro rfl
      exact ⟨[], .nil, rfl, rfl⟩
    · rintro ⟨_, ⟨⟩, -, rfl⟩
      rfl
  | cons x w ih =>
    have hread : ∀ u, (literalNode folding x).Run cs.toArray s u ↔
        ∃ c, x ∈ caseVariants c ∧ cs.drop s.pos = c :: cs.drop u.pos ∧
          u = ⟨s.pos + 1, s.saved⟩ := by
      intro u
      simp only [← mem_anyCase, ← run_read]
      rfl
    simp only [List.map_cons, RunAll, hread, ih]
    constructor
    · rintro ⟨_, ⟨c, hc, hdrop, rfl⟩, part, hpart, hrest, rfl⟩
      refine ⟨c :: part, .cons hc hpart, ?_, ?_⟩
      · rw [hdrop, hrest]
        rfl
      · simp [Nat.add_assoc, Nat.add_comm 1]
    · rintro ⟨_, hsame, hdrop, rfl⟩
      cases hsame with
      | @cons _ c _ part hc hpart =>
        have hnext : cs.drop (s.pos + 1) = part ++ cs.drop (s.pos + (c :: part).length) := by
          rw [← List.drop_drop, hdrop]
          rfl
        refine ⟨⟨s.pos + 1, s.saved⟩, ⟨c, hc, ?_, rfl⟩, part, hpart, hnext, ?_⟩
        · rw [hdrop, hnext]
          rfl
        · simp [Nat.add_assoc, Nat.add_comm 1]

theorem run_textEnd {cs : List Char} :
    (Node.look .textEnd).Run cs.toArray s t ↔ cs.drop s.pos = [] ∧ s = t := by
  rw [Node.Run, Look.holds, List.getElem?_toArray, ← List.head?_drop, Option.isNone_iff_eq_none,
    List.head?_eq_none_iff]

theorem exists_run_anchored {ns : List Node} {cs : List Char} :
    (∃ start t, start ≤ cs.length ∧ (anchoredNode ns).Run cs.toArray ⟨start, []⟩ t) ↔
      ∃ t, RunAll cs.toArray ns ⟨0, []⟩ t ∧ cs.drop t.pos = [] := by
  constructor
  · rintro ⟨start, t, hstart, hrun⟩
    obtain ⟨_, hbefore, hrun⟩ := run_catAll.mp hrun
    obtain ⟨u, hns, _, hafter, -⟩ := runAll_append.mp hrun
    obtain ⟨rfl, rfl⟩ := (run_textStart (by simpa using hstart)).mp hbefore
    exact ⟨u, hns, (run_textEnd.mp hafter).1⟩
  · rintro ⟨t, hns, hend⟩
    have hbefore : (Node.look .textStart).Run cs.toArray ⟨0, []⟩ ⟨0, []⟩ :=
      (run_textStart (Nat.zero_le _)).mpr ⟨rfl, rfl⟩
    have hafter : RunAll cs.toArray [.look .textEnd] t t := ⟨t, run_textEnd.mpr ⟨hend, rfl⟩, rfl⟩
    exact ⟨0, t, Nat.zero_le _,
      run_catAll.mpr ⟨_, hbefore, runAll_append.mpr ⟨t, hns, hafter⟩⟩⟩

theorem exists_run_wordNode {w cs : List Char} :
    (∃ start t, start ≤ cs.length ∧ (wordNode w).Run cs.toArray ⟨start, []⟩ t) ↔
      SameWord w cs := by
  rw [wordNode, exists_run_anchored]
  constructor
  · rintro ⟨t, hrun, hend⟩
    obtain ⟨part, hpart, hdrop, -⟩ := runAll_word.mp hrun
    rw [hend, List.append_nil] at hdrop
    have hwhole : cs = part := hdrop
    exact hwhole ▸ hpart
  · intro hsame
    have hend : cs.drop cs.length = [] := List.drop_length
    refine ⟨⟨cs.length, []⟩, runAll_word.mpr ⟨cs, hsame, ?_, ?_⟩, hend⟩
    · rw [hend, List.append_nil]
      rfl
    · rw [Nat.zero_add]

/-- Of some words one is found in the texts that are one of the words up to case. -/
theorem exists_run_wordsNode {words : List (List Char)} (hwords : words ≠ []) {cs : List Char} :
    (∃ start t, start ≤ cs.length ∧ (wordsNode words).Run cs.toArray ⟨start, []⟩ t) ↔
      ∃ w ∈ words, SameWord w cs := by
  have hbody : ∀ s t, (Node.altAll (words.map fun w => (wordTerm w).node)).Run cs.toArray s t ↔
      ∃ w ∈ words, RunAll cs.toArray (w.map (literalNode folding)) s t := by
    intro s t
    rw [run_altAll (by simpa using hwords)]
    simp only [List.mem_map, wordTerm, exists_exists_and_eq_and, run_branchTerm,
      List.reverse_reverse, List.map_map]
    rfl
  rw [wordsNode, if_neg hwords, exists_run_anchored]
  constructor
  · rintro ⟨_, ⟨_, ⟨u, hrun, rfl⟩, rfl⟩, hend⟩
    obtain ⟨w, hw, hrun⟩ := (hbody _ u).mp hrun
    obtain ⟨part, hpart, hdrop, -⟩ := runAll_word.mp hrun
    have hnil : cs.drop u.pos = [] := hend
    rw [hnil, List.append_nil] at hdrop
    have hwhole : cs = part := hdrop
    exact ⟨w, hw, hwhole ▸ hpart⟩
  · rintro ⟨w, hw, hsame⟩
    have hend : cs.drop cs.length = [] := List.drop_length
    have hword : RunAll cs.toArray (w.map (literalNode folding)) (Spot.save 2 ⟨0, []⟩)
        ⟨cs.length, [(2, 0)]⟩ := by
      refine runAll_word.mpr ⟨cs, hsame, ?_, ?_⟩
      · rw [hend, List.append_nil]
        rfl
      · simp [Spot.save]
    exact ⟨_, ⟨_, ⟨_, (hbody _ _).mpr ⟨w, hw, hword⟩, rfl⟩, rfl⟩, hend⟩

def wordRegex (w : List Char) : Regex :=
  ⟨String.ofList (wordSource w), 0, wordNode w, (wordNode w).code.toArray⟩

def wordsRegex (words : List (List Char)) : Regex :=
  ⟨String.ofList (wordsSource words), 1, wordsNode words, (wordsNode words).code.toArray⟩

theorem compile_word (w : List Char) :
    compile (String.ofList (wordSource w)) true =
      if Node.maxProgramSize < (wordNode w).programSize then .error .tooLarge
      else .ok (wordRegex w) :=
  compile_of_parse (parse_word w)

theorem compile_words (words : List (List Char)) :
    compile (String.ofList (wordsSource words)) true =
      if Node.maxProgramSize < (wordsNode words).programSize then .error .tooLarge
      else .ok (wordsRegex words) :=
  compile_of_parse (parse_words words)

theorem isSome_captures?_word {w : List Char} {value : String} :
    ((wordRegex w).captures? value).isSome ↔ SameWord w value.toList := by
  rw [captures?, Option.isSome_map]
  exact search_isSome_iff.trans exists_run_wordNode

theorem isSome_captures?_words {words : List (List Char)} (hwords : words ≠ []) {value : String} :
    ((wordsRegex words).captures? value).isSome ↔ ∃ w ∈ words, SameWord w value.toList := by
  rw [captures?, Option.isSome_map]
  exact search_isSome_iff.trans (exists_run_wordsNode hwords)

theorem programSize_catAll_le (ns : List Node) :
    (Node.catAll ns).programSize ≤ 32 + (ns.map Node.programSize).sum := by
  induction ns with
  | nil => exact Nat.le_refl 32
  | cons n ns ih =>
    cases ns with
    | nil =>
      simp only [Node.catAll, List.map_cons, List.map_nil, List.sum_cons, List.sum_nil]
      omega
    | cons n' ns =>
      simp only [Node.catAll, Node.programSize, List.map_cons, List.sum_cons] at ih ⊢
      omega

theorem programSize_altAll_le (ns : List Node) :
    (Node.altAll ns).programSize ≤ 32 + (ns.map fun n => 36 + n.programSize).sum := by
  induction ns with
  | nil => exact Nat.le_refl 32
  | cons n ns ih =>
    cases ns with
    | nil =>
      simp only [Node.altAll, List.map_cons, List.map_nil, List.sum_cons, List.sum_nil]
      omega
    | cons n' ns =>
      simp only [Node.altAll, Node.programSize, List.map_cons, List.sum_cons] at ih ⊢
      omega

theorem sum_programSize_word {w : List Char} (hw : ∀ c ∈ w, c.toNat < 128) :
    ((w.map (literalNode folding)).map Node.programSize).sum = 80 * w.length := by
  induction w with
  | nil => rfl
  | cons c w ih =>
    obtain ⟨hc, hw⟩ := List.forall_mem_cons.mp hw
    have hsize : (literalNode folding c).programSize = 80 := by
      change (CharSet.anyCase (.range c c)).storage = 80
      simp [CharSet.storage, CharSet.asciiRanges?, hc]
    simp only [List.map_cons, List.sum_cons, List.length_cons, hsize, ih hw]
    omega

theorem programSize_wordsNode_le {words : List (List Char)}
    (hwords : ∀ w ∈ words, ∀ c ∈ w, c.toNat < 128) :
    (wordsNode words).programSize ≤
      260 + (words.map fun w => 68 + 80 * w.length).sum := by
  let all := if words = [] then [[]] else words
  have hall : ∀ w ∈ all, ∀ c ∈ w, c.toNat < 128 := by
    intro w hw
    by_cases hnil : words = []
    · simp only [all, if_pos hnil, List.mem_singleton] at hw
      simp [hw]
    · exact hwords w (by simpa [all, hnil] using hw)
  have hsum : (all.map fun w => 68 + 80 * w.length).sum ≤
      68 + (words.map fun w => 68 + 80 * w.length).sum := by
    by_cases hnil : words = []
    · simp [all, hnil]
    · simp [all, hnil]
  have hbranches : ((all.map fun w => (wordTerm w).node).map fun n => 36 + n.programSize).sum ≤
      (all.map fun w => 68 + 80 * w.length).sum := by
    rw [List.map_map]
    refine List.sum_le_sum fun w hw => ?_
    have hle := programSize_catAll_le (w.map (literalNode folding))
    rw [sum_programSize_word (hall w hw), ← node_wordTerm] at hle
    change 36 + (wordTerm w).node.programSize ≤ 68 + 80 * w.length
    omega
  have halt := programSize_altAll_le (all.map fun w => (wordTerm w).node)
  have hcat : (wordsNode words).programSize =
      32 + (64 + (Node.altAll (all.map fun w => (wordTerm w).node)).programSize + 32) := rfl
  omega

/-- An ASCII character that is not a capital. -/
def asciiLower (c : Char) : Bool := c.toNat < 128 && !c.isUpper

theorem asciiLower_toLower {c : Char} (h : c.toNat < 128) : asciiLower c.toLower = true := by
  have hall : ∀ n < 128, asciiLower (Char.ofNat n).toLower = true := by decide
  have hc := hall c.toNat h
  rwa [Char.ofNat_toNat] at hc

theorem caseVariants_of_asciiLower {c : Char} (h : asciiLower c = true) :
    c ∈ caseVariants c ∧ ∀ x ∈ caseVariants c, asciiLower x = true → x = c := by
  have hall : ∀ n < 128, asciiLower (Char.ofNat n) = true →
      Char.ofNat n ∈ caseVariants (Char.ofNat n) ∧
        ∀ x ∈ caseVariants (Char.ofNat n), asciiLower x = true → x = Char.ofNat n := by
    decide
  have hlt : c.toNat < 128 := by simp_all [asciiLower]
  have hc := hall c.toNat hlt
  rw [Char.ofNat_toNat] at hc
  exact hc h

theorem sameWord_iff {w cs : List Char} (hw : ∀ x ∈ w, asciiLower x = true)
    (hcs : ∀ c ∈ cs, asciiLower c = true) : SameWord w cs ↔ cs = w := by
  constructor
  · intro h
    induction h with
    | nil => rfl
    | @cons x c w cs hx h ih =>
      obtain ⟨hxw, hw⟩ := List.forall_mem_cons.mp hw
      obtain ⟨hc, hcs⟩ := List.forall_mem_cons.mp hcs
      rw [(caseVariants_of_asciiLower hc).2 x hx hxw, ih hw hcs]
  · rintro rfl
    exact List.forall₂_same.mpr fun c hc => (caseVariants_of_asciiLower (hcs c hc)).1

theorem toList_lowercase {m : String} (hm : ∀ c ∈ m.toList, c.toNat < 128) :
    (lowercase m).toList = m.toList.map Char.toLower := by
  have hfrom : ∀ (cs before : List Char), (∀ c ∈ cs, c.toNat < 128) →
      lowerFrom before cs = cs.map Char.toLower := by
    intro cs
    induction cs with
    | nil => exact fun _ _ => rfl
    | cons c cs ih =>
      intro before hcs
      obtain ⟨hc, hcs⟩ := List.forall_mem_cons.mp hcs
      have hsigma : c ≠ 'Σ' := by
        rintro rfl
        exact absurd hc (by decide)
      rw [lowerFrom, if_neg hsigma, lowerChar, if_pos hc, ih (c :: before) hcs]
      rfl
  rw [lowercase, String.toList_ofList, hfrom m.toList [] hm]

theorem asciiLower_of_mem_lowercase {m : String} (hm : ∀ c ∈ m.toList, c.toNat < 128) :
    ∀ c ∈ (lowercase m).toList, asciiLower c = true := by
  intro c hc
  rw [toList_lowercase hm] at hc
  obtain ⟨d, hd, rfl⟩ := List.mem_map.mp hc
  exact asciiLower_toLower (hm d hd)

end Signpost.Template
