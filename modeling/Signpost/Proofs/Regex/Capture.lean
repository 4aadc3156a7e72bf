import Signpost.Placeholder
import Signpost.Proofs.Regex.Groups

/-! # The group of a placeholder

Whatever flags are in force, the text that stands for a placeholder is read as one capturing group
around characters of a set, one at least. So what such a group captures is never empty.
-/
namespace Signpost.Regex
open Relation Unicode
open Placeholder (capture)

theorem setMember_mark (f : Flags) {c d : Char} (hascii : c.toNat < 0x80) (hc : c ≠ '\\')
    (hd : d ∉ ['#', '-']) (hblank : isWhiteSpace d = false) (rest : List Char) :
    setMember f (c :: d :: rest) = .ok (⟨.single c, 0⟩, d :: rest) := by
  simp only [List.mem_cons, List.not_mem_nil, or_false, not_or] at hd
  have hrange : beginsRange f.verbose (d :: rest) = false := by
    simp [beginsRange, beq_eq_false_iff_ne.mpr hd.2]
  have hterm : memberTerm f (.literal c) = .ok ⟨.single c, 0⟩ := by
    simp [memberTerm, memberChar, hascii, Except.map]
  rw [setMember_eq, setPrimitive_of_ne f hc]
  change memberFrom f (.literal c) (skipBlank f.verbose (d :: rest)) = _
  rw [skipBlank_of_mark hd.1 hblank, memberFrom, hrange, hterm]
  rfl

theorem setLoop_mark (f : Flags) {c d : Char} (hc : c ∈ ['/', '.', ',', ';', '?'])
    (hd : d ∈ ['/', '.', ',', ';', '?', ']']) (fuel : Nat) (frames : List SetFrame)
    (members : List SetTerm) (rest : List Char) :
    setLoop f (fuel + 1) frames members (c :: d :: rest) =
      setLoop f fuel frames (⟨.single c, 0⟩ :: members) (d :: rest) := by
  have hfirst : ∀ c ∈ ['/', '.', ',', ';', '?'], c.toNat < 0x80 ∧ c ≠ '\\' ∧ c ≠ '#' ∧
      isWhiteSpace c = false ∧ c ∉ ['[', ']'] ∧ c ∉ ['&', '-', '~'] := by
    simp only [List.forall_mem_cons, List.not_mem_nil, false_imp_iff, implies_true, and_true]
    decide +kernel
  have hsecond : ∀ d ∈ ['/', '.', ',', ';', '?', ']'], d ∉ ['#', '-'] ∧ isWhiteSpace d = false := by
    simp only [List.forall_mem_cons, List.not_mem_nil, false_imp_iff, implies_true, and_true]
    decide +kernel
  obtain ⟨hascii, hslash, hhash, hblank, hbracket, hoperator⟩ := hfirst c hc
  obtain ⟨hd', hblank'⟩ := hsecond d hd
  rw [setLoop_member (skipBlank_of_mark hhash hblank _ _)
    ⟨hbracket, fun hmem => absurd hmem hoperator⟩, setMember_mark f hascii hslash hd' hblank']
  rfl

def segmentEnds : SetTerm := unionTerm (['?', ';', ',', '.', '/'].map fun c => ⟨.single c, 0⟩)

theorem bracketed_capture (f : Flags) (rest : List Char) :
    bracketed f ('^' :: '/' :: '.' :: ',' :: ';' :: '?' :: ']' :: rest) =
      (checkedSet f (closeSet f true segmentEnds.set)).map fun set => (⟨set, 2⟩, rest) := by
  have hopen : openBracket f ('^' :: '/' :: '.' :: ',' :: ';' :: '?' :: ']' :: rest) =
      (true, [], '/' :: '.' :: ',' :: ';' :: '?' :: ']' :: rest) := by
    have hinner : afterSign f ('^' :: '/' :: '.' :: ',' :: ';' :: '?' :: ']' :: rest) =
        '/' :: '.' :: ',' :: ';' :: '?' :: ']' :: rest := by
      rw [afterSign, List.head?_cons, if_pos rfl]
      exact skipBlank_of_mark (by decide) (by decide +kernel) _ _
    rw [openBracket_eq, skipBlank_of_mark (by decide) (by decide +kernel)]
    simp only [hinner, leadingHyphens_of_ne (c := '/') (by decide)]
    rfl
  have hloop : ∀ fuel, setLoop f (fuel + 6) [.bracket [] true] []
      ('/' :: '.' :: ',' :: ';' :: '?' :: ']' :: rest) =
        .ok (⟨closeSet f true segmentEnds.set, 2⟩, rest) := by
    intro fuel
    rw [setLoop_mark f (by decide) (by decide), setLoop_mark f (by decide) (by decide),
      setLoop_mark f (by decide) (by decide), setLoop_mark f (by decide) (by decide),
      setLoop_mark f (by decide) (by decide), setLoop,
      skipBlank_of_mark (by decide) (by decide +kernel)]
    rfl
  rw [bracketed, hopen]
  simp only [List.length_cons]
  rw [show 2 * (rest.length + 1 + 1 + 1 + 1 + 1 + 1 + 1) + 2 = (2 * rest.length + 10) + 6 by omega]
  simp only [hloop, bind, Except.bind]
  cases checkedSet f _ <;> rfl

variable {st st' : ReadState}

theorem exists_of_advances {c : Char} {cs : List Char}
    (h : ReflTransGen Advances (st, c :: cs) (st', [])) :
    ∃ a rest next, Action.ofElement st.flags c cs = .ok (a, rest) ∧ a.perform st = .ok next ∧
      ReflTransGen Advances (next, skipBlank next.flags.verbose rest) (st', []) := by
  rcases h.cases_head with heq | ⟨y, hstep, hrest⟩
  · cases heq
  · cases hstep with
    | element ha hst => exact ⟨_, _, _, ha, hst, hrest⟩

def captureNode (index : Nat) (set : CharSet) (greedy : Bool) : Node :=
  .group index (.loop (.read set) 1 none greedy)

def ReadState.captured (st : ReadState) (set : CharSet) : ReadState :=
  { st.push ⟨captureNode (st.captures + 1) set (st.flags.swapGreed == false), 4, true⟩ with
    captures := st.captures + 1 }

theorem advances_capture {back : List Char}
    (h : ReflTransGen Advances (st, capture ++ back) (st', [])) :
    ∃ set, ReflTransGen Advances (st.captured set, skipBlank st.flags.verbose back) (st', []) := by
  have hmark : ∀ c ∈ ['[', '+', ')'], c ≠ '#' ∧ isWhiteSpace c = false := by
    simp only [List.forall_mem_cons, List.not_mem_nil, false_imp_iff, implies_true, and_true]
    decide +kernel
  have hskip : ∀ c ∈ ['[', '+', ')'], ∀ f : Flags, ∀ cs, skipBlank f.verbose (c :: cs) = c :: cs :=
    fun c hc f cs => skipBlank_of_mark (hmark c hc).1 (hmark c hc).2 f.verbose cs
  have hcapture : capture =
      ['(', '[', '^', '/', '.', ',', ';', '?', ']', '+', ')'] := by decide
  rw [hcapture] at h
  obtain ⟨a, rest, next, ha, hperform, h⟩ := exists_of_advances h
  have hopen : Action.ofElement st.flags '(' ('[' :: '^' :: '/' :: '.' :: ',' :: ';' :: '?' :: ']' ::
      '+' :: ')' :: back) = .ok (.capture, '[' :: '^' :: '/' :: '.' :: ',' :: ';' :: '?' :: ']' ::
      '+' :: ')' :: back) := by
    change Action.ofParenthesis _ _ = _
    rw [Action.ofParenthesis_of_ne (by rw [hskip '[' (by decide)]; simp), hskip '[' (by decide)]
  cases hopen.symm.trans ha
  cases hperform
  rw [hskip '[' (by decide)] at h
  obtain ⟨a, rest, next, ha, hperform, h⟩ := exists_of_advances h
  change (bracketed _ _).map _ = _ at ha
  rw [bracketed_capture] at ha
  obtain ⟨term, hterm, heq⟩ := exists_of_map_eq_ok ha
  obtain ⟨set, hset, hterm⟩ := exists_of_map_eq_ok hterm
  cases hterm
  cases heq
  cases hperform
  rw [hskip '+' (by decide)] at h
  obtain ⟨a, rest, next, ha, hperform, h⟩ := exists_of_advances h
  cases ha
  cases hperform
  change ReflTransGen _ (_, skipBlank st.flags.verbose (')' :: back)) _ at h
  rw [hskip ')' (by decide)] at h
  obtain ⟨a, rest, next, ha, hperform, h⟩ := exists_of_advances h
  cases ha
  cases hperform
  exact ⟨set, h⟩

/-- A group of the number is that of a placeholder. -/
def IsCapture (own index : Nat) (body : Node) : Prop :=
  index = own → ∃ set greedy, body = .loop (.read set) 1 none greedy

/-- Behind the group `own` of a placeholder, the tree has it as the only group of its number. -/
structure ReadState.Behind (own : Nat) (st : ReadState) : Prop where
  keeps : st.Keeps (IsCapture own)
  le : own ≤ st.captures
  closed : ∀ g ∈ st.groups, g.capture ≠ some own

theorem ReadState.Behind.perform {own : Nat} {a : Action} (hst : st.Behind own)
    (h : a.perform st = .ok st') : st'.Behind own := by
  refine ⟨keeps_perform h hst.keeps ?_, Nat.le_trans hst.le (captures_le_perform h), ?_⟩
  · rintro g outer index hgroups hindex rfl
    exact absurd hindex (hst.closed g (by rw [hgroups]; exact List.mem_cons_self))
  · intro g hg hindex
    rcases capture_perform h hg hindex with ⟨heq, -⟩ | ⟨g', hg', hindex'⟩
    · have hle := hst.le
      omega
    · exact hst.closed g' hg' hindex'

theorem behind_captured (hst : st.Numbered) (set : CharSet) :
    (st.captured set).Behind (st.captures + 1) where
  keeps := by
    have hold : st.Keeps (IsCapture (st.captures + 1)) := by
      refine hst.keeps.imp fun index body hgroup heq => ?_
      have hle := hgroup.2
      omega
    obtain ⟨hterms, hbranches, houter⟩ := hold
    exact ⟨.cons ⟨fun _ => ⟨set, _, rfl⟩, trivial⟩ hterms, hbranches, houter⟩
  le := Nat.le_refl _
  closed g hg hindex := by
    have hle := (hst.capture g hg _ hindex).2
    omega

variable {ignoreCase : Bool} {source back : List Char}

/-- In the tree of a pattern, the group of a placeholder has the number that is due when the reader
comes to it. -/
theorem isCapture_of_parse {node : Node} {groups : Nat}
    (hstands : Stands ignoreCase source st (capture ++ back))
    (h : parse source ignoreCase = .ok (node, groups)) :
    st.captures + 1 ≤ groups ∧ node.Everywhere (IsCapture (st.captures + 1)) := by
  obtain ⟨last, hlast, -, rfl, rfl⟩ := exists_stands_of_parse h
  have hfrom : ReflTransGen Advances (st, capture ++ back) (last, []) := by
    rcases ReflTransGen.total_of_right_unique advances_rightUnique hstands hlast with hto | hback
    · exact hto
    · have hsuffix := List.suffix_nil.mp (suffix_of_advances hback)
      exact absurd (List.append_eq_nil_iff.mp hsuffix).1 (by decide)
  obtain ⟨set, hrest⟩ := advances_capture hfrom
  have hbehind : last.Behind (st.captures + 1) :=
    advances_induction (I := ReadState.Behind (st.captures + 1))
      (fun hperform hst => hst.perform hperform) hrest
      (behind_captured (numbered_of_stands hstands) set)
  exact ⟨hbehind.le, hbehind.keeps.branches.groupBody hbehind.keeps.terms⟩

/-- The positions saved for the group span some text. -/
def Spans (size group : Nat) (saved : List (Nat × Nat)) : Prop :=
  ∀ start, saved.lookup (2 * group) = some start →
    ∃ stop, saved.lookup (2 * group + 1) = some stop ∧ start < stop ∧ stop ≤ size

variable {text : Array Char} {s t : Spot}

theorem iterate_read_eq {set : CharSet} {count : Nat}
    (h : Iterate ((Node.read set).Run text) count s t) :
    t = ⟨s.pos + count, s.saved⟩ ∧ (0 < count → s.pos + count ≤ text.size) := by
  induction count generalizing s with
  | zero => exact ⟨h.symm, fun hlt => nomatch hlt⟩
  | succ count ih =>
    obtain ⟨u, ⟨c, hc, -, rfl⟩, hrest⟩ := h
    obtain ⟨rfl, hle⟩ := ih hrest
    obtain ⟨hlt, -⟩ := Array.getElem?_eq_some_iff.mp hc
    refine ⟨by simp [Nat.add_assoc, Nat.add_comm 1], fun _ => ?_⟩
    dsimp only at hle
    omega

theorem spans_save_of_ne {size group slot pos : Nat} {saved : List (Nat × Nat)}
    (h : Spans size group saved) (hstart : slot ≠ 2 * group) (hstop : slot ≠ 2 * group + 1) :
    Spans size group ((slot, pos) :: saved) := by
  unfold Spans at h ⊢
  simpa only [List.lookup_cons, beq_false_of_ne hstart.symm, beq_false_of_ne hstop.symm] using h

theorem spans_of_run {n : Node} {own : Nat} (h : n.Everywhere (IsCapture own))
    (hrun : n.Run text s t) (hs : Spans text.size own s.saved) : Spans text.size own t.saved := by
  induction n generalizing s t with
  | empty =>
    cases hrun
    exact hs
  | read set =>
    obtain ⟨_, -, -, rfl⟩ := hrun
    exact hs
  | look condition =>
    obtain ⟨-, rfl⟩ := hrun
    exact hs
  | group index body ih =>
    obtain ⟨u, hbody, rfl⟩ := hrun
    obtain ⟨hcapture, hinside⟩ := h
    by_cases hindex : index = own
    · obtain ⟨set, greedy, rfl⟩ := hcapture hindex
      subst hindex
      obtain ⟨count, hcount, -, hloop⟩ := hbody
      obtain ⟨rfl, hle⟩ := iterate_read_eq hloop
      intro start hstart
      rw [Spot.save, Spot.save, List.lookup_cons, beq_false_of_ne (by omega),
        List.lookup_cons_self] at hstart
      cases hstart
      exact ⟨_, List.lookup_cons_self, by dsimp only [Spot.save]; omega, hle hcount⟩
    · exact spans_save_of_ne (ih hinside hbody (spans_save_of_ne hs (by omega) (by omega)))
        (by omega) (by omega)
  | cat first second ihf ihs =>
    obtain ⟨u, hfirst, hsecond⟩ := hrun
    exact ihs h.2 hsecond (ihf h.1 hfirst hs)
  | alt preferred other ihp iho =>
    rcases hrun with hrun | hrun
    · exact ihp h.1 hrun hs
    · exact iho h.2 hrun hs
  | loop body min max greedy ih =>
    obtain ⟨count, -, -, hcount⟩ := hrun
    exact iterate_induction (I := fun u => Spans text.size own u.saved)
      (fun x y hxy hx => ih h hxy hx) hcount hs

theorem of_compile {source : String} {r : Regex} (h : compile source ignoreCase = .ok r) :
    r.source = source ∧ parse source.toList ignoreCase = .ok (r.node, r.groups) ∧
      r.program = r.node.code.toArray := by
  unfold compile at h
  obtain ⟨⟨node, groups⟩, hparse, h⟩ := exists_of_bind_eq_ok h
  dsimp only at h
  split at h
  · cases h
  · cases h
    exact ⟨rfl, hparse, rfl⟩

theorem compile_of_parse {source : List Char} {node : Node} {groups : Nat}
    (h : parse source ignoreCase = .ok (node, groups)) :
    compile (String.ofList source) ignoreCase =
      if Node.maxProgramSize < node.programSize then .error .tooLarge
      else .ok ⟨String.ofList source, groups, node, node.code.toArray⟩ := by
  rw [compile, String.toList_ofList, h]
  simp only [bind, Except.bind]
  split
  · rfl
  · rfl

theorem exists_run_of_captures? {source : String} {r : Regex} {value : String} {c : Captures}
    (h : compile source ignoreCase = .ok r) (hc : r.captures? value = some c) :
    ∃ start t, start ≤ value.toList.length ∧ c.text = value.toList.toArray ∧ c.start = start ∧
      c.stop = t.pos ∧ c.saved = t.saved ∧ r.node.Run value.toList.toArray ⟨start, []⟩ t := by
  obtain ⟨⟨start, f⟩, hsearch, rfl⟩ := Option.map_eq_some_iff.mp hc
  rw [(of_compile h).2.2] at hsearch
  obtain ⟨hle, hrun⟩ := search_eq_some hsearch
  exact ⟨start, _, by simpa using hle, rfl, rfl, rfl, rfl, hrun⟩

theorem get?_of_lt {source : String} {r : Regex} {value : String} {c : Captures}
    (h : compile source ignoreCase = .ok r) (hc : r.captures? value = some c) {group : Nat}
    (hgroup : r.groups < group) : c.get? group = none := by
  obtain ⟨start, t, -, -, -, -, hsaved, hrun⟩ := exists_run_of_captures? h hc
  have hnode := everywhere_of_parse (of_compile h).2.1
  have hlookup : t.saved.lookup (2 * group) = none :=
    lookup_saved_of_run (hnode.imp fun index _ hindex => by have := hindex.2; omega) hrun
  rw [Captures.get?, if_neg (by omega), hsaved, hlookup]

theorem get?_capture_ne_empty {source : String} {r : Regex} {value text : String} {c : Captures}
    (h : compile source ignoreCase = .ok r) (hc : r.captures? value = some c)
    (hstands : Stands ignoreCase source.toList st (capture ++ back))
    (hget : c.get? (st.captures + 1) = some text) : text ≠ "" := by
  obtain ⟨start, t, -, htext, -, -, hsaved, hrun⟩ := exists_run_of_captures? h hc
  have hnode := (isCapture_of_parse hstands (of_compile h).2.1).2
  have hspans := spans_of_run hnode hrun fun _ hnone => nomatch hnone
  rw [Captures.get?, if_neg (by omega), hsaved] at hget
  split at hget
  · rename_i low high hlow hhigh
    obtain ⟨stop, hstop, hlt, hle⟩ := hspans low hlow
    cases hhigh.symm.trans hstop
    cases hget
    intro heq
    have hnil := congrArg (List.length ∘ String.toList) heq
    simp only [Function.comp_apply, Captures.slice, String.toList_ofList, List.length_take,
      List.length_drop, htext, List.size_toArray] at hnil hle
    change min (high - low) (value.toList.length - low) = 0 at hnil
    omega
  · cases hget

end Signpost.Regex
