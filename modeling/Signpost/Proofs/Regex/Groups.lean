import Signpost.Proofs.Regex.Reader
import Signpost.Proofs.Regex.Search

/-! # Groups of a tree

A property of the groups of a tree, by their number and their body, is kept by everything the
reader does if it holds of each group that is closed. Groups are numbered in the order in which
they open, and a run saves positions for the groups of the tree only.
-/
namespace Signpost.Regex
open Relation

/-- Every group of the node has the property, together with its body. -/
def Node.Everywhere (P : Nat → Node → Prop) : Node → Prop
  | empty => True
  | read _ => True
  | look _ => True
  | group index body => P index body ∧ body.Everywhere P
  | cat first second => first.Everywhere P ∧ second.Everywhere P
  | alt preferred other => preferred.Everywhere P ∧ other.Everywhere P
  | loop body _ _ _ => body.Everywhere P

variable {P Q : Nat → Node → Prop}

theorem Node.Everywhere.imp {n : Node} (h : n.Everywhere P)
    (hPQ : ∀ index body, P index body → Q index body) : n.Everywhere Q := by
  induction n with
  | empty => trivial
  | read set => trivial
  | look condition => trivial
  | group index body ih => exact ⟨hPQ index body h.1, ih h.2⟩
  | cat first second ihf ihs => exact ⟨ihf h.1, ihs h.2⟩
  | alt preferred other ihp iho => exact ⟨ihp h.1, iho h.2⟩
  | loop body min max greedy ih => exact ih h

theorem everywhere_catAll {ns : List Node} (h : ∀ n ∈ ns, n.Everywhere P) :
    (Node.catAll ns).Everywhere P := by
  induction ns with
  | nil => trivial
  | cons n ns ih =>
    obtain ⟨hn, hns⟩ := List.forall_mem_cons.mp h
    cases ns with
    | nil => exact hn
    | cons m ns => exact ⟨hn, ih hns⟩

theorem everywhere_altAll {ns : List Node} (h : ∀ n ∈ ns, n.Everywhere P) :
    (Node.altAll ns).Everywhere P := by
  induction ns with
  | nil => trivial
  | cons n ns ih =>
    obtain ⟨hn, hns⟩ := List.forall_mem_cons.mp h
    cases ns with
    | nil => exact hn
    | cons m ns => exact ⟨hn, ih hns⟩

theorem Node.Everywhere.repeated {n : Node} (h : n.Everywhere P) (min : Nat) (max : Option Nat)
    (greedy : Bool) : (n.repeated min max greedy).Everywhere P := by
  unfold Node.repeated
  dsimp only
  generalize (if n.readsNothing then Nat.min min 1 else min) = least
  generalize (if n.readsNothing then _ else max) = most
  split
  · trivial
  · split
    · exact h
    · exact h

def HoldsIn (P : Nat → Node → Prop) (ts : List Term) : Prop := ∀ t ∈ ts, t.node.Everywhere P

theorem holdsIn_nil : HoldsIn P [] := fun _ h => nomatch h

theorem HoldsIn.cons {t : Term} {ts : List Term} (ht : t.node.Everywhere P) (h : HoldsIn P ts) :
    HoldsIn P (t :: ts) :=
  List.forall_mem_cons.mpr ⟨ht, h⟩

theorem HoldsIn.branchTerm {ts : List Term} (h : HoldsIn P ts) :
    (branchTerm ts).node.Everywhere P := by
  unfold Regex.branchTerm
  split
  · trivial
  · exact h _ List.mem_cons_self
  · refine everywhere_catAll fun n hn => ?_
    obtain ⟨t, ht, rfl⟩ := List.mem_map.mp hn
    exact h t (List.mem_reverse.mp ht)

theorem HoldsIn.groupBody {branches terms : List Term} (hb : HoldsIn P branches)
    (ht : HoldsIn P terms) : (groupBody branches terms).node.Everywhere P := by
  unfold Regex.groupBody
  split
  · exact ht.branchTerm
  · refine everywhere_altAll fun n hn => ?_
    obtain ⟨t, ht', rfl⟩ := List.mem_map.mp hn
    rcases List.mem_cons.mp (List.mem_reverse.mp ht') with rfl | ht'
    · exact ht.branchTerm
    · exact hb t ht'

/-- The property holds in everything that the reader keeps. -/
structure ReadState.Keeps (P : Nat → Node → Prop) (st : ReadState) : Prop where
  terms : HoldsIn P st.terms
  branches : HoldsIn P st.branches
  outer : ∀ g ∈ st.groups, HoldsIn P g.terms ∧ HoldsIn P g.branches

variable {st st' : ReadState} {a : Action}

theorem ReadState.Keeps.imp (h : st.Keeps P) (hPQ : ∀ index body, P index body → Q index body) :
    st.Keeps Q where
  terms t ht := (h.terms t ht).imp hPQ
  branches t ht := (h.branches t ht).imp hPQ
  outer g hg := ⟨fun t ht => ((h.outer g hg).1 t ht).imp hPQ,
    fun t ht => ((h.outer g hg).2 t ht).imp hPQ⟩

theorem ReadState.Keeps.push (h : st.Keeps P) {t : Term} (ht : t.node.Everywhere P) :
    (st.push t).Keeps P where
  terms := h.terms.cons ht
  branches := h.branches
  outer := h.outer

theorem ReadState.Keeps.openGroup (h : st.Keeps P) (capture : Option Nat) (inside : Flags) :
    (st.openGroup capture inside).Keeps P where
  terms := holdsIn_nil
  branches := holdsIn_nil
  outer := List.forall_mem_cons.mpr ⟨⟨h.terms, h.branches⟩, h.outer⟩

theorem keeps_perform (h : a.perform st = .ok st') (hst : st.Keeps P)
    (hclose : ∀ g outer index, st.groups = g :: outer → g.capture = some index →
      P index (groupBody st.branches st.terms).node) : st'.Keeps P := by
  cases a with
  | read set depth =>
    cases h
    exact hst.push trivial
  | look condition =>
    cases h
    exact hst.push trivial
  | again min max lazily =>
    simp only [Action.perform, ReadState.repeatLast] at h
    split at h
    · rename_i t before hterms
      split at h
      · cases h
        have hbefore := hst.terms
        rw [hterms] at hbefore
        obtain ⟨ht, hbefore⟩ := List.forall_mem_cons.mp hbefore
        exact ⟨.cons (ht.repeated min max _) hbefore, hst.branches, hst.outer⟩
      · cases h
    · cases h
  | bar =>
    cases h
    exact ⟨holdsIn_nil, hst.branches.cons hst.terms.branchTerm, hst.outer⟩
  | capture =>
    cases h
    exact hst.openGroup _ _
  | named name =>
    simp only [Action.perform] at h
    split at h
    · cases h
    · cases h
      obtain ⟨hterms, hbranches, houter⟩ := hst.openGroup (some (st.captures + 1)) st.flags
      exact ⟨hterms, hbranches, houter⟩
  | group inside =>
    cases h
    exact hst.openGroup _ _
  | flags inside =>
    cases h
    obtain ⟨hterms, hbranches, houter⟩ := hst.push (t := ⟨.empty, 0, false⟩) trivial
    exact ⟨hterms, hbranches, houter⟩
  | close =>
    simp only [Action.perform, ReadState.closeGroup] at h
    split at h
    · cases h
    · rename_i g outer hgroups
      cases h
      have hbody := hst.branches.groupBody hst.terms
      have houter := hst.outer
      rw [hgroups] at houter
      obtain ⟨⟨hterms, hbranches⟩, houter⟩ := List.forall_mem_cons.mp houter
      refine ⟨.cons ?_ hterms, hbranches, houter⟩
      cases hcapture : g.capture with
      | none => exact hbody
      | some index => exact ⟨hclose g outer index hgroups hcapture, hbody⟩

def IsGroup (groups index : Nat) : Prop := 1 ≤ index ∧ index ≤ groups

theorem IsGroup.mono {groups groups' index : Nat} (h : IsGroup groups index)
    (hle : groups ≤ groups') : IsGroup groups' index :=
  ⟨h.1, Nat.le_trans h.2 hle⟩

/-- Groups are numbered in the order in which they open. -/
structure ReadState.Numbered (st : ReadState) : Prop where
  keeps : st.Keeps fun index _ => IsGroup st.captures index
  capture : ∀ g ∈ st.groups, ∀ index, g.capture = some index → IsGroup st.captures index

theorem capture_perform (h : a.perform st = .ok st') {g : OpenGroup} (hg : g ∈ st'.groups)
    {index : Nat} (hindex : g.capture = some index) :
    index = st.captures + 1 ∧ st'.captures = st.captures + 1 ∨
      ∃ g' ∈ st.groups, g'.capture = some index := by
  cases a with
  | again min max lazily =>
    simp only [Action.perform, ReadState.repeatLast] at h
    split at h
    · split at h
      · cases h
        exact Or.inr ⟨g, hg, hindex⟩
      · cases h
    · cases h
  | capture =>
    cases h
    rcases List.mem_cons.mp hg with rfl | hg
    · exact Or.inl ⟨(Option.some.inj hindex).symm, rfl⟩
    · exact Or.inr ⟨g, hg, hindex⟩
  | named name =>
    simp only [Action.perform] at h
    split at h
    · cases h
    · cases h
      rcases List.mem_cons.mp hg with rfl | hg
      · exact Or.inl ⟨(Option.some.inj hindex).symm, rfl⟩
      · exact Or.inr ⟨g, hg, hindex⟩
  | group inside =>
    cases h
    rcases List.mem_cons.mp hg with rfl | hg
    · cases hindex
    · exact Or.inr ⟨g, hg, hindex⟩
  | close =>
    simp only [Action.perform, ReadState.closeGroup] at h
    split at h
    · cases h
    · rename_i g' outer hgroups
      cases h
      exact Or.inr ⟨g, hgroups ▸ List.mem_cons_of_mem g' hg, hindex⟩
  | _ =>
    cases h
    exact Or.inr ⟨g, hg, hindex⟩

theorem captures_le_perform (h : a.perform st = .ok st') : st.captures ≤ st'.captures := by
  rw [Action.captures_perform h]
  exact Nat.le_add_right _ _

theorem ReadState.Numbered.perform (hst : st.Numbered) (h : a.perform st = .ok st') :
    st'.Numbered := by
  have hle := captures_le_perform h
  refine ⟨?_, fun g hg index hindex => ?_⟩
  · refine keeps_perform h (hst.keeps.imp fun _ _ hgroup => hgroup.mono hle) ?_
    rintro g outer index hgroups hindex
    exact (hst.capture g (by rw [hgroups]; exact List.mem_cons_self) index hindex).mono hle
  · rcases capture_perform h hg hindex with ⟨rfl, heq⟩ | ⟨g', hg', hindex'⟩
    · exact ⟨Nat.le_add_left 1 _, Nat.le_of_eq heq.symm⟩
    · exact (hst.capture g' hg' index hindex').mono hle

variable {ignoreCase : Bool} {source rest : List Char}

theorem numbered_of_stands (h : Stands ignoreCase source st rest) : st.Numbered := by
  refine advances_induction (I := ReadState.Numbered) (fun hperform hst => hst.perform hperform) h ?_
  exact ⟨⟨holdsIn_nil, holdsIn_nil, by simp [ReadState.start]⟩, by simp [ReadState.start]⟩

/-- The groups of a pattern are numbered from one to their count. -/
theorem everywhere_of_parse {node : Node} {groups : Nat}
    (h : parse source ignoreCase = .ok (node, groups)) :
    node.Everywhere fun index _ => IsGroup groups index := by
  obtain ⟨st, hstands, -, rfl, rfl⟩ := exists_stands_of_parse h
  obtain ⟨hterms, hbranches, -⟩ := (numbered_of_stands hstands).keeps
  exact hbranches.groupBody hterms

variable {text : Array Char} {s t : Spot} {n : Node} {slot : Nat}

theorem iterate_induction {α : Type} {R : α → α → Prop} {I : α → Prop} {count : Nat} {x y : α}
    (hR : ∀ x y, R x y → I x → I y) (h : Iterate R count x y) (hx : I x) : I y := by
  induction count generalizing x with
  | zero => exact h ▸ hx
  | succ count ih =>
    obtain ⟨z, hxz, hzy⟩ := h
    exact ih hzy (hR x z hxz hx)

theorem lookup_saved_of_run (h : n.Everywhere fun index _ => slot ≠ 2 * index ∧ slot ≠ 2 * index + 1)
    (hrun : n.Run text s t) : t.saved.lookup slot = s.saved.lookup slot := by
  induction n generalizing s t with
  | empty => rw [show s = t from hrun]
  | read set =>
    obtain ⟨_, -, -, rfl⟩ := hrun
    rfl
  | look condition => rw [hrun.2]
  | group index body ih =>
    obtain ⟨u, hbody, rfl⟩ := hrun
    obtain ⟨⟨hstart, hstop⟩, hinside⟩ := h
    simp only [Spot.save, List.lookup_cons, beq_false_of_ne hstop]
    rw [ih hinside hbody]
    simp only [Spot.save, List.lookup_cons, beq_false_of_ne hstart]
  | cat first second ihf ihs =>
    obtain ⟨u, hfirst, hsecond⟩ := hrun
    exact (ihs h.2 hsecond).trans (ihf h.1 hfirst)
  | alt preferred other ihp iho =>
    rcases hrun with hrun | hrun
    · exact ihp h.1 hrun
    · exact iho h.2 hrun
  | loop body min max greedy ih =>
    obtain ⟨count, -, -, hcount⟩ := hrun
    refine iterate_induction (I := fun u => u.saved.lookup slot = s.saved.lookup slot)
      (fun x y hxy hx => ?_) hcount rfl
    exact (ih h hxy).trans hx

end Signpost.Regex
