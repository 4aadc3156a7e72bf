import Mathlib.Logic.Relation
import Signpost.Proofs.Regex.Action

/-! # Reading one element after the other

A pattern is read in one way, so its reader stands before a rest of the pattern in one state. A
capturing group is opened by an opening parenthesis only, but not by every one of them: the groups
are as many as the parentheses read if each of these opened one.
-/
namespace Signpost.Regex
open Relation

/-- One element is read, and the blanks behind it. -/
inductive Advances : ReadState × List Char → ReadState × List Char → Prop
  | element {st st' : ReadState} {c : Char} {cs rest : List Char} {a : Action}
      (ha : Action.ofElement st.flags c cs = .ok (a, rest)) (hst : a.perform st = .ok st') :
      Advances (st, c :: cs) (st', skipBlank st'.flags.verbose rest)

def ReadState.start (ignoreCase : Bool) : ReadState := ⟨[], [], [], { ignoreCase }, 0, []⟩

/-- The reader of a pattern comes to stand before a rest of it. -/
def Stands (ignoreCase : Bool) (source : List Char) (st : ReadState) (rest : List Char) : Prop :=
  ReflTransGen Advances (.start ignoreCase, source) (st, rest)

theorem advances_rightUnique : Relator.RightUnique Advances := by
  rintro x y z ⟨ha, hst⟩ hz
  cases hz with
  | element ha' hst' =>
    cases ha.symm.trans ha'
    cases hst.symm.trans hst'
    rfl

theorem Advances.suffix {st : ReadState} {c : Char} {cs : List Char} {y : ReadState × List Char}
    (h : Advances (st, c :: cs) y) : y.2 <:+ cs := by
  cases h with
  | element ha hst => exact (skipBlank_suffix _ _).trans (Action.ofElement_append ha).1

theorem Advances.length_lt {x y : ReadState × List Char} (h : Advances x y) :
    y.2.length < x.2.length := by
  obtain ⟨st, cs⟩ := x
  cases cs with
  | nil => cases h
  | cons c cs => exact Nat.lt_succ_of_le h.suffix.length_le

theorem suffix_of_advances {x y : ReadState × List Char} (h : ReflTransGen Advances x y) :
    y.2 <:+ x.2 := by
  induction h with
  | refl => exact List.suffix_rfl
  | @tail y z _ hstep ih =>
    obtain ⟨st, cs⟩ := y
    cases cs with
    | nil => cases hstep
    | cons c cs => exact (hstep.suffix.trans (List.suffix_cons c cs)).trans ih

theorem eq_of_advances_of_length {x y : ReadState × List Char} (h : ReflTransGen Advances x y)
    (hlength : x.2.length ≤ y.2.length) : x = y := by
  rcases h.cases_head with rfl | ⟨z, hstep, hrest⟩
  · rfl
  · have hlt := hstep.length_lt
    have hle := (suffix_of_advances hrest).length_le
    omega

theorem advances_induction {I : ReadState → Prop}
    (hI : ∀ {a : Action} {st st' : ReadState}, a.perform st = .ok st' → I st → I st')
    {x y : ReadState × List Char} (h : ReflTransGen Advances x y) (hx : I x.1) : I y.1 := by
  induction h with
  | refl => exact hx
  | tail _ hstep ih =>
    cases hstep with
    | element _ hst => exact hI hst ih

variable {ignoreCase : Bool} {source rest : List Char} {st st' : ReadState}

theorem Stands.unique (h : Stands ignoreCase source st rest)
    (h' : Stands ignoreCase source st' rest) : st = st' := by
  rcases ReflTransGen.total_of_right_unique advances_rightUnique h h' with hstep | hstep
  · exact congrArg Prod.fst (eq_of_advances_of_length hstep (Nat.le_refl _))
  · exact (congrArg Prod.fst (eq_of_advances_of_length hstep (Nat.le_refl _))).symm

theorem Stands.not_between {x : ReadState × List Char} {c : Char} {cs between : List Char}
    (h : Stands ignoreCase source st (c :: cs)) (hstep : Advances (st, c :: cs) x)
    (h' : Stands ignoreCase source st' between) (hlt : x.2.length < between.length) :
    cs.length < between.length := by
  rcases ReflTransGen.total_of_right_unique advances_rightUnique h h' with hto | hfrom
  · rcases hto.cases_head with heq | ⟨y, hy, hto⟩
    · cases heq
      exact Nat.lt_succ_self _
    · rw [advances_rightUnique hstep hy] at hlt
      exact absurd (suffix_of_advances hto).length_le (Nat.not_le.mpr hlt)
  · exact (suffix_of_advances hfrom).length_le

theorem advances_of_run {fuel : Nat} {cs : List Char} (hfuel : cs.length < fuel)
    (h : st.run fuel cs = .ok st') :
    ReflTransGen Advances (st, skipBlank st.flags.verbose cs) (st', []) := by
  induction fuel generalizing st cs with
  | zero => cases hfuel
  | succ fuel ih =>
    rw [ReadState.run] at h
    cases hskip : skipBlank st.flags.verbose cs with
    | nil =>
      rw [hskip] at h
      cases h
      exact .refl
    | cons c tail =>
      rw [hskip] at h
      obtain ⟨⟨next, rest⟩, helement, h⟩ := exists_of_bind_eq_ok h
      rw [Action.element_eq] at helement
      obtain ⟨⟨a, rest'⟩, ha, hperform⟩ := exists_of_bind_eq_ok helement
      obtain ⟨st'', hst, heq⟩ := exists_of_map_eq_ok hperform
      cases heq
      have hlt : rest'.length < fuel := by
        have hrest := (Action.ofElement_append ha).1.length_le
        have htail := (hskip ▸ skipBlank_suffix st.flags.verbose cs).length_le
        rw [List.length_cons] at htail
        omega
      exact .head (.element ha hst) (ih hlt h)

/-- What a pattern's tree is made of, when all of it was read. -/
theorem exists_stands_of_parse {node : Node} {groups : Nat}
    (h : parse source ignoreCase = .ok (node, groups)) :
    ∃ st, Stands ignoreCase source st [] ∧ st.groups = [] ∧ st.captures = groups ∧
      (groupBody st.branches st.terms).node = node := by
  unfold parse at h
  obtain ⟨st, hrun, h⟩ := exists_of_bind_eq_ok h
  split at h
  · cases h
  · rename_i hgroups
    dsimp only at h
    split at h
    · cases h
    · cases h
      refine ⟨st, advances_of_run (Nat.lt_succ_self _) hrun, ?_, rfl, rfl⟩
      simpa using hgroups

theorem run_of_advances {fuel : Nat} {cs : List Char} (hfuel : cs.length < fuel)
    (h : ReflTransGen Advances (st, skipBlank st.flags.verbose cs) (st', [])) :
    st.run fuel cs = .ok st' := by
  induction fuel generalizing st cs with
  | zero => cases hfuel
  | succ fuel ih =>
    rw [ReadState.run]
    cases hskip : skipBlank st.flags.verbose cs with
    | nil =>
      rw [hskip] at h
      rcases h.cases_head with heq | ⟨_, hstep, -⟩
      · cases heq
        rfl
      · cases hstep
    | cons c tail =>
      rw [hskip] at h
      rcases h.cases_head with heq | ⟨_, hstep, hrest⟩
      · cases heq
      · cases hstep with
        | @element _ next _ _ rest _ ha hst =>
          have hlt : rest.length < fuel := by
            have hle := (Action.ofElement_append ha).1.length_le
            have htail := (hskip ▸ skipBlank_suffix st.flags.verbose cs).length_le
            rw [List.length_cons] at htail
            omega
          have helement : st.element c tail = .ok (next, rest) := by
            rw [Action.element_eq, ha]
            simp only [bind, Except.bind, hst]
            rfl
          simp only [helement, bind, Except.bind]
          exact ih hlt hrest

theorem parse_of_stands (h : Stands ignoreCase source st []) (hgroups : st.groups = [])
    (hdepth : (groupBody st.branches st.terms).depth ≤ maxDepth) :
    parse source ignoreCase = .ok ((groupBody st.branches st.terms).node, st.captures) := by
  have hrun : (ReadState.start ignoreCase).run (source.length + 1) source = .ok st :=
    run_of_advances (Nat.lt_succ_self _) h
  have hbound : ¬ maxDepth < (groupBody st.branches st.terms).depth := Nat.not_lt.mpr hdepth
  simp only [ReadState.start] at hrun
  simp only [parse, bind, Except.bind, hrun, hgroups, List.isEmpty_nil, Bool.not_true,
    Bool.false_eq_true, if_false, if_neg hbound]
  rfl

namespace Action

def opensGroup : Action → Bool
  | capture => true
  | named _ => true
  | _ => false

theorem captures_perform {a : Action} (h : a.perform st = .ok st') :
    st'.captures = st.captures + a.opensGroup.toNat := by
  cases a with
  | again min max lazily =>
    simp only [perform, ReadState.repeatLast] at h
    split at h
    · split at h
      · cases h
        rfl
      · cases h
    · cases h
  | named name =>
    simp only [perform] at h
    split at h
    · cases h
    · cases h
      rfl
  | close =>
    simp only [perform, ReadState.closeGroup] at h
    split at h
    · cases h
    · cases h
      rfl
  | _ =>
    cases h
    rfl

theorem opensGroup_of_ofPrimitive {f : Flags} {p : Primitive} {a : Action}
    (h : ofPrimitive f p = .ok a) : a.opensGroup = false := by
  cases p with
  | literal c =>
    cases h
    rfl
  | unit c => cases h
  | set s =>
    obtain ⟨set, -, rfl⟩ := exists_of_map_eq_ok h
    rfl
  | look l =>
    cases h
    rfl

theorem eq_parenthesis {f : Flags} {c : Char} {cs : List Char} {a : Action}
    (h : ofElement f c cs = .ok (a, rest)) (ha : a.opensGroup = true) : c = '(' := by
  unfold ofElement at h
  split at h
  case h_1 => rfl
  case h_4 | h_9 =>
    obtain ⟨_, -, heq⟩ := exists_of_map_eq_ok h
    cases heq
    cases ha
  case h_8 =>
    obtain ⟨_, -, heq⟩ := exists_of_bind_eq_ok h
    cases heq
    cases ha
  case h_12 =>
    obtain ⟨_, -, hp⟩ := exists_of_bind_eq_ok h
    obtain ⟨b, hb, heq⟩ := exists_of_map_eq_ok hp
    cases heq
    rw [opensGroup_of_ofPrimitive hb] at ha
    cases ha
  all_goals
    cases h
    cases ha

end Action

/-- The parenthesis before `rest` opens a capturing group of the pattern. -/
def Opener (ignoreCase : Bool) (source rest : List Char) : Prop :=
  ∃ st a after, Stands ignoreCase source st ('(' :: rest) ∧
    Action.ofElement st.flags '(' rest = .ok (a, after) ∧ a.opensGroup = true

theorem opener_iff {cs after : List Char} {a : Action}
    (h : Stands ignoreCase source st ('(' :: cs))
    (ha : Action.ofElement st.flags '(' cs = .ok (a, after)) :
    Opener ignoreCase source cs ↔ a.opensGroup = true := by
  refine ⟨?_, fun hopens => ⟨st, a, after, h, ha, hopens⟩⟩
  rintro ⟨st', a', after', h', ha', hopens⟩
  cases h.unique h'
  cases ha.symm.trans ha'
  exact hopens

/-- The parentheses read up to a place all open groups. -/
def AllOpen (ignoreCase : Bool) (source used rest : List Char) : Prop :=
  ∀ front back, used = front ++ '(' :: back → Opener ignoreCase source (back ++ rest)

theorem allOpen_append_iff {used more : List Char} :
    AllOpen ignoreCase source (used ++ more) rest ↔
      AllOpen ignoreCase source used (more ++ rest) ∧ AllOpen ignoreCase source more rest := by
  constructor
  · intro h
    constructor
    · rintro front back rfl
      have hopen := h front (back ++ more) (by simp)
      rwa [List.append_assoc] at hopen
    · rintro front back rfl
      exact h (used ++ front) back (by simp)
  · rintro ⟨hused, hmore⟩ front back heq
    rcases List.append_eq_append_iff.mp heq with ⟨mid, rfl, hback⟩ | ⟨mid, rfl, hmid⟩
    · exact hmore mid back hback
    · cases mid with
      | nil => exact hmore [] back hmid.symm
      | cons d mid =>
        obtain ⟨rfl, rfl⟩ := List.cons.inj hmid
        have hopen := hused front mid rfl
        rwa [← List.append_assoc] at hopen

theorem allOpen_inside_iff {x : ReadState × List Char} {c : Char} {inside : List Char}
    (h : Stands ignoreCase source st (c :: (inside ++ x.2)))
    (hstep : Advances (st, c :: (inside ++ x.2)) x) :
    AllOpen ignoreCase source inside x.2 ↔ inside.count '(' = 0 := by
  rw [List.count_eq_zero]
  constructor
  · intro hopen hmem
    obtain ⟨front, back, rfl⟩ := List.append_of_mem hmem
    obtain ⟨st', a, after, hst', -⟩ := hopen front back rfl
    have hshort : x.2.length < ('(' :: (back ++ x.2)).length :=
      Nat.lt_succ_of_le (List.suffix_append back x.2).length_le
    have hlt := h.not_between hstep hst' hshort
    simp only [List.length_append, List.length_cons] at hlt
    omega
  · rintro hmem front back rfl
    simp at hmem

theorem allOpen_element_iff {x : ReadState × List Char} {c : Char} {cs : List Char}
    (h : Stands ignoreCase source st (c :: cs)) (hstep : Advances (st, c :: cs) x) :
    st.captures ≤ x.1.captures ∧ x.1.captures ≤ st.captures + [c].count '(' ∧
      (AllOpen ignoreCase source [c] cs ↔ x.1.captures = st.captures + [c].count '(') := by
  cases hstep with
  | @element _ st' _ _ after a ha hst =>
    have hcaptures := Action.captures_perform hst
    by_cases hc : c = '('
    · subst hc
      have hopen : AllOpen ignoreCase source ['('] cs ↔ Opener ignoreCase source cs := by
        refine ⟨fun hall => hall [] [] rfl, fun hone front back heq => ?_⟩
        rw [List.singleton_eq_append_iff] at heq
        obtain ⟨rfl, heq⟩ | ⟨-, heq⟩ := heq
        · cases heq
          exact hone
        · cases heq
      rw [hopen, opener_iff h ha]
      simp only [hcaptures, List.count_singleton_self]
      cases a.opensGroup <;> simp
    · have hcount : [c].count '(' = 0 := List.count_eq_zero.mpr (by simpa using Ne.symm hc)
      have hopens : a.opensGroup = false :=
        Bool.eq_false_iff.mpr fun hopens => hc (Action.eq_parenthesis ha hopens)
      have hall : AllOpen ignoreCase source [c] cs := by
        intro front back heq
        have hmem : '(' ∈ [c] := by simp [heq]
        exact absurd (List.mem_singleton.mp hmem).symm hc
      simp [hcaptures, hopens, hcount, hall]

theorem captures_eq_count_iff {used : List Char} (h : Stands ignoreCase source st rest)
    (hsource : source = used ++ rest) :
    st.captures ≤ used.count '(' ∧
      (st.captures = used.count '(' ↔ AllOpen ignoreCase source used rest) := by
  suffices hall : ∀ x, ReflTransGen Advances (.start ignoreCase, source) x →
      ∀ used, source = used ++ x.2 → x.1.captures ≤ used.count '(' ∧
        (x.1.captures = used.count '(' ↔ AllOpen ignoreCase source used x.2) from
    hall (st, rest) h used hsource
  clear h hsource used
  intro x hx
  induction hx with
  | refl =>
    intro used hsource
    have hused : used = [] := List.self_eq_append_left.mp hsource
    subst hused
    exact ⟨Nat.le_refl 0, fun _ front back heq => by simp at heq, fun _ => rfl⟩
  | @tail y z hy hstep ih =>
    intro used hsource
    obtain ⟨st, cs⟩ := y
    cases cs with
    | nil => cases hstep
    | cons c cs =>
      obtain ⟨before, hbefore⟩ := suffix_of_advances hy
      obtain ⟨inside, rfl⟩ := hstep.suffix
      change before ++ c :: (inside ++ z.2) = source at hbefore
      have hused : used = before ++ c :: inside := by
        have heq : used ++ z.2 = (before ++ c :: inside) ++ z.2 := by
          rw [← hsource, ← hbefore]
          simp
        exact List.append_cancel_right heq
      subst hused
      obtain ⟨hle, hiff⟩ := ih before hbefore.symm
      have hinside := allOpen_inside_iff hy hstep
      obtain ⟨hmono, hopens, hone⟩ := allOpen_element_iff hy hstep
      dsimp only at hle hiff
      rw [← List.singleton_append, ← List.append_assoc, allOpen_append_iff, allOpen_append_iff,
        hinside, List.count_append, List.count_append]
      rw [List.singleton_append, ← hiff, hone]
      constructor
      · omega
      · omega

end Signpost.Regex
