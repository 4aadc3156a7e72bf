import Mathlib.Data.List.Forall2
import Signpost.Proofs.Regex.Run

/-! # What a search finds

A place of the program and the text that was followed without success leads to followed places
only, so no way from it comes to the end of the program. A search therefore fails only where no run
of the node starts, and what it finds is a run.
-/
namespace Signpost.Regex

variable {program : Array Instr} {text : Array Char}

def SamePlace (t u : Thread) : Prop := t.pc = u.pc ∧ t.pos = u.pos

theorem forall₂_successors {i : Instr} {t u : Thread} (h : SamePlace t u) :
    List.Forall₂ SamePlace (successors text i t) (successors text i u) := by
  obtain ⟨pc, pos, saved⟩ := t
  obtain ⟨_, _, saved'⟩ := u
  obtain ⟨rfl, rfl⟩ := h
  cases i with
  | read set =>
    simp only [successors]
    split
    · split
      · exact .cons ⟨rfl, rfl⟩ .nil
      · exact .nil
    · exact .nil
  | look condition =>
    simp only [successors]
    by_cases hholds : condition.holds (if pos = 0 then none else text[pos - 1]?) text[pos]? = true
    · rw [if_pos hholds, if_pos hholds]
      exact .cons ⟨rfl, rfl⟩ .nil
    · rw [if_neg hholds, if_neg hholds]
      exact .nil
  | save slot => exact .cons ⟨rfl, rfl⟩ .nil
  | jump offset => exact .cons ⟨rfl, rfl⟩ .nil
  | fork preferred other => exact .cons ⟨rfl, rfl⟩ (.cons ⟨rfl, rfl⟩ .nil)

theorem exists_successor_samePlace {i : Instr} {t t' u : Thread} (h : SamePlace t u)
    (ht : t' ∈ successors text i t) : ∃ u' ∈ successors text i u, SamePlace t' u' := by
  have hall : List.Forall₂ SamePlace (successors text i t) (successors text i u) :=
    forall₂_successors h
  obtain ⟨k, hk, rfl⟩ := List.getElem_of_mem ht
  have hk' : k < (successors text i u).length := hall.length_eq ▸ hk
  exact ⟨_, List.getElem_mem hk', hall.get hk hk'⟩

theorem pos_le_of_mem_successors {i : Instr} {t t' : Thread} (h : t.pos ≤ text.size)
    (ht : t' ∈ successors text i t) : t'.pos ≤ text.size := by
  cases i with
  | read set =>
    simp only [successors] at ht
    cases hc : text[t.pos]? with
    | none =>
      rw [hc] at ht
      cases ht
    | some c =>
      obtain ⟨hlt, -⟩ := Array.getElem?_eq_some_iff.mp hc
      rw [hc] at ht
      by_cases hset : set.mem c = true
      · simp only [hset, if_true, List.mem_singleton] at ht
        rw [ht]
        exact hlt
      · simp [hset] at ht
  | look condition =>
    simp only [successors] at ht
    by_cases hholds : condition.holds (if t.pos = 0 then none else text[t.pos - 1]?)
        text[t.pos]? = true
    · rw [if_pos hholds] at ht
      rw [List.mem_singleton.mp ht]
      exact h
    · rw [if_neg hholds] at ht
      cases ht
  | save slot =>
    rw [List.mem_singleton.mp ht]
    exact h
  | jump offset =>
    rw [List.mem_singleton.mp ht]
    exact h
  | fork preferred other =>
    rcases List.mem_cons.mp ht with rfl | ht
    · exact h
    · rw [List.mem_singleton.mp ht]
      exact h

theorem index_injective {size pc pc' pos pos' : Nat} (hpc : pc < size) (hpc' : pc' < size)
    (h : pos * size + pc = pos' * size + pc') : pc = pc' ∧ pos = pos' := by
  have hpos : 0 < size := Nat.zero_lt_of_lt hpc
  have hdiv := congrArg (· / size) h
  simp only [Nat.mul_comm _ size, Nat.mul_add_div hpos, Nat.div_eq_of_lt hpc,
    Nat.div_eq_of_lt hpc', Nat.add_zero] at hdiv
  rw [hdiv] at h
  exact ⟨Nat.add_left_cancel h, hdiv⟩

theorem index_lt {size pc pos count : Nat} (hpc : pc < size) (hpos : pos ≤ count) :
    pos * size + pc < size * (count + 1) := by
  have hle : (pos + 1) * size ≤ (count + 1) * size :=
    Nat.mul_le_mul_right size (Nat.succ_le_succ hpos)
  rw [Nat.succ_mul] at hle
  rw [Nat.mul_comm size]
  omega

variable (program) in
/-- The place of the thread was followed. -/
def Marked (visited : Array Bool) (t : Thread) : Prop :=
  t.pc < program.size ∧ visited[t.pos * program.size + t.pc]? = some true

theorem Marked.of_samePlace {visited : Array Bool} {t u : Thread} (h : Marked program visited t)
    (hu : SamePlace t u) : Marked program visited u := by
  unfold Marked at h ⊢
  rwa [hu.1, hu.2] at h

theorem marked_set {visited : Array Bool} {t u : Thread} (ht : t.pc < program.size)
    (hi : t.pos * program.size + t.pc < visited.size) :
    Marked program (visited.set (t.pos * program.size + t.pc) true hi) u ↔
      SamePlace t u ∨ Marked program visited u := by
  unfold Marked
  rw [Array.getElem?_set]
  constructor
  · rintro ⟨hu, hmark⟩
    split at hmark
    · rename_i heq
      exact Or.inl (index_injective ht hu heq)
    · exact Or.inr ⟨hu, hmark⟩
  · rintro (⟨hpc, hpos⟩ | ⟨hu, hmark⟩)
    · rw [← hpc, ← hpos]
      exact ⟨ht, if_pos rfl⟩
    · refine ⟨hu, ?_⟩
      split
      · rfl
      · exact hmark

variable (program text) in
/-- Followed places lead to followed places and to places of the stack. -/
structure Closed (visited : Array Bool) (stack : List Thread) : Prop where
  size : visited.size = program.size * (text.size + 1)
  pos : ∀ t ∈ stack, t.pos ≤ text.size
  next : ∀ {t t' : Thread} {i : Instr}, Marked program visited t → program[t.pc]? = some i →
    t' ∈ successors text i t → Marked program visited t' ∨ ∃ u ∈ stack, SamePlace u t'

namespace Closed
variable {visited : Array Bool} {t : Thread} {rest : List Thread}

theorem index_lt (hc : Closed program text visited (t :: rest)) (ht : t.pc < program.size) :
    t.pos * program.size + t.pc < visited.size := by
  rw [hc.size]
  exact Regex.index_lt ht (hc.pos t List.mem_cons_self)

theorem skip (hc : Closed program text visited (t :: rest)) (ht : Marked program visited t) :
    Closed program text visited rest where
  size := hc.size
  pos u hu := hc.pos u (List.mem_cons_of_mem t hu)
  next hv hi hv' := by
    rcases hc.next hv hi hv' with hmark | ⟨u, hu, hsame⟩
    · exact Or.inl hmark
    · rcases List.mem_cons.mp hu with rfl | hu
      · exact Or.inl (ht.of_samePlace hsame)
      · exact Or.inr ⟨u, hu, hsame⟩

theorem follow (hc : Closed program text visited (t :: rest)) (ht : t.pc < program.size)
    (hi : t.pos * program.size + t.pc < visited.size) :
    Closed program text (visited.set (t.pos * program.size + t.pc) true hi)
      (successors text program[t.pc] t ++ rest) where
  size := by
    rw [Array.size_set]
    exact hc.size
  pos u hu := by
    rcases List.mem_append.mp hu with hu | hu
    · exact pos_le_of_mem_successors (hc.pos t List.mem_cons_self) hu
    · exact hc.pos u (List.mem_cons_of_mem t hu)
  next {v v' i} hv hvi hv' := by
    rcases (marked_set ht hi).mp hv with hsame | hold
    · obtain ⟨hpc, hpos⟩ := hsame
      obtain ⟨u', hu', hplace⟩ := exists_successor_samePlace ⟨hpc.symm, hpos.symm⟩ hv'
      have hinstr : program[t.pc] = i := by
        rw [← hpc, Array.getElem?_eq_getElem ht] at hvi
        exact Option.some.inj hvi
      refine Or.inr ⟨u', List.mem_append_left _ ?_, hplace.1.symm, hplace.2.symm⟩
      rw [hinstr]
      exact hu'
    · rcases hc.next hold hvi hv' with hmark | ⟨u, hu, hplace⟩
      · exact Or.inl ((marked_set ht hi).mpr (Or.inr hmark))
      · rcases List.mem_cons.mp hu with rfl | hu
        · exact Or.inl ((marked_set ht hi).mpr (Or.inl hplace))
        · exact Or.inr ⟨u, List.mem_append_right _ hu, hplace⟩

theorem not_endsIn (hc : Closed program text visited []) {f : Thread} {n : Nat}
    (h : EndsIn text program f n t) : ¬ Marked program visited t := by
  induction h with
  | done hsize => exact fun hmark => absurd hmark.1 (Nat.not_lt.mpr hsize)
  | step hi ht' _ ih =>
    intro hmark
    rcases hc.next hmark hi ht' with hmark' | ⟨u, hu, -⟩
    · exact ih hmark'
    · cases hu

end Closed

theorem explore_none {visited visited' : Array Bool} {stack : List Thread}
    (h : explore program text visited stack = (visited', none))
    (hc : Closed program text visited stack) :
    Closed program text visited' [] ∧
      (∀ t, Marked program visited t → Marked program visited' t) ∧
      ∀ t ∈ stack, Marked program visited' t := by
  fun_induction explore program text visited stack with
  | case1 visited =>
    cases h
    exact ⟨hc, fun _ ht => ht, by simp⟩
  | case2 visited t rest ht i hi hv ih =>
    have hmark : Marked program visited t :=
      ⟨ht, by rw [Array.getElem?_eq_getElem hi, hv]⟩
    obtain ⟨hclosed, hmono, hstack⟩ := ih h (hc.skip hmark)
    refine ⟨hclosed, hmono, fun u hu => ?_⟩
    rcases List.mem_cons.mp hu with rfl | hu
    · exact hmono _ hmark
    · exact hstack u hu
  | case3 visited t rest ht i hi hv ih =>
    obtain ⟨hclosed, hmono, hstack⟩ := ih h (hc.follow ht hi)
    refine ⟨hclosed, fun u hu => hmono u ((marked_set ht hi).mpr (Or.inr hu)), fun u hu => ?_⟩
    rcases List.mem_cons.mp hu with rfl | hu
    · exact hmono _ ((marked_set ht hi).mpr (Or.inl ⟨rfl, rfl⟩))
    · exact hstack u (List.mem_append_right _ hu)
  | case4 visited t rest ht i hi ih => exact absurd (hc.index_lt ht) hi
  | case5 visited t rest ht => cases h

theorem explore_some {visited visited' : Array Bool} {stack : List Thread} {f : Thread}
    (h : explore program text visited stack = (visited', some f)) :
    ∃ t ∈ stack, ∃ n, EndsIn text program f n t := by
  fun_induction explore program text visited stack with
  | case1 visited => cases h
  | case2 visited t rest ht i hi hv ih =>
    obtain ⟨u, hu, hend⟩ := ih h
    exact ⟨u, List.mem_cons_of_mem t hu, hend⟩
  | case3 visited t rest ht i hi hv ih =>
    obtain ⟨u, hu, n, hend⟩ := ih h
    rcases List.mem_append.mp hu with hu | hu
    · exact ⟨t, List.mem_cons_self, n + 1, .step (Array.getElem?_eq_getElem ht) hu hend⟩
    · exact ⟨u, List.mem_cons_of_mem t hu, n, hend⟩
  | case4 visited t rest ht i hi ih =>
    obtain ⟨u, hu, hend⟩ := ih h
    exact ⟨u, List.mem_cons_of_mem t hu, hend⟩
  | case5 visited t rest ht =>
    cases h
    exact ⟨f, List.mem_cons_self, 0, .done (Nat.not_lt.mp ht)⟩

theorem Closed.start {visited : Array Bool} (hc : Closed program text visited []) {start : Nat}
    (h : start ≤ text.size) : Closed program text visited [⟨0, start, []⟩] where
  size := hc.size
  pos t ht := by
    rw [List.mem_singleton.mp ht]
    exact h
  next hv hi hv' := (hc.next hv hi hv').imp_right fun ⟨u, hu, _⟩ => by cases hu

theorem searchFrom_none {visited : Array Bool} {start count : Nat}
    (hc : Closed program text visited []) (hcount : start + count ≤ text.size + 1)
    (h : searchFrom program text visited start count = none) :
    ∀ pos, start ≤ pos → pos < start + count →
      ∀ f n, ¬ EndsIn text program f n ⟨0, pos, []⟩ := by
  induction count generalizing visited start with
  | zero =>
    intro pos hle hlt
    omega
  | succ count ih =>
    rw [searchFrom] at h
    split at h
    · cases h
    · rename_i visited' hexplore
      obtain ⟨hclosed, -, hstack⟩ := explore_none hexplore (hc.start (by omega))
      intro pos hle hlt f n hend
      by_cases hpos : pos = start
      · exact hclosed.not_endsIn hend (hpos ▸ hstack _ List.mem_cons_self)
      · exact ih hclosed (by omega) h pos (by omega) (by omega) f n hend

theorem searchFrom_some {visited : Array Bool} {start count pos : Nat} {f : Thread}
    (h : searchFrom program text visited start count = some (pos, f)) :
    start ≤ pos ∧ pos < start + count ∧ ∃ n, EndsIn text program f n ⟨0, pos, []⟩ := by
  induction count generalizing visited start with
  | zero => cases h
  | succ count ih =>
    rw [searchFrom] at h
    split at h
    · rename_i hexplore
      cases h
      obtain ⟨t, ht, hend⟩ := explore_some hexplore
      rw [List.mem_singleton.mp ht] at hend
      exact ⟨Nat.le_refl _, by omega, hend⟩
    · obtain ⟨hle, hlt, hend⟩ := ih h
      exact ⟨by omega, by omega, hend⟩

theorem closed_replicate :
    Closed program text (Array.replicate (program.size * (text.size + 1)) false) [] where
  size := Array.size_replicate
  pos := by simp
  next hv := by
    have hmark := hv.2
    rw [Array.getElem?_replicate] at hmark
    split at hmark <;> cases hmark

/-- What a search finds is a run of the node. -/
theorem search_eq_some {n : Node} {start : Nat} {f : Thread}
    (h : search n.code.toArray text = some (start, f)) :
    start ≤ text.size ∧ n.Run text ⟨start, []⟩ f.spot := by
  obtain ⟨-, hlt, hend⟩ := searchFrom_some h
  obtain ⟨t, hrun, rfl⟩ := (exists_endsIn_code text (s := ⟨start, []⟩)).mp hend
  exact ⟨by omega, hrun⟩

theorem search_isSome_iff {n : Node} :
    (search n.code.toArray text).isSome ↔
      ∃ start t, start ≤ text.size ∧ n.Run text ⟨start, []⟩ t := by
  constructor
  · intro h
    obtain ⟨⟨start, f⟩, hf⟩ := Option.isSome_iff_exists.mp h
    obtain ⟨hle, hrun⟩ := search_eq_some hf
    exact ⟨start, _, hle, hrun⟩
  · rintro ⟨start, t, hle, hrun⟩
    cases hs : search n.code.toArray text with
    | some found => rfl
    | none =>
      obtain ⟨k, hend⟩ := (exists_endsIn_code text (s := ⟨start, []⟩)).mpr ⟨t, hrun, rfl⟩
      exact absurd hend (searchFrom_none closed_replicate (by omega) hs start (Nat.zero_le _)
        (by omega) _ k)

end Signpost.Regex
