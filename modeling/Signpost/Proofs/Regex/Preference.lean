import Signpost.Proofs.Regex.Search

/-! # Which way a search takes

From each instruction a search takes the first alternative that can come to the end of the program.
A place that it followed before is no such alternative: either nothing comes to the end from there,
or it lies on the way taken, which comes to no place twice. So a search ends where the preferred
way from the leftmost start does.
-/
namespace Signpost.Regex

variable {program : Array Instr} {text : Array Char}

theorem EndsIn.exists_of_samePlace {f t u : Thread} {n : Nat} (h : EndsIn text program f n t)
    (hsame : SamePlace t u) : ∃ g, EndsIn text program g n u := by
  induction h generalizing u with
  | done hsize => exact ⟨u, .done (hsame.1 ▸ hsize)⟩
  | step hi ht _ ih =>
    obtain ⟨u', hu', hsame'⟩ := exists_successor_samePlace hsame ht
    obtain ⟨g, hg⟩ := ih hsame'
    exact ⟨g, .step (hsame.1 ▸ hi) hu' hg⟩

variable (program text) in
def Fails (t : Thread) : Prop := ∀ f n, ¬ EndsIn text program f n t

theorem Fails.of_samePlace {t u : Thread} (h : Fails program text t) (hsame : SamePlace t u) :
    Fails program text u := by
  intro f n hend
  obtain ⟨g, hg⟩ := hend.exists_of_samePlace ⟨hsame.1.symm, hsame.2.symm⟩
  exact h g n hg

theorem Fails.of_mem_successors {t t' : Thread} {i : Instr} (h : Fails program text t)
    (hi : program[t.pc]? = some i) (ht' : t' ∈ successors text i t) : Fails program text t' :=
  fun f n hend => h f (n + 1) (.step hi ht' hend)

variable (program text) in
/-- The way that takes the first alternative from which something comes to the end, at every
instruction, leads from the thread to the end `f` of the program in `n` instructions. -/
inductive Prefers (f : Thread) : Nat → Thread → Prop
  | done (h : program.size ≤ f.pc) : Prefers f 0 f
  | step {n : Nat} {t t' : Thread} {i : Instr} {before after : List Thread}
      (hi : program[t.pc]? = some i) (hsplit : successors text i t = before ++ t' :: after)
      (hbefore : ∀ u ∈ before, Fails program text u) (h : Prefers f n t') : Prefers f (n + 1) t

theorem Prefers.endsIn {f t : Thread} {n : Nat} (h : Prefers program text f n t) :
    EndsIn text program f n t := by
  induction h with
  | done hsize => exact .done hsize
  | step hi hsplit _ _ ih =>
    exact .step hi (hsplit ▸ List.mem_append_right _ List.mem_cons_self) ih

theorem fails_of_successors {t : Thread} {i : Instr} (hi : program[t.pc]? = some i)
    (h : ∀ t' ∈ successors text i t, Fails program text t') : Fails program text t := by
  intro f n hend
  obtain ⟨m, t', -, ht', hend'⟩ := hend.of_instr hi
  exact h t' ht' f m hend'

theorem fails_of_read {t : Thread} {set : CharSet} (hi : program[t.pc]? = some (.read set))
    (h : ∀ c, text[t.pos]? = some c → set.mem c = false) : Fails program text t := by
  refine fails_of_successors hi fun t' ht' => ?_
  rw [successors] at ht'
  split at ht'
  · rename_i c hc
    rw [h c hc] at ht'
    cases ht'
  · cases ht'

theorem Prefers.of_read {f : Thread} {set : CharSet} {c : Char} {pc pos n : Nat}
    {saved : List (Nat × Nat)} (hi : program[pc]? = some (.read set)) (hc : text[pos]? = some c)
    (hset : set.mem c = true) (h : Prefers program text f n ⟨pc + 1, pos + 1, saved⟩) :
    Prefers program text f (n + 1) ⟨pc, pos, saved⟩ := by
  have hsplit : successors text (.read set) ⟨pc, pos, saved⟩ =
      [] ++ [⟨pc + 1, pos + 1, saved⟩] := by
    simp only [successors, hc, hset, if_true, List.nil_append]
  exact .step hi hsplit (by simp) h

theorem Prefers.not_fails {f t : Thread} {n : Nat} (h : Prefers program text f n t) :
    ¬ Fails program text t :=
  fun hfails => hfails f n h.endsIn

theorem samePlace_of_split {before after before' after' : List Thread} {t t' : Thread}
    (h : List.Forall₂ SamePlace (before ++ t :: after) (before' ++ t' :: after'))
    (hbefore : ∀ u ∈ before, Fails program text u) (ht : ¬ Fails program text t)
    (hbefore' : ∀ u ∈ before', Fails program text u) (ht' : ¬ Fails program text t') :
    SamePlace t t' := by
  induction before generalizing before' with
  | nil =>
    cases before' with
    | nil =>
      cases h with
      | cons hhead _ => exact hhead
    | cons u' before' =>
      cases h with
      | cons hhead _ =>
        have hfails := hbefore' u' List.mem_cons_self
        exact absurd (hfails.of_samePlace ⟨hhead.1.symm, hhead.2.symm⟩) ht
  | cons u before ih =>
    cases before' with
    | nil =>
      cases h with
      | cons hhead _ => exact absurd ((hbefore u List.mem_cons_self).of_samePlace hhead) ht'
    | cons u' before' =>
      cases h with
      | cons _ htail =>
        exact ih htail (fun v hv => hbefore v (List.mem_cons_of_mem u hv))
          fun v hv => hbefore' v (List.mem_cons_of_mem u' hv)

theorem Prefers.length_unique {f g t u : Thread} {n m : Nat} (h : Prefers program text f n t)
    (hu : Prefers program text g m u) (hsame : SamePlace t u) : n = m := by
  induction h generalizing u m with
  | done hsize =>
    cases hu with
    | done => rfl
    | step hi =>
      rw [← hsame.1, Array.getElem?_eq_none hsize] at hi
      cases hi
  | @step n t t' i before after hi hsplit hbefore hway ih =>
    cases hu with
    | done hsize =>
      rw [hsame.1, Array.getElem?_eq_none hsize] at hi
      cases hi
    | @step m u u' _ before' after' hi' hsplit' hbefore' hway' =>
      rw [← hsame.1, hi] at hi'
      cases hi'
      have hforall : List.Forall₂ SamePlace (successors text i t) (successors text i u) :=
        forall₂_successors hsame
      rw [hsplit, hsplit'] at hforall
      have hnext := samePlace_of_split hforall hbefore hway.not_fails hbefore' hway'.not_fails
      rw [ih hway' hnext]

variable (program text) in
/-- Followed places fail or lie behind on a way that still takes `n` instructions. -/
def Passed (visited : Array Bool) (n : Nat) : Prop :=
  ∀ v, Marked program visited v → Fails program text v ∨
    ∃ w g m, SamePlace w v ∧ n < m ∧ Prefers program text g m w

theorem Passed.not_marked {visited : Array Bool} {f t : Thread} {n : Nat}
    (h : Passed program text visited n) (hway : Prefers program text f n t) :
    ¬ Marked program visited t := by
  intro hmark
  rcases h t hmark with hfails | ⟨w, g, m, hsame, hlt, hw⟩
  · exact hway.not_fails hfails
  · exact Nat.ne_of_gt hlt (hw.length_unique hway hsame)

theorem Passed.set_of_fails {visited : Array Bool} {u : Thread} {n : Nat}
    (h : Passed program text visited n) (hu : u.pc < program.size)
    (hi : u.pos * program.size + u.pc < visited.size) (hfails : Fails program text u) :
    Passed program text (visited.set (u.pos * program.size + u.pc) true hi) n := by
  intro v hv
  rcases (marked_set hu hi).mp hv with hsame | hold
  · exact Or.inl (hfails.of_samePlace hsame)
  · exact h v hold

theorem Passed.set_of_prefers {visited : Array Bool} {f u : Thread} {n : Nat}
    (h : Passed program text visited (n + 1)) (hu : u.pc < program.size)
    (hi : u.pos * program.size + u.pc < visited.size) (hway : Prefers program text f (n + 1) u) :
    Passed program text (visited.set (u.pos * program.size + u.pc) true hi) n := by
  intro v hv
  rcases (marked_set hu hi).mp hv with hsame | hold
  · exact Or.inr ⟨u, f, n + 1, hsame, Nat.lt_succ_self n, hway⟩
  · exact (h v hold).imp_right fun ⟨w, g, m, hsame, hlt, hw⟩ =>
      ⟨w, g, m, hsame, Nat.lt_of_succ_lt hlt, hw⟩

/-- Threads that fail are followed in vain, and then the preferred way is taken to its end. -/
theorem explore_of_prefers {visited : Array Bool} {before after : List Thread} {f t : Thread}
    {n : Nat} (hway : Prefers program text f n t)
    (hsize : visited.size = program.size * (text.size + 1))
    (hpos : ∀ u ∈ before ++ t :: after, u.pos ≤ text.size)
    (hbefore : ∀ u ∈ before, Fails program text u) (hpassed : Passed program text visited n) :
    (explore program text visited (before ++ t :: after)).2 = some f := by
  generalize hstack : before ++ t :: after = stack at hpos ⊢
  fun_induction explore program text visited stack generalizing before after t n with
  | case1 visited => simp at hstack
  | case2 visited u rest hu i hi hv =>
    rename_i ih
    have hmark : Marked program visited u := ⟨hu, by rw [Array.getElem?_eq_getElem hi, hv]⟩
    cases before with
    | nil =>
      cases hstack
      exact absurd hmark (hpassed.not_marked hway)
    | cons _ before =>
      cases hstack
      exact ih hway hsize (fun v hv => hbefore v (List.mem_cons_of_mem u hv)) hpassed rfl
        fun v hv => hpos v (List.mem_cons_of_mem u hv)
  | case3 visited u rest hu i hi hv =>
    rename_i ih
    have hinstr : program[u.pc]? = some program[u.pc] := Array.getElem?_eq_getElem hu
    have hnext : ∀ v ∈ successors text program[u.pc] u ++ rest, v.pos ≤ text.size := by
      intro v hv
      rcases List.mem_append.mp hv with hv | hv
      · exact pos_le_of_mem_successors (hpos u List.mem_cons_self) hv
      · exact hpos v (List.mem_cons_of_mem u hv)
    cases before with
    | nil =>
      cases hstack
      cases hway with
      | done hend => exact absurd hu (Nat.not_lt.mpr hend)
      | step hi' hsplit hbefore' hway' =>
        rw [hinstr] at hi'
        cases hi'
        exact ih hway' (by rw [Array.size_set, hsize]) hbefore'
          (hpassed.set_of_prefers hu hi (.step hinstr hsplit hbefore' hway'))
          (by rw [hsplit, List.append_assoc, List.cons_append]) hnext
    | cons _ before =>
      cases hstack
      have hfails := hbefore u List.mem_cons_self
      refine ih hway (by rw [Array.size_set, hsize]) (fun v hv => ?_)
        (hpassed.set_of_fails hu hi hfails) (List.append_assoc _ before _) hnext
      rcases List.mem_append.mp hv with hv | hv
      · exact hfails.of_mem_successors hinstr hv
      · exact hbefore v (List.mem_cons_of_mem u hv)
  | case4 visited u rest hu i hi =>
    refine absurd ?_ hi
    rw [hsize]
    exact index_lt hu (hpos u List.mem_cons_self)
  | case5 visited u rest hu =>
    cases before with
    | nil =>
      cases hstack
      cases hway with
      | done => rfl
      | step hi =>
        rw [Array.getElem?_eq_none (Nat.not_lt.mp hu)] at hi
        cases hi
    | cons _ before =>
      cases hstack
      exact absurd (.done (Nat.not_lt.mp hu)) (hbefore u List.mem_cons_self u 0)

theorem searchFrom_of_prefers {visited : Array Bool} {start count pos n : Nat} {f : Thread}
    (hc : Closed program text visited []) (hcount : start + count ≤ text.size + 1)
    (hle : start ≤ pos) (hlt : pos < start + count)
    (hfails : ∀ p, p < pos → Fails program text ⟨0, p, []⟩)
    (hway : Prefers program text f n ⟨0, pos, []⟩) :
    searchFrom program text visited start count = some (pos, f) := by
  induction count generalizing visited start with
  | zero => omega
  | succ count ih =>
    rw [searchFrom]
    rcases Nat.eq_or_lt_of_le hle with rfl | hlater
    · have hpassed : Passed program text visited n :=
        fun v hv => Or.inl fun f n hend => hc.not_endsIn hend hv
      have hfound : (explore program text visited ([] ++ [⟨0, start, []⟩])).2 = some f :=
        explore_of_prefers hway hc.size (hc.start (by omega)).pos (by simp) hpassed
      rw [List.nil_append] at hfound
      split
      · rename_i hexplore
        rw [hexplore] at hfound
        rw [Option.some.inj hfound]
      · rename_i hexplore
        rw [hexplore] at hfound
        cases hfound
    · split
      · rename_i hexplore
        obtain ⟨t, ht, m, hend⟩ := explore_some hexplore
        rw [List.mem_singleton.mp ht] at hend
        exact absurd hend (hfails start hlater _ m)
      · rename_i hexplore
        obtain ⟨hclosed, -, -⟩ := explore_none hexplore (hc.start (by omega))
        exact ih hclosed (by omega) hlater (by omega)

/-- A search ends where the preferred way from the leftmost start that does not fail ends. -/
theorem search_of_prefers {pos n : Nat} {f : Thread} (hpos : pos ≤ text.size)
    (hfails : ∀ p, p < pos → Fails program text ⟨0, p, []⟩)
    (hway : Prefers program text f n ⟨0, pos, []⟩) : search program text = some (pos, f) :=
  searchFrom_of_prefers closed_replicate (by omega) (Nat.zero_le pos) (by omega) hfails hway

theorem search_of_fails (hfails : ∀ p, p ≤ text.size → Fails program text ⟨0, p, []⟩) :
    search program text = none := by
  cases hs : search program text with
  | none => rfl
  | some found =>
    obtain ⟨-, hlt, n, hend⟩ := searchFrom_some hs
    exact absurd hend (hfails found.1 (by omega) _ n)

end Signpost.Regex
