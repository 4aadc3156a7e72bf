import Signpost.Proofs.Scope.Captures

/-! # Parameters of a scope

A placeholder is the parameter of its own name, unless the level that declares it or a level inside
that one sets the parameter.
-/
namespace Signpost
open Entries

theorem Declaration.sorted_params (d : Declaration) : Sorted d.level.params :=
  sorted_extend (sorted_ofList _) d.params

theorem Declaration.find?_params {d : Declaration} {name : String}
    (h : ∀ e ∈ d.params, e.1 ≠ name) :
    find? name d.level.params =
      find? name (ofList (((Level.kept d.conditions).flatMap fun e => Level.found e.1 e.2).map
        fun e => (e.1, ":" ++ e.1))) := by
  have hnone : find? name d.params.reverse = none :=
    find?_eq_none fun e he => h e (List.mem_reverse.mp he)
  change find? name (extend _ d.params) = _
  rw [find?_extend, hnone, Option.none_or]

theorem Declaration.find?_params_of_declares {d : Declaration} {name : String}
    (hname : d.Declares name) (h : ∀ e ∈ d.params, e.1 ≠ name) :
    find? name d.level.params = some (":" ++ name) := by
  obtain ⟨place, hplace⟩ := exists_mem_found_iff.mpr hname
  rw [find?_params h]
  refine find?_ofList_of_forall (List.mem_map.mpr ⟨_, hplace, rfl⟩) fun e he heq => ?_
  obtain ⟨found, -, rfl⟩ := List.mem_map.mp he
  subst heq
  rfl

theorem Declaration.find?_params_of_not_declares {d : Declaration} {name : String}
    (hname : ¬ d.Declares name) (h : ∀ e ∈ d.params, e.1 ≠ name) :
    find? name d.level.params = none := by
  rw [find?_params h, find?_ofList]
  refine find?_eq_none fun e he heq => hname ?_
  obtain ⟨⟨_, place⟩, hfound, rfl⟩ := List.mem_map.mp (List.mem_reverse.mp he)
  subst heq
  exact exists_mem_found_iff.mp ⟨place, hfound⟩

namespace Scope

theorem params_concat (chain : List Declaration) (d : Declaration) :
    (ofChain (chain ++ [d])).params = (ofChain chain).params.extend d.level.params := by
  simp [ofChain, params]

theorem sorted_params (s : Scope) : Sorted s.params := by
  suffices hfold : ∀ merged, Sorted merged →
      Sorted (s.foldl (fun merged l => merged.extend l.params) merged) from
    hfold [] sorted_nil
  induction s with
  | nil => exact fun merged h => h
  | cons l s ih => exact fun merged h => ih _ (sorted_extend h l.params)

theorem find?_params_concat (chain : List Declaration) (d : Declaration) (name : String) :
    find? name (ofChain (chain ++ [d])).params =
      (find? name d.level.params).or (find? name (ofChain chain).params) := by
  rw [params_concat, find?_extend_sorted _ _ d.sorted_params]

theorem exists_last {α : Type} {P : α → Prop} {l : List α} (h : ∃ a ∈ l, P a) :
    ∃ front a back, l = front ++ a :: back ∧ P a ∧ ∀ b ∈ back, ¬ P b := by
  induction l using List.reverseRecOn with
  | nil => simp at h
  | append_singleton l e ih =>
    by_cases he : P e
    · exact ⟨l, e, [], rfl, he, by simp⟩
    · obtain ⟨a, ha, hP⟩ := h
      have ha' : a ∈ l := by
        rcases List.mem_append.mp ha with ha | ha
        · exact ha
        · rw [List.mem_singleton.mp ha] at hP
          exact absurd hP he
      obtain ⟨front, a', back, rfl, hP', hback⟩ := ih ⟨a, ha', hP⟩
      refine ⟨front, a', back ++ [e], by simp, hP', ?_⟩
      exact List.forall_mem_append.mpr ⟨hback, List.forall_mem_singleton.mpr he⟩

/-- Nothing from the innermost declaration of a placeholder inwards sets its parameter. -/
def KeepsPlaceholder (chain : List Declaration) (name : String) : Prop :=
  ∀ outer d inner, chain = outer ++ d :: inner → d.Declares name →
    (∀ e ∈ inner, ¬ e.Declares name) → ∀ e ∈ d :: inner, ∀ p ∈ e.params, p.1 ≠ name

theorem keepsPlaceholder_of_free {chain : List Declaration} {name : String}
    (h : ∀ e ∈ chain, ∀ p ∈ e.params, p.1 ≠ name) : KeepsPlaceholder chain name := by
  intro outer d inner heq _ _ e he
  exact h e (by rw [heq]; exact List.mem_append_right _ he)

/-- Declarations that neither set a parameter nor declare its placeholder leave it as it was. -/
theorem find?_params_append {inner : List Declaration} {name : String}
    (hname : ∀ d ∈ inner, ¬ d.Declares name) (hfree : ∀ d ∈ inner, ∀ p ∈ d.params, p.1 ≠ name)
    (outer : List Declaration) :
    find? name (ofChain (outer ++ inner)).params = find? name (ofChain outer).params := by
  induction inner using List.reverseRecOn with
  | nil => rw [List.append_nil]
  | append_singleton inner e ih =>
    obtain ⟨hnames, he⟩ := List.forall_mem_append.mp hname
    obtain ⟨hfrees, hefree⟩ := List.forall_mem_append.mp hfree
    have hlast : find? name e.level.params = none :=
      Declaration.find?_params_of_not_declares (he e List.mem_cons_self)
        (hefree e List.mem_cons_self)
    rw [← List.append_assoc, find?_params_concat, hlast, Option.none_or, ih hnames hfrees]

theorem find?_params_of_declares {chain : List Declaration} {name : String}
    (h : ∃ d ∈ chain, d.Declares name) (hkeeps : KeepsPlaceholder chain name) :
    find? name (ofChain chain).params = some (":" ++ name) := by
  obtain ⟨outer, d, inner, rfl, hname, hinner⟩ := exists_last h
  have hfree := hkeeps outer d inner rfl hname hinner
  obtain ⟨hd, hrest⟩ := List.forall_mem_cons.mp hfree
  rw [List.append_cons, find?_params_append hinner hrest, find?_params_concat,
    Declaration.find?_params_of_declares hname hd]
  rfl

end Scope

end Signpost
