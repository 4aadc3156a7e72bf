import Signpost.Proofs.Regex.Anchor

/-! # Runs in a longer text

A run goes forward only, so what it sees of a text ends behind its last position. A longer text is
the same to it, unless a condition at the end of the shorter one sees that something follows.
-/
namespace Signpost.Regex

variable {text : Array Char} {s t : Spot} {next : Char}

theorem pos_le_pos_of_run {n : Node} (hrun : n.Run text s t) : s.pos ≤ t.pos := by
  induction n generalizing s t with
  | empty => exact Nat.le_of_eq (congrArg Spot.pos hrun)
  | read set =>
    obtain ⟨c, -, -, rfl⟩ := hrun
    exact Nat.le_succ _
  | look condition => exact Nat.le_of_eq (congrArg Spot.pos hrun.2)
  | group index body ih =>
    obtain ⟨u, hbody, rfl⟩ := hrun
    have hle := ih hbody
    exact hle
  | cat first second ihf ihs =>
    obtain ⟨u, hfirst, hsecond⟩ := hrun
    exact (ihf hfirst).trans (ihs hsecond)
  | alt preferred other ihp iho =>
    rcases hrun with hrun | hrun
    · exact ihp hrun
    · exact iho hrun
  | loop body min max greedy ih =>
    obtain ⟨count, -, -, hcount⟩ := hrun
    exact iterate_induction (I := fun u => s.pos ≤ u.pos) (fun x y hxy hx => hx.trans (ih hxy))
      hcount (Nat.le_refl _)

/-- The condition holds before the character exactly if it holds at the end. -/
def Look.Blind (next : Char) (condition : Look) : Prop :=
  ∀ before, condition.holds before (some next) = condition.holds before none

theorem Look.blind_textStart : textStart.Blind next := fun _ => rfl

/-- No condition of the node tells the character from the end. -/
def Node.Blind (next : Char) : Node → Prop
  | empty | read _ => True
  | look condition => condition.Blind next
  | group _ body => body.Blind next
  | cat first second => first.Blind next ∧ second.Blind next
  | alt preferred other => preferred.Blind next ∧ other.Blind next
  | loop body _ _ _ => body.Blind next

/-- Steps in a row are the same for relations that are the same up to a position, since they do not
go back. -/
theorem iterate_congr_of_le {R S : Spot → Spot → Prop} {bound count : Nat}
    (hS : ∀ s t, S s t → s.pos ≤ t.pos) (hRS : ∀ s t, t.pos ≤ bound → (R s t ↔ S s t))
    (ht : t.pos ≤ bound) :
    Iterate R count s t ↔ Iterate S count s t := by
  have hmono : ∀ {count : Nat} {u : Spot}, Iterate S count u t → u.pos ≤ bound := by
    intro count u hut
    have hle : u.pos ≤ t.pos := iterate_induction (I := fun v => u.pos ≤ v.pos)
      (fun x y hxy hx => hx.trans (hS x y hxy)) hut (Nat.le_refl _)
    exact hle.trans ht
  induction count generalizing s with
  | zero => rfl
  | succ count ih =>
    simp only [Iterate]
    refine exists_congr fun u => ?_
    have hrest : Iterate R count u t ↔ Iterate S count u t := ih
    rw [hrest]
    refine and_congr_left fun hut => ?_
    exact hRS s u (hmono hut)

theorem charBefore_append {u more : List Char} {pos : Nat} (hpos : pos ≤ u.length) :
    charBefore (u ++ more).toArray pos = charBefore u.toArray pos := by
  unfold charBefore
  split
  · rfl
  · simp only [List.getElem?_toArray]
    exact List.getElem?_append_left (by omega)

/-- A run of a node that ends in a text is a run of it in each longer one, if its conditions do not
tell what follows from the end. -/
theorem run_append_iff {n : Node} (hn : n.Blind next) {u more : List Char}
    (ht : t.pos ≤ u.length) :
    n.Run (u ++ next :: more).toArray s t ↔ n.Run u.toArray s t := by
  induction n generalizing s t with
  | empty => rfl
  | read set =>
    simp only [Node.Run, List.getElem?_toArray]
    refine exists_congr fun c => ?_
    constructor
    · rintro ⟨hc, hset, rfl⟩
      rw [List.getElem?_append_left ht] at hc
      exact ⟨hc, hset, rfl⟩
    · rintro ⟨hc, hset, rfl⟩
      rw [List.getElem?_append_left ht]
      exact ⟨hc, hset, rfl⟩
  | look condition =>
    refine and_congr_left fun hst => ?_
    subst hst
    rw [charBefore_append ht]
    simp only [List.getElem?_toArray]
    rcases Nat.lt_or_eq_of_le ht with hlt | heq
    · rw [List.getElem?_append_left hlt]
    · have hend : u[s.pos]? = none := List.getElem?_eq_none (Nat.le_of_eq heq.symm)
      have hnext : (u ++ next :: more)[s.pos]? = some next := by
        rw [heq, List.getElem?_append_right (Nat.le_refl _), Nat.sub_self]
        rfl
      rw [hend, hnext, hn]
  | group index body ih =>
    refine exists_congr fun v => and_congr_left fun hv => ?_
    subst hv
    exact ih hn ht
  | cat first second ihf ihs =>
    refine exists_congr fun v => ?_
    rw [ihs hn.2 ht]
    refine and_congr_left fun hsecond => ?_
    exact ihf hn.1 ((pos_le_pos_of_run hsecond).trans ht)
  | alt preferred other ihp iho => exact or_congr (ihp hn.1 ht) (iho hn.2 ht)
  | loop body min max greedy ih =>
    refine exists_congr fun count => and_congr_right fun _ => and_congr_right fun _ => ?_
    exact iterate_congr_of_le (fun _ _ => pos_le_pos_of_run) (fun _ _ => ih hn) ht

end Signpost.Regex
