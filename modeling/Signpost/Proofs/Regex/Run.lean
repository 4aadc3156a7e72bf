import Signpost.Regex.Search

/-! # Runs of nodes and of their code

A node relates a spot of the text to the spots where a run of it can end. Its code does the same
wherever it stands in a program: every run of the node is a way through the code, and every way
from the start of the code to the end of the program leaves the code after a run of the node.
-/
namespace Signpost.Regex

/-- A position of the text, with the positions saved on the way to it, latest first. -/
structure Spot where
  pos : Nat
  saved : List (Nat × Nat)

def Iterate {α : Type} (R : α → α → Prop) : Nat → α → α → Prop
  | 0, s, t => s = t
  | n + 1, s, t => ∃ u, R s u ∧ Iterate R n u t

variable (text : Array Char)

def charBefore (pos : Nat) : Option Char :=
  if pos = 0 then none else text[pos - 1]?

def Spot.save (slot : Nat) (s : Spot) : Spot := ⟨s.pos, (slot, s.pos) :: s.saved⟩

/-- Where a run of the node that starts at `s` can end. -/
def Node.Run : Node → Spot → Spot → Prop
  | empty, s, t => s = t
  | read set, s, t => ∃ c, text[s.pos]? = some c ∧ set.mem c = true ∧ t = ⟨s.pos + 1, s.saved⟩
  | look condition, s, t =>
    condition.holds (charBefore text s.pos) text[s.pos]? = true ∧ s = t
  | group index body, s, t =>
    ∃ u, Run body (s.save (2 * index)) u ∧ t = u.save (2 * index + 1)
  | cat first second, s, t => ∃ u, Run first s u ∧ Run second u t
  | alt preferred other, s, t => Run preferred s t ∨ Run other s t
  | loop body min max _, s, t =>
    ∃ n, min ≤ n ∧ (∀ most, max = some most → n ≤ Nat.max most min) ∧ Iterate (Run body) n s t

section Ways
variable {program : Array Instr}

/-- The thread that stands at a spot of the text. -/
def Spot.at (s : Spot) (pc : Nat) : Thread := ⟨pc, s.pos, s.saved⟩

def Thread.spot (t : Thread) : Spot := ⟨t.pos, t.saved⟩

variable (program) in
/-- The thread can come to the end `f` of the program in `n` instructions. -/
inductive EndsIn (f : Thread) : Nat → Thread → Prop
  | done (h : program.size ≤ f.pc) : EndsIn f 0 f
  | step {n : Nat} {t t' : Thread} {i : Instr} (hi : program[t.pc]? = some i)
      (ht : t' ∈ successors text i t) (h : EndsIn f n t') : EndsIn f (n + 1) t

variable {text} in
theorem EndsIn.of_instr {f t : Thread} {n : Nat} {i : Instr} (h : EndsIn text program f n t)
    (hi : program[t.pc]? = some i) :
    ∃ m t', n = m + 1 ∧ t' ∈ successors text i t ∧ EndsIn text program f m t' := by
  cases h with
  | done hsize =>
    rw [Array.getElem?_eq_none hsize] at hi
    cases hi
  | step hi' ht h =>
    rw [hi] at hi'
    cases hi'
    exact ⟨_, _, rfl, ht, h⟩

/-- A block of code stands at a place of the program. -/
def CodeAt (program : Array Instr) (pc : Nat) (block : List Instr) : Prop :=
  ∀ k, k < block.length → program[pc + k]? = block[k]?

namespace CodeAt
variable {pc : Nat} {a b : List Instr} {i : Instr}

theorem refl (block : List Instr) : CodeAt block.toArray 0 block := by
  intro k _
  simp

theorem head (h : CodeAt program pc (i :: a)) : program[pc]? = some i := by
  simpa using h 0 (by simp)

theorem tail (h : CodeAt program pc (i :: a)) : CodeAt program (pc + 1) a := by
  intro k hk
  have hnext := h (k + 1) (by simpa using hk)
  simpa [Nat.add_assoc, Nat.add_comm 1 k] using hnext

theorem append_left (h : CodeAt program pc (a ++ b)) : CodeAt program pc a := by
  intro k hk
  rw [h k (by simp; omega), List.getElem?_append_left hk]

theorem append_right (h : CodeAt program pc (a ++ b)) : CodeAt program (pc + a.length) b := by
  intro k hk
  rw [Nat.add_assoc, h (a.length + k) (by simp; omega),
    List.getElem?_append_right (Nat.le_add_right _ _), Nat.add_sub_cancel_left]

end CodeAt

end Ways

/-- Wherever the block stands, it leads to the spots that `R` allows and to no others. The second
field counts instructions, so that a block can be followed by code that jumps back to it. -/
structure Implements (block : List Instr) (R : Spot → Spot → Prop) : Prop where
  complete : ∀ {program : Array Instr} {pc : Nat}, CodeAt program pc block →
    ∀ {s t : Spot} {f : Thread} {n : Nat}, R s t →
      EndsIn text program f n (t.at (pc + block.length)) →
      ∃ m, EndsIn text program f m (s.at pc)
  sound : ∀ {program : Array Instr} {pc : Nat}, CodeAt program pc block →
    ∀ {s : Spot} {f : Thread} {n : Nat}, EndsIn text program f n (s.at pc) →
      ∃ t m, m ≤ n ∧ R s t ∧ EndsIn text program f m (t.at (pc + block.length))

namespace Implements
variable {text} {block a b : List Instr} {R S : Spot → Spot → Prop}

theorem nil : Implements text [] Eq where
  complete _ _ _ _ n hst h := ⟨n, hst ▸ h⟩
  sound _ s _ n h := ⟨s, n, Nat.le_refl n, rfl, h⟩

theorem congr (h : Implements text block R) (hRS : ∀ s t, R s t ↔ S s t) :
    Implements text block S := by
  have hR : R = S := funext fun s => funext fun t => propext (hRS s t)
  exact hR ▸ h

theorem append (ha : Implements text a R) (hb : Implements text b S) :
    Implements text (a ++ b) fun s t => ∃ u, R s u ∧ S u t where
  complete hcode s t f n hst h := by
    obtain ⟨u, hsu, hut⟩ := hst
    rw [List.length_append, ← Nat.add_assoc] at h
    obtain ⟨m, hend⟩ := hb.complete hcode.append_right hut h
    exact ha.complete hcode.append_left hsu hend
  sound hcode s f n h := by
    obtain ⟨u, m, hm, hsu, hend⟩ := ha.sound hcode.append_left h
    obtain ⟨t, k, hk, hut, hend⟩ := hb.sound hcode.append_right hend
    rw [Nat.add_assoc, ← List.length_append] at hend
    exact ⟨t, k, Nat.le_trans hk hm, ⟨u, hsu, hut⟩, hend⟩

theorem single {i : Instr}
    (h : ∀ pc s t', t' ∈ successors text i (s.at pc) ↔ ∃ t : Spot, R s t ∧ t' = t.at (pc + 1)) :
    Implements text [i] R where
  complete hcode s t f n hst hend :=
    ⟨n + 1, .step hcode.head ((h _ s _).mpr ⟨t, hst, rfl⟩) hend⟩
  sound hcode s f n hend := by
    obtain ⟨m, t', rfl, ht', hend⟩ := hend.of_instr hcode.head
    obtain ⟨t, hst, rfl⟩ := (h _ s t').mp ht'
    exact ⟨t, m, Nat.le_succ m, hst, hend⟩

theorem mem_successors_forkTo {greedy : Bool} {enter leave : Int} {t t' : Thread} :
    t' ∈ successors text (Node.forkTo greedy enter leave) t ↔
      t' = ⟨target t.pc enter, t.pos, t.saved⟩ ∨ t' = ⟨target t.pc leave, t.pos, t.saved⟩ := by
  cases greedy
  · simp only [Node.forkTo, Bool.false_eq_true, if_false, successors, List.mem_cons,
      List.not_mem_nil, or_false]
    exact or_comm
  · simp only [Node.forkTo, if_true, successors, List.mem_cons, List.not_mem_nil, or_false]

theorem target_add (pc n : Nat) : target pc n = pc + n := by
  unfold target
  omega

theorem target_sub (pc n : Nat) : target (pc + n) (-(n : Int)) = pc := by
  unfold target
  omega

theorem optional (h : Implements text block R) (greedy : Bool) {leave : Int}
    (hleave : leave = ((block.length + 1 : Nat) : Int)) :
    Implements text (Node.forkTo greedy 1 leave :: block) fun s t => s = t ∨ R s t where
  complete {program pc} hcode s t f n hst hend := by
    rw [List.length_cons] at hend
    rcases hst with rfl | hst
    · refine ⟨n + 1, .step hcode.head (mem_successors_forkTo.mpr (Or.inr rfl)) ?_⟩
      rw [hleave, target_add]
      exact hend
    · rw [Nat.add_comm block.length, ← Nat.add_assoc] at hend
      obtain ⟨m, hend⟩ := h.complete hcode.tail hst hend
      refine ⟨m + 1, .step hcode.head (mem_successors_forkTo.mpr (Or.inl rfl)) ?_⟩
      exact (target_add pc 1).symm ▸ hend
  sound {program pc} hcode s f n hend := by
    obtain ⟨m, t', rfl, ht', hend⟩ := hend.of_instr hcode.head
    rcases mem_successors_forkTo.mp ht' with rfl | rfl
    · have hbody : EndsIn text program f m (s.at (pc + 1)) := (target_add pc 1) ▸ hend
      obtain ⟨t, k, hk, hst, hend⟩ := h.sound hcode.tail hbody
      rw [Nat.add_assoc, Nat.add_comm 1] at hend
      exact ⟨t, k, Nat.le_succ_of_le hk, Or.inr hst, hend⟩
    · rw [hleave, target_add] at hend
      exact ⟨s, m, Nat.le_succ m, Or.inl rfl, hend⟩

theorem times (h : Implements text block R) (n : Nat) :
    Implements text (Node.times block n) (Iterate R n) := by
  induction n with
  | zero => exact nil
  | succ n ih => exact h.append ih

theorem endsIn_fork {program : Array Instr} {pc n : Nat} {greedy : Bool} {s : Spot} {f : Thread}
    (hfork : program[pc + block.length]? = some (Node.forkTo greedy (-(block.length : Int)) 1)) :
    EndsIn text program f (n + 1) (s.at (pc + block.length)) ↔
      EndsIn text program f n (s.at pc) ∨
        EndsIn text program f n (s.at (pc + block.length + 1)) := by
  have hback : target (pc + block.length) (-(block.length : Int)) = pc := target_sub pc _
  have hnext : target (pc + block.length) 1 = pc + block.length + 1 := target_add _ 1
  constructor
  · intro h
    obtain ⟨m, t', hm, ht', hend⟩ := h.of_instr hfork
    cases hm
    rcases mem_successors_forkTo.mp ht' with rfl | rfl
    · exact Or.inl (hback ▸ hend)
    · exact Or.inr (hnext ▸ hend)
  · rintro (h | h)
    · exact .step hfork (mem_successors_forkTo.mpr (Or.inl rfl)) (hback.symm ▸ h)
    · exact .step hfork (mem_successors_forkTo.mpr (Or.inr rfl)) (hnext.symm ▸ h)

theorem atLeastOnce (h : Implements text block R) (greedy : Bool) :
    Implements text (Node.atLeastOnce block greedy) fun s t => ∃ n, Iterate R (n + 1) s t where
  complete {program pc} hcode s t f k hst hend := by
    obtain ⟨n, hst⟩ := hst
    rw [Node.atLeastOnce, List.length_append, ← Nat.add_assoc] at hend
    have hfork := hcode.append_right.head
    induction n generalizing s with
    | zero =>
      obtain ⟨u, hsu, rfl⟩ := hst
      exact h.complete hcode.append_left hsu ((endsIn_fork hfork).mpr (Or.inr hend))
    | succ n ih =>
      obtain ⟨u, hsu, hut⟩ := hst
      obtain ⟨m, hagain⟩ := ih u hut
      exact h.complete hcode.append_left hsu ((endsIn_fork hfork).mpr (Or.inl hagain))
  sound {program pc} hcode s f k hend := by
    rw [Node.atLeastOnce, List.length_append, ← Nat.add_assoc]
    have hfork := hcode.append_right.head
    induction k using Nat.strongRecOn generalizing s with
    | _ k ih =>
      obtain ⟨u, m, hm, hsu, hfrom⟩ := h.sound hcode.append_left hend
      cases m with
      | zero =>
        obtain ⟨m, -, hm, -⟩ := hfrom.of_instr hfork
        cases hm
      | succ m =>
        rcases (endsIn_fork hfork).mp hfrom with hback | hnext
        · obtain ⟨t, l, hl, ⟨n, hut⟩, hend⟩ := ih m hm u hback
          exact ⟨t, l, by omega, ⟨n + 1, u, hsu, hut⟩, hend⟩
        · exact ⟨u, m, by omega, ⟨0, u, hsu, rfl⟩, hnext⟩

theorem anyTimes (h : Implements text block R) (greedy : Bool) :
    Implements text (Node.anyTimes block greedy) fun s t => ∃ n, Iterate R n s t := by
  have hleave : ((block.length : Int) + 2) =
      (((Node.atLeastOnce block greedy).length + 1 : Nat) : Int) := by
    simp [Node.atLeastOnce]
    omega
  refine ((h.atLeastOnce greedy).optional greedy hleave).congr fun s t => ⟨?_, ?_⟩
  · rintro (rfl | ⟨n, hst⟩)
    · exact ⟨0, rfl⟩
    · exact ⟨n + 1, hst⟩
  · rintro ⟨n, hst⟩
    cases n with
    | zero => exact Or.inl hst
    | succ n => exact Or.inr ⟨n, hst⟩

theorem atMost (h : Implements text block R) (greedy : Bool) (n : Nat) :
    Implements text (Node.atMost block greedy n) fun s t => ∃ m, m ≤ n ∧ Iterate R m s t := by
  induction n with
  | zero =>
    refine nil.congr fun s t => ⟨fun hst => ⟨0, Nat.le_refl 0, hst⟩, ?_⟩
    rintro ⟨m, hm, hst⟩
    cases Nat.le_zero.mp hm
    exact hst
  | succ n ih =>
    have hleave : ((block.length : Int) + (Node.atMost block greedy n).length + 1) =
        (((block ++ Node.atMost block greedy n).length + 1 : Nat) : Int) := by
      simp
    refine ((h.append ih).optional greedy hleave).congr fun s t => ⟨?_, ?_⟩
    · rintro (rfl | ⟨u, hsu, m, hm, hut⟩)
      · exact ⟨0, Nat.zero_le _, rfl⟩
      · exact ⟨m + 1, Nat.succ_le_succ hm, u, hsu, hut⟩
    · rintro ⟨m, hm, hst⟩
      cases m with
      | zero => exact Or.inl hst
      | succ m =>
        obtain ⟨u, hsu, hut⟩ := hst
        exact Or.inr ⟨u, hsu, m, Nat.le_of_succ_le_succ hm, hut⟩

theorem either (ha : Implements text a R) (hb : Implements text b S) :
    Implements text (.fork 1 ((a.length : Int) + 2) :: (a ++ .jump ((b.length : Int) + 1) :: b))
      fun s t => R s t ∨ S s t where
  complete {program pc} hcode s t f n hst hend := by
    have hlength : pc + (Instr.fork 1 ((a.length : Int) + 2) ::
        (a ++ .jump ((b.length : Int) + 1) :: b)).length = pc + 1 + a.length + 1 + b.length := by
      simp only [List.length_cons, List.length_append]
      omega
    rw [hlength] at hend
    have hrest := hcode.tail.append_right
    rcases hst with hst | hst
    · have hjump : target (pc + 1 + a.length) ((b.length : Int) + 1) =
          pc + 1 + a.length + 1 + b.length := by
        unfold target
        omega
      have hafter : EndsIn text program f (n + 1) (t.at (pc + 1 + a.length)) :=
        .step hrest.head (List.mem_singleton.mpr rfl) (hjump.symm ▸ hend)
      obtain ⟨m, hbody⟩ := ha.complete hcode.tail.append_left hst hafter
      exact ⟨m + 1, .step hcode.head (List.mem_cons_self ..) ((target_add pc 1).symm ▸ hbody)⟩
    · have hpast : target pc ((a.length : Int) + 2) = pc + 1 + a.length + 1 := by
        unfold target
        omega
      obtain ⟨m, hbody⟩ := hb.complete hrest.tail hst hend
      refine ⟨m + 1, .step hcode.head (List.mem_cons_of_mem _ (List.mem_singleton.mpr rfl)) ?_⟩
      exact hpast.symm ▸ hbody
  sound {program pc} hcode s f n hend := by
    have hlength : pc + (Instr.fork 1 ((a.length : Int) + 2) ::
        (a ++ .jump ((b.length : Int) + 1) :: b)).length = pc + 1 + a.length + 1 + b.length := by
      simp only [List.length_cons, List.length_append]
      omega
    rw [hlength]
    have hrest := hcode.tail.append_right
    obtain ⟨m, t', rfl, ht', hend⟩ := hend.of_instr hcode.head
    rcases List.mem_cons.mp ht' with rfl | ht'
    · have hbody : EndsIn text program f m (s.at (pc + 1)) := (target_add pc 1) ▸ hend
      obtain ⟨t, k, hk, hst, hend⟩ := ha.sound hcode.tail.append_left hbody
      obtain ⟨l, t', rfl, ht', hend⟩ := hend.of_instr hrest.head
      rw [List.mem_singleton.mp ht'] at hend
      have hjump : target (pc + 1 + a.length) ((b.length : Int) + 1) =
          pc + 1 + a.length + 1 + b.length := by
        unfold target
        omega
      exact ⟨t, l, by omega, Or.inl hst, hjump ▸ hend⟩
    · rw [List.mem_singleton.mp ht'] at hend
      have hpast : target pc ((a.length : Int) + 2) = pc + 1 + a.length + 1 := by
        unfold target
        omega
      have hbody : EndsIn text program f m (s.at (pc + 1 + a.length + 1)) := hpast ▸ hend
      obtain ⟨t, k, hk, hst, hend⟩ := hb.sound hrest.tail hbody
      exact ⟨t, k, by omega, Or.inr hst, hend⟩

end Implements

theorem iterate_add {α : Type} {R : α → α → Prop} {m n : Nat} {s t : α} :
    Iterate R (m + n) s t ↔ ∃ u, Iterate R m s u ∧ Iterate R n u t := by
  induction m generalizing s with
  | zero => simp [Iterate]
  | succ m ih =>
    simp only [Nat.succ_add, Iterate, ih]
    constructor
    · rintro ⟨u, hsu, v, huv, hvt⟩
      exact ⟨v, ⟨u, hsu, huv⟩, hvt⟩
    · rintro ⟨v, ⟨u, hsu, huv⟩, hvt⟩
      exact ⟨u, hsu, v, huv, hvt⟩

theorem implements_loopCode {block : List Instr} {R : Spot → Spot → Prop}
    (h : Implements text block R) (min : Nat) (max : Option Nat) (greedy : Bool) :
    Implements text (Node.loopCode block min max greedy) fun s t =>
      ∃ n, min ≤ n ∧ (∀ most, max = some most → n ≤ Nat.max most min) ∧ Iterate R n s t := by
  cases max with
  | none =>
    cases min with
    | zero =>
      refine (h.anyTimes greedy).congr fun s t => ⟨?_, ?_⟩
      · rintro ⟨n, hst⟩
        exact ⟨n, Nat.zero_le n, by simp, hst⟩
      · rintro ⟨n, -, -, hst⟩
        exact ⟨n, hst⟩
    | succ min =>
      refine ((h.times min).append (h.atLeastOnce greedy)).congr fun s t => ⟨?_, ?_⟩
      · rintro ⟨u, hsu, n, hut⟩
        exact ⟨min + (n + 1), by omega, by simp, iterate_add.mpr ⟨u, hsu, hut⟩⟩
      · rintro ⟨n, hn, -, hst⟩
        obtain ⟨k, rfl⟩ := Nat.exists_eq_add_of_le hn
        rw [Nat.add_assoc, Nat.add_comm 1] at hst
        obtain ⟨u, hsu, hut⟩ := iterate_add.mp hst
        exact ⟨u, hsu, k, hut⟩
  | some most =>
    refine ((h.times min).append (h.atMost greedy (most - min))).congr fun s t => ⟨?_, ?_⟩
    · rintro ⟨u, hsu, n, hn, hut⟩
      refine ⟨min + n, by omega, ?_, iterate_add.mpr ⟨u, hsu, hut⟩⟩
      rintro _ ⟨⟩
      change _ ≤ max most min
      omega
    · rintro ⟨n, hn, hmost, hst⟩
      obtain ⟨k, rfl⟩ := Nat.exists_eq_add_of_le hn
      obtain ⟨u, hsu, hut⟩ := iterate_add.mp hst
      have hle : min + k ≤ Max.max most min := hmost most rfl
      exact ⟨u, hsu, k, by omega, hut⟩

theorem implements_code (n : Node) : Implements text n.code (n.Run text) := by
  induction n with
  | empty => exact .nil
  | read set =>
    refine .single fun pc s t' => ?_
    simp only [successors, Spot.at, Node.Run]
    cases hc : text[s.pos]? with
    | none => simp
    | some c =>
      by_cases hset : set.mem c = true
      · simp [hset]
      · simp [hset]
  | look condition =>
    refine .single fun pc s t' => ?_
    change t' ∈ (if condition.holds (charBefore text s.pos) text[s.pos]? = true then
      [s.at (pc + 1)] else []) ↔ _
    by_cases hholds : condition.holds (charBefore text s.pos) text[s.pos]? = true
    · simp [Node.Run, hholds]
    · simp [Node.Run, hholds]
  | group index body ih =>
    have hsave : ∀ slot, Implements text [.save slot] fun s t => s.save slot = t := by
      intro slot
      refine .single fun pc s t' => ?_
      simp [successors, Spot.at, Spot.save]
    refine ((hsave (2 * index)).append (ih.append (hsave (2 * index + 1)))).congr fun s t => ?_
    simp [Node.Run, eq_comm]
  | cat first second ihf ihs => exact ihf.append ihs
  | alt preferred other ihp iho => exact ihp.either iho
  | loop body min max greedy ih => exact implements_loopCode text ih min max greedy

/-- A program comes to its end exactly where a run of its node ends. -/
theorem exists_endsIn_code {n : Node} {s : Spot} {f : Thread} :
    (∃ k, EndsIn text n.code.toArray f k (s.at 0)) ↔
      ∃ t, n.Run text s t ∧ f = t.at n.code.length := by
  have hcode := CodeAt.refl n.code
  constructor
  · rintro ⟨k, hend⟩
    obtain ⟨t, m, -, hrun, hend⟩ := (implements_code text n).sound hcode hend
    rw [Nat.zero_add] at hend
    cases hend with
    | done => exact ⟨t, hrun, rfl⟩
    | step hi =>
      rw [Array.getElem?_eq_none (by simp [Spot.at])] at hi
      cases hi
  · rintro ⟨t, hrun, rfl⟩
    refine (implements_code text n).complete hcode hrun (n := 0) ?_
    rw [Nat.zero_add]
    exact .done (by simp [Spot.at])

def RunAll : List Node → Spot → Spot → Prop
  | [], s, t => s = t
  | n :: ns, s, t => ∃ u, n.Run text s u ∧ RunAll ns u t

variable {text} {ns : List Node} {s t : Spot}

theorem run_catAll : (Node.catAll ns).Run text s t ↔ RunAll text ns s t := by
  induction ns generalizing s with
  | nil => rfl
  | cons n ns ih =>
    cases ns with
    | nil =>
      simp only [Node.catAll, RunAll]
      exact ⟨fun h => ⟨t, h, rfl⟩, fun ⟨u, h, hu⟩ => hu ▸ h⟩
    | cons n' ns =>
      simp only [Node.catAll, Node.Run, RunAll, ih]

theorem runAll_append {ms : List Node} :
    RunAll text (ns ++ ms) s t ↔ ∃ u, RunAll text ns s u ∧ RunAll text ms u t := by
  induction ns generalizing s with
  | nil => simp [RunAll]
  | cons n ns ih =>
    simp only [List.cons_append, RunAll, ih]
    constructor
    · rintro ⟨v, hv, u, hu, ht⟩
      exact ⟨u, ⟨v, hv, hu⟩, ht⟩
    · rintro ⟨u, ⟨v, hv, hu⟩, ht⟩
      exact ⟨v, hv, u, hu, ht⟩

theorem run_altAll (hns : ns ≠ []) :
    (Node.altAll ns).Run text s t ↔ ∃ n ∈ ns, n.Run text s t := by
  induction ns with
  | nil => exact absurd rfl hns
  | cons n ns ih =>
    cases ns with
    | nil => simp [Node.altAll]
    | cons n' ns =>
      change n.Run text s t ∨ (Node.altAll (n' :: ns)).Run text s t ↔ _
      rw [ih (List.cons_ne_nil n' ns)]
      simp only [List.mem_cons, or_and_right, exists_or, exists_eq_left]

theorem charBefore_eq_none_iff {pos : Nat} (h : pos ≤ text.size) :
    charBefore text pos = none ↔ pos = 0 := by
  unfold charBefore
  split
  · rename_i hpos
    simp [hpos]
  · rename_i hpos
    simp only [Array.getElem?_eq_none_iff]
    omega

end Signpost.Regex
