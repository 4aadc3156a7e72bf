import Signpost.Proofs.Placeholder
import Signpost.Proofs.Regex.Capture
import Signpost.Proofs.Regex.Preference
import Signpost.Proofs.Template.Language

/-! # The pattern of placeholders

Placeholders are what a pattern matches: a colon, and a name that is as long as it can be or a
second colon. A search with the pattern finds the first placeholder of a text, and its group is what
follows the colon.
-/
namespace Signpost.Placeholder
open Regex

def source : List Char := ":([a-z_][a-z0-9_]*|:)".toList

def startSet : CharSet := .union (.range 'a' 'z') (.union (.single '_') .none)

def nameSet : CharSet :=
  .union (.range 'a' 'z') (.union (.range '0' '9') (.union (.single '_') .none))

def node : Node :=
  .cat (.read (.single ':'))
    (.group 1 (.alt (.cat (.read startSet) (.loop (.read nameSet) 0 none true))
      (.read (.single ':'))))

def regex : Regex := ⟨String.ofList source, 1, node, node.code.toArray⟩

theorem compile_source : Regex.compile (String.ofList source) false = .ok regex := by
  have hparse : Regex.parse source false = .ok (node, 1) := by with_unfolding_all rfl
  rw [compile_of_parse hparse, if_neg (by decide)]
  rfl

theorem mem_startSet (c : Char) : startSet.mem c = isNameStart c := by
  rw [Bool.eq_iff_iff]
  simp [startSet, CharSet.mem, isNameStart, Template.mem_single]

theorem mem_nameSet (c : Char) : nameSet.mem c = isNameChar c := by
  have hdigit : '0' ≤ c ∧ c ≤ '9' ↔ 48 ≤ c.val ∧ c.val ≤ 57 := Iff.rfl
  rw [Bool.eq_iff_iff]
  simp [nameSet, CharSet.mem, isNameStart, isNameChar, Template.mem_single, Char.isDigit, hdigit]
  tauto

section Ways
variable {text : Array Char} {pos : Nat} {saved : List (Nat × Nat)}

abbrev program : Array Instr := regex.program

theorem getElem?_of_drop {rest : List Char} (h : text.toList.drop pos = rest) :
    text[pos]? = rest.head? := by
  rw [← h, List.head?_drop, Array.getElem?_toList]

theorem drop_succ {c : Char} {rest : List Char} (h : text.toList.drop pos = c :: rest) :
    text.toList.drop (pos + 1) = rest := by
  rw [← List.drop_drop, h, List.drop_one, List.tail_cons]

theorem exists_fork (text : Array Char) (pos : Nat) (saved : List (Nat × Nat)) {pc : Nat}
    (hpc : pc = 4 ∨ pc = 6) :
    ∃ i, program[pc]? = some i ∧
      successors text i ⟨pc, pos, saved⟩ = [⟨5, pos, saved⟩, ⟨7, pos, saved⟩] := by
  rcases hpc with rfl | rfl <;> exact ⟨_, rfl, rfl⟩

theorem prefers_group_end :
    Prefers program text ⟨10, pos, (3, pos) :: saved⟩ 1 ⟨9, pos, saved⟩ :=
  .step rfl (show _ = [] ++ [_] from rfl) (by simp) (.done (show program.size ≤ 10 by decide))

theorem fails_of_not_mem {pc : Nat} {set : CharSet} {rest : List Char}
    (hi : program[pc]? = some (.read set)) (htext : text.toList.drop pos = rest)
    (h : ∀ c, rest.head? = some c → set.mem c = false) : Fails program text ⟨pc, pos, saved⟩ :=
  fails_of_read hi fun c hc => h c ((getElem?_of_drop htext).symm.trans hc)

theorem exists_prefers_of_read {f : Thread} {pc : Nat} {set : CharSet} {c : Char}
    {rest : List Char} (hi : program[pc]? = some (.read set))
    (htext : text.toList.drop pos = c :: rest) (hset : set.mem c = true)
    (h : ∃ n, Prefers program text f n ⟨pc + 1, pos + 1, saved⟩) :
    ∃ n, Prefers program text f n ⟨pc, pos, saved⟩ := by
  obtain ⟨n, hn⟩ := h
  exact ⟨n + 1, .of_read hi (getElem?_of_drop htext) hset hn⟩

theorem exists_prefers_name {name rest : List Char} (hname : ∀ d ∈ name, isNameChar d = true)
    (hrest : Stops rest) {pc : Nat} (hpc : pc = 4 ∨ pc = 6)
    (htext : text.toList.drop pos = name ++ rest) :
    ∃ n, Prefers program text
      ⟨10, pos + name.length, (3, pos + name.length) :: saved⟩ n ⟨pc, pos, saved⟩ := by
  induction name generalizing pc pos with
  | nil =>
    obtain ⟨i, hi, hfork⟩ := exists_fork text pos saved hpc
    have hfails : Fails program text ⟨5, pos, saved⟩ :=
      fails_of_not_mem rfl htext fun c hc => (mem_nameSet c).trans (hrest c hc)
    have hjump : Prefers program text ⟨10, pos, (3, pos) :: saved⟩ 2 ⟨7, pos, saved⟩ :=
      .step rfl (show _ = [] ++ [_] from rfl) (by simp) prefers_group_end
    exact ⟨3, .step hi (hfork.trans (show _ = [_] ++ [_] from rfl)) (by simpa using hfails) hjump⟩
  | cons d name ih =>
    obtain ⟨i, hi, hfork⟩ := exists_fork text pos saved hpc
    have hnext := ih (fun e he => hname e (List.mem_cons_of_mem d he)) (Or.inr rfl)
      (drop_succ htext)
    have hd : nameSet.mem d = true := (mem_nameSet d).trans (hname d List.mem_cons_self)
    obtain ⟨n, hn⟩ := exists_prefers_of_read (show program[5]? = some (.read nameSet) from rfl)
      htext hd hnext
    rw [List.length_cons, Nat.add_comm name.length, ← Nat.add_assoc]
    exact ⟨n + 1, .step hi (hfork.trans (show _ = [] ++ _ :: [_] from rfl)) (by simp) hn⟩

theorem successors_group (text : Array Char) (pos : Nat) (saved : List (Nat × Nat)) :
    successors text (.fork 1 6) ⟨2, pos, saved⟩ = [⟨3, pos, saved⟩, ⟨8, pos, saved⟩] :=
  rfl

theorem exists_prefers_of_colon {f : Thread} {rest : List Char}
    (htext : text.toList.drop pos = ':' :: rest)
    (h : (∃ n, Prefers program text f n ⟨3, pos + 1, [(2, pos + 1)]⟩) ∨
      Fails program text ⟨3, pos + 1, [(2, pos + 1)]⟩ ∧
        ∃ n, Prefers program text f n ⟨8, pos + 1, [(2, pos + 1)]⟩) :
    ∃ n, Prefers program text f n ⟨0, pos, []⟩ := by
  have hfork := successors_group text (pos + 1) [(2, pos + 1)]
  have hgroup : ∃ n, Prefers program text f n ⟨2, pos + 1, [(2, pos + 1)]⟩ := by
    rcases h with ⟨n, hn⟩ | ⟨hfails, n, hn⟩
    · exact ⟨n + 1, .step rfl (hfork.trans (show _ = [] ++ _ :: [_] from rfl)) (by simp) hn⟩
    · exact ⟨n + 1, .step rfl (hfork.trans (show _ = [_] ++ [_] from rfl))
        (List.forall_mem_singleton.mpr hfails) hn⟩
  obtain ⟨n, hn⟩ := hgroup
  exact exists_prefers_of_read (show program[0]? = some (.read (.single ':')) from rfl) htext
    (Template.mem_single.mpr rfl) ⟨n + 1, .step rfl (show _ = [] ++ [_] from rfl) (by simp) hn⟩

theorem exists_prefers_of_atStart? {cs rest : List Char} {p : Placeholder}
    (htext : text.toList.drop pos = cs) (h : atStart? cs = some (p, rest)) :
    ∃ n, Prefers program text
      ⟨10, pos + p.written.length, [(3, pos + p.written.length), (2, pos + 1)]⟩ n
      ⟨0, pos, []⟩ := by
  cases p with
  | named name =>
    obtain ⟨c, tail, rfl, rfl, hc, htail, hrest⟩ := exists_of_atStart?_named h
    refine exists_prefers_of_colon htext (Or.inl ?_)
    have hname : ∃ n, Prefers program text ⟨10, pos + 1 + 1 + tail.length,
        [(3, pos + 1 + 1 + tail.length), (2, pos + 1)]⟩ n ⟨4, pos + 1 + 1, [(2, pos + 1)]⟩ :=
      exists_prefers_name htail hrest (Or.inl rfl) (drop_succ (drop_succ htext))
    have hlength : pos + (named (c :: tail)).written.length = pos + 1 + 1 + tail.length := by
      simp only [written, List.length_cons]
      omega
    rw [hlength]
    exact exists_prefers_of_read (show program[3]? = some (.read startSet) from rfl)
      (drop_succ htext) ((mem_startSet c).trans hc) hname
  | anonymous =>
    have hcs := atStart?_eq h
    rw [hcs] at htext
    refine exists_prefers_of_colon htext (Or.inr ⟨?_, ?_⟩)
    · refine fails_of_not_mem (show program[3]? = some (.read startSet) from rfl)
        (drop_succ htext) fun c hc => ?_
      cases hc
      exact mem_startSet ':'
    · exact exists_prefers_of_read (show program[8]? = some (.read (.single ':')) from rfl)
        (drop_succ htext) (Template.mem_single.mpr rfl) ⟨1, prefers_group_end⟩

theorem fails_of_colon {rest : List Char} (htext : text.toList.drop pos = ':' :: rest)
    (h : ∀ c, rest.head? = some c → isNameStart c = false ∧ c ≠ ':') :
    Fails program text ⟨0, pos, []⟩ := by
  have hname : Fails program text ⟨3, pos + 1, [(2, pos + 1)]⟩ :=
    fails_of_not_mem (show program[3]? = some (.read startSet) from rfl) (drop_succ htext)
      fun c hc => (mem_startSet c).trans (h c hc).1
  have hcolon : Fails program text ⟨8, pos + 1, [(2, pos + 1)]⟩ :=
    fails_of_not_mem (show program[8]? = some (.read (.single ':')) from rfl) (drop_succ htext)
      fun c hc => eq_false_of_ne_true fun hmem => (h c hc).2 (Template.mem_single.mp hmem)
  have hgroup : Fails program text ⟨2, pos + 1, [(2, pos + 1)]⟩ := by
    refine fails_of_successors (show program[2]? = some (.fork 1 6) from rfl) ?_
    rw [successors_group]
    simpa using ⟨hname, hcolon⟩
  have hsave : Fails program text ⟨1, pos + 1, []⟩ :=
    fails_of_successors rfl (List.forall_mem_singleton.mpr hgroup)
  refine fails_of_successors (show program[0]? = some (.read (.single ':')) from rfl) ?_
  have hread : successors text (.read (.single ':')) ⟨0, pos, []⟩ = [⟨1, pos + 1, []⟩] := by
    simp only [successors, getElem?_of_drop htext, List.head?_cons]
    rfl
  rw [hread]
  exact List.forall_mem_singleton.mpr hsave

theorem fails_of_atStart? {cs : List Char} (htext : text.toList.drop pos = cs)
    (h : atStart? cs = none) : Fails program text ⟨0, pos, []⟩ := by
  by_cases hcolon : cs.head? = some ':'
  · obtain ⟨rest, rfl⟩ := List.head?_eq_some_iff.mp hcolon
    refine fails_of_colon htext fun c hc => ?_
    obtain ⟨more, rfl⟩ := List.head?_eq_some_iff.mp hc
    have hopens := (atStart?_eq_none_iff ':' c more).mp h
    refine ⟨eq_false_of_ne_true fun hstart => hopens ⟨rfl, Or.inr hstart⟩, ?_⟩
    exact fun heq => hopens ⟨rfl, Or.inl heq⟩
  · refine fails_of_not_mem (show program[0]? = some (.read (.single ':')) from rfl) htext
      fun c hc => eq_false_of_ne_true fun hmem => hcolon ?_
    rw [hc, Template.mem_single.mp hmem]

end Ways

theorem atStart?_of_first? {cs before after : List Char} {p : Placeholder}
    (h : first? cs = some (before, p, after)) :
    atStart? (cs.drop before.length) = some (p, after) ∧
      ∀ k < before.length, atStart? (cs.drop k) = none := by
  induction cs generalizing before with
  | nil => simp [first?] at h
  | cons c rest ih =>
    rw [first?] at h
    split at h
    · rename_i hs
      cases h
      exact ⟨hs, by simp⟩
    · rename_i hs
      obtain ⟨⟨before', p', after'⟩, hr, heq⟩ := Option.map_eq_some_iff.mp h
      cases heq
      obtain ⟨hat, hnone⟩ := ih hr
      refine ⟨hat, fun k hk => ?_⟩
      cases k with
      | zero => exact hs
      | succ k => exact hnone k (Nat.lt_of_succ_lt_succ hk)

theorem atStart?_of_first?_none {cs : List Char} (h : first? cs = none) (k : Nat) :
    atStart? (cs.drop k) = none := by
  induction cs generalizing k with
  | nil =>
    rw [List.drop_nil]
    rfl
  | cons c rest ih =>
    rw [first?] at h
    split at h
    · cases h
    · rename_i hs
      cases k with
      | zero => exact hs
      | succ k => exact ih (Option.map_eq_none_iff.mp h) k

def label : Placeholder → List Char
  | named name => name
  | anonymous => [':']

theorem written_eq_label (p : Placeholder) : p.written = ':' :: p.label := by
  cases p <;> rfl

theorem captures?_eq_none {cs : List Char} (h : first? cs = none) :
    regex.captures? (String.ofList cs) = none := by
  have hfails : ∀ p ≤ cs.toArray.size, Fails program cs.toArray ⟨0, p, []⟩ :=
    fun p _ => fails_of_atStart? rfl (atStart?_of_first?_none h p)
  rw [captures?, String.toList_ofList, search_of_fails hfails, Option.map_none]

theorem slice_eq {c : Captures} {before middle after : List Char} {start stop : Nat}
    (htext : c.text = (before ++ (middle ++ after)).toArray) (hstart : start = before.length)
    (hstop : stop = start + middle.length) : c.slice start stop = String.ofList middle := by
  rw [Captures.slice, htext, hstop, Nat.add_sub_cancel_left, hstart, List.drop_left,
    List.take_left]

/-- The leftmost match of the pattern is the first placeholder, and its group the label. -/
theorem captures?_eq_some {cs before after : List Char} {p : Placeholder}
    (h : first? cs = some (before, p, after)) :
    ∃ c, regex.captures? (String.ofList cs) = some c ∧ c.start = before.length ∧
      c.get? 0 = some (String.ofList p.written) ∧ c.get? 1 = some (String.ofList p.label) := by
  obtain ⟨hat, hnone⟩ := atStart?_of_first? h
  have hcs := first?_eq h
  have hsize : before.length ≤ cs.toArray.size := by
    rw [List.size_toArray, hcs, List.length_append]
    omega
  have htext : cs.toArray.toList.drop before.length = cs.drop before.length := rfl
  obtain ⟨n, hway⟩ := exists_prefers_of_atStart? htext hat
  have hsearch := search_of_prefers hsize (fun k hk => fails_of_atStart? rfl (hnone k hk)) hway
  refine ⟨_, by rw [captures?, String.toList_ofList, hsearch, Option.map_some], rfl, ?_, ?_⟩
  · rw [Captures.get?, if_pos rfl]
    exact congrArg some (slice_eq (congrArg List.toArray hcs) rfl rfl)
  · have hlabel : cs = (before ++ [':']) ++ (p.label ++ after) := by
      rw [hcs, written_eq_label]
      simp
    have hlength : before.length + p.written.length = before.length + 1 + p.label.length := by
      rw [written_eq_label, List.length_cons]
      omega
    rw [Captures.get?, if_neg (by decide)]
    exact congrArg some (slice_eq (congrArg List.toArray hlabel) (by simp) hlength)

end Signpost.Placeholder
