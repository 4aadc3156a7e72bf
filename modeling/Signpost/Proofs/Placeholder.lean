import Mathlib.Data.List.TakeWhile
import Signpost.Placeholder

/-! # Substitution in one pass

A text is read once as tokens: placeholders, and characters that stand for themselves. Replacing
one placeholder after the other spells every token on its own, since neither the group that
replaces a placeholder nor the text before it can begin another one.
-/
namespace Signpost.Placeholder

/-- A character of a text, or a placeholder in it. -/
inductive Token where
  | text (c : Char)
  | hole (p : Placeholder)
  deriving DecidableEq, Repr

namespace Token

/-- What stands for the token in an expression. -/
def spell : Token → List Char
  | text c => [c]
  | hole _ => capture

@[simp] theorem spell_text (c : Char) : (text c).spell = [c] := rfl

@[simp] theorem spell_hole (p : Placeholder) : (hole p).spell = capture := rfl

end Token

theorem length_lt_of_atStart? {cs rest : List Char} {p : Placeholder}
    (h : atStart? cs = some (p, rest)) : rest.length < cs.length := by
  rw [atStart?_eq h, List.length_append]
  cases p with
  | named name =>
    rw [written, List.length_cons]
    omega
  | anonymous =>
    rw [written, List.length_cons]
    omega

/-- The tokens of a text, leftmost placeholders first. -/
def tokens (cs : List Char) : List Token :=
  match _ : atStart? cs with
  | some (p, rest) => .hole p :: tokens rest
  | none =>
    match cs with
    | [] => []
    | c :: rest => .text c :: tokens rest
termination_by cs.length
decreasing_by
  · exact length_lt_of_atStart? ‹_›
  · simp

/-- The text that tokens stand for, with a group for every placeholder. -/
def spelled (ts : List Token) : List Char := ts.flatMap Token.spell

/-- What is listed for a placeholder that `before` groups precede. -/
def mark (before : Nat) : Placeholder → List (String × Nat)
  | named name => [(String.ofList name, before + 1)]
  | anonymous => []

/-- The named placeholders among tokens, each with the number of its group when `before` groups
precede the tokens. -/
def marks (before : Nat) : List Token → List (String × Nat)
  | [] => []
  | .text c :: ts => marks (before + countGroups [c]) ts
  | .hole p :: ts => mark before p ++ marks (before + 1) ts

@[simp] theorem tokens_nil : tokens [] = [] := by
  rw [tokens]
  rfl

theorem tokens_of_atStart? {cs rest : List Char} {p : Placeholder}
    (h : atStart? cs = some (p, rest)) : tokens cs = .hole p :: tokens rest := by
  rw [tokens]
  split
  · rename_i h'
    rw [h] at h'
    cases h'
    rfl
  · rename_i h'
    rw [h] at h'
    cases h'

theorem tokens_cons_of_none {c : Char} {rest : List Char} (h : atStart? (c :: rest) = none) :
    tokens (c :: rest) = .text c :: tokens rest := by
  rw [tokens]
  split
  · rename_i h'
    rw [h] at h'
    cases h'
  · rfl

/-- Two characters that begin a placeholder whatever follows them. -/
def Opens (c d : Char) : Prop := c = ':' ∧ (d = ':' ∨ isNameStart d = true)

theorem atStart?_singleton (c : Char) : atStart? [c] = none := by
  unfold atStart?
  split <;> simp_all

theorem atStart?_eq_none_iff (c d : Char) (rest : List Char) :
    atStart? (c :: d :: rest) = none ↔ ¬ Opens c d := by
  unfold atStart? Opens
  split
  · rename_i h
    cases h
    simp
  · rename_i hne h
    cases h
    simp only [true_and, not_or]
    split
    · rename_i hs
      simp [hs]
    · rename_i hs
      refine ⟨fun _ => ⟨?_, hs⟩, fun _ => rfl⟩
      rintro rfl
      exact hne rfl
  · rename_i hcolon hname
    refine ⟨fun _ => ?_, fun _ => rfl⟩
    rintro ⟨rfl, -⟩
    exact hname _ _ rfl

theorem atStart?_of_ne {c : Char} (h : c ≠ ':') (rest : List Char) :
    atStart? (c :: rest) = none := by
  cases rest with
  | nil => exact atStart?_singleton c
  | cons d rest => exact (atStart?_eq_none_iff c d rest).mpr fun ho => h ho.1

theorem written_eq_cons (p : Placeholder) : ∃ rest, p.written = ':' :: rest := by
  cases p with
  | named name => exact ⟨name, rfl⟩
  | anonymous => exact ⟨[':'], rfl⟩

/-- No name goes on into the text. -/
def Stops (cs : List Char) : Prop := ∀ c, cs.head? = some c → isNameChar c = false

theorem stops_nil : Stops [] := by simp [Stops]

theorem stops_cons {c : Char} (h : isNameChar c = false) (cs : List Char) : Stops (c :: cs) := by
  rintro _ ⟨⟩
  exact h

theorem atStart?_named {c : Char} {name rest : List Char} (hc : isNameStart c = true)
    (hname : ∀ d ∈ name, isNameChar d = true) (hrest : Stops rest) :
    atStart? (':' :: c :: (name ++ rest)) = some (named (c :: name), rest) := by
  have htake : rest.takeWhile isNameChar = [] := by
    cases rest with
    | nil => rfl
    | cons d rest => rw [List.takeWhile_cons, hrest d rfl, if_neg Bool.false_ne_true]
  have hdrop : rest.dropWhile isNameChar = rest := by
    cases rest with
    | nil => rfl
    | cons d rest => rw [List.dropWhile_cons, hrest d rfl, if_neg Bool.false_ne_true]
  have hcolon : c ≠ ':' := by
    rintro rfl
    cases hc
  unfold atStart?
  split
  · rename_i heq
    cases heq
    exact absurd rfl hcolon
  · rename_i heq
    cases heq
    rw [if_pos hc, List.takeWhile_append_of_pos hname, List.dropWhile_append_of_pos hname, htake,
      hdrop, List.append_nil]
  · rename_i hne
    exact absurd rfl (hne c _)

theorem exists_of_atStart?_named {cs name rest : List Char}
    (h : atStart? cs = some (named name, rest)) :
    ∃ c tail, name = c :: tail ∧ cs = ':' :: c :: (tail ++ rest) ∧ isNameStart c = true ∧
      (∀ d ∈ tail, isNameChar d = true) ∧ Stops rest := by
  unfold atStart? at h
  split at h
  · simp at h
  · rename_i c more _
    split at h
    · rename_i hc
      simp only [Option.some.injEq, Prod.mk.injEq, named.injEq] at h
      obtain ⟨rfl, rfl⟩ := h
      refine ⟨c, _, rfl, by rw [List.takeWhile_append_dropWhile], hc,
        fun d hd => List.mem_takeWhile_imp hd, fun d hd => ?_⟩
      have hstop := List.head?_dropWhile_not isNameChar more
      rw [hd] at hstop
      exact hstop
    · simp at h
  · simp at h

theorem atStart?_append {cs rest more : List Char} {p : Placeholder}
    (h : atStart? cs = some (p, rest)) (hmore : Stops more) :
    atStart? (cs ++ more) = some (p, rest ++ more) := by
  cases p with
  | anonymous =>
    rw [atStart?_eq h]
    rfl
  | named name =>
    obtain ⟨c, tail, rfl, rfl, hc, htail, hrest⟩ := exists_of_atStart?_named h
    have hstop : Stops (rest ++ more) := by
      cases rest with
      | nil => exact hmore
      | cons d rest => exact stops_cons (hrest d rfl) _
    simpa using atStart?_named hc htail hstop

theorem isNameChar_of_isNameStart {c : Char} (h : isNameStart c = true) : isNameChar c = true := by
  simp [isNameChar, h]

/-- Texts that join where neither a name nor a pair of colons goes on have the tokens of both. -/
theorem tokens_append {more : List Char} (hmore : Stops more) (hcolon : more.head? ≠ some ':')
    (cs : List Char) : tokens (cs ++ more) = tokens cs ++ tokens more := by
  induction hn : cs.length using Nat.strongRecOn generalizing cs with
  | _ n ih =>
    cases hs : atStart? cs with
    | some found =>
      obtain ⟨p, rest⟩ := found
      have hlt := length_lt_of_atStart? hs
      rw [tokens_of_atStart? hs, tokens_of_atStart? (atStart?_append hs hmore),
        ih rest.length (hn ▸ hlt) rest rfl]
      rfl
    | none =>
      cases cs with
      | nil => simp
      | cons c rest =>
        have hnone : atStart? (c :: (rest ++ more)) = none := by
          cases rest with
          | cons d rest =>
            exact (atStart?_eq_none_iff c d _).mpr ((atStart?_eq_none_iff c d rest).mp hs)
          | nil =>
            cases more with
            | nil => exact hs
            | cons d more =>
              refine (atStart?_eq_none_iff c d more).mpr ?_
              rintro ⟨-, rfl | hd⟩
              · exact hcolon rfl
              · have hstop := hmore d rfl
                rw [isNameChar_of_isNameStart hd] at hstop
                cases hstop
        rw [tokens_cons_of_none hs, List.cons_append, tokens_cons_of_none hnone,
          ih rest.length (by simp [← hn]) rest rfl]
        rfl

theorem exists_of_named_mem_tokens {name cs : List Char} (h : .hole (.named name) ∈ tokens cs) :
    ∃ c tail, name = c :: tail ∧ isNameStart c = true ∧ ∀ d ∈ tail, isNameChar d = true := by
  induction hn : cs.length using Nat.strongRecOn generalizing cs with
  | _ n ih =>
    cases hs : atStart? cs with
    | some found =>
      obtain ⟨p, rest⟩ := found
      have hlt := length_lt_of_atStart? hs
      rw [tokens_of_atStart? hs] at h
      rcases List.mem_cons.mp h with heq | hmem
      · cases heq
        obtain ⟨c, tail, rfl, -, hc, htail, -⟩ := exists_of_atStart?_named hs
        exact ⟨c, tail, rfl, hc, htail⟩
      · exact ih rest.length (hn ▸ hlt) hmem rfl
    | none =>
      cases cs with
      | nil => simp at h
      | cons c rest =>
        rw [tokens_cons_of_none hs] at h
        rcases List.mem_cons.mp h with heq | hmem
        · cases heq
        · exact ih rest.length (by simp [← hn]) hmem rfl

theorem tokens_of_first?_none {cs : List Char} (h : first? cs = none) :
    tokens cs = cs.map .text := by
  induction cs with
  | nil => exact tokens_nil
  | cons c rest ih =>
    rw [first?] at h
    split at h
    · simp at h
    · rename_i hs
      rw [tokens_cons_of_none hs, ih (Option.map_eq_none_iff.mp h)]
      rfl

theorem tokens_of_first? {cs before after : List Char} {p : Placeholder}
    (h : first? cs = some (before, p, after)) :
    tokens cs = before.map .text ++ .hole p :: tokens after := by
  induction cs generalizing before with
  | nil => simp [first?] at h
  | cons c rest ih =>
    rw [first?] at h
    split at h
    · rename_i hs
      cases h
      exact tokens_of_atStart? hs
    · rename_i hs
      obtain ⟨⟨before', p', after'⟩, hr, heq⟩ := Option.map_eq_some_iff.mp h
      cases heq
      rw [tokens_cons_of_none hs, ih hr]
      rfl

/-- No placeholder begins in the text, whatever follows it. -/
def Inert (cs : List Char) : Prop :=
  ∀ rest, first? (cs ++ rest) = (first? rest).map fun (before, p, after) => (cs ++ before, p, after)

theorem inert_nil : Inert [] := by
  intro rest
  simp

theorem Inert.cons {c : Char} {cs : List Char} (hc : ∀ rest, atStart? (c :: (cs ++ rest)) = none)
    (h : Inert cs) : Inert (c :: cs) := by
  intro rest
  rw [List.cons_append, first?, hc rest, h rest]
  cases first? rest <;> rfl

theorem Inert.append {cs ds : List Char} (hc : Inert cs) (hd : Inert ds) : Inert (cs ++ ds) := by
  intro rest
  rw [List.append_assoc, hc, hd]
  cases first? rest <;> simp

theorem inert_of_notMem {cs : List Char} (h : ':' ∉ cs) : Inert cs := by
  induction cs with
  | nil => exact inert_nil
  | cons c cs ih =>
    rw [List.mem_cons, not_or] at h
    obtain ⟨hc, hcs⟩ := h
    exact (ih hcs).cons fun rest => atStart?_of_ne (Ne.symm hc) _

theorem inert_capture : Inert capture :=
  inert_of_notMem (by decide)

/-- The text before the first placeholder stays inert when a group replaces the placeholder. -/
theorem inert_of_first? {cs before after : List Char} {p : Placeholder}
    (h : first? cs = some (before, p, after)) : Inert (before ++ capture) := by
  induction before generalizing cs with
  | nil => exact inert_capture
  | cons c before ih =>
    cases cs with
    | nil => simp [first?] at h
    | cons c' cs =>
      rw [first?] at h
      split at h
      · simp at h
      · rename_i hs
        obtain ⟨⟨before', p', after'⟩, hr, heq⟩ := Option.map_eq_some_iff.mp h
        cases heq
        refine (ih hr).cons fun rest => ?_
        rw [first?_eq hr] at hs
        cases before with
        | nil =>
          obtain ⟨name, hname⟩ := written_eq_cons p
          rw [hname] at hs
          have hc : c ≠ ':' := fun hc => (atStart?_eq_none_iff _ _ _).mp hs ⟨hc, Or.inl rfl⟩
          exact atStart?_of_ne hc _
        | cons d before =>
          exact (atStart?_eq_none_iff _ _ _).mpr ((atStart?_eq_none_iff _ _ _).mp hs)

theorem countGroups_append (cs ds : List Char) :
    countGroups (cs ++ ds) = countGroups cs + countGroups ds :=
  List.count_append

theorem countGroups_capture : countGroups capture = 1 := by decide

@[simp] theorem capture_ne_nil : capture ≠ [] := by decide

@[simp] theorem head?_capture : capture.head? = some '(' := by decide

@[simp] theorem getLast?_capture : capture.getLast? = some ')' := by decide

theorem marks_text_append (n : Nat) (cs : List Char) (ts : List Token) :
    marks n (cs.map .text ++ ts) = marks (n + countGroups cs) ts := by
  induction cs generalizing n with
  | nil => rfl
  | cons c cs ih =>
    simp only [List.map_cons, List.cons_append, marks]
    rw [ih, Nat.add_assoc, ← countGroups_append]
    rfl

@[simp] theorem spelled_nil : spelled [] = [] := rfl

@[simp] theorem spelled_cons (t : Token) (ts : List Token) :
    spelled (t :: ts) = t.spell ++ spelled ts := rfl

@[simp] theorem spelled_append (ts us : List Token) :
    spelled (ts ++ us) = spelled ts ++ spelled us :=
  List.flatMap_append

@[simp] theorem spelled_text (cs : List Char) : spelled (cs.map .text) = cs := by
  induction cs with
  | nil => rfl
  | cons c cs ih => simpa using ih

theorem marks_append (n : Nat) (ts us : List Token) :
    marks n (ts ++ us) = marks n ts ++ marks (n + countGroups (spelled ts)) us := by
  induction ts generalizing n with
  | nil => rfl
  | cons t ts ih =>
    cases t with
    | text c =>
      rw [List.cons_append, marks, marks, ih, spelled_cons, Token.spell_text, countGroups_append,
        Nat.add_assoc]
    | hole p =>
      rw [List.cons_append, marks, marks, ih, spelled_cons, Token.spell_hole, countGroups_append,
        countGroups_capture, Nat.add_assoc, List.append_assoc]

theorem marks_add (k n : Nat) (ts : List Token) :
    marks (n + k) ts = (marks n ts).map fun m => (m.1, m.2 + k) := by
  induction ts generalizing n with
  | nil => rfl
  | cons t ts ih =>
    cases t with
    | text c => rw [marks, marks, Nat.add_right_comm, ih]
    | hole p =>
      rw [marks, marks, Nat.add_right_comm, ih, List.map_append]
      cases p with
      | named name => simp [mark, Nat.add_right_comm]
      | anonymous => rfl

theorem substitute_of_first?_none {cs : List Char} (h : first? cs = none) :
    substitute cs = (cs, []) := by
  rw [substitute]
  split
  · rfl
  · rename_i h'
    rw [h] at h'
    cases h'

theorem substitute_of_first? {cs before after : List Char} {p : Placeholder}
    (h : first? cs = some (before, p, after)) :
    substitute cs = ((substitute (before ++ (capture ++ after))).1,
      mark (countGroups before) p ++ (substitute (before ++ (capture ++ after))).2) := by
  rw [substitute]
  split
  · rename_i h'
    rw [h] at h'
    cases h'
  · rename_i h'
    rw [h] at h'
    cases h'
    cases p <;> rfl

theorem substitute_append {done : List Char} (hd : Inert done) (cs : List Char) :
    substitute (done ++ cs) =
      (done ++ spelled (tokens cs), marks (countGroups done) (tokens cs)) := by
  induction hn : cs.length using Nat.strongRecOn generalizing done cs with
  | _ n ih =>
    have hfirst := hd cs
    cases hf : first? cs with
    | none =>
      rw [hf] at hfirst
      rw [substitute_of_first?_none hfirst, tokens_of_first?_none hf, spelled_text]
      have hmarks := marks_text_append (countGroups done) cs []
      rw [List.append_nil] at hmarks
      rw [hmarks]
      rfl
    | some found =>
      obtain ⟨before, p, after⟩ := found
      rw [hf] at hfirst
      have hlt : after.length < n := by
        obtain ⟨name, hname⟩ := written_eq_cons p
        rw [← hn, first?_eq hf, hname]
        simp only [List.length_append, List.length_cons]
        omega
      have hrest := ih after.length hlt (hd.append (inert_of_first? hf)) after rfl
      have hsplit : done ++ before ++ (capture ++ after) = done ++ (before ++ capture) ++ after := by
        simp
      rw [substitute_of_first? hfirst, hsplit, hrest, tokens_of_first? hf, marks_text_append]
      simp only [marks, countGroups_append, countGroups_capture, spelled_append, spelled_text,
        spelled_cons, Token.spell_hole, List.append_assoc, Nat.add_assoc]

/-- Replacing placeholders one after the other spells every token on its own. -/
theorem substitute_eq (cs : List Char) :
    substitute cs = (spelled (tokens cs), marks 0 (tokens cs)) :=
  substitute_append inert_nil cs

theorem spelled_tokens_of_first?_none {cs : List Char} (h : first? cs = none) :
    spelled (tokens cs) = cs := by
  rw [tokens_of_first?_none h, spelled_text]

theorem spelled_tokens_of_first? {cs before after : List Char} {p : Placeholder}
    (h : first? cs = some (before, p, after)) :
    spelled (tokens cs) = spelled (tokens (before ++ (capture ++ after))) := by
  have heq := congrArg Prod.fst (substitute_of_first? h)
  rwa [substitute_eq, substitute_eq] at heq

theorem count_colon_spelled_le (cs : List Char) :
    (spelled (tokens cs)).count ':' ≤ cs.count ':' := by
  induction hn : cs.count ':' using Nat.strongRecOn generalizing cs with
  | _ n ih =>
    cases hf : first? cs with
    | none => rw [spelled_tokens_of_first?_none hf, hn]
    | some found =>
      obtain ⟨before, p, after⟩ := found
      have hlt := count_colon_lt hf
      have hle := ih _ (hn ▸ hlt) _ rfl
      rw [spelled_tokens_of_first? hf]
      omega

/-- A text is spelled as it is written if no placeholder is in it, and only then. -/
theorem spelled_tokens_eq_self_iff {cs : List Char} :
    spelled (tokens cs) = cs ↔ first? cs = none := by
  refine ⟨fun h => ?_, spelled_tokens_of_first?_none⟩
  cases hf : first? cs with
  | none => rfl
  | some found =>
    obtain ⟨before, p, after⟩ := found
    have hlt := count_colon_lt hf
    have hle := count_colon_spelled_le (before ++ (capture ++ after))
    rw [← spelled_tokens_of_first? hf, h] at hle
    exact absurd hlt (Nat.not_lt.mpr hle)

theorem mem_marks_of_hole {name : List Char} {ts : List Token} (before : Nat)
    (h : .hole (.named name) ∈ ts) : ∃ group, (String.ofList name, group) ∈ marks before ts := by
  induction ts generalizing before with
  | nil => cases h
  | cons t ts ih =>
    rcases List.mem_cons.mp h with rfl | hts
    · exact ⟨before + 1, List.mem_append_left _ List.mem_cons_self⟩
    · cases t with
      | text c => exact ih _ hts
      | hole p =>
        obtain ⟨group, hgroup⟩ := ih (before + 1) hts
        exact ⟨group, List.mem_append_right _ hgroup⟩

/-- A mark comes from a placeholder, and its number counts the groups up to it. -/
theorem exists_hole_of_marks {before group : Nat} {name : String} {ts : List Token}
    {ms ms' : List (String × Nat)} (h : marks before ts = ms ++ (name, group) :: ms') :
    ∃ front back, ts = front ++ .hole (.named name.toList) :: back ∧
      group = before + countGroups (spelled front) + 1 ∧ ms' = marks group back := by
  induction ts generalizing before ms with
  | nil => simp [marks] at h
  | cons t ts ih =>
    cases t with
    | text c =>
      obtain ⟨front, back, rfl, hgroup, hms'⟩ := ih h
      refine ⟨.text c :: front, back, rfl, ?_, hms'⟩
      rw [hgroup, spelled_cons, countGroups_append, Token.spell_text]
      omega
    | hole p =>
      cases p with
      | anonymous =>
        obtain ⟨front, back, rfl, hgroup, hms'⟩ := ih h
        refine ⟨.hole .anonymous :: front, back, rfl, ?_, hms'⟩
        rw [hgroup, spelled_cons, countGroups_append, Token.spell_hole, countGroups_capture]
        omega
      | named found =>
        cases ms with
        | nil =>
          obtain ⟨hhead, rfl⟩ := List.cons.inj h
          cases hhead
          exact ⟨[], ts, by simp, by simp [countGroups], rfl⟩
        | cons m ms =>
          obtain ⟨front, back, rfl, hgroup, hms'⟩ := ih (List.cons.inj h).2
          refine ⟨.hole (.named found) :: front, back, rfl, ?_, hms'⟩
          rw [hgroup, spelled_cons, countGroups_append, Token.spell_hole, countGroups_capture]
          omega

end Signpost.Placeholder
