import Signpost.Proofs.Percent
import Signpost.Proofs.Placeholder.Pattern
import Signpost.Proofs.Template.Segments

/-! # Replacing placeholders one after the other

The text is searched from its beginning after every replacement. Still each turn replaces the next
match of the text there was at first: a group does not begin a match, with what stands before it or
behind it, and stays where it is. So the turns come to the text that one pass makes, and the numbers
that were listed count its groups.
-/
namespace Signpost.Placeholder
open Regex Text.Percent

/-- The leftmost match of the pattern stands between two texts. It is a colon and the name, which is
what the pattern's group matches. -/
structure Finds (cs before name after : List Char) : Prop where
  split : cs = before ++ (':' :: name ++ after)
  captured : ∃ c, regex.captures? (String.ofList cs) = some c ∧ c.start = before.length ∧
    c.get? 0 = some (String.ofList (':' :: name)) ∧ c.get? 1 = some (String.ofList name)

/-- A text with what stands before each match and the name of the match, and what stands behind the
last one. The pattern does not look behind, so the next match is searched for in the rest. -/
inductive Matches : List Char → List (List Char × List Char) → List Char → Prop
  | none {cs : List Char} (h : regex.captures? (String.ofList cs) = none) : Matches cs [] cs
  | next {cs before name after tail : List Char} {pieces : List (List Char × List Char)}
      (h : Finds cs before name after) (hafter : Matches after pieces tail) :
      Matches cs ((before, name) :: pieces) tail

theorem Finds.unique {cs before name after before' name' after' : List Char}
    (h : Finds cs before name after) (h' : Finds cs before' name' after') :
    before = before' ∧ name = name' ∧ after = after' := by
  obtain ⟨c, hc, hstart, -, hname⟩ := h.captured
  obtain ⟨c', hc', hstart', -, hname'⟩ := h'.captured
  rw [hc] at hc'
  cases hc'
  obtain rfl : name = name' :=
    String.ofList_injective (Option.some.inj (hname.symm.trans hname'))
  obtain ⟨hbefore, hrest⟩ := List.append_inj (h.split.symm.trans h'.split)
    (hstart.symm.trans hstart')
  exact ⟨hbefore, rfl, List.append_cancel_left hrest⟩

def ofName (name : List Char) : Placeholder := if name = [':'] then anonymous else named name

theorem label_ofName (name : List Char) : (ofName name).label = name := by
  unfold ofName
  split
  · rename_i h
    rw [h]
    rfl
  · rfl

theorem ofName_label_of_first? {cs before after : List Char} {p : Placeholder}
    (h : first? cs = some (before, p, after)) : ofName p.label = p := by
  cases p with
  | anonymous => rfl
  | named name =>
    obtain ⟨c, tail, rfl, -, hc, -⟩ := exists_of_atStart?_named (atStart?_of_first? h).1
    refine if_neg fun heq => ?_
    cases heq
    cases hc

theorem finds_of_first? {cs before after : List Char} {p : Placeholder}
    (h : first? cs = some (before, p, after)) : Finds cs before p.label after := by
  refine ⟨?_, ?_⟩
  · rw [first?_eq h, written_eq_label]
  · rw [← written_eq_label]
    exact captures?_eq_some h

theorem finds_iff {cs before name after : List Char} :
    Finds cs before name after ↔ first? cs = some (before, ofName name, after) := by
  refine ⟨fun h => ?_, fun h => label_ofName name ▸ finds_of_first? h⟩
  cases hf : first? cs with
  | none =>
    obtain ⟨c, hc, -⟩ := h.captured
    rw [captures?_eq_none hf] at hc
    cases hc
  | some found =>
    obtain ⟨before', p, after'⟩ := found
    obtain ⟨rfl, rfl, rfl⟩ := h.unique (finds_of_first? hf)
    rw [ofName_label_of_first? hf]

theorem captures?_eq_none_iff {cs : List Char} :
    regex.captures? (String.ofList cs) = none ↔ first? cs = none := by
  refine ⟨fun h => ?_, captures?_eq_none⟩
  cases hf : first? cs with
  | none => rfl
  | some found =>
    obtain ⟨c, hc, -⟩ := captures?_eq_some hf
    rw [h] at hc
    cases hc

theorem exists_matches (cs : List Char) : ∃ pieces tail, Matches cs pieces tail := by
  induction hn : cs.length using Nat.strongRecOn generalizing cs with
  | _ n ih =>
    cases hf : first? cs with
    | none => exact ⟨[], cs, .none (captures?_eq_none hf)⟩
    | some found =>
      obtain ⟨before, p, after⟩ := found
      have hlt : after.length < n := by
        rw [← hn, first?_eq hf, written_eq_label]
        simp only [List.length_append, List.length_cons]
        omega
      obtain ⟨pieces, tail, hafter⟩ := ih after.length hlt after rfl
      exact ⟨_, tail, .next (finds_of_first? hf) hafter⟩

section Pieces
variable {cs tail : List Char} {pieces : List (List Char × List Char)}

def tokensOf (pieces : List (List Char × List Char)) : List Token :=
  pieces.flatMap fun piece => piece.1.map .text ++ [.hole (ofName piece.2)]

theorem Matches.tokens_eq (h : Matches cs pieces tail) :
    tokens cs = tokensOf pieces ++ tail.map .text := by
  induction h with
  | none h => exact tokens_of_first?_none (captures?_eq_none_iff.mp h)
  | next h _ ih =>
    rw [tokens_of_first? (finds_iff.mp h), ih]
    simp [tokensOf]

/-- The segments of a template are the texts around its matches and the names of the matches. One
without a name is an error. -/
theorem Matches.ofTemplate_eq (h : Matches cs pieces tail) :
    Segment.ofTemplate cs =
      if ∃ piece ∈ pieces, piece.2 = [':'] then .error .anonymousCapture
      else .ok (pieces.flatMap (fun piece =>
          Segment.ofText piece.1 ++ [.placeholder (String.ofList piece.2)]) ++
        Segment.ofText tail) := by
  induction h with
  | none h => simpa using Template.ofTemplate_of_first?_none (captures?_eq_none_iff.mp h)
  | @next cs before name after tail pieces h _ ih =>
    have hfirst := finds_iff.mp h
    by_cases hname : name = [':']
    · rw [ofName, if_pos hname] at hfirst
      rw [Template.ofTemplate_of_first?_anonymous hfirst, if_pos ⟨_, List.mem_cons_self, hname⟩]
    · rw [ofName, if_neg hname] at hfirst
      rw [Template.ofTemplate_of_first?_named hfirst, ih]
      have hcons : (∃ piece ∈ (before, name) :: pieces, piece.2 = [':']) ↔
          ∃ piece ∈ pieces, piece.2 = [':'] := by
        simp [hname]
      simp only [hcons]
      split
      · rfl
      · simp [Except.map]

end Pieces

def replaced (pieces : List (List Char × List Char)) (tail : List Char) : List Char :=
  pieces.flatMap (fun piece => piece.1 ++ capture) ++ tail

def namesOf (pieces : List (List Char × List Char)) : List String :=
  (pieces.filter fun piece => piece.2 ≠ [':']).map fun piece => String.ofList piece.2

/-- The number of opening parentheses among the bytes of a text up to the one at a position. -/
def parensUpTo (cs : List Char) (pos : Nat) : Nat := ((bytes cs).take (pos + 1)).count 40

theorem spelled_tokensOf (pieces : List (List Char × List Char)) (tail : List Char) :
    spelled (tokensOf pieces ++ tail.map .text) = replaced pieces tail := by
  induction pieces with
  | nil => exact spelled_text tail
  | cons piece pieces ih =>
    simp only [tokensOf, replaced, List.flatMap_cons, List.append_assoc, spelled_append,
      spelled_text, spelled_cons, spelled_nil, Token.spell_hole, List.append_nil] at ih ⊢
    rw [ih]

theorem names_tokensOf (pieces : List (List Char × List Char)) (tail : List Char) :
    Template.names (tokensOf pieces ++ tail.map .text) = namesOf pieces := by
  induction pieces with
  | nil => exact Template.names_map_text tail
  | cons piece pieces ih =>
    obtain ⟨before, name⟩ := piece
    simp only [tokensOf, List.flatMap_cons, List.append_assoc, Template.names_append,
      Template.names_map_text, List.nil_append] at ih ⊢
    rw [ih]
    by_cases hname : name = [':']
    · simp [namesOf, hname, ofName, Template.names]
    · simp [namesOf, hname, ofName, Template.names]

theorem count_utf8EncodeChar (c : Char) :
    (String.utf8EncodeChar c).count 40 = if c = '(' then 1 else 0 := by
  have hbyte (n : Nat) : UInt8.ofNat n = 40 ↔ n % 256 = 40 := by
    rw [← UInt8.toNat_inj]
    rfl
  have hparen : c = '(' ↔ c.val.toNat = 40 := by
    rw [← Char.toNat_inj]
    rfl
  simp only [String.utf8EncodeChar, hparen]
  generalize c.val.toNat = v
  split_ifs <;> simp only [List.count_cons, List.count_nil, beq_iff_eq, hbyte] <;> split_ifs <;>
    omega

theorem count_bytes (cs : List Char) : (bytes cs).count 40 = countGroups cs := by
  induction cs with
  | nil => rfl
  | cons c cs ih =>
    have hcount : (bytes (c :: cs)).count 40 =
        (String.utf8EncodeChar c).count 40 + (bytes cs).count 40 :=
      List.count_append
    rw [hcount, ih, count_utf8EncodeChar, countGroups, countGroups, List.count_cons, Nat.add_comm]
    simp only [beq_iff_eq]

theorem parensUpTo_capture (cs rest : List Char) :
    parensUpTo (cs ++ (capture ++ rest)) (bytes cs).length = countGroups cs + 1 := by
  have hparen : bytes (capture ++ rest) = 40 :: bytes (capture.tail ++ rest) := rfl
  rw [parensUpTo, bytes_append, List.take_length_add_append, hparen, List.take_succ_cons,
    List.take_zero, List.count_append, count_bytes]
  rfl

theorem pairwise_marks (n : Nat) (ts : List Token) :
    (marks n ts).Pairwise (·.2 < ·.2) ∧ ∀ m ∈ marks n ts, n < m.2 := by
  induction ts generalizing n with
  | nil => simp [marks]
  | cons t ts ih =>
    cases t with
    | text c =>
      obtain ⟨hsorted, hlt⟩ := ih (n + countGroups [c])
      exact ⟨hsorted, fun m hm => Nat.lt_of_le_of_lt (Nat.le_add_right _ _) (hlt m hm)⟩
    | hole p =>
      obtain ⟨hsorted, hlt⟩ := ih (n + 1)
      cases p with
      | anonymous => exact ⟨hsorted, fun m hm => Nat.lt_of_succ_lt (hlt m hm)⟩
      | named name =>
        refine ⟨List.pairwise_cons.mpr ⟨hlt, hsorted⟩, fun m hm => ?_⟩
        rcases List.mem_cons.mp hm with rfl | hm
        · exact Nat.lt_succ_self n
        · exact Nat.lt_of_succ_lt (hlt m hm)

theorem getElem?_marks {front back : List (List Char × List Char)} {before name : List Char}
    (hname : name ≠ [':']) (tail : List Char) :
    (marks 0 (tokensOf (front ++ (before, name) :: back) ++ tail.map .text))[
        (namesOf front).length]? =
      some (String.ofList name, countGroups (replaced front before) + 1) := by
  have hsplit : tokensOf (front ++ (before, name) :: back) ++ tail.map .text =
      (tokensOf front ++ before.map .text) ++
        .hole (.named name) :: (tokensOf back ++ tail.map .text) := by
    simp [tokensOf, ofName, hname]
  have hlength : (marks 0 (tokensOf front ++ before.map .text)).length =
      (namesOf front).length := by
    rw [← names_tokensOf front before, ← Template.map_fst_marks 0, List.length_map]
  rw [hsplit, marks_append, marks, spelled_tokensOf, ← hlength, List.getElem?_append_right le_rfl,
    Nat.sub_self, Nat.zero_add]
  rfl

/-- A turn of the loop, on the text and the names that were listed: the next match is replaced, and
its name is listed with the number of parentheses up to the group. -/
inductive Turn : List Char × List (String × Nat) → List Char × List (String × Nat) → Prop
  | named {cs before name after : List Char} {found : List (String × Nat)}
      (h : Finds cs before name after) (hname : name ≠ [':']) :
      Turn (cs, found) (before ++ (capture ++ after),
        found ++ [(String.ofList name,
          parensUpTo (before ++ (capture ++ after)) (bytes before).length)])
  | anonymous {cs before after : List Char} {found : List (String × Nat)}
      (h : Finds cs before [':'] after) : Turn (cs, found) (before ++ (capture ++ after), found)

theorem Turn.of_finds {cs before name after : List Char} (found : List (String × Nat))
    (h : Finds cs before name after) :
    Turn (cs, found)
      (before ++ (capture ++ after), found ++ mark (countGroups before) (ofName name)) := by
  unfold ofName
  split
  · rename_i hname
    subst hname
    rw [mark, List.append_nil]
    exact .anonymous h
  · rename_i hname
    rw [mark, ← parensUpTo_capture before after]
    exact .named h hname

theorem Turn.unique {s t t' : List Char × List (String × Nat)} (h : Turn s t) (h' : Turn s t') :
    t = t' := by
  cases h with
  | named h hname =>
    cases h' with
    | named h' =>
      obtain ⟨rfl, rfl, rfl⟩ := h.unique h'
      rfl
    | anonymous h' => exact absurd (h.unique h').2.1 hname
  | anonymous h =>
    cases h' with
    | named h' hname => exact absurd (h'.unique h).2.1 hname
    | anonymous h' =>
      obtain ⟨rfl, -, rfl⟩ := h.unique h'
      rfl

theorem not_turn {s t : List Char × List (String × Nat)}
    (h : regex.captures? (String.ofList s.1) = none) : ¬ Turn s t := by
  have hnone {cs before name after : List Char} (hfinds : Finds cs before name after) :
      regex.captures? (String.ofList cs) ≠ none := by
    obtain ⟨c, hc, -⟩ := hfinds.captured
    rw [hc]
    exact Option.some_ne_none c
  rintro (⟨hfinds, -⟩ | hfinds) <;> exact hnone hfinds h

theorem le_of_iterate {α : Type} {R : α → α → Prop} (hunique : ∀ {s t t'}, R s t → R s t' → t = t')
    {m n : Nat} {s t u : α} (hm : Iterate R m s t) (hend : ∀ v, ¬ R t v) (hn : Iterate R n s u) :
    n ≤ m := by
  induction m generalizing n s with
  | zero =>
    cases n with
    | zero => exact le_rfl
    | succ n =>
      obtain ⟨v, hv, -⟩ := hn
      cases hm
      exact absurd hv (hend v)
  | succ m ih =>
    cases n with
    | zero => exact Nat.zero_le _
    | succ n =>
      obtain ⟨v, hv, hm⟩ := hm
      obtain ⟨w, hw, hn⟩ := hn
      cases hunique hv hw
      exact Nat.succ_le_succ (ih hm hn)

/-- Each turn replaces the next match of the text that there was at first, and adds what was done
to the text before it, in which no match begins. -/
theorem Matches.iterate_turn {cs tail : List Char} {pieces : List (List Char × List Char)}
    (h : Matches cs pieces tail) {done : List Char} (hdone : Inert done)
    (found : List (String × Nat)) :
    Iterate Turn pieces.length (done ++ cs, found)
      (done ++ replaced pieces tail,
        found ++ marks (countGroups done) (tokensOf pieces ++ tail.map .text)) := by
  induction h generalizing done found with
  | @none cs h =>
    have hmarks := marks_text_append (countGroups done) cs []
    rw [List.append_nil] at hmarks
    rw [tokensOf, List.flatMap_nil, List.nil_append, hmarks, marks, List.append_nil]
    rfl
  | @next cs before name after tail pieces h _ ih =>
    have hfirst := finds_iff.mp h
    have hmoved : Finds (done ++ cs) (done ++ before) name after := by
      rw [finds_iff, hdone cs, hfirst]
      rfl
    refine ⟨_, .of_finds found hmoved, ?_⟩
    have htext : done ++ before ++ (capture ++ after) = done ++ (before ++ capture) ++ after := by
      simp
    have hreplaced : done ++ replaced ((before, name) :: pieces) tail =
        done ++ (before ++ capture) ++ replaced pieces tail := by
      simp [replaced]
    have hmarks : marks (countGroups done) (tokensOf ((before, name) :: pieces) ++ tail.map .text) =
        mark (countGroups (done ++ before)) (ofName name) ++
          marks (countGroups (done ++ (before ++ capture)))
            (tokensOf pieces ++ tail.map .text) := by
      simp only [tokensOf, List.flatMap_cons, List.append_assoc, marks_text_append,
        List.cons_append, List.nil_append, marks, countGroups_append, countGroups_capture,
        Nat.add_assoc]
    rw [htext, hreplaced, hmarks, ← List.append_assoc found]
    exact ih (hdone.append (inert_of_first? hfirst)) _

theorem first?_substitute (cs : List Char) : first? (substitute cs).1 = none := by
  induction hn : cs.count ':' using Nat.strongRecOn generalizing cs with
  | _ n ih =>
    cases hf : first? cs with
    | none => rw [substitute_of_first?_none hf, hf]
    | some found =>
      obtain ⟨before, p, after⟩ := found
      rw [substitute_of_first? hf]
      exact ih _ (hn ▸ count_colon_lt hf) _ rfl

/-- The loop ends, after one turn for each match of the text. No match of the pattern is left, and
the text is the one in which each match is replaced by a group in one pass over the matches, which
are also those that the segments of a template are made of. The listed names are those of the
matches in order, with numbers that increase: the parentheses up to the beginning of the group. -/
theorem substitute_eq_onePass (cs : List Char) :
    Regex.compile (String.ofList source) false = .ok regex ∧
    ∃ pieces tail, Matches cs pieces tail ∧
      Iterate Turn pieces.length (cs, []) (substitute cs) ∧
      (∀ n s, Iterate Turn n (cs, []) s → n ≤ pieces.length) ∧
      regex.captures? (String.ofList (substitute cs).1) = none ∧
      (substitute cs).1 = replaced pieces tail ∧
      Segment.ofTemplate cs =
        (if ∃ piece ∈ pieces, piece.2 = [':'] then .error .anonymousCapture
        else .ok (pieces.flatMap (fun piece =>
            Segment.ofText piece.1 ++ [.placeholder (String.ofList piece.2)]) ++
          Segment.ofText tail)) ∧
      (substitute cs).2.map Prod.fst = namesOf pieces ∧
      (substitute cs).2.Pairwise (·.2 < ·.2) ∧
      ∀ front before name back, pieces = front ++ (before, name) :: back → name ≠ [':'] →
        (substitute cs).2[(namesOf front).length]? = some (String.ofList name,
          parensUpTo (substitute cs).1 (bytes (replaced front before)).length) := by
  obtain ⟨pieces, tail, h⟩ := exists_matches cs
  have hend := captures?_eq_none_iff.mpr (first?_substitute cs)
  have hresult : substitute cs =
      (replaced pieces tail, marks 0 (tokensOf pieces ++ tail.map .text)) := by
    rw [substitute_eq, h.tokens_eq, spelled_tokensOf]
  have hturns := h.iterate_turn inert_nil []
  rw [List.nil_append, List.nil_append, List.nil_append] at hturns
  rw [hresult] at hend ⊢
  have hmost : ∀ n s, Iterate Turn n (cs, []) s → n ≤ pieces.length := fun n s hs =>
    le_of_iterate (fun hstep hstep' => hstep.unique hstep') hturns (fun _ => not_turn hend) hs
  refine ⟨compile_source, pieces, tail, h, hturns, hmost, hend, rfl, h.ofTemplate_eq, ?_,
    (pairwise_marks 0 _).1, ?_⟩
  · rw [Template.map_fst_marks, names_tokensOf]
  · rintro front before name back rfl hname
    have hreplaced : replaced (front ++ (before, name) :: back) tail =
        replaced front before ++ (capture ++ replaced back tail) := by
      simp [replaced]
    rw [getElem?_marks hname, hreplaced, parensUpTo_capture]

end Signpost.Placeholder
