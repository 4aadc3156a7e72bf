import Signpost.Proofs.Placeholder
import Signpost.Proofs.Scope.Chain

/-! # Expressions of literal paths

The path of nested literal fragments is one expression: the fragments' tokens in order between two
anchors, every character escaped and every placeholder as a group. Escaping moves no placeholder,
and the anchors between two fragments are the ones that joining drops.
-/
namespace Signpost
open Entries Placeholder

namespace Template

/-- What stands for a token of a literal text in an expression. -/
def expression : Token → List Char
  | .text c => Pattern.escape [c]
  | .hole _ => capture

def body (ts : List Token) : List Char := ts.flatMap expression

@[simp] theorem body_cons (t : Token) (ts : List Token) : body (t :: ts) = expression t ++ body ts :=
  rfl

@[simp] theorem body_append (ts us : List Token) : body (ts ++ us) = body ts ++ body us :=
  List.flatMap_append

theorem escape_append (cs ds : List Char) :
    Pattern.escape (cs ++ ds) = Pattern.escape cs ++ Pattern.escape ds :=
  List.flatMap_append

theorem escape_cons_of_isSpecial {c : Char} (h : Pattern.isSpecial c = true) (cs : List Char) :
    Pattern.escape (c :: cs) = '\\' :: c :: Pattern.escape cs := by
  simp [Pattern.escape, h]

theorem escape_cons_of_not {c : Char} (h : ¬ Pattern.isSpecial c = true) (cs : List Char) :
    Pattern.escape (c :: cs) = c :: Pattern.escape cs := by
  simp [Pattern.escape, h]

/-- An escaped character does not begin with a question mark, which would change what stands before
it. -/
theorem head?_escape_cons_append_ne (c : Char) (cs rest : List Char) :
    (Pattern.escape (c :: cs) ++ rest).head? ≠ some '?' := by
  by_cases hc : Pattern.isSpecial c = true
  · rw [escape_cons_of_isSpecial hc]
    simp
  · have hne : c ≠ '?' := fun heq => hc (heq ▸ by decide)
    rw [escape_cons_of_not hc]
    simpa using hne

theorem isNameChar_of_isSpecial {c : Char} (h : Pattern.isSpecial c = true) :
    isNameChar c = false ∧ c ≠ ':' := by
  have hall : ("\\.+*?()|[]\x7b\x7d^$#&-~".toList.all fun d => !isNameChar d && d != ':') =
      true := by decide
  simpa using List.all_eq_true.mp hall c (List.contains_iff_mem.mp h)

theorem escape_of_ordinary {cs : List Char} (h : ∀ c ∈ cs, isNameChar c = true ∨ c = ':') :
    Pattern.escape cs = cs := by
  induction cs with
  | nil => rfl
  | cons c cs ih =>
    obtain ⟨hc, hcs⟩ := List.forall_mem_cons.mp h
    have hspecial : ¬ Pattern.isSpecial c = true := by
      intro hs
      obtain ⟨hname, hcolon⟩ := isNameChar_of_isSpecial hs
      rcases hc with hc | hc
      · rw [hname] at hc
        cases hc
      · exact hcolon hc
    rw [escape_cons_of_not hspecial, ih hcs]

theorem stops_escape {cs : List Char} (h : Stops cs) : Stops (Pattern.escape cs) := by
  cases cs with
  | nil => exact stops_nil
  | cons c cs =>
    by_cases hc : Pattern.isSpecial c = true
    · rw [escape_cons_of_isSpecial hc]
      exact stops_cons (by decide) _
    · rw [escape_cons_of_not hc]
      exact stops_cons (h c rfl) _

theorem atStart?_escape {cs rest : List Char} {p : Placeholder} (h : atStart? cs = some (p, rest)) :
    atStart? (Pattern.escape cs) = some (p, Pattern.escape rest) := by
  cases p with
  | anonymous =>
    rw [atStart?_eq h, escape_append, escape_of_ordinary (by simp [written])]
    rfl
  | named name =>
    obtain ⟨c, tail, rfl, rfl, hc, htail, hrest⟩ := exists_of_atStart?_named h
    have hsplit : ':' :: c :: (tail ++ rest) = (':' :: c :: tail) ++ rest := rfl
    have hordinary : ∀ d ∈ ':' :: c :: tail, isNameChar d = true ∨ d = ':' := by
      intro d hd
      rcases List.mem_cons.mp hd with rfl | hd
      · exact Or.inr rfl
      · rcases List.mem_cons.mp hd with rfl | hd
        · exact Or.inl (isNameChar_of_isNameStart hc)
        · exact Or.inl (htail d hd)
    rw [hsplit, escape_append, escape_of_ordinary hordinary]
    exact atStart?_named hc htail (stops_escape hrest)

theorem atStart?_cons_escape {c : Char} {rest : List Char} (h : atStart? (c :: rest) = none) :
    atStart? (c :: Pattern.escape rest) = none := by
  cases rest with
  | nil => exact h
  | cons d rest =>
    by_cases hd : Pattern.isSpecial d = true
    · rw [escape_cons_of_isSpecial hd, atStart?_eq_none_iff]
      rintro ⟨-, hback | hback⟩
      · cases hback
      · cases hback
    · rw [escape_cons_of_not hd, atStart?_eq_none_iff]
      exact (atStart?_eq_none_iff c d rest).mp h

/-- The tokens of the escaped text: an escaped character is two characters. -/
def escaped : Token → List Token
  | .text c => (Pattern.escape [c]).map .text
  | .hole p => [.hole p]

theorem tokens_escape (cs : List Char) :
    tokens (Pattern.escape cs) = (tokens cs).flatMap escaped := by
  induction hn : cs.length using Nat.strongRecOn generalizing cs with
  | _ n ih =>
    cases hs : atStart? cs with
    | some found =>
      obtain ⟨p, rest⟩ := found
      have hlt := length_lt_of_atStart? hs
      rw [tokens_of_atStart? hs, tokens_of_atStart? (atStart?_escape hs),
        ih rest.length (hn ▸ hlt) rest rfl]
      rfl
    | none =>
      cases cs with
      | nil => simp [Pattern.escape]
      | cons c rest =>
        have hrest := ih rest.length (by simp [← hn]) rest rfl
        rw [tokens_cons_of_none hs, List.flatMap_cons, ← hrest]
        by_cases hc : Pattern.isSpecial c = true
        · rw [escape_cons_of_isSpecial hc, tokens_cons_of_none (atStart?_of_ne (by decide) _),
            tokens_cons_of_none (atStart?_of_ne (isNameChar_of_isSpecial hc).2 _)]
          simp [escaped, Pattern.escape, hc]
        · rw [escape_cons_of_not hc, tokens_cons_of_none (atStart?_cons_escape hs)]
          simp [escaped, Pattern.escape, hc]

theorem spelled_escaped (ts : List Token) : spelled (ts.flatMap escaped) = body ts := by
  induction ts with
  | nil => rfl
  | cons t ts ih =>
    rw [List.flatMap_cons, spelled_append, ih]
    cases t with
    | text c => simp [escaped, expression]
    | hole p => simp [escaped, expression]

/-- The path of a declaration is a literal text, and it has no other condition. -/
def IsLiteral (d : Declaration) : Prop :=
  ∀ e ∈ d.conditions, ∃ text, e = (.path, .literal text)

/-- The path fragment of a declaration; a declaration without one adds nothing. -/
def fragment (d : Declaration) : List Char :=
  match find? .path d.conditions with
  | some (.literal text) => text.toList
  | _ => []

theorem isLiteral_ofPath (text : String) : IsLiteral (.ofPath text) := fun _ he =>
  ⟨text, List.mem_singleton.mp he⟩

theorem fragment_ofPath (text : String) : fragment (.ofPath text) = text.toList := by
  simp [fragment, Declaration.ofPath, find?_cons]

def chainTokens (chain : List Declaration) : List Token :=
  chain.flatMap fun d => tokens (fragment d)

theorem chainTokens_cons (d : Declaration) (chain : List Declaration) :
    chainTokens (d :: chain) = tokens (fragment d) ++ chainTokens chain := rfl

theorem IsLiteral.conditions_eq {d : Declaration} (h : IsLiteral d) :
    d.conditions = [] ∨ ∃ text, d.conditions = [(.path, .literal text)] := by
  have hsorted := d.sorted
  rcases hc : d.conditions with _ | ⟨e, rest⟩
  · exact Or.inl rfl
  · obtain ⟨text, rfl⟩ := h e (by simp [hc])
    rw [hc] at hsorted
    cases rest with
    | nil => exact Or.inr ⟨text, rfl⟩
    | cons e' rest =>
      obtain ⟨text', rfl⟩ := h e' (by simp [hc])
      have hlt := (List.pairwise_cons.mp hsorted).1 _ List.mem_cons_self
      rw [Std.compare_self] at hlt
      cases hlt

theorem source_literal (text : String) :
    ((Pattern.literal text).source .path).toList = '^' :: (Pattern.escape text.toList ++ ['$']) := by
  simp [Pattern.source, Pattern.fold]

theorem escape_eq_nil_iff {cs : List Char} : Pattern.escape cs = [] ↔ cs = [] := by
  cases cs with
  | nil => simp [Pattern.escape]
  | cons c cs =>
    by_cases hc : Pattern.isSpecial c = true
    · simp [escape_cons_of_isSpecial hc]
    · simp [escape_cons_of_not hc]

theorem isEmptyPath_literal (text : String) :
    Level.isEmptyPath .path ((Pattern.literal text).source .path) = true ↔ text.toList = [] := by
  simp only [Level.isEmptyPath, beq_self_eq_true, Bool.true_and, Bool.or_eq_true, beq_iff_eq,
    ← String.toList_inj, source_literal]
  rw [← escape_eq_nil_iff]
  constructor
  · rintro (h | h)
    · cases h
    · have htail := (List.cons.inj h).2
      cases he : Pattern.escape text.toList with
      | nil => rfl
      | cons c cs =>
        rw [he] at htail
        simp at htail
  · intro h
    rw [h]
    exact Or.inr rfl

theorem tokens_source_literal (text : String) :
    tokens ((Pattern.literal text).source .path).toList =
      .text '^' :: ((tokens text.toList).flatMap escaped ++ [.text '$']) := by
  have hdollar : tokens ['$'] = [.text '$'] := by
    rw [tokens_cons_of_none (atStart?_singleton '$'), tokens_nil]
  rw [source_literal, tokens_cons_of_none (atStart?_of_ne (by decide) _),
    tokens_append (stops_cons (by decide) _) (by decide), tokens_escape, hdollar]

theorem condition_literal_source (text : String) :
    (Level.condition .path (.literal text)).source =
      '^' :: (body (tokens text.toList) ++ ['$']) := by
  change (substitute ((Pattern.literal text).source .path).toList).1 = _
  rw [substitute_eq, tokens_source_literal]
  simp [spelled_escaped]

theorem IsLiteral.level_conditions {d : Declaration} (h : IsLiteral d) :
    d.level.conditions =
      if fragment d = [] then []
      else [(.path, Level.condition .path (.literal (String.ofList (fragment d))))] := by
  rcases h.conditions_eq with hc | ⟨text, hc⟩
  · have hfragment : fragment d = [] := by simp [fragment, hc]
    rw [if_pos hfragment, Declaration.level, hc]
    rfl
  · have hfragment : fragment d = text.toList := by simp [fragment, hc, find?_cons]
    rw [hfragment, String.ofList_toList, Declaration.level, hc]
    change (Level.kept [(.path, .literal text)]).map _ = _
    split
    · rename_i htext
      have hempty := (isEmptyPath_literal text).mpr htext
      simp [Level.kept, hempty]
    · rename_i htext
      have hkeep : Level.isEmptyPath .path ((Pattern.literal text).source .path) = false :=
        Bool.eq_false_iff.mpr ((isEmptyPath_literal text).not.mpr htext)
      simp [Level.kept, hkeep]

theorem joinFragments_anchored (a b : List Char) :
    Scope.joinFragments ('^' :: (a ++ ['$'])) ('^' :: (b ++ ['$'])) =
      '^' :: (a ++ b ++ ['$']) := by
  have hlast : ('^' :: a ++ ['$']).getLast? = some '$' := List.getLast?_concat
  have hdrop : ('^' :: a ++ ['$']).dropLast = '^' :: a := List.dropLast_concat
  rw [Scope.joinFragments, ← List.cons_append, if_pos hlast, hdrop]
  simp

def mergeLevel (merged : Entries Field (List Char)) (l : Level) : Entries Field (List Char) :=
  l.conditions.foldl (fun merged e => Scope.mergeCondition merged e.1 e.2.source) merged

theorem sources_eq (s : Scope) : s.sources = s.foldl mergeLevel [] := rfl

theorem mergeLevel_empty {d : Declaration} (h : IsLiteral d) (hd : fragment d = [])
    (merged : Entries Field (List Char)) : mergeLevel merged d.level = merged := by
  rw [mergeLevel, h.level_conditions, if_pos hd]
  rfl

theorem mergeLevel_nil {d : Declaration} (h : IsLiteral d) (hd : fragment d ≠ []) :
    mergeLevel [] d.level = [(.path, '^' :: (body (tokens (fragment d)) ++ ['$']))] := by
  rw [mergeLevel, h.level_conditions, if_neg hd, List.foldl_cons, List.foldl_nil,
    condition_literal_source, String.toList_ofList]
  rfl

theorem mergeLevel_path {d : Declaration} (h : IsLiteral d) (done : List Token) :
    mergeLevel [(.path, '^' :: (body done ++ ['$']))] d.level =
      [(.path, '^' :: (body (done ++ tokens (fragment d)) ++ ['$']))] := by
  by_cases hd : fragment d = []
  · rw [mergeLevel_empty h hd, hd, tokens_nil, List.append_nil]
  · rw [mergeLevel, h.level_conditions, if_neg hd, List.foldl_cons, List.foldl_nil,
      condition_literal_source, String.toList_ofList, body_append, ← joinFragments_anchored]
    rfl

theorem foldl_mergeLevel {chain : List Declaration} (h : ∀ d ∈ chain, IsLiteral d)
    (done : List Token) :
    (Scope.ofChain chain).foldl mergeLevel [(.path, '^' :: (body done ++ ['$']))] =
      [(.path, '^' :: (body (done ++ chainTokens chain) ++ ['$']))] := by
  induction chain generalizing done with
  | nil => simp [Scope.ofChain, chainTokens]
  | cons d chain ih =>
    obtain ⟨hd, hchain⟩ := List.forall_mem_cons.mp h
    change (Scope.ofChain chain).foldl mergeLevel (mergeLevel _ d.level) = _
    rw [mergeLevel_path hd, ih hchain, chainTokens_cons, List.append_assoc]

theorem sources_literal {chain : List Declaration} (h : ∀ d ∈ chain, IsLiteral d)
    (hne : ∃ d ∈ chain, fragment d ≠ []) :
    (Scope.ofChain chain).sources = [(.path, '^' :: (body (chainTokens chain) ++ ['$']))] := by
  rw [sources_eq]
  induction chain with
  | nil => simp at hne
  | cons d chain ih =>
    obtain ⟨hd, hchain⟩ := List.forall_mem_cons.mp h
    change (Scope.ofChain chain).foldl mergeLevel (mergeLevel [] d.level) = _
    rw [chainTokens_cons]
    by_cases hfragment : fragment d = []
    · have hrest : ∃ d' ∈ chain, fragment d' ≠ [] := by
        obtain ⟨d', hd', hne⟩ := hne
        rcases List.mem_cons.mp hd' with rfl | hd'
        · exact absurd hfragment hne
        · exact ⟨d', hd', hne⟩
      rw [mergeLevel_empty hd hfragment, ih hchain hrest, hfragment, tokens_nil, List.nil_append]
    · rw [mergeLevel_nil hd hfragment, foldl_mergeLevel hchain]

end Template

end Signpost
