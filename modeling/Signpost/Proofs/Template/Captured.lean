import Signpost.Proofs.Scope.Captures
import Signpost.Proofs.Template.Segments

/-! # Groups of literal paths

Without parentheses of their own, literal fragments have one group for each placeholder. A name is
then listed with the number of a placeholder of that name among the tokens of the whole path.
-/
namespace Signpost.Template
open Entries Placeholder Scope

@[simp] theorem holes_text (c : Char) (ts : List Token) : holes (.text c :: ts) = holes ts := by
  simp [holes]

@[simp] theorem holes_hole (p : Placeholder) (ts : List Token) :
    holes (.hole p :: ts) = holes ts + 1 := by
  simp [holes]

theorem holes_append (ts us : List Token) : holes (ts ++ us) = holes ts + holes us :=
  List.countP_append

theorem mem_of_text_mem_tokens {c : Char} {cs : List Char} (h : .text c ∈ tokens cs) : c ∈ cs := by
  have hmem : c ∈ (tokens cs).flatMap written :=
    List.mem_flatMap.mpr ⟨_, h, List.mem_singleton_self c⟩
  rwa [flatMap_written_tokens] at hmem

theorem countGroups_escape {c : Char} (h : c ≠ '(') : countGroups (Pattern.escape [c]) = 0 := by
  by_cases hc : Pattern.isSpecial c = true
  · rw [escape_cons_of_isSpecial hc]
    exact List.count_eq_zero.mpr (by simp [Pattern.escape, Ne.symm h])
  · rw [escape_cons_of_not hc]
    exact List.count_eq_zero.mpr (by simp [Pattern.escape, Ne.symm h])

theorem countGroups_body {ts : List Token} (h : .text '(' ∉ ts) :
    countGroups (body ts) = holes ts := by
  induction ts with
  | nil => rfl
  | cons t ts ih =>
    rw [List.mem_cons, not_or] at h
    rw [body_cons, countGroups_append, ih h.2]
    cases t with
    | text c =>
      have hc : c ≠ '(' := fun hc => h.1 (congrArg Token.text hc).symm
      rw [expression, countGroups_escape hc, holes_text, Nat.zero_add]
    | hole p =>
      rw [expression, countGroups_capture, holes_hole, Nat.add_comm]

theorem length_names {ts : List Token} (h : .hole .anonymous ∉ ts) :
    (names ts).length = holes ts := by
  induction ts with
  | nil => rfl
  | cons t ts ih =>
    rw [List.mem_cons, not_or] at h
    cases t with
    | text c =>
      rw [holes_text, ← ih h.2]
      rfl
    | hole p =>
      cases p with
      | anonymous => exact absurd rfl h.1
      | named name =>
        rw [holes_hole, ← ih h.2]
        rfl

theorem Fits.isSegment {ts : List Token} {values : List (List Char)} {cs : List Char}
    (h : Fits ts values cs) : ∀ value ∈ values, IsSegment value := by
  induction h with
  | nil => exact fun _ hvalue => nomatch hvalue
  | text c h ih => exact ih
  | hole p hne hvalue h ih => exact List.forall_mem_cons.mpr ⟨⟨hne, hvalue⟩, ih⟩

theorem Fits.length_le {ts : List Token} {values : List (List Char)} {cs : List Char}
    (h : Fits ts values cs) : ts.length ≤ cs.length := by
  induction h with
  | nil => exact Nat.le_refl 0
  | text c h ih => exact Nat.succ_le_succ ih
  | hole p hne hvalue h ih =>
    have hpos := List.length_pos_of_ne_nil hne
    rw [List.length_cons, List.length_append]
    omega

theorem Fits.length_eq {ts : List Token} {values : List (List Char)} {cs : List Char}
    (h : Fits ts values cs) (hanonymous : .hole .anonymous ∉ ts) :
    values.length = (names ts).length := by
  have hholes : values.length = holes ts := by
    clear hanonymous
    induction h with
    | nil => rfl
    | text c h ih => rw [holes_text, ih]
    | hole p hne hvalue h ih => rw [holes_hole, List.length_cons, ih]
  rw [length_names hanonymous, hholes]

theorem pathGroups_level {d : Declaration} (h : IsLiteral d) (hgroup : '(' ∉ fragment d) :
    d.level.pathGroups = holes (tokens (fragment d)) := by
  have hbody : countGroups (body (tokens (fragment d))) = holes (tokens (fragment d)) :=
    countGroups_body fun hmem => hgroup (mem_of_text_mem_tokens hmem)
  rw [Level.pathGroups, h.level_conditions]
  by_cases hempty : fragment d = []
  · rw [if_pos hempty, hempty, tokens_nil]
    rfl
  · rw [if_neg hempty, find?_cons, if_pos rfl]
    simp only [condition_literal_source, String.toList_ofList]
    rw [← hbody, countGroups, List.count_cons, List.count_append]
    rfl

theorem groups_ofChain {chain : List Declaration} (h : ∀ d ∈ chain, IsLiteral d)
    (hgroup : ∀ d ∈ chain, '(' ∉ fragment d) :
    groups (ofChain chain) = holes (chainTokens chain) := by
  induction chain with
  | nil => rfl
  | cons d chain ih =>
    obtain ⟨hd, hchain⟩ := List.forall_mem_cons.mp h
    obtain ⟨hdgroup, hcgroup⟩ := List.forall_mem_cons.mp hgroup
    have htail := ih hchain hcgroup
    rw [chainTokens_cons, holes_append, ← pathGroups_level hd hdgroup, ← htail]
    rfl

/-- A placeholder among the tokens of an escaped text is one among the tokens of the text. -/
theorem exists_of_map_text_append {p : Placeholder} {cs : List Char}
    {rest front back : List Token} (h : cs.map Token.text ++ rest = front ++ .hole p :: back) :
    ∃ front', front = cs.map .text ++ front' ∧ rest = front' ++ .hole p :: back := by
  induction cs generalizing front with
  | nil => exact ⟨front, rfl, h⟩
  | cons c cs ih =>
    cases front with
    | nil => cases h
    | cons t front =>
      obtain ⟨rfl, htail⟩ := List.cons.inj h
      obtain ⟨front', rfl, hrest⟩ := ih htail
      exact ⟨front', rfl, hrest⟩

theorem exists_of_escaped_append {p : Placeholder} {ts front back : List Token} (cs : List Char)
    (h : ts.flatMap escaped ++ cs.map Token.text = front ++ .hole p :: back) :
    ∃ front' back', ts = front' ++ .hole p :: back' ∧ front = front'.flatMap escaped := by
  induction ts generalizing front with
  | nil =>
    have hmem : Token.hole p ∈ cs.map Token.text := by
      rw [List.flatMap_nil, List.nil_append] at h
      simp [h]
    simp at hmem
  | cons t ts ih =>
    rw [List.flatMap_cons, List.append_assoc] at h
    cases t with
    | text c =>
      obtain ⟨front', rfl, hrest⟩ := exists_of_map_text_append h
      obtain ⟨f, b, rfl, rfl⟩ := ih hrest
      exact ⟨.text c :: f, b, rfl, rfl⟩
    | hole q =>
      cases front with
      | nil =>
        obtain ⟨hq, -⟩ := List.cons.inj h
        cases hq
        exact ⟨[], ts, rfl, rfl⟩
      | cons t front =>
        obtain ⟨rfl, htail⟩ := List.cons.inj h
        obtain ⟨f, b, rfl, rfl⟩ := ih htail
        exact ⟨.hole q :: f, b, rfl, rfl⟩

theorem exists_of_source_append {text : String} {p : Placeholder} {front back : List Token}
    (h : tokens ((Pattern.literal text).source .path).toList = front ++ .hole p :: back) :
    ∃ front' back', tokens text.toList = front' ++ .hole p :: back' ∧
      spelled front = '^' :: body front' := by
  rw [tokens_source_literal] at h
  cases front with
  | nil => cases h
  | cons t front =>
    obtain ⟨rfl, htail⟩ := List.cons.inj h
    obtain ⟨front', back', htokens, rfl⟩ := exists_of_escaped_append ['$'] htail
    exact ⟨front', back', htokens, by rw [spelled_cons, spelled_escaped]; rfl⟩

theorem hole_mem_flatMap_escaped {p : Placeholder} {ts : List Token} :
    .hole p ∈ ts.flatMap escaped ↔ .hole p ∈ ts := by
  induction ts with
  | nil => rfl
  | cons t ts ih =>
    rw [List.flatMap_cons, List.mem_append, List.mem_cons, ih]
    cases t with
    | text c => simp [escaped]
    | hole q => simp [escaped]

theorem declares_iff {d : Declaration} (h : IsLiteral d) {name : String} :
    d.Declares name ↔ .hole (.named name.toList) ∈ tokens (fragment d) := by
  rcases h.conditions_eq with hc | ⟨text, hc⟩
  · simp [Declaration.Declares, fragment, hc]
  · have hfragment : fragment d = text.toList := by simp [fragment, hc, find?_cons]
    rw [hfragment, ← hole_mem_flatMap_escaped]
    simp [Declaration.Declares, hc, tokens_source_literal]

theorem mem_names_iff {ts : List Token} {name : String} :
    name ∈ names ts ↔ .hole (.named name.toList) ∈ ts := by
  simp only [names, List.mem_filterMap]
  constructor
  · rintro ⟨t, ht, heq⟩
    split at heq
    · cases heq
      rwa [String.toList_ofList]
    · cases heq
  · intro h
    exact ⟨_, h, by simp⟩

theorem mem_names_chainTokens_iff {chain : List Declaration} (h : ∀ d ∈ chain, IsLiteral d)
    {name : String} : name ∈ names (chainTokens chain) ↔ ∃ d ∈ chain, d.Declares name := by
  rw [mem_names_iff, chainTokens, List.mem_flatMap]
  constructor
  · rintro ⟨d, hd, hname⟩
    exact ⟨d, hd, (declares_iff (h d hd)).mpr hname⟩
  · rintro ⟨d, hd, hname⟩
    exact ⟨d, hd, (declares_iff (h d hd)).mp hname⟩

/-- A name of a literal path is listed with the group of one of its placeholders. -/
theorem exists_group {chain : List Declaration} (h : ∀ d ∈ chain, IsLiteral d)
    (hgroup : ∀ d ∈ chain, '(' ∉ fragment d) (hanonymous : .hole .anonymous ∉ chainTokens chain)
    {name : String} (hname : name ∈ names (chainTokens chain)) :
    ∃ k, find? name (ofChain chain).placeholders = some (.path, k + 1) ∧
      (names (chainTokens chain))[k]? = some name := by
  obtain ⟨e, he, hdeclares⟩ := (mem_names_chainTokens_iff h).mp hname
  obtain ⟨⟨field, group⟩, hplace⟩ := exists_placeholder_of_declares he hdeclares
  have hfield : field = .path := by
    refine field_eq_path (fun d hd e' he' => ?_) hplace
    obtain ⟨text, rfl⟩ := h d hd e' he'
    rfl
  subst hfield
  obtain ⟨outer, d, inner, p, front, back, rfl, -, hp, htokens, -, rfl⟩ :=
    exists_token_of_placeholder hplace
  obtain ⟨text, hp'⟩ := h d (by simp) _ (mem_of_find? (Level.find?_of_kept d.sorted hp))
  cases hp'
  have hfragment : fragment d = text.toList := by
    rw [fragment, Level.find?_of_kept d.sorted hp]
  obtain ⟨front', back', htext, hspelled⟩ := exists_of_source_append htokens
  rw [← hfragment] at htext
  have houter : groups (ofChain outer) = holes (chainTokens outer) :=
    groups_ofChain (fun d' hd' => h d' (List.mem_append_left _ hd'))
      fun d' hd' => hgroup d' (List.mem_append_left _ hd')
  have hfront : countGroups (spelled front) = holes front' := by
    have hparen : .text '(' ∉ front' := fun hmem =>
      hgroup d (by simp) (mem_of_text_mem_tokens (by rw [htext]; exact List.mem_append_left _ hmem))
    rw [hspelled, ← countGroups_body hparen]
    simp [countGroups]
  have hsplit : chainTokens (outer ++ d :: inner) = (chainTokens outer ++ front') ++
      .hole (.named name.toList) :: (back' ++ chainTokens inner) := by
    rw [chainTokens, List.flatMap_append, List.flatMap_cons, htext]
    simp [chainTokens]
  refine ⟨holes (chainTokens outer ++ front'), ?_, ?_⟩
  · rw [hplace, houter, hfront, holes_append]
  · rw [hsplit] at hanonymous ⊢
    rw [List.mem_append, not_or] at hanonymous
    rw [names_append, List.getElem?_append_right (by rw [length_names hanonymous.1]),
      length_names hanonymous.1, Nat.sub_self]
    simp [names]

end Signpost.Template
