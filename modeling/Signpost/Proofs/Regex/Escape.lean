import Mathlib.Data.List.TakeDrop
import Signpost.Proofs.Regex.Extent

/-! # The extent of an escape

Digits, braces and names after a backslash end before a closing text begins.
-/
namespace Signpost.Regex
open Unicode

theorem hexDigits_extends (v : Bool) (count value : Nat) :
    Extends v (hexDigits v count value) (hexDigits v count value) := by
  induction count generalizing value with
  | zero => exact .done value
  | succ count ih =>
    intro cs x rest h
    cases cs with
    | nil => cases h
    | cons c cs =>
      simp only [hexDigits] at h
      cases hd : hexValue? c with
      | none =>
        rw [hd] at h
        cases h
      | some d =>
        rw [hd] at h
        obtain ⟨hsuffix, happend⟩ := (ih _).skipBlank.after c h
        refine ⟨hsuffix, fun more hmore hne => ?_⟩
        simp only [List.cons_append, hexDigits, hd]
        exact happend more hmore hne

theorem hexBrace_extends (v : Bool) {fuel : Nat} (fuel' : Nat) (hfuel : fuel ≤ fuel') (value : Nat) :
    Extends v (hexBrace v fuel value) (hexBrace v fuel' value) := by
  induction fuel generalizing fuel' value with
  | zero =>
    intro cs x rest h
    cases h
  | succ fuel ih =>
    obtain ⟨fuel', rfl⟩ : ∃ n, fuel' = n + 1 := ⟨fuel' - 1, by omega⟩
    intro cs x rest h
    cases cs with
    | nil => cases h
    | cons c cs =>
      by_cases hc : c = '\x7d'
      · subst hc
        exact (Extends.done value).skipBlank.after '\x7d' h
      · simp only [hexBrace] at h
        cases hd : hexValue? c with
        | none =>
          rw [hd] at h
          cases h
        | some d =>
          rw [hd] at h
          obtain ⟨hsuffix, happend⟩ := (ih fuel' (Nat.le_of_succ_le_succ hfuel) _).skipBlank.after c h
          refine ⟨hsuffix, fun more hmore hne => ?_⟩
          simp only [List.cons_append, hexBrace, hd]
          exact happend more hmore hne

theorem head?_append_of_ne_nil {cs : List Char} (h : cs ≠ []) (more : List Char) :
    (cs ++ more).head? = cs.head? := by
  cases cs with
  | nil => exact absurd rfl h
  | cons c cs => rfl

/-- Blanks before a text that goes on are skipped in a longer text too. -/
theorem skipBlank_append_of_cons {v : Bool} {c : Char} {cs tail : List Char}
    (h : skipBlank v cs = c :: tail) (more : List Char) :
    skipBlank v (cs ++ more) = c :: (tail ++ more) := by
  rw [skipBlank_append (fun _ => by rw [h]; exact List.cons_ne_nil c tail), h]
  rfl

theorem suffix_of_skipBlank_eq {v : Bool} {c : Char} {cs tail : List Char}
    (h : skipBlank v cs = c :: tail) : tail <:+ cs :=
  (List.suffix_cons c tail).trans (h ▸ skipBlank_suffix v cs)

def ofCodePoint (f : Flags) (count n : Nat) : Except Error Primitive :=
  match charOf? n with
  | some c =>
    if count = 2 && 0x80 ≤ n && !f.unicode then .ok (.unit c) else .ok (.literal c)
  | none => .error .invalidEscape

theorem hexEscape_of_digits {f : Flags} {cs : List Char} (count : Nat)
    (h : ∀ tail, skipBlank f.verbose cs ≠ '\x7b' :: tail) :
    hexEscape f count cs = hexDigits f.verbose count 0 (skipBlank f.verbose cs) >>= fun p =>
      (ofCodePoint f count p.1).map (·, p.2) := by
  unfold hexEscape
  split
  · rename_i tail heq
    exact absurd heq (h tail)
  · refine bind_congr fun p => ?_
    unfold ofCodePoint
    dsimp only
    cases charOf? p.1 with
    | none => rfl
    | some c =>
      dsimp only
      split <;> rfl

theorem hexEscape_of_brace {f : Flags} {cs tail : List Char} (count : Nat)
    (h : skipBlank f.verbose cs = '\x7b' :: tail) :
    hexEscape f count cs =
      if (skipBlank f.verbose tail).head? = some '\x7d' then .error .invalidEscape
      else hexBrace f.verbose ((skipBlank f.verbose tail).length + 1) 0
        (skipBlank f.verbose tail) >>= fun p => (ofCodePoint f 0 p.1).map (·, p.2) := by
  unfold hexEscape
  simp only [h]
  split
  · rfl
  · refine bind_congr fun p => ?_
    unfold ofCodePoint
    cases charOf? p.1 <;> rfl

theorem hexEscape_extends (f : Flags) (count : Nat) :
    Extends f.verbose (hexEscape f (count + 1)) (hexEscape f (count + 1)) := by
  intro cs x rest h
  cases hskip : skipBlank f.verbose cs with
  | nil =>
    rw [hexEscape_of_digits _ (by simp [hskip]), hskip] at h
    cases h
  | cons c tail =>
    have hskip' := skipBlank_append_of_cons hskip
    by_cases hc : c = '\x7b'
    · subst hc
      rw [hexEscape_of_brace _ hskip] at h
      split at h
      · cases h
      · rename_i hhead
        have hdigits : skipBlank f.verbose tail ≠ [] := by
          intro hnil
          rw [hnil] at h
          cases h
        have hread := fun fuel (hfuel : (skipBlank f.verbose tail).length + 1 ≤ fuel) =>
          (hexBrace_extends f.verbose fuel hfuel 0).map (ofCodePoint f 0) _ x rest h
        refine ⟨((hread _ (Nat.le_refl _)).1.trans (skipBlank_suffix _ tail)).trans
          (suffix_of_skipBlank_eq hskip), fun more hmore hne => ?_⟩
        rw [hexEscape_of_brace _ (hskip' more),
          skipBlank_append fun _ => hdigits, head?_append_of_ne_nil hdigits, if_neg hhead]
        exact (hread _ (by simp)).2 more hmore hne
    · rw [hexEscape_of_digits _ (by simp [hskip, hc]), hskip] at h
      obtain ⟨hsuffix, happend⟩ :=
        (hexDigits_extends f.verbose (count + 1) 0).map (ofCodePoint f (count + 1)) _ x rest h
      refine ⟨hsuffix.trans (hskip ▸ skipBlank_suffix _ cs), fun more hmore hne => ?_⟩
      rw [hexEscape_of_digits _ (by simp [hskip', hc]), hskip']
      exact happend more hmore hne

theorem span_append {p : Char → Bool} {cs after : List Char} {d : Char}
    (h : (cs.span p).2 = d :: after) (more : List Char) :
    (cs ++ more).span p = ((cs.span p).1, d :: (after ++ more)) := by
  simp only [List.span_eq_takeWhile_dropWhile] at h ⊢
  induction cs with
  | nil => cases h
  | cons c cs ih =>
    rw [List.cons_append]
    by_cases hc : p c = true
    · rw [List.dropWhile_cons_of_pos hc] at h
      have htail := ih h
      rw [Prod.mk.injEq] at htail
      rw [List.takeWhile_cons_of_pos hc, List.dropWhile_cons_of_pos hc,
        List.takeWhile_cons_of_pos hc, htail.1, htail.2]
    · rw [List.dropWhile_cons_of_neg hc] at h
      cases h
      rw [List.takeWhile_cons_of_neg hc, List.dropWhile_cons_of_neg hc,
        List.takeWhile_cons_of_neg hc]

theorem suffix_of_span {p : Char → Bool} {cs after : List Char} {d : Char}
    (h : (cs.span p).2 = d :: after) : after <:+ cs := by
  rw [List.span_eq_takeWhile_dropWhile] at h
  exact (List.suffix_cons d after).trans (h ▸ List.dropWhile_suffix p)

theorem boundaryName_extends (v : Bool) {fuel : Nat} (fuel' : Nat) (hfuel : fuel ≤ fuel')
    (name : List Char) :
    Extends v (boundaryName v fuel name) (boundaryName v fuel' name) := by
  induction fuel generalizing fuel' name with
  | zero =>
    intro cs x rest h
    cases h
  | succ fuel ih =>
    obtain ⟨fuel', rfl⟩ : ∃ n, fuel' = n + 1 := ⟨fuel' - 1, by omega⟩
    intro cs x rest h
    cases cs with
    | nil => cases h
    | cons c cs =>
      by_cases hc : c = '\x7d'
      · subst hc
        exact (Extends.done name.reverse).after '\x7d' h
      · simp only [boundaryName] at h
        split at h
        · rename_i hletter
          obtain ⟨hsuffix, happend⟩ :=
            (ih fuel' (Nat.le_of_succ_le_succ hfuel) _).skipBlank.after c h
          refine ⟨hsuffix, fun more hmore hne => ?_⟩
          simp only [List.cons_append, boundaryName, if_pos hletter]
          exact happend more hmore hne
        · cases h

theorem boundaryEscape_of_ne (f : Flags) {cs : List Char} (h : cs.head? ≠ some '\x7b') :
    boundaryEscape f cs = .ok (wordLook f .edge, cs) := by
  unfold boundaryEscape
  split
  · exact absurd rfl h
  · rfl

theorem Closes.head?_append {more : List Char} (h : Closes more) {c : Char}
    (hc : c ∉ ['$', '/']) {cs : List Char} (hcs : cs.head? ≠ some c) :
    (cs ++ more).head? ≠ some c := by
  cases cs with
  | cons d cs => exact hcs
  | nil =>
    obtain ⟨d, hd, hmore⟩ := h
    rw [List.nil_append, hmore]
    rintro ⟨⟩
    exact hc hd

theorem boundaryEscape_extends (f : Flags) :
    Extends f.verbose (boundaryEscape f) (boundaryEscape f) := by
  intro cs x rest h
  by_cases hbrace : cs.head? = some '\x7b'
  · obtain ⟨tail, rfl⟩ := List.head?_eq_some_iff.mp hbrace
    simp only [boundaryEscape] at h
    split at h
    · cases h
    · rename_i c rest' hskip
      have hskip' := skipBlank_append_of_cons hskip
      split at h
      · rename_i hletter
        obtain ⟨⟨name, after⟩, hname, h⟩ := exists_of_bind_eq_ok h
        have hread := fun fuel (hfuel : rest'.length + 2 ≤ fuel) =>
          boundaryName_extends f.verbose fuel hfuel [] _ name after hname
        dsimp only at h
        cases hposition : namedBoundary? name with
        | none =>
          rw [hposition] at h
          cases h
        | some position =>
          rw [hposition] at h
          cases h
          refine ⟨((hread _ (Nat.le_refl _)).1.trans ?_).trans (List.suffix_cons _ tail),
            fun more hmore hne => ?_⟩
          · exact hskip ▸ skipBlank_suffix _ tail
          · have hlong := (hread ((rest' ++ more).length + 2) (by simp)).2 more hmore hne
            simp only [List.cons_append] at hlong
            simp only [boundaryEscape, List.cons_append, hskip', if_pos hletter, hlong, bind,
              Except.bind, hposition]
            rfl
      · rename_i hletter
        cases h
        refine ⟨List.suffix_rfl, fun more hmore hne => ?_⟩
        simp only [boundaryEscape, List.cons_append, hskip', if_neg hletter]
        rfl
  · rw [boundaryEscape_of_ne f hbrace] at h
    cases h
    refine ⟨List.suffix_rfl, fun more hmore hne => ?_⟩
    exact boundaryEscape_of_ne f (hmore.head?_append (by decide) hbrace)

def ofProperty (f : Flags) (negated : Bool) (name : List Char) : Except Error Primitive :=
  if !f.unicode then .error .beyondAscii
  else match propertySet? name with
    | some s => .ok (.set (closeSet f negated s))
    | none => .error .unknownProperty

theorem propertyEscape_of_brace {f : Flags} {cs tail after : List Char} {d : Char} (negated : Bool)
    (h : skipBlank f.verbose cs = '\x7b' :: tail)
    (hspan : (tail.span (· != '\x7d')).2 = d :: after) :
    propertyEscape f negated cs =
      (ofProperty f negated (if f.verbose then
        (tail.span (· != '\x7d')).1.filter (!isWhiteSpace ·) else (tail.span (· != '\x7d')).1)).map
        (·, after) := by
  unfold propertyEscape ofProperty
  simp only [h, hspan]
  split
  · rfl
  · generalize propertySet? _ = found
    cases found <;> rfl

theorem propertyEscape_of_char {f : Flags} {cs tail : List Char} {c : Char} (negated : Bool)
    (h : skipBlank f.verbose cs = c :: tail) (hc : c ∉ ['\x7b', '\\']) :
    propertyEscape f negated cs =
      (ofProperty f negated [c]).map (·, skipBlank f.verbose tail) := by
  rw [List.mem_cons, List.mem_singleton, not_or] at hc
  obtain ⟨hbrace, hslash⟩ := hc
  unfold propertyEscape ofProperty
  simp only [h]
  split
  · rfl
  · generalize propertySet? _ = found
    cases found <;> rfl

theorem propertyEscape_extends (f : Flags) (negated : Bool) :
    Extends f.verbose (propertyEscape f negated) (propertyEscape f negated) := by
  intro cs x rest h
  cases hskip : skipBlank f.verbose cs with
  | nil =>
    simp only [propertyEscape, hskip] at h
    cases h
  | cons c tail =>
    have hskip' := skipBlank_append_of_cons hskip
    by_cases hbrace : c = '\x7b'
    · subst hbrace
      cases hspan : (tail.span (· != '\x7d')).2 with
      | nil =>
        simp only [propertyEscape, hskip, hspan] at h
        cases h
      | cons d after =>
        rw [propertyEscape_of_brace negated hskip hspan] at h
        obtain ⟨p, hp, heq⟩ := exists_of_map_eq_ok h
        cases heq
        refine ⟨(suffix_of_span hspan).trans (suffix_of_skipBlank_eq hskip),
          fun more hmore hne => ?_⟩
        have hlong := span_append hspan more
        rw [propertyEscape_of_brace negated (hskip' more) (congrArg Prod.snd hlong),
          congrArg Prod.fst hlong, hp]
        rfl
    · by_cases hslash : c = '\\'
      · subst hslash
        simp only [propertyEscape, hskip] at h
        cases h
      · have hc : c ∉ ['\x7b', '\\'] := by simp [hbrace, hslash]
        rw [propertyEscape_of_char negated hskip hc] at h
        obtain ⟨p, hp, heq⟩ := exists_of_map_eq_ok h
        cases heq
        obtain ⟨hsuffix, happend⟩ := (Extends.done x).skipBlank (v := f.verbose) tail x _ rfl
        refine ⟨hsuffix.trans (suffix_of_skipBlank_eq hskip), fun more hmore hne => ?_⟩
        rw [propertyEscape_of_char negated (hskip' more) hc, hp]
        exact happend more hmore hne

theorem escape_extends (f : Flags) : Extends f.verbose (escape f) (escape f) := by
  intro cs x rest h
  cases cs with
  | nil => cases h
  | cons c cs =>
    simp only [escape] at h
    split at h
    · cases h
    · rename_i hdigit
      split at h
      case h_1 => exact (hexEscape_extends f 1).after 'x' h
      case h_2 => exact (hexEscape_extends f 3).after 'u' h
      case h_3 => exact (hexEscape_extends f 7).after 'U' h
      case h_4 => exact (propertyEscape_extends f false).after 'p' h
      case h_5 => exact (propertyEscape_extends f true).after 'P' h
      case h_20 => exact (boundaryEscape_extends f).after 'b' h
      case h_24 =>
        split at h
        · rename_i hescapable
          cases h
          refine ⟨List.suffix_cons c rest, fun more _ _ => ?_⟩
          simp only [List.cons_append, escape, if_neg hdigit, if_pos hescapable]
        · cases h
      all_goals
        cases h
        exact ⟨List.suffix_cons _ rest, fun more _ _ => rfl⟩

end Signpost.Regex
