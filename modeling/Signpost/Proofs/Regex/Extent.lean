import Mathlib.Data.List.TakeWhile
import Signpost.Proofs.Result
import Signpost.Regex.Parser

/-! # The extent of an element

A reader takes a part from the start of a text. It takes the same part from a longer text if what
follows begins with an anchor or a slash, which no element goes on into.
-/
namespace Signpost.Regex
open Unicode

/-- A text that no element of a pattern goes on into, since it begins with an anchor or a slash. -/
def Closes (more : List Char) : Prop := ∃ c ∈ ['$', '/'], more.head? = some c

/-- What a reader takes at the start of a text is a part of it, and the same part is taken when a
closing text is put behind. In verbose mode something has to be left, since a comment goes on to
the end of the text. -/
def Extends {α : Type} (verbose : Bool) (f g : List Char → Except Error (α × List Char)) : Prop :=
  ∀ cs x rest, f cs = .ok (x, rest) →
    rest <:+ cs ∧
      ∀ more, Closes more → (verbose = true → rest ≠ []) → g (cs ++ more) = .ok (x, rest ++ more)

theorem afterLine_suffix (cs : List Char) : afterLine cs <:+ cs :=
  (List.drop_suffix 1 _).trans (List.dropWhile_suffix _)

theorem afterLine_append {cs : List Char} (h : '\n' ∈ cs) (more : List Char) :
    afterLine (cs ++ more) = afterLine cs ++ more := by
  induction cs with
  | nil => cases h
  | cons c cs ih =>
    by_cases hc : c = '\n'
    · simp [afterLine, hc]
    · have hcs : '\n' ∈ cs := (List.mem_cons.mp h).resolve_left (Ne.symm hc)
      have htail := ih hcs
      simp only [afterLine] at htail ⊢
      simp [hc, htail]

theorem afterLine_eq_nil {cs : List Char} (h : '\n' ∉ cs) : afterLine cs = [] := by
  have hall : cs.dropWhile (· != '\n') = [] := by
    refine List.dropWhile_eq_nil_iff.mpr fun c hc => ?_
    have hne : c ≠ '\n' := fun heq => h (heq ▸ hc)
    simpa using hne
  simp [afterLine, hall]

theorem skipBlank_go_cons {c : Char} (hc : c ≠ '#') (fuel : Nat) (cs : List Char) :
    skipBlank.go (fuel + 1) (c :: cs) =
      if isWhiteSpace c then skipBlank.go fuel cs else c :: cs := by
  rw [skipBlank.go]
  exact fun h => hc h

theorem skipBlank_go {fuel : Nat} {cs : List Char} (h : cs.length ≤ fuel) :
    skipBlank.go fuel cs = skipBlank.go cs.length cs := by
  induction hn : cs.length using Nat.strongRecOn generalizing cs fuel with
  | _ n ih =>
    subst hn
    cases cs with
    | nil => cases fuel <;> rfl
    | cons c cs =>
      cases fuel with
      | zero => cases h
      | succ fuel =>
        rw [List.length_cons] at h ⊢
        by_cases hc : c = '#'
        · subst hc
          have hle := (afterLine_suffix cs).length_le
          have hlt : (afterLine cs).length < ('#' :: cs).length := Nat.lt_succ_of_le hle
          change skipBlank.go fuel (afterLine cs) = skipBlank.go cs.length (afterLine cs)
          rw [ih _ hlt (by omega) rfl, ih _ hlt hle rfl]
        · rw [skipBlank_go_cons hc, skipBlank_go_cons hc,
            ih cs.length (Nat.lt_succ_self _) (Nat.le_of_succ_le_succ h) rfl]

@[simp] theorem skipBlank_nil (v : Bool) : skipBlank v [] = [] := by
  cases v <;> rfl

theorem skipBlank_hash (cs : List Char) :
    skipBlank true ('#' :: cs) = skipBlank true (afterLine cs) :=
  skipBlank_go (afterLine_suffix cs).length_le

theorem skipBlank_cons {c : Char} (hc : c ≠ '#') (cs : List Char) :
    skipBlank true (c :: cs) = if isWhiteSpace c then skipBlank true cs else c :: cs :=
  skipBlank_go_cons hc cs.length cs

theorem skipBlank_of_mark {c : Char} (hc : c ≠ '#') (hblank : isWhiteSpace c = false) (v : Bool)
    (cs : List Char) : skipBlank v (c :: cs) = c :: cs := by
  cases v with
  | false => rfl
  | true => rw [skipBlank_cons hc, hblank, if_neg Bool.false_ne_true]

theorem skipBlank_suffix (v : Bool) (cs : List Char) : skipBlank v cs <:+ cs := by
  cases v with
  | false => exact List.suffix_rfl
  | true =>
    induction hn : cs.length using Nat.strongRecOn generalizing cs with
    | _ n ih =>
      subst hn
      cases cs with
      | nil => exact List.suffix_rfl
      | cons c cs =>
        by_cases hc : c = '#'
        · subst hc
          rw [skipBlank_hash]
          have hline := afterLine_suffix cs
          have hrest := ih _ (Nat.lt_succ_of_le hline.length_le) (afterLine cs) rfl
          exact (hrest.trans hline).trans (List.suffix_cons '#' cs)
        · rw [skipBlank_cons hc]
          split
          · exact (ih _ (Nat.lt_succ_self _) cs rfl).trans (List.suffix_cons c cs)
          · exact List.suffix_rfl

theorem skipBlank_append {v : Bool} {cs : List Char} (h : v = true → skipBlank v cs ≠ [])
    (more : List Char) : skipBlank v (cs ++ more) = skipBlank v cs ++ more := by
  cases v with
  | false => rfl
  | true =>
    have hne := h rfl
    clear h
    induction hn : cs.length using Nat.strongRecOn generalizing cs with
    | _ n ih =>
      subst hn
      cases cs with
      | nil => exact absurd rfl hne
      | cons c cs =>
        by_cases hc : c = '#'
        · subst hc
          rw [skipBlank_hash] at hne
          have hline : '\n' ∈ cs := by
            by_contra hnone
            rw [afterLine_eq_nil hnone] at hne
            exact hne rfl
          have hlt := Nat.lt_succ_of_le (afterLine_suffix cs).length_le
          rw [List.cons_append, skipBlank_hash, skipBlank_hash, afterLine_append hline,
            ih _ hlt hne rfl]
        · rw [skipBlank_cons hc] at hne ⊢
          rw [List.cons_append, skipBlank_cons hc]
          split
          · rename_i hblank
            rw [if_pos hblank] at hne
            exact ih _ (Nat.lt_succ_self _) hne rfl
          · rfl

theorem ne_nil_of_suffix {α : Type} {as bs : List α} (h : as <:+ bs) (ha : as ≠ []) : bs ≠ [] := by
  rintro rfl
  exact ha (List.suffix_nil.mp h)

section
variable {α : Type} {v : Bool} {f g : List Char → Except Error (α × List Char)}

theorem Extends.after (h : Extends v f g) (c : Char) {cs rest : List Char} {x : α}
    (hf : f cs = .ok (x, rest)) :
    rest <:+ c :: cs ∧
      ∀ more, Closes more → (v = true → rest ≠ []) → g (cs ++ more) = .ok (x, rest ++ more) :=
  ⟨(h cs x rest hf).1.trans (List.suffix_cons c cs), (h cs x rest hf).2⟩

theorem Extends.skipBlank (h : Extends v f g) :
    Extends v (fun cs => f (skipBlank v cs)) fun cs => g (skipBlank v cs) := by
  intro cs x rest hf
  obtain ⟨hsuffix, happend⟩ := h _ x rest hf
  refine ⟨hsuffix.trans (skipBlank_suffix v cs), fun more hmore hrest => ?_⟩
  have hne : v = true → Regex.skipBlank v cs ≠ [] := fun hv hnil =>
    hrest hv (List.suffix_nil.mp (hnil ▸ hsuffix))
  change g (Regex.skipBlank v (cs ++ more)) = _
  rw [skipBlank_append hne]
  exact happend more hmore hrest

theorem Extends.done (x : α) : Extends v (fun cs => .ok (x, cs)) fun cs => .ok (x, cs) := by
  intro cs y rest h
  cases h
  exact ⟨List.suffix_rfl, fun more _ _ => rfl⟩

theorem Extends.bind {β : Type} {f' g' : α → List Char → Except Error (β × List Char)}
    (h : Extends v f g) (h' : ∀ x, Extends v (f' x) (g' x)) :
    Extends v (fun cs => f cs >>= fun p => f' p.1 p.2) fun cs => g cs >>= fun p => g' p.1 p.2 := by
  intro cs y rest hf
  obtain ⟨⟨x, middle⟩, hx, hy⟩ := exists_of_bind_eq_ok hf
  obtain ⟨hmiddle, hfirst⟩ := h cs x middle hx
  obtain ⟨hrest, hsecond⟩ := h' x middle y rest hy
  refine ⟨hrest.trans hmiddle, fun more hmore hne => ?_⟩
  have hne' : v = true → middle ≠ [] := fun hv hnil =>
    hne hv (List.suffix_nil.mp (hnil ▸ hrest))
  change g (cs ++ more) >>= _ = _
  rw [hfirst more hmore hne']
  exact hsecond more hmore hne

theorem Extends.map {β : Type} (h : Extends v f g) (k : α → Except Error β) :
    Extends v (fun cs => f cs >>= fun p => (k p.1).map (·, p.2))
      fun cs => g cs >>= fun p => (k p.1).map (·, p.2) := by
  have hk : ∀ x, Extends v (fun cs => (k x).map (·, cs)) fun cs => (k x).map (·, cs) := by
    intro x
    cases hk : k x with
    | error e =>
      intro cs y rest hf
      cases hf
    | ok y => exact .done y
  exact h.bind hk

end

end Signpost.Regex
