import Signpost.Proofs.Regex.Bracket

/-! # Bounds, flags and names

The readers for what stands behind the first character of an element: the mark that makes a
repetition lazy, its bounds, the flags of a group and its name. Each takes a part of the text and
reads the same part of a longer one.
-/
namespace Signpost.Regex
open Unicode

theorem lazyMark_suffix (cs : List Char) : (lazyMark cs).2 <:+ cs := by
  unfold lazyMark
  split
  · exact List.suffix_cons _ _
  · exact List.suffix_rfl

theorem lazyMark_of_ne {cs : List Char} (h : cs.head? ≠ some '?') : lazyMark cs = (false, cs) := by
  unfold lazyMark
  split
  · exact absurd rfl h
  · rfl

theorem lazyMark_append (cs : List Char) {more : List Char} (hmore : Closes more) :
    lazyMark (cs ++ more) = ((lazyMark cs).1, (lazyMark cs).2 ++ more) := by
  by_cases hmark : cs.head? = some '?'
  · obtain ⟨rest, rfl⟩ := List.head?_eq_some_iff.mp hmark
    rfl
  · rw [lazyMark_of_ne hmark, lazyMark_of_ne (hmore.head?_append (by decide) hmark)]

theorem digitRun_suffix (v : Bool) (fuel : Nat) (digits cs : List Char) :
    (decimal.digitRun v fuel digits cs).2 <:+ cs := by
  induction fuel generalizing digits cs with
  | zero => exact List.suffix_rfl
  | succ fuel ih =>
    cases cs with
    | nil => exact List.suffix_rfl
    | cons c cs =>
      rw [decimal.digitRun]
      split
      · exact ((ih _ _).trans (skipBlank_suffix v cs)).trans (List.suffix_cons c cs)
      · exact List.suffix_rfl

theorem digitRun_append {v : Bool} {fuel fuel' : Nat} {digits cs : List Char}
    (hfuel : cs.length < fuel) (hfuel' : cs.length < fuel')
    (h : (decimal.digitRun v fuel digits cs).2 ≠ []) (more : List Char) :
    decimal.digitRun v fuel' digits (cs ++ more) =
      ((decimal.digitRun v fuel digits cs).1,
        (decimal.digitRun v fuel digits cs).2 ++ more) := by
  induction fuel generalizing fuel' digits cs with
  | zero => cases hfuel
  | succ fuel ih =>
    obtain ⟨fuel', rfl⟩ : ∃ n, fuel' = n + 1 := ⟨fuel' - 1, by omega⟩
    cases cs with
    | nil => exact absurd rfl h
    | cons c cs =>
      rw [decimal.digitRun] at h ⊢
      rw [List.cons_append, decimal.digitRun]
      split
      · rename_i hdigit
        rw [if_pos hdigit] at h
        have hne : v = true → skipBlank v cs ≠ [] := by
          intro _ hnil
          rw [hnil] at h
          exact h (List.suffix_nil.mp (digitRun_suffix v fuel _ []))
        have hle := (skipBlank_suffix v cs).length_le
        rw [List.length_cons] at hfuel hfuel'
        rw [skipBlank_append hne]
        exact ih (by omega) (by omega) h
      · rfl

theorem dropWhile_append_of_ne_nil {p : Char → Bool} {cs : List Char} (h : cs.dropWhile p ≠ [])
    (more : List Char) : (cs ++ more).dropWhile p = cs.dropWhile p ++ more := by
  rw [List.dropWhile_append, if_neg (by simpa using h)]

def countOf (digits : List Char) : Option (Except Error Nat) :=
  if digits.isEmpty then none
  else
    let n := digits.foldl (fun n d => 10 * n + (d.toNat - '0'.toNat)) 0
    some (if n < Nat.pow 2 32 then .ok n else .error .invalidCount)

theorem decimal_eq (v : Bool) (cs : List Char) :
    decimal v cs =
      let body := cs.dropWhile isWhiteSpace
      let (digits, after) := decimal.digitRun v (body.length + 1) [] body
      (countOf digits, after.dropWhile isWhiteSpace) := by
  unfold decimal countOf
  dsimp only
  split <;> rfl

theorem decimal_suffix (v : Bool) (cs : List Char) : (decimal v cs).2 <:+ cs := by
  rw [decimal_eq]
  exact ((List.dropWhile_suffix _).trans (digitRun_suffix v _ _ _)).trans
    (List.dropWhile_suffix _)

theorem decimal_append {v : Bool} {cs : List Char} (h : (decimal v cs).2 ≠ [])
    (more : List Char) :
    decimal v (cs ++ more) = ((decimal v cs).1, (decimal v cs).2 ++ more) := by
  rw [decimal_eq] at h
  dsimp only at h
  have hafter := ne_nil_of_suffix (List.dropWhile_suffix _) h
  have hbody := ne_nil_of_suffix (digitRun_suffix v _ _ _) hafter
  have hlength : (cs.dropWhile isWhiteSpace).length <
      (cs.dropWhile isWhiteSpace ++ more).length + 1 :=
    Nat.lt_succ_of_le (List.prefix_append _ more).length_le
  rw [decimal_eq, decimal_eq, dropWhile_append_of_ne_nil hbody]
  dsimp only
  rw [digitRun_append (Nat.lt_succ_self _) hlength hafter, dropWhile_append_of_ne_nil h]

def needed : Option (Except Error Nat) → Except Error Nat
  | some n => n
  | none => .error .invalidCount

/-- The bounds that begin with `low`, from the text behind the comma. -/
def upperBounds (v : Bool) (low : Option (Except Error Nat)) (cs : List Char) :
    Except Error (Nat × Option Nat × List Char) := do
  match skipBlank v cs with
  | '\x7d' :: after => return (← needed low, none, after)
  | [] => throw .invalidCount
  | other =>
    let low ← needed low
    let (second, after) := decimal v other
    let high ← needed second
    match after with
    | '\x7d' :: after => if low ≤ high then return (low, some high, after) else throw .invalidCount
    | _ => throw .invalidCount

theorem bounds_of_comma {v : Bool} {cs tail : List Char} {low : Option (Except Error Nat)}
    (h : decimal v (skipBlank v cs) = (low, ',' :: tail)) :
    bounds v cs = upperBounds v low tail := by
  rw [bounds, h]
  rfl

theorem bounds_of_close {v : Bool} {cs tail : List Char} {low : Option (Except Error Nat)}
    (h : decimal v (skipBlank v cs) = (low, '\x7d' :: tail)) :
    bounds v cs = (needed low).map fun n => (n, some n, tail) := by
  rw [bounds, h]
  cases low <;> rfl

theorem exists_of_bounds {v : Bool} {cs : List Char} {x : Nat × Option Nat × List Char}
    (h : bounds v cs = .ok x) :
    ∃ low c tail, decimal v (skipBlank v cs) = (low, c :: tail) ∧ (c = ',' ∨ c = '\x7d') := by
  unfold bounds at h
  generalize decimal v (skipBlank v cs) = first at h
  obtain ⟨low, after⟩ := first
  dsimp only at h
  split at h
  · exact ⟨low, ',', _, rfl, .inl rfl⟩
  · exact ⟨low, '\x7d', _, rfl, .inr rfl⟩
  · cases h

theorem decimal_skipBlank_append {v : Bool} {c : Char} {cs tail : List Char}
    {n : Option (Except Error Nat)} (h : decimal v (skipBlank v cs) = (n, c :: tail)) :
    tail <:+ cs ∧ ∀ more, decimal v (skipBlank v (cs ++ more)) = (n, c :: (tail ++ more)) := by
  have hne : (decimal v (skipBlank v cs)).2 ≠ [] := by
    rw [h]
    exact List.cons_ne_nil c tail
  have hsuffix := decimal_suffix v (skipBlank v cs)
  have hskip := ne_nil_of_suffix hsuffix hne
  rw [h] at hsuffix
  refine ⟨((List.suffix_cons c tail).trans hsuffix).trans (skipBlank_suffix v cs), fun more => ?_⟩
  rw [skipBlank_append fun _ => hskip, decimal_append hne, h]
  rfl

theorem upperBounds_append {v : Bool} {cs rest : List Char} {low : Option (Except Error Nat)}
    {min : Nat} {max : Option Nat} (h : upperBounds v low cs = .ok (min, max, rest)) :
    rest <:+ cs ∧ ∀ more, upperBounds v low (cs ++ more) = .ok (min, max, rest ++ more) := by
  unfold upperBounds at h
  split at h
  · rename_i after hskip
    obtain ⟨n, hn, heq⟩ := exists_of_bind_eq_ok h
    cases heq
    refine ⟨suffix_of_skipBlank_eq hskip, fun more => ?_⟩
    rw [upperBounds, skipBlank_append_of_cons hskip, hn]
    rfl
  · cases h
  · rename_i hbrace hnil
    obtain ⟨m, hm, h⟩ := exists_of_bind_eq_ok h
    generalize hsecond : decimal v (skipBlank v cs) = second at h
    obtain ⟨high, after⟩ := second
    obtain ⟨n, hn, h⟩ := exists_of_bind_eq_ok h
    split at h
    · split at h
      · rename_i hle
        cases h
        obtain ⟨hsuffix, hlong⟩ := decimal_skipBlank_append hsecond
        refine ⟨hsuffix, fun more => ?_⟩
        obtain ⟨c, other, hskip⟩ := List.exists_cons_of_ne_nil hnil
        have hlong' := skipBlank_append_of_cons hskip more
        unfold upperBounds
        split
        · rename_i hclose
          obtain ⟨rfl, -⟩ := List.cons.inj (hlong'.symm.trans hclose)
          exact absurd hskip (hbrace other)
        · rename_i hnone
          cases hlong'.symm.trans hnone
        · simp only [hm, hlong, hn, bind, Except.bind, if_pos hle]
          rfl
      · cases h
    · cases h

theorem bounds_append {v : Bool} {cs rest : List Char} {min : Nat} {max : Option Nat}
    (h : bounds v cs = .ok (min, max, rest)) :
    rest <:+ cs ∧ ∀ more, bounds v (cs ++ more) = .ok (min, max, rest ++ more) := by
  obtain ⟨low, c, tail, hfirst, rfl | rfl⟩ := exists_of_bounds h
  · rw [bounds_of_comma hfirst] at h
    obtain ⟨htail, happend⟩ := upperBounds_append h
    obtain ⟨hsuffix, hlong⟩ := decimal_skipBlank_append hfirst
    refine ⟨htail.trans hsuffix, fun more => ?_⟩
    rw [bounds_of_comma (hlong more)]
    exact happend more
  · rw [bounds_of_close hfirst] at h
    obtain ⟨n, hn, heq⟩ := exists_of_map_eq_ok h
    cases heq
    obtain ⟨hsuffix, hlong⟩ := decimal_skipBlank_append hfirst
    refine ⟨hsuffix, fun more => ?_⟩
    rw [bounds_of_close (hlong more), hn]
    rfl

theorem flagItems_append {cs rest seen seen' : List Char} {f f' : Flags}
    (h : flagItems cs seen f = .ok (seen', f', rest)) :
    rest <:+ cs ∧ rest ≠ [] ∧ ∀ more, flagItems (cs ++ more) seen f = .ok (seen', f', rest ++ more) := by
  induction cs generalizing seen f with
  | nil => cases h
  | cons c cs ih =>
    rw [flagItems] at h
    split at h
    · rename_i hstop
      split at h
      · cases h
      · rename_i hsign
        cases h
        refine ⟨List.suffix_rfl, List.cons_ne_nil c cs, fun more => ?_⟩
        rw [List.cons_append, flagItems, if_pos hstop, if_neg hsign]
    · rename_i hstop
      split at h
      · cases h
      · rename_i hseen
        split at h
        · rename_i hminus
          obtain ⟨hsuffix, hne, happend⟩ := ih h
          refine ⟨hsuffix.trans (List.suffix_cons c cs), hne, fun more => ?_⟩
          rw [List.cons_append, flagItems, if_neg hstop, if_neg hseen, if_pos hminus]
          exact happend more
        · rename_i hminus
          split at h
          · rename_i f' hset
            obtain ⟨hsuffix, hne, happend⟩ := ih h
            refine ⟨hsuffix.trans (List.suffix_cons c cs), hne, fun more => ?_⟩
            rw [List.cons_append, flagItems, if_neg hstop, if_neg hseen, if_neg hminus, hset]
            exact happend more
          · cases h

theorem groupName_append {cs name rest : List Char} (h : groupName cs = .ok (name, rest)) :
    rest <:+ cs ∧ ∀ more, groupName (cs ++ more) = .ok (name, rest ++ more) := by
  unfold groupName at h
  dsimp only at h
  split at h
  · rename_i c tail d after hspan
    split at h
    · rename_i hname
      cases h
      have hafter := congrArg Prod.snd hspan
      refine ⟨suffix_of_span hafter, fun more => ?_⟩
      have hlong := span_append hafter more
      rw [congrArg Prod.fst hspan] at hlong
      simp only [groupName, hlong, if_pos hname]
    · cases h
  · cases h

end Signpost.Regex
