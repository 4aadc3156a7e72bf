import Signpost.Proofs.Regex.Bounds

/-! # Elements as actions

An element of a pattern is an action on the state of the reader. Which action it is depends on the
flags in force and the text only, so elements are read alike from any state with the same flags.
-/
namespace Signpost.Regex
open Unicode

/-- What one element of a pattern does to the reader. -/
inductive Action where
  | read (set : CharSet) (depth : Nat)
  | look (condition : Look)
  | again (min : Nat) (max : Option Nat) (lazily : Bool)
  | bar
  | capture
  | named (name : List Char)
  | group (inside : Flags)
  | flags (inside : Flags)
  | close

theorem bind_pure_eq_map {ε α β : Type} (x : Except ε α) (f : α → β) :
    (x >>= fun a => pure (f a)) = x.map f := by
  cases x <;> rfl

namespace Action

def perform (st : ReadState) : Action → Except Error ReadState
  | read set depth => .ok (st.push ⟨.read set, depth, true⟩)
  | look condition => .ok (st.push ⟨.look condition, 0, true⟩)
  | again min max lazily => st.repeatLast min max lazily
  | bar => .ok { st with terms := [], branches := branchTerm st.terms :: st.branches }
  | capture => .ok (st.openGroup (some (st.captures + 1)) st.flags)
  | named name =>
    if st.names.contains name then .error .repeatedGroupName
    else .ok { st.openGroup (some (st.captures + 1)) st.flags with names := name :: st.names }
  | group inside => .ok (st.openGroup none inside)
  | flags inside => .ok { st.push ⟨.empty, 0, false⟩ with flags := inside }
  | close => st.closeGroup

/-- Elements after which other flags can be in force in the same group. -/
def resetsFlags : Action → Bool
  | flags _ => true
  | close => true
  | _ => false

def ofPrimitive (f : Flags) : Primitive → Except Error Action
  | .literal c =>
    .ok (.read (if !f.ignoreCase then .single c
      else if f.unicode then .anyCase (.single c) else .anyAsciiCase (.single c)) 0)
  | .unit _ => .error .beyondAscii
  | .set s => (checkedSet f s).map (.read · 0)
  | .look l => .ok (.look l)

def ofFlags (f : Flags) (cs : List Char) : Except Error (Action × List Char) := do
  let (seen, inside, after) ← flagItems cs [] f
  match after with
  | ':' :: rest => return (.group inside, rest)
  | _ :: rest => if seen.isEmpty then throw .missingOperand else return (.flags inside, rest)
  | [] => throw .unclosedGroup

def ofQuestion (f : Flags) : List Char → Except Error (Action × List Char)
  | '=' :: _ | '!' :: _ | '<' :: '=' :: _ | '<' :: '!' :: _ => .error .unsupportedLookaround
  | 'P' :: '<' :: rest => (groupName rest).map fun p => (.named p.1, p.2)
  | '<' :: rest => (groupName rest).map fun p => (.named p.1, p.2)
  | rest => ofFlags f rest

def ofParenthesis (f : Flags) (cs : List Char) : Except Error (Action × List Char) :=
  match skipBlank f.verbose cs with
  | '?' :: rest => ofQuestion f rest
  | rest => .ok (.capture, rest)

def ofElement (f : Flags) (c : Char) (cs : List Char) : Except Error (Action × List Char) :=
  match c with
  | '(' => ofParenthesis f cs
  | ')' => .ok (.close, cs)
  | '|' => .ok (.bar, cs)
  | '[' => (bracketed f cs).map fun p => (.read p.1.set p.1.depth, p.2)
  | '?' => .ok (.again 0 (some 1) (lazyMark cs).1, (lazyMark cs).2)
  | '*' => .ok (.again 0 none (lazyMark cs).1, (lazyMark cs).2)
  | '+' => .ok (.again 1 none (lazyMark cs).1, (lazyMark cs).2)
  | '\x7b' => do
    let (min, max, after) ← bounds f.verbose cs
    let (lazily, after) := lazyMark (skipBlank f.verbose after)
    return (.again min max lazily, after)
  | '.' => (checkedSet f (dotSet f)).map fun set => (.read set 0, cs)
  | '^' => .ok (.look (if f.multiLine then Look.lineStart f.crlf else .textStart), cs)
  | '$' => .ok (.look (if f.multiLine then Look.lineEnd f.crlf else .textEnd), cs)
  | '\\' => escape f cs >>= fun p => (ofPrimitive f p.1).map (·, p.2)
  | c => (ofPrimitive f (.literal c)).map (·, cs)

theorem perform_ofPrimitive (st : ReadState) (f : Flags) (p : Primitive) (rest : List Char) :
    ((ofPrimitive f p).map (·, rest) >>= fun q => (q.1.perform st).map (·, q.2)) =
      primitiveNode f p >>= fun n => pure (st.push ⟨n, 0, true⟩, rest) := by
  cases p with
  | literal c =>
    simp only [ofPrimitive, primitiveNode, literalNode]
    split
    · rfl
    · split <;> rfl
  | unit c => rfl
  | set s =>
    simp only [ofPrimitive, primitiveNode]
    cases checkedSet f s <;> rfl
  | look l => rfl

theorem parenthesis_eq (st : ReadState) (cs : List Char) :
    st.parenthesis cs =
      ofParenthesis st.flags cs >>= fun p => (p.1.perform st).map (·, p.2) := by
  have hnamed : ∀ rest, st.openNamed rest =
      ((groupName rest).map fun p => (named p.1, p.2)) >>= fun p =>
        (p.1.perform st).map (·, p.2) := by
    intro rest
    unfold ReadState.openNamed
    cases groupName rest with
    | error e => rfl
    | ok p =>
      simp only [Except.map, bind, Except.bind, perform]
      split <;> rfl
  unfold ReadState.parenthesis ofParenthesis
  generalize skipBlank st.flags.verbose cs = text
  split
  case h_5 => exact hnamed _
  case h_6 =>
    simp only [ofQuestion]
    exact hnamed _
  case h_7 =>
    simp only [ofQuestion, ofFlags]
    generalize flagItems _ [] st.flags = items
    cases items with
    | error e => rfl
    | ok p =>
      obtain ⟨seen, inside, after⟩ := p
      simp only [bind, Except.bind]
      split
      · rfl
      · simp only [Except.map]
        split <;> rfl
      · rfl
  case h_8 =>
    simp only [bind, Except.bind]
    rfl
  all_goals rfl

theorem element_eq (st : ReadState) (c : Char) (cs : List Char) :
    st.element c cs = ofElement st.flags c cs >>= fun p => (p.1.perform st).map (·, p.2) := by
  unfold ReadState.element ofElement
  split
  case h_1 => exact parenthesis_eq st cs
  case h_4 => cases bracketed st.flags cs <;> rfl
  case h_8 =>
    cases bounds st.flags.verbose cs with
    | error e => rfl
    | ok p => exact bind_pure_eq_map _ _
  case h_9 => cases checkedSet st.flags (dotSet st.flags) <;> rfl
  case h_12 =>
    cases escape st.flags cs with
    | error e => rfl
    | ok p => exact (perform_ofPrimitive st _ p.1 p.2).symm
  case h_13 =>
    simp only [perform_ofPrimitive]
    rfl
  all_goals rfl

theorem ofFlags_append {f : Flags} {cs rest : List Char} {a : Action}
    (h : ofFlags f cs = .ok (a, rest)) :
    rest <:+ cs ∧ ∀ more, ofFlags f (cs ++ more) = .ok (a, rest ++ more) := by
  unfold ofFlags at h
  obtain ⟨⟨seen, inside, after⟩, hitems, h⟩ := exists_of_bind_eq_ok h
  obtain ⟨hsuffix, -, happend⟩ := flagItems_append hitems
  dsimp only at h
  split at h
  · cases h
    refine ⟨(List.suffix_cons _ _).trans hsuffix, fun more => ?_⟩
    simp only [ofFlags, happend more, bind, Except.bind]
    rfl
  · split at h
    · cases h
    · rename_i hseen
      cases h
      refine ⟨(List.suffix_cons _ _).trans hsuffix, fun more => ?_⟩
      simp only [ofFlags, happend more, bind, Except.bind, List.cons_append, if_neg hseen]
      rfl
  · cases h

theorem ofFlags_ne_ok (f : Flags) (cs : List Char) (p : Action × List Char) :
    ofFlags f ('P' :: cs) ≠ .ok p := by
  intro h
  obtain ⟨_, hitems, -⟩ := exists_of_bind_eq_ok h
  cases hitems

theorem ofQuestion_less {d : Char} (hd : d ∉ ['=', '!']) (f : Flags) (cs : List Char) :
    ofQuestion f ('<' :: d :: cs) = (groupName (d :: cs)).map fun p => (.named p.1, p.2) := by
  unfold ofQuestion
  split
  case h_3 =>
    rename_i heq
    cases heq
    exact absurd (by decide) hd
  case h_4 =>
    rename_i heq
    cases heq
    exact absurd (by decide) hd
  case h_6 =>
    rename_i heq
    cases heq
    rfl
  case h_7 hbehind => exact absurd rfl (hbehind _)
  all_goals
    rename_i heq
    cases heq

theorem ofQuestion_of_ne {c : Char} (hc : c ∉ ['=', '!', '<', 'P']) (f : Flags)
    (cs : List Char) : ofQuestion f (c :: cs) = ofFlags f (c :: cs) := by
  unfold ofQuestion
  split
  case h_7 => rfl
  all_goals
    rename_i heq
    cases heq
    exact absurd (by decide) hc

theorem ofQuestion_append {f : Flags} {cs rest : List Char} {a : Action}
    (h : ofQuestion f cs = .ok (a, rest)) :
    rest <:+ cs ∧ ∀ more, ofQuestion f (cs ++ more) = .ok (a, rest ++ more) := by
  unfold ofQuestion at h
  split at h
  case h_5 =>
    obtain ⟨⟨name, after⟩, hname, heq⟩ := exists_of_map_eq_ok h
    cases heq
    obtain ⟨hsuffix, happend⟩ := groupName_append hname
    refine ⟨(hsuffix.trans (List.suffix_cons _ _)).trans (List.suffix_cons _ _), fun more => ?_⟩
    simp only [List.cons_append, ofQuestion, happend more]
    rfl
  case h_6 =>
    rename_i tail hahead hbehind
    obtain ⟨⟨name, after⟩, hname, heq⟩ := exists_of_map_eq_ok h
    cases heq
    obtain ⟨hsuffix, happend⟩ := groupName_append hname
    refine ⟨hsuffix.trans (List.suffix_cons _ _), fun more => ?_⟩
    cases tail with
    | nil => cases hname
    | cons d tail =>
      have hequal : d ≠ '=' := fun hd => hahead tail (hd ▸ rfl)
      have hbang : d ≠ '!' := fun hd => hbehind tail (hd ▸ rfl)
      have hlong := happend more
      rw [List.cons_append] at hlong
      rw [List.cons_append, List.cons_append, ofQuestion_less (by simp [hequal, hbang]), hlong]
      rfl
  case h_7 =>
    rename_i hequal hbang _ _ _ hbehind
    obtain ⟨hsuffix, happend⟩ := ofFlags_append h
    refine ⟨hsuffix, fun more => ?_⟩
    cases cs with
    | nil => cases h
    | cons c cs =>
      have hc : c ≠ '=' := fun hc => hequal cs (hc ▸ rfl)
      have hc' : c ≠ '!' := fun hc => hbang cs (hc ▸ rfl)
      have hc'' : c ≠ '<' := fun hc => hbehind cs (hc ▸ rfl)
      have hname : c ≠ 'P' := by
        rintro rfl
        exact ofFlags_ne_ok f cs _ h
      rw [List.cons_append, ofQuestion_of_ne (by simp [hc, hc', hc'', hname])]
      exact happend more
  all_goals cases h

theorem ofParenthesis_of_ne {f : Flags} {cs : List Char}
    (h : (skipBlank f.verbose cs).head? ≠ some '?') :
    ofParenthesis f cs = .ok (.capture, skipBlank f.verbose cs) := by
  unfold ofParenthesis
  split
  · rename_i heq
    rw [heq] at h
    exact absurd rfl h
  · rfl

/-- The text behind an element lets a closing text be put behind it: in verbose mode a comment may
go on, unless the element is one after which other flags are in force. -/
def Ends (f : Flags) (a : Action) (rest : List Char) : Prop :=
  a.resetsFlags = false → f.verbose = true → rest ≠ []

theorem ofParenthesis_append {f : Flags} {cs rest : List Char} {a : Action}
    (h : ofParenthesis f cs = .ok (a, rest)) :
    rest <:+ cs ∧ ∀ more, Closes more → Ends f a rest →
      ofParenthesis f (cs ++ more) = .ok (a, rest ++ more) := by
  by_cases hmark : (skipBlank f.verbose cs).head? = some '?'
  · obtain ⟨tail, hskip⟩ := List.head?_eq_some_iff.mp hmark
    have hquestion : ofParenthesis f cs = ofQuestion f tail := by
      simp only [ofParenthesis, hskip]
    rw [hquestion] at h
    obtain ⟨hsuffix, happend⟩ := ofQuestion_append h
    refine ⟨hsuffix.trans (suffix_of_skipBlank_eq hskip), fun more _ _ => ?_⟩
    rw [ofParenthesis, skipBlank_append_of_cons hskip]
    exact happend more
  · rw [ofParenthesis_of_ne hmark] at h
    cases h
    refine ⟨skipBlank_suffix _ cs, fun more hmore hends => ?_⟩
    have hskip := skipBlank_append (hends rfl) more
    rw [ofParenthesis_of_ne (by rw [hskip]; exact hmore.head?_append (by decide) hmark), hskip]

theorem resetsFlags_of_ofPrimitive {f : Flags} {p : Primitive} {a : Action}
    (h : ofPrimitive f p = .ok a) : a.resetsFlags = false := by
  cases p with
  | literal c =>
    cases h
    rfl
  | unit c => cases h
  | set s =>
    obtain ⟨set, -, rfl⟩ := exists_of_map_eq_ok h
    rfl
  | look l =>
    cases h
    rfl

theorem lazyMark_extent (v : Bool) (cs : List Char) :
    (lazyMark (skipBlank v cs)).2 <:+ cs ∧ ∀ more, Closes more →
      (v = true → (lazyMark (skipBlank v cs)).2 ≠ []) →
        lazyMark (skipBlank v (cs ++ more)) =
          ((lazyMark (skipBlank v cs)).1, (lazyMark (skipBlank v cs)).2 ++ more) := by
  refine ⟨(lazyMark_suffix _).trans (skipBlank_suffix v cs), fun more hmore hne => ?_⟩
  rw [skipBlank_append fun hv => ne_nil_of_suffix (lazyMark_suffix _) (hne hv),
    lazyMark_append _ hmore]

theorem ofElement_append {f : Flags} {c : Char} {cs rest : List Char} {a : Action}
    (h : ofElement f c cs = .ok (a, rest)) :
    rest <:+ cs ∧ ∀ more, Closes more → Ends f a rest →
      ofElement f c (cs ++ more) = .ok (a, rest ++ more) := by
  unfold ofElement at h ⊢
  split at h
  case h_1 => exact ofParenthesis_append h
  case h_4 =>
    obtain ⟨⟨term, after⟩, hterm, heq⟩ := exists_of_map_eq_ok h
    cases heq
    obtain ⟨hsuffix, happend⟩ := bracketed_extends f cs term after hterm
    refine ⟨hsuffix, fun more hmore hends => ?_⟩
    simp only [happend more hmore (hends rfl)]
    rfl
  case h_8 =>
    obtain ⟨⟨min, max, after⟩, hbounds, heq⟩ := exists_of_bind_eq_ok h
    cases heq
    obtain ⟨hsuffix, happend⟩ := bounds_append hbounds
    obtain ⟨hlazy, hlong⟩ := lazyMark_extent f.verbose after
    refine ⟨hlazy.trans hsuffix, fun more hmore hends => ?_⟩
    simp only [happend more, bind, Except.bind, hlong more hmore (hends rfl)]
    rfl
  case h_9 =>
    obtain ⟨set, hset, heq⟩ := exists_of_map_eq_ok h
    cases heq
    refine ⟨List.suffix_rfl, fun more _ _ => ?_⟩
    simp only [hset]
    rfl
  case h_12 =>
    obtain ⟨hsuffix, happend⟩ := (escape_extends f).map (ofPrimitive f) cs a rest h
    obtain ⟨p, -, hp⟩ := exists_of_bind_eq_ok h
    obtain ⟨b, hb, heq⟩ := exists_of_map_eq_ok hp
    cases heq
    refine ⟨hsuffix, fun more hmore hends => ?_⟩
    exact happend more hmore (hends (resetsFlags_of_ofPrimitive hb))
  case h_13 =>
    cases h
    exact ⟨List.suffix_rfl, fun more _ _ => rfl⟩
  case h_5 | h_6 | h_7 =>
    cases h
    refine ⟨lazyMark_suffix cs, fun more hmore _ => ?_⟩
    rw [lazyMark_append cs hmore]
  all_goals
    cases h
    exact ⟨List.suffix_rfl, fun more _ _ => rfl⟩

end Action

end Signpost.Regex
