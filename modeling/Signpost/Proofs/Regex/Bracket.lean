import Signpost.Proofs.Regex.Escape

/-! # The extent of a set in brackets

A set ends with the bracket that closes it, whatever follows.
-/
namespace Signpost.Regex
open Unicode

theorem leadingHyphens_of_ne {c : Char} (hc : c ≠ '-') (v : Bool) (fuel : Nat)
    (members : List SetTerm) (cs : List Char) :
    leadingHyphens v fuel members (c :: cs) = (members, c :: cs) := by
  unfold leadingHyphens
  split
  · rename_i heq
    exact absurd (List.cons.inj heq).1 hc
  · rfl

theorem leadingHyphens_suffix (v : Bool) (fuel : Nat) (members : List SetTerm) (cs : List Char) :
    (leadingHyphens v fuel members cs).2 <:+ cs := by
  induction fuel generalizing members cs with
  | zero => exact List.suffix_rfl
  | succ fuel ih =>
    cases cs with
    | nil => exact List.suffix_rfl
    | cons c cs =>
      by_cases hc : c = '-'
      · subst hc
        exact ((ih _ _).trans (skipBlank_suffix v cs)).trans (List.suffix_cons '-' cs)
      · exact leadingHyphens_of_ne hc v (fuel + 1) members cs ▸ List.suffix_rfl

theorem leadingHyphens_append {v : Bool} {fuel fuel' : Nat} {members : List SetTerm}
    {cs : List Char} (hfuel : cs.length < fuel) (hfuel' : cs.length < fuel')
    (h : (leadingHyphens v fuel members cs).2 ≠ []) (more : List Char) :
    leadingHyphens v fuel' members (cs ++ more) =
      ((leadingHyphens v fuel members cs).1, (leadingHyphens v fuel members cs).2 ++ more) := by
  induction fuel generalizing fuel' members cs with
  | zero => cases hfuel
  | succ fuel ih =>
    obtain ⟨fuel', rfl⟩ : ∃ n, fuel' = n + 1 := ⟨fuel' - 1, by omega⟩
    cases cs with
    | nil => exact absurd rfl h
    | cons c cs =>
      by_cases hc : c = '-'
      · subst hc
        rw [leadingHyphens] at h ⊢
        rw [List.cons_append, leadingHyphens]
        have hne : v = true → skipBlank v cs ≠ [] := by
          intro _ hnil
          rw [hnil] at h
          exact h (List.suffix_nil.mp (leadingHyphens_suffix v fuel _ []))
        have hle := (skipBlank_suffix v cs).length_le
        rw [List.length_cons] at hfuel hfuel'
        rw [skipBlank_append hne]
        exact ih (by omega) (by omega) h
      · rw [List.cons_append, leadingHyphens_of_ne hc, leadingHyphens_of_ne hc]
        rfl

def firstBracket (v : Bool) : List SetTerm → List Char → List SetTerm × List Char
  | [], ']' :: after => ([⟨.single ']', 0⟩], skipBlank v after)
  | members, rest => (members, rest)

theorem firstBracket_of_ne (v : Bool) {members : List SetTerm} {rest : List Char}
    (h : members ≠ [] ∨ rest.head? ≠ some ']') : firstBracket v members rest = (members, rest) := by
  unfold firstBracket
  split
  · rcases h with h | h
    · exact absurd rfl h
    · exact absurd rfl h
  · rfl

theorem firstBracket_suffix (v : Bool) (members : List SetTerm) (rest : List Char) :
    (firstBracket v members rest).2 <:+ rest := by
  unfold firstBracket
  split
  · rename_i after
    exact (skipBlank_suffix v after).trans (List.suffix_cons _ after)
  · exact List.suffix_rfl

theorem firstBracket_append {v : Bool} {members : List SetTerm} {rest : List Char}
    (h : (firstBracket v members rest).2 ≠ []) (more : List Char) :
    firstBracket v members (rest ++ more) =
      ((firstBracket v members rest).1, (firstBracket v members rest).2 ++ more) := by
  by_cases hfirst : members ≠ [] ∨ rest.head? ≠ some ']'
  · rw [firstBracket_of_ne v hfirst] at h ⊢
    rw [← head?_append_of_ne_nil h more] at hfirst
    exact firstBracket_of_ne v hfirst
  · rw [not_or, not_not, not_not] at hfirst
    obtain ⟨rfl, hhead⟩ := hfirst
    obtain ⟨after, rfl⟩ := List.head?_eq_some_iff.mp hhead
    simp only [firstBracket, List.cons_append] at h ⊢
    rw [skipBlank_append fun _ => h]

def afterSign (f : Flags) (body : List Char) : List Char :=
  if body.head? = some '^' then skipBlank f.verbose (body.drop 1) else body

theorem afterSign_suffix (f : Flags) (body : List Char) : afterSign f body <:+ body := by
  unfold afterSign
  split
  · exact (skipBlank_suffix _ _).trans (List.drop_suffix 1 body)
  · exact List.suffix_rfl

theorem afterSign_append {f : Flags} {body : List Char} (h : afterSign f body ≠ [])
    (more : List Char) : afterSign f (body ++ more) = afterSign f body ++ more := by
  cases body with
  | nil => exact absurd (List.suffix_nil.mp (afterSign_suffix f [])) h
  | cons c body =>
    unfold afterSign at h ⊢
    rw [head?_append_of_ne_nil (List.cons_ne_nil c body)]
    split
    · rename_i hsign
      rw [if_pos hsign] at h
      exact skipBlank_append (fun _ => h) more
    · rfl

theorem openBracket_eq (f : Flags) (cs : List Char) :
    openBracket f cs =
      let body := skipBlank f.verbose cs
      let inner := afterSign f body
      let (members, rest) := leadingHyphens f.verbose (inner.length + 1) [] inner
      (decide (body.head? = some '^'), firstBracket f.verbose members rest) := by
  simp only [openBracket, afterSign]
  generalize leadingHyphens _ _ _ _ = p
  obtain ⟨members, rest⟩ := p
  dsimp only
  by_cases hfirst : members ≠ [] ∨ rest.head? ≠ some ']'
  · rw [firstBracket_of_ne _ hfirst]
    split
    · rcases hfirst with h | h <;> exact absurd rfl h
    · rfl
  · rw [not_or, not_not, not_not] at hfirst
    obtain ⟨rfl, hhead⟩ := hfirst
    obtain ⟨after, rfl⟩ := List.head?_eq_some_iff.mp hhead
    rfl

theorem openBracket_suffix (f : Flags) (cs : List Char) : (openBracket f cs).2.2 <:+ cs := by
  rw [openBracket_eq]
  exact (((firstBracket_suffix _ _ _).trans (leadingHyphens_suffix _ _ _ _)).trans
    (afterSign_suffix f _)).trans (skipBlank_suffix _ cs)

theorem openBracket_append {f : Flags} {cs : List Char} (h : (openBracket f cs).2.2 ≠ [])
    (more : List Char) :
    openBracket f (cs ++ more) =
      ((openBracket f cs).1, (openBracket f cs).2.1, (openBracket f cs).2.2 ++ more) := by
  rw [openBracket_eq] at h
  dsimp only at h
  have hrest := ne_nil_of_suffix (firstBracket_suffix _ _ _) h
  have hinner := ne_nil_of_suffix (leadingHyphens_suffix _ _ _ _) hrest
  have hbody := ne_nil_of_suffix (afterSign_suffix f _) hinner
  rw [openBracket_eq, openBracket_eq, skipBlank_append fun _ => hbody]
  dsimp only
  have hlength : (afterSign f (skipBlank f.verbose cs)).length <
      (afterSign f (skipBlank f.verbose cs) ++ more).length + 1 :=
    Nat.lt_succ_of_le (List.prefix_append _ more).length_le
  rw [afterSign_append hinner, head?_append_of_ne_nil hbody,
    leadingHyphens_append (Nat.lt_succ_self _) hlength hrest, firstBracket_append h]

theorem notMem_of_ofAsciiName? {cs : List Char} {s : CharSet}
    (h : CharSet.ofAsciiName? (String.ofList cs) = some s) : ∀ c ∈ ['$', '/'], c ∉ cs := by
  have hname : ∀ text : String, String.ofList cs = text →
      '$' ∉ text.toList → '/' ∉ text.toList → ∀ c ∈ ['$', '/'], c ∉ cs := by
    rintro _ rfl hend hslash
    rw [String.toList_ofList] at hend hslash
    simp [hend, hslash]
  unfold CharSet.ofAsciiName? at h
  split at h
  case h_15 => cases h
  all_goals exact hname _ ‹_› (by decide) (by decide)

theorem span_of_notMem {c : Char} {cs : List Char} (h : c ∉ cs) (tail : List Char) :
    (cs ++ c :: tail).span (· != c) = (cs, c :: tail) := by
  have hall : ∀ d ∈ cs, (d != c) = true := fun d hd =>
    bne_iff_ne.mpr fun heq => h (heq ▸ hd)
  rw [List.span_eq_takeWhile_dropWhile, List.takeWhile_append_of_pos hall,
    List.dropWhile_append_of_pos hall]
  simp

theorem eq_append_of_span {c d : Char} {cs tail : List Char}
    (h : (cs.span (· != c)).2 = d :: tail) :
    c ∉ (cs.span (· != c)).1 ∧ cs = (cs.span (· != c)).1 ++ d :: tail := by
  rw [List.span_eq_takeWhile_dropWhile] at h ⊢
  have hdrop : cs.dropWhile (· != c) = d :: tail := h
  refine ⟨fun hmem => ?_, ?_⟩
  · exact bne_iff_ne.mp (List.mem_takeWhile_imp (p := (· != c)) hmem) rfl
  · rw [← hdrop]
    exact List.takeWhile_append_dropWhile.symm

def writtenNamed (negated : Bool) (name : List Char) : List Char :=
  '[' :: ':' :: ((if negated then ['^'] else []) ++ (name ++ [':', ']']))

theorem notMem_writtenNamed {c : Char} (hc : c ∈ ['$', '/']) {negated : Bool} {name : List Char}
    (hname : c ∉ name) : c ∉ writtenNamed negated name := by
  have hsign : c ≠ '[' ∧ c ≠ ':' ∧ c ≠ '^' ∧ c ≠ ']' := by
    rcases List.mem_pair.mp hc with rfl | rfl
    · decide
    · decide
  cases negated <;> simp [writtenNamed, hname, hsign]

theorem asciiNamed?_of_body (f : Flags) {body name after : List Char} (hname : ':' ∉ name)
    (hbody : (if body.head? = some '^' then body.drop 1 else body) = name ++ ':' :: ']' :: after) :
    asciiNamed? f ('[' :: ':' :: body) = (CharSet.ofAsciiName? (String.ofList name)).map fun s =>
      (closeSet f (body.head? = some '^') s, after) := by
  simp only [asciiNamed?, hbody, span_of_notMem hname]

theorem asciiNamed?_written (f : Flags) {negated : Bool} {name : List Char}
    (hname : ':' ∉ name) (hsign : negated = false → name.head? ≠ some '^') (after : List Char) :
    asciiNamed? f (writtenNamed negated name ++ after) =
      (CharSet.ofAsciiName? (String.ofList name)).map fun s =>
        (closeSet f negated s, after) := by
  cases negated with
  | true =>
    have hwritten : writtenNamed true name ++ after =
        '[' :: ':' :: '^' :: (name ++ ':' :: ']' :: after) := by simp [writtenNamed]
    rw [hwritten]
    exact asciiNamed?_of_body f hname rfl
  | false =>
    have hwritten : writtenNamed false name ++ after =
        '[' :: ':' :: (name ++ ':' :: ']' :: after) := by simp [writtenNamed]
    have hhead : (name ++ ':' :: ']' :: after).head? ≠ some '^' := by
      cases name with
      | nil => simp
      | cons c name => exact hsign rfl
    rw [hwritten, asciiNamed?_of_body f hname (if_neg hhead), decide_eq_false hhead]

theorem exists_of_asciiNamed? {f : Flags} {cs after : List Char} {s : CharSet}
    (h : asciiNamed? f cs = some (s, after)) :
    ∃ negated name, cs = writtenNamed negated name ++ after ∧ ':' ∉ name ∧
      (negated = false → name.head? ≠ some '^') ∧ ∀ c ∈ ['$', '/'], c ∉ name := by
  unfold asciiNamed? at h
  split at h
  · rename_i body
    dsimp only at h
    split at h
    · rename_i hspan
      obtain ⟨s', hs, heq⟩ := Option.map_eq_some_iff.mp h
      cases heq
      obtain ⟨hcolon, hinner⟩ := eq_append_of_span hspan
      have hname : ∀ c ∈ ['$', '/'], c ∉ _ := notMem_of_ofAsciiName? hs
      by_cases hhead : body.head? = some '^'
      · obtain ⟨inner, rfl⟩ := List.head?_eq_some_iff.mp hhead
        refine ⟨true, _, ?_, hcolon, by simp, hname⟩
        simpa [writtenNamed] using hinner
      · rw [if_neg hhead] at hinner hcolon hname
        refine ⟨false, _, ?_, hcolon, fun _ hsign => hhead ?_, hname⟩
        · simpa [writtenNamed] using hinner
        · obtain ⟨name, hcons⟩ := List.head?_eq_some_iff.mp hsign
          rw [hinner, hcons]
          rfl
    · cases h
  · cases h

theorem asciiNamed?_suffix {f : Flags} {cs after : List Char} {s : CharSet}
    (h : asciiNamed? f cs = some (s, after)) : after <:+ cs := by
  obtain ⟨negated, name, rfl, -⟩ := exists_of_asciiNamed? h
  exact List.suffix_append _ after

theorem asciiNamed?_append {f : Flags} {cs after : List Char} {s : CharSet}
    (h : asciiNamed? f cs = some (s, after)) (more : List Char) :
    asciiNamed? f (cs ++ more) = some (s, after ++ more) := by
  obtain ⟨negated, name, rfl, hcolon, hsign, -⟩ := exists_of_asciiNamed? h
  rw [asciiNamed?_written f hcolon hsign] at h
  obtain ⟨s', hs, heq⟩ := Option.map_eq_some_iff.mp h
  cases heq
  rw [List.append_assoc, asciiNamed?_written f hcolon hsign, hs]
  rfl

/-- A closing text makes no named set of a text that begins with none. -/
theorem asciiNamed?_append_none {f : Flags} {cs more : List Char} (h : asciiNamed? f cs = none)
    (hmore : Closes more) : asciiNamed? f (cs ++ more) = none := by
  by_contra hsome
  obtain ⟨⟨s, after⟩, hs⟩ := Option.ne_none_iff_exists'.mp hsome
  obtain ⟨negated, name, heq, hcolon, hsign, hname⟩ := exists_of_asciiNamed? hs
  have hprefix : ∀ rest, cs ≠ writtenNamed negated name ++ rest := by
    rintro rest rfl
    rw [asciiNamed?_written f hcolon hsign] at h
    rw [heq, asciiNamed?_written f hcolon hsign, Option.map_eq_none_iff.mp h] at hs
    cases hs
  rcases List.append_eq_append_iff.mp heq with ⟨rest, hwritten, hrest⟩ | ⟨rest, hcs, -⟩
  · obtain ⟨c, hc, hhead⟩ := hmore
    cases rest with
    | nil => exact hprefix [] (by rw [hwritten]; simp)
    | cons d rest =>
      rw [hrest, List.cons_append, List.head?_cons, Option.some.injEq] at hhead
      subst hhead
      exact notMem_writtenNamed hc (hname d hc) (by rw [hwritten]; simp)
  · exact hprefix rest hcs

theorem setPrimitive_of_ne (f : Flags) {c : Char} (hc : c ≠ '\\') (cs : List Char) :
    setPrimitive f (c :: cs) = .ok (.literal c, cs) := by
  unfold setPrimitive
  split
  · rename_i heq
    cases heq
  · rename_i heq
    exact absurd (List.cons.inj heq).1 hc
  · rename_i heq
    cases heq
    rfl

theorem setPrimitive_extends (f : Flags) : Extends f.verbose (setPrimitive f) (setPrimitive f) := by
  intro cs x rest h
  cases cs with
  | nil => cases h
  | cons c cs =>
    by_cases hc : c = '\\'
    · subst hc
      exact (escape_extends f).after '\\' h
    · rw [setPrimitive_of_ne f hc] at h
      cases h
      exact ⟨List.suffix_cons c rest, fun more _ _ => setPrimitive_of_ne f hc (rest ++ more)⟩

def memberTerm (f : Flags) : Primitive → Except Error SetTerm
  | .set s => .ok ⟨s, 0⟩
  | .look _ => .error .invalidSetMember
  | p => (memberChar f p).map fun c => ⟨.single c, 0⟩

def rangeTerm (f : Flags) (first last : Primitive) : Except Error SetTerm := do
  let low ← memberChar f first
  let high ← memberChar f last
  if low ≤ high then .ok ⟨.range low high, 0⟩ else .error .invalidRange

/-- A hyphen after a member begins a range, unless a bracket or another hyphen follows it. -/
def beginsRange (v : Bool) (rest : List Char) : Bool :=
  rest.head? == some '-' && (skipBlank v (rest.drop 1)).head? != some ']' &&
    (skipBlank v (rest.drop 1)).head? != some '-'

def memberFrom (f : Flags) (first : Primitive) (rest : List Char) :
    Except Error (SetTerm × List Char) :=
  if rest.isEmpty then .error .unclosedSet
  else if beginsRange f.verbose rest then
    setPrimitive f (skipBlank f.verbose (rest.drop 1)) >>= fun p =>
      (rangeTerm f first p.1).map (·, p.2)
  else (memberTerm f first).map (·, rest)

theorem setMember_eq (f : Flags) (cs : List Char) :
    setMember f cs =
      setPrimitive f cs >>= fun p => memberFrom f p.1 (skipBlank f.verbose p.2) := by
  unfold setMember
  refine bind_congr fun p => ?_
  obtain ⟨first, afterFirst⟩ := p
  unfold memberFrom
  dsimp only
  split
  · rfl
  · split
    · rename_i hplain
      have hrange : beginsRange f.verbose (skipBlank f.verbose afterFirst) = false := by
        simp only [Bool.or_eq_true, bne_iff_ne, beq_iff_eq] at hplain
        rcases hplain with (h | h) | h <;> simp only [beginsRange, h] <;> simp [h]
      rw [hrange, if_neg Bool.false_ne_true]
      cases first with
      | literal c =>
        simp only [memberTerm]
        generalize memberChar _ _ = e
        cases e <;> rfl
      | unit c => rfl
      | set s => rfl
      | look l => rfl
    · rename_i hrange
      have hrange' : beginsRange f.verbose (skipBlank f.verbose afterFirst) = true := by
        simp only [Bool.or_eq_true, bne_iff_ne, beq_iff_eq, not_or, not_not] at hrange
        simp only [beginsRange, hrange.1.1, bne_iff_ne.mpr hrange.1.2, bne_iff_ne.mpr hrange.2]
        rfl
      rw [if_pos hrange']
      refine bind_congr fun q => ?_
      unfold rangeTerm
      cases memberChar f first with
      | error e => rfl
      | ok low =>
        cases memberChar f q.1 with
        | error e => rfl
        | ok high =>
          change (if low ≤ high then _ else _) = Except.map _ (if low ≤ high then _ else _)
          split <;> rfl

theorem beginsRange_append {v : Bool} {c : Char} {rest : List Char}
    (h : beginsRange v (c :: rest) = true → skipBlank v rest ≠ []) (more : List Char) :
    beginsRange v (c :: (rest ++ more)) = beginsRange v (c :: rest) := by
  by_cases hrest : skipBlank v rest = []
  · have hfalse : beginsRange v (c :: rest) = false :=
      Bool.eq_false_iff.mpr fun htrue => h htrue hrest
    have hc : c ≠ '-' := by
      rintro rfl
      simp [beginsRange, hrest] at hfalse
    simp [beginsRange, beq_eq_false_iff_ne.mpr hc]
  · simp only [beginsRange, List.drop_one, List.tail_cons, List.head?_cons,
      skipBlank_append fun _ => hrest, head?_append_of_ne_nil hrest]

theorem memberFrom_extends (f : Flags) (first : Primitive) :
    Extends f.verbose (memberFrom f first) (memberFrom f first) := by
  intro cs x rest h
  cases cs with
  | nil => cases h
  | cons c cs =>
    have hempty : ∀ tail : List Char, ¬ (c :: tail).isEmpty = true := by simp
    unfold memberFrom at h
    rw [if_neg (hempty cs)] at h
    split at h
    · rename_i hrange
      have hread := ((setPrimitive_extends f).map (rangeTerm f first)).skipBlank cs x rest h
      refine ⟨hread.1.trans (List.suffix_cons c cs), fun more hmore hne => ?_⟩
      have hskip : skipBlank f.verbose cs ≠ [] := by
        intro hnil
        rw [List.drop_one, List.tail_cons, hnil] at h
        cases h
      rw [List.cons_append, memberFrom, if_neg (hempty _), beginsRange_append (fun _ => hskip),
        if_pos hrange]
      exact hread.2 more hmore hne
    · rename_i hrange
      obtain ⟨t, ht, heq⟩ := exists_of_map_eq_ok h
      cases heq
      refine ⟨List.suffix_rfl, fun more hmore hne => ?_⟩
      rw [List.cons_append, memberFrom, if_neg (hempty _),
        beginsRange_append fun htrue => absurd htrue hrange, if_neg hrange, ht]
      rfl

theorem setMember_extends (f : Flags) : Extends f.verbose (setMember f) (setMember f) := by
  have heq : setMember f = fun cs =>
      setPrimitive f cs >>= fun p => memberFrom f p.1 (skipBlank f.verbose p.2) :=
    funext (setMember_eq f)
  rw [heq]
  exact (setPrimitive_extends f).bind fun first => (memberFrom_extends f first).skipBlank

theorem setMember_singleton (f : Flags) (c : Char) (p : SetTerm × List Char) :
    setMember f [c] ≠ .ok p := by
  intro h
  rw [setMember_eq] at h
  by_cases hc : c = '\\'
  · subst hc
    cases h
  · rw [setPrimitive_of_ne f hc] at h
    obtain ⟨q, hq, h⟩ := exists_of_bind_eq_ok h
    cases hq
    rw [skipBlank_nil] at h
    cases h

theorem setLoop_nil (f : Flags) (fuel : Nat) (frames : List SetFrame) (members : List SetTerm) :
    setLoop f fuel frames members [] = .error .unclosedSet := by
  cases fuel with
  | zero => rw [setLoop]
  | succ fuel => rw [setLoop, skipBlank_nil]

/-- Characters that begin a member, not a bracket or an operator. -/
def BeginsMember (c d : Char) : Prop := c ∉ ['[', ']'] ∧ (c ∈ ['&', '-', '~'] → d ≠ c)

theorem setLoop_member {f : Flags} {cs tail : List Char} {c d : Char}
    (hskip : skipBlank f.verbose cs = c :: d :: tail) (h : BeginsMember c d) (fuel : Nat)
    (frames : List SetFrame) (members : List SetTerm) :
    setLoop f (fuel + 1) frames members cs =
      setMember f (c :: d :: tail) >>= fun p => setLoop f fuel frames (p.1 :: members) p.2 := by
  obtain ⟨hbracket, hoperator⟩ := h
  rw [setLoop, hskip]
  split
  all_goals rename_i heq
  · cases heq
  · cases heq
    exact absurd (by decide) hbracket
  · cases heq
    exact absurd (by decide) hbracket
  · cases heq
    exact absurd rfl (hoperator (by decide))
  · cases heq
    exact absurd rfl (hoperator (by decide))
  · cases heq
    exact absurd rfl (hoperator (by decide))
  · rfl

-- What one round of the loop reads, if the rounds behind it extend.

section
variable {f : Flags} {fuel fuel' : Nat} {frames : List SetFrame} {members : List SetTerm}
  {cs tail rest : List Char} {x : SetTerm}
  (hnext : ∀ frames members,
    Extends f.verbose (setLoop f fuel frames members) (setLoop f fuel' frames members))
include hnext

theorem setLoop_operator_extends (op : SetOperator) (frames : List SetFrame)
    (members : List SetTerm) :
    Extends f.verbose (setLoop.operator f fuel op frames members)
      (setLoop.operator f fuel' op frames members) := by
  intro cs x rest h
  rw [setLoop.operator] at h
  simp only [setLoop.operator]
  exact hnext _ _ cs x rest h

theorem setLoop_open_extends (hskip : skipBlank f.verbose cs = '[' :: tail)
    (h : setLoop f (fuel + 1) frames members cs = .ok (x, rest)) :
    rest <:+ cs ∧ ∀ more, Closes more → (f.verbose = true → rest ≠ []) →
      setLoop f (fuel' + 1) frames members (cs ++ more) = .ok (x, rest ++ more) := by
  have hskip' := skipBlank_append_of_cons hskip
  simp only [setLoop, hskip] at h
  split at h
  · rename_i s after hnamed
    have hread := hnext _ _ after x rest h
    refine ⟨(hread.1.trans (asciiNamed?_suffix hnamed)).trans (hskip ▸ skipBlank_suffix _ cs),
      fun more hmore hne => ?_⟩
    have hlong := asciiNamed?_append hnamed more
    rw [List.cons_append] at hlong
    rw [setLoop, hskip']
    simp only [hlong]
    exact hread.2 more hmore hne
  · rename_i hnamed
    have hread := hnext _ _ _ x rest h
    have hopen : (openBracket f tail).2.2 ≠ [] := by
      intro hnil
      rw [hnil, setLoop_nil] at h
      cases h
    refine ⟨(hread.1.trans (openBracket_suffix f tail)).trans (suffix_of_skipBlank_eq hskip),
      fun more hmore hne => ?_⟩
    have hlong := asciiNamed?_append_none hnamed hmore
    rw [List.cons_append] at hlong
    rw [setLoop, hskip']
    simp only [hlong, openBracket_append hopen]
    exact hread.2 more hmore hne

theorem setLoop_close_extends (hskip : skipBlank f.verbose cs = ']' :: tail)
    (h : setLoop f (fuel + 1) frames members cs = .ok (x, rest)) :
    rest <:+ cs ∧ ∀ more, Closes more → (f.verbose = true → rest ≠ []) →
      setLoop f (fuel' + 1) frames members (cs ++ more) = .ok (x, rest ++ more) := by
  have hskip' := skipBlank_append_of_cons hskip
  simp only [setLoop, hskip] at h
  split at h
  · rename_i outer negated below inner hcomplete
    split at h
    · rename_i hbelow
      cases h
      refine ⟨suffix_of_skipBlank_eq hskip, fun more hmore hne => ?_⟩
      rw [setLoop, hskip']
      simp only [hcomplete, if_pos hbelow]
    · rename_i hbelow
      have hread := hnext _ _ tail x rest h
      refine ⟨hread.1.trans (suffix_of_skipBlank_eq hskip), fun more hmore hne => ?_⟩
      rw [setLoop, hskip']
      simp only [hcomplete, if_neg hbelow]
      exact hread.2 more hmore hne
  · cases h

theorem setLoop_member_extends {c d : Char} (hskip : skipBlank f.verbose cs = c :: d :: tail)
    (hbegins : BeginsMember c d) (h : setLoop f (fuel + 1) frames members cs = .ok (x, rest)) :
    rest <:+ cs ∧ ∀ more, Closes more → (f.verbose = true → rest ≠ []) →
      setLoop f (fuel' + 1) frames members (cs ++ more) = .ok (x, rest ++ more) := by
  rw [setLoop_member hskip hbegins] at h
  obtain ⟨⟨member, after⟩, hmember, h⟩ := exists_of_bind_eq_ok h
  have hfirst := setMember_extends f _ member after hmember
  have hread := hnext _ _ after x rest h
  refine ⟨(hread.1.trans hfirst.1).trans (hskip ▸ skipBlank_suffix _ cs),
    fun more hmore hne => ?_⟩
  have hafter : f.verbose = true → after ≠ [] := fun hv hnil =>
    hne hv (List.suffix_nil.mp (hnil ▸ hread.1))
  have hskip' : skipBlank f.verbose (cs ++ more) = c :: d :: (tail ++ more) :=
    skipBlank_append_of_cons hskip more
  have hlong := hfirst.2 more hmore hafter
  simp only [List.cons_append] at hlong
  rw [setLoop_member hskip' hbegins, hlong]
  exact hread.2 more hmore hne

end

theorem setLoop_extends (f : Flags) {fuel : Nat} (fuel' : Nat) (hfuel : fuel ≤ fuel')
    (frames : List SetFrame) (members : List SetTerm) :
    Extends f.verbose (setLoop f fuel frames members) (setLoop f fuel' frames members) := by
  induction fuel generalizing fuel' frames members with
  | zero =>
    intro cs x rest h
    rw [setLoop] at h
    cases h
  | succ fuel ih =>
    obtain ⟨fuel', rfl⟩ : ∃ n, fuel' = n + 1 := ⟨fuel' - 1, by omega⟩
    have hnext := fun frames members => ih fuel' (Nat.le_of_succ_le_succ hfuel) frames members
    intro cs x rest h
    have hround := h
    rw [setLoop] at hround
    split at hround
    · cases hround
    · exact setLoop_open_extends hnext ‹_› h
    · exact setLoop_close_extends hnext ‹_› h
    iterate 3
      · rename_i tail hskip
        have hread := setLoop_operator_extends hnext _ _ _ tail x rest hround
        refine ⟨(hread.1.trans (List.suffix_cons _ tail)).trans (suffix_of_skipBlank_eq hskip),
          fun more hmore hne => ?_⟩
        rw [setLoop, skipBlank_append_of_cons hskip]
        exact hread.2 more hmore hne
    · rename_i hnil hopen hclose hand hminus htilde
      cases hskip : skipBlank f.verbose cs with
      | nil => exact absurd hskip hnil
      | cons c tail =>
        rw [hskip] at hround
        cases tail with
        | nil =>
          obtain ⟨p, hmember, -⟩ := exists_of_bind_eq_ok hround
          exact absurd hmember (setMember_singleton f c p)
        | cons d tail =>
          refine setLoop_member_extends hnext hskip ⟨fun hmem => ?_, fun hmem heq => ?_⟩ h
          · simp only [List.mem_cons, List.not_mem_nil, or_false] at hmem
            rcases hmem with rfl | rfl
            · exact hopen _ hskip
            · exact hclose _ hskip
          · subst heq
            simp only [List.mem_cons, List.not_mem_nil, or_false] at hmem
            rcases hmem with rfl | rfl | rfl
            · exact hand _ hskip
            · exact hminus _ hskip
            · exact htilde _ hskip

theorem bracketed_extends (f : Flags) : Extends f.verbose (bracketed f) (bracketed f) := by
  intro cs x rest h
  unfold bracketed at h
  dsimp only at h
  obtain ⟨⟨term, after⟩, hloop, h⟩ := exists_of_bind_eq_ok h
  obtain ⟨set, hset, heq⟩ := exists_of_bind_eq_ok h
  cases heq
  have hopen : (openBracket f cs).2.2 ≠ [] := by
    intro hnil
    rw [hnil, setLoop_nil] at hloop
    cases hloop
  have hread := fun fuel (hfuel : 2 * cs.length + 2 ≤ fuel) =>
    setLoop_extends f fuel hfuel _ _ _ term after hloop
  refine ⟨(hread _ (Nat.le_refl _)).1.trans (openBracket_suffix f cs), fun more hmore hne => ?_⟩
  have hlength := (List.prefix_append cs more).length_le
  have hlong := (hread (2 * (cs ++ more).length + 2) (by omega)).2 more hmore hne
  rw [bracketed, openBracket_append hopen]
  simp only [hlong, bind, Except.bind] at hset ⊢
  rw [hset]
  rfl

end Signpost.Regex
