import Signpost.Proofs.Numeral
import Signpost.Proofs.Output.References
import Signpost.Proofs.Scope.Captures

/-! # Values of templates

A template is compiled to what its references stand for, between the texts around them. It fails for
the first reference that stands for nothing, and has a value if each of its groups took part in the
match: the texts with the values of the references put in their places.
-/
namespace Signpost
open Entries OutputToken

namespace Output

/-- The digits write the number of a group, below 2^64. -/
structure Numbers (digits : List Char) (n : Nat) : Prop where
  ascii : ∀ d ∈ digits, d.isDigit = true
  value : Nat.ofDigits 10 (digits.reverse.map fun d => d.toNat - '0'.toNat) = n
  bound : n < 2 ^ 64

theorem groupNumber?_eq_some_iff {digits : List Char} {n : Nat} :
    groupNumber? digits = some n ↔ Numbers digits n := by
  have hvalue := Text.Numeral.foldl_ofDigits 10 (fun d => d.toNat - '0'.toNat) digits 0
  rw [Nat.mul_zero, Nat.zero_add] at hvalue
  unfold groupNumber?
  simp only [hvalue, Bool.and_eq_true, List.all_eq_true, decide_eq_true_eq,
    Option.ite_none_right_eq_some, Option.some.injEq]
  constructor
  · rintro ⟨⟨hascii, hbound⟩, rfl⟩
    exact ⟨hascii, rfl, hbound⟩
  · rintro ⟨hascii, rfl, hbound⟩
    exact ⟨⟨hascii, hbound⟩, rfl⟩

section Names
variable {placeholders : Entries String (Field × Nat)} {name declared peeled : List Char}
  {place : Field × Nat}

/-- The name is a declared one with underscores behind it, which is not looked up when no character
of it is left. -/
structure Declares (placeholders : Entries String (Field × Nat)) (name declared peeled : List Char)
    (place : Field × Nat) : Prop where
  eq : name = declared ++ peeled
  underscores : ∀ c ∈ peeled, c = '_'
  ne_nil : declared ≠ []
  find : find? (String.ofList declared) placeholders = some place

/-- The place is that of the longest declared name that `name` is with underscores behind it. -/
def Resolves (placeholders : Entries String (Field × Nat)) (name : List Char) (place : Field × Nat)
    (peeled : List Char) : Prop :=
  ∃ declared, Declares placeholders name declared peeled place ∧
    ∀ declared' peeled' place', Declares placeholders name declared' peeled' place' →
      declared'.length ≤ declared.length

theorem Resolves.unique {place' : Field × Nat} {peeled' : List Char}
    (h : Resolves placeholders name place peeled) (h' : Resolves placeholders name place' peeled') :
    place = place' ∧ peeled = peeled' := by
  obtain ⟨declared, hd, hlongest⟩ := h
  obtain ⟨declared', hd', hlongest'⟩ := h'
  have hlength : declared.length = declared'.length :=
    le_antisymm (hlongest' _ _ _ hd) (hlongest _ _ _ hd')
  obtain ⟨rfl, rfl⟩ := List.append_inj (hd.eq.symm.trans hd'.eq) hlength
  exact ⟨Option.some.inj (hd.find.symm.trans hd'.find), rfl⟩

/-- Peeling goes on until a declared name is left: none that was passed is declared. -/
theorem resolveFrom_spec {rev : List Char} (hname : name = rev.reverse ++ peeled)
    (hpeeled : ∀ c ∈ peeled, c = '_')
    (hpassed : ∀ declared' peeled' place', Declares placeholders name declared' peeled' place' →
      declared'.length ≤ rev.length) :
    match resolveFrom placeholders peeled rev with
    | some (place, trailing) => Resolves placeholders name place trailing
    | none => ∀ declared' peeled' place', ¬ Declares placeholders name declared' peeled' place' := by
  induction rev generalizing peeled with
  | nil =>
    intro declared' peeled' place' h
    exact h.ne_nil (List.eq_nil_of_length_eq_zero (Nat.le_zero.mp (hpassed _ _ _ h)))
  | cons c shorter ih =>
    rw [resolveFrom]
    cases hfind : find? (String.ofList (c :: shorter).reverse) placeholders with
    | some place =>
      refine ⟨_, ⟨hname, hpeeled, by simp, hfind⟩, ?_⟩
      simpa using hpassed
    | none =>
      have hcons : name = shorter.reverse ++ c :: peeled := by
        rw [hname, List.reverse_cons, List.append_assoc]
        rfl
      have hshorter : ∀ declared' peeled' place',
          Declares placeholders name declared' peeled' place' →
            declared'.length ≤ shorter.length := by
        intro declared' peeled' place' h
        by_contra hlt
        have hle := hpassed _ _ _ h
        have hlength : declared'.length = (c :: shorter).reverse.length := by
          rw [List.length_reverse, List.length_cons] at *
          omega
        obtain ⟨rfl, -⟩ := List.append_inj (h.eq.symm.trans hname) hlength
        cases hfind.symm.trans h.find
      by_cases hc : c = '_' ∧ shorter ≠ []
      · have hpeeled' : ∀ d ∈ c :: peeled, d = '_' := List.forall_mem_cons.mpr ⟨hc.1, hpeeled⟩
        simp only [if_pos hc]
        exact ih hcons hpeeled' hshorter
      · simp only [if_neg hc]
        intro declared' peeled' place' h
        have hle := hshorter _ _ _ h
        -- the last character of what is left stands behind the declared name
        have hmem : c ∈ peeled' := by
          have hdrop := congrArg (List.drop declared'.length) (h.eq.symm.trans hcons)
          rw [List.drop_left, List.drop_append_of_le_length (by simpa using hle)] at hdrop
          rw [hdrop]
          simp
        refine hc ⟨h.underscores c hmem, ?_⟩
        rintro rfl
        exact h.ne_nil (List.eq_nil_of_length_eq_zero (Nat.le_zero.mp hle))

theorem resolve_eq_some_iff :
    resolve placeholders name = some (place, peeled) ↔ Resolves placeholders name place peeled := by
  have hspec := @resolveFrom_spec placeholders name [] name.reverse (by simp) (by simp)
    fun declared' peeled' place' h => by simp [h.eq]
  rw [resolve]
  cases hresolve : resolveFrom placeholders [] name.reverse with
  | some found =>
    obtain ⟨place', peeled'⟩ := found
    rw [hresolve] at hspec
    constructor
    · rintro h
      cases h
      exact hspec
    · intro h
      obtain ⟨rfl, rfl⟩ := hspec.unique h
      rfl
  | none =>
    rw [hresolve] at hspec
    constructor
    · intro h
      cases h
    · rintro ⟨declared, h, -⟩
      exact absurd h (hspec _ _ _)

end Names

section Reference
variable {param : String} {placeholders : Entries String (Field × Nat)}

/-- The reference stands for a group and the underscores behind it. -/
inductive Denotes (placeholders : Entries String (Field × Nat)) :
    OutputToken → Field × Nat → List Char → Prop
  | pathGroup {digits : List Char} {n : Nat} (h : Numbers digits n) :
      Denotes placeholders (.pathGroup digits) (.path, n) []
  | fieldGroup {name digits : List Char} {n : Nat} (h : Numbers digits n) :
      Denotes placeholders (.fieldGroup name digits) (Field.ofName (String.ofList name), n) []
  | name {name peeled : List Char} {place : Field × Nat}
      (h : Resolves placeholders name place peeled) :
      Denotes placeholders (.name name) place peeled

/-- The reference stands for nothing, and the error says so. -/
inductive Fails (param : String) (placeholders : Entries String (Field × Nat)) :
    OutputToken → RouteError → Prop
  | pathGroup {digits : List Char} (h : ∀ n, ¬ Numbers digits n) :
      Fails param placeholders (.pathGroup digits)
        (.invalidOptions (.groupOutOfRange (String.ofList digits) param))
  | fieldGroup {name digits : List Char} (h : ∀ n, ¬ Numbers digits n) :
      Fails param placeholders (.fieldGroup name digits)
        (.invalidOptions (.groupOutOfRange (String.ofList digits) param))
  | name {name : List Char} (h : ∀ place peeled, ¬ Resolves placeholders name place peeled) :
      Fails param placeholders (.name name) (.unknownPlaceholder param (String.ofList name))

theorem group_eq_ok_iff {field : Field} {digits : List Char} {o : Output} :
    group param field digits = .ok o ↔ ∃ n, Numbers digits n ∧ o = [.capture field n] := by
  simp only [← groupNumber?_eq_some_iff, group]
  cases groupNumber? digits <;> simp [eq_comm]

theorem group_eq_error_iff {field : Field} {digits : List Char} {e : RouteError} :
    group param field digits = .error e ↔ (∀ n, ¬ Numbers digits n) ∧
      e = .invalidOptions (.groupOutOfRange (String.ofList digits) param) := by
  simp only [← groupNumber?_eq_some_iff, group]
  cases groupNumber? digits <;> simp [eq_comm]

theorem reference_eq_ok_iff {t : OutputToken} {o : Output} :
    reference param placeholders t = .ok o ↔ ∃ place peeled, Denotes placeholders t place peeled ∧
      o = .capture place.1 place.2 :: literal peeled := by
  cases t with
  | pathGroup digits =>
    rw [reference, group_eq_ok_iff]
    constructor
    · rintro ⟨n, hn, rfl⟩
      exact ⟨_, _, .pathGroup hn, rfl⟩
    · rintro ⟨_, _, hdenotes, rfl⟩
      cases hdenotes with
      | pathGroup hn => exact ⟨_, hn, rfl⟩
  | fieldGroup name digits =>
    rw [reference, group_eq_ok_iff]
    constructor
    · rintro ⟨n, hn, rfl⟩
      exact ⟨_, _, .fieldGroup hn, rfl⟩
    · rintro ⟨_, _, hdenotes, rfl⟩
      cases hdenotes with
      | fieldGroup hn => exact ⟨_, hn, rfl⟩
  | name name =>
    rw [reference]
    constructor
    · intro h
      split at h
      · rename_i heq
        cases h
        exact ⟨_, _, .name (resolve_eq_some_iff.mp heq), rfl⟩
      · cases h
    · rintro ⟨place, peeled, hdenotes, rfl⟩
      cases hdenotes with
      | name h => rw [resolve_eq_some_iff.mpr h]

theorem reference_eq_error_iff {t : OutputToken} {e : RouteError} :
    reference param placeholders t = .error e ↔ Fails param placeholders t e := by
  cases t with
  | pathGroup digits =>
    rw [reference, group_eq_error_iff]
    constructor
    · rintro ⟨h, rfl⟩
      exact .pathGroup h
    · intro hfails
      cases hfails with
      | pathGroup h => exact ⟨h, rfl⟩
  | fieldGroup name digits =>
    rw [reference, group_eq_error_iff]
    constructor
    · rintro ⟨h, rfl⟩
      exact .fieldGroup h
    · intro hfails
      cases hfails with
      | fieldGroup h => exact ⟨h, rfl⟩
  | name name =>
    rw [reference]
    constructor
    · intro h
      split at h
      · cases h
      · rename_i hnone
        cases h
        refine .name fun place peeled hresolves => ?_
        rw [resolve_eq_some_iff.mpr hresolves] at hnone
        cases hnone
    · intro hfails
      cases hfails with
      | name h =>
        split
        · rename_i heq
          exact absurd (resolve_eq_some_iff.mp heq) (h _ _)
        · rfl

theorem Denotes.unique {t : OutputToken} {place place' : Field × Nat} {peeled peeled' : List Char}
    (h : Denotes placeholders t place peeled) (h' : Denotes placeholders t place' peeled') :
    place = place' ∧ peeled = peeled' := by
  cases h with
  | pathGroup h =>
    cases h' with
    | pathGroup h' => exact ⟨by rw [← h.value, ← h'.value], rfl⟩
  | fieldGroup h =>
    cases h' with
    | fieldGroup h' => exact ⟨by rw [← h.value, ← h'.value], rfl⟩
  | name h =>
    cases h' with
    | name h' => exact h.unique h'

theorem Denotes.underscores {t : OutputToken} {place : Field × Nat} {peeled : List Char}
    (h : Denotes placeholders t place peeled) : ∀ c ∈ peeled, c = '_' := by
  cases h with
  | pathGroup h => exact fun c hc => absurd hc List.not_mem_nil
  | fieldGroup h => exact fun c hc => absurd hc List.not_mem_nil
  | name h =>
    obtain ⟨declared, hdeclares, -⟩ := h
    exact hdeclares.underscores

/-- The first reference that stands for nothing, and its error. -/
def FirstFails (param : String) (placeholders : Entries String (Field × Nat))
    (parts : List (List Char × OutputToken)) (e : RouteError) : Prop :=
  ∃ before part after, parts = before ++ part :: after ∧
    (∀ p ∈ before, ∀ e', ¬ Fails param placeholders p.2 e') ∧ Fails param placeholders part.2 e

theorem firstFails_cons {part : List Char × OutputToken} {parts : List (List Char × OutputToken)}
    {e : RouteError} :
    FirstFails param placeholders (part :: parts) e ↔ Fails param placeholders part.2 e ∨
      (∀ e', ¬ Fails param placeholders part.2 e') ∧ FirstFails param placeholders parts e := by
  constructor
  · rintro ⟨before, part', after, heq, hbefore, hfails⟩
    cases before with
    | nil =>
      cases heq
      exact .inl hfails
    | cons p before =>
      cases heq
      obtain ⟨hp, hbefore⟩ := List.forall_mem_cons.mp hbefore
      exact .inr ⟨hp, before, part', after, rfl, hbefore, hfails⟩
  · rintro (hfails | ⟨hpart, before, part', after, rfl, hbefore, hfails⟩)
    · exact ⟨[], part, parts, rfl, fun p hp => absurd hp List.not_mem_nil, hfails⟩
    · exact ⟨part :: before, part', after, rfl, List.forall_mem_cons.mpr ⟨hpart, hbefore⟩, hfails⟩

theorem compileParts_eq_error_iff {parts : List (List Char × OutputToken)} {e : RouteError} :
    compileParts param placeholders parts = .error e ↔ FirstFails param placeholders parts e := by
  induction parts with
  | nil =>
    constructor
    · intro h
      cases h
    · rintro ⟨before, part, after, h, -⟩
      simp at h
  | cons part parts ih =>
    rw [compileParts, firstFails_cons, ← ih]
    simp only [← reference_eq_error_iff]
    constructor
    · intro h
      rcases of_bind_eq_error h with h | ⟨here, hhere, h⟩
      · exact .inl h
      · rcases of_bind_eq_error h with h | ⟨rest, -, h⟩
        · refine .inr ⟨fun e' he' => ?_, h⟩
          cases hhere.symm.trans he'
        · cases h
    · rintro (h | ⟨hpart, h⟩)
      · rw [h]
        rfl
      · cases hhere : reference param placeholders part.2 with
        | error e' => exact absurd hhere (hpart e')
        | ok here =>
          rw [h]
          rfl

theorem compile_eq_error_iff {template : String} {e : RouteError} :
    compile param template placeholders = .error e ↔
      FirstFails param placeholders (splitTemplate [] template.toList).1 e := by
  rw [compile, ← compileParts_eq_error_iff]
  constructor
  · intro h
    rcases of_bind_eq_error h with h | ⟨o, -, h⟩
    · exact h
    · cases h
  · intro h
    simp only [h]
    rfl

theorem exists_firstFails_iff {parts : List (List Char × OutputToken)} :
    (∃ e, FirstFails param placeholders parts e) ↔
      ∃ part ∈ parts, ∃ e, Fails param placeholders part.2 e := by
  constructor
  · rintro ⟨e, before, part, after, rfl, -, hfails⟩
    exact ⟨part, by simp, e, hfails⟩
  · rintro ⟨part, hpart, e, hfails⟩
    induction parts with
    | nil => cases hpart
    | cons first parts ih =>
      by_cases hfirst : ∃ e', Fails param placeholders first.2 e'
      · obtain ⟨e', hfirst⟩ := hfirst
        exact ⟨e', firstFails_cons.mpr (.inl hfirst)⟩
      · rcases List.mem_cons.mp hpart with rfl | hpart
        · exact absurd ⟨e, hfails⟩ hfirst
        · obtain ⟨e', hrest⟩ := ih hpart
          exact ⟨e', firstFails_cons.mpr (.inr ⟨not_exists.mp hfirst, hrest⟩)⟩

/-- The reference has the value: the text of its group with the underscores behind it. -/
def HasValue (placeholders : Entries String (Field × Nat)) (space : Route.CaptureSpace)
    (t : OutputToken) (value : String) : Prop :=
  ∃ place peeled text, Denotes placeholders t place peeled ∧
    Route.groupText space place.1 place.2 = some text ∧ value = text ++ String.ofList peeled

/-- The group of the reference took no part in the match. -/
def Missing (placeholders : Entries String (Field × Nat)) (space : Route.CaptureSpace)
    (t : OutputToken) : Prop :=
  ∃ place peeled, Denotes placeholders t place peeled ∧
    Route.groupText space place.1 place.2 = none

/-- The texts of a template with values in the places of its references. -/
inductive Substitutes (placeholders : Entries String (Field × Nat)) (space : Route.CaptureSpace) :
    List (List Char × OutputToken) → List Char → String → Prop
  | last {last : List Char} : Substitutes placeholders space [] last (String.ofList (unescape last))
  | reference {before last : List Char} {t : OutputToken} {value rest : String}
      {parts : List (List Char × OutputToken)} (hvalue : HasValue placeholders space t value)
      (h : Substitutes placeholders space parts last rest) :
      Substitutes placeholders space ((before, t) :: parts) last
        (String.ofList (unescape before) ++ (value ++ rest))

theorem substitutes_nil_iff {space : Route.CaptureSpace} {last : List Char} {value : String} :
    Substitutes placeholders space [] last value ↔ value = String.ofList (unescape last) := by
  constructor
  · intro h
    cases h
    rfl
  · rintro rfl
    exact .last

theorem evaluate_append (a b : Output) (capture : Field → Nat → Option String) :
    evaluate (a ++ b) capture =
      (evaluate a capture).bind fun x => (evaluate b capture).map (x ++ ·) := by
  unfold evaluate
  rw [List.mapM_append]
  cases a.mapM (partValue capture) with
  | none => rfl
  | some as =>
    cases b.mapM (partValue capture) with
    | none => rfl
    | some bs => simp [String.join_append]

theorem evaluate_literal (cs : List Char) (capture : Field → Nat → Option String) :
    evaluate (literal cs) capture = some (String.ofList (unescape cs)) := by
  cases cs with
  | nil => simp [literal, evaluate, String.join]
  | cons c cs => simp [literal, evaluate, partValue, String.join]

theorem evaluate_reference {t : OutputToken} {o : Output}
    (ho : reference param placeholders t = .ok o) (space : Route.CaptureSpace) :
    (evaluate o (Route.groupText space) = none ↔ Missing placeholders space t) ∧
      ∀ value, evaluate o (Route.groupText space) = some value ↔
        HasValue placeholders space t value := by
  obtain ⟨place, peeled, hdenotes, rfl⟩ := reference_eq_ok_iff.mp ho
  have hpeeled : unescape peeled = peeled :=
    unescape_of_notMem fun hmem => absurd (hdenotes.underscores _ hmem) (by decide)
  have hevaluate : evaluate (.capture place.1 place.2 :: literal peeled) (Route.groupText space) =
      (Route.groupText space place.1 place.2).map (· ++ String.ofList peeled) := by
    rw [← List.singleton_append, evaluate_append, evaluate_capture, evaluate_literal, hpeeled]
    cases Route.groupText space place.1 place.2 <;> rfl
  rw [hevaluate]
  constructor
  · rw [Option.map_eq_none_iff]
    constructor
    · exact fun hnone => ⟨place, peeled, hdenotes, hnone⟩
    · rintro ⟨place', peeled', hdenotes', hnone⟩
      obtain ⟨rfl, -⟩ := hdenotes.unique hdenotes'
      exact hnone
  · intro value
    rw [Option.map_eq_some_iff]
    constructor
    · rintro ⟨text, htext, rfl⟩
      exact ⟨place, peeled, text, hdenotes, htext, rfl⟩
    · rintro ⟨place', peeled', text, hdenotes', htext, rfl⟩
      obtain ⟨rfl, rfl⟩ := hdenotes.unique hdenotes'
      exact ⟨text, htext, rfl⟩

theorem evaluate_compileParts {parts : List (List Char × OutputToken)} {o : Output}
    (ho : compileParts param placeholders parts = .ok o) (last : List Char)
    (space : Route.CaptureSpace) :
    (evaluate (o ++ literal last) (Route.groupText space) = none ↔
        ∃ part ∈ parts, Missing placeholders space part.2) ∧
      ∀ value, evaluate (o ++ literal last) (Route.groupText space) = some value ↔
        Substitutes placeholders space parts last value := by
  induction parts generalizing o with
  | nil =>
    cases ho
    rw [List.nil_append, evaluate_literal]
    refine ⟨by simp, fun value => ?_⟩
    rw [substitutes_nil_iff, Option.some.injEq, eq_comm]
  | cons part parts ih =>
    obtain ⟨before, t⟩ := part
    rw [compileParts] at ho
    obtain ⟨here, hhere, ho⟩ := exists_of_bind_eq_ok ho
    obtain ⟨rest, hrest, ho⟩ := exists_of_bind_eq_ok ho
    cases ho
    obtain ⟨hmissing, hvalue⟩ := evaluate_reference hhere space
    obtain ⟨hmissing', hvalue'⟩ := ih hrest
    rw [List.append_assoc, List.append_assoc, evaluate_append, evaluate_literal, Option.bind_some,
      evaluate_append]
    generalize evaluate here (Route.groupText space) = found at hmissing hvalue
    generalize evaluate (rest ++ literal last) (Route.groupText space) = found' at hmissing' hvalue'
    refine ⟨?_, fun value => ?_⟩
    · simp only [List.mem_cons, exists_eq_or_imp, ← hmissing, ← hmissing']
      cases found <;> cases found' <;> simp
    · constructor
      · intro h
        obtain ⟨both, hboth, rfl⟩ := Option.map_eq_some_iff.mp h
        obtain ⟨first, rfl, hfound'⟩ := Option.bind_eq_some_iff.mp hboth
        obtain ⟨second, rfl, rfl⟩ := Option.map_eq_some_iff.mp hfound'
        exact .reference ((hvalue first).mp rfl) ((hvalue' second).mp rfl)
      · intro h
        cases h with
        | reference hfirst hsecond =>
          rw [(hvalue _).mpr hfirst, (hvalue' _).mpr hsecond]
          rfl

/-- A compiled template has the value of the template. -/
theorem evaluate_compile {template : String} {o : Output}
    (ho : compile param template placeholders = .ok o) (space : Route.CaptureSpace) :
    (o.evaluate (Route.groupText space) = none ↔
        ∃ part ∈ (splitTemplate [] template.toList).1, Missing placeholders space part.2) ∧
      ∀ value, o.evaluate (Route.groupText space) = some value ↔
        Substitutes placeholders space (splitTemplate [] template.toList).1
          (splitTemplate [] template.toList).2 value := by
  obtain ⟨parts, hparts, heq⟩ := exists_of_bind_eq_ok ho
  cases heq
  exact evaluate_compileParts hparts _ space

end Reference

/-- A template is split at its references, each as long as it can be and as far left as it can be,
and is compiled to what they stand for. Compiling fails exactly if one of them stands for nothing,
with the error of the first of these. What is compiled has no value exactly if the group of one of
them took no part in the match, and else the texts between them, in which an escaped underscore is
an underscore, with the values of the references in their places. -/
theorem compile_substitutes (param template : String)
    (placeholders : Entries String (Field × Nat)) :
    (∃ r, Regex.compile OutputToken.expression false = .ok r ∧
      r.node.Reads fun w => ∃ t, Written t w) ∧
    ∃ parts last,
      (∀ parts' last', SplitsInto template.toList parts' last' ↔ parts' = parts ∧ last' = last) ∧
      ((∃ e, compile param template placeholders = .error e) ↔
        ∃ part ∈ parts, ∃ e, Fails param placeholders part.2 e) ∧
      (∀ e, compile param template placeholders = .error e ↔
        FirstFails param placeholders parts e) ∧
      ∀ output, compile param template placeholders = .ok output → ∀ space : Route.CaptureSpace,
        (output.evaluate (Route.groupText space) = none ↔
          ∃ part ∈ parts, Missing placeholders space part.2) ∧
        ∀ value, output.evaluate (Route.groupText space) = some value ↔
          Substitutes placeholders space parts last value := by
  refine ⟨⟨_, compile_expression, reads_expressionNode⟩, (splitTemplate [] template.toList).1,
    (splitTemplate [] template.toList).2, ?_, ?_, fun e => compile_eq_error_iff, ?_⟩
  · intro parts' last'
    rw [splitsInto_iff, Prod.ext_iff, eq_comm, @eq_comm _ last']
  · rw [← exists_firstFails_iff]
    exact exists_congr fun e => compile_eq_error_iff
  · exact fun output houtput space => evaluate_compile houtput space

/-- A name that is peeled, an escaped underscore behind a name, and a group by its number. -/
theorem compile_substitutes_peeled :
    let template := ":k_\\_[2]"
    let placeholders : Entries String (Field × Nat) := [("k", (.host, 1))]
    let output : Output := [.capture .host 1, .literal "_", .literal "_", .capture .path 2]
    compile "p" template placeholders = .ok output ∧
    ∃ parts last, SplitsInto template.toList parts last ∧
      (∀ part ∈ parts, ∀ e, ¬ Fails "p" placeholders part.2 e) ∧
      ∀ space : Route.CaptureSpace, (output.evaluate (Route.groupText space) = none ↔
        ∃ part ∈ parts, Missing placeholders space part.2) := by
  intro template placeholders output
  have hsplit : splitTemplate [] template.toList =
      ([([], .name ['k', '_']), (['\\', '_'], .pathGroup ['2'])], []) := by decide +kernel
  have hok : compile "p" template placeholders = .ok output := by
    rw [compile, hsplit]
    decide
  obtain ⟨-, parts, last, hsplits, hfails, -, hvalues⟩ :=
    compile_substitutes "p" template placeholders
  refine ⟨hok, parts, last, (hsplits parts last).mpr ⟨rfl, rfl⟩, fun part hpart e hfail => ?_,
    fun space => (hvalues output hok space).1⟩
  obtain ⟨e', he'⟩ := hfails.mpr ⟨part, hpart, e, hfail⟩
  cases hok.symm.trans he'

end Output

end Signpost
