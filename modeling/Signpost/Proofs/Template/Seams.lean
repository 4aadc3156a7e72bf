import Signpost.Proofs.Template.Chain

/-! # Placeholders at seams

A template is read as one text, and the expression of its path one fragment at a time. Both find
the same placeholders unless a fragment ends inside a name that the next one goes on with: then the
template has one longer name, or one name more, than the expression has groups for.
-/
namespace Signpost.Template
open Entries Placeholder Scope

/-- What can stand behind the colon of a named placeholder. -/
def IsName (cs : List Char) : Prop :=
  ∃ c tail, cs = c :: tail ∧ isNameStart c = true ∧ ∀ d ∈ tail, isNameChar d = true

theorem IsName.forall_isNameChar {cs : List Char} (h : IsName cs) :
    ∀ d ∈ cs, isNameChar d = true := by
  obtain ⟨c, tail, rfl, hc, htail⟩ := h
  exact List.forall_mem_cons.mpr ⟨isNameChar_of_isNameStart hc, htail⟩

theorem IsName.append {cs ds : List Char} (h : IsName cs) (hds : ∀ d ∈ ds, isNameChar d = true) :
    IsName (cs ++ ds) := by
  obtain ⟨c, tail, rfl, hc, htail⟩ := h
  exact ⟨c, tail ++ ds, rfl, hc, List.forall_mem_append.mpr ⟨htail, hds⟩⟩

/-- The first text ends in a colon and a part of a name, and the second one goes on with the name. -/
def Splits (head tail : List Char) : Prop :=
  ∃ front name c rest, head = front ++ ':' :: name ∧ tail = c :: rest ∧ IsName (name ++ [c])

theorem Splits.append_left {head tail : List Char} (h : Splits head tail) (more : List Char) :
    Splits (more ++ head) tail := by
  obtain ⟨front, name, c, rest, rfl, rfl, hname⟩ := h
  exact ⟨more ++ front, name, c, rest, by simp, rfl, hname⟩

theorem not_splits_nil (tail : List Char) : ¬ Splits [] tail := by
  rintro ⟨front, name, c, rest, heq, -⟩
  simp at heq

theorem splits_cons_iff {c : Char} {head tail : List Char}
    (h : ∀ d rest, tail = d :: rest → ¬ (c = ':' ∧ IsName (head ++ [d]))) :
    Splits (c :: head) tail ↔ Splits head tail := by
  refine ⟨?_, fun hsplit => hsplit.append_left [c]⟩
  rintro ⟨front, name, d, rest, heq, rfl, hname⟩
  cases front with
  | nil =>
    obtain ⟨rfl, rfl⟩ := List.cons.inj heq
    exact absurd ⟨rfl, hname⟩ (h d rest rfl)
  | cons c' front =>
    obtain ⟨-, rfl⟩ := List.cons.inj heq
    exact ⟨front, name, d, rest, rfl, rfl, hname⟩

/-- Behind a character that ends names, what stands before it does not count. -/
theorem splits_append_iff (front : List Char) {rest tail : List Char} {d : Char}
    (hd : isNameChar d = false) :
    Splits (front ++ d :: rest) tail ↔ Splits (d :: rest) tail := by
  induction front with
  | nil => rfl
  | cons c front ih =>
    rw [← ih]
    refine splits_cons_iff fun e more _ hname => ?_
    have hchar := hname.2.forall_isNameChar d (by simp)
    rw [hd] at hchar
    cases hchar

/-- The length of names, each with its colon. -/
def extent (names : List String) : Nat :=
  (names.map fun name => name.toList.length + 1).sum

@[simp] theorem extent_append (ns ms : List String) : extent (ns ++ ms) = extent ns + extent ms := by
  simp [extent]

@[simp] theorem names_cons_text (c : Char) (ts : List Token) : names (.text c :: ts) = names ts := rfl

theorem extent_cons_named (name : List Char) (ts : List Token) :
    extent (names (.hole (.named name) :: ts)) = name.length + 1 + extent (names ts) := by
  change extent (String.ofList name :: names ts) = _
  simp [extent]

theorem tokens_takeWhile (cs : List Char) :
    tokens cs = (cs.takeWhile isNameChar).map .text ++ tokens (cs.dropWhile isNameChar) := by
  induction cs with
  | nil => simp
  | cons c cs ih =>
    by_cases hc : isNameChar c = true
    · have hcolon : c ≠ ':' := by
        rintro rfl
        cases hc
      rw [tokens_cons_of_none (atStart?_of_ne hcolon cs), ih, List.takeWhile_cons, if_pos hc,
        List.dropWhile_cons, if_pos hc]
      rfl
    · rw [List.takeWhile_cons, if_neg hc, List.dropWhile_cons, if_neg hc]
      rfl

theorem stops_dropWhile (cs : List Char) : Stops (cs.dropWhile isNameChar) := by
  intro d hd
  have hstop := List.head?_dropWhile_not isNameChar cs
  rw [hd] at hstop
  exact hstop

/-- A name that the first text is read up to the end of goes on as far as the second one lets it. -/
theorem tokens_open {name : List Char} (hname : IsName name) (tail : List Char) :
    tokens (':' :: (name ++ tail)) =
      .hole (.named (name ++ tail.takeWhile isNameChar)) ::
        tokens (tail.dropWhile isNameChar) := by
  obtain ⟨c, front, rfl, hc, hfront⟩ := hname
  have hall : ∀ d ∈ front ++ tail.takeWhile isNameChar, isNameChar d = true :=
    List.forall_mem_append.mpr ⟨hfront, fun d hd => List.mem_takeWhile_imp hd⟩
  have hstart := atStart?_named hc hall (stops_dropWhile tail)
  rw [List.append_assoc, List.takeWhile_append_dropWhile] at hstart
  exact tokens_of_atStart? hstart

/-- What reading two texts as one finds, beside what it finds in each of them. -/
structure Joined (head tail : List Char) : Prop where
  named : .hole .anonymous ∉ tokens head
  apart : ¬ Splits head tail → tokens (head ++ tail) = tokens head ++ tokens tail
  longer : Splits head tail → extent (names (tokens head)) + extent (names (tokens tail)) <
    extent (names (tokens (head ++ tail)))

theorem Joined.cons_text {c : Char} {head tail : List Char} (hjoined : Joined head tail)
    (hhead : tokens (c :: head) = .text c :: tokens head)
    (hall : tokens (c :: (head ++ tail)) = .text c :: tokens (head ++ tail))
    (hsplits : Splits (c :: head) tail ↔ Splits head tail) : Joined (c :: head) tail where
  named := by
    rw [hhead]
    simpa using hjoined.named
  apart h := by
    rw [List.cons_append, hall, hhead, hjoined.apart (hsplits.not.mp h)]
    rfl
  longer h := by
    rw [List.cons_append, hall, hhead]
    exact hjoined.longer (hsplits.mp h)

theorem joined_name {name : List Char} (hname : IsName name) (tail : List Char) :
    Joined (':' :: name) tail := by
  have hhead : tokens (':' :: name) = [.hole (.named name)] := by
    have hopen := tokens_open hname []
    rwa [List.append_nil, List.takeWhile_nil, List.append_nil, List.dropWhile_nil, tokens_nil]
      at hopen
  have hall := tokens_open hname tail
  have htail := tokens_takeWhile tail
  cases htake : tail.takeWhile isNameChar with
  | nil =>
    rw [htake, List.append_nil] at hall
    rw [htake, List.map_nil, List.nil_append] at htail
    have happend : tokens (':' :: name ++ tail) = tokens (':' :: name) ++ tokens tail := by
      rw [List.cons_append, hall, hhead, htail]
      rfl
    refine ⟨by simp [hhead], fun _ => happend, ?_⟩
    rintro ⟨front, name', c, rest, -, rfl, hsplit⟩
    have hc := hsplit.forall_isNameChar c (by simp)
    rw [List.takeWhile_cons, if_pos hc] at htake
    cases htake
  | cons c more =>
    rw [htake] at hall htail
    have hsplit : Splits (':' :: name) tail := by
      have hc : isNameChar c = true := by
        refine List.mem_takeWhile_imp (l := tail) ?_
        rw [htake]
        exact List.mem_cons_self
      obtain ⟨rest, hrest⟩ : ∃ rest, tail = c :: rest := by
        have hprefix := List.takeWhile_prefix isNameChar (l := tail)
        rw [htake] at hprefix
        obtain ⟨rest, hrest⟩ := hprefix
        exact ⟨more ++ rest, by rw [← hrest]; rfl⟩
      exact ⟨[], name, c, rest, rfl, hrest, hname.append (by simp [hc])⟩
    refine ⟨by simp [hhead], fun h => absurd hsplit h, fun _ => ?_⟩
    rw [List.cons_append, hall, hhead, htail, names_append, names_map_text, extent_append,
      extent_cons_named, extent_cons_named]
    simp [extent, names]

theorem joined_colon {tail : List Char} (htail : tail.head? ≠ some ':') : Joined [':'] tail := by
  have hhead : tokens [':'] = [.text ':'] := by
    rw [tokens_cons_of_none (atStart?_singleton ':'), tokens_nil]
  by_cases hstart : ∃ c rest, tail = c :: rest ∧ isNameStart c = true
  · obtain ⟨c, rest, rfl, hc⟩ := hstart
    have hname : IsName [c] := ⟨c, [], rfl, hc, by simp⟩
    have hsplit : Splits [':'] (c :: rest) := ⟨[], [], c, rest, rfl, rfl, hname⟩
    have hcolon : c ≠ ':' := by
      rintro rfl
      cases hc
    refine ⟨by simp [hhead], fun h => absurd hsplit h, fun _ => ?_⟩
    have hall := tokens_open hname rest
    have hmore := tokens_takeWhile rest
    rw [List.singleton_append] at hall
    rw [List.singleton_append, hall, hhead, tokens_cons_of_none (atStart?_of_ne hcolon rest), hmore,
      names_cons_text, names_cons_text, names_append, names_map_text, List.nil_append,
      extent_cons_named]
    simp [extent, names]
  · have hsplit : ¬ Splits [':'] tail := by
      rintro ⟨front, name, c, rest, heq, rfl, hname⟩
      cases front with
      | nil =>
        obtain ⟨-, rfl⟩ := List.cons.inj heq
        obtain ⟨c', more, heq, hc, -⟩ := hname
        obtain ⟨rfl, -⟩ := List.cons.inj heq
        exact hstart ⟨c, rest, rfl, hc⟩
      | cons c' front => simp at heq
    have happend : tokens ([':'] ++ tail) = tokens [':'] ++ tokens tail := by
      cases tail with
      | nil => simp
      | cons c rest =>
        rw [hhead]
        refine tokens_cons_of_none ((atStart?_eq_none_iff ':' c rest).mpr ?_)
        rintro ⟨-, rfl | hc⟩
        · exact htail rfl
        · exact hstart ⟨c, rest, rfl, hc⟩
    exact ⟨by simp [hhead], fun _ => happend, fun h => absurd h hsplit⟩

/-- A name at the start ends where it did, so that the texts join as they do behind it. -/
theorem Joined.cons_named {c d : Char} {more rest tail : List Char} (hc : isNameStart c = true)
    (hmore : ∀ e ∈ more, isNameChar e = true) (hd : isNameChar d = false)
    (h : Joined (d :: rest) tail) : Joined (':' :: c :: (more ++ d :: rest)) tail := by
  have hs : atStart? (':' :: c :: (more ++ d :: rest)) = some (.named (c :: more), d :: rest) :=
    atStart?_named hc hmore (stops_cons hd rest)
  have hall : atStart? (':' :: c :: (more ++ (d :: rest ++ tail))) =
      some (.named (c :: more), d :: rest ++ tail) :=
    atStart?_named hc hmore (stops_cons hd (rest ++ tail))
  have hsplits : Splits (':' :: c :: (more ++ d :: rest)) tail ↔ Splits (d :: rest) tail :=
    splits_append_iff (':' :: c :: more) hd
  have happend : ':' :: c :: (more ++ d :: rest) ++ tail =
      ':' :: c :: (more ++ (d :: rest ++ tail)) := by simp
  refine ⟨?_, fun hapart => ?_, fun hsplit => ?_⟩
  · rw [tokens_of_atStart? hs]
    simpa using h.named
  · rw [happend, tokens_of_atStart? hall, tokens_of_atStart? hs]
    exact congrArg _ (h.apart (hsplits.not.mp hapart))
  · have hlonger := h.longer (hsplits.mp hsplit)
    rw [happend, tokens_of_atStart? hall, tokens_of_atStart? hs, extent_cons_named,
      extent_cons_named]
    omega

/-- A character that no placeholder begins at is one by itself in the joined text too, since what
makes it so stands in the first text. -/
theorem atStart?_append_eq_none {c : Char} {rest : List Char} (hs : atStart? (c :: rest) = none)
    (hcolon : ¬(c = ':' ∧ rest = [])) (tail : List Char) :
    atStart? (c :: (rest ++ tail)) = none ∧
      ∀ d more, tail = d :: more → ¬(c = ':' ∧ IsName (rest ++ [d])) := by
  cases rest with
  | nil =>
    refine ⟨atStart?_of_ne (fun hc => hcolon ⟨hc, rfl⟩) _, ?_⟩
    rintro d more - ⟨hc, -⟩
    exact hcolon ⟨hc, rfl⟩
  | cons d rest =>
    have hplain := (atStart?_eq_none_iff c d rest).mp hs
    refine ⟨(atStart?_eq_none_iff c d _).mpr hplain, ?_⟩
    rintro d' more - ⟨rfl, e, name, heq, he, -⟩
    obtain ⟨rfl, -⟩ := List.cons.inj heq
    exact hplain ⟨rfl, Or.inr he⟩

theorem joined_of_anonymous_notMem {head tail : List Char}
    (h : .hole .anonymous ∉ tokens (head ++ tail)) : Joined head tail := by
  induction hn : head.length using Nat.strongRecOn generalizing head with
  | _ n ih =>
    subst hn
    cases hs : atStart? head with
    | some found =>
      obtain ⟨p, rest⟩ := found
      have hlt := length_lt_of_atStart? hs
      cases p with
      | anonymous =>
        rw [atStart?_eq hs] at h
        have hall : tokens (Placeholder.written .anonymous ++ rest ++ tail) =
            .hole .anonymous :: tokens (rest ++ tail) := tokens_of_atStart? rfl
        rw [hall] at h
        simp at h
      | named name =>
        obtain ⟨c, more, rfl, rfl, hc, hmore, hstops⟩ := exists_of_atStart?_named hs
        cases rest with
        | nil =>
          rw [List.append_nil]
          exact joined_name ⟨c, more, rfl, hc, hmore⟩ tail
        | cons d rest =>
          have hd := hstops d rfl
          have hall : tokens (':' :: c :: (more ++ d :: rest) ++ tail) =
              .hole (.named (c :: more)) :: tokens (d :: rest ++ tail) := by
            have happend : ':' :: c :: (more ++ d :: rest) ++ tail =
                ':' :: c :: (more ++ d :: (rest ++ tail)) := by simp
            rw [happend]
            exact tokens_of_atStart? (atStart?_named hc hmore (stops_cons hd (rest ++ tail)))
          rw [hall] at h
          exact (ih _ hlt (fun hmem => h (List.mem_cons_of_mem _ hmem)) rfl).cons_named hc hmore hd
    | none =>
      cases head with
      | nil => exact ⟨by simp, fun _ => by simp, fun hsplit => absurd hsplit (not_splits_nil tail)⟩
      | cons c rest =>
        by_cases hcolon : c = ':' ∧ rest = []
        · obtain ⟨rfl, rfl⟩ := hcolon
          refine joined_colon fun hhead => h ?_
          obtain ⟨more, rfl⟩ := List.head?_eq_some_iff.mp hhead
          have hall : tokens ([':'] ++ ':' :: more) = .hole .anonymous :: tokens more :=
            tokens_of_atStart? rfl
          rw [hall]
          exact List.mem_cons_self
        · obtain ⟨hnone, hbegins⟩ := atStart?_append_eq_none hs hcolon tail
          rw [List.cons_append, tokens_cons_of_none hnone] at h
          have hrest := ih rest.length (Nat.lt_succ_self _)
            (fun hmem => h (List.mem_cons_of_mem _ hmem)) rfl
          exact hrest.cons_text (tokens_cons_of_none hs) (tokens_cons_of_none hnone)
            (splits_cons_iff hbegins)

/-- A placeholder of the template spans two fragments. -/
def SplitsAtSeam (chain : List Declaration) : Prop :=
  ∃ outer d inner, chain = outer ++ d :: inner ∧ Splits (template outer) (fragment d)

theorem splitsAtSeam_concat {chain : List Declaration} {d : Declaration} :
    SplitsAtSeam (chain ++ [d]) ↔ SplitsAtSeam chain ∨ Splits (template chain) (fragment d) := by
  constructor
  · rintro ⟨outer, e, inner, heq, hsplit⟩
    rcases inner.eq_nil_or_concat with rfl | ⟨inner, e', rfl⟩
    · obtain ⟨rfl, hd⟩ := List.append_inj' heq rfl
      cases hd
      exact Or.inr hsplit
    · have heq' : chain ++ [d] = (outer ++ e :: inner) ++ [e'] := by simp [heq]
      obtain ⟨rfl, -⟩ := List.append_inj' heq' rfl
      exact Or.inl ⟨outer, e, inner, rfl, hsplit⟩
  · rintro (⟨outer, e, inner, rfl, hsplit⟩ | hsplit)
    · exact ⟨outer, e, inner ++ [d], by simp, hsplit⟩
    · exact ⟨chain, d, [], rfl, hsplit⟩

/-- The template has the tokens of the fragments, or its names are longer than theirs together. -/
theorem chainTokens_eq_or {chain : List Declaration}
    (h : .hole .anonymous ∉ tokens (template chain)) :
    ¬ SplitsAtSeam chain ∧ tokens (template chain) = chainTokens chain ∨
      SplitsAtSeam chain ∧ extent (names (chainTokens chain)) <
        extent (names (tokens (template chain))) := by
  induction chain using List.reverseRecOn with
  | nil =>
    refine Or.inl ⟨?_, tokens_nil⟩
    rintro ⟨outer, d, inner, heq, -⟩
    simp at heq
  | append_singleton chain d ih =>
    rw [template_concat] at h ⊢
    have hjoined := joined_of_anonymous_notMem h
    rw [splitsAtSeam_concat, chainTokens_concat, names_append, extent_append]
    rcases ih hjoined.named with ⟨hseam, heq⟩ | ⟨hseam, hlt⟩
    · by_cases hsplit : Splits (template chain) (fragment d)
      · have hlonger := hjoined.longer hsplit
        rw [heq] at hlonger
        exact Or.inr ⟨Or.inr hsplit, hlonger⟩
      · refine Or.inl ⟨not_or.mpr ⟨hseam, hsplit⟩, ?_⟩
        rw [hjoined.apart hsplit, heq]
    · refine Or.inr ⟨Or.inl hseam, ?_⟩
      by_cases hsplit : Splits (template chain) (fragment d)
      · have hlonger := hjoined.longer hsplit
        omega
      · rw [hjoined.apart hsplit, names_append, extent_append]
        omega

def HasLiteralPath (d : Declaration) : Prop :=
  ∀ p, find? .path d.conditions = some p → ∃ text, p = .literal text

theorem IsLiteral.hasLiteralPath {d : Declaration} (h : IsLiteral d) : HasLiteralPath d := by
  intro p hp
  obtain ⟨text, heq⟩ := h _ (mem_of_find? hp)
  cases heq
  exact ⟨text, rfl⟩

/-- The names that are recorded for the path of a declaration, in order. -/
def recordedNames (d : Declaration) : List String :=
  match find? .path (Level.kept d.conditions) with
  | some p => (Level.found .path p).map Prod.fst
  | none => []

theorem names_flatMap_escaped (ts : List Token) : names (ts.flatMap escaped) = names ts := by
  induction ts with
  | nil => rfl
  | cons t ts ih =>
    rw [List.flatMap_cons, names_append, ih]
    cases t with
    | text c => simp [escaped, names_map_text]
    | hole p => cases p <;> rfl

theorem HasLiteralPath.kept {d : Declaration} (h : HasLiteralPath d) :
    find? .path (Level.kept d.conditions) =
      if fragment d = [] then none else some (.literal (String.ofList (fragment d))) := by
  rw [Level.find?_kept d.sorted, fragment]
  cases hfind : find? Field.path d.conditions with
  | none => rfl
  | some p =>
    obtain ⟨text, rfl⟩ := h p hfind
    have hempty := isEmptyPath_literal text
    by_cases htext : text.toList = []
    · simp [htext, hempty.mpr htext]
    · simp [htext, Bool.eq_false_iff.mpr (hempty.not.mpr htext)]

theorem HasLiteralPath.recordedNames_eq {d : Declaration} (h : HasLiteralPath d) :
    recordedNames d = names (tokens (fragment d)) := by
  rw [recordedNames, h.kept]
  by_cases hempty : fragment d = []
  · rw [if_pos hempty, hempty, tokens_nil]
    rfl
  · rw [if_neg hempty]
    simp only [Level.found_eq, List.map_map]
    change (marks 0 _).map Prod.fst = _
    rw [map_fst_marks, tokens_source_literal, String.toList_ofList, names_cons_text, names_append,
      names_flatMap_escaped]
    simp [names]

theorem flatMap_recordedNames {chain : List Declaration} (h : ∀ d ∈ chain, HasLiteralPath d) :
    chain.flatMap recordedNames = names (chainTokens chain) := by
  induction chain with
  | nil => rfl
  | cons d chain ih =>
    obtain ⟨hd, hchain⟩ := List.forall_mem_cons.mp h
    rw [List.flatMap_cons, chainTokens_cons, names_append, hd.recordedNames_eq, ih hchain]

theorem template_of_hasLiteralPath {chain : List Declaration}
    (h : ∀ d ∈ chain, HasLiteralPath d) : (ofChain chain).template = .ok (template chain) := by
  induction chain with
  | nil => rfl
  | cons d chain ih =>
    obtain ⟨hd, hchain⟩ := List.forall_mem_cons.mp h
    change Scope.template (d.level :: ofChain chain) = .ok (fragment d ++ template chain)
    rw [Scope.template, Declaration.level, Level.find?_declare_conditions, hd.kept, ih hchain]
    by_cases hempty : fragment d = []
    · simp [hempty]
    · simp [hempty, Level.condition, Pattern.template?, Except.map]

theorem anonymous_notMem_of_ofTemplate {cs : List Char} {segments : List Segment}
    (h : Segment.ofTemplate cs = .ok segments) : .hole .anonymous ∉ tokens cs := by
  induction hn : cs.length using Nat.strongRecOn generalizing cs segments with
  | _ n ih =>
    subst hn
    rw [Segment.ofTemplate] at h
    split at h
    · rename_i hf
      rw [tokens_of_first?_none hf]
      simp
    · cases h
    · rename_i before name after hf
      obtain ⟨rest, hrest, -⟩ := exists_of_bind_eq_ok h
      have hlt : after.length < cs.length := by
        rw [first?_eq hf]
        simp [Placeholder.written]
        omega
      rw [tokens_of_first? hf]
      simpa using ih _ hlt hrest rfl

/-- When a route on literal fragments can have a name, its segments name the placeholders that are
recorded for the fragments, one by one, exactly if no placeholder spans a seam. -/
theorem placeholderNames_eq_iff {chain : List Declaration} {params : List (String × String)}
    {defaults : Params} {decision : Option Decision} {route : Route} {segments : List Segment}
    (h : ∀ d ∈ chain, HasLiteralPath d)
    (hroute : Route.ofScope (ofChain chain) params defaults decision = .ok route)
    (hsegments : route.segments = .ok segments) :
    Link.placeholderNames segments = chain.flatMap recordedNames ↔
      ∀ outer d inner, chain = outer ++ d :: inner →
        ¬ Splits (template outer) (fragment d) := by
  have hof : Segment.ofTemplate (template chain) = .ok segments := by
    rw [segments_of_ofScope hroute, Scope.segments, template_of_hasLiteralPath h] at hsegments
    exact hsegments
  have hanonymous := anonymous_notMem_of_ofTemplate hof
  have hnames : Link.placeholderNames segments = names (tokens (template chain)) := by
    obtain ⟨segments', hof', hnames, -⟩ := exists_segments hanonymous
    rw [hof] at hof'
    cases hof'
    exact hnames
  have hseams : (∀ outer d inner, chain = outer ++ d :: inner →
      ¬ Splits (template outer) (fragment d)) ↔ ¬ SplitsAtSeam chain := by
    simp [SplitsAtSeam]
  rw [hnames, flatMap_recordedNames h, hseams]
  rcases chainTokens_eq_or hanonymous with ⟨hseam, heq⟩ | ⟨hseam, hlt⟩
  · exact iff_of_true (congrArg names heq) hseam
  · refine iff_of_false (fun heq => ?_) (not_not.mpr hseam)
    rw [heq] at hlt
    exact Nat.lt_irrefl _ hlt

/-- A fragment that ends in a name, one that adds nothing, one that ends the name and ends in a colon
itself, and one that begins no name behind the colon. -/
theorem placeholderNames_eq_iff_delimited :
    let chain : List Declaration :=
      [⟨[(.path, .literal "/:user")], [], by decide⟩, ⟨[(.path, .literal "")], [], by decide⟩,
        ⟨[(.path, .literal "-x:")], [], by decide⟩, ⟨[(.path, .literal "/:id")], [], by decide⟩]
    ∀ outer d inner, chain = outer ++ d :: inner → ¬ Splits (template outer) (fragment d) := by
  intro chain
  have hliteral : ∀ d ∈ chain, IsLiteral d := by simp [chain, IsLiteral]
  have hne : ∃ d ∈ chain, fragment d ≠ [] := ⟨_, List.mem_cons_self, by decide⟩
  obtain ⟨route, hroute⟩ :=
    exists_route hliteral hne [] [] none (by decide +kernel) (by decide +kernel)
  have hsegments : route.segments = .ok [.literal "/", .placeholder "user", .literal "-x:/",
      .placeholder "id"] := by
    rw [segments_of_ofScope hroute]
    decide +kernel
  refine (placeholderNames_eq_iff (fun d hd => ?_) hroute hsegments).mp (by decide +kernel)
  exact (hliteral d hd).hasLiteralPath

/-- The name of the first fragment goes on in the second one: the address has a placeholder of the
longer name, and the expression a group for the shorter one. -/
theorem placeholderNames_ne_of_split :
    let chain : List Declaration :=
      [⟨[(.path, .literal "/:a")], [], by decide⟩, ⟨[(.path, .literal "b")], [], by decide⟩]
    ∃ route segments, Route.ofScope (ofChain chain) [] [] none = .ok route ∧
      route.segments = .ok segments ∧ Link.placeholderNames segments = ["ab"] ∧
      chain.flatMap recordedNames = ["a"] ∧
      (ofChain chain).placeholders = [("a", (.path, 1))] := by
  intro chain
  have hliteral : ∀ d ∈ chain, IsLiteral d := by simp [chain, IsLiteral]
  have hne : ∃ d ∈ chain, fragment d ≠ [] := ⟨_, List.mem_cons_self, by decide⟩
  obtain ⟨route, hroute⟩ :=
    exists_route hliteral hne [] [] none (by decide +kernel) (by decide +kernel)
  refine ⟨route, [.literal "/", .placeholder "ab"], hroute, ?_, rfl, by decide +kernel⟩
  rw [segments_of_ofScope hroute]
  decide +kernel

end Signpost.Template
