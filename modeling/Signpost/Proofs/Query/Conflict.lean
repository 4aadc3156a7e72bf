import Signpost.Proofs.Query.Agreement
import Signpost.Proofs.Query.Pair
import Signpost.Proofs.Result

/-! # Conflicting names

Pairs are read one by one, and then each text is placed where its name leads. A name is checked
against what stands on the way to its end and not against what stands at the end: no name goes on
from a name that stands for a text, but a text that comes to the place of a list or a map takes it
over and what was in it is gone.
-/
namespace Signpost.Query

/-- A pair as it is read, before its text has a place. -/
structure ReadPair where
  name : String
  path : List Step
  text : String
  deriving DecidableEq, Repr

def readPair (pair : List Char) : Except QueryError ReadPair := do
  let (rawName, rawText) := splitPair pair
  let name ← decodeComponent rawName
  let text ← decodeComponent rawText
  let path ← keyPath name
  return ⟨name, path, text⟩

/-- The pairs of a query string, if all of them can be read. -/
def readPairs (q : String) : Except QueryError (List ReadPair) := (rawPairs q).mapM readPair

/-- The name has a head; other pairs are left out. -/
def ReadPair.Headed (p : ReadPair) : Prop := p.path.head? ≠ some (.key "")

instance (p : ReadPair) : Decidable p.Headed := inferInstanceAs (Decidable (_ ≠ _))

def placePair (m : QueryMap) (p : ReadPair) : Except QueryError QueryMap :=
  if p.Headed then
    match insertAt m p.path p.text with
    | some m' => .ok m'
    | none => .error (.typeMismatch p.name)
  else .ok m

def placedPaths (ps : List ReadPair) : List (List Step) :=
  (ps.filter fun p => p.Headed).map ReadPair.path

section Reading
variable {p : ReadPair} {ps : List ReadPair}

theorem placedPaths_cons_of_headed (h : p.Headed) :
    placedPaths (p :: ps) = p.path :: placedPaths ps := by
  simp [placedPaths, h]

theorem placedPaths_cons_of_not_headed (h : ¬ p.Headed) :
    placedPaths (p :: ps) = placedPaths ps := by
  simp [placedPaths, h]

theorem placedPaths_append (ps ps' : List ReadPair) :
    placedPaths (ps ++ ps') = placedPaths ps ++ placedPaths ps' := by
  simp [placedPaths]

theorem exists_of_placedPaths_eq {front back : List (List Step)} {path : List Step}
    (h : placedPaths ps = front ++ path :: back) : ∃ front' p back', ps = front' ++ p :: back' ∧
      p.Headed ∧ p.path = path ∧ placedPaths back' = back := by
  obtain ⟨front₀, rest, hfilter, -, hrest⟩ := List.map_eq_append_iff.mp h
  obtain ⟨p, back₀, rfl, hpath, hback⟩ := List.map_eq_cons_iff.mp hrest
  obtain ⟨front₁, rest, rfl, -, hrest⟩ := List.filter_eq_append_iff.mp hfilter
  obtain ⟨skipped, back₁, rfl, -, hhead, hback₁⟩ := List.filter_eq_cons_iff.mp hrest
  refine ⟨front₁ ++ skipped, p, back₁, by simp, by simpa using hhead, hpath, ?_⟩
  rw [placedPaths, hback₁, hback]

theorem of_readPair {pair : List Char} (h : readPair pair = .ok p) :
    decodeComponent (splitPair pair).1 = .ok p.name ∧
      decodeComponent (splitPair pair).2 = .ok p.text ∧ keyPath p.name = .ok p.path := by
  obtain ⟨name, hname, h⟩ := exists_of_bind_eq_ok h
  obtain ⟨text, htext, h⟩ := exists_of_bind_eq_ok h
  obtain ⟨path, hpath, h⟩ := exists_of_bind_eq_ok h
  cases h
  exact ⟨hname, htext, hpath⟩

theorem addPair_eq_placePair {pair : List Char} (h : readPair pair = .ok p) (m : QueryMap) :
    addPair m pair = placePair m p := by
  obtain ⟨hname, htext, hpath⟩ := of_readPair h
  simp only [addPair, hname, htext, hpath, bind, Except.bind]
  by_cases hhead : p.Headed
  · rw [if_neg hhead, placePair, if_pos hhead]
    cases insertAt m p.path p.text <;> rfl
  · rw [if_pos (not_not.mp hhead), placePair, if_neg hhead]
    rfl

theorem kindOf_of_readPair {pair : List Char} (h : readPair pair = .ok p) :
    kindOf p.path = .map := by
  obtain ⟨-, -, hpath⟩ := of_readPair h
  obtain ⟨head, steps, heq, -⟩ := named_of_keyPath hpath
  rw [heq]
  rfl

theorem foldlM_addPair_eq {raw : List (List Char)} (h : raw.mapM readPair = .ok ps)
    (m : QueryMap) : raw.foldlM addPair m = ps.foldlM placePair m := by
  have hread := mapM_eq_ok_iff.mp h
  clear h
  induction hread generalizing m with
  | nil => rfl
  | @cons pair p raw ps hpair _ ih =>
    rw [List.foldlM_cons, List.foldlM_cons, addPair_eq_placePair hpair]
    cases placePair m p with
    | error e => rfl
    | ok m' => exact ih m'

theorem decode_eq_of_readPairs {q : String} (h : readPairs q = .ok ps) :
    decode q = ps.foldlM placePair [] :=
  foldlM_addPair_eq h []

theorem kindOf_of_readPairs {q : String} (h : readPairs q = .ok ps) :
    ∀ p ∈ ps, kindOf p.path = .map := by
  intro p hp
  obtain ⟨pair, -, hpair⟩ := (mem_of_mapM_eq_ok h).2 p hp
  exact kindOf_of_readPair hpair

end Reading

section Placing
variable {ps : List ReadPair}

/-- Placing pairs ends with all of them placed or at the first one whose path does not go on from
those before it. -/
theorem foldlM_placePair_cases {m : QueryMap} {earlier : List (List Step)}
    (hps : ∀ p ∈ ps, kindOf p.path = .map) (htracks : Tracks earlier (.map m))
    (hearlier : Consistent earlier) :
    (∃ m', ps.foldlM placePair m = .ok m' ∧
      Consistent ((placedPaths ps).reverse ++ earlier)) ∨
    ∃ front p back, ps = front ++ p :: back ∧ p.Headed ∧
      ps.foldlM placePair m = .error (.typeMismatch p.name) ∧
      Consistent ((placedPaths front).reverse ++ earlier) ∧
      ¬ GoesOn ((placedPaths front).reverse ++ earlier) p.path := by
  induction ps generalizing m earlier with
  | nil => exact Or.inl ⟨m, rfl, hearlier⟩
  | cons p ps ih =>
    have hkind := hps p List.mem_cons_self
    have hrest : ∀ p ∈ ps, kindOf p.path = .map := fun p hp => hps p (List.mem_cons_of_mem _ hp)
    rw [List.foldlM_cons, placePair]
    by_cases hhead : p.Headed
    · rw [if_pos hhead, insertAt]
      cases hw : place (.text p.text) p.path (some (.map m)) with
      | none =>
        have hnot := (htracks.place_eq_none_iff hkind).mp hw
        exact Or.inr ⟨[], p, ps, rfl, hhead, rfl, hearlier, hnot⟩
      | some w =>
        have hplaced := Placed.of_place hw
        have hne : p.path ≠ [] := by
          intro hnil
          rw [hnil] at hkind
          cases hkind
        obtain ⟨m', rfl⟩ : ∃ m', w = .map m' := by
          have hw := hplaced.kind_eq
          rw [hkind] at hw
          cases w with
          | map m' => exact ⟨m', rfl⟩
          | text s => cases hw
          | list items => cases hw
        have hgoes : GoesOn earlier p.path := by
          by_contra hnot
          rw [(htracks.place_eq_none_iff hkind).mpr hnot] at hw
          cases hw
        have htracks' := htracks.cons hne hplaced
        rcases ih hrest htracks' ⟨hgoes, hearlier⟩ with
          ⟨m'', hread, hconsistent⟩ | ⟨front, p', back, rfl, hhead', hread, hfront, hnot⟩
        · refine Or.inl ⟨m'', hread, ?_⟩
          simpa [placedPaths_cons_of_headed hhead] using hconsistent
        · refine Or.inr ⟨p :: front, p', back, rfl, hhead', hread, ?_, ?_⟩
          · simpa [placedPaths_cons_of_headed hhead] using hfront
          · simpa [placedPaths_cons_of_headed hhead] using hnot
    · rw [if_neg hhead]
      rcases ih hrest htracks hearlier with
        ⟨m', hread, hconsistent⟩ | ⟨front, p', back, rfl, hhead', hread, hfront, hnot⟩
      · refine Or.inl ⟨m', hread, ?_⟩
        rwa [placedPaths_cons_of_not_headed hhead]
      · refine Or.inr ⟨p :: front, p', back, rfl, hhead', hread, ?_, ?_⟩
        · rwa [placedPaths_cons_of_not_headed hhead]
        · rwa [placedPaths_cons_of_not_headed hhead]

theorem decode_cases_of_readPairs {q : String} (h : readPairs q = .ok ps) :
    (∃ m, decode q = .ok m ∧ Consistent (placedPaths ps).reverse) ∨
    ∃ front p back, ps = front ++ p :: back ∧ p.Headed ∧
      decode q = .error (.typeMismatch p.name) ∧ Consistent (placedPaths front).reverse ∧
      ¬ GoesOn (placedPaths front).reverse p.path := by
  have hcases := foldlM_placePair_cases (kindOf_of_readPairs h) tracks_nil trivial
  rw [← decode_eq_of_readPairs h] at hcases
  simpa only [List.append_nil] using hcases

theorem not_consistent_of_split {front back : List ReadPair} {p : ReadPair}
    (hsplit : ps = front ++ p :: back) (hhead : p.Headed)
    (hnot : ¬ GoesOn (placedPaths front).reverse p.path) :
    ¬ Consistent (placedPaths ps).reverse := by
  intro hconsistent
  refine hnot (consistent_iff.mp hconsistent (placedPaths back).reverse p.path _ ?_)
  simp [hsplit, placedPaths_append, placedPaths_cons_of_headed hhead]

/-- Pairs that can all be read make a map exactly if each path goes on from those before it. -/
theorem exists_decode_iff_consistent {q : String} (h : readPairs q = .ok ps) :
    (∃ m, decode q = .ok m) ↔ Consistent (placedPaths ps).reverse := by
  rcases decode_cases_of_readPairs h with
    ⟨m, hread, hconsistent⟩ | ⟨front, p, back, hsplit, hhead, hread, -, hnot⟩
  · exact iff_of_true ⟨m, hread⟩ hconsistent
  · refine iff_of_false ?_ (not_consistent_of_split hsplit hhead hnot)
    rintro ⟨m, hok⟩
    rw [hok] at hread
    cases hread

end Placing

theorem keyed_of_notMem {j : List Step} (hne : j ≠ []) (hkeys : .push ∉ j) : Keyed j := by
  obtain ⟨step, hstep⟩ := Option.isSome_iff_exists.mp (List.getLast?_isSome.mpr hne)
  cases step with
  | key k => exact ⟨k, hstep⟩
  | push => exact absurd (List.mem_of_getLast? hstep) hkeys

/-- Once a text was placed at a path of keys there is a text on that path for good: a later path
may only end there or before it. -/
theorem exists_stands_text {k : List Step} {earlier mid : List (List Step)} (hk : k ≠ [])
    (hkeys : .push ∉ k) (hmid : ∀ q ∈ mid, q ≠ []) (h : Consistent (mid ++ k :: earlier)) :
    ∃ j, j ≠ [] ∧ j <+: k ∧ Stands (mid ++ k :: earlier) j .text := by
  induction mid with
  | nil => exact ⟨k, hk, List.prefix_rfl, Or.inl ⟨[], by simp, rfl⟩⟩
  | cons q mid ih =>
    obtain ⟨hgoes, hrest⟩ := h
    obtain ⟨j, hj, hbelow, hstands⟩ := ih (fun q hq => hmid q (List.mem_cons_of_mem _ hq)) hrest
    have hjkeys : .push ∉ j := fun hmem => hkeys (hbelow.subset hmem)
    by_cases hrenews : Renews (∃ κ, Stands (mid ++ k :: earlier) q κ) j q
    · rcases hrenews with ⟨r, rfl⟩ | hq | ⟨s, t, r, rfl, -⟩
      · by_cases hr : r = []
        · exact ⟨j, hj, hbelow, Or.inl ⟨[], by simp [hr], rfl⟩⟩
        · have htext := hgoes j r .text (keyed_of_notMem hj hjkeys) rfl hr hstands
          exact absurd htext (kindOf_ne_text hr)
      · have hqne := hmid q List.mem_cons_self
        exact ⟨q, hqne, hq.trans hbelow, Or.inl ⟨[], by simp, rfl⟩⟩
      · simp at hjkeys
    · exact ⟨j, hj, hbelow, Or.inr ⟨hstands, hrenews⟩⟩

theorem not_consistent_of_prefix {later mid earlier : List (List Step)} {k k' : List Step}
    (hk : k ≠ []) (hkeys : .push ∉ k) (hmid : ∀ q ∈ mid, q ≠ []) (hbelow : k <+: k')
    (hne : k ≠ k') : ¬ Consistent (later ++ k' :: (mid ++ k :: earlier)) := by
  intro h
  have hgoes := consistent_iff.mp h later k' _ rfl
  have hrest : Consistent (mid ++ k :: earlier) := consistent_iff.mpr fun later' q earlier' hsplit =>
    consistent_iff.mp h (later ++ k' :: later') q earlier' (by simp [hsplit])
  obtain ⟨j, hj, ⟨r, rfl⟩, hstands⟩ := exists_stands_text hk hkeys hmid hrest
  obtain ⟨r', rfl⟩ := hbelow
  have hr' : r' ≠ [] := fun hnil => hne (by simp [hnil])
  have hjkeys : .push ∉ j := fun hmem => hkeys (List.mem_append_left _ hmem)
  have htext := hgoes j (r ++ r') .text (keyed_of_notMem hj hjkeys) (by simp) (by simp [hr']) hstands
  exact kindOf_ne_text (by simp [hr']) htext

theorem consistent_of_not_prefix {ps : List (List Step)} (hkeys : ∀ p ∈ ps, .push ∉ p)
    (h : ∀ front p mid p' back, ps = front ++ p :: (mid ++ p' :: back) → p <+: p' → p = p') :
    Consistent ps.reverse := by
  refine consistent_iff.mpr fun later q earlier hsplit n r κ _ hq hr hstands => ?_
  obtain ⟨between, p, before, r', rfl, hp, rfl, -⟩ := exists_of_stands hstands
  have hps : ps = before.reverse ++ p :: (between.reverse ++ q :: later.reverse) := by
    rw [← ps.reverse_reverse, hsplit]
    simp
  have hmap : ∀ {s : List Step}, n ++ s ∈ ps → s ≠ [] → kindOf s = .map := by
    intro s hs hne
    have hpush := hkeys _ hs
    match s with
    | [] => exact absurd rfl hne
    | .key _ :: _ => rfl
    | .push :: _ => simp at hpush
  by_cases hr' : r' = []
  · have heq : p = q := h _ p _ q _ hps ⟨r, by simp [hp, hq, hr']⟩
    have hnil : r = [] := by simpa [hp, hq, hr'] using heq
    exact absurd hnil hr
  · rw [hmap (by simp [← hq, hps]) hr, hmap (by simp [← hp, hps]) hr']

/-- The second pair stands behind the first, and its name goes on from that of the first. -/
def GoesBehind (ps : List ReadPair) (p p' : ReadPair) : Prop :=
  (∃ front mid back, ps = front ++ p :: (mid ++ p' :: back)) ∧ p.Headed ∧ p.path <+: p'.path ∧
    p.path ≠ p'.path

section Orders
variable {ps : List ReadPair} {p p' : ReadPair}

theorem GoesBehind.not_consistent (h : GoesBehind ps p p') (hps : ∀ p ∈ ps, p.path ≠ [])
    (hkeys : .push ∉ p.path) : ¬ Consistent (placedPaths ps).reverse := by
  obtain ⟨⟨front, mid, back, rfl⟩, hhead, hbelow, hne⟩ := h
  have hp : p.path ≠ [] := hps p (by simp)
  have hhead' : p'.Headed := by
    obtain ⟨r, hr⟩ := hbelow
    rw [ReadPair.Headed, ← hr, List.head?_append_of_ne_nil _ hp]
    exact hhead
  have hmid : ∀ q ∈ (placedPaths mid).reverse, q ≠ [] := by
    intro q hq
    obtain ⟨p₀, hp₀, rfl⟩ := List.mem_map.mp (List.mem_reverse.mp hq)
    exact hps p₀ (by simp [(List.mem_filter.mp hp₀).1])
  have hsplit : (placedPaths (front ++ p :: (mid ++ p' :: back))).reverse =
      (placedPaths back).reverse ++ p'.path ::
        ((placedPaths mid).reverse ++ p.path :: (placedPaths front).reverse) := by
    simp [placedPaths_append, placedPaths_cons_of_headed hhead, placedPaths_cons_of_headed hhead']
  rw [hsplit]
  exact not_consistent_of_prefix hp hkeys hmid hbelow hne

theorem consistent_of_not_goesBehind (hkeys : ∀ p ∈ ps, .push ∉ p.path)
    (h : ∀ p p', ¬ GoesBehind ps p p') : Consistent (placedPaths ps).reverse := by
  refine consistent_of_not_prefix ?_ ?_
  · intro path hpath
    obtain ⟨p, hp, rfl⟩ := List.mem_map.mp hpath
    exact hkeys p (List.mem_filter.mp hp).1
  · intro front path mid path' back hsplit hbelow
    obtain ⟨front, p, rest, rfl, hhead, rfl, hrest⟩ := exists_of_placedPaths_eq hsplit
    obtain ⟨mid, p', back, rfl, -, rfl, -⟩ := exists_of_placedPaths_eq hrest
    by_contra hne
    exact h p p' ⟨⟨front, mid, back, rfl⟩, hhead, hbelow, hne⟩

/-- Pairs that can be read make a map exactly if each name goes on from what the names before it
made, and the first one that does not is reported. No name goes on from a name of keys before it.
The other way around nothing is reported: if all names are made of keys, they are refused only when
some name goes on from one before it. -/
theorem typeMismatch_of_readPairs {q : String} (h : readPairs q = .ok ps) :
    ((∃ m, decode q = .ok m) ↔ Consistent (placedPaths ps).reverse) ∧
    (∀ e, decode q = .error e → ∃ front p back, ps = front ++ p :: back ∧ p.Headed ∧
      e = .typeMismatch p.name ∧ Consistent (placedPaths front).reverse ∧
      ¬ GoesOn (placedPaths front).reverse p.path) ∧
    (∀ p p', GoesBehind ps p p' → .push ∉ p.path →
      ∃ name, decode q = .error (.typeMismatch name)) ∧
    ((∀ p ∈ ps, .push ∉ p.path) →
      ((∃ name, decode q = .error (.typeMismatch name)) ↔ ∃ p p', GoesBehind ps p p')) := by
  have hiff := exists_decode_iff_consistent h
  have hps : ∀ p ∈ ps, p.path ≠ [] := by
    intro p hp hnil
    have hkind := kindOf_of_readPairs h p hp
    rw [hnil] at hkind
    cases hkind
  have hrefused : ∀ p p', GoesBehind ps p p' → .push ∉ p.path →
      ∃ name, decode q = .error (.typeMismatch name) := by
    intro p p' hbehind hkeys
    rcases decode_cases_of_readPairs h with ⟨m, -, hconsistent⟩ | ⟨-, p, -, -, -, hread, -⟩
    · exact absurd hconsistent (hbehind.not_consistent hps hkeys)
    · exact ⟨p.name, hread⟩
  refine ⟨hiff, fun e herror => ?_, hrefused, fun hkeys => ⟨?_, ?_⟩⟩
  · rcases decode_cases_of_readPairs h with
      ⟨m, hread, -⟩ | ⟨front, p, back, hsplit, hhead, hread, hfirst⟩
    · rw [hread] at herror
      cases herror
    · rw [hread] at herror
      exact ⟨front, p, back, hsplit, hhead, (Except.error.inj herror).symm, hfirst⟩
  · rintro ⟨name, herror⟩
    by_contra hnone
    obtain ⟨m, hok⟩ := hiff.mpr
      (consistent_of_not_goesBehind hkeys fun p p' hbehind => hnone ⟨p, p', hbehind⟩)
    rw [hok] at herror
    cases herror
  · rintro ⟨p, p', hbehind⟩
    obtain ⟨front, mid, back, hsplit⟩ := hbehind.1
    exact hrefused p p' hbehind (hkeys p (by simp [hsplit]))

/-- A text two levels down, other names and a pair without a head, and then a name that goes on. -/
theorem typeMismatch_of_readPairs_text_first :
    readPairs "l[]=1&a[b]=2&=x&a[c][]=3&a[b][d][e]=4&l[]=5" =
      .ok [⟨"l[]", [.key "l", .push], "1"⟩, ⟨"a[b]", [.key "a", .key "b"], "2"⟩,
        ⟨"", [.key ""], "x"⟩, ⟨"a[c][]", [.key "a", .key "c", .push], "3"⟩,
        ⟨"a[b][d][e]", [.key "a", .key "b", .key "d", .key "e"], "4"⟩,
        ⟨"l[]", [.key "l", .push], "5"⟩] ∧
    ∃ name, decode "l[]=1&a[b]=2&=x&a[c][]=3&a[b][d][e]=4&l[]=5" =
      .error (.typeMismatch name) := by
  have hread : readPairs "l[]=1&a[b]=2&=x&a[c][]=3&a[b][d][e]=4&l[]=5" =
      .ok [⟨"l[]", [.key "l", .push], "1"⟩, ⟨"a[b]", [.key "a", .key "b"], "2"⟩,
        ⟨"", [.key ""], "x"⟩, ⟨"a[c][]", [.key "a", .key "c", .push], "3"⟩,
        ⟨"a[b][d][e]", [.key "a", .key "b", .key "d", .key "e"], "4"⟩,
        ⟨"l[]", [.key "l", .push], "5"⟩] := by decide +kernel
  refine ⟨hread, (typeMismatch_of_readPairs hread).2.2.1 ⟨"a[b]", [.key "a", .key "b"], "2"⟩
    ⟨"a[b][d][e]", [.key "a", .key "b", .key "d", .key "e"], "4"⟩ ⟨?_, ?_, ?_, ?_⟩ (by decide)⟩
  · exact ⟨[⟨"l[]", [.key "l", .push], "1"⟩],
      [⟨"", [.key ""], "x"⟩, ⟨"a[c][]", [.key "a", .key "c", .push], "3"⟩],
      [⟨"l[]", [.key "l", .push], "5"⟩], rfl⟩
  · decide
  · decide
  · decide

/-- The text comes second: it takes the place of the map. -/
theorem decode_text_over_map :
    readPairs "a[b]=1&a=2" =
      .ok [⟨"a[b]", [.key "a", .key "b"], "1"⟩, ⟨"a", [.key "a"], "2"⟩] ∧
    decode "a[b]=1&a=2" = .ok [("a", .text "2")] := by
  decide +kernel

end Orders

end Signpost.Query
