import Signpost.Proofs.Percent
import Signpost.Proofs.Query.Sequence
import Signpost.Query.Encode
import Mathlib.Data.List.TakeDrop
import Mathlib.Data.List.TakeWhile

/-! # Pairs, written and read

The written name of a leaf is read as the path to it, provided that the names of its keys can be
told from brackets and the path is short enough. Every path that is read from a name is of this
kind.
-/
namespace Signpost.Query
open Signpost.Text Value Value.leaves

/-- A head and further steps that a name can stand for. -/
structure Named (head : String) (steps : List Step) : Prop where
  head_free : '[' ∉ head.toList
  keys_free : ∀ k, .key k ∈ steps → k ≠ "" ∧ ']' ∉ k.toList
  length_lt : steps.length < maxNesting

/-- A step as it is written, with `write` for the texts of keys. -/
def stepText (write : String → List Char) : Step → List Char
  | .key k => '[' :: (write k ++ [']'])
  | .push => ['[', ']']

def pathText (write : String → List Char) : List Step → List Char
  | .key head :: steps => write head ++ steps.flatMap (stepText write)
  | _ => []

def pairText (l : Leaf) : List Char := pathText Percent.written l.1 ++ '=' :: Percent.written l.2

theorem toList_pairs (v : Value) (name : String) :
    (v.pairs name).map String.toList = v.leaves.map fun l =>
      name.toList ++ l.1.flatMap (stepText Percent.written) ++ '=' :: Percent.written l.2 := by
  induction v using Value.induct generalizing name with
  | text s => simp [Value.pairs, Percent.toList_encode]
  | list items ih =>
    rw [Value.pairs, leaves_list]
    induction items with
    | nil => simp [Value.pairs.listPairs]
    | cons v rest ihrest =>
      have hv := ih v List.mem_cons_self (name ++ "[]")
      have hrest := ihrest fun u hu => ih u (List.mem_cons_of_mem _ hu)
      simp only [Value.pairs.listPairs, List.map_append, hv, hrest, listLeaves_cons, under,
        List.map_map, Function.comp_def]
      simp [stepText]
  | map entries ih =>
    rw [Value.pairs, leaves_map]
    induction entries with
    | nil => simp [Value.pairs.mapPairs]
    | cons e rest ihrest =>
      have he := ih e List.mem_cons_self (name ++ "[" ++ Percent.encode e.1 ++ "]")
      have hrest := ihrest fun u hu => ih u (List.mem_cons_of_mem _ hu)
      simp only [Value.pairs.mapPairs, List.map_append, he, hrest, mapLeaves_cons, under,
        List.map_map, Function.comp_def]
      simp [stepText, Percent.toList_encode]

theorem toList_mapPairs (m : QueryMap) : (pairs m).map String.toList =
    (Value.map m).leaves.map pairText := by
  rw [pairs, leaves_map]
  induction m with
  | nil => simp
  | cons e rest ih =>
    simp only [List.flatMap_cons, List.map_append, toList_pairs, ih, mapLeaves_cons, under,
      List.map_map, Function.comp_def, pairText, pathText, Percent.toList_encode]

theorem ne_of_mem_written {s : String} {c d : Char} (h : c ∈ Percent.written s)
    (hd : (Percent.isUnreserved d || d == '%') = false) : c ≠ d := by
  rintro rfl
  rcases Percent.isUnreserved_of_mem_written h with hu | rfl
  · simp [hu] at hd
  · simp at hd

theorem ne_of_mem_stepText {step : Step} {c d : Char} (h : c ∈ stepText Percent.written step)
    (hd : (Percent.isUnreserved d || d == '%') = false) (hopen : d ≠ '[') (hclose : d ≠ ']') :
    c ≠ d := by
  cases step with
  | key k =>
    rcases List.mem_cons.mp h with rfl | h
    · exact hopen.symm
    · rcases List.mem_append.mp h with h | h
      · exact ne_of_mem_written h hd
      · rw [List.mem_singleton.mp h]
        exact hclose.symm
  | push =>
    rcases List.mem_cons.mp h with rfl | h
    · exact hopen.symm
    · rw [List.mem_singleton.mp h]
      exact hclose.symm

theorem ne_of_mem_pathText {p : List Step} {c d : Char} (h : c ∈ pathText Percent.written p)
    (hd : (Percent.isUnreserved d || d == '%') = false) (hopen : d ≠ '[') (hclose : d ≠ ']') :
    c ≠ d := by
  match p with
  | [] => simp [pathText] at h
  | .push :: _ => simp [pathText] at h
  | .key head :: steps =>
    rcases List.mem_append.mp h with h | h
    · exact ne_of_mem_written h hd
    · obtain ⟨step, -, h⟩ := List.mem_flatMap.mp h
      exact ne_of_mem_stepText h hd hopen hclose

theorem ne_of_mem_pairText {l : Leaf} {c d : Char} (h : c ∈ pairText l)
    (hd : (Percent.isUnreserved d || d == '%') = false) (hopen : d ≠ '[') (hclose : d ≠ ']')
    (heq : d ≠ '=') : c ≠ d := by
  rcases List.mem_append.mp h with h | h
  · exact ne_of_mem_pathText h hd hopen hclose
  · rcases List.mem_cons.mp h with rfl | h
    · exact heq.symm
    · exact ne_of_mem_written h hd

theorem splitAtEach_append {separator : Char → Bool} {part rest : List Char}
    (h : ∀ c ∈ part, separator c = false) :
    splitAtEach separator (part ++ rest) =
      match splitAtEach separator rest with
      | first :: parts => (part ++ first) :: parts
      | [] => [part] := by
  induction part with
  | nil =>
    cases hs : splitAtEach separator rest with
    | nil =>
      cases rest with
      | nil => simp [splitAtEach] at hs
      | cons c rest =>
        simp only [splitAtEach] at hs
        split at hs
        · simp at hs
        · split at hs <;> simp at hs
    | cons first parts => simp [hs]
  | cons c part ih =>
    have hc := h c List.mem_cons_self
    rw [List.cons_append, splitAtEach, hc, ih fun d hd => h d (List.mem_cons_of_mem _ hd)]
    cases splitAtEach separator rest <;> simp

theorem splitAtEach_intercalate {separator : Char → Bool} {s : Char} (hs : separator s = true)
    {parts : List (List Char)} (hne : parts ≠ [])
    (h : ∀ part ∈ parts, ∀ c ∈ part, separator c = false) :
    splitAtEach separator ([s].intercalate parts) = parts := by
  induction parts with
  | nil => exact absurd rfl hne
  | cons part rest ih =>
    have hpart := h part List.mem_cons_self
    cases rest with
    | nil =>
      rw [List.intercalate_singleton, ← List.append_nil part, splitAtEach_append hpart]
      simp [splitAtEach]
    | cons part' rest =>
      rw [List.intercalate_cons_cons, List.append_assoc, splitAtEach_append hpart,
        List.singleton_append, splitAtEach, if_pos hs,
        ih (by simp) fun p hp => h p (List.mem_cons_of_mem _ hp)]
      simp

theorem pairText_ne_nil (l : Leaf) : pairText l ≠ [] := by simp [pairText]

theorem rawPairs_encode (m : QueryMap) : rawPairs (encode m) = (Value.map m).leaves.map pairText := by
  have hchars : (encode m).toList = ['&'].intercalate ((Value.map m).leaves.map pairText) := by
    rw [encode, String.toList_intercalate, toList_mapPairs]
    rfl
  rw [rawPairs, hchars]
  by_cases hne : (Value.map m).leaves.map pairText = []
  · rw [hne]
    rfl
  · rw [splitAtEach_intercalate (by simp) hne, List.filter_eq_self]
    · intro part hpart
      obtain ⟨l, -, rfl⟩ := List.mem_map.mp hpart
      simpa using pairText_ne_nil l
    · intro part hpart c hc
      obtain ⟨l, -, rfl⟩ := List.mem_map.mp hpart
      have hamp : c ≠ '&' := ne_of_mem_pairText hc (by decide) (by decide) (by decide) (by decide)
      have hsemi : c ≠ ';' := ne_of_mem_pairText hc (by decide) (by decide) (by decide) (by decide)
      simp [hamp, hsemi]

theorem span_append_of_ne {part rest : List Char} {c : Char} (h : ∀ d ∈ part, d ≠ c) :
    (part ++ c :: rest).span (· != c) = (part, c :: rest) := by
  rw [List.span_eq_takeWhile_dropWhile]
  have hall : ∀ d ∈ part, (d != c) = true := fun d hd => by simpa using h d hd
  rw [List.takeWhile_append_of_pos hall, List.dropWhile_append_of_pos hall]
  simp

theorem span_of_ne {part : List Char} {c : Char} (h : ∀ d ∈ part, d ≠ c) :
    part.span (· != c) = (part, []) := by
  rw [List.span_eq_takeWhile_dropWhile]
  have hall : ∀ d ∈ part, (d != c) = true := fun d hd => by simpa using h d hd
  rw [List.takeWhile_eq_self_iff.mpr hall, List.dropWhile_eq_nil_iff.mpr hall]

theorem splitPair_pairText (l : Leaf) :
    splitPair (pairText l) = (pathText Percent.written l.1, Percent.written l.2) := by
  have h : ∀ c ∈ pathText Percent.written l.1, c ≠ '=' := fun c hc =>
    ne_of_mem_pathText hc (by decide) (by decide) (by decide)
  rw [splitPair, pairText, span_append_of_ne h]
  rfl

theorem decodeComponent_eq {raw plain : List Char} (hplus : ∀ c ∈ raw, c ≠ '+')
    (h : Percent.decodeBytes (Percent.bytes raw) = Percent.bytes plain) :
    decodeComponent raw = .ok (String.ofList plain) := by
  have hraw : (raw.map fun c => if c = '+' then ' ' else c) = raw := by
    refine (List.map_congr_left fun c hc => ?_).trans (List.map_id raw)
    exact if_neg (hplus c hc)
  simp only [decodeComponent, hraw, Percent.decode?, Percent.toUTF8_toList, String.toList_ofList, h,
    Percent.fromUTF8?_bytes]

theorem decodeComponent_written (s : String) : decodeComponent (Percent.written s) = .ok s := by
  have h := Percent.decodeBytes_written s []
  rw [List.append_nil, Percent.decodeBytes, List.append_nil] at h
  rw [decodeComponent_eq (fun c hc => ne_of_mem_written hc (by decide)) h, String.ofList_toList]

theorem bytes_open (cs : List Char) : Percent.bytes ('[' :: cs) = 91 :: Percent.bytes cs := rfl

theorem bytes_close (cs : List Char) : Percent.bytes (']' :: cs) = 93 :: Percent.bytes cs := rfl

theorem decodeBytes_stepText (step : Step) (rest : List UInt8) :
    Percent.decodeBytes (Percent.bytes (stepText Percent.written step) ++ rest) =
      Percent.bytes (stepText String.toList step) ++ Percent.decodeBytes rest := by
  have hopen : (91 : UInt8) ≠ 37 := by decide
  have hclose : (93 : UInt8) ≠ 37 := by decide
  cases step with
  | key k =>
    simp only [stepText, bytes_open, bytes_close, Percent.bytes_append, List.cons_append,
      List.append_assoc, Percent.decodeBytes_cons_of_ne hopen, Percent.decodeBytes_written,
      Percent.decodeBytes_cons_of_ne hclose]
    rfl
  | push =>
    simp only [stepText, bytes_open, bytes_close, List.cons_append,
      Percent.decodeBytes_cons_of_ne hopen, Percent.decodeBytes_cons_of_ne hclose]
    rfl

theorem decodeBytes_steps (steps : List Step) (rest : List UInt8) :
    Percent.decodeBytes (Percent.bytes (steps.flatMap (stepText Percent.written)) ++ rest) =
      Percent.bytes (steps.flatMap (stepText String.toList)) ++ Percent.decodeBytes rest := by
  induction steps with
  | nil => rfl
  | cons step steps ih =>
    simp only [List.flatMap_cons, Percent.bytes_append, List.append_assoc, decodeBytes_stepText, ih]

theorem decodeComponent_pathText (p : List Step) :
    decodeComponent (pathText Percent.written p) =
      .ok (String.ofList (pathText String.toList p)) := by
  apply decodeComponent_eq fun c hc => ne_of_mem_pathText hc (by decide) (by decide) (by decide)
  match p with
  | [] => rfl
  | .push :: _ => rfl
  | .key head :: steps =>
    have h := decodeBytes_steps steps []
    rw [List.append_nil, Percent.decodeBytes, List.append_nil] at h
    rw [pathText, pathText, Percent.bytes_append, Percent.bytes_append,
      Percent.decodeBytes_written, h]

theorem bracketSteps_flatMap {steps : List Step} {room fuel : Nat}
    (hkeys : ∀ k, .key k ∈ steps → k ≠ "" ∧ ']' ∉ k.toList) (hroom : steps.length ≤ room)
    (hfuel : steps.length ≤ fuel) :
    bracketSteps room fuel (steps.flatMap (stepText String.toList)) = some steps := by
  induction steps generalizing room fuel with
  | nil => cases fuel <;> simp [bracketSteps]
  | cons step steps ih =>
    obtain ⟨fuel, rfl⟩ := Nat.exists_eq_succ_of_ne_zero (Nat.ne_zero_of_lt hfuel)
    obtain ⟨room, rfl⟩ := Nat.exists_eq_succ_of_ne_zero (Nat.ne_zero_of_lt hroom)
    have hrest := ih (fun k hk => hkeys k (List.mem_cons_of_mem _ hk)) (Nat.le_of_succ_le_succ hroom)
      (Nat.le_of_succ_le_succ hfuel)
    rw [List.flatMap_cons]
    cases step with
    | key k =>
      obtain ⟨hne, hclose⟩ := hkeys k List.mem_cons_self
      have hspan := @span_append_of_ne k.toList (steps.flatMap (stepText String.toList)) ']'
        fun d hd he => hclose (he ▸ hd)
      have hempty : k.toList.isEmpty = false := by simpa using hne
      simp only [stepText, List.cons_append, List.append_assoc, List.nil_append, bracketSteps, hspan,
        hempty, hrest, String.ofList_toList, Bool.false_eq_true, if_false, Option.map_some]
    | push =>
      have hspan := @span_append_of_ne [] (steps.flatMap (stepText String.toList)) ']' (by simp)
      rw [List.nil_append] at hspan
      simp only [stepText, List.cons_append, List.nil_append, bracketSteps, hspan, hrest,
        List.isEmpty_nil, if_true, Option.map_some]

theorem length_le_flatMap_stepText (write : String → List Char) (steps : List Step) :
    steps.length ≤ (steps.flatMap (stepText write)).length := by
  induction steps with
  | nil => rfl
  | cons step steps ih =>
    rw [List.flatMap_cons, List.length_append, List.length_cons]
    have : 0 < (stepText write step).length := by cases step <;> simp [stepText]
    omega

theorem Named.keyPath_eq {head : String} {steps : List Step} (h : Named head steps) :
    keyPath (String.ofList (pathText String.toList (.key head :: steps))) =
      .ok (.key head :: steps) := by
  have hspan : (head.toList ++ steps.flatMap (stepText String.toList)).span (· != '[') =
      (head.toList, steps.flatMap (stepText String.toList)) := by
    have hhead : ∀ d ∈ head.toList, d ≠ '[' := fun d hd he => h.head_free (he ▸ hd)
    match steps with
    | [] => simpa using span_of_ne hhead
    | .key k :: steps => exact span_append_of_ne hhead
    | .push :: steps => exact span_append_of_ne hhead
  have hsteps : bracketSteps (maxNesting - 1)
      ((steps.flatMap (stepText String.toList)).length + 1)
      (steps.flatMap (stepText String.toList)) = some steps := by
    have hle := length_le_flatMap_stepText String.toList steps
    have hlt := h.length_lt
    exact bracketSteps_flatMap h.keys_free (by omega) (by omega)
  rw [keyPath, pathText, String.toList_ofList, hspan]
  simp only [hsteps, String.ofList_toList]

theorem bracketSteps_some {room fuel : Nat} {cs : List Char} {steps : List Step}
    (h : bracketSteps room fuel cs = some steps) :
    (∀ k, .key k ∈ steps → k ≠ "" ∧ ']' ∉ k.toList) ∧ steps.length ≤ room := by
  induction fuel generalizing room cs steps with
  | zero =>
    rw [bracketSteps] at h
    cases h
    simp
  | succ fuel ih =>
    unfold bracketSteps at h
    split at h
    · rename_i inner
      rw [List.span_eq_takeWhile_dropWhile] at h
      simp only at h
      split at h
      · rw [Option.some.injEq] at h
        simp [← h]
      · rename_i hrest
        cases room with
        | zero => simp at h
        | succ room =>
          obtain ⟨steps', hsteps', rfl⟩ := Option.map_eq_some_iff.mp h
          obtain ⟨hkeys, hlen⟩ := ih hsteps'
          refine ⟨fun k hk => ?_, by simpa using hlen⟩
          rcases List.mem_cons.mp hk with hk | hk
          · split at hk
            · simp at hk
            · rename_i hne
              cases hk
              refine ⟨?_, ?_⟩
              · rw [Ne, String.ofList_eq_empty_iff]
                simpa using hne
              · rw [String.toList_ofList]
                intro hmem
                have := List.mem_takeWhile_imp hmem
                simp at this
          · exact hkeys k hk
    · rw [Option.some.injEq] at h
      simp [← h]

theorem named_of_keyPath {name : String} {p : List Step} (h : keyPath name = .ok p) :
    ∃ head steps, p = .key head :: steps ∧ Named head steps := by
  rw [keyPath, List.span_eq_takeWhile_dropWhile] at h
  simp only at h
  split at h
  · rename_i steps hsteps
    cases h
    obtain ⟨hkeys, hlen⟩ := bracketSteps_some hsteps
    refine ⟨_, steps, rfl, ?_, hkeys, ?_⟩
    · rw [String.toList_ofList]
      intro hmem
      have := List.mem_takeWhile_imp hmem
      simp at this
    · simp only [maxNesting] at hlen ⊢
      omega
  · cases h

end Signpost.Query
