import Signpost.Link
import Signpost.Proofs.Template.Language

/-! # Addresses of templates

A template without anonymous captures has segments, and the address built from them is the text
that the template's tokens make with a value for every name. Values that hold no slash and are not
empty leave no run of slashes to squeeze.
-/
namespace Signpost.Template
open Placeholder

def written : Token → List Char
  | .text c => [c]
  | .hole p => p.written

theorem flatMap_written_tokens (cs : List Char) : (tokens cs).flatMap written = cs := by
  induction hn : cs.length using Nat.strongRecOn generalizing cs with
  | _ n ih =>
    cases hs : atStart? cs with
    | some found =>
      obtain ⟨p, rest⟩ := found
      have hlt := length_lt_of_atStart? hs
      rw [tokens_of_atStart? hs, List.flatMap_cons, ih rest.length (hn ▸ hlt) rest rfl,
        atStart?_eq hs]
      rfl
    | none =>
      cases cs with
      | nil => simp
      | cons c rest =>
        rw [tokens_cons_of_none hs, List.flatMap_cons, ih rest.length (by simp [← hn]) rest rfl]
        rfl

theorem anonymous_notMem_tokens {cs : List Char} (h : ¬ [':', ':'] <:+: cs) :
    .hole .anonymous ∉ tokens cs := by
  intro hmem
  obtain ⟨front, back, hsplit⟩ := List.append_of_mem hmem
  refine h ⟨front.flatMap written, back.flatMap written, ?_⟩
  have hcs := flatMap_written_tokens cs
  rw [hsplit, List.flatMap_append, List.flatMap_cons] at hcs
  rw [List.append_assoc]
  exact hcs

def names (ts : List Token) : List String :=
  ts.filterMap fun
    | .hole (.named name) => some (String.ofList name)
    | _ => none

/-- The tokens with texts for the names. -/
def filled (value : String → String) (ts : List Token) : List Char :=
  ts.flatMap fun
    | .text c => [c]
    | .hole (.named name) => (value (String.ofList name)).toList
    | .hole .anonymous => []

@[simp] theorem filled_text (value : String → String) (c : Char) (ts : List Token) :
    filled value (.text c :: ts) = c :: filled value ts := rfl

@[simp] theorem filled_named (value : String → String) (name : List Char) (ts : List Token) :
    filled value (.hole (.named name) :: ts) =
      (value (String.ofList name)).toList ++ filled value ts := rfl

theorem filled_append (value : String → String) (ts us : List Token) :
    filled value (ts ++ us) = filled value ts ++ filled value us :=
  List.flatMap_append

theorem names_append (ts us : List Token) : names (ts ++ us) = names ts ++ names us :=
  List.filterMap_append

theorem filled_map_text (value : String → String) (cs : List Char) :
    filled value (cs.map .text) = cs := by
  induction cs with
  | nil => rfl
  | cons c cs ih => rw [List.map_cons, filled_text, ih]

theorem names_map_text (cs : List Char) : names (cs.map .text) = [] := by
  induction cs with
  | nil => rfl
  | cons c cs ih => exact ih

theorem map_fst_marks (before : Nat) (ts : List Token) :
    (marks before ts).map Prod.fst = names ts := by
  induction ts generalizing before with
  | nil => rfl
  | cons t ts ih =>
    cases t with
    | text c => exact ih _
    | hole p =>
      cases p with
      | named name => exact congrArg (String.ofList name :: ·) (ih _)
      | anonymous => exact ih _

theorem ofTemplate_of_first?_none {cs : List Char} (h : first? cs = none) :
    Segment.ofTemplate cs = .ok (Segment.ofText cs) := by
  rw [Segment.ofTemplate]
  split
  · rfl
  · rename_i h'
    rw [h] at h'
    cases h'
  · rename_i h'
    rw [h] at h'
    cases h'

theorem ofTemplate_of_first?_anonymous {cs before after : List Char}
    (h : first? cs = some (before, .anonymous, after)) :
    Segment.ofTemplate cs = .error .anonymousCapture := by
  rw [Segment.ofTemplate]
  split
  · rename_i h'
    rw [h] at h'
    cases h'
  · rfl
  · rename_i h'
    rw [h] at h'
    cases h'

theorem ofTemplate_of_first?_named {cs before name after : List Char}
    (h : first? cs = some (before, .named name, after)) :
    Segment.ofTemplate cs = (Segment.ofTemplate after).map fun segments =>
      Segment.ofText before ++ .placeholder (String.ofList name) :: segments := by
  rw [Segment.ofTemplate]
  split
  · rename_i h'
    rw [h] at h'
    cases h'
  · rename_i h'
    rw [h] at h'
    cases h'
  · rename_i h'
    rw [h] at h'
    cases h'
    cases Segment.ofTemplate after <;> rfl

def segmentsText (source : LinkSource) (fallback : Query.QueryMap) (segments : List Segment) :
    List Char :=
  segments.flatMap fun segment => (Link.segmentText source fallback segment).toList

theorem segmentsText_ofText (source : LinkSource) (fallback : Query.QueryMap) (cs : List Char) :
    segmentsText source fallback (Segment.ofText cs) = cs := by
  unfold Segment.ofText
  split
  · rename_i hempty
    rw [List.isEmpty_iff.mp hempty]
    rfl
  · simp [segmentsText, Link.segmentText]

theorem placeholderNames_ofText (cs : List Char) :
    Link.placeholderNames (Segment.ofText cs) = [] := by
  unfold Segment.ofText
  split
  · rfl
  · rfl

/-- A template without anonymous captures has segments; they name its placeholders in order, and
they make the text of its tokens. -/
theorem exists_segments {cs : List Char} (h : .hole .anonymous ∉ tokens cs) :
    ∃ segments, Segment.ofTemplate cs = .ok segments ∧
      Link.placeholderNames segments = names (tokens cs) ∧
      ∀ (source : LinkSource) (fallback : Query.QueryMap) (value : String → String),
        (∀ name ∈ names (tokens cs), source.text? name = some (value name)) →
        segmentsText source fallback segments = filled value (tokens cs) := by
  induction hn : cs.length using Nat.strongRecOn generalizing cs with
  | _ n ih =>
    cases hf : first? cs with
    | none =>
      refine ⟨_, ofTemplate_of_first?_none hf, ?_, ?_⟩
      · rw [placeholderNames_ofText, tokens_of_first?_none hf, names_map_text]
      · intro source fallback value _
        rw [segmentsText_ofText, tokens_of_first?_none hf, filled_map_text]
    | some found =>
      obtain ⟨before, p, after⟩ := found
      have htokens := tokens_of_first? hf
      rw [htokens] at h
      cases p with
      | anonymous => simp at h
      | named name =>
        have hlt : after.length < n := by
          rw [← hn, first?_eq hf]
          simp [Placeholder.written]
          omega
        have hafter : .hole .anonymous ∉ tokens after := fun hmem =>
          h (List.mem_append_right _ (List.mem_cons_of_mem _ hmem))
        obtain ⟨segments, hok, hnames, htext⟩ := ih after.length hlt hafter rfl
        have hall : names (tokens cs) = String.ofList name :: names (tokens after) := by
          rw [htokens, names_append, names_map_text]
          rfl
        have hwhole : Segment.ofTemplate cs =
            .ok (Segment.ofText before ++ .placeholder (String.ofList name) :: segments) := by
          rw [ofTemplate_of_first?_named hf, hok]
          rfl
        refine ⟨_, hwhole, ?_, ?_⟩
        · rw [hall, ← hnames, Link.placeholderNames, List.filterMap_append]
          change Link.placeholderNames (Segment.ofText before) ++ _ = _
          rw [placeholderNames_ofText]
          rfl
        · intro source fallback value hvalue
          rw [hall] at hvalue
          obtain ⟨hname, hrest⟩ := List.forall_mem_cons.mp hvalue
          have htail := htext source fallback value hrest
          have hbefore := segmentsText_ofText source fallback before
          rw [segmentsText] at htail hbefore ⊢
          rw [List.flatMap_append, List.flatMap_cons, htail, hbefore, htokens, filled_append,
            filled_map_text, filled_named, Link.segmentText, hname]
          rfl

/-- A value that a placeholder can take. -/
def IsSegment (cs : List Char) : Prop := cs ≠ [] ∧ ∀ c ∈ cs, endsSegment c = false

instance (cs : List Char) : Decidable (IsSegment cs) := inferInstanceAs (Decidable (_ ∧ _))

theorem IsSegment.slash_notMem {cs : List Char} (h : IsSegment cs) : '/' ∉ cs := by
  intro hmem
  have hslash := h.2 '/' hmem
  cases hslash

def Apart : List Char → Prop
  | [] => True
  | c :: cs => (c = '/' → cs.head? ≠ some '/') ∧ Apart cs

theorem apart_of_not_within {cs : List Char} (h : ¬ ['/', '/'] <:+: cs) : Apart cs := by
  induction cs with
  | nil => trivial
  | cons c cs ih =>
    refine ⟨?_, ih fun hcs => h (hcs.trans (List.suffix_cons c cs).isInfix)⟩
    rintro rfl hhead
    obtain ⟨rest, rfl⟩ := List.head?_eq_some_iff.mp hhead
    exact h ⟨[], rest, rfl⟩

theorem Apart.of_append {cs ds : List Char} (h : Apart (cs ++ ds)) : Apart ds := by
  induction cs with
  | nil => exact h
  | cons c cs ih => exact ih h.2

theorem Apart.not_within {cs : List Char} (h : Apart cs) : ¬ ['/', '/'] <:+: cs := by
  rintro ⟨front, back, rfl⟩
  rw [List.append_assoc] at h
  exact h.of_append.1 rfl rfl

theorem apart_append {cs ds : List Char} (hcs : '/' ∉ cs) (hds : Apart ds) : Apart (cs ++ ds) := by
  induction cs with
  | nil => exact hds
  | cons c cs ih =>
    rw [List.mem_cons, not_or] at hcs
    exact ⟨fun hc => absurd hc.symm hcs.1, ih hcs.2⟩

theorem squeeze_of_apart {cs : List Char} (h : Apart cs) : Link.squeeze cs = cs := by
  fun_induction Link.squeeze cs with
  | case1 rest ih => exact absurd rfl (h.1 rfl)
  | case2 c rest _ ih => rw [ih h.2]
  | case3 => rfl

theorem finishPath_eq_self {cs : List Char} (h : Apart cs) (hne : cs ≠ [])
    (hlast : cs.getLast? = some '/' → cs = ['/']) : Link.finishPath cs = cs := by
  simp only [Link.finishPath, squeeze_of_apart h]
  split
  · rename_i hslash
    rw [hlast hslash]
    rfl
  · simp [hne]

theorem fits_filled {value : String → String} {ts : List Token}
    (hanonymous : .hole .anonymous ∉ ts)
    (hvalue : ∀ name ∈ names ts, IsSegment (value name).toList) :
    Fits ts ((names ts).map fun name => (value name).toList) (filled value ts) := by
  induction ts with
  | nil => exact .nil
  | cons t ts ih =>
    rw [List.mem_cons, not_or] at hanonymous
    cases t with
    | text c => exact .text c (ih hanonymous.2 hvalue)
    | hole p =>
      cases p with
      | anonymous => exact absurd rfl hanonymous.1
      | named name =>
        obtain ⟨hname, hrest⟩ := List.forall_mem_cons.mp hvalue
        exact .hole _ hname.1 hname.2 (ih hanonymous.2 hrest)

namespace Fits
variable {ts : List Token} {values : List (List Char)} {cs : List Char}

theorem tokens_eq_nil (h : Fits ts values cs) (hcs : cs = []) : ts = [] := by
  cases h with
  | nil => rfl
  | text c h => cases hcs
  | hole p hne hvalue h => exact absurd (List.append_eq_nil_iff.mp hcs).1 hne

theorem head?_written (h : Fits ts values cs) (hcs : cs.head? = some '/') :
    (ts.flatMap written).head? = some '/' := by
  cases h with
  | nil => cases hcs
  | text c h => exact hcs
  | @hole p value ts values cs hne hvalue h =>
    have hhead : value.head? = some '/' := by
      cases value with
      | nil => exact absurd rfl hne
      | cons c value => exact hcs
    exact absurd (List.mem_of_head? hhead) (IsSegment.slash_notMem ⟨hne, hvalue⟩)

theorem getLast?_written (h : Fits ts values cs) (hcs : cs.getLast? = some '/') :
    (ts.flatMap written).getLast? = some '/' := by
  induction h with
  | nil => cases hcs
  | @text c ts values cs h ih =>
    rw [List.flatMap_cons, List.getLast?_append]
    rw [← List.singleton_append, List.getLast?_append] at hcs
    cases hlast : cs.getLast? with
    | some d =>
      rw [hlast] at hcs
      rw [ih (hlast.trans hcs)]
      rfl
    | none =>
      rw [hlast] at hcs
      rw [h.tokens_eq_nil (List.getLast?_eq_none_iff.mp hlast)]
      exact hcs
  | @hole p value ts values cs hne hvalue h ih =>
    rw [List.flatMap_cons, List.getLast?_append]
    rw [List.getLast?_append] at hcs
    cases hlast : cs.getLast? with
    | some d =>
      rw [hlast] at hcs
      rw [ih (hlast.trans hcs)]
      rfl
    | none =>
      rw [hlast, Option.none_or] at hcs
      exact absurd (List.mem_of_getLast? hcs) (IsSegment.slash_notMem ⟨hne, hvalue⟩)

theorem apart (h : Fits ts values cs) (hts : Apart (ts.flatMap written)) : Apart cs := by
  induction h with
  | nil => trivial
  | text c h ih => exact ⟨fun hc hcs => hts.1 hc (h.head?_written hcs), ih hts.2⟩
  | hole p hne hvalue h ih =>
    exact apart_append (IsSegment.slash_notMem ⟨hne, hvalue⟩) (ih hts.of_append)

end Fits

/-- The token is a character that ends a segment. -/
def endsHole : Token → Bool
  | .text c => endsSegment c
  | .hole _ => false

/-- Every placeholder ends the tokens or stands before a character that ends a segment. -/
def Delimited : List Token → Prop
  | [] => True
  | .text _ :: ts => Delimited ts
  | .hole _ :: ts => (∀ t ∈ ts.head?, endsHole t = true) ∧ Delimited ts

instance decidableDelimited : (ts : List Token) → Decidable (Delimited ts)
  | [] => .isTrue trivial
  | .text _ :: ts => decidableDelimited ts
  | .hole _ :: ts => @instDecidableAnd _ _ inferInstance (decidableDelimited ts)

theorem Fits.head?_endsSegment {ts : List Token} {values : List (List Char)} {cs : List Char}
    (h : Fits ts values cs) (hts : ∀ t ∈ ts.head?, endsHole t = true) :
    ∀ c, cs.head? = some c → endsSegment c = true := by
  cases h with
  | nil => simp
  | text c h =>
    rintro _ ⟨⟩
    exact hts _ rfl
  | hole p hne hvalue h => cases hts _ rfl

/-- A segment before the end or a character that ends segments is all that stands before it. -/
theorem segment_eq_of_append_eq {value value' rest rest' : List Char}
    (h : value ++ rest = value' ++ rest') (hvalue : ∀ c ∈ value, endsSegment c = false)
    (hvalue' : ∀ c ∈ value', endsSegment c = false)
    (hrest : ∀ c, rest.head? = some c → endsSegment c = true)
    (hrest' : ∀ c, rest'.head? = some c → endsSegment c = true) : value = value' ∧ rest = rest' := by
  induction value generalizing value' with
  | nil =>
    cases value' with
    | nil => exact ⟨rfl, h⟩
    | cons c value' =>
      have hc := hrest c (by rw [List.nil_append] at h; rw [h]; rfl)
      rw [hvalue' c List.mem_cons_self] at hc
      cases hc
  | cons c value ih =>
    cases value' with
    | nil =>
      have hc := hrest' c (by rw [List.nil_append] at h; rw [← h]; rfl)
      rw [hvalue c List.mem_cons_self] at hc
      cases hc
    | cons c' value' =>
      obtain ⟨rfl, htail⟩ := List.cons.inj h
      obtain ⟨rfl, hrest⟩ := ih htail (fun d hd => hvalue d (List.mem_cons_of_mem _ hd))
        (fun d hd => hvalue' d (List.mem_cons_of_mem _ hd))
      exact ⟨rfl, hrest⟩

/-- A text fits such tokens in one way. -/
theorem Fits.unique {ts : List Token} {values values' : List (List Char)} {cs : List Char}
    (hts : Delimited ts) (h : Fits ts values cs) (h' : Fits ts values' cs) : values = values' := by
  induction h generalizing values' with
  | nil =>
    cases h'
    rfl
  | text c h ih =>
    cases h' with
    | text _ h' => exact ih hts h'
  | @hole p value ts values rest hne hvalue h ih =>
    generalize hcs : value ++ rest = cs at h'
    cases h' with
    | @hole _ value' _ values' rest' hne' hvalue' h' =>
      obtain ⟨rfl, rfl⟩ := segment_eq_of_append_eq hcs hvalue hvalue'
        (h.head?_endsSegment hts.1) (h'.head?_endsSegment hts.1)
      rw [ih hts.2 h']

end Signpost.Template
