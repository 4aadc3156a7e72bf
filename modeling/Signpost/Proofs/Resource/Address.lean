import Mathlib.Data.List.Chain
import Signpost.Proofs.Declaration.Outcome
import Signpost.Proofs.Resource.Route
import Signpost.Proofs.Template.Link

/-! # The addresses of a resource

The address of an action is a literal path of plain steps. The route for it can be made unless the
program for the path is too large, and the address that is built from it has a value for each
placeholder between the slashes.
-/
namespace Signpost.Resource
open Entries Placeholder Scope Template

/-- What stands behind a slash of an address. -/
inductive Step where
  | word (text : List Char)
  | value (name : List Char)

namespace Step

def written : Step → List Char
  | word text => '/' :: text
  | value name => '/' :: ':' :: name

def tokens : Step → List Token
  | word text => .text '/' :: text.map .text
  | value name => [.text '/', .hole (.named name)]

/-- A step of plain characters; the name of a value is of letters alone. -/
def Plain : Step → Prop
  | word text => text ≠ [] ∧ ∀ c ∈ text, isPlain c = true
  | value name => name ≠ [] ∧ ∀ c ∈ name, isNameStart c = true

instance : (s : Step) → Decidable s.Plain
  | word _ => inferInstanceAs (Decidable (_ ∧ _))
  | value _ => inferInstanceAs (Decidable (_ ∧ _))

def name? : Step → Option String
  | word _ => none
  | value name => some (String.ofList name)

/-- The step with a text for the name. -/
def filled (value : String → String) : Step → List Char
  | word text => '/' :: text
  | .value name => '/' :: (value (String.ofList name)).toList

def size : Step → Nat
  | word text => 32 * (text.length + 1)
  | value _ => 696

end Step

def spell (steps : List Step) : List Char := steps.flatMap Step.written

theorem PlainName.step {name : String} (h : PlainName name) : (Step.word name.toList).Plain :=
  ⟨by simpa using h.1, h.2⟩

variable {steps : List Step}

theorem head?_spell : ∀ c, (spell steps).head? = some c → c = '/' := by
  intro c hc
  cases steps with
  | nil => cases hc
  | cons s steps => cases s <;> exact (Option.some.inj hc).symm

theorem tokens_written {s : Step} (h : s.Plain) : Placeholder.tokens s.written = s.tokens := by
  cases s with
  | word text =>
    have hcolon : ':' ∉ '/' :: text := by
      intro hmem
      rcases List.mem_cons.mp hmem with heq | hmem
      · cases heq
      · have hplain := h.2 ':' hmem
        cases hplain
    exact tokens_of_first?_none (first?_of_notMem hcolon)
  | value name =>
    obtain ⟨hne, hname⟩ := h
    obtain ⟨c, tail, rfl⟩ := List.exists_cons_of_ne_nil hne
    obtain ⟨hc, htail⟩ := List.forall_mem_cons.mp hname
    have hstart : atStart? (':' :: c :: (tail ++ [])) = some (.named (c :: tail), []) :=
      atStart?_named hc (fun d hd => isNameChar_of_isNameStart (htail d hd)) stops_nil
    rw [List.append_nil] at hstart
    rw [Step.written, tokens_cons_of_none (atStart?_of_ne (by decide) _), tokens_of_atStart? hstart,
      tokens_nil]
    rfl

theorem tokens_spell (h : ∀ s ∈ steps, s.Plain) :
    Placeholder.tokens (spell steps) = steps.flatMap Step.tokens := by
  induction steps with
  | nil => exact tokens_nil
  | cons s steps ih =>
    obtain ⟨hs, hsteps⟩ := List.forall_mem_cons.mp h
    have hstops : Stops (spell steps) := by
      intro c hc
      rw [head?_spell c hc]
      decide
    have hcolon : (spell steps).head? ≠ some ':' := by
      intro hc
      cases head?_spell ':' hc
    have hspell : spell (s :: steps) = s.written ++ spell steps := List.flatMap_cons
    rw [hspell, tokens_append hstops hcolon, tokens_written hs, ih hsteps, List.flatMap_cons]

theorem names_steps (steps : List Step) :
    names (steps.flatMap Step.tokens) = steps.filterMap Step.name? := by
  induction steps with
  | nil => rfl
  | cons s steps ih =>
    rw [List.flatMap_cons, names_append, ih]
    cases s with
    | word text =>
      have hnone : names (Step.word text).tokens = [] := names_map_text ('/' :: text)
      rw [hnone]
      rfl
    | value name => rfl

theorem filled_steps (value : String → String) (steps : List Step) :
    filled value (steps.flatMap Step.tokens) = steps.flatMap (Step.filled value) := by
  induction steps with
  | nil => rfl
  | cons s steps ih =>
    rw [List.flatMap_cons, filled_append, ih, List.flatMap_cons]
    cases s with
    | word text =>
      have htext : filled value (Step.word text).tokens = '/' :: text :=
        filled_map_text value ('/' :: text)
      rw [htext]
      rfl
    | value name => simp [Step.tokens, Step.filled, filled]

/-- Of two neighbours one is plain, or they are a slash and a colon. -/
def Neighbours (a b : Char) : Prop :=
  isPlain a = true ∨ isPlain b = true ∨ (a = '/' ∧ b = ':')

theorem isChain_plain_append {text rest : List Char} (h : ∀ c ∈ text, isPlain c = true)
    (hrest : rest.IsChain Neighbours) : (text ++ rest).IsChain Neighbours := by
  induction text with
  | nil => exact hrest
  | cons c text ih =>
    obtain ⟨hc, htext⟩ := List.forall_mem_cons.mp h
    exact List.isChain_cons.mpr ⟨fun _ _ => Or.inl hc, ih htext⟩

theorem isChain_cons_append {text rest : List Char} {c : Char} (hne : text ≠ [])
    (h : ∀ d ∈ text, isPlain d = true) (hrest : rest.IsChain Neighbours) :
    (c :: (text ++ rest)).IsChain Neighbours := by
  refine List.isChain_cons.mpr ⟨fun d hd => ?_, isChain_plain_append h hrest⟩
  rw [List.head?_append_of_ne_nil _ hne] at hd
  exact Or.inr (Or.inl (h d (List.mem_of_mem_head? hd)))

theorem isChain_spell (h : ∀ s ∈ steps, s.Plain) : (spell steps).IsChain Neighbours := by
  induction steps with
  | nil => exact List.isChain_nil
  | cons s steps ih =>
    obtain ⟨hs, hsteps⟩ := List.forall_mem_cons.mp h
    have hrest := ih hsteps
    cases s with
    | word text => exact isChain_cons_append hs.1 hs.2 hrest
    | value name =>
      have hname : ∀ c ∈ name, isPlain c = true := fun c hc => isPlain_of_isNameStart (hs.2 c hc)
      refine List.isChain_cons.mpr ⟨?_, isChain_cons_append hs.1 hname hrest⟩
      rintro _ ⟨⟩
      exact Or.inr (Or.inr ⟨rfl, rfl⟩)

theorem not_within_of_isChain {cs : List Char} (h : cs.IsChain Neighbours) {c : Char}
    (hc : isPlain c = false) : ¬ [c, c] <:+: cs := by
  intro hinfix
  have hpair := h.infix hinfix
  rw [List.isChain_pair, Neighbours, hc] at hpair
  rcases hpair with hpair | hpair | ⟨rfl, heq⟩
  · cases hpair
  · cases hpair
  · cases heq

theorem mem_spell (h : ∀ s ∈ steps, s.Plain) {c : Char} (hc : c ∈ spell steps) :
    c = '/' ∨ c = ':' ∨ isPlain c = true := by
  obtain ⟨s, hs, hc⟩ := List.mem_flatMap.mp hc
  have hplain := h s hs
  cases s with
  | word text =>
    rcases List.mem_cons.mp hc with rfl | hc
    · exact Or.inl rfl
    · exact Or.inr (Or.inr (hplain.2 c hc))
  | value name =>
    simp only [Step.written, List.mem_cons] at hc
    rcases hc with rfl | rfl | hc
    · exact Or.inl rfl
    · exact Or.inr (Or.inl rfl)
    · exact Or.inr (Or.inr (isPlain_of_isNameStart (hplain.2 c hc)))

theorem getLast?_written {s : Step} (h : s.Plain) :
    ∃ c, s.written.getLast? = some c ∧ isPlain c = true := by
  cases s with
  | word text =>
    obtain ⟨front, c, rfl⟩ := (List.eq_nil_or_concat text).resolve_left h.1
    refine ⟨c, ?_, h.2 c (by simp)⟩
    rw [Step.written, List.concat_eq_append, ← List.cons_append, List.getLast?_concat]
  | value name =>
    obtain ⟨front, c, rfl⟩ := (List.eq_nil_or_concat name).resolve_left h.1
    refine ⟨c, ?_, isPlain_of_isNameStart (h.2 c (by simp))⟩
    rw [Step.written, List.concat_eq_append, ← List.cons_append, ← List.cons_append,
      List.getLast?_concat]

theorem getLast?_spell_ne (h : ∀ s ∈ steps, s.Plain) : (spell steps).getLast? ≠ some '/' := by
  induction steps with
  | nil => simp [spell]
  | cons s steps ih =>
    obtain ⟨hs, hsteps⟩ := List.forall_mem_cons.mp h
    rw [spell, List.flatMap_cons, List.getLast?_append]
    cases hlast : (steps.flatMap Step.written).getLast? with
    | some c =>
      have hrest := ih hsteps
      rw [spell, hlast] at hrest
      exact hrest
    | none =>
      obtain ⟨c, hc, hplain⟩ := getLast?_written hs
      rw [hc]
      rintro ⟨⟩
      cases hplain

theorem delimited_map_text {ts : List Token} (cs : List Char) (h : Delimited ts) :
    Delimited (cs.map .text ++ ts) := by
  induction cs with
  | nil => exact h
  | cons c cs ih => exact ih

theorem delimited_steps (steps : List Step) : Delimited (steps.flatMap Step.tokens) := by
  induction steps with
  | nil => trivial
  | cons s steps ih =>
    rw [List.flatMap_cons]
    cases s with
    | word text => exact delimited_map_text ('/' :: text) ih
    | value name =>
      refine ⟨fun t ht => ?_, ih⟩
      cases steps with
      | nil => cases ht
      | cons s steps =>
        cases s <;>
        · cases ht
          decide

/-- The declarations around the route for an address of a resource, inside the root. -/
def addressChain (name path : String) : List Declaration :=
  [.ofPath ("/" ++ name), .ofPath path]

variable {name path : String}

theorem template_addressChain (name : String) (hpath : path.toList = spell steps) :
    template (addressChain name path) = spell (.word name.toList :: steps) := by
  rw [Template.template, addressChain, List.flatMap_cons, List.flatMap_cons, List.flatMap_nil,
    fragment_ofPath, fragment_ofPath, hpath, List.append_nil, toList_slash]
  rfl

/-- The path of an address is a template whose addresses lead back. -/
theorem linkable_addressChain (hname : PlainName name) (hsteps : ∀ s ∈ steps, s.Plain)
    (hpath : path.toList = spell steps) : Linkable (addressChain name path) [] := by
  have hplain : ∀ s ∈ .word name.toList :: steps, s.Plain :=
    List.forall_mem_cons.mpr ⟨hname.step, hsteps⟩
  have htemplate := template_addressChain name hpath
  have hchain := isChain_spell hplain
  have htokens := tokens_spell hplain
  exact
    { literal := by simp [addressChain, isLiteral_ofPath]
      ungrouped := by
        intro d hd hmem
        have hspell : '(' ∈ template (addressChain name path) := List.mem_flatMap.mpr ⟨d, hd, hmem⟩
        rw [htemplate] at hspell
        rcases mem_spell hplain hspell with heq | heq | heq
        · cases heq
        · cases heq
        · cases heq
      seamed := by
        apply seamed_of_tail
        intro d hd
        rw [List.mem_singleton.mp hd, fragment_ofPath, hpath]
        cases hhead : (spell steps).head? with
        | none => exact Or.inl (List.head?_eq_none_iff.mp hhead)
        | some c => exact Or.inr (congrArg some (head?_spell c hhead))
      named := htemplate ▸ not_within_of_isChain hchain (by decide)
      apart := htemplate ▸ not_within_of_isChain hchain (by decide)
      nonempty := by
        rw [htemplate]
        exact List.cons_ne_nil _ _
      trimmed := fun hlast => absurd (htemplate ▸ hlast) (getLast?_spell_ne hplain)
      delimited := by
        rw [htemplate, htokens]
        exact delimited_steps _
      kept := fun n _ => ⟨keepsPlaceholder_of_free (by simp [addressChain, Declaration.ofPath]), by simp⟩ }

theorem pair_infix_of_append {c : Char} {cs ds : List Char} (hcs : c ∉ cs)
    (h : [c, c] <:+: cs ++ ds) : [c, c] <:+: ds := by
  induction cs with
  | nil => exact h
  | cons d cs ih =>
    rw [List.mem_cons, not_or] at hcs
    rcases List.infix_cons_iff.mp h with hstart | hrest
    · exact absurd (List.cons_prefix_cons.mp hstart).1 hcs.1
    · exact ih hcs.2 hrest

/-- Literal paths that begin with slashes, one inside the other, are a template without groups of its
own. -/
theorem capturing_ofPaths {texts : List String} (hgroup : ∀ text ∈ texts, '(' ∉ text.toList)
    (hslash : ∀ text ∈ texts, text.toList = [] ∨ text.toList.head? = some '/')
    (hnamed : ¬ [':', ':'] <:+: texts.flatMap String.toList)
    (hne : texts.flatMap String.toList ≠ []) : Capturing (texts.map .ofPath) [] := by
  have htemplate : Template.template (texts.map .ofPath) = texts.flatMap String.toList := by
    simp [Template.template, List.flatMap_map, fragment_ofPath]
  exact
    { literal := by simp [isLiteral_ofPath]
      ungrouped := by simpa [fragment_ofPath] using hgroup
      seamed := by
        refine seamed_of_tail fun d hd => ?_
        obtain ⟨text, htext, rfl⟩ := List.mem_map.mp (List.mem_of_mem_tail hd)
        rw [fragment_ofPath]
        exact hslash text htext
      named := htemplate ▸ hnamed
      nonempty := htemplate ▸ hne
      kept := fun n _ => ⟨keepsPlaceholder_of_free (by simp [Declaration.ofPath]), by simp⟩ }

theorem capturing_addressChain (hname : BareName name) (hgroup : '(' ∉ path.toList)
    (hslash : path.toList = [] ∨ path.toList.head? = some '/')
    (hnamed : ¬ [':', ':'] <:+: path.toList) : Capturing (addressChain name path) [] := by
  have hcolon : ':' ∉ ("/" ++ name).toList := by simpa using hname.colon
  have hopen : '(' ∉ ("/" ++ name).toList := by simpa using hname.parenthesis
  refine @capturing_ofPaths ["/" ++ name, path] ?_ ?_ (fun hpair => ?_) (by simp)
  · exact List.forall_mem_cons.mpr ⟨hopen, List.forall_mem_singleton.mpr hgroup⟩
  · refine List.forall_mem_cons.mpr ⟨Or.inr ?_, List.forall_mem_singleton.mpr hslash⟩
    rw [toList_slash]
    rfl
  · rw [List.flatMap_cons, List.flatMap_singleton] at hpair
    exact hnamed (pair_infix_of_append hcolon hpair)

section Params
variable {chain : List Declaration} {defaults : Params}

theorem mem_params (h : Capturing chain []) (hfree : ∀ d ∈ chain, d.params = [])
    {e : String × String} (he : e ∈ (ofChain (.root defaults :: chain)).params) :
    (e.1 ∈ names (Placeholder.tokens (Template.template chain)) ∧ e.2 = ":" ++ e.1) ∨
      e ∈ defaults := by
  have hfind := (sorted_params (ofChain (.root defaults :: chain))).find?_of_mem he
  by_cases hname : e.1 ∈ names (Placeholder.tokens (Template.template chain))
  · have hown : find? e.1 (ofChain (.root defaults :: chain)).params = some (":" ++ e.1) :=
      h.find?_params hname
    rw [hfind] at hown
    exact Or.inl ⟨hname, Option.some.inj hown⟩
  · right
    rw [← chainTokens_eq h.seamed, mem_names_chainTokens_iff h.literal] at hname
    have houter := find?_params_append (fun d hd hdeclares => hname ⟨d, hd, hdeclares⟩)
      (fun d hd p hp => by rw [hfree d hd] at hp; cases hp) [.root defaults]
    rw [List.singleton_append, hfind, find?_params_root] at houter
    exact List.mem_reverse.mp (mem_of_find? houter.symm)

theorem isOk_outputParams (h : Capturing chain []) (hfree : ∀ d ∈ chain, d.params = [])
    (hdefaults : ∀ e ∈ defaults, IsVerbatim e.2.toList ∧ e.2 ≠ "") :
    (Route.outputParams (ofChain (.root defaults :: chain)) [] defaults).isOk = true := by
  cases hparams : Route.outputParams (ofChain (.root defaults :: chain)) [] defaults with
  | ok outputs => rfl
  | error failure =>
    obtain ⟨e, he, herror⟩ := exists_of_mapM_eq_error hparams
    change Route.outputParam _ defaults e.1 e.2 = _ at herror
    rcases mem_params h hfree he with ⟨hname, htext⟩ | hdefault
    · obtain ⟨k, -, hok⟩ := h.exists_outputParam defaults hname
      rw [htext, hok] at herror
      cases herror
    · obtain ⟨hverbatim, hne⟩ := hdefaults e hdefault
      rw [outputParam_verbatim hverbatim hne] at herror
      cases herror

end Params

def pieceOf : Token → Path.Piece
  | .text c => .char c
  | .hole _ => .hole

theorem nodes_eq (g : Nat) (ts : List Token) :
    Template.nodes g ts = Path.nodes g (ts.map pieceOf) := by
  induction ts generalizing g with
  | nil => rfl
  | cons t ts ih =>
    cases t with
    | text c => exact congrArg (Path.Piece.node g (.char c) :: ·) (ih g)
    | hole p => exact congrArg (Path.Piece.node g .hole :: ·) (ih (g + 1))

theorem pathNode_eq (ts : List Token) : pathNode ts = Path.node (ts.map pieceOf) := by
  rw [pathNode, nodes_eq]
  rfl

theorem size_pieceOf_le (t : Token) :
    (pieceOf t).size ≤ 128 * (Template.written t).length + 664 * (Template.written t).count ':' := by
  cases t with
  | text c =>
    have hsize := Char.utf8Size_le_four c
    simp only [pieceOf, Path.Piece.size, Template.written, List.length_singleton]
    omega
  | hole p =>
    have hcolon := colon_mem_written p
    simp only [pieceOf, Path.Piece.size, Template.written]
    omega

/-- The program for a literal path grows with its characters and its placeholders. -/
theorem programSize_tokens_le (cs : List Char) :
    (pathNode (Placeholder.tokens cs)).programSize ≤ 64 + (128 * cs.length + 664 * cs.count ':') := by
  have hsum : ∀ ts : List Token, ((ts.map pieceOf).map Path.Piece.size).sum ≤
      128 * (ts.flatMap Template.written).length + 664 * (ts.flatMap Template.written).count ':' := by
    intro ts
    induction ts with
    | nil => exact Nat.le_refl 0
    | cons t ts ih =>
      have ht := size_pieceOf_le t
      simp only [List.map_cons, List.sum_cons, List.flatMap_cons, List.length_append,
        List.count_append] at ih ⊢
      omega
  have htokens := hsum (Placeholder.tokens cs)
  rw [flatMap_written_tokens] at htokens
  rw [pathNode_eq, Path.programSize_node]
  omega

theorem sum_size_tokens {s : Step} (h : s.Plain) :
    ((s.tokens.map pieceOf).map Path.Piece.size).sum = s.size := by
  cases s with
  | word text =>
    have hsize : ∀ c ∈ '/' :: text, c.utf8Size = 1 :=
      List.forall_mem_cons.mpr ⟨rfl, fun c hc => utf8Size_of_isPlain (h.2 c hc)⟩
    have hpieces : (Step.word text).tokens.map pieceOf = ('/' :: text).map .char := by
      rw [show (Step.word text).tokens = ('/' :: text).map .text from rfl, List.map_map]
      rfl
    rw [hpieces, Path.sum_size_chars hsize, List.length_cons]
    rfl
  | value name => rfl

theorem programSize_steps (h : ∀ s ∈ steps, s.Plain) :
    (pathNode (steps.flatMap Step.tokens)).programSize = 64 + (steps.map Step.size).sum := by
  have hsum : (((steps.flatMap Step.tokens).map pieceOf).map Path.Piece.size).sum =
      (steps.map Step.size).sum := by
    induction steps with
    | nil => rfl
    | cons s steps ih =>
      obtain ⟨hs, hsteps⟩ := List.forall_mem_cons.mp h
      rw [List.flatMap_cons, List.map_append, List.map_append, List.sum_append, ih hsteps,
        sum_size_tokens hs, List.map_cons, List.sum_cons]
  rw [pathNode_eq, Path.programSize_node, hsum]

theorem programSize_addressChain (hname : PlainName name) (hsteps : ∀ s ∈ steps, s.Plain)
    (hpath : path.toList = spell steps) :
    (pathNode (Placeholder.tokens (Template.template (addressChain name path)))).programSize =
      64 + ((Step.word name.toList :: steps).map Step.size).sum := by
  have hplain : ∀ s ∈ .word name.toList :: steps, s.Plain :=
    List.forall_mem_cons.mpr ⟨hname.step, hsteps⟩
  rw [template_addressChain name hpath, tokens_spell hplain, programSize_steps hplain]

theorem isVerbatim_initialDefaults :
    ∀ e ∈ Router.initialDefaults, IsVerbatim e.2.toList ∧ e.2 ≠ "" := by
  rw [Router.initialDefaults, List.forall_mem_singleton]
  exact ⟨⟨by decide, by decide, by decide⟩, by decide⟩

section Capturing
variable {chain : List Declaration}

theorem exists_outputParams (h : Capturing chain []) (hfree : ∀ d ∈ chain, d.params = []) :
    ∃ outputs, Route.outputParams (ofChain (.root Router.initialDefaults :: chain)) []
      Router.initialDefaults = .ok outputs :=
  exists_eq_ok_of_isOk (isOk_outputParams h hfree isVerbatim_initialDefaults)

/-- A template that sets no parameters makes no route only if the program for its path is too
large. -/
theorem error_of_capturing (h : Capturing chain []) (hfree : ∀ d ∈ chain, d.params = [])
    {e : RouteError} (herror : Route.ofScope (ofChain (.root Router.initialDefaults :: chain)) []
      Router.initialDefaults none = .error e) :
    ∃ source, e = .invalidPattern .path source .tooLarge := by
  obtain ⟨outputs, houtputs⟩ := exists_outputParams h hfree
  rw [Route.ofScope, houtputs, h.compileConditions_eq] at herror
  split at herror
  · cases herror
    exact ⟨_, rfl⟩
  · cases herror

theorem exists_of_capturing (h : Capturing chain []) (hfree : ∀ d ∈ chain, d.params = [])
    (hsize : (pathNode (Placeholder.tokens (Template.template chain))).programSize ≤
      Regex.Node.maxProgramSize) :
    ∃ route, Route.ofScope (ofChain (.root Router.initialDefaults :: chain)) []
      Router.initialDefaults none = .ok route := by
  obtain ⟨outputs, houtputs⟩ := exists_outputParams h hfree
  rw [Route.ofScope, houtputs, h.compileConditions_eq, if_neg (Nat.not_lt.mpr hsize)]
  exact ⟨_, rfl⟩

end Capturing

section AddressRoute
variable {given : String}

theorem params_addressChain (name path : String) : ∀ d ∈ addressChain name path, d.params = [] := by
  simp [addressChain, Declaration.ofPath]

theorem error_of_addressRoute (hchain : Capturing (addressChain name path) []) {e : RouteError}
    (h : Trace.addressRoute Router.initialDefaults
      (Trace.collectionScope Router.initialDefaults name) (path, given) = .error e) :
    ∃ source, e = .invalidPattern .path source .tooLarge := by
  rcases of_bind_eq_error h with hroute | ⟨route, hroute, h⟩
  · exact error_of_capturing hchain (params_addressChain name path) hroute
  · obtain ⟨segments, hsegments, -⟩ := hchain.exists_segments hroute
    rw [hsegments] at h
    cases h

theorem exists_addressRoute (given : String) (hchain : Capturing (addressChain name path) [])
    (hsize : (pathNode (Placeholder.tokens
      (Template.template (addressChain name path)))).programSize ≤ Regex.Node.maxProgramSize) :
    ∃ route, Trace.addressRoute Router.initialDefaults
      (Trace.collectionScope Router.initialDefaults name) (path, given) = .ok route := by
  obtain ⟨route, hroute⟩ := exists_of_capturing hchain (params_addressChain name path) hsize
  obtain ⟨segments, hsegments, -⟩ := hchain.exists_segments hroute
  refine ⟨{ route with name := some given }, ?_⟩
  change (Route.ofScope (ofChain (.root Router.initialDefaults :: addressChain name path)) []
    Router.initialDefaults none >>= _) = _
  rw [hroute]
  simp only [bind, Except.bind, hsegments]
  rfl

theorem link_of_addressRoute (hname : PlainName name) (hsteps : ∀ s ∈ steps, s.Plain)
    (hpath : path.toList = spell steps) {route : Route}
    (h : Trace.addressRoute Router.initialDefaults
      (Trace.collectionScope Router.initialDefaults name) (path, given) = .ok route)
    {source : LinkSource} {value : String → String}
    (hvalue : ∀ n ∈ steps.filterMap Step.name?, IsSegment (value n).toList)
    (hsource : ∀ n ∈ steps.filterMap Step.name?, source.text? n = some (value n))
    (hrest : source.residual (steps.filterMap Step.name?) = []) :
    route.link source [] =
      .ok (String.ofList ('/' :: (name.toList ++ steps.flatMap (Step.filled value)))) := by
  have hlink := linkable_addressChain hname hsteps hpath
  have hplain : ∀ s ∈ .word name.toList :: steps, s.Plain :=
    List.forall_mem_cons.mpr ⟨hname.step, hsteps⟩
  obtain ⟨plain, hroute, h⟩ := exists_of_bind_eq_ok h
  have htokens : Placeholder.tokens (Template.template (addressChain name path)) =
      (.word name.toList :: steps).flatMap Step.tokens := by
    rw [template_addressChain name hpath, tokens_spell hplain]
  have hnames : names (Placeholder.tokens (Template.template (addressChain name path))) =
      steps.filterMap Step.name? := by
    rw [htokens, names_steps]
    rfl
  rw [← hnames] at hvalue hsource hrest
  obtain ⟨segments, hsegments, hbuild⟩ := hlink.exists_segments hroute hvalue
  simp only [hsegments] at h
  cases h
  simp only [Route.link]
  rw [hbuild source hsource hrest, htokens, filled_steps]
  rfl

theorem name_of_addressRoute {s : Scope} {defaults : Params} {address : String × String}
    {route : Route} (h : Trace.addressRoute defaults s address = .ok route) :
    route.name = some address.2 := by
  obtain ⟨plain, -, h⟩ := exists_of_bind_eq_ok h
  split at h
  · cases h
    rfl
  · cases h

end AddressRoute

end Signpost.Resource
