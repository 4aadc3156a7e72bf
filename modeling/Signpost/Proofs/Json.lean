import Mathlib.Data.List.Forall2
import Mathlib.Tactic.SplitIfs
import Signpost.Text.Json

/-! # The two texts of a value

The compact text of a value is one line: newlines in its texts are escaped, and it has no others.
The indented text is the compact one with blanks and newlines between its parts, and none of them
stands inside of a quoted text.
-/
namespace Signpost.Text.JsonValue

theorem newline_ne_hexDigit : ∀ n < 16, '\n' ≠ hexDigit n := by
  decide

theorem newline_notMem_escape (c : Char) : '\n' ∉ escape c := by
  unfold escape
  split_ifs with hmark _ _ hnewline
  · rcases Bool.or_eq_true_iff.mp hmark with hc | hc <;> simp [of_decide_eq_true hc]
  · decide
  · decide
  · decide
  · decide
  · decide
  · simp [newline_ne_hexDigit (c.toNat / 16) (by omega),
      newline_ne_hexDigit (c.toNat % 16) (by omega)]
  · simpa using Ne.symm hnewline

theorem newline_notMem_quote (s : String) : '\n' ∉ (quote s).toList := by
  simp [quote, newline_notMem_escape]

theorem newline_notMem_toString (n : Nat) : '\n' ∉ (toString n).toList := by
  intro h
  rw [Nat.toString_eq_repr, Nat.toList_repr] at h
  exact absurd (Nat.isDigit_of_mem_toDigits (by decide) (by decide) h) (by decide)

theorem notMem_intercalate {α : Type} {a : α} {separator : List α} {parts : List (List α)}
    (hseparator : a ∉ separator) (hparts : ∀ part ∈ parts, a ∉ part) :
    a ∉ separator.intercalate parts := by
  induction parts with
  | nil => simp
  | cons part parts ih =>
    have hpart := hparts part List.mem_cons_self
    have hrest := ih fun part hmem => hparts part (List.mem_cons_of_mem _ hmem)
    cases parts with
    | nil => simpa using hpart
    | cons next parts => simp [List.intercalate_cons_cons, hpart, hseparator, hrest]

mutual

theorem newline_notMem_compact : ∀ v : JsonValue, '\n' ∉ v.compact.toList
  | null => by simp [compact]
  | number n => by simpa only [compact] using newline_notMem_toString n
  | string s => by simpa only [compact] using newline_notMem_quote s
  | object entries => by
    have hentries : ∀ part ∈ (compactEntries entries).map String.toList, '\n' ∉ part := by
      simpa using newline_notMem_compactEntries entries
    have hcomma : '\n' ∉ [','] := by decide
    have hjoined := notMem_intercalate hcomma hentries
    simp [compact, String.toList_intercalate, hjoined]

theorem newline_notMem_compactEntries : ∀ entries : List (String × JsonValue),
    ∀ part ∈ compactEntries entries, '\n' ∉ part.toList
  | [] => by simp [compactEntries]
  | (key, v) :: rest => by
    have hhead : '\n' ∉ (quote key ++ ":" ++ v.compact).toList := by
      simp [newline_notMem_quote key, newline_notMem_compact v]
    simpa [compactEntries] using ⟨by simpa using hhead, newline_notMem_compactEntries rest⟩

end

mutual

/-- A text without the blanks and newlines that stand outside of its quoted texts. -/
def unspaced : List Char → List Char
  | [] => []
  | '"' :: rest => '"' :: unspacedQuoted rest
  | ' ' :: rest => unspaced rest
  | '\n' :: rest => unspaced rest
  | c :: rest => c :: unspaced rest

/-- The same for a text that begins inside of a quoted one. -/
def unspacedQuoted : List Char → List Char
  | [] => []
  | '\\' :: c :: rest => '\\' :: c :: unspacedQuoted rest
  | '"' :: rest => '"' :: unspaced rest
  | c :: rest => c :: unspacedQuoted rest

end

/-- The first text is the second one with blanks and newlines outside of quoted texts, whatever
comes behind. -/
def Spaces (spaced plain : List Char) : Prop :=
  ∀ rest, unspaced (spaced ++ rest) = plain ++ unspaced rest

namespace Spaces
variable {as bs cs ds : List Char}

theorem append (h : Spaces as bs) (h' : Spaces cs ds) : Spaces (as ++ cs) (bs ++ ds) := by
  intro rest
  rw [List.append_assoc, h, h', List.append_assoc]

theorem of_plain (h : ∀ c ∈ cs, c ≠ '"' ∧ c ≠ ' ' ∧ c ≠ '\n') : Spaces cs cs := by
  intro rest
  induction cs with
  | nil => rfl
  | cons c cs ih =>
    obtain ⟨⟨hquote, hblank, hnewline⟩, hcs⟩ := List.forall_mem_cons.mp h
    rw [List.cons_append, unspaced, ih hcs, List.cons_append] <;> assumption

theorem newLine (indent : Nat) : Spaces (newLine indent).toList [] := by
  intro rest
  have hblanks : ∀ n, unspaced (List.replicate n ' ' ++ rest) = unspaced rest := by
    intro n
    induction n with
    | zero => rfl
    | succ n ih => rw [List.replicate_succ, List.cons_append, unspaced, ih]
  rw [JsonValue.newLine, String.toList_ofList, List.cons_append, unspaced, hblanks, List.nil_append]

end Spaces

theorem hexDigit_ne_mark : ∀ n < 16, hexDigit n ≠ '\\' ∧ hexDigit n ≠ '"' := by
  decide

theorem unspacedQuoted_cons {c : Char} (h : c ≠ '\\' ∧ c ≠ '"') (rest : List Char) :
    unspacedQuoted (c :: rest) = c :: unspacedQuoted rest := by
  rw [unspacedQuoted]
  · exact fun d more hc _ => h.1 hc
  · exact h.2

theorem unspacedQuoted_escape (c : Char) (rest : List Char) :
    unspacedQuoted (escape c ++ rest) = escape c ++ unspacedQuoted rest := by
  unfold escape
  split_ifs with hmark
  · rfl
  · rfl
  · rfl
  · rfl
  · rfl
  · rfl
  · have hzero : '0' ≠ '\\' ∧ '0' ≠ '"' := by decide
    have hhigh := hexDigit_ne_mark (c.toNat / 16) (by omega)
    have hlow := hexDigit_ne_mark (c.toNat % 16) (by omega)
    simp only [List.cons_append, List.nil_append, unspacedQuoted, unspacedQuoted_cons hzero,
      unspacedQuoted_cons hhigh, unspacedQuoted_cons hlow]
  · have hplain : c ≠ '\\' ∧ c ≠ '"' := by
      simpa [and_comm] using hmark
    exact unspacedQuoted_cons hplain rest

theorem spaces_quote (s : String) : Spaces (quote s).toList (quote s).toList := by
  intro rest
  have hescaped : ∀ cs : List Char, unspacedQuoted (cs.flatMap escape ++ '"' :: rest) =
      cs.flatMap escape ++ '"' :: unspaced rest := by
    intro cs
    induction cs with
    | nil => simp [unspacedQuoted]
    | cons c cs ih =>
      rw [List.flatMap_cons, List.append_assoc, unspacedQuoted_escape, ih, List.append_assoc]
  simp [quote, unspaced, hescaped]

theorem spaces_toString (n : Nat) : Spaces (toString n).toList (toString n).toList := by
  refine Spaces.of_plain fun c hc => ?_
  rw [Nat.toString_eq_repr, Nat.toList_repr] at hc
  have hdigit := Nat.isDigit_of_mem_toDigits (by decide) (by decide) hc
  refine ⟨?_, ?_, ?_⟩ <;>
    · rintro rfl
      exact absurd hdigit (by decide)

theorem spaces_intercalate {parts parts' : List (List Char)} (h : List.Forall₂ Spaces parts parts') :
    Spaces ([','].intercalate parts) ([','].intercalate parts') := by
  have hcomma : Spaces [','] [','] := Spaces.of_plain (by simp)
  induction h with
  | nil => exact fun rest => rfl
  | @cons part part' parts parts' hpart hparts ih =>
    cases hparts with
    | nil => simpa using hpart
    | cons hnext hrest =>
      rw [List.intercalate_cons_cons, List.intercalate_cons_cons]
      exact (hpart.append hcomma).append ih

mutual

theorem spaces_pretty (indent : Nat) :
    ∀ v : JsonValue, Spaces (v.pretty indent).toList v.compact.toList
  | null => by
    rw [pretty, compact]
    exact Spaces.of_plain (by simp)
  | number n => by
    rw [pretty, compact]
    exact spaces_toString n
  | string s => by
    rw [pretty, compact]
    exact spaces_quote s
  | object [] => by
    simp only [pretty, compact, compactEntries]
    exact Spaces.of_plain (by simp)
  | object (entry :: entries) => by
    have hopen : Spaces ['\x7b'] ['\x7b'] := Spaces.of_plain (by simp)
    have hclose : Spaces ['\x7d'] ['\x7d'] := Spaces.of_plain (by simp)
    have hentries := spaces_intercalate (spaces_prettyEntries (indent + 2) (entry :: entries))
    have hwhole := ((hopen.append hentries).append (Spaces.newLine indent)).append hclose
    rw [pretty, compact]
    · simpa [String.toList_intercalate] using hwhole
    · simp

theorem spaces_prettyEntries (indent : Nat) : ∀ entries : List (String × JsonValue),
    List.Forall₂ Spaces ((prettyEntries indent entries).map String.toList)
      ((compactEntries entries).map String.toList)
  | [] => by
    simp only [prettyEntries, compactEntries]
    exact .nil
  | (key, v) :: rest => by
    have hcolon : Spaces [':', ' '] [':'] := by
      intro rest
      rw [List.cons_append, unspaced, List.cons_append, List.nil_append, unspaced] <;> simp
    have hhead := (((Spaces.newLine indent).append (spaces_quote key)).append hcolon).append
      (spaces_pretty indent v)
    rw [prettyEntries, compactEntries, List.map_cons, List.map_cons]
    refine .cons ?_ (spaces_prettyEntries indent rest)
    simpa using hhead

end

/-- The indented text and the text in one line are the same but for blanks and newlines outside of
the quoted texts. -/
theorem unspaced_pretty (indent : Nat) (v : JsonValue) :
    unspaced (v.pretty indent).toList = v.compact.toList := by
  have h := spaces_pretty indent v []
  rwa [List.append_nil, unspaced, List.append_nil] at h

end Signpost.Text.JsonValue
