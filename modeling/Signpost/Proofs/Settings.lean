import Signpost.Proofs.Numeral
import Signpost.Settings
import Signpost.Unicode.Property

/-! # Settings that are numbers

A number of microseconds is read from every text that writes one below 2^64, and from no other
text: all others leave the setting at its default.
-/
namespace Signpost
open Text.Numeral

namespace Settings

/-- The text writes a number of microseconds, however large: in decimal digits, or after `0x` in
hexadecimal ones. -/
inductive Micros : List Char → Nat → Prop
  | decimal {cs : List Char} {n : Nat} : WritesUnsigned 10 cs n → Micros cs n
  | hexadecimal {cs : List Char} {n : Nat} : WritesUnsigned 16 cs n → Micros ('0' :: 'x' :: cs) n

theorem Micros.mem {cs : List Char} {n : Nat} (h : Micros cs n) {c : Char} (hc : c ∈ cs) :
    c ∈ "x+0123456789abcdefABCDEF".toList := by
  cases h with
  | decimal h => exact List.mem_cons_of_mem 'x' (h.mem hc)
  | @hexadecimal digits _ h =>
    rcases List.mem_append.mp (show c ∈ ['0', 'x'] ++ digits from hc) with hc | hc
    · exact (show ∀ c ∈ ['0', 'x'], c ∈ "x+0123456789abcdefABCDEF".toList by simp) c hc
    · exact List.mem_cons_of_mem 'x' (h.mem hc)

theorem not_micros_of_isWhiteSpace {cs : List Char} {n : Nat}
    (h : ∃ c ∈ cs, Unicode.isWhiteSpace c = true) : ¬ Micros cs n := by
  obtain ⟨c, hc, hblank⟩ := h
  have hall : "x+0123456789abcdefABCDEF".toList.all (!Unicode.isWhiteSpace ·) = true := by
    decide +kernel
  intro hmicros
  have hnone := List.all_eq_true.mp hall c (hmicros.mem hc)
  rw [hblank] at hnone
  exact absurd hnone (by decide)

theorem micros_x_iff {digits : List Char} {n : Nat} :
    Micros ('0' :: 'x' :: digits) n ↔ WritesUnsigned 16 digits n := by
  refine ⟨fun h => ?_, .hexadecimal⟩
  cases h with
  | decimal h => exact absurd (h.mem (List.mem_cons_of_mem '0' List.mem_cons_self)) (by decide)
  | hexadecimal h => exact h

theorem micros_iff_of_ne_x {cs : List Char} {n : Nat} (hx : ∀ digits, cs ≠ '0' :: 'x' :: digits) :
    Micros cs n ↔ WritesUnsigned 10 cs n := by
  refine ⟨fun h => ?_, .decimal⟩
  cases h with
  | decimal h => exact h
  | hexadecimal h => exact absurd rfl (hx _)

theorem Micros.unique {cs : List Char} {m n : Nat} (hm : Micros cs m) (hn : Micros cs n) :
    m = n := by
  by_cases hx : ∃ digits, cs = '0' :: 'x' :: digits
  · obtain ⟨digits, rfl⟩ := hx
    exact (micros_x_iff.mp hm).unique (micros_x_iff.mp hn) (by decide)
  · have hx' := not_exists.mp hx
    exact ((micros_iff_of_ne_x hx').mp hm).unique ((micros_iff_of_ne_x hx').mp hn) (by decide)

theorem readMicros?_eq_some_iff {s : String} {n : Nat} :
    readMicros? s = some n ↔ Micros s.toList n ∧ n < 2 ^ 64 := by
  unfold readMicros?
  split
  case h_1 digits hx => rw [unsigned?_eq_some_iff (by decide), hx, micros_x_iff]
  case h_2 hx => rw [unsigned?_eq_some_iff (by decide), micros_iff_of_ne_x hx]

theorem readMicros?_eq_none_iff {s : String} :
    readMicros? s = none ↔ ∀ n, Micros s.toList n → 2 ^ 64 ≤ n := by
  simp only [Option.eq_none_iff_forall_ne_some, ne_eq, readMicros?_eq_some_iff, not_and, not_lt]

/-- The setting is the number that the text of the variable writes, if it is below 2^64. It is left
at its default by larger numbers and by texts that write none, such as all with white space. -/
theorem slowMatch_ofLookup {lookup : String → Option String} {s : String}
    (hset : lookup "ROUTEFORGE_SLOW_MATCH_US" = some s) :
    (∀ n, Micros s.toList n → n < 2 ^ 64 → (ofLookup lookup).slowMatch = n) ∧
      (∀ n, Micros s.toList n → 2 ^ 64 ≤ n → (ofLookup lookup).slowMatch = 1000) ∧
      ((¬ ∃ n, Micros s.toList n) → (ofLookup lookup).slowMatch = 1000) ∧
      ((∃ c ∈ s.toList, Unicode.isWhiteSpace c = true) →
        (ofLookup lookup).slowMatch = 1000) := by
  have hread : (ofLookup lookup).slowMatch = (readMicros? s).getD 1000 := by
    simp [ofLookup, hset]
  have hdefault (hlarge : ∀ n, Micros s.toList n → 2 ^ 64 ≤ n) :
      (ofLookup lookup).slowMatch = 1000 := by
    rw [hread, readMicros?_eq_none_iff.mpr hlarge, Option.getD_none]
  refine ⟨fun n hn hlt => ?_, fun n hn hle => hdefault fun m hm => ?_,
    fun hnone => hdefault fun n hn => absurd ⟨n, hn⟩ hnone,
    fun hblank => hdefault fun n hn => absurd hn (not_micros_of_isWhiteSpace hblank)⟩
  · rw [hread, readMicros?_eq_some_iff.mpr ⟨hn, hlt⟩, Option.getD_some]
  · rwa [hm.unique hn]

/-- A hexadecimal numeral with a sign, zeros in front and letters of both cases, the first decimal
numeral that is too large, and a numeral after a blank. -/
theorem slowMatch_of_numerals :
    (ofLookup fun _ => some "0x+00fF").slowMatch = 255 ∧
      (ofLookup fun _ => some "18446744073709551616").slowMatch = 1000 ∧
      (ofLookup fun _ => some " 5").slowMatch = 1000 :=
  ⟨(slowMatch_ofLookup (s := "0x+00fF") rfl).1 255
      (.hexadecimal (.inr ⟨_, rfl, [0, 0, 15, 15], by decide, by decide, by decide, by decide⟩))
      (by decide),
    (slowMatch_ofLookup (s := "18446744073709551616") rfl).2.1 (2 ^ 64)
      (.decimal (.inl ⟨[1, 8, 4, 4, 6, 7, 4, 4, 0, 7, 3, 7, 0, 9, 5, 5, 1, 6, 1, 6], by decide,
        by decide, by decide, by decide⟩)) (by decide),
    (slowMatch_ofLookup (s := " 5") rfl).2.2.2 ⟨' ', by decide, by decide +kernel⟩⟩

end Settings
end Signpost
