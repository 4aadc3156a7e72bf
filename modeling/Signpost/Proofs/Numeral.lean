import Mathlib.Data.Nat.Digits.Lemmas
import Signpost.Text.Numeral

/-! # What numerals write

The last digit of a numeral counts ones, the one before it counts bases, and so on. A numeral is
read as the number it writes, and no other text is read as a number.
-/
namespace Signpost.Text.Numeral

/-- The character stands for the digit; letters of either case stand for those from ten on. -/
def StandsFor (c : Char) (d : Nat) : Prop :=
  "0123456789abcdef".toList[d]? = some c ∨ "0123456789ABCDEF".toList[d]? = some c

instance (c : Char) (d : Nat) : Decidable (StandsFor c d) :=
  inferInstanceAs (Decidable (_ ∨ _))

theorem StandsFor.lt {c : Char} {d : Nat} (h : StandsFor c d) : d < 16 := by
  rcases h with h | h <;> exact (List.getElem?_eq_some_iff.mp h).1

theorem StandsFor.mem {c : Char} {d : Nat} (h : StandsFor c d) :
    c ∈ "0123456789abcdefABCDEF".toList := by
  have hall : ("0123456789abcdef".toList ++ "0123456789ABCDEF".toList).all
      (· ∈ "0123456789abcdefABCDEF".toList) = true := by
    decide +kernel
  have hmem : c ∈ "0123456789abcdef".toList ++ "0123456789ABCDEF".toList :=
    List.mem_append.mpr (h.imp List.mem_of_getElem? List.mem_of_getElem?)
  exact of_decide_eq_true (List.all_eq_true.mp hall c hmem)

theorem StandsFor.digitValue_eq {c : Char} {d : Nat} (h : StandsFor c d) : digitValue c = d := by
  have hdigits : ∀ d < 16, "0123456789abcdef".toList[d]?.map digitValue = some d ∧
      "0123456789ABCDEF".toList[d]?.map digitValue = some d := by
    decide
  obtain ⟨hlower, hupper⟩ := hdigits d h.lt
  rcases h with h | h
  · rw [h] at hlower
    exact Option.some.inj hlower
  · rw [h] at hupper
    exact Option.some.inj hupper

theorem toNat_lt_of_digitValue {c : Char} (h : digitValue c < 16) : c.toNat < 128 := by
  have hrange {low high : Char} (hc : (low ≤ c && c ≤ high) = true) : c.toNat ≤ high.toNat :=
    of_decide_eq_true (Bool.and_eq_true_iff.mp hc).2
  unfold digitValue at h
  split_ifs at h with hdecimal hlower hupper
  · exact (hrange hdecimal).trans_lt (by decide)
  · exact (hrange hlower).trans_lt (by decide)
  · exact (hrange hupper).trans_lt (by decide)
  · exact absurd h (by decide)

theorem standsFor_digitValue {c : Char} (h : digitValue c < 16) : StandsFor c (digitValue c) := by
  have hascii : ∀ n < 128, digitValue (Char.ofNat n) < 16 →
      StandsFor (Char.ofNat n) (digitValue (Char.ofNat n)) := by
    decide
  have hfound := hascii c.toNat (toNat_lt_of_digitValue h)
  rw [Char.ofNat_toNat] at hfound
  exact hfound h

theorem forall₂_standsFor_iff {cs : List Char} {ds : List Nat} (hlt : ∀ d ∈ ds, d < 16) :
    List.Forall₂ StandsFor cs ds ↔ ds = cs.map digitValue := by
  constructor
  · intro h
    induction h with
    | nil => rfl
    | cons hhead _ ih =>
      rw [List.map_cons, hhead.digitValue_eq, ← ih fun d hd => hlt d (List.mem_cons_of_mem _ hd)]
  · rintro rfl
    rw [List.forall₂_map_right_iff, List.forall₂_same]
    exact fun c hc => standsFor_digitValue (hlt _ (List.mem_map_of_mem hc))

theorem foldl_ofDigits (base : Nat) (digit : Char → Nat) (cs : List Char) (n : Nat) :
    cs.foldl (fun n c => base * n + digit c) n =
      base ^ cs.length * n + Nat.ofDigits base (cs.reverse.map digit) := by
  induction cs generalizing n with
  | nil => simp
  | cons c cs ih =>
    rw [List.foldl_cons, ih, List.reverse_cons, List.map_append, Nat.ofDigits_append]
    simp only [List.length_cons, List.length_map, List.length_reverse, List.map_cons, List.map_nil,
      Nat.ofDigits_singleton, pow_succ]
    ring

/-- The characters stand for digits of the base, at least one, and the digits make `n`. -/
def Writes (base : Nat) (cs : List Char) (n : Nat) : Prop :=
  ∃ ds : List Nat, ds ≠ [] ∧ (∀ d ∈ ds, d < base) ∧ List.Forall₂ StandsFor cs ds ∧
    Nat.ofDigits base ds.reverse = n

theorem Writes.mem {base : Nat} {cs : List Char} {n : Nat} (h : Writes base cs n) {c : Char}
    (hc : c ∈ cs) : c ∈ "0123456789abcdefABCDEF".toList := by
  obtain ⟨ds, -, -, hstands, -⟩ := h
  obtain ⟨i, hi, rfl⟩ := List.getElem_of_mem hc
  exact (hstands.get hi (hstands.length_eq ▸ hi)).mem

theorem Writes.unique {base : Nat} {cs : List Char} {m n : Nat} (hm : Writes base cs m)
    (hn : Writes base cs n) (hbase : base ≤ 16) : m = n := by
  obtain ⟨ds, -, hds, hstands, rfl⟩ := hm
  obtain ⟨es, -, hes, hstands', rfl⟩ := hn
  rw [(forall₂_standsFor_iff fun d hd => (hds d hd).trans_le hbase).mp hstands,
    (forall₂_standsFor_iff fun d hd => (hes d hd).trans_le hbase).mp hstands']

theorem digits?_eq_some_iff {base : Nat} (hbase : base ≤ 16) {cs : List Char} {n : Nat} :
    digits? base cs = some n ↔ Writes base cs n := by
  have hvalue : value base cs = Nat.ofDigits base (cs.map digitValue).reverse := by
    have h := foldl_ofDigits base digitValue cs 0
    rwa [Nat.mul_zero, Nat.zero_add, List.map_reverse] at h
  have hread : digits? base cs = some n ↔
      cs ≠ [] ∧ (∀ c ∈ cs, digitValue c < base) ∧ value base cs = n := by
    simp [digits?, isDigit, and_assoc]
  rw [hread]
  constructor
  · rintro ⟨hne, hlt, rfl⟩
    have hlt' : ∀ d ∈ cs.map digitValue, d < base := by
      simpa using hlt
    exact ⟨cs.map digitValue, by simpa using hne, hlt',
      (forall₂_standsFor_iff fun d hd => (hlt' d hd).trans_le hbase).mpr rfl, hvalue.symm⟩
  · rintro ⟨ds, hne, hlt, hstands, rfl⟩
    obtain rfl := (forall₂_standsFor_iff fun d hd => (hlt d hd).trans_le hbase).mp hstands
    exact ⟨by simpa using hne, by simpa using hlt, hvalue⟩

/-- Digits that may have a plus sign before them. -/
def WritesUnsigned (base : Nat) (cs : List Char) (n : Nat) : Prop :=
  Writes base cs n ∨ ∃ digits, cs = '+' :: digits ∧ Writes base digits n

theorem not_writes_plus {base : Nat} {cs : List Char} {n : Nat} :
    ¬ Writes base ('+' :: cs) n :=
  fun h => absurd (h.mem List.mem_cons_self) (by decide)

theorem WritesUnsigned.mem {base : Nat} {cs : List Char} {n : Nat} (h : WritesUnsigned base cs n)
    {c : Char} (hc : c ∈ cs) : c ∈ "+0123456789abcdefABCDEF".toList := by
  have hdigit {digits : List Char} (hwrites : Writes base digits n) (hc : c ∈ digits) :
      c ∈ "+0123456789abcdefABCDEF".toList :=
    List.mem_cons_of_mem '+' (hwrites.mem hc)
  rcases h with h | ⟨digits, rfl, h⟩
  · exact hdigit h hc
  · rcases List.mem_cons.mp hc with rfl | hc
    · decide
    · exact hdigit h hc

theorem WritesUnsigned.plus_iff {base : Nat} {digits : List Char} {n : Nat} :
    WritesUnsigned base ('+' :: digits) n ↔ Writes base digits n := by
  simp [WritesUnsigned, not_writes_plus]

theorem WritesUnsigned.iff_of_ne_plus {base : Nat} {cs : List Char} {n : Nat}
    (h : ∀ digits, cs ≠ '+' :: digits) : WritesUnsigned base cs n ↔ Writes base cs n := by
  simp [WritesUnsigned, h]

theorem WritesUnsigned.unique {base : Nat} {cs : List Char} {m n : Nat}
    (hm : WritesUnsigned base cs m) (hn : WritesUnsigned base cs n) (hbase : base ≤ 16) :
    m = n := by
  rcases hm with hm | ⟨digits, rfl, hm⟩
  · rcases hn with hn | ⟨digits, rfl, -⟩
    · exact hm.unique hn hbase
    · exact absurd hm not_writes_plus
  · exact hm.unique (plus_iff.mp hn) hbase

theorem unsigned?_eq_some_iff {base bits : Nat} (hbase : base ≤ 16) {cs : List Char} {n : Nat} :
    unsigned? base bits cs = some n ↔ WritesUnsigned base cs n ∧ n < 2 ^ bits := by
  have hread (digits : List Char) :
      (digits? base digits).filter (· < Nat.pow 2 bits) = some n ↔
        Writes base digits n ∧ n < 2 ^ bits := by
    simp [Option.filter_eq_some_iff, digits?_eq_some_iff hbase]
  unfold unsigned?
  split
  case h_1 => rw [hread, WritesUnsigned.plus_iff]
  case h_2 hplus => rw [hread, WritesUnsigned.iff_of_ne_plus hplus]

end Signpost.Text.Numeral
