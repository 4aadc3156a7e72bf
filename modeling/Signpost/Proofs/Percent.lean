import Signpost.Text.Percent
import Mathlib.Tactic.IntervalCases

/-! # Percent coding can be undone

A text is written with letters, digits and a few marks, none of which has a meaning in a query
string, and reading takes the text back. Reading goes byte by byte, so it also undoes the coding
of the parts of a longer text.
-/
namespace Signpost.Text.Percent

theorem toList_loop (b : ByteArray) (i : Nat) (r : List UInt8) :
    ByteArray.toList.loop b i r = r.reverse ++ b.data.toList.drop i := by
  induction h : b.size - i generalizing i r with
  | zero =>
    rw [ByteArray.toList.loop, if_neg (by omega), List.drop_of_length_le, List.append_nil]
    change b.data.size ≤ i
    have hs : b.data.size = b.size := rfl
    omega
  | succ n ih =>
    have hi : i < b.data.toList.length := by
      change i < b.size
      omega
    rw [ByteArray.toList.loop, if_pos (by omega), ih (i + 1) _ (by omega),
      List.drop_eq_getElem_cons hi]
    have hget : b.get! i = b.data.toList[i] := by
      simp only [ByteArray.get!, Array.getElem_toList]
      exact getElem!_pos b.data i hi
    rw [hget, List.reverse_cons, List.append_assoc]
    rfl

theorem toList_eq_data (b : ByteArray) : b.toList = b.data.toList := by
  rw [ByteArray.toList, toList_loop, List.reverse_nil, List.nil_append, List.drop_zero]

def bytes (cs : List Char) : List UInt8 := cs.flatMap String.utf8EncodeChar

theorem toUTF8_toList (s : String) : s.toUTF8.toList = bytes s.toList := by
  rw [String.toUTF8_eq_toByteArray, ← String.utf8Encode_toList, toList_eq_data, List.utf8Encode,
    List.data_toByteArray]
  rfl

@[simp] theorem bytes_append (cs ds : List Char) : bytes (cs ++ ds) = bytes cs ++ bytes ds :=
  List.flatMap_append

theorem fromUTF8?_bytes (cs : List Char) :
    String.fromUTF8? (bytes cs).toByteArray = some (String.ofList cs) := by
  have h : (bytes cs).toByteArray = (String.ofList cs).toByteArray := by
    rw [String.toByteArray_ofList, List.utf8Encode, bytes]
  rw [String.fromUTF8?, dif_pos (h ▸ (String.ofList cs).isValidUTF8)]
  exact congrArg some (String.toByteArray_inj.mp h)

theorem decodeBytes_cons_of_ne {b : UInt8} (h : b ≠ 37) (rest : List UInt8) :
    decodeBytes (b :: rest) = b :: decodeBytes rest := by
  match rest with
  | [] => rfl
  | [_] => rfl
  | _ :: _ :: _ => rw [decodeBytes, if_neg h]

/-- A byte that is written as it is, is the only byte of its character. -/
theorem bytes_of_isUnreserved : ∀ n < 256, isUnreserved (Char.ofNat n) = true →
    String.utf8EncodeChar (Char.ofNat n) = [UInt8.ofNat n] ∧ n ≠ 37 := by
  decide +kernel

theorem hexValue?_hexDigit : ∀ n < 16,
    ∃ d, String.utf8EncodeChar (hexDigit n) = [d] ∧ hexValue? d = some (UInt8.ofNat n) := by
  intro n hn
  interval_cases n <;> exact ⟨_, rfl, by decide⟩

theorem decodeBytes_encodeByte (b : UInt8) (rest : List UInt8) :
    decodeBytes (bytes (encodeByte b) ++ rest) = b :: decodeBytes rest := by
  have hb : b.toNat < 256 := b.toNat_lt
  by_cases hu : isUnreserved (Char.ofNat b.toNat) = true
  · obtain ⟨hbytes, hne⟩ := bytes_of_isUnreserved _ hb hu
    have hb37 : b ≠ 37 := fun he => hne (by rw [he]; rfl)
    have hwritten : bytes (encodeByte b) = [b] := by
      simp [encodeByte, hu, bytes, hbytes]
    rw [hwritten]
    exact decodeBytes_cons_of_ne hb37 rest
  · obtain ⟨high, hhigh, hhighValue⟩ := hexValue?_hexDigit (b.toNat / 16) (by omega)
    obtain ⟨low, hlow, hlowValue⟩ := hexValue?_hexDigit (b.toNat % 16) (by omega)
    have hwritten : bytes (encodeByte b) = [37, high, low] := by
      simp only [encodeByte, hu, Bool.false_eq_true, if_false, bytes, List.flatMap_cons, hhigh,
        hlow]
      rfl
    have hvalue : 16 * UInt8.ofNat (b.toNat / 16) + UInt8.ofNat (b.toNat % 16) = b := by
      apply UInt8.toNat_inj.mp
      simp only [UInt8.toNat_add, UInt8.toNat_mul, UInt8.toNat_ofNat']
      have h16 : (16 : UInt8).toNat = 16 := rfl
      rw [h16]
      omega
    rw [hwritten]
    simp only [List.cons_append, List.nil_append, decodeBytes, hhighValue, hlowValue, hvalue,
      if_true]

def written (s : String) : List Char := (bytes s.toList).flatMap encodeByte

theorem toList_encode (s : String) : (encode s).toList = written s := by
  rw [encode, String.toList_ofList, toUTF8_toList, written]

theorem decodeBytes_flatMap (bs rest : List UInt8) :
    decodeBytes (bytes (bs.flatMap encodeByte) ++ rest) = bs ++ decodeBytes rest := by
  induction bs with
  | nil => rfl
  | cons b bs ih =>
    rw [List.flatMap_cons, bytes_append, List.append_assoc, decodeBytes_encodeByte, ih]
    rfl

/-- The coding of a part of a text is undone, whatever comes after it. -/
theorem decodeBytes_written (s : String) (rest : List UInt8) :
    decodeBytes (bytes (written s) ++ rest) = bytes s.toList ++ decodeBytes rest :=
  decodeBytes_flatMap _ _

theorem isUnreserved_hexDigit : ∀ n < 16, isUnreserved (hexDigit n) = true := by
  decide

/-- A written text has no characters but letters, digits, four marks and percent signs. -/
theorem isUnreserved_of_mem_written {s : String} {c : Char} (h : c ∈ written s) :
    isUnreserved c = true ∨ c = '%' := by
  obtain ⟨b, -, hc⟩ := List.mem_flatMap.mp h
  have hb : b.toNat < 256 := b.toNat_lt
  simp only [encodeByte] at hc
  split at hc
  · rw [List.mem_singleton] at hc
    exact Or.inl (by rwa [hc])
  · rcases List.mem_cons.mp hc with rfl | hc
    · exact Or.inr rfl
    · rcases List.mem_cons.mp hc with rfl | hc
      · exact Or.inl (isUnreserved_hexDigit _ (by omega))
      · rw [List.mem_singleton] at hc
        exact Or.inl (hc ▸ isUnreserved_hexDigit _ (by omega))

end Signpost.Text.Percent
