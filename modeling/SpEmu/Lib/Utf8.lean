import Mathlib.Logic.Function.Basic

/-!
# The bytes of a text

`encode` is the UTF-8 encoding of a text as a list of bytes: a homomorphism of lists
(`encode_append`) that is one to one (`encode_injective`), gives every character a byte at least
(`length_le_encode`) and an ASCII character one byte, its code (`encode_ascii`).
-/

set_option autoImplicit false

namespace Utf8

/-- The bytes of a text. -/
def encode (s : List Char) : List UInt8 := (String.ofList s).toUTF8.toList

theorem toList_loop (b : ByteArray) (i : Nat) (r : List UInt8) :
    ByteArray.toList.loop b i r = r.reverse ++ b.data.toList.drop i := by
  fun_induction ByteArray.toList.loop b i r with
  | case1 i r hi ih =>
      have hlen : i < b.data.toList.length := hi
      have hbyte : b.get! i = b.data.toList[i] := by
        show b.data[i]! = _
        rw [getElem!_pos b.data i hi, Array.getElem_toList]
      rw [ih, List.reverse_cons, List.append_assoc, List.drop_eq_getElem_cons hlen, hbyte,
        List.singleton_append]
  | case2 i r hi =>
      rw [List.drop_of_length_le (Nat.le_of_not_lt hi), List.append_nil]

theorem toList_eq (b : ByteArray) : b.toList = b.data.toList := toList_loop b 0 []

theorem encode_eq (s : List Char) : encode s = s.utf8Encode.data.toList := by
  rw [encode, toList_eq, String.toUTF8_eq_toByteArray, String.toByteArray_ofList]

theorem encode_append (s t : List Char) : encode (s ++ t) = encode s ++ encode t := by
  rw [encode_eq, encode_eq, encode_eq, List.utf8Encode_append, ByteArray.toList_data_append]

theorem encode_singleton (c : Char) : encode [c] = String.utf8EncodeChar c := by
  rw [encode_eq, List.utf8Encode_singleton, List.toList_data_toByteArray]

theorem encode_cons (c : Char) (s : List Char) :
    encode (c :: s) = String.utf8EncodeChar c ++ encode s := by
  rw [← encode_singleton, ← encode_append, List.singleton_append]

theorem encode_injective : Function.Injective encode := by
  intro s t h
  rw [encode_eq, encode_eq] at h
  have hbytes : s.utf8Encode = t.utf8Encode := ByteArray.ext (Array.toList_inj.mp h)
  rw [← String.toByteArray_ofList, ← String.toByteArray_ofList, String.toByteArray_inj] at hbytes
  exact String.ofList_injective hbytes

theorem length_le_encode (s : List Char) : s.length ≤ (encode s).length := by
  induction s with
  | nil => exact Nat.zero_le _
  | cons c cs ih =>
      have hpos := Char.utf8Size_pos c
      rw [encode_cons, List.length_append, String.length_utf8EncodeChar, List.length_cons]
      omega

/-- An ASCII character is its own byte. -/
theorem encode_ascii {c : Char} (h : c.toNat < 128) : encode [c] = [c.toUInt8] := by
  have hsize : c.utf8Size = 1 := by
    rw [Char.utf8Size_eq_one_iff, UInt32.le_iff_toNat_le]
    exact Nat.le_of_lt_succ h
  rw [encode_singleton, String.utf8EncodeChar_eq_singleton hsize]
  rfl

end Utf8
