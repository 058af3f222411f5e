import Assay.Text.Units

/-!
# Encodings of a text

`fromUTF8?_toUTF8` says that a text comes back from its bytes. `codeUnits` spells a text in UTF-16;
it has as many code units as it is measured to have.
-/

namespace Assay.Text

theorem toList_loop (bytes : ByteArray) (i : Nat) (acc : List UInt8) :
    ByteArray.toList.loop bytes i acc = acc.reverse ++ bytes.data.toList.drop i := by
  fun_induction ByteArray.toList.loop bytes i acc with
  | case1 i acc hlt ih =>
    have hdrop := List.drop_eq_getElem_cons (show i < bytes.data.toList.length from hlt)
    have hget : bytes.get! i = bytes.data.toList[i] := getElem!_pos bytes.data i hlt
    rw [ih, hdrop, hget, List.reverse_cons, List.append_assoc, List.singleton_append]
  | case2 i acc hge =>
    have hdrop : bytes.data.toList.drop i = [] := List.drop_eq_nil_of_le (Nat.le_of_not_lt hge)
    rw [hdrop, List.append_nil]

theorem toArray_toList (bytes : ByteArray) : ⟨bytes.toList.toArray⟩ = bytes := by
  rw [ByteArray.toList, toList_loop]
  rfl

theorem fromUTF8?_toUTF8 (s : String) : String.fromUTF8? s.toUTF8 = some s := by
  rw [String.fromUTF8?, String.toUTF8_eq_toByteArray, dif_pos s.isValidUTF8]
  rfl

theorem toUTF8_ne_nil {s : String} (h : s ≠ "") : s.toUTF8.toList ≠ [] := by
  intro hnil
  have hbytes := toArray_toList s.toUTF8
  rw [hnil] at hbytes
  have hs := fromUTF8?_toUTF8 s
  rw [← hbytes] at hs
  exact h (Option.some.inj (hs.symm.trans (fromUTF8?_toUTF8 "")))

/-! ### Code units -/

/-- A character in UTF-16, as a pair of surrogates outside the basic plane. -/
def charCodeUnits (c : Char) : List Nat :=
  if c.toNat < 0x10000 then [c.toNat]
  else [0xD800 + (c.toNat - 0x10000) / 0x400, 0xDC00 + (c.toNat - 0x10000) % 0x400]

def codeUnits (s : List Char) : List Nat := s.flatMap charCodeUnits

theorem codeUnits_append (s t : List Char) : codeUnits (s ++ t) = codeUnits s ++ codeUnits t :=
  List.flatMap_append

@[simp] theorem length_codeUnits (s : List Char) : (codeUnits s).length = units s := by
  induction s with
  | nil => rfl
  | cons c s ih =>
    have hc : (charCodeUnits c).length = charUnits c := by
      unfold charCodeUnits charUnits
      split <;> rfl
    rw [codeUnits, List.flatMap_cons, List.length_append, hc, units_cons]
    exact congrArg _ ih

theorem take_codeUnits (s t : List Char) : (codeUnits (s ++ t)).take (units s) = codeUnits s := by
  rw [codeUnits_append, ← length_codeUnits, List.take_left]

theorem drop_codeUnits (s t : List Char) : (codeUnits (s ++ t)).drop (units s) = codeUnits t := by
  rw [codeUnits_append, ← length_codeUnits, List.drop_left]

end Assay.Text
