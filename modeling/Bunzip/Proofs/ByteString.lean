import Mathlib

/-!
# Byte strings as lists

A byte array is seen through the list of its bytes. These are the few facts that connect the
operations on arrays which the decoder uses with the ones on lists.
-/

namespace Bunzip.ByteString

theorem size_eq_length (bytes : ByteArray) : bytes.size = bytes.data.toList.length :=
  (Array.length_toList).symm

@[simp] theorem toList_push (bytes : ByteArray) (byte : UInt8) :
    (bytes.push byte).data.toList = bytes.data.toList ++ [byte] := Array.toList_push

@[simp] theorem toList_append (a b : ByteArray) :
    (a ++ b).data.toList = a.data.toList ++ b.data.toList := by
  rw [ByteArray.data_append, Array.toList_append]

@[simp] theorem toList_mk (bytes : List UInt8) : (ByteArray.mk bytes.toArray).data.toList = bytes :=
  rfl

theorem getElem?_toList {bytes : ByteArray} {i : Nat} (inside : i < bytes.size) :
    bytes.data.toList[i]? = some bytes[i] :=
  List.getElem?_eq_getElem (Nat.lt_of_lt_of_eq inside (size_eq_length bytes))

theorem eq_of_toList {a b : ByteArray} (h : a.data.toList = b.data.toList) : a = b :=
  ByteArray.ext (Array.toList_inj.mp h)

/-- What is left of the loop behind `foldl` is a fold over the bytes that are left. -/
theorem foldlM_loop {β : Type} (f : β → UInt8 → β) (bytes : ByteArray)
    (h : bytes.size ≤ bytes.size) (i j : Nat) (b : β) (hij : i + j = bytes.size) :
    ByteArray.foldlM.loop (m := Id) (fun b x => pure (f b x)) bytes bytes.size h i j b
      = (bytes.data.toList.drop j).foldl f b := by
  induction i generalizing j b with
  | zero =>
    have hj : bytes.data.toList.length ≤ j := by rw [← size_eq_length]; omega
    rw [ByteArray.foldlM.loop, dif_neg (by omega), List.drop_eq_nil_of_le hj]
    rfl
  | succ i ih =>
    have hj : j < bytes.data.toList.length := by rw [← size_eq_length]; omega
    rw [ByteArray.foldlM.loop, dif_pos (by omega), List.drop_eq_getElem_cons hj]
    exact ih (j + 1) (f b _) (by omega)

theorem foldl_eq {β : Type} (f : β → UInt8 → β) (init : β) (bytes : ByteArray) :
    bytes.foldl f init = bytes.data.toList.foldl f init := by
  have h := foldlM_loop f bytes (Nat.le_refl _) bytes.size 0 init rfl
  rw [List.drop_zero] at h
  rw [← h, ByteArray.foldl, ByteArray.foldlM, dif_pos (Nat.le_refl _)]
  rfl

end Bunzip.ByteString
