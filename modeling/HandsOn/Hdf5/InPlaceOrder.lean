import HandsOn.Hdf5.Converters

/-!
# Packed arrays

A converter to a smaller type runs from the first element up, one to a larger type from the
last element down. Every output is the conversion of an element as it was before the call.
-/

namespace HandsOn.Hdf5

open HandsOn.Semantics

namespace TypePair

variable (pair : TypePair)

/-- The loop of the registered converter. -/
def loop (nelmts : ℕ) (buf : ByteBuffer) : ByteBuffer :=
  if pair.widens then pair.conversion.downward nelmts buf else pair.conversion.upward nelmts buf

theorem loop_converted (nelmts : ℕ) (buf : ByteBuffer) :
    pair.conversion.Converted pair.conversion.srcSize pair.conversion.dstSize nelmts buf
      (pair.loop nelmts buf) := by
  cases kind : pair.widens with
  | false =>
      rw [loop, kind, if_neg Bool.false_ne_true]
      exact Conversion.upward_converted (pair.shrinks kind) nelmts buf
  | true =>
      rw [loop, kind, if_pos rfl]
      exact Conversion.downward_converted (pair.grows kind) nelmts buf

variable {pair} {h5Tconvert : Library} {cdata : Cdata} {nelmts : ℕ} {buf : ByteBuffer}

/-- What a converter does with a packed array, one to a larger type if there are elements. -/
theorem registered_packed (conv : cdata.command = .conv)
    (nonempty : pair.widens = true → 0 < nelmts) :
    pair.registered h5Tconvert pair cdata nelmts 0 buf =
      some ⟨0, cdata, pair.loop nelmts buf⟩ := by
  rw [registered_eq, loop]
  cases kind : pair.widens with
  | false => simp [narrowing, onCommand, conv]
  | true => simp [widening, onCommand, conv, nonempty kind]

/-- An array that is not packed is left to the library. -/
theorem registered_strided (conv : cdata.command = .conv) {bufStride : ℕ}
    (strided : bufStride ≠ 0) :
    pair.registered h5Tconvert pair cdata nelmts bufStride buf =
      fallBack h5Tconvert pair cdata nelmts buf := by
  rw [registered_eq]
  cases pair.widens with
  | false => simp [narrowing, onCommand, conv, strided]
  | true => simp [widening, onCommand, conv, strided]

end TypePair

/-- A packed array is converted in place as it would be out of place, whatever the library
does with other arrays, and no other byte changes. -/
theorem packed_in_place (pair : TypePair) (h5Tconvert : Library) (needBkg : Bkg) {nelmts : ℕ}
    (nonempty : 0 < nelmts) (buf : ByteBuffer) :
    ∃ after,
      pair.registered h5Tconvert pair ⟨.conv, needBkg⟩ nelmts 0 buf =
        some ⟨0, ⟨.conv, needBkg⟩, after⟩ ∧
      (∀ i < nelmts, after.load (i * pair.conversion.dstSize) pair.conversion.dstSize =
        pair.conversion.convert
          (buf.load (i * pair.conversion.srcSize) pair.conversion.srcSize)) ∧
      ∀ place, nelmts * pair.conversion.dstSize ≤ place → after place = buf place := by
  obtain ⟨element, others⟩ := pair.loop_converted nelmts buf
  refine ⟨_, TypePair.registered_packed rfl fun _ => nonempty, element, fun place behind => ?_⟩
  refine others place fun i inside => .inr ?_
  rw [← Nat.succ_mul]
  exact (Nat.mul_le_mul_right _ inside).trans behind

theorem packed_in_place_two :
    0 < 2 ∧ ∃ after,
      convBfloat16Float (h5Tconvert 0) .bfloat16Float ⟨.conv, .no⟩ 2 0 UInt8.ofNat =
        some ⟨0, ⟨.conv, .no⟩, after⟩ ∧
      (∀ i < 2, after.load (i * 4) 4 =
        bfloat16ToFloat.convert (ByteBuffer.load UInt8.ofNat (i * 2) 2)) ∧
      ∀ place, 2 * 4 ≤ place → after place = UInt8.ofNat place :=
  ⟨by decide, packed_in_place .bfloat16Float (h5Tconvert 0) .no (by decide) UInt8.ofNat⟩

end HandsOn.Hdf5
