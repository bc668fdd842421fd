import HandsOn.Hdf5.InPlaceOrder

/-!
# Strided arrays

A converter hands a strided array to `H5Tconvert`, which comes back with the same elements as
a packed array: the stride is lost. A converter to a larger type does so with an empty array
as well, which comes back unchanged, and again.
-/

namespace HandsOn.Hdf5

open HandsOn.Semantics

/-- The distance of two elements of `size` bytes. -/
def step (bufStride size : ℕ) : ℕ := if bufStride = 0 then size else bufStride

/-- A call returns with the elements converted where the stride says, and nothing else
changed. -/
def Honours (pair : TypePair) (nelmts bufStride : ℕ) : Prop :=
  ∀ needBkg buf, ∃ calls after,
    pair.registered (h5Tconvert calls) pair ⟨.conv, needBkg⟩ nelmts bufStride buf =
      some ⟨0, ⟨.conv, needBkg⟩, after⟩ ∧
    pair.conversion.Converted (step bufStride pair.conversion.srcSize)
      (step bufStride pair.conversion.dstSize) nelmts buf after

/-- Bytes for which an element's place makes a difference. -/
structure Sensitive (conversion : Conversion) (fill high : UInt8) : Prop where
  positive : 0 < conversion.dstSize
  /-- An element can be converted to other bytes than it had. -/
  changes : (conversion.convert (List.replicate conversion.srcSize fill))[0]? ≠ some fill
  /-- Equal elements cannot be put at a distance smaller than their size. -/
  overlaps : ∀ stride < conversion.dstSize, 0 < stride → ∃ k < conversion.dstSize - stride,
    (conversion.convert (List.replicate conversion.srcSize fill))[stride + k]? ≠
      (conversion.convert (List.replicate conversion.srcSize fill))[k]?
  /-- The second element of a packed array is not the one behind the first result. -/
  moves : conversion.convert (List.replicate conversion.srcSize high) ≠
    conversion.convert ((List.range conversion.srcSize).map fun k =>
      if conversion.srcSize ≤ conversion.dstSize + k ∧
        conversion.dstSize + k < 2 * conversion.srcSize then high else 0)

namespace TypePair

theorem sensitive (pair : TypePair) : ∃ fill high, Sensitive pair.conversion fill high := by
  cases pair with
  | widen format =>
      cases format with
      | e4m3 =>
        exact ⟨0x38, 0x38, by decide, by decide +kernel, by decide +kernel, by decide +kernel⟩
      | e5m2 =>
        exact ⟨0x3C, 0x3C, by decide, by decide +kernel, by decide +kernel, by decide +kernel⟩
      | e3m2 =>
        exact ⟨0x0C, 0x0C, by decide, by decide +kernel, by decide +kernel, by decide +kernel⟩
      | e2m1 =>
        exact ⟨0x02, 0x02, by decide, by decide +kernel, by decide +kernel, by decide +kernel⟩
  | narrow format =>
      cases format <;>
        exact ⟨0x40, 0x40, by decide, by decide +kernel, by decide +kernel, by decide +kernel⟩
  | doubleBfloat16 =>
    exact ⟨0x3F, 0x3F, by decide, by decide +kernel, by decide +kernel, by decide +kernel⟩
  | floatBfloat16 =>
    exact ⟨0xBF, 0xBF, by decide, by decide +kernel, by decide +kernel, by decide +kernel⟩
  | bfloat16Double =>
    exact ⟨0x40, 0x40, by decide, by decide +kernel, by decide +kernel, by decide +kernel⟩
  | bfloat16Float =>
    exact ⟨0x40, 0x40, by decide, by decide +kernel, by decide +kernel, by decide +kernel⟩

variable {pair : TypePair} {nelmts : ℕ} {buf : ByteBuffer}

/-- The library's call returns what the converter's loop leaves. -/
theorem h5Tconvert_succ (calls : ℕ) (nonempty : pair.widens = true → 0 < nelmts) :
    h5Tconvert (calls + 1) pair nelmts buf = some (0, pair.loop nelmts buf) := by
  rw [h5Tconvert, registered_packed rfl nonempty, Option.map_some]

/-- An empty array goes back and forth between the library and a converter to a larger type. -/
theorem h5Tconvert_empty (wider : pair.widens = true) (calls : ℕ) :
    h5Tconvert calls pair 0 buf = none := by
  induction calls with
  | zero => rfl
  | succ calls ih =>
      rw [h5Tconvert, registered_eq, wider, if_pos rfl]
      simp [widening, onCommand, fallBack, ih]

/-- A converter to a larger type does not return from an empty array. -/
theorem registered_empty (wider : pair.widens = true) (calls bufStride : ℕ) (needBkg : Bkg) :
    pair.registered (h5Tconvert calls) pair ⟨.conv, needBkg⟩ 0 bufStride buf = none := by
  rw [registered_eq, wider, if_pos rfl]
  simp [widening, onCommand, fallBack, h5Tconvert_empty wider]

/-- What a converter leaves of a strided array is what it leaves of a packed one. -/
theorem eq_loop_of_strided {calls bufStride : ℕ} {needBkg : Bkg} {outcome : Outcome}
    (strided : bufStride ≠ 0) (nonempty : 0 < nelmts)
    (returned : pair.registered (h5Tconvert calls) pair ⟨.conv, needBkg⟩ nelmts bufStride buf =
      some outcome) : outcome.buf = pair.loop nelmts buf := by
  rw [registered_strided rfl strided, fallBack] at returned
  cases calls with
  | zero => cases returned
  | succ calls =>
      rw [h5Tconvert_succ calls fun _ => nonempty] at returned
      cases returned
      rfl

end TypePair

/-- One element is at the start of the buffer for every stride. -/
theorem converted_of_le_one {conversion : Conversion} {srcStep srcStep' dstStep dstStep' nelmts : ℕ}
    {before after : ByteBuffer} (single : nelmts ≤ 1)
    (converted : conversion.Converted srcStep dstStep nelmts before after) :
    conversion.Converted srcStep' dstStep' nelmts before after := by
  have first : ∀ {i}, i < nelmts → i = 0 := fun inside => by omega
  constructor
  · intro i inside
    have element := converted.element i inside
    rw [first inside, Nat.zero_mul] at element ⊢
    rwa [Nat.zero_mul] at element ⊢
  · intro place outside
    refine converted.others place fun i inside => ?_
    have apart := outside i inside
    rw [first inside, Nat.zero_mul] at apart ⊢
    exact apart

namespace Sensitive

variable {conversion : Conversion} {fill high : UInt8} (sensitive : Sensitive conversion fill high)
include sensitive

/-- Overlapping results would give their common bytes two values. -/
theorem not_overlapping {nelmts bufStride : ℕ} (several : 2 ≤ nelmts) (strided : 0 < bufStride)
    (overlapping : bufStride < conversion.dstSize) (after : ByteBuffer) :
    ¬ conversion.Converted bufStride bufStride nelmts (fun _ => fill) after := by
  intro strides
  obtain ⟨k, inside, differ⟩ := sensitive.overlaps bufStride overlapping strided
  have first := strides.element 0 (by omega)
  have second := strides.element 1 several
  rw [ByteBuffer.load_const] at first second
  apply differ
  nth_rewrite 1 [← first]
  rw [← second, ByteBuffer.getElem?_load (by omega), ByteBuffer.getElem?_load (by omega),
    Nat.zero_mul, Nat.zero_add, Nat.one_mul]

/-- Where the results lie one behind the other, the second element is read from another place. -/
theorem not_adjacent {nelmts : ℕ} (several : 2 ≤ nelmts) :
    ∃ before, ∀ after,
      conversion.Converted conversion.srcSize conversion.dstSize nelmts before after →
      ¬ conversion.Converted conversion.dstSize conversion.dstSize nelmts before after := by
  obtain ⟨before, source⟩ : ∃ before : ByteBuffer, before = fun place =>
      if conversion.srcSize ≤ place ∧ place < 2 * conversion.srcSize then high else 0 :=
    ⟨_, rfl⟩
  have packedSource : before.load (1 * conversion.srcSize) conversion.srcSize =
      List.replicate conversion.srcSize high := by
    rw [← ByteBuffer.load_const high, source]
    exact ByteBuffer.load_congr fun k inside => if_pos (by omega)
  have stridedSource : before.load (1 * conversion.dstSize) conversion.srcSize =
      (List.range conversion.srcSize).map fun k =>
        if conversion.srcSize ≤ conversion.dstSize + k ∧
          conversion.dstSize + k < 2 * conversion.srcSize then high else 0 := by
    rw [Nat.one_mul, source]
    rfl
  refine ⟨before, fun after packed strides => sensitive.moves ?_⟩
  rw [← packedSource, ← stridedSource, ← packed.element 1 several, ← strides.element 1 several]

/-- A byte between two strided elements belongs to the second packed one. -/
theorem not_apart {nelmts bufStride : ℕ} (several : 2 ≤ nelmts)
    (apart : conversion.dstSize < bufStride) {after : ByteBuffer}
    (packed : conversion.Converted conversion.srcSize conversion.dstSize nelmts (fun _ => fill)
      after) : ¬ conversion.Converted bufStride bufStride nelmts (fun _ => fill) after := by
  intro strides
  apply sensitive.changes
  have second := packed.element 1 several
  have between : after conversion.dstSize = fill := by
    apply strides.others
    intro i inside
    cases i with
    | zero => exact .inr (by omega)
    | succ i =>
        rw [Nat.succ_mul]
        exact .inl (apart.trans_le (Nat.le_add_left _ _))
  rw [ByteBuffer.load_const] at second
  rw [← second, ByteBuffer.getElem?_load sensitive.positive, Nat.one_mul, Nat.add_zero, between]

/-- A packed result is not the result for another stride. -/
theorem not_strided {nelmts bufStride : ℕ} (several : 2 ≤ nelmts) (strided : 0 < bufStride) :
    ∃ before, ∀ after,
      conversion.Converted conversion.srcSize conversion.dstSize nelmts before after →
      ¬ conversion.Converted bufStride bufStride nelmts before after := by
  rcases Nat.lt_trichotomy bufStride conversion.dstSize with overlapping | rfl | apart
  · exact ⟨_, fun after _ => sensitive.not_overlapping several strided overlapping after⟩
  · exact sensitive.not_adjacent several
  · exact ⟨_, fun _ packed => sensitive.not_apart several apart packed⟩

end Sensitive

namespace Honours

variable {pair : TypePair} {nelmts bufStride : ℕ} (honours : Honours pair nelmts bufStride)
include honours

/-- Converters to a larger type return with elements only. -/
theorem nonempty (wider : pair.widens = true) : 0 < nelmts := by
  obtain ⟨calls, after, returned, _⟩ := honours .no fun _ => 0
  refine Nat.pos_of_ne_zero fun empty => ?_
  rw [empty, TypePair.registered_empty wider] at returned
  cases returned

/-- A stride is honoured when there is no second element. -/
theorem le_one (nonempty : 0 < nelmts) (strided : bufStride ≠ 0) : nelmts ≤ 1 := by
  refine Nat.le_of_not_lt fun several => ?_
  obtain ⟨fill, high, sensitive⟩ := pair.sensitive
  obtain ⟨before, apart⟩ := sensitive.not_strided several (Nat.pos_of_ne_zero strided)
  obtain ⟨calls, after, returned, converted⟩ := honours .no before
  have loop : after = pair.loop nelmts before :=
    TypePair.eq_loop_of_strided strided nonempty returned
  have packed := pair.loop_converted nelmts before
  rw [← loop] at packed
  rw [step, step, if_neg strided, if_neg strided] at converted
  exact apart after packed converted

end Honours

/-- A converter honours the stride if and only if the array is packed or has at most one
element, and returns if and only if it has one or the converter is one to a smaller type. -/
theorem honours_iff (pair : TypePair) (nelmts bufStride : ℕ) :
    Honours pair nelmts bufStride ↔
      (bufStride = 0 ∨ nelmts ≤ 1) ∧ (pair.widens = true → 0 < nelmts) := by
  constructor
  · intro honours
    refine ⟨?_, honours.nonempty⟩
    by_cases packed : bufStride = 0
    · exact .inl packed
    · rcases Nat.eq_zero_or_pos nelmts with rfl | nonempty
      · exact .inr (Nat.zero_le 1)
      · exact .inr (honours.le_one nonempty packed)
  · rintro ⟨single, nonempty⟩ needBkg buf
    have converted := pair.loop_converted nelmts buf
    by_cases packed : bufStride = 0
    · subst packed
      exact ⟨0, _, TypePair.registered_packed rfl nonempty, converted⟩
    · refine ⟨1, _, ?_, converted_of_le_one (single.resolve_left packed) converted⟩
      rw [TypePair.registered_strided rfl packed, fallBack, TypePair.h5Tconvert_succ 0 nonempty,
        Option.map_some]

/-- `conv_f8e4m3_float` calls itself for ever on an empty array, and `conv_float_bfloat16`
packs two elements that are eight bytes apart. -/
theorem not_honours :
    ¬ Honours (.widen .e4m3) 0 0 ∧ ¬ Honours .floatBfloat16 2 8 :=
  ⟨fun honours => absurd (honours.nonempty rfl) (by decide),
    fun honours => absurd (honours.le_one (by decide) (by decide)) (by decide)⟩

end HandsOn.Hdf5
