import HandsOn.Mpi.File
import Mathlib.Data.List.ReduceOption

/-!
# Reads that a datatype scatters

A read into memory that a datatype describes takes the bytes of the file from an offset on to
the addresses of the datatype, in typemap order. A read that reaches the end of the file
succeeds and moves fewer bytes.
-/

namespace HandsOn.Mpi

section Elements

variable {type : Datatype} {places : List Int} {size : ℕ}

theorem Datatype.positions_of_elements
    (elements : type.typemap = places.map fun place => (place, size)) :
    type.positions =
      places.flatMap fun place : Int => (List.range size).map fun byte : ℕ => place + byte := by
  rw [positions, elements, List.flatMap_map]

/-- The bytes of an element follow each other. -/
theorem Datatype.positions_getElem?
    (elements : type.typemap = places.map fun place => (place, size)) {k byte : ℕ} {place : Int}
    (listed : places[k]? = some place) (inside : byte < size) :
    type.positions[k * size + byte]? = some (place + byte) := by
  rw [positions_of_elements elements,
    flatMap_getElem? (fun _ => by rw [List.length_map, List.length_range]) listed inside]
  simp [inside]

/-- A byte of a datatype is a byte of one of its elements. -/
theorem Datatype.mem_positions
    (elements : type.typemap = places.map fun place => (place, size)) {address : Int} :
    address ∈ type.positions ↔ ∃ place ∈ places, place ≤ address ∧ address < place + size := by
  rw [positions_of_elements elements, List.mem_flatMap]
  refine exists_congr fun place => and_congr_right fun _ => ?_
  rw [List.mem_map]
  constructor
  · rintro ⟨byte, inside, rfl⟩
    have := List.mem_range.mp inside
    omega
  · rintro ⟨start, stop⟩
    exact ⟨(address - place).toNat, List.mem_range.mpr (by omega), by omega⟩

/-- Elements each after the one before it have no byte in common. -/
theorem Datatype.positions_nodup
    (elements : type.typemap = places.map fun place => (place, size))
    (apart : places.Pairwise fun first second : Int => first + size ≤ second) :
    type.positions.Nodup := by
  rw [positions_of_elements elements, List.nodup_flatMap]
  refine ⟨fun place _ => ?_, apart.imp fun ordered => ?_⟩
  · exact List.nodup_range.map fun first second same => by simpa using same
  · intro address first second
    obtain ⟨byte, inside, rfl⟩ := List.mem_map.mp first
    obtain ⟨byte', _, same⟩ := List.mem_map.mp second
    have := List.mem_range.mp inside
    omega

end Elements

/-- The bytes that `MPI_File_read_at` moves to addresses. At a negative offset it fails. -/
def readScattered (file : File) (offset : Int) (type : Datatype) : List (Int × UInt8) :=
  if offset < 0 then []
  else
    (type.positions.mapIdx fun index address =>
      (file (offset + (index : Int))).map fun byte => (address, byte)).reduceOption

/-- Memory after bytes have been stored at addresses, one after the other. -/
def Memory.store (memory : Memory) (writes : List (Int × UInt8)) : Memory :=
  fun address => (landed writes address).getLastD (memory address)

variable {file : File} {offset : Int} {type : Datatype} {memory : Memory} {address : Int}

theorem mem_readScattered {byte : UInt8} : (address, byte) ∈ readScattered file offset type ↔
    0 ≤ offset ∧ ∃ index : ℕ, type.positions[index]? = some address ∧
      file (offset + index) = some byte := by
  rw [readScattered]
  split
  case isTrue negative => simp [Int.not_le.mpr negative]
  case isFalse valid =>
    rw [List.reduceOption_mem_iff, List.mem_mapIdx]
    constructor
    · rintro ⟨index, inside, moved⟩
      obtain ⟨stored, holds, same⟩ := Option.map_eq_some_iff.mp moved
      obtain ⟨rfl, rfl⟩ := Prod.mk.inj same
      exact ⟨Int.not_lt.mp valid, index, List.getElem?_eq_getElem inside, holds⟩
    · rintro ⟨_, index, listed, holds⟩
      obtain ⟨inside, rfl⟩ := List.getElem?_eq_some_iff.mp listed
      exact ⟨index, inside, by rw [holds, Option.map_some]⟩

/-- An address that is there once receives its byte of the file. -/
theorem mem_readScattered_iff (distinct : type.positions.Nodup) {index : ℕ}
    (listed : type.positions[index]? = some address) {byte : UInt8} :
    (address, byte) ∈ readScattered file offset type ↔
      0 ≤ offset ∧ file (offset + index) = some byte := by
  rw [mem_readScattered]
  refine and_congr_right fun _ => ⟨?_, fun holds => ⟨index, listed, holds⟩⟩
  rintro ⟨other, listed', holds⟩
  obtain ⟨inside, _⟩ := List.getElem?_eq_some_iff.mp listed
  obtain rfl := (List.getElem?_inj inside distinct).mp (listed.trans listed'.symm)
  exact holds

namespace Memory

/-- Stores of one value at an address leave that value there. -/
theorem store_of_mem {writes : List (Int × UInt8)} {byte : UInt8}
    (stored : (address, byte) ∈ writes)
    (only : ∀ other, (address, other) ∈ writes → other = byte) :
    memory.store writes address = byte := by
  cases last : (landed writes address).getLast? with
  | none =>
      rw [List.getLast?_eq_none_iff] at last
      exact absurd (last ▸ mem_landed.mpr stored) List.not_mem_nil
  | some other =>
      rw [store, List.getLastD_eq_getLast?, last, Option.getD_some]
      exact only other (mem_landed.mp (List.mem_of_getLast? last))

/-- Where nothing is stored, memory is unchanged. -/
theorem store_of_not_mem {writes : List (Int × UInt8)}
    (nothing : ∀ byte, (address, byte) ∉ writes) :
    memory.store writes address = memory address := by
  have none : landed writes address = [] :=
    List.eq_nil_iff_forall_not_mem.mpr fun byte listed => nothing byte (mem_landed.mp listed)
  rw [store, none, List.getLastD_nil]

@[simp] theorem store_nil : memory.store [] = memory := by
  funext address
  exact store_of_not_mem fun _ => List.not_mem_nil

variable {Value : Type*} {size : ℕ} {layout : Native Value size}

/-- Reading values that the file holds into the elements of a datatype puts them there. -/
theorem load_store_readScattered {places : List Int} {values : List Value}
    (elements : type.typemap = places.map fun place => (place, size))
    (distinct : type.positions.Nodup) (valid : 0 ≤ offset)
    (holds : Has file offset (layout.encodeAll values)) {k : ℕ} {place : Int} {value : Value}
    (listed : places[k]? = some place) (given : values[k]? = some value) :
    (memory.store (readScattered file offset type)).load layout place = value := by
  have bytes : (memory.store (readScattered file offset type)).bytes place size =
      layout.encode value := by
    apply List.ext_getElem
    · rw [length_bytes, layout.length_encode]
    · intro byte inside inside'
      rw [length_bytes] at inside
      have there := Datatype.positions_getElem? elements listed inside
      have stored := holds (k * size + byte) _ ((flatMap_getElem? layout.length_encode given
        inside).trans (List.getElem?_eq_getElem inside'))
      simp only [Memory.bytes, List.getElem_map, List.getElem_range]
      refine store_of_mem ((mem_readScattered_iff distinct there).mpr ⟨valid, stored⟩) ?_
      intro other moved
      exact Option.some.inj (((mem_readScattered_iff distinct there).mp moved).2.symm.trans stored)
  rw [load, bytes, layout.decode_encode]

/-- A value that shares no byte with a datatype stays. -/
theorem load_store_readScattered_other {place : Int}
    (outside : ∀ byte < size, place + (byte : ℕ) ∉ type.positions) :
    (memory.store (readScattered file offset type)).load layout place =
      memory.load layout place := by
  refine congrArg layout.decode (List.map_congr_left fun byte inside => store_of_not_mem ?_)
  intro value moved
  obtain ⟨_, index, listed, _⟩ := mem_readScattered.mp moved
  exact outside byte (List.mem_range.mp inside) (List.mem_of_getElem? listed)

end Memory

end HandsOn.Mpi
