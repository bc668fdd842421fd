import HandsOn.Mpi.Native
import Mathlib.Algebra.Group.Int.Defs
import Mathlib.Data.List.Basic
import Mathlib.Tactic.Ring

/-!
# MPI datatypes

A datatype is its typemap: the displacement and the size of each basic element, in
order. The type constructors follow the MPI standard; the extent of a datatype runs from
its lowest to its highest byte, which leaves out the padding of structures that mix
alignments.
-/

namespace HandsOn.Mpi

/-- A datatype, by the displacement and size in bytes of its basic elements. -/
structure Datatype where
  typemap : List (Int × ℕ)
deriving DecidableEq

namespace Datatype

variable (type old : Datatype)

/-- The bytes that a datatype covers, in typemap order. -/
def positions : List Int :=
  type.typemap.flatMap fun element => (List.range element.2).map fun byte : ℕ => element.1 + byte

/-- The number of bytes in a datatype. -/
def size : ℕ := (type.typemap.map Prod.snd).sum

def lb : Int := (type.typemap.map Prod.fst).min?.getD 0

def ub : Int := (type.typemap.map fun element => element.1 + (element.2 : Int)).max?.getD 0

def extent : Int := type.ub - type.lb

/-- A basic datatype of `size` bytes. -/
def basic (size : ℕ) : Datatype := ⟨[(0, size)]⟩

/-- `MPI_BYTE` -/
abbrev byte : Datatype := basic 1

/-- `MPI_CHAR` -/
abbrev char : Datatype := basic 1

/-- `MPI_INT` -/
abbrev int : Datatype := basic 4

/-- `MPI_DOUBLE` -/
abbrev double : Datatype := basic 8

/-- A datatype moved by a displacement. -/
def shift (disp : Int) : Datatype :=
  ⟨type.typemap.map fun element => (disp + element.1, element.2)⟩

/-- Datatypes one after the other in typemap order. -/
def concat (types : List Datatype) : Datatype := ⟨types.flatMap typemap⟩

/-- A block of elements one extent apart. -/
def block (blocklength : ℕ) (disp : Int) : Datatype :=
  concat ((List.range blocklength).map fun i : ℕ => old.shift (disp + i * old.extent))

/-- `MPI_Type_vector` -/
def vector (count blocklength : ℕ) (stride : Int) : Datatype :=
  concat ((List.range count).map fun i : ℕ => old.block blocklength (i * stride * old.extent))

/-- `MPI_Type_indexed`, whose displacements count extents of the old datatype. -/
def indexed (count : ℕ) (blocklengths : List ℕ) (displacements : List Int) : Datatype :=
  concat (((blocklengths.zip displacements).take count).map fun entry =>
    old.block entry.1 (entry.2 * old.extent))

/-- `MPI_Type_create_hindexed`, which reads the first `count` entries of its arrays. -/
def hindexed (count : ℕ) (blocklengths : List ℕ) (displacements : List Int) : Datatype :=
  concat (((blocklengths.zip displacements).take count).map fun entry =>
    old.block entry.1 entry.2)

/-- `MPI_Type_create_struct`, which reads the first `count` entries of its arrays. -/
def struct (count : ℕ) (blocklengths : List ℕ) (displacements : List Int)
    (types : List Datatype) : Datatype :=
  concat (((blocklengths.zip (displacements.zip types)).take count).map fun entry =>
    entry.2.2.block entry.1 entry.2.1)

/-! ### Where the elements are -/

@[simp] theorem typemap_basic (size : ℕ) : (basic size).typemap = [(0, size)] := rfl

@[simp] theorem extent_basic (size : ℕ) : (basic size).extent = size := by
  simp [extent, ub, lb]

theorem typemap_concat (types : List Datatype) : (concat types).typemap = types.flatMap typemap :=
  rfl

theorem positions_concat (types : List Datatype) :
    (concat types).positions = types.flatMap positions := by
  rw [positions, typemap_concat, List.flatMap_assoc]
  rfl

/-- A block of one element is the element moved to the block's displacement. -/
@[simp] theorem block_one (disp : Int) : old.block 1 disp = old.shift disp := by
  simp [block, concat]

/-- The elements of a block of a basic datatype follow each other. -/
theorem typemap_block_basic (size blocklength : ℕ) (disp : Int) :
    ((basic size).block blocklength disp).typemap =
      (List.range blocklength).map fun i : ℕ => (disp + (i : Int) * size, size) := by
  rw [block, typemap_concat, List.flatMap_map, extent_basic]
  simp only [shift, typemap_basic, List.map_cons, List.map_nil, add_zero]
  exact List.flatMap_pure_eq_map _ _

/-- A block of a basic datatype covers consecutive bytes. -/
theorem positions_block_basic (size blocklength : ℕ) (disp : Int) :
    ((basic size).block blocklength disp).positions =
      (List.range (blocklength * size)).map fun byte : ℕ => disp + (byte : Int) := by
  rw [positions, typemap_block_basic, List.flatMap_map]
  induction blocklength with
  | zero => simp
  | succ blocklength ih =>
      rw [List.range_succ, List.flatMap_append, ih, Nat.succ_mul, List.range_add, List.map_append,
        List.map_map, List.flatMap_singleton]
      congr 1
      apply List.map_congr_left
      intro byte _
      push_cast
      exact add_assoc _ _ _

/-- The elements of a vector of a basic datatype, row by row. -/
theorem typemap_vector_basic (size count blocklength : ℕ) (stride : Int) :
    ((basic size).vector count blocklength stride).typemap =
      (List.range count).flatMap fun i : ℕ => (List.range blocklength).map fun j : ℕ =>
        (((i : Int) * stride + j) * size, size) := by
  rw [vector, typemap_concat, List.flatMap_map]
  simp only [typemap_block_basic, extent_basic, add_mul]

end Datatype

/-! ### Memory -/

/-- The bytes of a process, by address. -/
abbrev Memory := Int → UInt8

namespace Memory

variable (memory : Memory)

/-- `size` bytes of memory from `address` on. -/
def bytes (address : Int) (size : ℕ) : List UInt8 :=
  (List.range size).map fun byte : ℕ => memory (address + byte)

/-- The bytes of memory that a datatype describes, from `MPI_BOTTOM`. -/
def pack (type : Datatype) : List UInt8 := type.positions.map memory

/-- The value at an address. -/
def load {Value : Type*} {size : ℕ} (layout : Native Value size) (address : Int) : Value :=
  layout.decode (memory.bytes address size)

@[simp] theorem length_bytes (address : Int) (size : ℕ) :
    (memory.bytes address size).length = size := by
  simp [bytes]

@[simp] theorem encode_load {Value : Type*} {size : ℕ} (layout : Native Value size)
    (address : Int) : layout.encode (memory.load layout address) = memory.bytes address size :=
  layout.encode_decode _ (memory.length_bytes address size)

theorem pack_eq_flatMap (type : Datatype) :
    memory.pack type = type.typemap.flatMap fun element => memory.bytes element.1 element.2 := by
  rw [pack, Datatype.positions, List.map_flatMap]
  simp only [List.map_map]
  rfl

/-- Memory that holds values of one type at the elements of a datatype packs to their
representations. -/
theorem pack_eq_encodeAll {Value : Type*} {size : ℕ} (layout : Native Value size)
    {type : Datatype} (places : List Int) {values : List Value}
    (elements : type.typemap = places.map fun place => (place, size))
    (held : places.map (memory.load layout) = values) :
    memory.pack type = layout.encodeAll values := by
  rw [pack_eq_flatMap, elements, List.flatMap_map, ← held, Native.encodeAll, List.flatMap_map]
  simp only [encode_load]

/-- Memory that holds an array of values from address `0` on. -/
def image {Value : Type*} {size : ℕ} (layout : Native Value size) (values : ℕ → Value) : Memory :=
  fun address => (layout.encode (values (address.toNat / size))).getD (address.toNat % size) 0

theorem load_image {Value : Type*} {size : ℕ} (layout : Native Value size) (values : ℕ → Value)
    (index : ℕ) : (image layout values).load layout ((index * size : ℕ) : Int) = values index := by
  rw [load, ← layout.decode_encode (values index)]
  congr 1
  apply List.ext_getElem
  · rw [length_bytes, layout.length_encode]
  · intro byte inside _
    rw [length_bytes] at inside
    have place : (((index * size : ℕ) : Int) + (byte : Int)).toNat = index * size + byte :=
      Int.toNat_natCast (index * size + byte)
    have quotient : (index * size + byte) / size = index := by
      rw [Nat.mul_comm, Nat.mul_add_div (by omega), Nat.div_eq_of_lt inside, Nat.add_zero]
    have remainder : (index * size + byte) % size = byte := by
      rw [Nat.mul_comm, Nat.mul_add_mod, Nat.mod_eq_of_lt inside]
    simp only [bytes, List.getElem_map, List.getElem_range]
    rw [image, place, quotient, remainder, List.getD_eq_getElem?_getD, List.getElem?_eq_getElem,
      Option.getD_some]

end Memory

end HandsOn.Mpi
