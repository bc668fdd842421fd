import HandsOn.Mpi.Datatype
import Mathlib.Data.List.Nodup
import Mathlib.Data.List.Perm.Basic
import Mathlib.Tactic.Ring

/-!
# Collective file access

A collective write lets each rank write values under keys: bytes at file offsets, or
elements at the indices of a variable. The ranks are not ordered, so the result is
determined only where one value lands; `Outcome` allows any of several.
-/

namespace HandsOn.Mpi

universe u v

/-- What only rank 0 contributes is there once. -/
theorem flatMap_range_first {Element : Type u} {count : ℕ} (positive : 0 < count)
    (elements : List Element) :
    ((List.range count).flatMap fun rank => if rank = 0 then elements else []) = elements := by
  obtain ⟨rest, rfl⟩ := Nat.exists_eq_succ_of_ne_zero positive.ne'
  rw [List.range_succ_eq_map, List.flatMap_cons, List.flatMap_map, if_pos rfl,
    List.flatMap_eq_nil_iff.mpr fun rank _ => if_neg (Nat.succ_ne_zero rank), List.append_nil]

/-- Entries of blocks of one size, one block after the other. -/
theorem flatMap_getElem? {Index : Type u} {Entry : Type v} {block : Index → List Entry} {size : ℕ}
    (sized : ∀ index, (block index).length = size) {indices : List Index} {k : ℕ} {index : Index}
    (listed : indices[k]? = some index) {entry : ℕ} (inside : entry < size) :
    (indices.flatMap block)[k * size + entry]? = (block index)[entry]? := by
  induction indices generalizing k with
  | nil => cases listed
  | cons first rest ih =>
      rw [List.flatMap_cons]
      cases k with
      | zero =>
          obtain rfl : first = index := Option.some.inj listed
          rw [Nat.zero_mul, Nat.zero_add, List.getElem?_append_left (by rwa [sized])]
      | succ k =>
          rw [List.getElem?_cons_succ] at listed
          rw [List.getElem?_append_right (by rw [sized, Nat.succ_mul]; omega), sized,
            show (k + 1) * size + entry - size = k * size + entry by rw [Nat.succ_mul]; omega]
          exact ih listed

section Landing

variable {Key : Type u} {Value : Type v}

/-- The writes of all ranks. -/
def collective (nprocs : ℕ) (writes : ℕ → List (Key × Value)) : List (Key × Value) :=
  (List.range nprocs).flatMap writes

/-- The ranks' writes can be taken one array at a time. -/
theorem collective_append_perm (nprocs : ℕ) (first second : ℕ → List (Key × Value)) :
    (collective nprocs fun rank => first rank ++ second rank).Perm
      (collective nprocs first ++ collective nprocs second) :=
  (List.flatMap_append_perm _ _ _).symm

variable [DecidableEq Key]

/-- The values written under a key. -/
def landed (writes : List (Key × Value)) (key : Key) : List Value :=
  writes.filterMap fun write => if write.1 = key then some write.2 else none

/-- What may be stored after the writes to something empty. -/
def Outcome (writes : List (Key × Value)) (contents : Key → Option Value) : Prop :=
  ∀ key, (landed writes key = [] ∧ contents key = none) ∨
    ∃ value ∈ landed writes key, contents key = some value

@[simp] theorem landed_append (first second : List (Key × Value)) (key : Key) :
    landed (first ++ second) key = landed first key ++ landed second key :=
  List.filterMap_append

theorem landed_collective (nprocs : ℕ) (writes : ℕ → List (Key × Value)) (key : Key) :
    landed (collective nprocs writes) key =
      (List.range nprocs).flatMap fun rank => landed (writes rank) key := by
  rw [landed, collective, List.filterMap_flatMap]
  rfl

theorem mem_landed {writes : List (Key × Value)} {key : Key} {value : Value} :
    value ∈ landed writes key ↔ (key, value) ∈ writes := by
  simp only [landed, List.mem_filterMap, Option.ite_none_right_eq_some, Option.some.injEq]
  constructor
  · rintro ⟨write, listed, rfl, rfl⟩
    exact listed
  · intro listed
    exact ⟨_, listed, rfl, rfl⟩

theorem landed_perm {first second : List (Key × Value)} (same : first.Perm second) (key : Key) :
    (landed first key).Perm (landed second key) :=
  same.filterMap _

/-- Where no key is written twice, one value lands under each key written. -/
theorem landed_eq_singleton {writes : List (Key × Value)} (distinct : (writes.map Prod.fst).Nodup)
    {key : Key} {value : Value} : landed writes key = [value] ↔ (key, value) ∈ writes := by
  constructor
  · intro one
    exact mem_landed.mp (one ▸ List.mem_singleton_self value)
  · intro listed
    obtain ⟨before, after, rfl⟩ := List.append_of_mem listed
    rw [List.map_append, List.map_cons, List.nodup_middle, List.nodup_cons, List.mem_append,
      not_or] at distinct
    obtain ⟨⟨notBefore, notAfter⟩, _⟩ := distinct
    have nothing : ∀ {others : List (Key × Value)}, key ∉ others.map Prod.fst →
        landed others key = [] := by
      intro others absent
      refine List.filterMap_eq_nil_iff.mpr fun write inside => if_neg fun same => absent ?_
      exact same ▸ List.mem_map_of_mem inside
    have own : landed ((key, value) :: after) key = value :: landed after key := by
      rw [landed, List.filterMap_cons, if_pos rfl]
      rfl
    rw [landed_append, nothing notBefore, own, nothing notAfter]
    rfl

theorem exists_outcome (writes : List (Key × Value)) : ∃ contents, Outcome writes contents := by
  refine ⟨fun key => (landed writes key).head?, fun key => ?_⟩
  dsimp only
  rcases landed writes key with _ | ⟨value, rest⟩
  · exact .inl ⟨rfl, rfl⟩
  · exact .inr ⟨value, List.mem_cons_self, rfl⟩

/-- A key under which one value lands holds that value. -/
theorem Outcome.eq_of_singleton {writes : List (Key × Value)} {contents : Key → Option Value}
    (outcome : Outcome writes contents) {key : Key} {value : Value}
    (one : landed writes key = [value]) : contents key = some value := by
  obtain ⟨nothing, _⟩ | ⟨stored, inside, holds⟩ := outcome key
  · exact absurd (one.symm.trans nothing) (List.cons_ne_nil _ _)
  · rw [one, List.mem_singleton] at inside
    rw [holds, inside]

/-- A key under which nothing lands holds nothing. -/
theorem Outcome.eq_none {writes : List (Key × Value)} {contents : Key → Option Value}
    (outcome : Outcome writes contents) {key : Key} (nothing : landed writes key = []) :
    contents key = none := by
  obtain ⟨_, holds⟩ | ⟨stored, inside, _⟩ := outcome key
  · exact holds
  · rw [nothing] at inside
    exact absurd inside List.not_mem_nil

end Landing

/-! ### Byte ranges -/

/-- A file, by offset; `none` where nothing has been written. -/
abbrev File := Int → Option UInt8

/-- `MPI_File_write_at` of consecutive bytes. -/
def writeAt (offset : Int) (bytes : List UInt8) : List (Int × UInt8) :=
  bytes.mapIdx fun index byte => (offset + (index : Int), byte)

/-- `MPI_File_write` through a view with one instance of `filetype`. -/
def writeView (filetype : Datatype) (bytes : List UInt8) : List (Int × UInt8) :=
  filetype.positions.zip bytes

/-- `MPI_File_read_at` into a buffer, which stays as it is where the file has nothing. -/
def readAt (file : File) (offset : Int) (buffer : List UInt8) : List UInt8 :=
  buffer.mapIdx fun index byte => (file (offset + (index : Int))).getD byte

theorem writeAt_append (offset : Int) (before after : List UInt8) :
    writeAt offset (before ++ after) =
      writeAt offset before ++ writeAt (offset + before.length) after := by
  rw [writeAt, List.mapIdx_append]
  refine congrArg (writeAt offset before ++ ·) (congrArg (List.mapIdx · after) ?_)
  funext index byte
  push_cast
  ring_nf

theorem readAt_append (file : File) (offset : Int) (before after : List UInt8) :
    readAt file offset (before ++ after) =
      readAt file offset before ++ readAt file (offset + before.length) after := by
  rw [readAt, List.mapIdx_append]
  refine congrArg (readAt file offset before ++ ·) (congrArg (List.mapIdx · after) ?_)
  funext index byte
  push_cast
  ring_nf

/-- Blocks that follow each other in the file are one write of all their bytes. -/
theorem collective_writeAt (nprocs : ℕ) (offset : ℕ → Int) (bytes : ℕ → List UInt8)
    (consecutive : ∀ rank, offset (rank + 1) = offset rank + (bytes rank).length) :
    collective nprocs (fun rank => writeAt (offset rank) (bytes rank)) =
      writeAt (offset 0) ((List.range nprocs).flatMap bytes) := by
  have lengths : ∀ count, offset count = offset 0 + ((List.range count).flatMap bytes).length := by
    intro count
    induction count with
    | zero => simp
    | succ count ih =>
        rw [consecutive, ih, List.range_succ, List.flatMap_append, List.length_append,
          List.flatMap_singleton]
        push_cast
        exact add_assoc _ _ _
  induction nprocs with
  | zero => rfl
  | succ nprocs ih =>
      rw [collective, List.range_succ, List.flatMap_append, ← collective, ih,
        List.flatMap_singleton, List.flatMap_append, writeAt_append, List.flatMap_singleton,
        ← lengths]

/-- Bytes written through a block of basic elements are consecutive. -/
theorem writeView_block (size blocklength : ℕ) (disp : Int) {bytes : List UInt8}
    (sized : bytes.length = blocklength * size) :
    writeView ((Datatype.basic size).block blocklength disp) bytes = writeAt disp bytes := by
  rw [writeView, Datatype.positions_block_basic, ← sized]
  apply List.ext_getElem
  · simp [writeAt]
  · intro index _ _
    simp [writeAt]

/-- Nothing lands before a write. -/
theorem landed_writeAt_before {offset position : Int} (bytes : List UInt8)
    (before : position < offset) : landed (writeAt offset bytes) position = [] := by
  refine List.filterMap_eq_nil_iff.mpr fun write inside => if_neg ?_
  obtain ⟨index, _, rfl⟩ := List.mem_mapIdx.mp inside
  dsimp only
  omega

/-- At most one byte of a write lands at a position. -/
theorem landed_writeAt (offset : Int) (bytes : List UInt8) (index : ℕ) :
    landed (writeAt offset bytes) (offset + index) = bytes[index]?.toList := by
  induction bytes generalizing offset index with
  | nil => rfl
  | cons byte rest ih =>
      have first : writeAt offset (byte :: rest) = (offset, byte) :: writeAt (offset + 1) rest := by
        have := writeAt_append offset [byte] rest
        simpa [writeAt] using this
      rw [first, landed, List.filterMap_cons, ← landed]
      cases index with
      | zero =>
          have past : landed (writeAt (offset + 1) rest) (offset + ((0 : ℕ) : Int)) = [] :=
            landed_writeAt_before rest (by omega)
          rw [if_pos (by simp), past]
          rfl
      | succ index =>
          have next : offset + ((index + 1 : ℕ) : Int) = offset + 1 + index := by
            push_cast
            ring
          rw [if_neg (by dsimp only; omega), List.getElem?_cons_succ, next]
          exact ih _ _

/-- Nothing lands past a write. -/
theorem landed_writeAt_past {offset position : Int} (bytes : List UInt8)
    (past : offset + bytes.length ≤ position) : landed (writeAt offset bytes) position = [] := by
  have index : position = offset + ((position - offset).toNat : Int) := by omega
  rw [index, landed_writeAt, List.getElem?_eq_none (by omega)]
  rfl

/-- Bytes through the blocks of a structure are written block by block. -/
theorem writeView_concat (size blocklength : ℕ) (disp : Int) (types : List Datatype)
    {bytes : List UInt8} (rest : List UInt8) (sized : bytes.length = blocklength * size) :
    writeView (Datatype.concat ((Datatype.basic size).block blocklength disp :: types))
        (bytes ++ rest) =
      writeAt disp bytes ++ writeView (Datatype.concat types) rest := by
  have covered : ((Datatype.basic size).block blocklength disp).positions.length =
      bytes.length := by
    rw [Datatype.positions_block_basic, List.length_map, List.length_range, sized]
  rw [← writeView_block size blocklength disp sized, writeView, Datatype.positions_concat,
    List.flatMap_cons, List.zip_append covered, ← Datatype.positions_concat]
  rfl

/-- The outcome of writes that together write a document once is the document. -/
theorem Outcome.eq_document {writes : List (Int × UInt8)} {document : List UInt8} {file : File}
    (outcome : Outcome writes file) (once : writes.Perm (writeAt 0 document)) (position : ℕ) :
    file position = document[position]? := by
  have same := landed_perm once (position : Int)
  have at' := landed_writeAt 0 document position
  rw [Int.zero_add] at at'
  rw [at'] at same
  cases stored : document[position]? with
  | none =>
      rw [stored] at same
      exact outcome.eq_none same.eq_nil
  | some byte =>
      rw [stored] at same
      exact outcome.eq_of_singleton (List.perm_singleton.mp same)

/-- Writes that together write a document once have one outcome. -/
theorem Outcome.unique {writes : List (Int × UInt8)} {document : List UInt8} {first second : File}
    (once : writes.Perm (writeAt 0 document)) (outcome : Outcome writes first)
    (other : Outcome writes second) : first = second := by
  funext position
  cases position with
  | ofNat position =>
      exact (outcome.eq_document once position).trans (other.eq_document once position).symm
  | negSucc position =>
      have nothing : landed writes (Int.negSucc position) = [] := by
        have same := landed_perm once (Int.negSucc position)
        rw [landed_writeAt_before document (Int.negSucc_lt_zero position)] at same
        exact same.eq_nil
      rw [outcome.eq_none nothing, other.eq_none nothing]

/-! ### Typed reads -/

/-- The file holds bytes at an offset. -/
def Has (file : File) (offset : Int) (bytes : List UInt8) : Prop :=
  ∀ index byte, bytes[index]? = some byte → file (offset + (index : ℕ)) = some byte

section Reading

variable {Value : Type u} {size : ℕ} (layout : Native Value size) {file : File} {offset : Int}

/-- Read one element over the old value of a variable. -/
def readElement (file : File) (offset : Int) (old : Value) : Value :=
  layout.decode (readAt file offset (layout.encode old))

/-- Read consecutive elements over the old values of an array. -/
def readElements (file : File) (offset : Int) (old : List Value) : List Value :=
  old.mapIdx fun index value => readElement layout file (offset + ((index * size : ℕ) : Int)) value

variable {layout}

theorem has_append {before after : List UInt8} :
    Has file offset (before ++ after) ↔
      Has file offset before ∧ Has file (offset + before.length) after := by
  constructor
  · intro holds
    refine ⟨fun index byte listed => holds index byte ?_, fun index byte listed => ?_⟩
    · rw [List.getElem?_append_left (List.getElem?_eq_some_iff.mp listed).1, listed]
    · have shifted := holds (before.length + index) byte (by
        rw [List.getElem?_append_right (Nat.le_add_right _ _), Nat.add_sub_cancel_left, listed])
      rwa [Nat.cast_add, ← add_assoc] at shifted
  · rintro ⟨first, second⟩ index byte listed
    rcases Nat.lt_or_ge index before.length with early | late
    · exact first index byte (by rwa [List.getElem?_append_left early] at listed)
    · have stored := second (index - before.length) byte
        (by rwa [List.getElem?_append_right late] at listed)
      rwa [add_assoc, ← Nat.cast_add, Nat.add_sub_cancel' late] at stored

/-- Blocks of one size are held at multiples of it. -/
theorem has_flatMap {block : ℕ → List UInt8} {size : ℕ} (sized : ∀ k, (block k).length = size)
    {count : ℕ} (holds : Has file offset ((List.range count).flatMap block)) {k : ℕ}
    (inside : k < count) : Has file (offset + (k * size : ℕ)) (block k) := by
  intro index byte listed
  have within : index < size := sized k ▸ (List.getElem?_eq_some_iff.mp listed).1
  have stored := holds (k * size + index) byte
    ((flatMap_getElem? sized (List.getElem?_range inside) within).trans listed)
  rwa [Nat.cast_add, ← add_assoc] at stored

theorem readElement_eq_iff {old value : Value} : readElement layout file offset old = value ↔
    readAt file offset (layout.encode old) = layout.encode value := by
  have sized : (readAt file offset (layout.encode old)).length = size := by simp [readAt]
  constructor
  · rintro rfl
    rw [readElement, layout.encode_decode _ sized]
  · intro same
    rw [readElement, same, layout.decode_encode]

/-- Reading bytes that the file holds gives them. -/
theorem readAt_of_has {bytes buffer : List UInt8} (holds : Has file offset bytes)
    (sized : buffer.length = bytes.length) : readAt file offset buffer = bytes := by
  apply List.ext_getElem
  · simp [readAt, sized]
  · intro index _ inside
    simp only [readAt, List.getElem_mapIdx]
    rw [holds index _ (List.getElem?_eq_getElem inside), Option.getD_some]

theorem readElement_of_has {value : Value} (holds : Has file offset (layout.encode value))
    (old : Value) : readElement layout file offset old = value := by
  rw [readElement, readAt_of_has holds (by simp), layout.decode_encode]

/-- Past the end of the file a variable keeps its value. -/
theorem readElement_of_none (nothing : ∀ byte < size, file (offset + (byte : ℕ)) = none)
    (old : Value) : readElement layout file offset old = old := by
  have bytes : readAt file offset (layout.encode old) = layout.encode old := by
    apply List.ext_getElem
    · simp [readAt]
    · intro index _ inside
      rw [layout.length_encode] at inside
      simp only [readAt, List.getElem_mapIdx]
      rw [nothing index inside, Option.getD_none]
  rw [readElement, bytes, layout.decode_encode]

theorem readElements_append (before after : List Value) :
    readElements layout file offset (before ++ after) =
      readElements layout file offset before ++
        readElements layout file (offset + ((before.length * size : ℕ) : Int)) after := by
  rw [readElements, List.mapIdx_append]
  refine congrArg (readElements layout file offset before ++ ·)
    (congrArg (List.mapIdx · after) ?_)
  funext index value
  rw [Nat.add_mul, Nat.add_comm (index * size), Nat.cast_add, add_assoc]

/-- Reading elements that the file holds gives them. -/
theorem readElements_of_has {values old : List Value}
    (holds : Has file offset (layout.encodeAll values)) (sized : old.length = values.length) :
    readElements layout file offset old = values := by
  induction values generalizing offset old with
  | nil =>
      rw [List.eq_nil_of_length_eq_zero sized]
      rfl
  | cons value values ih =>
      obtain ⟨first, rest, rfl⟩ := List.exists_cons_of_length_eq_add_one sized
      obtain ⟨here, later⟩ := has_append.mp holds
      rw [layout.length_encode] at later
      have split := @readElements_append Value size layout file offset [first] rest
      rw [List.length_singleton, Nat.one_mul, ih later (Nat.succ.inj sized)] at split
      refine split.trans ?_
      simp [readElements, readElement_of_has here]

/-- Reading an element decodes the bytes that the file holds. -/
theorem encode_readElement_of_has {bytes : List UInt8} (holds : Has file offset bytes)
    (sized : bytes.length = size) (old : Value) :
    layout.encode (readElement layout file offset old) = bytes := by
  rw [readElement, readAt_of_has holds (by simp [sized]), layout.encode_decode _ sized]

end Reading

/-! ### Files of consecutive bytes -/

/-- The file with some content. -/
def fileOf (content : List UInt8) : File
  | .ofNat position => content[position]?
  | .negSucc _ => none

theorem fileOf_natCast (content : List UInt8) (position : ℕ) :
    fileOf content (position : Int) = content[position]? :=
  rfl

/-- A file begins with bytes that its content begins with. -/
theorem has_fileOf {content bytes : List UInt8} :
    Has (fileOf content) 0 bytes ↔ bytes <+: content := by
  rw [List.prefix_iff_getElem?]
  constructor
  · intro holds index inside
    have stored := holds index _ (List.getElem?_eq_getElem inside)
    rwa [zero_add, fileOf_natCast] at stored
  · intro begins index byte listed
    obtain ⟨inside, rfl⟩ := List.getElem?_eq_some_iff.mp listed
    rw [zero_add, fileOf_natCast, begins index inside]

/-- What is read from a file over a buffer: the file, and what is left of the buffer. -/
theorem readAt_fileOf (content buffer : List UInt8) :
    readAt (fileOf content) 0 buffer =
      (content ++ buffer.drop content.length).take buffer.length := by
  apply List.ext_getElem?
  intro index
  rw [readAt, List.getElem?_mapIdx, zero_add, fileOf_natCast, List.getElem?_take]
  rcases Nat.lt_or_ge index buffer.length with inside | past
  · rw [if_pos inside, List.getElem?_eq_getElem inside, Option.map_some]
    rcases Nat.lt_or_ge index content.length with early | late
    · rw [List.getElem?_append_left early, List.getElem?_eq_getElem early, Option.getD_some]
    · rw [List.getElem?_append_right late, List.getElem?_eq_none late, Option.getD_none,
        List.getElem?_drop, Nat.add_sub_cancel' late, List.getElem?_eq_getElem inside]
  · rw [if_neg (Nat.not_lt.mpr past), List.getElem?_eq_none past, Option.map_none]

/-- A file holds bytes at an offset if the rest of its content begins with them. -/
theorem has_fileOf_natCast {content bytes : List UInt8} {position : ℕ} :
    Has (fileOf content) position bytes ↔ bytes <+: content.drop position := by
  rw [← has_fileOf]
  refine forall_congr' fun index => forall_congr' fun byte => imp_congr_right fun _ => ?_
  rw [zero_add, ← Nat.cast_add, fileOf_natCast, fileOf_natCast, List.getElem?_drop]

/-- A read at an offset sees the rest of the file. -/
theorem readAt_fileOf_natCast (content buffer : List UInt8) (position : ℕ) :
    readAt (fileOf content) position buffer = readAt (fileOf (content.drop position)) 0 buffer := by
  rw [readAt, readAt]
  congr 1
  funext index byte
  rw [zero_add, ← Nat.cast_add, fileOf_natCast, fileOf_natCast, List.getElem?_drop]

end HandsOn.Mpi
