import HandsOn.Mpi.Gather
import HandsOn.Semantics.Malloc
import HandsOn.Sparse.PrevNz

/-!
# What `CSRIO_Write` prints

Rank 0 gathers the arrays of all ranks into fresh memory and prints them. It frees `all_ia` twice,
the second time in the place of `all_ja`.
-/

namespace HandsOn.Sparse

open HandsOn.Mpi Semantics

universe u v

variable {Double : Type u} {Value : Type v}

/-- What rank 0 finds in memory that nothing has written: its `prev_nz`, which
`MPI_Exscan` leaves undefined, and the arrays it has just allocated. -/
structure Undefined (Double : Type u) (n nz : ℕ) where
  prevNz : Int32
  allIa : List Int32
  allJa : List Int32
  allA : List Double
  length_allIa : allIa.length = n
  length_allJa : allJa.length = nz
  length_allA : allA.length = nz

/-- What rank 0 prints; it may not come to `a`. -/
structure Printed (Double : Type u) where
  filename : List UInt8
  title : List UInt8
  n : Int32
  nz : Int32
  ia : List Int32
  ja : List Int32
  a : Option (List Double)
deriving DecidableEq

/-- The regions that rank 0 has allocated when it has printed `ja`. -/
structure RootRegions (Pointer : Type) where
  tmpIa : Pointer
  allIa : Pointer
  procN : Pointer
  nDisp : Pointer
  allJa : Pointer
  procNz : Pointer
  nzDisp : Pointer

section

variable {Pointer : Type} [DecidableEq Pointer]

namespace RootRegions

variable (regions : RootRegions Pointer)

/-- The calls up to the gathering of `ia`. -/
def iaCalls : List (HeapCall Pointer) :=
  [.malloc regions.nDisp, .malloc regions.procN, .malloc regions.allIa, .malloc regions.tmpIa]

/-- The calls up to the gathering of `ja`. -/
def jaCalls : List (HeapCall Pointer) :=
  [.malloc regions.nzDisp, .malloc regions.procNz, .malloc regions.allJa, .free regions.nDisp,
    .free regions.procN, .free regions.allIa] ++ regions.iaCalls

/-- The second `free(all_ia)` is defined and leaves what the gathering of `a` needs. -/
def LeavesCounts : Prop :=
  ∃ calls ∈ free regions.allIa regions.jaCalls,
    regions.procNz ∈ allocated calls ∧ regions.nzDisp ∈ allocated calls

instance : Decidable regions.LeavesCounts := inferInstanceAs (Decidable (∃ _ ∈ _, _))

end RootRegions

/-- What `malloc` returns on rank 0. -/
def rootRegions (memory : Allocator Pointer) (myRows n totNz nprocs : ℕ) :
    RootRegions Pointer :=
  let tmpIa := memory.address [] (myRows * 4)
  let calls := [.malloc tmpIa]
  let allIa := memory.address calls (n * 4)
  let calls := .malloc allIa :: calls
  let procN := memory.address calls (nprocs * 4)
  let calls := .malloc procN :: calls
  let nDisp := memory.address calls (nprocs * 4)
  let calls := [.free nDisp, .free procN, .free allIa, .malloc nDisp] ++ calls
  let allJa := memory.address calls (totNz * 4)
  let calls := .malloc allJa :: calls
  let procNz := memory.address calls (nprocs * 4)
  let calls := .malloc procNz :: calls
  let nzDisp := memory.address calls (nprocs * 4)
  { tmpIa, allIa, procN, nDisp, allJa, procNz, nzDisp }

/-- Each array has a region of its own as long as it is allocated. -/
structure RootRegions.Apart (regions : RootRegions Pointer) : Prop where
  ia : [regions.nDisp, regions.procN, regions.allIa, regions.tmpIa].Nodup
  ja : [regions.nzDisp, regions.procNz, regions.allJa, regions.tmpIa].Nodup

/-- After the first calls of `free` only `tmp_ia` is allocated. -/
theorem allocated_free_ia {nDisp procN allIa tmpIa : Pointer}
    (apart : [nDisp, procN, allIa, tmpIa].Nodup) :
    allocated [.free nDisp, .free procN, .free allIa, .malloc nDisp, .malloc procN,
      .malloc allIa, .malloc tmpIa] = [tmpIa] := by
  simp only [List.nodup_cons, List.mem_cons, List.not_mem_nil, not_or, or_false] at apart
  obtain ⟨⟨notProcN, notIa, -⟩, ⟨notIa', -⟩, -⟩ := apart
  simp [allocated, notProcN, notIa, notIa']

theorem rootRegions_apart (memory : Allocator Pointer) (myRows n totNz nprocs : ℕ) :
    (rootRegions memory myRows n totNz nprocs).Apart := by
  have tmpIa := memory.nodup_address [] rfl List.nodup_nil (myRows * 4)
  have allIa := memory.nodup_address [.malloc _] rfl tmpIa (n * 4)
  have procN := memory.nodup_address [.malloc _, .malloc _] rfl allIa (nprocs * 4)
  have nDisp := memory.nodup_address [.malloc _, .malloc _, .malloc _] rfl procN (nprocs * 4)
  have only := allocated_free_ia nDisp
  have allJa := memory.nodup_address _ only (List.nodup_singleton _) (totNz * 4)
  have procNz := memory.nodup_address (.malloc _ :: _) (congrArg (List.cons _) only) allJa
    (nprocs * 4)
  exact ⟨nDisp, memory.nodup_address (.malloc _ :: .malloc _ :: _)
    (congrArg (List.cons _ <| List.cons _ ·) only) procNz (nprocs * 4)⟩

/-- The second `free(all_ia)` does no harm exactly if `all_ja` is in the place of `all_ia`. -/
theorem RootRegions.Apart.leavesCounts_iff {regions : RootRegions Pointer}
    (apart : regions.Apart) :
    regions.LeavesCounts ↔ regions.allJa = regions.allIa := by
  have now : allocated regions.jaCalls =
      [regions.nzDisp, regions.procNz, regions.allJa, regions.tmpIa] :=
    congrArg (List.cons _ <| List.cons _ <| List.cons _ ·) (allocated_free_ia apart.ia)
  have after : allocated (.free regions.allIa :: regions.jaCalls) =
      [regions.nzDisp, regions.procNz, regions.allJa, regions.tmpIa].erase regions.allIa :=
    congrArg (·.erase regions.allIa) now
  have notTmp : regions.allIa ≠ regions.tmpIa := by
    have tmp := (List.nodup_cons.mp (List.nodup_cons.mp (List.nodup_cons.mp apart.ia).2).2).1
    rwa [List.mem_singleton] at tmp
  simp only [LeavesCounts, mem_free_iff, now]
  constructor
  · rintro ⟨calls, ⟨listed, rfl⟩, kept, kept'⟩
    rw [after, apart.ja.mem_erase_iff] at kept kept'
    simp only [List.mem_cons, List.not_mem_nil, or_false] at listed
    rcases listed with same | same | same | same
    · exact absurd same.symm kept'.1
    · exact absurd same.symm kept.1
    · exact same.symm
    · exact absurd same notTmp
  · intro same
    refine ⟨_, ⟨by simp [← same], rfl⟩, ?_⟩
    have apart' := apart.ja
    simp only [List.nodup_cons, List.mem_cons, List.not_mem_nil, not_or, or_false] at apart'
    rw [after, apart.ja.mem_erase_iff, apart.ja.mem_erase_iff, ← same]
    simp [apart'.1, apart'.2.1]

end

/-- `disp[0] = 0; for (i=1; i < nprocs; i++) disp[i] = disp[i-1] + counts[i-1]` -/
def displacements (counts : List Int32) : ℕ → Int32
  | 0 => 0
  | i + 1 => displacements counts i + counts.getD i 0

/-- The two gathers of an array: the counts of all ranks, then the blocks. -/
def gatherArray (nprocs : ℕ) (count : ℕ → Int32) (sent : ℕ → List Value)
    (buffer : List Value) : Option (List Value) :=
  let counts := gather nprocs count
  let disps := (List.range nprocs).map (displacements counts)
  gatherv nprocs sent (counts.map Int32.toNatClampNeg) (disps.map Int32.toNatClampNeg) buffer

/-- `CSRIO_Write` of `csrio-stdout.c`, as rank 0 prints it; `none` is a gather that does
not match. -/
def csrioStdoutWrite {Pointer : Type} [DecidableEq Pointer] (memory : Allocator Pointer)
    (filename title : List UInt8) (n : Int32) (nprocs : ℕ) (args : ℕ → WriteArguments Double)
    {rows nz : ℕ} (undefined : Undefined Double rows nz) : Option (Printed Double) :=
  let myNz := fun rank => (args rank).myNz
  let myRows := fun rank => (args rank).rowEnd - (args rank).rowStart + 1
  let totNz := exscan myNz nprocs
  let tmpIa := fun rank => (args rank).myIa.map (· + prevNz undefined.prevNz myNz rank)
  let regions :=
    rootRegions memory (myRows 0).toNatClampNeg n.toNatClampNeg totNz.toNatClampNeg nprocs
  (gatherArray nprocs myRows tmpIa undefined.allIa).bind fun allIa =>
    (gatherArray nprocs myNz (fun rank => (args rank).myJa) undefined.allJa).bind fun allJa =>
      (gatherArray nprocs myNz (fun rank => (args rank).myA) undefined.allA).map fun allA =>
        { filename := filename.takeWhile (· ≠ 0)
          title := title.takeWhile (· ≠ 0)
          n := n
          nz := totNz
          ia := allIa.take n.toNatClampNeg
          ja := allJa.take totNz.toNatClampNeg
          -- after `free(all_ia)`, in the place of `free(all_ja)`
          a := if regions.LeavesCounts then some (allA.take totNz.toNatClampNeg) else none }

theorem displacements_gather {nprocs rank : ℕ} (count : ℕ → Int32) (bounded : rank ≤ nprocs) :
    displacements (gather nprocs count) rank = exscan count rank := by
  induction rank with
  | zero => rfl
  | succ rank ih =>
      rw [displacements, ih (Nat.le_of_succ_le bounded), gather, exscan, exscan, List.range_succ,
        List.map_append, List.sum_append, List.getD_eq_getElem?_getD, List.getElem?_map,
        List.getElem?_range (Nat.lt_of_succ_le bounded)]
      simp

/-- Counts that fit in an `int` add up to the number of elements before a rank. -/
theorem exscan_length {count : ℕ → Int32} {sent : ℕ → List Value}
    (sized : ∀ rank, count rank = Int32.ofNat (sent rank).length) (rank : ℕ) :
    exscan count rank = Int32.ofNat ((List.range rank).flatMap sent).length := by
  induction rank with
  | zero => rfl
  | succ rank ih =>
      rw [exscan, List.range_succ, List.map_append, List.sum_append, ← exscan, ih,
        List.flatMap_append, List.length_append, Int32.ofNat_add]
      simp [sized]

/-- Gathering arrays whose lengths are sent as `int` puts them one after the other. -/
theorem gatherArray_eq {nprocs : ℕ} {count : ℕ → Int32}
    {sent : ℕ → List Value} {buffer : List Value}
    (sized : ∀ rank, count rank = Int32.ofNat (sent rank).length)
    (fills : buffer.length = ((List.range nprocs).flatMap sent).length)
    (fits : buffer.length < 2 ^ 31) :
    gatherArray nprocs count sent buffer = some ((List.range nprocs).flatMap sent) := by
  have short : ∀ rank ≤ nprocs, ((List.range rank).flatMap sent).length < 2 ^ 31 := by
    intro rank bounded
    obtain ⟨later, rfl⟩ := Nat.exists_eq_add_of_le bounded
    rw [List.range_add, List.flatMap_append, List.length_append] at fills
    omega
  apply gatherv_eq_flatMap _ _ fills
  · intro rank below
    have own : (sent rank).length < 2 ^ 31 := by
      have whole := short (rank + 1) below
      rw [List.range_succ, List.flatMap_append, List.length_append, List.flatMap_singleton] at whole
      omega
    simp [gather, List.getD_eq_getElem?_getD, List.getElem?_range below, sized,
      Int32.toNatClampNeg_ofNat_of_lt own]
  · intro rank below
    rw [List.getD_eq_getElem?_getD, List.getElem?_map, List.getElem?_map,
      List.getElem?_range below, Option.map_some, Option.map_some, Option.getD_some,
      displacements_gather count below.le, exscan_length sized,
      Int32.toNatClampNeg_ofNat_of_lt (short rank below.le)]

variable (parts : List (List (Row Double)))

/-- The parts of all ranks, one after the other. -/
theorem flatMap_parts (array : List (Row Double) → List Value) :
    ((List.range parts.length).flatMap fun rank => array (parts.getD rank [])) =
      parts.flatMap array := by
  induction parts with
  | nil => rfl
  | cons part rest ih =>
      rw [List.length_cons, List.range_succ_eq_map, List.flatMap_cons, List.flatMap_map,
        List.flatMap_cons, ← ih]
      rfl

/-- An array that is computed row by row, gathered from the parts. -/
theorem flatMap_parts_eq {array : List (Row Double) → List Value} (empty : array [] = [])
    (grows : ∀ before after, array (before ++ after) = array before ++ array after) :
    ((List.range parts.length).flatMap fun rank => array (parts.getD rank [])) =
      array parts.flatten := by
  rw [flatMap_parts]
  induction parts with
  | nil => exact empty.symm
  | cons part rest ih => rw [List.flatMap_cons, List.flatten_cons, grows, ih]

/-- Gathering an array that is computed row by row gives that of the whole matrix. -/
theorem gatherArray_parts {array : List (Row Double) → List Value} {count : ℕ → Int32}
    {buffer : List Value} (empty : array [] = [])
    (grows : ∀ before after, array (before ++ after) = array before ++ array after)
    (sized : ∀ rank, count rank = Int32.ofNat (array (parts.getD rank [])).length)
    (fills : buffer.length = (array parts.flatten).length) (fits : buffer.length < 2 ^ 31) :
    gatherArray parts.length count (fun rank => array (parts.getD rank [])) buffer =
      some (array parts.flatten) := by
  have whole := flatMap_parts_eq parts empty grows
  rw [gatherArray_eq sized (by rw [whole, fills]) fits, whole]

/-- The row starts that a rank sends, by the value that rank 0 finds in `prev_nz`. -/
def sentIa (undefined : Int32) (rank : ℕ) : List Int32 :=
  (writerArguments parts rank).myIa.map
    (· + prevNz undefined (fun rank => (writerArguments parts rank).myNz) rank)

theorem length_sentIa (undefined : Int32) (rank : ℕ) :
    (sentIa parts undefined rank).length = (parts.getD rank []).length := by
  rw [sentIa, List.length_map]
  exact length_rowStarts _

theorem length_flatMap_sentIa (undefined : Int32) :
    ((List.range parts.length).flatMap (sentIa parts undefined)).length =
      parts.flatten.length := by
  have whole := @flatMap_parts_eq Double _ parts id rfl fun _ _ => rfl
  rw [List.length_flatMap, List.map_congr_left fun rank _ => length_sentIa parts undefined rank,
    ← List.length_flatMap]
  exact congrArg List.length whole

/-- A loop over all elements of an array prints all of them. -/
theorem take_ofNat {values : List Value} {count : ℕ} (sized : values.length = count)
    (fits : count < 2 ^ 31) : values.take (Int32.ofNat count).toNatClampNeg = values := by
  rw [Int32.toNatClampNeg_ofNat_of_lt fits, ← sized, List.take_length]

section

variable {Pointer : Type} [DecidableEq Pointer] (memory : Allocator Pointer)

/-- What `malloc` returns where the parts are written. -/
def partsRegions : RootRegions Pointer :=
  rootRegions memory (parts.getD 0 []).length parts.flatten.length (nnz parts.flatten)
    parts.length

/-- What is printed, by the value that rank 0 finds in `prev_nz`. -/
theorem csrioStdoutWrite_eq (filename title : List UInt8)
    (fits : parts.flatten.length < 2 ^ 31 ∧ nnz parts.flatten < 2 ^ 31)
    (undefined : Undefined Double parts.flatten.length (nnz parts.flatten)) :
    csrioStdoutWrite memory filename title (Int32.ofNat parts.flatten.length) parts.length
        (writerArguments parts) undefined =
      some {
        filename := filename.takeWhile (· ≠ 0)
        title := title.takeWhile (· ≠ 0)
        n := Int32.ofNat parts.flatten.length
        nz := Int32.ofNat (nnz parts.flatten)
        ia := (List.range parts.length).flatMap (sentIa parts undefined.prevNz)
        ja := colIndices parts.flatten
        a := if (partsRegions parts memory).LeavesCounts then some (entries parts.flatten)
          else none } := by
  obtain ⟨fitsIa, fitsNz⟩ := fits
  have ia : gatherArray parts.length (fun rank => (writerArguments parts rank).rowEnd -
      (writerArguments parts rank).rowStart + 1) (sentIa parts undefined.prevNz) undefined.allIa =
        some ((List.range parts.length).flatMap (sentIa parts undefined.prevNz)) := by
    apply gatherArray_eq
    · intro rank
      rw [rowCount_eq, length_sentIa]
    · rw [undefined.length_allIa, length_flatMap_sentIa]
    · rwa [undefined.length_allIa]
  have ja : gatherArray parts.length (fun rank => (writerArguments parts rank).myNz)
      (fun rank => colIndices (parts.getD rank [])) undefined.allJa =
        some (colIndices parts.flatten) := by
    apply gatherArray_parts parts rfl colIndices_append
    · intro rank
      rw [length_colIndices]
      rfl
    · rw [undefined.length_allJa, length_colIndices]
    · rwa [undefined.length_allJa]
  have a : gatherArray parts.length (fun rank => (writerArguments parts rank).myNz)
      (fun rank => entries (parts.getD rank [])) undefined.allA = some (entries parts.flatten) := by
    apply gatherArray_parts parts rfl entries_append
    · intro rank
      rw [length_entries]
      rfl
    · rw [undefined.length_allA, length_entries]
    · rwa [undefined.length_allA]
  have tot : exscan (fun rank => (writerArguments parts rank).myNz) parts.length =
      Int32.ofNat (nnz parts.flatten) := by
    rw [exscan_writerArguments, rowsBefore_length]
  have ownRows : Int32.toNatClampNeg ((writerArguments parts 0).rowEnd -
      (writerArguments parts 0).rowStart + 1) = (parts.getD 0 []).length := by
    have own := (rowsBefore_add_le parts 0).1
    rw [rowCount_eq, Int32.toNatClampNeg_ofNat_of_lt (by omega)]
  refine Option.bind_eq_some_iff.mpr ⟨_, ia, Option.bind_eq_some_iff.mpr ⟨_, ja,
    Option.map_eq_some_iff.mpr ⟨_, a, ?_⟩⟩⟩
  rw [ownRows, tot, take_ofNat (length_flatMap_sentIa parts _) fitsIa,
    take_ofNat (length_colIndices _) fitsNz, take_ofNat (length_entries _) fitsNz,
    Int32.toNatClampNeg_ofNat_of_lt fitsIa, Int32.toNatClampNeg_ofNat_of_lt fitsNz]
  rfl

/-- Rank 0 sends its own row starts after the value that it finds in `prev_nz`. -/
theorem sentIa_first (undefined : Int32) :
    sentIa parts undefined 0 = (rowStarts (parts.getD 0 [])).map (· + undefined) :=
  rfl

/-- Later ranks send the same whatever rank 0 finds. -/
theorem sentIa_later {rank : ℕ} (later : rank ≠ 0) (first second : Int32) :
    sentIa parts first rank = sentIa parts second rank := by
  rw [sentIa, sentIa, prevNz, prevNz, if_neg later, if_neg later]

/-- Two values of `prev_nz` that gather the same row starts are equal, if rank 0 has any. -/
theorem eq_of_flatMap_sentIa (some_rows : parts.getD 0 [] ≠ []) {first second : Int32}
    (same : (List.range parts.length).flatMap (sentIa parts first) =
      (List.range parts.length).flatMap (sentIa parts second)) : first = second := by
  obtain ⟨others, count⟩ := Nat.exists_eq_succ_of_ne_zero
    (some_row_of_first parts some_rows).1.ne'
  obtain ⟨row, rest, part⟩ := List.exists_cons_of_ne_nil some_rows
  rw [count, List.range_succ_eq_map, List.flatMap_cons, List.flatMap_cons] at same
  have own := List.append_inj_left same (by rw [length_sentIa, length_sentIa])
  rw [sentIa_first, sentIa_first, part, rowStarts_cons, List.map_cons, List.map_cons,
    Int32.zero_add, Int32.zero_add] at own
  exact (List.cons.inj own).1

/-- Fresh memory with a value in `prev_nz`. -/
def freshMemory [Inhabited Double] (n nz : ℕ) (prevNz : Int32) : Undefined Double n nz where
  prevNz := prevNz
  allIa := List.replicate n 0
  allJa := List.replicate nz 0
  allA := List.replicate nz default
  length_allIa := List.length_replicate
  length_allJa := List.length_replicate
  length_allA := List.length_replicate

/-- The printed arrays do not depend on the undefined values exactly if rank 0 holds no
rows. -/
theorem printed_independent_iff [Inhabited Double] (filename title : List UInt8)
    (fits : parts.flatten.length < 2 ^ 31 ∧ nnz parts.flatten < 2 ^ 31) :
    (∀ first second : Undefined Double parts.flatten.length (nnz parts.flatten),
      csrioStdoutWrite memory filename title (Int32.ofNat parts.flatten.length) parts.length
          (writerArguments parts) first =
        csrioStdoutWrite memory filename title (Int32.ofNat parts.flatten.length) parts.length
          (writerArguments parts) second) ↔
      parts.getD 0 [] = [] := by
  simp only [csrioStdoutWrite_eq parts memory filename title fits, Option.some.injEq,
    Printed.mk.injEq, true_and, and_true]
  constructor
  · intro independent
    by_contra some_rows
    have same : (0 : Int32) = 1 := eq_of_flatMap_sentIa parts some_rows
      (independent (freshMemory _ _ 0) (freshMemory _ _ 1))
    exact absurd same (by decide)
  · intro empty first second
    refine List.flatMap_congr fun rank _ => ?_
    by_cases zero : rank = 0
    · rw [zero, sentIa_first, sentIa_first, empty]
      rfl
    · exact sentIa_later parts zero _ _

/-- What both versions of `CSRIO_Write` leave does not depend on the undefined values exactly
if rank 0 holds no rows. -/
theorem csrio_write_independent_iff [Inhabited Double] (int : Native Int32 4)
    (double : Native Double 8) (filename title : List UInt8) (nonempty : parts ≠ [])
    (fits : 2 + parts.flatten.length + nnz parts.flatten < 2 ^ 31) :
    (∀ first second : Undefined Double parts.flatten.length (nnz parts.flatten),
      (∀ file file' : File,
        Outcome (writesFrom int double title parts first.prevNz) file →
        Outcome (writesFrom int double title parts second.prevNz) file' → file = file') ∧
      csrioStdoutWrite memory filename title (Int32.ofNat parts.flatten.length) parts.length
          (writerArguments parts) first =
        csrioStdoutWrite memory filename title (Int32.ofNat parts.flatten.length) parts.length
          (writerArguments parts) second) ↔
      parts.getD 0 [] = [] := by
  have small : parts.flatten.length < 2 ^ 31 ∧ nnz parts.flatten < 2 ^ 31 := by omega
  have files := file_independent_iff int double title parts nonempty fits
  have printed := printed_independent_iff parts memory filename title small
  constructor
  · intro independent
    exact printed.mp fun first second => (independent first second).2
  · intro empty first second
    exact ⟨files.mpr empty _ _, printed.mpr empty first second⟩

end

/-- Two ranks, the second of which holds the matrix. -/
theorem csrio_write_independent_second_rank :
    (∀ file file' : File,
      Outcome
        (writesFrom littleEndianInt littleEndianWord [] [[], [[((0 : Int32), (5 : UInt64))]]] 0)
        file →
      Outcome (writesFrom littleEndianInt littleEndianWord [] [[], [[(0, 5)]]] 7) file' →
        file = file') ∧
    csrioStdoutWrite recycling [] [] 1 2 (writerArguments [[], [[((0 : Int32), (5 : UInt64))]]])
        (freshMemory 1 1 0) =
      csrioStdoutWrite recycling [] [] 1 2 (writerArguments [[], [[(0, 5)]]]) (freshMemory 1 1 7) :=
  (csrio_write_independent_iff [[], [[(0, 5)]]] recycling littleEndianInt littleEndianWord [] []
    (by decide) (by decide)).mpr rfl (freshMemory 1 1 0) (freshMemory 1 1 7)

/-- One rank with one row: neither the file nor the printed arrays are determined. -/
theorem one_row_depends :
    (¬ ∀ (first second : Int32) (file file' : File),
      Outcome
        (writesFrom littleEndianInt littleEndianWord [] [[[((0 : Int32), (5 : UInt64))]]] first)
        file →
      Outcome (writesFrom littleEndianInt littleEndianWord [] [[[(0, 5)]]] second) file' →
        file = file') ∧
    csrioStdoutWrite recycling [] [] 1 1 (writerArguments [[[((0 : Int32), (5 : UInt64))]]])
        (freshMemory 1 1 0) ≠
      csrioStdoutWrite recycling [] [] 1 1 (writerArguments [[[(0, 5)]]]) (freshMemory 1 1 1) := by
  refine ⟨fun independent => ?_, by decide⟩
  have empty := (file_independent_iff littleEndianInt littleEndianWord [] [[[(0, 5)]]]
    (by decide) (by decide)).mp independent
  exact absurd empty (by decide)

end HandsOn.Sparse
