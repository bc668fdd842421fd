import HandsOn.Mpi.File

/-!
# Hyperslabs of a netCDF variable

A hyperslab is a box of indices of a variable. A transfer pairs its elements in the
arrays row-major order, the last dimension fastest, with the elements of the memory
datatype in typemap order.
-/

namespace HandsOn.Netcdf

open HandsOn.Mpi

universe u v

variable {Value : Type u}

/-- The indices of a hyperslab, in row-major order. -/
def hyperslab : List ℕ → List ℕ → List (List ℕ)
  | start :: starts, count :: counts =>
      (List.range' start count).flatMap fun index =>
        (hyperslab starts counts).map fun rest => index :: rest
  | _, _ => [[]]

/-- The elements `ncmpi_put_vara_all` writes. -/
def putVara (start count : List ℕ) (elements : List Value) : List (List ℕ × Value) :=
  (hyperslab start count).zip elements

/-- The elements `ncmpi_get_vara_int_all` reads into a contiguous buffer. -/
def getVara (array : List ℕ → Value) (start count : List ℕ) : List Value :=
  (hyperslab start count).map array

/-- A variable holds what was written, wherever something was. -/
def Holds (writes : List (List ℕ × Value)) (array : List ℕ → Value) : Prop :=
  ∀ index, landed writes index = [] ∨ array index ∈ landed writes index

theorem exists_holds [Inhabited Value] (writes : List (List ℕ × Value)) :
    ∃ array, Holds writes array := by
  refine ⟨fun index => (landed writes index).headD default, fun index => ?_⟩
  dsimp only
  rcases landed writes index with _ | ⟨value, rest⟩
  · exact .inl rfl
  · exact .inr List.mem_cons_self

theorem Holds.eq_of_singleton {writes : List (List ℕ × Value)} {array : List ℕ → Value}
    (holds : Holds writes array) {index : List ℕ} {value : Value}
    (one : landed writes index = [value]) : array index = value := by
  obtain nothing | stored := holds index
  · exact absurd (one.symm.trans nothing) (List.cons_ne_nil _ _)
  · rwa [one, List.mem_singleton] at stored

/-- Where all writes agree with a function, what has been written is its value. -/
theorem Holds.eq_of_agrees {writes : List (List ℕ × Value)} {array f : List ℕ → Value}
    (holds : Holds writes array) (agrees : ∀ write ∈ writes, f write.1 = write.2)
    {index : List ℕ} (written : index ∈ writes.map Prod.fst) : array index = f index := by
  obtain ⟨⟨key, value⟩, inside, rfl⟩ := List.mem_map.mp written
  obtain nothing | stored := holds key
  · exact absurd (mem_landed.mpr inside) (nothing ▸ List.not_mem_nil)
  · exact (agrees _ (mem_landed.mp stored)).symm

theorem hyperslab_nodup (start count : List ℕ) : (hyperslab start count).Nodup := by
  induction start generalizing count with
  | nil => simp [hyperslab]
  | cons first starts ih =>
      cases count with
      | nil => simp [hyperslab]
      | cons size counts =>
          rw [hyperslab, List.nodup_flatMap]
          refine ⟨fun index _ => (ih counts).map fun _ _ same => (List.cons.inj same).2, ?_⟩
          have distinct : (List.range' first size).Nodup := List.nodup_range'
          refine distinct.imp ?_
          intro index index' different entry inside inside'
          obtain ⟨rest, _, rfl⟩ := List.mem_map.mp inside
          obtain ⟨rest', _, same⟩ := List.mem_map.mp inside'
          exact different (List.cons.inj same).1.symm

theorem hyperslab_pair (row col rows cols : ℕ) :
    hyperslab [row, col] [rows, cols] = (List.range' row rows).flatMap fun i =>
      (List.range' col cols).map fun j => [i, j] := by
  simp only [hyperslab, List.map_flatMap, List.map_cons, List.map_nil]
  refine List.flatMap_congr fun i _ => ?_
  exact List.flatMap_pure_eq_map _ _

theorem mem_hyperslab_pair {row col rows cols i j : ℕ} :
    [i, j] ∈ hyperslab [row, col] [rows, cols] ↔
      (row ≤ i ∧ i < row + rows) ∧ col ≤ j ∧ j < col + cols := by
  simp only [hyperslab_pair, List.mem_flatMap, List.mem_map, List.mem_range'_1]
  constructor
  · rintro ⟨row', inRows, col', inCols, same⟩
    rw [List.cons.injEq, List.cons.injEq] at same
    obtain ⟨rfl, rfl, _⟩ := same
    exact ⟨inRows, inCols⟩
  · rintro ⟨inRows, inCols⟩
    exact ⟨i, inRows, j, inCols, rfl⟩

@[simp] theorem length_hyperslab_pair (row col rows cols : ℕ) :
    (hyperslab [row, col] [rows, cols]).length = rows * cols := by
  simp [hyperslab_pair]

/-- Elements are paired with their values under `f` exactly if they are listed so. -/
theorem zip_agrees {Key : Type v} {f : Key → Value} {keys : List Key} {values : List Value}
    (sized : keys.length = values.length) :
    (∀ write ∈ keys.zip values, f write.1 = write.2) ↔ keys.map f = values := by
  induction keys generalizing values with
  | nil =>
      rw [List.eq_nil_of_length_eq_zero sized.symm]
      simp
  | cons key keys ih =>
      obtain ⟨value, rest, rfl⟩ := List.exists_cons_of_length_eq_add_one sized.symm
      have paired := @ih rest (Nat.succ.inj sized)
      rw [List.zip_cons_cons, List.forall_mem_cons, paired, List.map_cons, List.cons.injEq]

/-- Reading a hyperslab that was written once gives back the elements. -/
theorem getVara_of_written {writes : List (List ℕ × Value)} {array : List ℕ → Value}
    (holds : Holds writes array) (distinct : (writes.map Prod.fst).Nodup)
    {start count : List ℕ} {elements : List Value}
    (sized : (hyperslab start count).length = elements.length)
    (written : ∀ write ∈ putVara start count elements, write ∈ writes) :
    getVara array start count = elements := by
  refine (zip_agrees sized).mp fun write inside => ?_
  exact holds.eq_of_singleton ((landed_eq_singleton distinct).mpr (written write inside))

end HandsOn.Netcdf
