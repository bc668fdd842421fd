import Mathlib.Data.List.FinRange
import HandsOn.Life.Patch
import HandsOn.Mpi.OneSided
import HandsOn.Mpi.PointToPoint

/-!
# Life distributed by blocks of rows

`life` with its row-block distribution and its three exchanges of edge rows:
point-to-point, fence, and post/start/complete/wait. One iteration is one phase:
the exchange, the calculation of the new state, and the swap of the matrices.
All three exchanges transfer the same elements.
-/

namespace HandsOn.Life

open HandsOn.Mpi

/-- `MLIFE_myrows` -/
def myrows (rows rank nprocs : ℕ) : ℕ :=
  rows / nprocs + if rank < rows % nprocs then 1 else 0

/-- `MLIFE_myrowoffset` -/
def myrowoffset (rows rank nprocs : ℕ) : ℕ :=
  rank * (rows / nprocs) + if rank > rows % nprocs then rows % nprocs else rank

theorem myrowoffset_zero (rows nprocs : ℕ) : myrowoffset rows 0 nprocs = 0 := by
  simp [myrowoffset]

/-- Each block ends where the next begins. -/
theorem myrowoffset_succ (rows rank nprocs : ℕ) :
    myrowoffset rows (rank + 1) nprocs =
      myrowoffset rows rank nprocs + myrows rows rank nprocs := by
  unfold myrowoffset myrows
  rw [Nat.succ_mul]
  split_ifs <;> omega

/-- The blocks cover the rows. -/
theorem myrowoffset_nprocs (rows : ℕ) {nprocs : ℕ} (positive : 0 < nprocs) :
    myrowoffset rows nprocs nprocs = rows := by
  rw [myrowoffset, if_pos (Nat.mod_lt _ positive), Nat.div_add_mod]

theorem myrowoffset_mono (rows nprocs : ℕ) {first last : ℕ} (ordered : first ≤ last) :
    myrowoffset rows first nprocs ≤ myrowoffset rows last nprocs := by
  induction last, ordered using Nat.le_induction with
  | base => exact Nat.le_refl _
  | succ last _ ih =>
      rw [myrowoffset_succ]
      omega

/-- Every block ends in the grid. -/
theorem myrowoffset_add_le (rows : ℕ) {rank nprocs : ℕ} (inside : rank < nprocs) :
    myrowoffset rows rank nprocs + myrows rows rank nprocs ≤ rows := by
  rw [← myrowoffset_succ]
  exact (myrowoffset_mono rows nprocs inside).trans
    (myrowoffset_nprocs rows (Nat.zero_lt_of_lt inside)).le

/-- Only ranks past the last row own none. -/
theorem myrowoffset_of_empty {rows rank nprocs : ℕ} (inside : rank < nprocs)
    (empty : myrows rows rank nprocs = 0) : myrowoffset rows rank nprocs = rows := by
  have positive : 0 < nprocs := by omega
  have below := Nat.mod_lt rows positive
  have split := Nat.div_add_mod rows nprocs
  unfold myrows at empty
  unfold myrowoffset
  obtain ⟨quotient, extra⟩ := Nat.add_eq_zero_iff.mp empty
  have past : ¬ rank < rows % nprocs := fun early => by simp [early] at extra
  rw [quotient, Nat.mul_zero, Nat.zero_add] at split ⊢
  split_ifs
  · exact split
  · omega

/-- Every row is in a block. -/
theorem exists_block {rows nprocs row : ℕ} (positive : 0 < nprocs) (inside : row < rows) :
    ∃ rank < nprocs, myrowoffset rows rank nprocs ≤ row ∧
      row < myrowoffset rows rank nprocs + myrows rows rank nprocs := by
  have below : ∀ count, row < myrowoffset rows count nprocs → ∃ rank < count,
      myrowoffset rows rank nprocs ≤ row ∧
        row < myrowoffset rows rank nprocs + myrows rows rank nprocs := by
    intro count before
    induction count with
    | zero => exact absurd before (by simp [myrowoffset_zero])
    | succ count ih =>
        rcases Nat.lt_or_ge row (myrowoffset rows count nprocs) with earlier | here
        · obtain ⟨rank, early, block⟩ := ih earlier
          exact ⟨rank, Nat.lt_succ_of_lt early, block⟩
        · exact ⟨count, Nat.lt_succ_self count, here, myrowoffset_succ rows count nprocs ▸ before⟩
  exact below nprocs ((myrowoffset_nprocs rows positive).symm ▸ inside)

/-- No row is in two blocks. -/
theorem block_unique {rows nprocs row first second : ℕ}
    (starts : myrowoffset rows first nprocs ≤ row)
    (ends : row < myrowoffset rows first nprocs + myrows rows first nprocs)
    (starts' : myrowoffset rows second nprocs ≤ row)
    (ends' : row < myrowoffset rows second nprocs + myrows rows second nprocs) :
    first = second := by
  rw [← myrowoffset_succ] at ends ends'
  rcases Nat.lt_trichotomy first second with before | same | after
  · exact absurd (ends.trans_le (myrowoffset_mono rows nprocs before)) (Nat.not_lt.mpr starts')
  · exact same
  · exact absurd (ends'.trans_le (myrowoffset_mono rows nprocs after)) (Nat.not_lt.mpr starts)

theorem myrows_le_one {rows nprocs : ℕ} (few : rows ≤ nprocs) (rank : ℕ) :
    myrows rows rank nprocs ≤ 1 := by
  unfold myrows
  rcases few.lt_or_eq with fewer | rfl
  · rw [Nat.div_eq_of_lt fewer]
    split_ifs <;> omega
  · rw [Nat.mod_self, if_neg (Nat.not_lt_zero rank)]
    exact Nat.div_le_of_le_mul (Nat.mul_one rows).ge

/-- With more rows than ranks, rank 0 owns several. -/
theorem two_le_myrows_zero {rows nprocs : ℕ} (positive : 0 < nprocs) (many : nprocs < rows) :
    2 ≤ myrows rows 0 nprocs := by
  have split := Nat.div_add_mod rows nprocs
  have some := Nat.div_pos many.le positive
  unfold myrows
  rcases Nat.eq_or_lt_of_le some with one | more
  · rw [← one, Nat.mul_one] at split
    rw [← one, if_pos (by omega)]
  · omega

section

variable {nprocs : ℕ}

theorem prev_lt (rank : Fin nprocs) : rank.val - 1 < nprocs := Nat.sub_lt_of_lt rank.isLt

/-- `prev`, where `none` is `MPI_PROC_NULL`. -/
def prev (rank : Fin nprocs) : Option (Fin nprocs) :=
  if rank.val = 0 then none else some ⟨rank - 1, prev_lt rank⟩

/-- `next`, where `none` is `MPI_PROC_NULL`. -/
def next (rank : Fin nprocs) : Option (Fin nprocs) :=
  if last : rank.val = nprocs - 1 then none else some ⟨rank + 1, by omega⟩

theorem prev_eq_some {rank other : Fin nprocs} :
    prev rank = some other ↔ other.val + 1 = rank := by
  unfold prev
  split
  · simp only [reduceCtorEq, false_iff]
    omega
  · simp only [Option.some.injEq, Fin.ext_iff]
    omega

theorem next_eq_some {rank other : Fin nprocs} :
    next rank = some other ↔ rank.val + 1 = other := by
  unfold next
  split
  · simp only [reduceCtorEq, false_iff]
    omega
  · rw [Option.some.injEq, Fin.ext_iff]

variable (rows cols ntimes : ℕ)

/-- The rows of a rank. -/
abbrev rowsOf (rank : Fin nprocs) : ℕ := myrows rows rank nprocs

/-- The first row of a rank, counted from zero. -/
abbrev offsetOf (rank : Fin nprocs) : ℕ := myrowoffset rows rank nprocs

/-- The calculation of iteration `k`. -/
def calculate (k : ℕ) (rank : Fin nprocs) : Mem → Mem :=
  sweep (rowsOf rows rank) cols (matrixAt k) (tempAt k)

variable (nprocs) in
/-- `life` with the `MLIFE_exchange` of point-to-point messages. -/
def pt2pt : PointToPoint.Program (Fin nprocs) Addr Int where
  phases := ntimes
  calls k rank :=
    [.isend (edge cols k 1) (prev rank),
      .irecv (edge cols k 0) (prev rank),
      .isend (edge cols k (rowsOf rows rank)) (next rank),
      .irecv (edge cols k (rowsOf rows rank + 1)) (next rank)]
  update := calculate rows cols

/-- `nrows_prev` -/
def nrowsPrev (rank : Fin nprocs) : ℕ :=
  match prev rank with
  | none => 0
  | some prev => rowsOf rows prev

/-- The `MPI_Put` calls of `MLIFE_exchange` in iteration `k`, into the window of
the allocation that `matrix` points to. -/
def puts (k : ℕ) (rank : Fin nprocs) : List (OneSided.Put (Fin nprocs) Addr) :=
  [⟨edge cols k (rowsOf rows rank), next rank, consecutive (matrixAt k, 0) (cols + 2)⟩,
    ⟨edge cols k 1, prev rank,
      consecutive (matrixAt k, (nrowsPrev rows rank + 1) * (cols + 2)) (cols + 2)⟩]

/-- `rma_grp` -/
def rmaGrp (rank : Fin nprocs) : List (Fin nprocs) :=
  (prev rank).toList ++ (next rank).toList

variable (nprocs) in
/-- `life` with the `MLIFE_exchange` of puts between post, start, complete and
wait. -/
def pscw : OneSided.Program Buffer (Fin nprocs) Addr Int where
  phases := ntimes
  window := matrixAt
  group _ := rmaGrp
  puts := puts rows cols
  update := calculate rows cols

variable (nprocs) in
/-- `life` with the `MLIFE_exchange` of puts between two fences. -/
def fence : OneSided.Program Buffer (Fin nprocs) Addr Int where
  phases := ntimes
  window := matrixAt
  group k := OneSided.fenceGroup (List.finRange nprocs) (puts rows cols k)
  puts := puts rows cols
  update := calculate rows cols

/-! ### The exchange of edges -/

variable (nprocs) in
/-- Each iteration, a rank's last row becomes the halo row above the next rank's
first, and its first row the one below the previous rank's last. -/
def edges : Exchange (Fin nprocs) Addr Int where
  transfers k source dest :=
    if k < ntimes then
      if source.val + 1 = dest then (edge cols k (rowsOf rows source)).zip (edge cols k 0)
      else if dest.val + 1 = source then (edge cols k 1).zip (edge cols k (rowsOf rows dest + 1))
      else []
    else []
  update := calculate rows cols

theorem pt2pt_sends (source dest : Fin nprocs) (k : ℕ) :
    (pt2pt nprocs rows cols ntimes).sends source dest k =
      if k < ntimes then
        if source.val + 1 = dest then [edge cols k (rowsOf rows source)]
        else if dest.val + 1 = source then [edge cols k 1] else []
      else [] := by
  unfold PointToPoint.Program.sends PointToPoint.Program.callsAt pt2pt
  split
  · simp only [PointToPoint.sendsTo_isend, PointToPoint.sendsTo_irecv,
      PointToPoint.sendsTo_nil, prev_eq_some, next_eq_some]
    grind
  · rfl

theorem pt2pt_recvs (source dest : Fin nprocs) (k : ℕ) :
    (pt2pt nprocs rows cols ntimes).recvs source dest k =
      if k < ntimes then
        if source.val + 1 = dest then [edge cols k 0]
        else if dest.val + 1 = source then [edge cols k (rowsOf rows dest + 1)] else []
      else [] := by
  unfold PointToPoint.Program.recvs PointToPoint.Program.callsAt pt2pt
  split
  · simp only [PointToPoint.recvsFrom_isend, PointToPoint.recvsFrom_irecv,
      PointToPoint.recvsFrom_nil, prev_eq_some, next_eq_some]
    grind
  · rfl

theorem pt2pt_matched : (pt2pt nprocs rows cols ntimes).Matched := by
  intro source dest k
  rw [pt2pt_sends, pt2pt_recvs]
  split_ifs
  · exact .inr ⟨_, _, rfl, rfl, by simp⟩
  · exact .inr ⟨_, _, rfl, rfl, by simp⟩
  · exact .inl ⟨rfl, rfl⟩
  · exact .inl ⟨rfl, rfl⟩

theorem pt2pt_exchange :
    (pt2pt nprocs rows cols ntimes).exchange = edges nprocs rows cols ntimes := by
  unfold PointToPoint.Program.exchange edges
  congr 1
  ext1 k
  ext1 source
  ext1 dest
  rw [pt2pt_sends, pt2pt_recvs]
  split_ifs <;> simp

/-- The displacement of a put to `prev` is that of its row below the last. -/
theorem edge_nrowsPrev {rank other : Fin nprocs} (above : other.val + 1 = rank) (k : ℕ) :
    consecutive (matrixAt k, (nrowsPrev rows rank + 1) * (cols + 2)) (cols + 2) =
      edge cols k (rowsOf rows other + 1) := by
  rw [nrowsPrev, prev_eq_some.mpr above]
  rfl

theorem elementsTo_puts (source dest : Fin nprocs) (k : ℕ) :
    OneSided.elementsTo (puts rows cols k source) dest =
      if source.val + 1 = dest then (edge cols k (rowsOf rows source)).zip (edge cols k 0)
      else if dest.val + 1 = source then (edge cols k 1).zip (edge cols k (rowsOf rows dest + 1))
      else [] := by
  simp only [puts, OneSided.elementsTo_cons, OneSided.elementsTo_nil, prev_eq_some,
    next_eq_some, List.append_nil]
  by_cases down : source.val + 1 = dest
  · rw [if_pos down, if_pos down, if_neg (by omega), List.append_nil, edge, edge, entry, entry,
      offset, offset, Nat.zero_mul]
  · rw [if_neg down, if_neg down, List.nil_append]
    split
    · next up => rw [edge_nrowsPrev rows cols up]
    · rfl

theorem target_of_put {k : ℕ} {rank dest : Fin nprocs} {put : OneSided.Put (Fin nprocs) Addr}
    (listed : put ∈ puts rows cols k rank) (aimed : put.target = some dest) :
    next rank = some dest ∨ prev rank = some dest := by
  simp only [puts, List.mem_cons, List.not_mem_nil, or_false] at listed
  rcases listed with rfl | rfl
  · exact .inl aimed
  · exact .inr aimed

theorem pscw_matched : (pscw nprocs rows cols ntimes).Matched where
  symm := by
    intro k source dest member
    simp only [pscw, rmaGrp, List.mem_append, Option.mem_toList, prev_eq_some,
      next_eq_some] at member ⊢
    exact member.symm
  target := by
    intro k rank put dest listed aimed
    unfold OneSided.Program.putsAt at listed
    split at listed
    · simp only [pscw, rmaGrp, List.mem_append, Option.mem_toList]
      exact (target_of_put rows cols listed aimed).symm
    · cases listed

theorem fence_matched : (fence nprocs rows cols ntimes).Matched where
  symm := by
    intro k source dest member
    obtain ⟨_, puts⟩ := OneSided.mem_fenceGroup.mp member
    exact OneSided.mem_fenceGroup.mpr ⟨List.mem_finRange _, puts.symm⟩
  target := by
    intro k rank put dest listed aimed
    unfold OneSided.Program.putsAt at listed
    split at listed
    · exact OneSided.mem_fenceGroup.mpr ⟨List.mem_finRange _, .inl ⟨put, listed, aimed⟩⟩
    · cases listed

theorem pscw_exchange :
    (pscw nprocs rows cols ntimes).exchange = edges nprocs rows cols ntimes := by
  unfold OneSided.Program.exchange OneSided.Program.putsAt pscw edges
  congr 1
  ext1 k
  ext1 source
  ext1 dest
  split
  · exact elementsTo_puts rows cols source dest k
  · rfl

theorem fence_exchange :
    (fence nprocs rows cols ntimes).exchange = edges nprocs rows cols ntimes :=
  pscw_exchange rows cols ntimes

end

end HandsOn.Life
