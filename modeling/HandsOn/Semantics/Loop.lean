import Mathlib.Data.List.Basic
import Mathlib.Data.Nat.Init

/-!
# Counting loops

`forLoop first stop body` is `for (i = first; i < stop; i++) body`. The rules
state what a whole loop preserves or sets from what one iteration does.
-/

namespace HandsOn.Semantics

universe u v

/-- Run `body` for each counter value from `first` below `stop`. -/
def forLoop {State : Type u} (first stop : ℕ) (body : ℕ → State → State) (state : State) :
    State :=
  (List.range' first (stop - first)).foldl (fun state i => body i state) state

section

variable {State : Type u} {first stop : ℕ} {body : ℕ → State → State}

theorem forLoop_empty (done : stop ≤ first) (state : State) :
    forLoop first stop body state = state := by
  simp [forLoop, Nat.sub_eq_zero_of_le done]

theorem forLoop_succ (ordered : first ≤ stop) (state : State) :
    forLoop first (stop + 1) body state = body stop (forLoop first stop body state) := by
  rw [forLoop, Nat.succ_sub ordered, List.range'_concat, List.foldl_append]
  simp [forLoop, Nat.add_sub_cancel' ordered]

/-- Invariant rule: what each iteration takes from one counter value to the next. -/
theorem forLoop_counts {P : ℕ → State → Prop} (ordered : first ≤ stop) {state : State}
    (holds : P first state)
    (next : ∀ i state, first ≤ i → i < stop → P i state → P (i + 1) (body i state)) :
    P stop (forLoop first stop body state) := by
  induction stop, ordered using Nat.le_induction with
  | base => rwa [forLoop_empty (Nat.le_refl _)]
  | succ stop ordered ih =>
      rw [forLoop_succ ordered]
      refine next stop _ ordered (Nat.lt_succ_self _) (ih fun i state above below => ?_)
      exact next i state above (Nat.lt_succ_of_lt below)

/-- Two loops over the same counter values run in step. -/
theorem forLoop_simulates {Other : Type v} {body' : ℕ → Other → Other}
    {R : ℕ → State → Other → Prop} (ordered : first ≤ stop) {state : State} {other : Other}
    (holds : R first state other)
    (next : ∀ i state other, first ≤ i → i < stop → R i state other →
      R (i + 1) (body i state) (body' i other)) :
    R stop (forLoop first stop body state) (forLoop first stop body' other) := by
  induction stop, ordered using Nat.le_induction with
  | base => rwa [forLoop_empty (Nat.le_refl _), forLoop_empty (Nat.le_refl _)]
  | succ stop ordered ih =>
      rw [forLoop_succ ordered, forLoop_succ ordered]
      refine next stop _ _ ordered (Nat.lt_succ_self _) (ih fun i state other above below => ?_)
      exact next i state other above (Nat.lt_succ_of_lt below)

/-- What every iteration preserves, the loop preserves. -/
theorem forLoop_preserves {P : State → Prop} {state : State} (holds : P state)
    (next : ∀ i state, first ≤ i → i < stop → P state → P (body i state)) :
    P (forLoop first stop body state) := by
  rcases Nat.le_total first stop with ordered | done
  · exact forLoop_counts (P := fun _ => P) ordered holds next
  · rwa [forLoop_empty done]

/-- What each iteration sets under an invariant and later ones keep, the loop sets
for every counter value. -/
theorem forLoop_sets {I : State → Prop} {P : ℕ → State → Prop} {state : State}
    (holds : I state)
    (next : ∀ i state, first ≤ i → i < stop → I state → I (body i state) ∧ P i (body i state))
    (keeps : ∀ i later state, first ≤ i → i < later → later < stop → P i state →
      P i (body later state))
    {i : ℕ} (above : first ≤ i) (below : i < stop) : P i (forLoop first stop body state) := by
  have all : I (forLoop first stop body state) ∧
      ∀ j, first ≤ j → j < stop → P j (forLoop first stop body state) := by
    refine forLoop_counts (P := fun count state => I state ∧ ∀ j, first ≤ j → j < count → P j state)
      (by omega) ⟨holds, fun j _ _ => by omega⟩ ?_
    rintro count state above below ⟨holds, set⟩
    refine ⟨(next count state above below holds).1, fun j aboveJ belowJ => ?_⟩
    rcases Nat.lt_succ_iff_lt_or_eq.mp belowJ with earlier | rfl
    · exact keeps j count state aboveJ earlier below (set j aboveJ earlier)
    · exact (next j state above below holds).2
  exact all.2 i above below

end

/-! ### Loops that can fail -/

section Except

variable {State : Type u} {Error : Type v} {step : State → ℕ → Except Error State} {start : State}
  {count : ℕ}

/-- A loop that has not failed has not failed before its last iteration, nor in it. -/
theorem foldlM_range_succ {last : State} :
    (List.range (count + 1)).foldlM step start = .ok last ↔
      ∃ state, (List.range count).foldlM step start = .ok state ∧ step state count = .ok last := by
  rw [List.range_succ, List.foldlM_append]
  cases (List.range count).foldlM step start with
  | error error =>
      constructor
      · rintro ⟨⟩
      · rintro ⟨_, ⟨⟩, _⟩
  | ok state =>
      constructor
      · intro finished
        cases next : step state count <;>
          simp [Bind.bind, Except.bind, next, Pure.pure, Except.pure] at finished
        exact ⟨state, rfl, finished ▸ next⟩
      · rintro ⟨_, ⟨rfl⟩, next⟩
        simp [Bind.bind, Except.bind, next, Pure.pure, Except.pure]

/-- Invariant rule: what each iteration that succeeds keeps. -/
theorem foldlM_range_keeps {I : ℕ → State → Prop} (first : I 0 start)
    (keeps : ∀ i < count, ∀ state next, I i state → step state i = .ok next → I (i + 1) next)
    {last : State} (finished : (List.range count).foldlM step start = .ok last) : I count last := by
  induction count generalizing last with
  | zero =>
      cases finished
      exact first
  | succ count ih =>
      obtain ⟨state, before, next⟩ := foldlM_range_succ.mp finished
      refine keeps count (Nat.lt_succ_self count) state last (ih ?_ before) next
      exact fun i inside => keeps i (Nat.lt_succ_of_lt inside)

/-- A loop that finishes does so in step with another one that can follow each iteration. -/
theorem foldlM_range_simulates {Other : Type u} {Error' : Type v}
    {step' : Other → ℕ → Except Error' Other} {start' : Other} {R : State → Other → Prop}
    (first : R start start')
    (follows : ∀ i < count, ∀ state other next, R state other → step state i = .ok next →
      ∃ next', step' other i = .ok next' ∧ R next next')
    {last : State} (finished : (List.range count).foldlM step start = .ok last) :
    ∃ last', (List.range count).foldlM step' start' = .ok last' ∧ R last last' := by
  refine foldlM_range_keeps (I := fun i state =>
    ∃ other, (List.range i).foldlM step' start' = .ok other ∧ R state other)
    ⟨start', rfl, first⟩ ?_ finished
  rintro i inside state next ⟨other, before, related⟩ iterated
  obtain ⟨next', followed, related'⟩ := follows i inside state other next related iterated
  exact ⟨next', foldlM_range_succ.mpr ⟨other, before, followed⟩, related'⟩

/-- A loop whose iterations keep an invariant, and succeed exactly if a condition holds, succeeds
exactly if all conditions hold. -/
theorem foldlM_range_ok_iff {I : ℕ → State → Prop} {C : ℕ → Prop} (first : I 0 start)
    (step_ok : ∀ i < count, ∀ state, I i state → ((∃ next, step state i = .ok next) ↔ C i))
    (keeps : ∀ i < count, ∀ state next, I i state → step state i = .ok next → I (i + 1) next) :
    (∃ last, (List.range count).foldlM step start = .ok last) ↔ ∀ i < count, C i := by
  induction count with
  | zero => exact iff_of_true ⟨start, rfl⟩ fun i none => absurd none (Nat.not_lt_zero i)
  | succ count ih =>
      have keeps' := fun i inside => keeps i (Nat.lt_succ_of_lt inside)
      have before := ih (fun i inside => step_ok i (Nat.lt_succ_of_lt inside)) keeps'
      have here : ∀ {state}, (List.range count).foldlM step start = .ok state →
          ((∃ next, step state count = .ok next) ↔ C count) := fun reached =>
        step_ok count (Nat.lt_succ_self count) _ (foldlM_range_keeps first keeps' reached)
      constructor
      · rintro ⟨last, finished⟩ i inside
        obtain ⟨state, reached, next⟩ := foldlM_range_succ.mp finished
        rcases Nat.lt_succ_iff_lt_or_eq.mp inside with less | rfl
        · exact before.mp ⟨state, reached⟩ i less
        · exact (here reached).mp ⟨last, next⟩
      · intro all
        obtain ⟨state, reached⟩ := before.mpr fun i inside => all i (Nat.lt_succ_of_lt inside)
        obtain ⟨last, next⟩ := (here reached).mpr (all count (Nat.lt_succ_self count))
        exact ⟨last, foldlM_range_succ.mpr ⟨state, reached, next⟩⟩

end Except

end HandsOn.Semantics
