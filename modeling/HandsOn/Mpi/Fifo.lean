import Mathlib.Data.List.Basic

/-!
# Messages that do not overtake

The messages from one process to another with one tag arrive in the order in which they are
sent. Where the process sends one message after another, those under way are the ones from the
number received so far up to the number sent so far.
-/

namespace HandsOn.Mpi

universe u

/-- The messages numbered from `first` on, before `next`, are under way. -/
structure UnderWay {Message : Type u} (message : ℕ → Message) (channel : List Message)
    (first next : ℕ) : Prop where
  ordered : first ≤ next
  channel : channel = (List.range' first (next - first)).map message

namespace UnderWay

variable {Message : Type u} {message : ℕ → Message} {channel rest : List Message} {head : Message}
  {first next : ℕ}

/-- Nothing is under way at first. -/
theorem none (message : ℕ → Message) (count : ℕ) : UnderWay message [] count count where
  ordered := Nat.le_refl _
  channel := by rw [Nat.sub_self]; rfl

theorem push (underWay : UnderWay message channel first next) :
    UnderWay message (channel ++ [message next]) first (next + 1) where
  ordered := Nat.le_succ_of_le underWay.ordered
  channel := by
    rw [underWay.channel, Nat.succ_sub underWay.ordered, List.range'_concat, List.map_append,
      List.map_singleton, Nat.one_mul, Nat.add_sub_cancel' underWay.ordered]

/-- The next message to arrive is the first of those under way. -/
theorem pop (underWay : UnderWay message (head :: rest) first next) :
    head = message first ∧ UnderWay message rest (first + 1) next := by
  have same := underWay.channel
  cases under : next - first with
  | zero =>
      rw [under] at same
      cases same
  | succ count =>
      rw [under, List.range'_succ, List.map_cons] at same
      obtain ⟨rfl, rfl⟩ := List.cons.inj same
      exact ⟨rfl, by omega, by rw [Nat.sub_add_eq, under, Nat.add_sub_cancel]⟩

/-- Where nothing is under way, all that has been sent has been received. -/
theorem eq_of_nil (underWay : UnderWay message [] first next) : first = next := by
  have same := congrArg List.length underWay.channel
  have ordered := underWay.ordered
  rw [List.length_nil, List.length_map, List.length_range'] at same
  omega

end UnderWay

end HandsOn.Mpi
