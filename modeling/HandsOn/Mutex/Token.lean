import Mathlib.Data.Fintype.Basic
import HandsOn.Mutex.Protocol

/-!
# The token behind the mutex

The mutex is a token that is nowhere, with the process that owns the mutex, with
a process that left the mutex and has a `WAKEUP` to send, or in a `WAKEUP` in
flight. `Token` is that abstract state; `TokenInv` ties it to the bytes, program
counters, fetched copies and messages of the program. A process that fetched a
waiter keeps that waiter waiting, because only the token can release it.
-/

namespace HandsOn.Mutex

open HandsOn.Semantics

variable {nprocs : ℕ}

/-- The copy has another rank's non-zero byte. -/
def SawWaiter (myrank : Fin nprocs) (copy : List UInt8) : Prop :=
  ∃ rank : Fin nprocs, rank ≠ myrank ∧ entry myrank copy rank ≠ 0

instance (myrank : Fin nprocs) (copy : List UInt8) : Decidable (SawWaiter myrank copy) :=
  inferInstanceAs (Decidable (∃ rank : Fin nprocs, rank ≠ myrank ∧ entry myrank copy rank ≠ 0))

/-- In `MPIMUTEX_Lock` with a non-zero copy and without its `WAKEUP`. -/
def Pc.Waits (rank : Fin nprocs) : Pc → Prop
  | .lockTest copy => SawWaiter rank copy
  | .lockRecv => True
  | _ => False

/-- Its copy was all zero or its `WAKEUP` was received, and its next
`MPIMUTEX_Unlock` has not executed its epoch. -/
def Pc.Owns (rank : Fin nprocs) : Pc → Prop
  | .lockTest copy => ¬ SawWaiter rank copy
  | .inside => True
  | _ => False

/-- In `MPIMUTEX_Unlock` between an epoch with a non-zero copy and `MPI_Send`. -/
def Pc.Signals (rank : Fin nprocs) : Pc → Prop
  | .unlockTest copy => SawWaiter rank copy
  | .unlockSend _ => True
  | _ => False

instance (rank : Fin nprocs) : DecidablePred (Pc.Waits rank) := fun pc => by
  cases pc <;> unfold Pc.Waits <;> infer_instance

instance (rank : Fin nprocs) : DecidablePred (Pc.Owns rank) := fun pc => by
  cases pc <;> unfold Pc.Owns <;> infer_instance

instance (rank : Fin nprocs) : DecidablePred (Pc.Signals rank) := fun pc => by
  cases pc <;> unfold Pc.Signals <;> infer_instance

/-- Where the right to the mutex is. -/
inductive Token (nprocs : ℕ) where
  | absent
  | owned (rank : Fin nprocs)
  | signalling (rank : Fin nprocs)
  | flying (wakeup : Wakeup nprocs)
deriving DecidableEq

/-- The messages the token accounts for. -/
def Token.wakeups : Token nprocs → List (Wakeup nprocs)
  | .flying wakeup => [wakeup]
  | _ => []

/-- The copy a process has fetched and not tested yet. -/
def Pc.copy? : Pc → Option (List UInt8)
  | .lockTest copy | .unlockTest copy => some copy
  | _ => none

/-- The ranks a process in `MPIMUTEX_Unlock` may still send its `WAKEUP` to. -/
def Pc.Addresses (rank : Fin nprocs) : Pc → Fin nprocs → Prop
  | .unlockTest copy, other => other ≠ rank ∧ entry rank copy other ≠ 0
  | .unlockSend next, other => next = other
  | _, _ => False

theorem Pc.signals_of_addresses {rank other : Fin nprocs} {pc : Pc}
    (addresses : pc.Addresses rank other) : pc.Signals rank := by
  cases pc with
  | unlockTest copy => exact ⟨other, addresses⟩
  | unlockSend next => exact trivial
  | _ => exact addresses.elim

/-- How one process and its waitlist byte stand to the token. -/
structure Standing (token : Token nprocs) (rank : Fin nprocs) (pc : Pc) (byte : UInt8) :
    Prop where
  byte : byte ≠ 0 ↔ pc.Waits rank ∨ pc.Owns rank
  copy : ∀ copy, pc.copy? = some copy → copy.length = nprocs - 1
  next : ∀ next, pc = .unlockSend next → next < nprocs
  owns : pc.Owns rank ↔ token = .owned rank
  signals : pc.Signals rank ↔ token = .signalling rank
  waits : pc.Waits rank → token ≠ .absent

/-- The program state has its one token at `token`. -/
structure TokenInv (homerank : Fin nprocs) (state : State nprocs) (token : Token nprocs) :
    Prop where
  length : (state.waitlist homerank).length = nprocs
  standing : ∀ rank : Fin nprocs,
    Standing token rank (state.pc rank) (state.byte homerank rank)
  wakeups : state.wakeups = token.wakeups
  addressed : ∀ rank other, (state.pc rank).Addresses rank other →
    (state.pc other).Waits other
  flying : ∀ wakeup ∈ state.wakeups, (state.pc wakeup.dest).Waits wakeup.dest

/-- Another process's standing survives a move of the token that neither gives
it the token nor takes it away, nor abandons it while it waits. -/
theorem Standing.of_token {token token' : Token nprocs} {rank : Fin nprocs} {pc : Pc}
    {byte : UInt8} (standing : Standing token rank pc byte)
    (owned : token' = .owned rank ↔ token = .owned rank)
    (signalling : token' = .signalling rank ↔ token = .signalling rank)
    (absent : token' = .absent → ¬ pc.Waits rank) : Standing token' rank pc byte where
  byte := standing.byte
  copy := standing.copy
  next := standing.next
  owns := standing.owns.trans owned.symm
  signals := standing.signals.trans signalling.symm
  waits waits gone := absent gone waits

namespace TokenInv

variable {homerank : Fin nprocs} {state : State nprocs} {token : Token nprocs}

theorem length_get (inv : TokenInv homerank state token) (rank : Fin nprocs) :
    (state.get homerank rank).length = nprocs - 1 := by
  rw [State.get, length_waitlistcopy (by rw [inv.length]; exact rank.isLt), inv.length]

/-- What an epoch fetches: the other ranks that wait or own. -/
theorem entry_get (inv : TokenInv homerank state token) {rank other : Fin nprocs}
    (different : other ≠ rank) :
    entry rank (state.get homerank rank) other ≠ 0 ↔
      (state.pc other).Waits other ∨ (state.pc other).Owns other := by
  rw [State.get, entry_waitlistcopy _ (fun same => different (Fin.ext same))]
  exact (inv.standing other).byte

/-- A process with a `WAKEUP` to send addresses a waiting rank. -/
theorem exists_waits_of_signals (inv : TokenInv homerank state token) {rank : Fin nprocs}
    (signals : (state.pc rank).Signals rank) :
    ∃ other, (state.pc other).Waits other := by
  suffices ∃ other, (state.pc rank).Addresses rank other by
    obtain ⟨other, addresses⟩ := this
    exact ⟨other, inv.addressed rank other addresses⟩
  have valid := (inv.standing rank).next
  cases here : state.pc rank with
  | unlockTest copy =>
      rw [here] at signals
      obtain ⟨other, different, nonzero⟩ := signals
      exact ⟨other, different, nonzero⟩
  | unlockSend next => exact ⟨⟨next, valid next here⟩, rfl⟩
  | _ => simp [here, Pc.Signals] at signals

/-- A process outside fetches a non-zero byte exactly when the token is
somewhere. -/
theorem sawWaiter_get (inv : TokenInv homerank state token) {rank : Fin nprocs}
    (notWaits : ¬ (state.pc rank).Waits rank) (notOwns : ¬ (state.pc rank).Owns rank) :
    SawWaiter rank (state.get homerank rank) ↔ token ≠ .absent := by
  have saw_of : ∀ other, (state.pc other).Waits other ∨ (state.pc other).Owns other →
      SawWaiter rank (state.get homerank rank) := by
    intro other wants
    have different : other ≠ rank := by
      rintro rfl
      exact wants.elim notWaits notOwns
    exact ⟨other, different, (inv.entry_get different).mpr wants⟩
  constructor
  · rintro ⟨other, different, nonzero⟩
    rcases (inv.entry_get different).mp nonzero with waits | owns
    · exact (inv.standing other).waits waits
    · rw [(inv.standing other).owns.mp owns]
      simp
  · intro somewhere
    cases place : token with
    | absent => exact absurd place somewhere
    | owned other => exact saw_of other (.inr ((inv.standing other).owns.mpr place))
    | signalling other =>
        obtain ⟨waiter, waits⟩ :=
          inv.exists_waits_of_signals ((inv.standing other).signals.mpr place)
        exact saw_of waiter (.inl waits)
    | flying wakeup =>
        exact saw_of _ (.inl (inv.flying wakeup (by simp [inv.wakeups, place, Token.wakeups])))

/-- The owner fetches exactly the waiting ranks. -/
theorem entry_get_of_owns (inv : TokenInv homerank state token) {rank other : Fin nprocs}
    (owns : (state.pc rank).Owns rank) (different : other ≠ rank) :
    entry rank (state.get homerank rank) other ≠ 0 ↔ (state.pc other).Waits other := by
  rw [inv.entry_get different, or_iff_left]
  intro otherOwns
  have here := (inv.standing rank).owns.mp owns
  rw [(inv.standing other).owns.mp otherOwns] at here
  exact different (Token.owned.inj here)

/-- One process moves and the token with it. The other processes keep their
program counters and bytes, and nobody that is addressed stops waiting. -/
theorem move (inv : TokenInv homerank state token) (rank : Fin nprocs)
    {next : State nprocs} {token' : Token nprocs}
    (pcs : ∀ other, other ≠ rank → next.pc other = state.pc other)
    (bytes : ∀ other, other ≠ rank → next.byte homerank other = state.byte homerank other)
    (length : (next.waitlist homerank).length = nprocs)
    (self : Standing token' rank (next.pc rank) (next.byte homerank rank))
    (owned : ∀ other, other ≠ rank → (token' = .owned other ↔ token = .owned other))
    (signalling : ∀ other, other ≠ rank →
      (token' = .signalling other ↔ token = .signalling other))
    (absent : token' = .absent → ∀ other, other ≠ rank → ¬ (state.pc other).Waits other)
    (wakeups : next.wakeups = token'.wakeups)
    (addressed : ∀ other, (next.pc rank).Addresses rank other →
      other ≠ rank ∧ (state.pc other).Waits other)
    (flying : ∀ wakeup ∈ next.wakeups, (next.pc wakeup.dest).Waits wakeup.dest)
    (still : (state.pc rank).Waits rank → (next.pc rank).Waits rank ∨
      ∀ sender, sender ≠ rank → ¬ (state.pc sender).Signals sender) :
    TokenInv homerank next token' where
  length := length
  standing other := by
    by_cases same : other = rank
    · rw [same]
      exact self
    · rw [pcs other same, bytes other same]
      exact (inv.standing other).of_token (owned other same) (signalling other same)
        fun gone => absent gone other same
  wakeups := wakeups
  addressed sender other addresses := by
    by_cases same : sender = rank
    · subst sender
      obtain ⟨different, waits⟩ := addressed other addresses
      rw [pcs other different]
      exact waits
    · rw [pcs sender same] at addresses
      have waits := inv.addressed sender other addresses
      by_cases moved : other = rank
      · subst other
        exact (still waits).resolve_right
          fun none => none sender same (Pc.signals_of_addresses addresses)
      · rw [pcs other moved]
        exact waits
  flying := flying

/-- A message in flight still finds its addressee waiting after another process
moved. -/
theorem flying_of_move (inv : TokenInv homerank state token) {rank : Fin nprocs}
    (notWaits : ¬ (state.pc rank).Waits rank) (pc : Pc) :
    ∀ wakeup ∈ state.wakeups,
      ((state.setPc rank pc).pc wakeup.dest).Waits wakeup.dest := by
  intro wakeup flies
  have waits := inv.flying wakeup flies
  have different : wakeup.dest ≠ rank := by
    intro same
    rw [same] at waits
    exact notWaits waits
  rw [setPc_pc_of_ne _ _ different]
  exact waits

/-- Entering the waitlist takes an absent token and otherwise waits for it. -/
theorem lockEpoch (inv : TokenInv homerank state token) {rank : Fin nprocs}
    (here : state.pc rank = .outside) :
    TokenInv homerank
      ((state.put homerank rank 1).setPc rank (.lockTest (state.get homerank rank)))
      (if token = .absent then .owned rank else token) := by
  have notWaits : ¬ (state.pc rank).Waits rank := by simp [here, Pc.Waits]
  have notOwns : ¬ (state.pc rank).Owns rank := by simp [here, Pc.Owns]
  have notSignals : ¬ (state.pc rank).Signals rank := by simp [here, Pc.Signals]
  have saw := inv.sawWaiter_get notWaits notOwns
  have notOwned : token ≠ .owned rank := notOwns ∘ (inv.standing rank).owns.mpr
  have notSignalling : token ≠ .signalling rank :=
    notSignals ∘ (inv.standing rank).signals.mpr
  refine inv.move rank (fun other different => setPc_pc_of_ne _ _ different)
    (fun other different => put_byte_of_ne _ _ _ different) (by simp [inv.length])
    ?self ?owned ?signalling ?absent ?wakeups (by simp [Pc.Addresses])
    (inv.flying_of_move notWaits _) fun waits => absurd waits notWaits
  case self =>
    constructor <;>
      simp [Pc.Waits, Pc.Owns, Pc.Signals, Pc.copy?, put_byte_self, inv.length, saw,
        inv.length_get] <;> grind
  case owned => intro other different; split <;> simp_all [eq_comm]
  case signalling => intro other different; split <;> simp_all
  case absent => intro gone; split at gone <;> simp_all
  case wakeups => split <;> simp_all [inv.wakeups, Token.wakeups]

/-- A process that only tested its copy stands to the token as before. -/
theorem standing_of_test (inv : TokenInv homerank state token) {rank : Fin nprocs} {pc : Pc}
    (waits : pc.Waits rank ↔ (state.pc rank).Waits rank)
    (owns : pc.Owns rank ↔ (state.pc rank).Owns rank)
    (signals : pc.Signals rank ↔ (state.pc rank).Signals rank)
    (copy : pc.copy? = none) (next : ∀ next, pc = .unlockSend next → next < nprocs)
    (addresses : ∀ other, pc.Addresses rank other → (state.pc rank).Addresses rank other)
    (apart : ¬ pc.Addresses rank rank) :
    TokenInv homerank (state.setPc rank pc) token := by
  have standing := inv.standing rank
  refine inv.move rank (fun other different => setPc_pc_of_ne _ _ different)
    (fun other different => rfl) inv.length ?self (fun _ _ => .rfl) (fun _ _ => .rfl)
    ?absent inv.wakeups ?addressed ?flying fun before => .inl ?still
  case self =>
    rw [setPc_pc_self, setPc_byte]
    exact {
      byte := by rw [standing.byte, waits, owns]
      copy := by simp [copy]
      next := next
      owns := by rw [owns, standing.owns]
      signals := by rw [signals, standing.signals]
      waits := by rw [waits]; exact standing.waits }
  case absent => exact fun gone other _ waiting => (inv.standing other).waits waiting gone
  case addressed =>
    intro other addressed
    rw [setPc_pc_self] at addressed
    refine ⟨?_, inv.addressed rank other (addresses other addressed)⟩
    rintro rfl
    exact apart addressed
  case flying =>
    intro wakeup flies
    have waiting := inv.flying wakeup flies
    by_cases same : wakeup.dest = rank
    · rw [same] at waiting ⊢
      rw [setPc_pc_self]
      exact waits.mpr waiting
    · rw [setPc_pc_of_ne _ _ same]
      exact waiting
  case still =>
    rw [setPc_pc_self]
    exact waits.mpr before

/-- The emptiness test of the source decides `SawWaiter`. -/
theorem test_iff_sawWaiter (rank : Fin nprocs) {copy : List UInt8} {i : ℕ}
    (length : copy.length = nprocs - 1) (found : firstWaiter nprocs copy = some i) :
    i < nprocs - 1 ↔ SawWaiter rank copy := by
  obtain ⟨j, found', nonzero⟩ := firstWaiter_spec length
  obtain rfl : i = j := Option.some.inj (found.symm.trans found')
  rw [nonzero, exists_index_iff_exists_entry copy rank.isLt]
  constructor
  · rintro ⟨other, bounded, different, entry⟩
    exact ⟨⟨other, bounded⟩, fun same => different (congrArg Fin.val same), entry⟩
  · rintro ⟨other, different, entry⟩
    exact ⟨other, other.isLt, fun same => different (Fin.ext same), entry⟩

theorem lockTest (inv : TokenInv homerank state token) {rank : Fin nprocs}
    {copy : List UInt8} {i : ℕ} (here : state.pc rank = .lockTest copy)
    (found : firstWaiter nprocs copy = some i) :
    TokenInv homerank (state.setPc rank (if i < nprocs - 1 then .lockRecv else .inside))
      token := by
  have length := (inv.standing rank).copy copy (by simp [here, Pc.copy?])
  have saw : i < nprocs - 1 ↔ SawWaiter rank copy := test_iff_sawWaiter rank length found
  by_cases waiting : SawWaiter rank copy
  · rw [if_pos (saw.mpr waiting)]
    apply inv.standing_of_test <;>
      simp [here, Pc.Waits, Pc.Owns, Pc.Signals, Pc.copy?, Pc.Addresses, waiting]
  · rw [if_neg (mt saw.mp waiting)]
    apply inv.standing_of_test <;>
      simp [here, Pc.Waits, Pc.Owns, Pc.Signals, Pc.copy?, Pc.Addresses, waiting]

theorem unlockNone (inv : TokenInv homerank state token) {rank : Fin nprocs}
    {copy : List UInt8} {i : ℕ} (here : state.pc rank = .unlockTest copy)
    (found : firstWaiter nprocs copy = some i) (none : ¬ i < nprocs - 1) :
    TokenInv homerank (state.setPc rank .outside) token := by
  have length := (inv.standing rank).copy copy (by simp [here, Pc.copy?])
  have saw := mt (test_iff_sawWaiter rank length found).mpr none
  apply inv.standing_of_test <;>
    simp [here, Pc.Waits, Pc.Owns, Pc.Signals, Pc.copy?, Pc.Addresses, saw]

/-- The search narrows the addressees to one of them. -/
theorem unlockNext (inv : TokenInv homerank state token) {rank : Fin nprocs}
    {copy : List UInt8} {i next : ℕ} (here : state.pc rank = .unlockTest copy)
    (found : firstWaiter nprocs copy = some i) (some : i < nprocs - 1)
    (chosen : nextrank nprocs rank copy = .some next) :
    TokenInv homerank (state.setPc rank (.unlockSend next)) token := by
  have length := (inv.standing rank).copy copy (by simp [here, Pc.copy?])
  have saw : SawWaiter rank copy := (test_iff_sawWaiter rank length found).mp some
  obtain ⟨other, different, nonzero⟩ := saw
  obtain ⟨next', chosen', bounded, apart, waiter, _⟩ := nextrank_spec rank.isLt length
    ⟨other, other.isLt, fun same => different (Fin.ext same), nonzero⟩
  obtain rfl : next = next' := Option.some.inj (chosen.symm.trans chosen')
  apply inv.standing_of_test <;>
    simp [here, Pc.Waits, Pc.Owns, Pc.Signals, Pc.copy?, Pc.Addresses, apart, bounded]
  · exact ⟨other, different, nonzero⟩
  · rintro target rfl
    exact ⟨fun same => apart (congrArg Fin.val same), waiter⟩

/-- The owner leaves: the token is signalling if somebody waits, and absent if
nobody does. -/
theorem unlockEpoch (inv : TokenInv homerank state token) {rank : Fin nprocs}
    (here : state.pc rank = .inside) :
    TokenInv homerank
      ((state.put homerank rank 0).setPc rank (.unlockTest (state.get homerank rank)))
      (if SawWaiter rank (state.get homerank rank) then .signalling rank else .absent) := by
  have notWaits : ¬ (state.pc rank).Waits rank := by simp [here, Pc.Waits]
  have owns : (state.pc rank).Owns rank := by simp [here, Pc.Owns]
  have place : token = .owned rank := (inv.standing rank).owns.mp owns
  have quiet : state.wakeups = [] := by rw [inv.wakeups, place]; rfl
  refine inv.move rank (fun other different => setPc_pc_of_ne _ _ different)
    (fun other different => put_byte_of_ne _ _ _ different) (by simp [inv.length])
    ?self ?owned ?signalling ?absent ?wakeups ?addressed (by simp [quiet])
    fun waits => absurd waits notWaits
  case self =>
    constructor <;>
      simp [Pc.Waits, Pc.Owns, Pc.Signals, Pc.copy?, put_byte_self, inv.length,
        inv.length_get]
    split <;> simp
  case owned => intro other different; split <;> simp [place, different.symm]
  case signalling => intro other different; split <;> simp [place, different.symm]
  case absent =>
    intro gone other different waits
    refine absurd gone ?_
    rw [if_pos ⟨other, different, (inv.entry_get_of_owns owns different).mpr waits⟩]
    simp
  case wakeups => split <;> simp [quiet, Token.wakeups]
  case addressed =>
    intro other addressed
    rw [setPc_pc_self] at addressed
    exact ⟨addressed.1, (inv.entry_get_of_owns owns addressed.1).mp addressed.2⟩

theorem unlockSend (inv : TokenInv homerank state token) {rank dest : Fin nprocs}
    (here : state.pc rank = .unlockSend dest) :
    TokenInv homerank
      { state.setPc rank .outside with wakeups := state.wakeups ++ [⟨rank, dest⟩] }
      (.flying ⟨rank, dest⟩) := by
  have notWaits : ¬ (state.pc rank).Waits rank := by simp [here, Pc.Waits]
  have signals : (state.pc rank).Signals rank := by simp [here, Pc.Signals]
  have place : token = .signalling rank := (inv.standing rank).signals.mp signals
  have quiet : state.wakeups = [] := by rw [inv.wakeups, place]; rfl
  have waits : (state.pc dest).Waits dest :=
    inv.addressed rank dest (by simp [here, Pc.Addresses])
  have different : dest ≠ rank := by
    rintro rfl
    exact notWaits waits
  refine inv.move rank (fun other different => setPc_pc_of_ne _ _ different)
    (fun other different => rfl) inv.length ?self (by simp [place]) ?signalling (by simp)
    (by simp [quiet, Token.wakeups]) (by simp [State.setPc, Pc.Addresses]) ?flying
    fun waits => absurd waits notWaits
  case self =>
    have byte := (inv.standing rank).byte
    constructor <;> simp_all [State.setPc, State.byte, Pc.Waits, Pc.Owns, Pc.Signals, Pc.copy?]
  case signalling => intro other apart; simp [place, apart.symm]
  case flying =>
    simp [quiet, State.setPc, different, waits]

theorem lockRecv (inv : TokenInv homerank state token) {rank source : Fin nprocs}
    (here : state.pc rank = .lockRecv) (flies : ⟨source, rank⟩ ∈ state.wakeups) :
    TokenInv homerank
      { state.setPc rank .inside with wakeups := state.wakeups.erase ⟨source, rank⟩ }
      (.owned rank) := by
  have waits : (state.pc rank).Waits rank := by simp [here, Pc.Waits]
  have place : token = .flying ⟨source, rank⟩ := by
    rw [inv.wakeups] at flies
    cases token <;> simp_all [Token.wakeups]
  have alone : state.wakeups = [⟨source, rank⟩] := by rw [inv.wakeups, place]; rfl
  have silent : ∀ sender, sender ≠ rank → ¬ (state.pc sender).Signals sender := by
    intro sender _ signals
    have signalling := (inv.standing sender).signals.mp signals
    simp [place] at signalling
  refine inv.move rank (fun other different => setPc_pc_of_ne _ _ different)
    (fun other different => rfl) inv.length ?self ?owner (by simp [place]) (by simp)
    (by simp [alone, Token.wakeups]) (by simp [State.setPc, Pc.Addresses])
    (by simp [alone]) fun _ => .inr silent
  case self =>
    have byte := (inv.standing rank).byte
    constructor <;> simp_all [State.setPc, State.byte, Pc.Waits, Pc.Owns, Pc.Signals, Pc.copy?]
  case owner => intro other apart; simp [place, apart.symm]

/-- A program state has its token in one place only. -/
theorem unique {token' : Token nprocs} (inv : TokenInv homerank state token)
    (inv' : TokenInv homerank state token') : token' = token := by
  have same : token'.wakeups = token.wakeups := inv'.wakeups.symm.trans inv.wakeups
  have owned_iff : ∀ rank, token' = .owned rank ↔ token = .owned rank := fun rank =>
    (inv'.standing rank).owns.symm.trans (inv.standing rank).owns
  have signalling_iff : ∀ rank, token' = .signalling rank ↔ token = .signalling rank :=
    fun rank => (inv'.standing rank).signals.symm.trans (inv.standing rank).signals
  cases token with
  | owned rank => exact (owned_iff rank).mpr rfl
  | signalling rank => exact (signalling_iff rank).mpr rfl
  | absent | flying => cases token' <;> simp_all [Token.wakeups]

/-- One step of the program is one step, or none, of the token. -/
theorem preserved (inv : TokenInv homerank state token) {action : Action nprocs}
    {next : State nprocs} (taken : step homerank state action = some next) :
    ∃ token', TokenInv homerank next token' := by
  cases stepped_of_step taken with
  | lockEpoch here => exact ⟨_, inv.lockEpoch here⟩
  | lockTest here found => exact ⟨_, inv.lockTest here found⟩
  | lockRecv here flies => exact ⟨_, inv.lockRecv here flies⟩
  | unlockEpoch here => exact ⟨_, inv.unlockEpoch here⟩
  | unlockNone here found none => exact ⟨_, inv.unlockNone here found none⟩
  | unlockNext here found some chosen => exact ⟨_, inv.unlockNext here found some chosen⟩
  | unlockSend dest here => exact ⟨_, inv.unlockSend here⟩

/-- After `MPIMUTEX_Create` there is no token: nobody owns the mutex. -/
theorem initial (homerank : Fin nprocs) : TokenInv homerank (create homerank) .absent where
  length := by simp [create]
  standing rank := by
    constructor <;> simp [create, State.byte, Pc.Waits, Pc.Owns, Pc.Signals, Pc.copy?]
  wakeups := rfl
  addressed := by simp [create, Pc.Addresses]
  flying := by simp [create]

/-- Every reachable state has its token somewhere. -/
theorem of_reachable {state : State nprocs} (reachable : (system homerank).Reachable state) :
    ∃ token, TokenInv homerank state token := by
  refine reachable.invariant (P := fun state => ∃ token, TokenInv homerank state token)
    ?_ fun holds taken => ?_
  · rintro start rfl
    exact ⟨.absent, .initial homerank⟩
  · obtain ⟨token, inv⟩ := holds
    exact inv.preserved taken

end TokenInv

end HandsOn.Mutex
