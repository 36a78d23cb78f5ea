import AmberStore.Lib.Runs
import Mathlib.Logic.Function.Basic

/-!
# A shared and exclusive lock that carries a generation

Some parties share a lock and a counter.  A party that takes the lock
exclusively first moves the counter on, and may then change what the others
look at.  A party that takes the lock shared and finds the counter moved looks
again.  So whoever holds the lock, and knows the counter, has looked after the
last change that any other party made.
-/

open Function

namespace GenerationLock

/-- How far a party is with the lock. -/
inductive Phase
  /-- It does not hold the lock. -/
  | away
  /-- It holds the lock shared, and what it saw may be old. -/
  | reading
  /-- It holds the lock shared, and has seen everything. -/
  | current
  /-- It holds the lock exclusively, and has not moved the counter. -/
  | claiming
  /-- It moved the counter, and what it saw may be old. -/
  | claimed
  /-- It holds the lock exclusively, and has seen everything. -/
  | sweeping
  deriving DecidableEq

/-- Whether a party holds the lock exclusively. -/
def Phase.isExclusive : Phase → Bool
  | claiming | claimed | sweeping => true
  | _ => false

/-- Whether a party may rely on what it saw. -/
def Phase.isSettled : Phase → Bool
  | current | sweeping => true
  | _ => false

/-- Whether a party moved the counter under the lock it holds. -/
def Phase.hasMoved : Phase → Bool
  | claimed | sweeping => true
  | _ => false

/-- One party. -/
structure Party where
  phase : Phase
  /-- The counter at its last look under the lock. -/
  known : Option Nat
  lookedAt : Nat
  /-- When it last moved the counter or changed something. -/
  changedAt : Nat

/-- The parties, the counter, and a clock that stamps looks and changes. -/
structure System (ι : Type) where
  parties : ι → Party
  generation : Nat
  /-- The time of the last stamp. -/
  clock : Nat

variable {ι : Type} [DecidableEq ι]

/-- The system with one party replaced. -/
def System.put (system : System ι) (who : ι) (party : Party) : System ι :=
  { system with parties := update system.parties who party }

/-- A look under the lock, which brings a party into a settled phase. -/
def System.look (system : System ι) (who : ι) (phase : Phase) : System ι :=
  { system with
    parties := update system.parties who
      { system.parties who with
        phase := phase
        known := some system.generation
        lookedAt := system.clock + 1 }
    clock := system.clock + 1 }

/-- A party moves the counter on. -/
def System.move (system : System ι) (who : ι) : System ι :=
  { parties := update system.parties who
      { system.parties who with
        phase := .claimed
        changedAt := system.clock + 1 }
    generation := system.generation + 1
    clock := system.clock + 1 }

/-- A party changes what the others look at. -/
def System.change (system : System ι) (who : ι) : System ι :=
  { system with
    parties := update system.parties who
      { system.parties who with changedAt := system.clock + 1 }
    clock := system.clock + 1 }

/-- What a party may do. -/
inductive Step (system : System ι) : System ι → Prop
  | lockShared (who : ι)
      (isAway : (system.parties who).phase = .away)
      (free : ∀ other, other ≠ who →
        (system.parties other).phase.isExclusive = false) :
      Step system (system.put who { system.parties who with phase := .reading })
  | lockExclusive (who : ι)
      (isAway : (system.parties who).phase = .away)
      (free : ∀ other, other ≠ who → (system.parties other).phase = .away) :
      Step system (system.put who
        { system.parties who with phase := .claiming })
  | unlock (who : ι) :
      Step system (system.put who { system.parties who with phase := .away })
  /-- The counter did not move since the last look. -/
  | keep (who : ι)
      (isReading : (system.parties who).phase = .reading)
      (unmoved : (system.parties who).known = some system.generation) :
      Step system (system.put who { system.parties who with phase := .current })
  | lookShared (who : ι)
      (isReading : (system.parties who).phase = .reading) :
      Step system (system.look who .current)
  /-- Moving the counter fails, but may leave it larger. -/
  | skew (who : ι) (value : Nat)
      (isClaiming : (system.parties who).phase = .claiming)
      (larger : system.generation ≤ value) :
      Step system { system with generation := value }
  | move (who : ι)
      (isClaiming : (system.parties who).phase = .claiming) :
      Step system (system.move who)
  | lookExclusive (who : ι)
      (isClaimed : (system.parties who).phase = .claimed) :
      Step system (system.look who .sweeping)
  | change (who : ι)
      (isSweeping : (system.parties who).phase = .sweeping) :
      Step system (system.change who)

/-- Nobody holds the lock or has looked under it. -/
def IsInitial (system : System ι) : Prop :=
  ∀ who, (system.parties who).phase = .away ∧
    (system.parties who).known = none ∧
    (system.parties who).changedAt = 0 ∧ (system.parties who).lookedAt = 0

/-! ## What holds in every run -/

/-- What holds of each party. -/
structure PartyOk (generation clock : Nat) (party : Party) : Prop where
  changedAt_le : party.changedAt ≤ clock
  lookedAt_le : party.lookedAt ≤ clock
  /-- A party knows no more than the counter says. -/
  known_le : ∀ value, party.known = some value → value ≤ generation

/-- What holds of each party and another one. -/
structure PairOk (generation : Nat) (party other : Party) : Prop where
  /-- An exclusive holder is alone. -/
  alone : party.phase.isExclusive = true → other.phase = .away
  /-- Who knows the counter has seen every change of the other. -/
  known_fresh : party.known = some generation → other.changedAt < party.lookedAt
  /-- Who is settled has seen every change of the other. -/
  settled_fresh : party.phase.isSettled = true →
    other.changedAt < party.lookedAt
  /-- The other one does not know a counter that was moved. -/
  moved : party.phase.hasMoved = true → other.known ≠ some generation

/-- The invariant of the system. -/
structure Invariant (system : System ι) : Prop where
  party : ∀ who, PartyOk system.generation system.clock (system.parties who)
  pair : ∀ who other, other ≠ who →
    PairOk system.generation (system.parties who) (system.parties other)

omit [DecidableEq ι] in
theorem IsInitial.invariant
    (isInitial : IsInitial system) :
    Invariant system := by
  constructor
  · intro who
    obtain ⟨_, known, changedAt, lookedAt⟩ := isInitial who
    constructor <;> simp_all
  · intro who other _
    obtain ⟨phase, known, _, _⟩ := isInitial who
    constructor <;> simp_all [Phase.isExclusive, Phase.isSettled,
      Phase.hasMoved]

/-- The invariant holds after one party changed, if it holds of that party
and each other one, and of each two of the others. -/
theorem Invariant.of_update
    {system : System ι} (who : ι) {party : Party}
    (self : PartyOk generation clock party)
    (others : ∀ other, other ≠ who →
      PartyOk generation clock (system.parties other) ∧
      PairOk generation party (system.parties other) ∧
      PairOk generation (system.parties other) party)
    (rest : ∀ first second, first ≠ who → second ≠ who → second ≠ first →
      PairOk generation (system.parties first) (system.parties second)) :
    Invariant
      { parties := update system.parties who party
        generation := generation
        clock := clock } := by
  constructor
  · intro one
    by_cases isWho : one = who
    · simpa [isWho] using self
    · simpa [isWho] using (others one isWho).1
  · intro one other different
    by_cases isWho : one = who
    · subst isWho
      simpa [different] using (others other different).2.1
    · by_cases otherIsWho : other = who
      · subst otherIsWho
        simpa [isWho] using (others one isWho).2.2
      · simpa [isWho, otherIsWho] using rest one other isWho otherIsWho
          different

attribute [grind] Phase.isExclusive Phase.isSettled Phase.hasMoved
attribute [grind cases] PartyOk PairOk

@[grind →] theorem Phase.isExclusive_of_hasMoved
    {phase : Phase} (hasMoved : phase.hasMoved = true) :
    phase.isExclusive = true := by
  cases phase <;> simp_all [Phase.hasMoved, Phase.isExclusive]

section Steps

variable {system : System ι} (holds : Invariant system) (who : ι)
include holds

/-- A step of one party, which leaves the counter alone or makes it larger
while it holds the lock exclusively, keeps the invariant if it keeps what holds
of the party and of it and each other one. -/
theorem Invariant.of_party
    {party : Party} (later : system.clock ≤ clock)
    (larger : generation = system.generation ∨
      (system.parties who).phase.isExclusive = true ∧
        system.generation ≤ generation)
    (self : PartyOk system.generation system.clock (system.parties who) →
      PartyOk generation clock party)
    (others : ∀ other, other ≠ who →
      PartyOk system.generation system.clock (system.parties other) →
      PairOk system.generation (system.parties who) (system.parties other) →
      PairOk system.generation (system.parties other) (system.parties who) →
      PairOk generation party (system.parties other) ∧
      PairOk generation (system.parties other) party) :
    Invariant
      { parties := update system.parties who party
        generation := generation
        clock := clock } := by
  refine .of_update who (self (holds.party who)) ?_ ?_
  · intro other different
    have ok := holds.party other
    refine ⟨?_, others other different ok (holds.pair who other different)
      (holds.pair other who different.symm)⟩
    refine ⟨Nat.le_trans ok.changedAt_le later,
      Nat.le_trans ok.lookedAt_le later, fun value isKnown => ?_⟩
    have known := ok.known_le value isKnown
    omega
  · intro first second notFirst _ different
    have both := holds.pair first second different
    obtain rfl | ⟨isExclusive, _⟩ := larger
    · exact both
    · have isAway := (holds.pair who first notFirst).alone isExclusive
      have ok := holds.party first
      constructor <;> grind

theorem Invariant.look
    (phase : Phase) (isHeld : (system.parties who).phase ≠ .away)
    (same : phase.isExclusive = (system.parties who).phase.isExclusive)
    (sameMoved : phase.hasMoved = (system.parties who).phase.hasMoved) :
    Invariant (system.look who phase) := by
  refine holds.of_party who (Nat.le_succ _) (.inl rfl) ?_ ?_
  · intro self
    constructor <;> grind
  · intro other different ok here there
    constructor <;> constructor <;> grind

theorem Invariant.skew
    (isClaiming : (system.parties who).phase = .claiming)
    (larger : system.generation ≤ value) :
    Invariant { system with generation := value } := by
  rw [← update_eq_self who system.parties]
  refine holds.of_party who (Nat.le_refl _) (.inr ⟨by grind, larger⟩) ?_ ?_
  · intro self
    constructor <;> grind
  · intro other different ok here there
    have bounded := ok.known_le value
    have selfBounded := (holds.party who).known_le value
    constructor <;> constructor <;> grind

theorem Invariant.move
    (isClaiming : (system.parties who).phase = .claiming) :
    Invariant (system.move who) := by
  refine holds.of_party who (Nat.le_succ _)
    (.inr ⟨by grind, Nat.le_succ _⟩) ?_ ?_
  · intro self
    constructor <;> grind
  · intro other different ok here there
    have bounded := ok.known_le (system.generation + 1)
    have selfBounded := (holds.party who).known_le (system.generation + 1)
    constructor <;> constructor <;> grind

theorem Invariant.change
    (isSweeping : (system.parties who).phase = .sweeping) :
    Invariant (system.change who) := by
  refine holds.of_party who (Nat.le_succ _) (.inl rfl) ?_ ?_
  · intro self
    constructor <;> grind
  · intro other different _ _ _
    constructor <;> constructor <;> grind

/-- Every step keeps the invariant. -/
theorem Invariant.step
    (stepped : Step system after) : Invariant after := by
  cases stepped with
  | lockShared who isAway free | lockExclusive who isAway free =>
    refine holds.of_party who (Nat.le_refl _) (.inl rfl) ?_ ?_
    · intro self
      constructor <;> grind
    · intro other different _ _ _
      have apart := free other different
      constructor <;> constructor <;> grind
  | unlock who | keep who isReading unmoved =>
    refine holds.of_party who (Nat.le_refl _) (.inl rfl) ?_ ?_
    · intro self
      constructor <;> grind
    · intro other different _ _ _
      constructor <;> constructor <;> grind
  | lookShared who isReading =>
    exact holds.look who _ (by simp [isReading]) (by simp [isReading]; rfl)
      (by simp [isReading]; rfl)
  | skew who value isClaiming larger => exact holds.skew who isClaiming larger
  | move who isClaiming => exact holds.move who isClaiming
  | lookExclusive who isClaimed =>
    exact holds.look who _ (by simp [isClaimed]) (by simp [isClaimed]; rfl)
      (by simp [isClaimed]; rfl)
  | change who isSweeping => exact holds.change who isSweeping

end Steps

end GenerationLock
