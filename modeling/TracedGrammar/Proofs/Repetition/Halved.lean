import TracedGrammar.Proofs.Repetition.FixedWidth
import TracedGrammar.Proofs.Repetition.Halving

/-!
# Counts that are halved

The alternatives of a repetition can be computed in numbers of 32 bits with a log of the counts that are
halved on the way.  Without the log this is the same computation.  Only counts of three or more are in
the log, and each of them is halved at a power of two that leaves something, but not more than itself.
-/

namespace TracedGrammar

/-- Computations that can be given up and that log the counts they halve, the latest first. -/
abbrev Logged :=
  StateT (List UInt32) Option

/-- Halves a count and logs it. -/
def halve (count : UInt32) : Logged UInt32 := do
  modify (count :: ·)
  halfPower32 count

/-- A count is three or more, and the power of two at which it is halved leaves something, but not more
than itself. -/
structure HalvesWell (count : UInt32) : Prop where
  several : 3 ≤ count
  halved : ∃ half place, halfPower32 count = some half ∧ half.toNat = 2 ^ place ∧
    half.toNat < count.toNat ∧ count.toNat ≤ 2 * half.toNat

theorem halvesWell_of_three_le {count : UInt32} (several : 3 ≤ count) : HalvesWell count := by
  have two : 2 ≤ count.toNat := Nat.le_of_succ_le (UInt32.le_iff_toNat_le.mp several)
  obtain ⟨half, made, exact⟩ := exists_halfPower32 two
  obtain ⟨place, power, lower, upper⟩ := exists_halfPower_eq two
  rw [Nat.pow_succ, Nat.mul_comm] at upper
  have same : half.toNat = 2 ^ place := exact.trans power
  exact ⟨several, half, place, made, same, same ▸ lower, same ▸ upper⟩

/-- A logged computation returns what one without a log does, and logs only counts that halve well. -/
def Logs {α : Type} (logged : Logged α) (plain : Option α) : Prop :=
  ∀ log, ∃ halved, logged.run log = plain.map (·, halved ++ log) ∧ ∀ count ∈ halved, HalvesWell count

namespace Logs

variable {α β : Type}

theorem pure (value : α) : Logs (Pure.pure value) (some value) :=
  fun _ => ⟨[], rfl, List.forall_mem_nil _⟩

theorem lift (plain : Option α) : Logs (liftM plain) plain := by
  refine fun log => ⟨[], ?_, List.forall_mem_nil _⟩
  cases plain <;> rfl

theorem halve {count : UInt32} (several : 3 ≤ count) :
    Logs (TracedGrammar.halve count) (halfPower32 count) := by
  have well := halvesWell_of_three_le several
  refine fun log => ⟨[count], ?_, List.forall_mem_singleton.mpr well⟩
  obtain ⟨half, _, made, _⟩ := well.halved
  simp [TracedGrammar.halve, made]

theorem bind {logged : Logged α} {plain : Option α} {next : α → Logged β} {plainNext : α → Option β}
    (first : Logs logged plain) (later : ∀ value, Logs (next value) (plainNext value)) :
    Logs (logged >>= next) (plain >>= plainNext) := by
  intro log
  obtain ⟨halved, same, well⟩ := first log
  rw [StateT.run_bind, same]
  -- What comes later finds the log with what was halved first.
  cases plain with
  | none => exact ⟨[], rfl, List.forall_mem_nil _⟩
  | some value =>
      obtain ⟨others, sameNext, wellNext⟩ := later value (halved ++ log)
      refine ⟨others ++ halved, ?_, List.forall_mem_append.mpr ⟨wellNext, well⟩⟩
      rw [List.append_assoc]
      exact sameNext

theorem ite {condition : Prop} [Decidable condition] {logged loggedElse : Logged α}
    {plain plainElse : Option α} (yes : condition → Logs logged plain)
    (no : ¬condition → Logs loggedElse plainElse) :
    Logs (if condition then logged else loggedElse) (if condition then plain else plainElse) := by
  split
  · exact yes ‹_›
  · exact no ‹_›

end Logs

namespace Repetition32

/-- The alternatives of a repetition of one item or more, with a log. -/
def loggedRuns (repetition : Repetition32) (glue : List Symbol) : Logged (List (List Part)) :=
  let item := Part.symbol repetition.item
  let glue := glue.map Part.symbol
  if repetition.least = 1 then
    match repetition.most with
    | none => return [[item], .self :: glue ++ [item]]
    | some most =>
        if most ≤ 1 then
          return [[item]]
        else if most = 2 then
          return [[(repetition.exactly 1).part], [(repetition.exactly 2).part]]
        else do
          let half ← halve most
          let rest ← difference32 most half
          return [[(repetition.between 1 (some half)).part],
            [(repetition.exactly half).leading.part, (repetition.between 1 (some rest)).part]]
  else if repetition.most = some repetition.least then
    if repetition.least = 2 then
      return [item :: glue ++ [item]]
    else do
      let half ← halve repetition.least
      let rest ← difference32 repetition.least half
      return [[(repetition.exactly half).leading.part, (repetition.exactly rest).part]]
  else do
    let start ← difference32 repetition.least 1
    let spread ← repetition.spread
    return [[(repetition.exactly start).leading.part, (repetition.between 1 spread).part]]

/-- The alternatives of a repetition, with a log. -/
def loggedAlternatives (repetition : Repetition32) : Logged (List (List Part)) :=
  if repetition.least = 0 then
    if repetition.most = some 0 then
      return [[]]
    else if repetition.most = none ∧ repetition.separator = .absent then
      return [[], [.self, .symbol repetition.item]]
    else
      return [[], [(repetition.between 1 repetition.most).part]]
  else
    match repetition.separator with
    | .liberal symbol =>
        return [[(repetition.separatedBy (.proper symbol)).part],
          [(repetition.separatedBy (.trailing symbol)).part]]
    | .trailing symbol => return [[(repetition.separatedBy (.proper symbol)).part, .symbol symbol]]
    | .proper symbol => repetition.loggedRuns [symbol]
    | .absent => repetition.loggedRuns []

variable {repetition : Repetition32}

theorem logs_loggedRuns (positive : repetition.least ≠ 0) (glue : List Symbol) :
    Logs (repetition.loggedRuns glue) (repetition.runs glue) := by
  refine .ite (fun one => ?_) fun more => .ite (fun fixed => .ite (fun two => .pure _) fun large => ?_)
    fun spread => (Logs.lift _).bind fun start => (Logs.lift _).bind fun spread => .pure _
  · cases repetition.most with
    | none => exact .pure _
    | some most =>
        refine .ite (fun few => .pure _) fun many => .ite (fun two => .pure _) fun large => ?_
        have several : 3 ≤ most := by grind
        exact (Logs.halve several).bind fun half => (Logs.lift _).bind fun rest => .pure _
  · have several : 3 ≤ repetition.least := by grind
    exact (Logs.halve several).bind fun half => (Logs.lift _).bind fun rest => .pure _

theorem logs_loggedAlternatives (repetition : Repetition32) :
    Logs repetition.loggedAlternatives repetition.alternatives := by
  refine .ite (fun zero => .ite (fun none => .pure _) fun some => .ite (fun star => .pure _)
    fun finite => .pure _) fun positive => ?_
  cases repetition.separator with
  | absent => exact logs_loggedRuns positive []
  | proper symbol => exact logs_loggedRuns positive [symbol]
  | trailing symbol => exact .pure _
  | liberal symbol => exact .pure _

/-- Up to ten items are up to eight of them, or eight followed by up to two. -/
example : (loggedAlternatives ⟨⟨0⟩, 1, some 10, .absent⟩).run [] =
    some ([[part ⟨⟨0⟩, 1, some 8, .absent⟩],
      [part ⟨⟨0⟩, 8, some 8, .absent⟩, part ⟨⟨0⟩, 1, some 2, .absent⟩]], [10]) := by
  decide

end Repetition32

end TracedGrammar
