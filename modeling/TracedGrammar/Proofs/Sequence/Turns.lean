import TracedGrammar.History.Tracked
import TracedGrammar.Proofs.Repetition.Halved
import TracedGrammar.Proofs.Sequence.Range
import TracedGrammar.Proofs.Sequence.Size

/-!
# Turns of an expansion

First the alternatives of a sequence are written, and then one repetition in each turn, the one whose
symbol was allocated last, until none is pending.  A turn may mention repetitions that are new, so that
these become pending; but all of them have a smaller rank, and together they weigh less than the one
that was written.  So the turns come to an end.  All that is pending between two turns can come up in
the expansion, and each turn answers to one symbol that was allocated.
-/

namespace TracedGrammar

namespace Expander

variable {state next last : Expander} {count : Nat} {written productions : List Production}

/-- Writes the repetition whose symbol was allocated last, if one is pending. -/
def turn? (state : Expander) : Option (List Production × Expander) :=
  match state.pending with
  | [] => none
  | (lhs, repetition) :: rest =>
      some (({ state with pending := rest } : Expander).write lhs false repetition.alternatives)

/-- Some turns lead from one state to another and write some productions. -/
inductive Turns : Nat → Expander → List Production → Expander → Prop
  | none {state : Expander} : Turns 0 state [] state
  | more {state next last : Expander} {count : Nat} {written productions : List Production}
      (turned : state.turn? = some (written, next)) (later : Turns count next productions last) :
      Turns (count + 1) state (written ++ productions) last

theorem pending_eq_nil_of_turn? (stuck : state.turn? = none) : state.pending = [] := by
  unfold turn? at stuck
  split at stuck
  · assumption
  · cases stuck

/-- What a turn writes, with how the state has grown. -/
theorem exists_grows_of_turn? (turned : state.turn? = some (written, next)) :
    ∃ lhs repetition rest added, state.pending = (lhs, repetition) :: rest ∧
      ({ state with pending := rest } : Expander).write lhs false repetition.alternatives =
        (written, next) ∧
      ({ state with pending := rest } : Expander).Grows next repetition.children added := by
  unfold turn? at turned
  split at turned
  · cases turned
  · rename_i lhs repetition rest pending
    obtain ⟨added, grows, _⟩ :=
      write_grows lhs false { state with pending := rest } repetition.alternatives
    have same := Option.some.inj turned
    rw [same] at grows
    exact ⟨lhs, repetition, rest, added, pending, same, grows⟩

theorem weight_lt_of_turn? (turned : state.turn? = some (written, next)) :
    next.weight < state.weight := by
  obtain ⟨lhs, repetition, rest, _, pending, writes, _⟩ := exists_grows_of_turn? turned
  have bound := ({ state with pending := rest } : Expander).weight_write_le lhs false
    repetition.alternatives
  have less := repetition.totalWeight_children_lt
  rw [writes] at bound
  -- Whatever becomes pending weighs less than the repetition that is written.
  rw [Repetition.children] at less
  simp only [weight, pending, List.map_cons, Repetition.totalWeight_cons] at bound ⊢
  omega

theorem exists_turns (state : Expander) :
    ∃ count productions last, Turns count state productions last ∧ last.pending = [] := by
  cases turned : state.turn? with
  | none => exact ⟨0, [], state, .none, pending_eq_nil_of_turn? turned⟩
  | some outcome =>
      obtain ⟨count, productions, last, later, done⟩ := exists_turns outcome.2
      exact ⟨count + 1, outcome.1 ++ productions, last, .more turned later, done⟩
termination_by state.weight
decreasing_by exact weight_lt_of_turn? turned

/-- Finishing a state is taking turns until nothing is pending. -/
theorem Turns.finish_eq (turns : Turns count state productions last) (done : last.pending = []) :
    state.finish = (productions, last.supply) := by
  induction turns with
  | @none state =>
      obtain ⟨supply, helpers, pending⟩ := state
      obtain rfl : pending = [] := done
      rw [finish]
  | @more state next last count written productions turned later induction =>
      obtain ⟨lhs, repetition, rest, _, pending, writes, _⟩ := exists_grows_of_turn? turned
      obtain ⟨supply, helpers, entries⟩ := state
      obtain rfl : entries = (lhs, repetition) :: rest := pending
      rw [finish, writes]
      change (written ++ next.finish.1, next.finish.2) = _
      rw [induction done]

theorem Turns.trans {more : Nat} {others : List Production}
    (turns : Turns count state productions next) (later : Turns more next others last) :
    Turns (count + more) state (productions ++ others) last := by
  induction turns with
  | none => rwa [Nat.zero_add]
  | more turned _ induction =>
      rw [List.append_assoc, Nat.add_right_comm]
      exact .more turned (induction later)

/-- What holds between two turns of the expansion of a repetition. -/
structure Underway (whole : Repetition) (supply : SymbolSupply) (count : Nat) (state : Expander) :
    Prop where
  descends : ∀ entry ∈ state.pending, entry.2.IsDescendant whole
  allocated_eq : state.supply.allocated = supply.allocated + count + state.pending.length

variable {whole : Repetition} {supply : SymbolSupply}

theorem Underway.turn (underway : state.Underway whole supply count)
    (turned : state.turn? = some (written, next)) : next.Underway whole supply (count + 1) := by
  obtain ⟨lhs, repetition, rest, added, pending, _, grows⟩ := exists_grows_of_turn? turned
  have descends := underway.descends
  have allocated := underway.allocated_eq
  rw [pending] at descends allocated
  obtain ⟨first, others⟩ := List.forall_mem_cons.mp descends
  constructor
  · rw [grows.pending_eq, List.forall_mem_append]
    exact ⟨fun entry inAdded => .head (grows.wanted_of_added entry inAdded) first, others⟩
  · rw [grows.pending_eq, grows.allocated_eq, List.length_append]
    change state.supply.allocated + _ = _ + (_ + rest.length)
    rw [List.length_cons] at allocated
    omega

theorem Underway.turns {more : Nat} (underway : state.Underway whole supply count)
    (turns : Turns more state productions last) : last.Underway whole supply (count + more) := by
  induction turns generalizing count with
  | none => exact underway
  | more turned _ induction =>
      have later := induction (underway.turn turned)
      rwa [Nat.add_right_comm] at later

end Expander

namespace Repetition

variable {repetition : Repetition} {lhs : Symbol} {supply : SymbolSupply} {count : Nat}
  {productions : List Production} {state : Expander}

/-- The productions of the defined symbol, and the state from which turns are taken. -/
def opening (repetition : Repetition) (lhs : Symbol) (supply : SymbolSupply) :
    List Production × Expander :=
  (Expander.start supply).write lhs true repetition.alternatives

/-- The expansion of a repetition is in a state after some turns, and has written some productions. -/
def Reaches (repetition : Repetition) (lhs : Symbol) (supply : SymbolSupply) (count : Nat)
    (productions : List Production) (state : Expander) : Prop :=
  ∃ later, Expander.Turns count (repetition.opening lhs supply).2 later state ∧
    productions = (repetition.opening lhs supply).1 ++ later

theorem underway_opening (repetition : Repetition) (lhs : Symbol) (supply : SymbolSupply) :
    (repetition.opening lhs supply).2.Underway repetition supply 0 := by
  obtain ⟨added, grows, _⟩ := (Expander.start supply).write_grows lhs true repetition.alternatives
  have pending : (repetition.opening lhs supply).2.pending = added :=
    grows.pending_eq.trans (List.append_nil added)
  constructor
  · rw [pending]
    exact fun entry inAdded => .single (grows.wanted_of_added entry inAdded)
  · rw [pending]
    exact grows.allocated_eq

theorem Reaches.underway (reaches : repetition.Reaches lhs supply count productions state) :
    state.Underway repetition supply count := by
  obtain ⟨later, turns, _⟩ := reaches
  have underway := (repetition.underway_opening lhs supply).turns turns
  rwa [Nat.zero_add] at underway

/-- When nothing is pending, all productions are written. -/
theorem Reaches.expand_eq (reaches : repetition.Reaches lhs supply count productions state)
    (done : state.pending = []) : repetition.expand lhs supply = (productions, state.supply) := by
  obtain ⟨later, turns, rfl⟩ := reaches
  change (_ ++ (repetition.opening lhs supply).2.finish.1,
    (repetition.opening lhs supply).2.finish.2) = _
  rw [turns.finish_eq done]
  rfl

theorem Reaches.exists_end (reaches : repetition.Reaches lhs supply count productions state) :
    ∃ more others last, repetition.Reaches lhs supply (count + more) (productions ++ others) last ∧
      last.pending = [] := by
  obtain ⟨later, turns, rfl⟩ := reaches
  obtain ⟨more, others, last, rest, done⟩ := state.exists_turns
  exact ⟨more, others, last, ⟨later ++ others, turns.trans rest, List.append_assoc _ _ _⟩, done⟩

/-- Few turns are taken, as each of them answers to one symbol that was allocated. -/
theorem Reaches.count_le (reaches : repetition.Reaches lhs supply count productions state)
    (valid : repetition.IsValid) : count ≤ 5 * repetition.digits + 7 := by
  -- At the end no symbol is pending, so the turns are as many as the symbols.
  obtain ⟨more, others, last, ends, done⟩ := reaches.exists_end
  obtain ⟨symbolOf, order, layout⟩ := repetition.exists_layout lhs supply
  have few := layout.length_order_le valid
  have allocated := ends.underway.allocated_eq
  have same := layout.allocated_eq
  rw [ends.expand_eq done] at same
  rw [done, List.length_nil] at allocated
  change last.supply.allocated = _ at same
  omega

/-- The bounds of a repetition are counts of 32 bits. -/
def HasCounts (repetition : Repetition) : Prop :=
  repetition.least ≤ maxCount ∧ ∀ most, repetition.most = some most → most ≤ maxCount

theorem HasCounts.exists_toRepetition (counts : repetition.HasCounts) :
    ∃ fixed : Repetition32, fixed.toRepetition = repetition := by
  obtain ⟨item, least, most, separator⟩ := repetition
  have exact {number : Nat} (small : number ≤ maxCount) : (UInt32.ofNat number).toNat = number :=
    UInt32.toNat_ofNat_of_lt' (Nat.lt_of_le_pred (by decide) small)
  refine ⟨⟨item, UInt32.ofNat least, most.map UInt32.ofNat, separator⟩, ?_⟩
  rw [Repetition32.toRepetition, exact counts.1]
  cases most with
  | none => rfl
  | some most => simp [exact (counts.2 most rfl)]

/-- The alternatives of a repetition are computed in numbers of 32 bits, none of which wraps around,
and every count that is halved on the way halves well. -/
def IsComputed (repetition : Repetition) : Prop :=
  ∃ (fixed : Repetition32) (halved : List UInt32), fixed.toRepetition = repetition ∧
    fixed.loggedAlternatives.run [] = some (repetition.alternatives, halved) ∧
    ∀ count ∈ halved, HalvesWell count

theorem isComputed_of_comes {part : Repetition} (counts : repetition.HasCounts)
    (valid : repetition.IsValid) (comes : part = repetition ∨ part.IsDescendant repetition) :
    part.IsComputed := by
  obtain ⟨whole, rfl⟩ := counts.exists_toRepetition
  obtain ⟨fixed, same, computed⟩ := Repetition32.exists_alternatives_eq_some valid comes
  obtain ⟨halved, logged, well⟩ := fixed.logs_loggedAlternatives []
  rw [computed, List.append_nil] at logged
  exact ⟨fixed, halved, same, logged, well⟩

end Repetition

namespace Sequence

variable {H : Type} [RuleHistory H]

/-- The turns that rewrite a sequence whose range is not empty come to an end.  Whatever is pending
between two of them asks for one item or more in a range that is not empty, and its alternatives are
computed in numbers of 32 bits. -/
theorem rewrite_ends_pending_isComputed (sequence : Sequence H) (supply : SymbolSupply)
    (nonempty : ∀ most, sequence.repetition.most = some most → sequence.repetition.least ≤ most)
    (counts : sequence.repetition.HasCounts) :
    (∃ count productions last,
      sequence.repetition.Reaches sequence.lhs supply count productions last ∧ last.pending = [] ∧
        sequence.rewrite.run.run supply =
          (.ok (productions.map sequence.ruleOf), last.supply)) ∧
    sequence.repetition.IsComputed ∧
    ∀ count productions state,
      sequence.repetition.Reaches sequence.lhs supply count productions state →
        count ≤ 5 * sequence.repetition.digits + 7 ∧
        ∀ entry ∈ state.pending, 1 ≤ entry.2.least ∧
          (∀ most, entry.2.most = some most → entry.2.least ≤ most) ∧ entry.2.IsComputed := by
  have start : sequence.repetition.Reaches sequence.lhs supply 0 _ _ := ⟨_, .none, rfl⟩
  obtain ⟨count, productions, last, ends, done⟩ := start.exists_end
  refine ⟨⟨_, _, last, ends, done, ?_⟩,
    Repetition.isComputed_of_comes counts nonempty (.inl rfl), ?_⟩
  · rw [sequence.run_rewrite_of_isValid supply nonempty, ends.expand_eq done]
  · intro count productions state reaches
    refine ⟨reaches.count_le nonempty, fun entry pending => ?_⟩
    have descends := reaches.underway.descends entry pending
    have part := Repetition.isPartOf_of_isDescendant nonempty descends
    exact ⟨Nat.one_le_iff_ne_zero.mpr part.positive, part.valid,
      Repetition.isComputed_of_comes counts nonempty (.inr descends)⟩

/-- Any number of items up to the greatest count, with separators of which the last may be left out. -/
def upToGreatest : Sequence History where
  lhs := ⟨0⟩
  repetition := { item := ⟨1⟩, least := 0, most := some maxCount, separator := .liberal ⟨2⟩ }
  history := { origin := some (.sequence 0) }

theorem digits_upToGreatest : upToGreatest.repetition.digits = 32 := by
  apply Nat.le_antisymm
  · exact Nat.size_le.mpr (by decide)
  · exact Nat.lt_size.mpr (by decide)

theorem upToGreatest_rewrite_ends : upToGreatest.repetition.HasCounts ∧
    (∀ most, upToGreatest.repetition.most = some most → upToGreatest.repetition.least ≤ most) ∧
    ∃ count productions last, count ≤ 5 * 32 + 7 ∧
      upToGreatest.repetition.Reaches ⟨0⟩ ⟨3⟩ count productions last ∧ last.pending = [] ∧
      upToGreatest.rewrite.run.run ⟨3⟩ = (.ok (productions.map upToGreatest.ruleOf), last.supply) := by
  have counts : upToGreatest.repetition.HasCounts := ⟨Nat.zero_le _, by rintro most ⟨⟩; exact le_rfl⟩
  have nonempty : ∀ most, upToGreatest.repetition.most = some most →
      upToGreatest.repetition.least ≤ most := fun most _ => Nat.zero_le most
  obtain ⟨⟨count, productions, last, ends, done, rewritten⟩, _, safe⟩ :=
    rewrite_ends_pending_isComputed upToGreatest ⟨3⟩ nonempty counts
  have few := (safe count productions last ends).1
  rw [digits_upToGreatest] at few
  exact ⟨counts, nonempty, count, productions, last, few, ends, done, rewritten⟩

end Sequence

end TracedGrammar
