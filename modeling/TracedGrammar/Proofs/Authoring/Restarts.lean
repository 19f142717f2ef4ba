import TracedGrammar.Builder.Handover
import TracedGrammar.Proofs.Authoring.Extensions
import TracedGrammar.Proofs.Lists
import TracedGrammar.Proofs.Sequence.Range

/-!
# Builders that start over

A builder of rules that goes on with another left-hand side is like a new one.  A builder of sequences
is not: it keeps its bounds until others are given, and a pending history until it is used or replaced.
So it does what a new one does exactly if nothing is added within bounds that were left, or with a
history that was left, unless these are the same as those of a new one.
-/

namespace TracedGrammar

/-- Two grammars agree on everything but the sequences, of which there are equally many. -/
structure Grammar.AlikeButSequences {H : Type} (used fresh : Grammar H) : Prop where
  length_eq : used.sequences.length = fresh.sequences.length
  rest_eq : { used with sequences := fresh.sequences } = fresh

namespace Grammar.AlikeButSequences

variable {H : Type} {used fresh : Grammar H}

theorem refl (grammar : Grammar H) : grammar.AlikeButSequences grammar :=
  ⟨rfl, rfl⟩

variable (alike : used.AlikeButSequences fresh)
include alike

theorem nextSequence_eq : used.nextSequence = fresh.nextSequence := by
  have consumed := congrArg Grammar.sequencesConsumed alike.rest_eq
  rw [Grammar.nextSequence, Grammar.nextSequence, alike.length_eq]
  exact congrArg (fun before => Handle.sequence (before + _)) consumed

theorem eq_iff : used = fresh ↔ used.sequences = fresh.sequences := by
  refine ⟨congrArg Grammar.sequences, fun same => ?_⟩
  rw [← alike.rest_eq, ← same]

theorem addSequence (added other : Sequence H) :
    (used.addSequence added).2.AlikeButSequences (fresh.addSequence other).2 where
  length_eq := by
    simp only [Grammar.addSequence, List.length_append, List.length_singleton, alike.length_eq]
  rest_eq := by
    rw [← alike.rest_eq]
    rfl

theorem addSequence_eq_iff (added other : Sequence H) :
    (used.addSequence added).2 = (fresh.addSequence other).2 ↔ used = fresh ∧ added = other := by
  rw [(alike.addSequence added other).eq_iff, alike.eq_iff]
  exact List.append_singleton_inj

end Grammar.AlikeButSequences

namespace SequenceBuilder

variable {H : Type}

namespace Call

/-- The bounds that a call gives. -/
def bounds? : Call H → Option (Nat × Option Nat)
  | .between least most => some (least, most)
  | .within range | .itemWithin _ range => some range.extremes
  | .sequence _ | .separator _ | .history _ | .item _ | .itemWith _ _ => none

/-- What is pending after a call, unless that is what was pending before. -/
def pending? : Call H → Option (Option H)
  | .history given => some (some given)
  | .item _ | .itemWithin _ _ => some none
  | .sequence _ | .separator _ | .between _ _ | .within _ | .itemWith _ _ => none

/-- Whether a call adds a sequence within the bounds that were given before. -/
def UsesBounds : Call H → Prop
  | .item _ | .itemWith _ _ => True
  | .sequence _ | .separator _ | .history _ | .between _ _ | .within _ | .itemWithin _ _ => False

/-- Whether a call adds a sequence with the pending history, if there is one. -/
def UsesPending : Call H → Prop
  | .item _ | .itemWithin _ _ => True
  | .sequence _ | .separator _ | .history _ | .between _ _ | .within _ | .itemWith _ _ => False

theorem not_setsBounds_iff {call : Call H} : ¬call.SetsBounds ↔ call.bounds? = none := by
  cases call <;> simp [SetsBounds, bounds?]

end Call

variable [RuleHistory H]

/-- A builder as it is made for a left-hand side. -/
def start (grammar : Grammar H) (lhs : Symbol) : SequenceBuilder H :=
  { grammar, lhs }

/-- The history of a sequence that is added without one of its own. -/
def nextHistory (builder : SequenceBuilder H) : H :=
  builder.pending.getD (RuleHistory.ofOrigin builder.grammar.nextSequence)

/-- The sequence that a call adds. -/
def sequence? (builder : SequenceBuilder H) : Call H → Option (Sequence H)
  | .item item => some ⟨builder.lhs, builder.repetition item, builder.nextHistory⟩
  | .itemWithin item range =>
      some ⟨builder.lhs, (builder.setRange range).repetition item, builder.nextHistory⟩
  | .itemWith item history => some ⟨builder.lhs, builder.repetition item, history⟩
  | .sequence _ | .separator _ | .history _ | .between _ _ | .within _ => none

variable {builder used fresh : SequenceBuilder H}

theorem grammar_perform (builder : SequenceBuilder H) (call : Call H) :
    (builder.perform call).grammar =
      (builder.sequence? call).elim builder.grammar fun added =>
        (builder.grammar.addSequence added).2 := by
  cases call with
  | item item => exact congrArg SequenceBuilder.grammar (builder.add_eq item)
  | itemWithin item range =>
      exact congrArg SequenceBuilder.grammar ((builder.setRange range).add_eq item)
  | itemWith | sequence | separator | history | between | within => rfl

theorem run_concat (builder : SequenceBuilder H) (calls : List (Call H)) (call : Call H) :
    builder.run (calls ++ [call]) = (builder.run calls).perform call :=
  List.foldl_concat ..

theorem bounds_run (builder : SequenceBuilder H) (calls : List (Call H)) :
    (builder.run calls).bounds = (calls.filterMap Call.bounds?).getLast?.getD builder.bounds := by
  apply foldl_field
  intro builder call
  cases call with
  | item item => exact (congrArg bounds (builder.add_eq item)).trans rfl
  | itemWithin item range => exact (congrArg bounds ((builder.setRange range).add_eq item)).trans rfl
  | itemWith | sequence | separator | history | between | within => rfl

theorem pending_run (builder : SequenceBuilder H) (calls : List (Call H)) :
    (builder.run calls).pending =
      (calls.filterMap Call.pending?).getLast?.getD builder.pending := by
  apply foldl_field
  intro builder call
  cases call with
  | item item => exact congrArg pending (builder.add_eq item)
  | itemWithin item range => exact congrArg pending ((builder.setRange range).add_eq item)
  | itemWith | sequence | separator | history | between | within => rfl

/-- Two builders agree on everything but their bounds, what is pending, and which sequences are in
their grammars. -/
structure Alike (used fresh : SequenceBuilder H) : Prop where
  lhs_eq : used.lhs = fresh.lhs
  separator_eq : used.separator = fresh.separator
  grammars : used.grammar.AlikeButSequences fresh.grammar

namespace Alike

variable (alike : used.Alike fresh)

section
omit [RuleHistory H]
include alike

theorem repetition_eq_iff (item : Symbol) :
    used.repetition item = fresh.repetition item ↔ used.bounds = fresh.bounds := by
  simp only [repetition, bounds, alike.separator_eq, Repetition.mk.injEq, true_and, and_true,
    Prod.mk.injEq]

end

theorem isSome_sequence? (used fresh : SequenceBuilder H) (call : Call H) :
    (used.sequence? call).isSome = (fresh.sequence? call).isSome := by
  cases call <;> rfl

include alike

/-- A call adds the same sequence if what it uses is the same. -/
theorem sequence?_eq_iff (call : Call H) : used.sequence? call = fresh.sequence? call ↔
    (call.UsesBounds → used.bounds = fresh.bounds) ∧
      (call.UsesPending → used.nextHistory = fresh.nextHistory) := by
  cases call with
  | item item =>
      simp only [sequence?, Call.UsesBounds, Call.UsesPending, Option.some.injEq, Sequence.mk.injEq,
        alike.lhs_eq, alike.repetition_eq_iff, true_and, forall_const]
  | itemWithin item range =>
      have ranged : (used.setRange range).repetition item = (fresh.setRange range).repetition item := by
        simp only [repetition, setRange, alike.separator_eq]
      simp only [sequence?, Call.UsesBounds, Call.UsesPending, Option.some.injEq, Sequence.mk.injEq,
        alike.lhs_eq, ranged, true_and, forall_const, false_implies]
  | itemWith item history =>
      simp only [sequence?, Call.UsesBounds, Call.UsesPending, Option.some.injEq, Sequence.mk.injEq,
        alike.lhs_eq, alike.repetition_eq_iff, true_and, and_true, forall_const, false_implies]
  | sequence | separator | history | between | within =>
      simp only [sequence?, Call.UsesBounds, Call.UsesPending, false_implies, and_self]

/-- After a call, two builders are alike again. -/
theorem perform (call : Call H) : (used.perform call).Alike (fresh.perform call) := by
  cases call with
  | sequence lhs => exact ⟨rfl, rfl, alike.grammars⟩
  | separator separator => exact ⟨alike.lhs_eq, rfl, alike.grammars⟩
  | history | between | within => exact ⟨alike.lhs_eq, alike.separator_eq, alike.grammars⟩
  | item item =>
      simp only [SequenceBuilder.perform, add_eq]
      exact ⟨alike.lhs_eq, alike.separator_eq, alike.grammars.addSequence _ _⟩
  | itemWithin item range =>
      simp only [SequenceBuilder.perform, add_eq]
      exact ⟨alike.lhs_eq, alike.separator_eq, alike.grammars.addSequence _ _⟩
  | itemWith item history =>
      exact ⟨alike.lhs_eq, alike.separator_eq, alike.grammars.addSequence _ _⟩

theorem run (calls : List (Call H)) : (used.run calls).Alike (fresh.run calls) := by
  induction calls generalizing used fresh with
  | nil => exact alike
  | cons call calls induction => exact induction (alike.perform call)

/-- The grammars stay the same exactly if the same sequence is added. -/
theorem grammar_perform_eq_iff (call : Call H) :
    (used.perform call).grammar = (fresh.perform call).grammar ↔
      used.grammar = fresh.grammar ∧ used.sequence? call = fresh.sequence? call := by
  have both := isSome_sequence? used fresh call
  rw [grammar_perform, grammar_perform]
  cases added : used.sequence? call with
  | none =>
      rw [added, Option.isSome_none, eq_comm, Option.isSome_eq_false_iff, Option.isNone_iff_eq_none] at both
      rw [both]
      simp only [Option.elim_none, and_true]
  | some sequence =>
      rw [added, Option.isSome_some, eq_comm, Option.isSome_iff_exists] at both
      obtain ⟨other, found⟩ := both
      rw [found, Option.some.injEq]
      exact alike.grammars.addSequence_eq_iff sequence other

/-- A sequence that is not the same stays in the grammar, so every call has to add the same one. -/
theorem grammar_run_eq_iff (calls : List (Call H)) :
    (used.run calls).grammar = (fresh.run calls).grammar ↔ used.grammar = fresh.grammar ∧
      AtEach (fun before call =>
        (used.run before).sequence? call = (fresh.run before).sequence? call) calls := by
  induction calls using List.reverseRecOn with
  | nil => exact (and_iff_left atEach_nil).symm
  | append_singleton calls call induction =>
      rw [run_concat, run_concat, (alike.run calls).grammar_perform_eq_iff, induction, atEach_concat,
        and_assoc]

end Alike

/-- When a builder goes on with a left-hand side, a call after some others does not use bounds or a
pending history from before, unless a new builder would use the same. -/
structure UsesNothingLeft (builder : SequenceBuilder H) (lhs : Symbol) (before : List (Call H))
    (call : Call H) : Prop where
  bounds : call.UsesBounds → (∀ earlier ∈ before, earlier.bounds? = none) →
    builder.bounds = (0, none)
  pending : call.UsesPending → (∀ earlier ∈ before, earlier.pending? = none) →
    ∀ history, builder.pending = some history →
      history = RuleHistory.ofOrigin ((start builder.grammar lhs).run before).grammar.nextSequence

section

variable (builder : SequenceBuilder H) (lhs : Symbol) (before : List (Call H))

theorem alike_start : (builder.perform (.sequence lhs)).Alike (start builder.grammar lhs) :=
  ⟨rfl, rfl, .refl builder.grammar⟩

theorem bounds_run_eq_iff : ((builder.perform (.sequence lhs)).run before).bounds =
      ((start builder.grammar lhs).run before).bounds ↔
    ((∀ earlier ∈ before, earlier.bounds? = none) → builder.bounds = (0, none)) := by
  rw [bounds_run, bounds_run, ← List.filterMap_eq_nil_iff]
  exact getD_getLast?_eq_iff

theorem nextHistory_run_eq_iff : ((builder.perform (.sequence lhs)).run before).nextHistory =
      ((start builder.grammar lhs).run before).nextHistory ↔
    ((∀ earlier ∈ before, earlier.pending? = none) → ∀ history, builder.pending = some history →
      history = RuleHistory.ofOrigin
        ((start builder.grammar lhs).run before).grammar.nextSequence) := by
  have handles := ((builder.alike_start lhs).run before).grammars.nextSequence_eq
  rw [nextHistory, nextHistory, handles, pending_run, pending_run, ← List.filterMap_eq_nil_iff,
    ← List.getLast?_eq_none_iff]
  cases (before.filterMap Call.pending?).getLast? with
  | none =>
      generalize RuleHistory.ofOrigin (H := H) _ = own
      simp only [Option.getD_none, start, getD_eq_default_iff, true_implies]
      exact Iff.rfl
  | some last => simp only [Option.getD_some, reduceCtorEq, false_implies]

theorem usesNothingLeft_iff (call : Call H) :
    ((builder.perform (.sequence lhs)).run before).sequence? call =
        ((start builder.grammar lhs).run before).sequence? call ↔
      builder.UsesNothingLeft lhs before call := by
  rw [((builder.alike_start lhs).run before).sequence?_eq_iff, bounds_run_eq_iff,
    nextHistory_run_eq_iff]
  exact ⟨fun ⟨bounds, pending⟩ => ⟨bounds, pending⟩, fun left => ⟨left.bounds, left.pending⟩⟩

/-- A builder that goes on with a left-hand side writes what a new one does exactly if it uses nothing
that was left. -/
theorem grammar_restart_eq_iff (calls : List (Call H)) :
    (builder.run (.sequence lhs :: calls)).grammar =
        ((start builder.grammar lhs).run calls).grammar ↔
      AtEach (builder.UsesNothingLeft lhs) calls := by
  refine ((builder.alike_start lhs).grammar_run_eq_iff calls).trans ((and_iff_right rfl).trans ?_)
  simp only [usesNothingLeft_iff]

/-- Until it is given bounds, a new builder allows any number of items. -/
theorem unbounded_of_start (grammar : Grammar H) {calls : List (Call H)}
    (unset : ∀ call ∈ calls, call.bounds? = none) :
    ∃ added, ((start grammar lhs).run calls).grammar.sequences = grammar.sequences ++ added ∧
      ∀ sequence ∈ added, sequence.repetition.least = 0 ∧ sequence.repetition.most = none := by
  have keep : ∀ call ∈ calls, ¬call.SetsBounds :=
    fun call member => Call.not_setsBounds_iff.mpr (unset call member)
  obtain ⟨kept, added, adds⟩ := (start grammar lhs).exists_adds_run keep
  refine ⟨added, adds.sequences_eq, fun sequence member => ?_⟩
  exact Prod.mk.inj ((adds.bounds_eq sequence member).trans kept)

end

end SequenceBuilder

section Restarts

variable {H : Type} [RuleHistory H]

/-- Whatever a builder of rules was told before, it goes on with a left-hand side as a new one does.  A
builder of sequences does so exactly if it uses nothing that was left. -/
theorem Builder.restart_iff_usesNothingLeft :
    (∀ (builder : RuleBuilder H) (lhs : Symbol) (calls : List (Call H)),
      (rules builder).run? (.rule (.rule lhs) :: calls) =
        (rules { grammar := builder.grammar, lhs }).run? calls) ∧
    ∀ (builder : SequenceBuilder H) (lhs : Symbol) (calls : List (SequenceBuilder.Call H)),
      ((builder.run (.sequence lhs :: calls)).grammar =
          ((SequenceBuilder.start builder.grammar lhs).run calls).grammar ↔
        AtEach (builder.UsesNothingLeft lhs) calls) ∧
      ((∀ call ∈ calls, call.bounds? = none) →
        ∃ added, ((SequenceBuilder.start builder.grammar lhs).run calls).grammar.sequences =
            builder.grammar.sequences ++ added ∧
          ∀ sequence ∈ added, sequence.repetition.least = 0 ∧ sequence.repetition.most = none) :=
  ⟨fun _ _ _ => rfl, fun builder lhs calls =>
    ⟨builder.grammar_restart_eq_iff lhs calls, SequenceBuilder.unbounded_of_start lhs _⟩⟩

end Restarts

/-- A builder whose sequences have two or three items, with a history that nothing was added with. -/
def twoOrThree : SequenceBuilder History :=
  (SequenceBuilder.start {} ⟨0⟩).run
    [.between 2 (some 3), .item ⟨1⟩, .history { action := some ⟨1⟩ }]

/-- Both the bounds and the history go to a sequence for the next left-hand side. -/
theorem twoOrThree_not_restarts : (twoOrThree.run [.sequence ⟨2⟩, .item ⟨3⟩]).grammar.sequences ≠
    ((SequenceBuilder.start twoOrThree.grammar ⟨2⟩).run [.item ⟨3⟩]).grammar.sequences := by
  decide

/-- New bounds and a new history hide those that were left. -/
theorem twoOrThree_restart_iff_usesNothingLeft :
    AtEach (twoOrThree.UsesNothingLeft ⟨2⟩)
        [.between 1 none, .itemWith ⟨3⟩ {}, .history {}, .item ⟨4⟩] ∧
      ¬AtEach (twoOrThree.UsesNothingLeft ⟨2⟩) [.between 1 none, .item ⟨3⟩] ∧
      ∃ added, ((SequenceBuilder.start twoOrThree.grammar ⟨2⟩).run [.item ⟨3⟩]).grammar.sequences =
          twoOrThree.grammar.sequences ++ added ∧
        ∀ sequence ∈ added, sequence.repetition.least = 0 ∧ sequence.repetition.most = none := by
  have restart := (Builder.restart_iff_usesNothingLeft (H := History)).2 twoOrThree ⟨2⟩
  refine ⟨(restart _).1.mp (by decide), fun left => ?_, (restart [.item ⟨3⟩]).2 (by decide)⟩
  exact absurd ((restart _).1.mpr left) (by decide)

end TracedGrammar
