import TracedGrammar.Proofs.Authoring.Commands
import TracedGrammar.Proofs.Normalization.Passes

/-!
# Grammars in use

A grammar is written, normalized, written on and normalized again.  What its author adds is written
with symbols that the author has allocated, and not with those that passes have.  Whatever every single
step keeps holds of all grammars that are reached in this way.
-/

namespace TracedGrammar

variable {H : Type}

namespace Grammar

/-- The symbols that an author has after a step, together with those from before. -/
def Gained (owned : Symbol → Prop) (grammar next : Grammar H) (symbol : Symbol) : Prop :=
  owned symbol ∨ symbol ∉ grammar.supply ∧ symbol ∈ next.supply

/-- What one grammar has beyond another is written with symbols that have a property. -/
structure AddsOver (property : Symbol → Prop) (grammar next : Grammar H) : Prop where
  rules : ∀ rule ∈ next.rules.drop grammar.rules.length, rule.Over property
  sequences : ∀ sequence ∈ next.sequences.drop grammar.sequences.length, sequence.Over property

theorem addsOver_addRule {property : Symbol → Prop} {grammar : Grammar H} {rule : Rule H}
    (uses : rule.Over property) : grammar.AddsOver property (grammar.addRule rule).2 where
  rules := by
    intro other member
    rw [addRule, List.drop_left, List.mem_singleton] at member
    rwa [member]
  sequences := by
    intro other member
    rw [addRule, List.drop_length] at member
    cases member

theorem addsOver_addSequence {property : Symbol → Prop} {grammar : Grammar H} {sequence : Sequence H}
    (uses : sequence.Over property) : grammar.AddsOver property (grammar.addSequence sequence).2 where
  rules := by
    intro rule member
    rw [addSequence, List.drop_length] at member
    cases member
  sequences := by
    intro other member
    rw [addSequence, List.drop_left, List.mem_singleton] at member
    rwa [member]

theorem addsOver_sort {property : Symbol → Prop} {grammar : Grammar H} :
    grammar.AddsOver property grammar.sort where
  rules := by
    intro rule member
    rw [sort, List.drop_of_length_le (Nat.le_of_eq (List.length_mergeSort _))] at member
    cases member
  sequences := by
    intro sequence member
    rw [sort, List.drop_length] at member
    cases member

end Grammar

/-- A pass over a grammar, or all of them in order. -/
inductive Pass
  | expandSequences (limits : Limits)
  | eliminateNulling (limits : Limits)
  | eliminateNullingWith (nullable : SymbolSet) (limits : Limits)
  | binarize (limits : Limits)
  | resolvePrecedence
  | normalize (limits : Limits)

variable [RuleHistory H]

def Pass.run (grammar : Grammar H) : Pass → Reported (Grammar H)
  | .expandSequences limits => grammar.expandSequences limits
  | .eliminateNulling limits => grammar.eliminateNulling limits
  | .eliminateNullingWith nullable limits => grammar.eliminateNullingWith nullable limits
  | .binarize limits => grammar.binarize limits
  | .resolvePrecedence => grammar.resolvePrecedence
  | .normalize limits => grammar.normalize limits

namespace Grammar

/-- A grammar is reached by permitted commands, over symbols that their author has allocated, and by
passes that succeed. -/
inductive Reached (permits : Command H → Prop) : (Symbol → Prop) → Grammar H → Prop
  | start (supply : SymbolSupply) : Reached permits (· ∈ supply) { supply }
  | command {owned : Symbol → Prop} {grammar next : Grammar H}
      (earlier : Reached permits owned grammar) (command : Command H) (permitted : permits command)
      (done : command.perform grammar = .ok next)
      (uses : grammar.AddsOver (grammar.Gained owned next) next) :
      Reached permits (grammar.Gained owned next) next
  | pass {owned : Symbol → Prop} {grammar next : Grammar H}
      (earlier : Reached permits owned grammar) (pass : Pass)
      (done : (pass.run grammar).result = .ok next) : Reached permits owned next

namespace Reached

variable {permits : Command H → Prop} {owned : Symbol → Prop} {grammar : Grammar H}
  (reached : grammar.Reached permits owned)
include reached

theorem writeRule {lhs : Symbol} {rhs : List Symbol} (permitted : permits (.rule lhs rhs))
    (ownedLhs : owned lhs) (ownedRhs : ∀ symbol ∈ rhs, owned symbol) :
    (grammar.writeRule lhs rhs).2.Reached permits
      (grammar.Gained owned (grammar.writeRule lhs rhs).2) :=
  reached.command (.rule lhs rhs) permitted rfl
    (addsOver_addRule ⟨.inl ownedLhs, fun symbol member => .inl (ownedRhs symbol member)⟩)

theorem writeSequence {lhs : Symbol} {repetition : Repetition}
    (permitted : permits (.sequence lhs repetition)) (ownedLhs : owned lhs)
    (ownedLetters : ∀ letter, repetition.IsLetter letter → owned letter) :
    (grammar.writeSequence lhs repetition).2.Reached permits
      (grammar.Gained owned (grammar.writeSequence lhs repetition).2) :=
  reached.command (.sequence lhs repetition) permitted rfl
    (addsOver_addSequence ⟨.inl ownedLhs, fun letter occurs => .inl (ownedLetters letter occurs)⟩)

theorem sort (permitted : permits .sort) :
    grammar.sort.Reached permits (grammar.Gained owned grammar.sort) :=
  reached.command .sort permitted rfl addsOver_sort

theorem setAction {handle : Handle} {action : Action} {next : Grammar H}
    (permitted : permits (.action handle action)) (done : grammar.setAction handle action = .ok next) :
    next.Reached permits (grammar.Gained owned next) := by
  refine reached.command (.action handle action) permitted done ?_
  obtain ⟨-, changed⟩ := changed_of_changeHistory done
  cases changed with
  | rule => exact ⟨by simp [List.drop_of_length_le], by simp⟩
  | sequence => exact ⟨by simp, by simp [List.drop_of_length_le]⟩

theorem declare {symbol : Symbol} {precedence : Precedence} {next : Grammar H}
    (permitted : permits (.declare symbol precedence))
    (done : grammar.declarePrecedence symbol precedence = .ok next) :
    next.Reached permits (grammar.Gained owned next) := by
  refine reached.command (.declare symbol precedence) permitted done ?_
  obtain ⟨declared, _, same⟩ := bind_eq_ok_iff.mp done
  cases same
  exact ⟨by simp, by simp⟩

end Reached

/-- Something is kept by every single pass. -/
structure KeptByPasses (holds : Grammar H → Prop) : Prop where
  expand : ∀ {grammar next limits}, holds grammar →
    (grammar.expandSequences limits).result = .ok next → holds next
  eliminate : ∀ {grammar next nullable limits}, holds grammar →
    (grammar.eliminateNullingWith nullable limits).result = .ok next → holds next
  binarize : ∀ {grammar next limits}, holds grammar →
    (grammar.binarize limits).result = .ok next → holds next
  resolve : ∀ {grammar next}, holds grammar →
    grammar.resolvePrecedence.result = .ok next → holds next
  finish : ∀ {grammar}, holds grammar → Stage.binarized ≤ grammar.stage →
    holds { grammar with stage := .normalized }

theorem binarized_le_stage_resolvePrecedence {grammar next : Grammar H}
    (succeeds : grammar.resolvePrecedence.result = .ok next)
    (binarized : Stage.binarized ≤ grammar.stage) : Stage.binarized ≤ next.stage := by
  rw [stage_resolvePrecedence succeeds, if_pos binarized]
  exact Nat.le_trans binarized (Stage.le_max_left _ _)

theorem KeptByPasses.pass {holds : Grammar H → Prop} (kept : KeptByPasses holds)
    {grammar next : Grammar H} (before : holds grammar) {pass : Pass}
    (done : (pass.run grammar).result = .ok next) : holds next := by
  cases pass with
  | expandSequences limits => exact kept.expand before done
  | eliminateNulling limits => exact kept.eliminate before done
  | eliminateNullingWith nullable limits => exact kept.eliminate before done
  | binarize limits => exact kept.binarize before done
  | resolvePrecedence => exact kept.resolve before done
  | normalize limits =>
      obtain ⟨expanded, eliminated, binarized, resolved, expansion, elimination, binarization,
        resolution, rfl⟩ := exists_passes_of_normalize done
      have resolvedHolds := kept.resolve (kept.binarize (kept.eliminate
        (kept.expand before expansion) elimination) binarization) resolution
      exact kept.finish resolvedHolds (binarized_le_stage_resolvePrecedence resolution
        (binarized_le_stage_binarize binarization))

/-- Runs some passes one after the other. -/
def runPasses (grammar : Grammar H) (passes : List Pass) : Except GrammarError (Grammar H) :=
  passes.foldlM (fun current pass => (pass.run current).result) grammar

theorem runPasses_induction {holds : Grammar H → Prop}
    (step : ∀ {grammar next : Grammar H} {pass : Pass}, holds grammar →
      (pass.run grammar).result = .ok next → holds next)
    {grammar next : Grammar H} (before : holds grammar) {passes : List Pass}
    (done : grammar.runPasses passes = .ok next) : holds next := by
  unfold runPasses at done
  induction passes generalizing grammar with
  | nil =>
      cases done
      exact before
  | cons pass passes induction =>
      rw [List.foldlM_cons, bind_eq_ok_iff] at done
      obtain ⟨middle, first, rest⟩ := done
      exact induction (step before first) rest

theorem KeptByPasses.runPasses {holds : Grammar H → Prop} (kept : KeptByPasses holds)
    {grammar next : Grammar H} (before : holds grammar) {passes : List Pass}
    (done : grammar.runPasses passes = .ok next) : holds next :=
  runPasses_induction (fun held ran => kept.pass held ran) before done

theorem Reached.runPasses {permits : Command H → Prop} {owned : Symbol → Prop}
    {grammar next : Grammar H} (reached : grammar.Reached permits owned) {passes : List Pass}
    (done : grammar.runPasses passes = .ok next) : next.Reached permits owned :=
  runPasses_induction (fun earlier ran => earlier.pass _ ran) reached done

/-- Something that holds at the start is kept by every command and by every single pass. -/
structure IsKept (permits : Command H → Prop) (holds : (Symbol → Prop) → Grammar H → Prop) :
    Prop where
  start : ∀ supply : SymbolSupply, holds (· ∈ supply) { supply }
  command : ∀ {owned grammar next}, holds owned grammar → ∀ {command : Command H},
    permits command → command.perform grammar = .ok next →
    grammar.AddsOver (grammar.Gained owned next) next → holds (grammar.Gained owned next) next
  expand : ∀ {owned grammar next limits}, holds owned grammar →
    (grammar.expandSequences limits).result = .ok next → holds owned next
  eliminate : ∀ {owned grammar next nullable limits}, holds owned grammar →
    (grammar.eliminateNullingWith nullable limits).result = .ok next → holds owned next
  binarize : ∀ {owned grammar next limits}, holds owned grammar →
    (grammar.binarize limits).result = .ok next → holds owned next
  resolve : ∀ {owned grammar next}, holds owned grammar →
    grammar.resolvePrecedence.result = .ok next → holds owned next
  finish : ∀ {owned grammar}, holds owned grammar → Stage.binarized ≤ grammar.stage →
    holds owned { grammar with stage := .normalized }

variable {permits : Command H → Prop} {holds : (Symbol → Prop) → Grammar H → Prop}

theorem IsKept.passes (kept : IsKept permits holds) (owned : Symbol → Prop) :
    KeptByPasses (holds owned) :=
  ⟨kept.expand, kept.eliminate, kept.binarize, kept.resolve, kept.finish⟩

theorem IsKept.of_reached (kept : IsKept permits holds) {owned : Symbol → Prop}
    {grammar : Grammar H} (reached : grammar.Reached permits owned) : holds owned grammar := by
  induction reached with
  | start supply => exact kept.start supply
  | command _ _ permitted done uses induction => exact kept.command induction permitted done uses
  | pass _ _ done induction => exact (kept.passes _).pass induction done

end Grammar

end TracedGrammar
