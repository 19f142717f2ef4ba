import Mathlib.Data.List.Induction
import TracedGrammar.Proofs.Authoring.Accounts
import TracedGrammar.Proofs.Authoring.Extensions

/-!
# Accounts of builders

A builder has an account, and writes the histories that the account does.  A history that is given in
advance should be due to the next alternative only.  Builders of rules and of sequences leave it
pending when that alternative comes with a history of its own; builders of tiers do not.
-/

namespace TracedGrammar

namespace Builder

variable {H : Type}

namespace Call

/-- What is due after a call, unless that is what was due before: a history that is given in advance is
due until there is an alternative, or until it is given up. -/
def due? : Call H → Option (Option H)
  | .rule (.history given) | .sequence (.history given) | .tier (.history given) => some (some given)
  | .rule (.alternative _) | .rule (.alternativeWith _ _) | .sequence (.item _)
  | .sequence (.itemWithin _ _) | .sequence (.itemWith _ _) | .tier (.alternative _)
  | .tier (.alternativeWith _ _) => some none
  | .rule (.rule _) | .startTiers _ | .finalize => some none
  | .sequence (.sequence _) | .sequence (.separator _) | .sequence (.between _ _)
  | .sequence (.within _) | .tier (.associate _) | .tier .lower => none

/-- Whether a call adds an alternative with a history and yet leaves the one that was given before. -/
def LeavesPending : Call H → Prop
  | .rule (.alternativeWith _ _) | .sequence (.itemWith _ _) => True
  | _ => False

instance : DecidablePred (LeavesPending (H := H)) := fun call => by
  unfold LeavesPending
  split <;> infer_instance

theorem due?_of_leavesPending {call : Call H} (leaves : call.LeavesPending) :
    call.due? = some none := by
  unfold LeavesPending at leaves
  split at leaves
  · rfl
  · rfl
  · exact leaves.elim

/-- What is pending after a call, unless that is what was pending before. -/
def pending? (call : Call H) : Option (Option H) :=
  if call.LeavesPending then none else call.due?

end Call

/-- The account of a builder, by which what is pending is due. -/
def account : Builder H → Account H
  | .rules builder => { Account.ofGrammar builder.grammar with due := builder.pending }
  | .sequences builder => { Account.ofGrammar builder.grammar with due := builder.pending }
  | .tiers builder =>
      { Account.ofGrammar builder.grammar with
        due := builder.pending
        level := builder.level
        associativity := builder.associativity
        waiting := builder.groups.map fun group => (group.history, group.precedence)
        conflicts := builder.conflict.isSome }
  | .failed grammar _ => Account.ofGrammar grammar

variable [RuleHistory H]

theorem account_addWith (builder : RuleBuilder H) (rhs : List Symbol) (history : H) :
    (rules (builder.addWith rhs history)).account =
      (rules builder).account.addRule (some history) := by
  rw [account, RuleBuilder.addWith, Account.ofGrammar_addRule]
  rfl

theorem account_add (builder : RuleBuilder H) (rhs : List Symbol) :
    (rules (builder.add rhs)).account =
      { (rules builder).account.addRule builder.pending with due := none } := by
  rw [builder.add_eq, account, Account.ofGrammar_addRule, ← Account.ownOfRule_ofGrammar]
  rfl

theorem account_addItem (builder : SequenceBuilder H) (item : Symbol) :
    (sequences (builder.add item)).account =
      { (sequences builder).account.addSequence builder.pending with due := none } := by
  rw [builder.add_eq, account, Account.ofGrammar_addSequence, ← Account.ownOfSequence_ofGrammar]
  rfl

theorem account_addItemWith (builder : SequenceBuilder H) (item : Symbol) (history : H) :
    (sequences (builder.addWith item history)).account =
      (sequences builder).account.addSequence (some history) := by
  rw [account, SequenceBuilder.addWith, Account.ofGrammar_addSequence]
  rfl

section Tiers

variable (builder : TierBuilder H)

theorem account_addRule (lhs : Symbol) (rhs : List Symbol) (given : Option H)
    (precedence : Precedence) :
    (tiers (builder.addRule lhs rhs given precedence)).account =
      (tiers builder).account.addRanked (given, precedence) := by
  have own : (tiers builder).account.ownOfRule = RuleHistory.ofOrigin builder.grammar.nextRule :=
    Account.ownOfRule_ofGrammar builder.grammar
  simp only [TierBuilder.addRule, Account.addRanked, own]
  cases RuleHistory.setPrecedence (given.getD (RuleHistory.ofOrigin builder.grammar.nextRule))
      precedence with
  | ok assigned =>
      rw [account, Account.ofGrammar_addRule]
      rfl
  | error conflict =>
      have raised : (builder.conflict <|> some conflict).isSome = true := by
        cases builder.conflict <;> rfl
      rw [account, Account.ofGrammar_addRule]
      simp only [raised]
      rfl

theorem account_settle : (tiers builder.settle).account =
    (tiers builder).account.waiting.foldl Account.addRanked
      { (tiers builder).account with waiting := [] } := by
  have waiting : (tiers builder).account.waiting =
      builder.groups.map fun group => (group.history, group.precedence) := rfl
  rw [TierBuilder.settle, waiting, List.foldl_map]
  apply (List.foldl_hom (fun builder => (tiers builder).account) _).symm
  intro builder group
  exact (account_addRule builder ..).symm

/-- A builder adds an alternative as its account does. -/
theorem account_addAlternative (rhs : List Symbol) (given : Option H) :
    (tiers (builder.add rhs given)).account =
      { (tiers builder).account.place given with due := none } := by
  have reset (placed : TierBuilder H) :
      (tiers { placed with associativity := .left, pending := none }).account =
        { (tiers placed).account with associativity := .left, due := none } := rfl
  rw [TierBuilder.add, reset, Account.place, TierBuilder.place]
  obtain ⟨grammar, lhs, tighter, current, pending, associativity, level, groups, conflict⟩ := builder
  cases associativity with
  | left | right =>
      simp only [account_addRule]
      rfl
  | group =>
      simp only [account, List.map_append]
      rfl

theorem account_lower : (tiers builder.lower).account =
    { (tiers builder).account.addRule (some RuleHistory.blank) with level := builder.level + 1 } := by
  rw [TierBuilder.lower, account, Account.ofGrammar_addRule]
  rfl

theorem account_finalize {builder : TierBuilder H} {next : Builder H}
    (done : (tiers builder).perform? .finalize = some next) :
    next.account = { (tiers builder).account.settle with due := none } := by
  have settled : (tiers builder).account.settle =
      (if builder.settle.conflict.isSome then (tiers builder.settle).account
        else (tiers builder.settle).account.addRule (some RuleHistory.blank)).afterTiers := by
    rw [Account.settle, ← account_settle]
    rfl
  simp only [perform?, TierBuilder.finalize] at done
  rw [settled]
  cases conflict : builder.settle.conflict with
  | some error =>
      simp only [conflict, Option.some.injEq] at done
      rw [← done]
      rfl
  | none =>
      simp only [conflict, Option.some.injEq] at done
      rw [← done, account_addWith]
      rfl

end Tiers

/-- Builders do what accounts do by which the pending history is due. -/
theorem account_perform? {builder next : Builder H} {call : Call H}
    (done : builder.perform? call = some next) :
    next.account = builder.account.step Call.pending? call := by
  cases builder with
  | rules builder =>
      cases call with
      | rule call =>
          cases done
          cases call with
          | rule lhs => rfl
          | history history => rfl
          | alternative rhs => exact account_add builder rhs
          | alternativeWith rhs history => exact account_addWith builder rhs history
      | startTiers lhs =>
          cases done
          rfl
      | sequence | tier | finalize => cases done
  | sequences builder =>
      cases call with
      | sequence call =>
          cases done
          cases call with
          | sequence | separator | history | between | within => rfl
          | item item => exact account_addItem builder item
          | itemWithin item range => exact account_addItem (builder.setRange range) item
          | itemWith item history => exact account_addItemWith builder item history
      | rule | tier | startTiers | finalize => cases done
  | tiers builder =>
      cases call with
      | tier call =>
          cases done
          cases call with
          | history | associate => rfl
          | alternative rhs => exact account_addAlternative builder rhs builder.pending
          | alternativeWith rhs history => exact account_addAlternative builder rhs (some history)
          | lower => exact account_lower builder
      | finalize => exact account_finalize done
      | rule | sequence | startTiers => cases done
  | failed grammar conflict => cases call <;> cases done

theorem run?_concat_eq_some_iff {builder last : Builder H} {calls : List (Call H)} {call : Call H} :
    builder.run? (calls ++ [call]) = some last ↔
      ∃ next, builder.run? calls = some next ∧ next.perform? call = some last := by
  rw [run?, List.foldlM_append, Option.bind_eq_bind, Option.bind_eq_some_iff]
  simp only [List.foldlM_cons, List.foldlM_nil, Option.bind_eq_bind, Option.pure_def,
    Option.bind_fun_some]
  rfl

omit [RuleHistory H] in
theorem account_start (grammar : Grammar H) (lhs : Symbol) (kind : Kind) :
    (start grammar lhs kind).account = Account.ofGrammar grammar := by
  cases kind <;> rfl

theorem account_run? {builder last : Builder H} {calls : List (Call H)}
    (ran : builder.run? calls = some last) :
    last.account = builder.account.run Call.pending? calls := by
  induction calls using List.reverseRecOn generalizing last with
  | nil =>
      cases ran
      rfl
  | append_singleton calls call induction =>
      obtain ⟨next, before, done⟩ := run?_concat_eq_some_iff.mp ran
      rw [account_perform? done, induction before, Account.run_concat]

end Builder

end TracedGrammar
