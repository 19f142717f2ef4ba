import TracedGrammar.Builder.Sequence
import TracedGrammar.Builder.Tiers

/-!
# What authors add

Whatever an author writes, alone or by builders, comes after the rules and sequences that were there
before, and takes the grammar back to its first stage.  A property of histories that holds of those
made for new rules, and that actions and precedence do not destroy, holds of the histories of all that
is added, as long as it holds of those that are given by hand.
-/

namespace TracedGrammar

variable {H : Type} {holds : H → Prop}

/-- One grammar is another one with something written after it, with histories of some kind. -/
structure Grammar.GrowsTo (holds : H → Prop) (grammar next : Grammar H) : Prop where
  supply_le : grammar.supply.allocated ≤ next.supply.allocated
  rules : ∃ added, next.rules = grammar.rules ++ added ∧ ∀ rule ∈ added, holds rule.history
  sequences : ∃ added, next.sequences = grammar.sequences ++ added ∧
    ∀ sequence ∈ added, holds sequence.history
  stage : next.stage = .authored ∨
    next.rules = grammar.rules ∧ next.sequences = grammar.sequences ∧ next.stage = grammar.stage

namespace Grammar.GrowsTo

variable {grammar next last : Grammar H}

theorem refl (grammar : Grammar H) : grammar.GrowsTo holds grammar :=
  ⟨Nat.le_refl _, ⟨[], by simp⟩, ⟨[], by simp⟩, .inr ⟨rfl, rfl, rfl⟩⟩

theorem trans (first : grammar.GrowsTo holds next) (second : next.GrowsTo holds last) :
    grammar.GrowsTo holds last where
  supply_le := Nat.le_trans first.supply_le second.supply_le
  rules := by
    obtain ⟨early, written, former⟩ := first.rules
    obtain ⟨late, written', latter⟩ := second.rules
    refine ⟨early ++ late, by rw [written', written, List.append_assoc], fun rule member => ?_⟩
    exact (List.mem_append.mp member).elim (former rule) (latter rule)
  sequences := by
    obtain ⟨early, written, former⟩ := first.sequences
    obtain ⟨late, written', latter⟩ := second.sequences
    refine ⟨early ++ late, by rw [written', written, List.append_assoc], fun sequence member => ?_⟩
    exact (List.mem_append.mp member).elim (former sequence) (latter sequence)
  stage := by
    rcases second.stage with authored | ⟨sameRules, sameSequences, sameStage⟩
    · exact .inl authored
    · rw [sameRules, sameSequences, sameStage]
      exact first.stage

theorem of_supply_le (grammar : Grammar H) {supply : SymbolSupply}
    (larger : grammar.supply.allocated ≤ supply.allocated) :
    grammar.GrowsTo holds { grammar with supply } :=
  ⟨larger, ⟨[], by simp⟩, ⟨[], by simp⟩, .inr ⟨rfl, rfl, rfl⟩⟩

theorem fresh (grammar : Grammar H) : grammar.GrowsTo holds grammar.fresh.2 :=
  of_supply_le grammar (Nat.le_succ _)

theorem freshList (grammar : Grammar H) (count : Nat) :
    grammar.GrowsTo holds (grammar.freshList count).2 :=
  of_supply_le grammar (Nat.le_add_right _ _)

theorem addRule (grammar : Grammar H) {rule : Rule H} (new : holds rule.history) :
    grammar.GrowsTo holds (grammar.addRule rule).2 :=
  ⟨Nat.le_refl _, ⟨[rule], rfl, by simpa using new⟩, ⟨[], by simp [Grammar.addRule]⟩, .inl rfl⟩

theorem addSequence (grammar : Grammar H) {sequence : Sequence H} (new : holds sequence.history) :
    grammar.GrowsTo holds (grammar.addSequence sequence).2 :=
  ⟨Nat.le_refl _, ⟨[], by simp [Grammar.addSequence]⟩, ⟨[sequence], rfl, by simpa using new⟩, .inl rfl⟩

end Grammar.GrowsTo

variable [RuleHistory H] {start : Grammar H}

/-- A property of histories that holds of the histories made for new rules, and that actions and
precedence do not destroy. -/
structure HoldsOfWritten (holds : H → Prop) : Prop where
  blank : holds RuleHistory.blank
  ofOrigin : ∀ handle, holds (RuleHistory.ofOrigin handle)
  setAction : ∀ history action next, holds history →
    RuleHistory.setAction history action = .ok next → holds next
  setPrecedence : ∀ history precedence next, holds history →
    RuleHistory.setPrecedence history precedence = .ok next → holds next

namespace RuleBuilder

/-- An alternative without a history of its own takes the pending one, or refers to its handle. -/
theorem add_eq (builder : RuleBuilder H) (rhs : List Symbol) : builder.add rhs =
    { builder with
      pending := none
      grammar := (builder.grammar.addRule ⟨builder.lhs, rhs,
        builder.pending.getD (RuleHistory.ofOrigin builder.grammar.nextRule)⟩).2 } := by
  unfold add
  split
  · rename_i history found
    rw [found]
    rfl
  · rename_i absent
    rw [absent]
    rfl

/-- The history that is given with a call. -/
def Call.history? : Call H → Option H
  | .history given => some given
  | .alternativeWith _ given => some given
  | _ => none

/-- A builder has grown a grammar, and a history that was given in advance is of the same kind. -/
structure GrownFrom (holds : H → Prop) (start : Grammar H) (builder : RuleBuilder H) : Prop where
  grammar : start.GrowsTo holds builder.grammar
  pending : ∀ history, builder.pending = some history → holds history

theorem GrownFrom.perform (written : HoldsOfWritten holds) {builder : RuleBuilder H}
    (grown : builder.GrownFrom holds start) (call : Call H)
    (given : ∀ history, call.history? = some history → holds history) :
    (builder.perform call).GrownFrom holds start := by
  cases call with
  | rule lhs => exact ⟨grown.grammar, by simp [RuleBuilder.perform]⟩
  | history history =>
      exact ⟨grown.grammar, fun other pending => given other pending⟩
  | alternative rhs =>
      simp only [RuleBuilder.perform, RuleBuilder.add]
      split
      · rename_i history found
        exact ⟨grown.grammar.trans (.addRule _ (grown.pending history found)), by
          simp [RuleBuilder.addWith]⟩
      · exact ⟨grown.grammar.trans (.addRule _ (written.ofOrigin _)), grown.pending⟩
  | alternativeWith rhs history =>
      exact ⟨grown.grammar.trans (.addRule _ (given history rfl)), grown.pending⟩

theorem GrownFrom.run (written : HoldsOfWritten holds) {builder : RuleBuilder H}
    (grown : builder.GrownFrom holds start) (calls : List (Call H))
    (given : ∀ call ∈ calls, ∀ history, call.history? = some history → holds history) :
    (builder.run calls).GrownFrom holds start := by
  induction calls generalizing builder with
  | nil => exact grown
  | cons call calls induction =>
      apply induction (grown.perform written call (given call List.mem_cons_self))
      exact fun other member => given other (List.mem_cons_of_mem _ member)

/-- Whatever is written with a builder for rules, the grammar grows. -/
theorem growsTo_run (written : HoldsOfWritten holds) (lhs : Symbol) {calls : List (Call H)}
    (given : ∀ call ∈ calls, ∀ history, call.history? = some history → holds history) :
    start.GrowsTo holds (RuleBuilder.run ⟨start, lhs, none⟩ calls).grammar := by
  have builder : RuleBuilder.GrownFrom holds start ⟨start, lhs, none⟩ := ⟨.refl start, by simp⟩
  exact (builder.run written calls given).grammar

end RuleBuilder

namespace SequenceBuilder

theorem add_eq (builder : SequenceBuilder H) (item : Symbol) : builder.add item =
    { builder with
      pending := none
      grammar := (builder.grammar.addSequence ⟨builder.lhs, builder.repetition item,
        builder.pending.getD (RuleHistory.ofOrigin builder.grammar.nextSequence)⟩).2 } := by
  unfold add
  split
  · rename_i history found
    rw [found]
    rfl
  · rename_i absent
    rw [absent]
    rfl

def Call.history? : Call H → Option H
  | .history given => some given
  | .itemWith _ given => some given
  | _ => none

structure GrownFrom (holds : H → Prop) (start : Grammar H) (builder : SequenceBuilder H) : Prop where
  grammar : start.GrowsTo holds builder.grammar
  pending : ∀ history, builder.pending = some history → holds history

theorem GrownFrom.add (written : HoldsOfWritten holds) {builder : SequenceBuilder H}
    (grown : builder.GrownFrom holds start) (item : Symbol) :
    (builder.add item).GrownFrom holds start := by
  unfold SequenceBuilder.add
  split
  · rename_i history found
    exact ⟨grown.grammar.trans (.addSequence _ (grown.pending history found)), by
      simp [SequenceBuilder.addWith]⟩
  · exact ⟨grown.grammar.trans (.addSequence _ (written.ofOrigin _)), grown.pending⟩

theorem GrownFrom.perform (written : HoldsOfWritten holds) {builder : SequenceBuilder H}
    (grown : builder.GrownFrom holds start) (call : Call H)
    (given : ∀ history, call.history? = some history → holds history) :
    (builder.perform call).GrownFrom holds start := by
  cases call with
  | sequence lhs => exact ⟨grown.grammar, grown.pending⟩
  | separator separator => exact ⟨grown.grammar, grown.pending⟩
  | history history => exact ⟨grown.grammar, fun other pending => given other pending⟩
  | between least most => exact ⟨grown.grammar, grown.pending⟩
  | within range => exact ⟨grown.grammar, grown.pending⟩
  | item item => exact grown.add written item
  | itemWithin item range =>
      have ranged : (builder.setRange range).GrownFrom holds start :=
        ⟨grown.grammar, grown.pending⟩
      exact ranged.add written item
  | itemWith item history =>
      exact ⟨grown.grammar.trans (.addSequence _ (given history rfl)), grown.pending⟩

theorem GrownFrom.run (written : HoldsOfWritten holds) {builder : SequenceBuilder H}
    (grown : builder.GrownFrom holds start) (calls : List (Call H))
    (given : ∀ call ∈ calls, ∀ history, call.history? = some history → holds history) :
    (builder.run calls).GrownFrom holds start := by
  induction calls generalizing builder with
  | nil => exact grown
  | cons call calls induction =>
      apply induction (grown.perform written call (given call List.mem_cons_self))
      exact fun other member => given other (List.mem_cons_of_mem _ member)

theorem growsTo_run (written : HoldsOfWritten holds) (lhs : Symbol) {calls : List (Call H)}
    (given : ∀ call ∈ calls, ∀ history, call.history? = some history → holds history) :
    start.GrowsTo holds (SequenceBuilder.run { grammar := start, lhs } calls).grammar := by
  have builder : SequenceBuilder.GrownFrom holds start { grammar := start, lhs } :=
    ⟨.refl start, by simp⟩
  exact (builder.run written calls given).grammar

end SequenceBuilder

namespace TierBuilder

def Call.history? : Call H → Option H
  | .history given => some given
  | .alternativeWith _ given => some given
  | _ => none

/-- A builder has grown a grammar, and the history that was given in advance and those of the
alternatives that wait are of the same kind. -/
structure GrownFrom (holds : H → Prop) (start : Grammar H) (builder : TierBuilder H) : Prop where
  grammar : start.GrowsTo holds builder.grammar
  pending : ∀ history, builder.pending = some history → holds history
  waiting : ∀ alternative ∈ builder.groups, ∀ history,
    alternative.history = some history → holds history

variable {builder : TierBuilder H}

theorem GrownFrom.addRule (written : HoldsOfWritten holds) (grown : builder.GrownFrom holds start)
    (lhs : Symbol) (rhs : List Symbol) {history : Option H}
    (given : ∀ own, history = some own → holds own) (precedence : Precedence) :
    (builder.addRule lhs rhs history precedence).GrownFrom holds start := by
  have unassigned : holds (history.getD (RuleHistory.ofOrigin builder.grammar.nextRule)) := by
    cases history with
    | none => exact written.ofOrigin _
    | some own => exact given own rfl
  simp only [TierBuilder.addRule]
  split
  · rename_i assigned succeeds
    exact ⟨grown.grammar.trans (.addRule _ (written.setPrecedence _ _ _ unassigned succeeds)),
      grown.pending, grown.waiting⟩
  · exact ⟨grown.grammar.trans (.addRule _ unassigned), grown.pending, grown.waiting⟩

theorem GrownFrom.add (written : HoldsOfWritten holds) (grown : builder.GrownFrom holds start)
    (rhs : List Symbol) {history : Option H} (given : ∀ own, history = some own → holds own) :
    (builder.add rhs history).GrownFrom holds start := by
  have placed : (builder.place rhs history).GrownFrom holds start := by
    unfold TierBuilder.place
    split
    · exact grown.addRule written _ _ given _
    · exact grown.addRule written _ _ given _
    · refine ⟨grown.grammar, grown.pending, fun alternative member own found => ?_⟩
      rcases List.mem_append.mp member with old | added
      · exact grown.waiting alternative old own found
      · rw [List.mem_singleton.mp added] at found
        exact given own found
  exact ⟨placed.grammar, by simp [TierBuilder.add], placed.waiting⟩

theorem GrownFrom.perform (written : HoldsOfWritten holds) (grown : builder.GrownFrom holds start)
    (call : Call H) (given : ∀ history, call.history? = some history → holds history) :
    (builder.perform call).GrownFrom holds start := by
  cases call with
  | history history =>
      exact ⟨grown.grammar, fun other pending => given other pending, grown.waiting⟩
  | alternative rhs => exact grown.add written rhs grown.pending
  | alternativeWith rhs history => exact grown.add written rhs given
  | associate associativity => exact ⟨grown.grammar, grown.pending, grown.waiting⟩
  | lower =>
      have fresh := grown.grammar.trans (.fresh builder.grammar)
      exact ⟨fresh.trans (.addRule _ written.blank), grown.pending, grown.waiting⟩

theorem GrownFrom.run (written : HoldsOfWritten holds) (grown : builder.GrownFrom holds start)
    (calls : List (Call H))
    (given : ∀ call ∈ calls, ∀ history, call.history? = some history → holds history) :
    (builder.run calls).GrownFrom holds start := by
  induction calls generalizing builder with
  | nil => exact grown
  | cons call calls induction =>
      apply induction (grown.perform written call (given call List.mem_cons_self))
      exact fun other member => given other (List.mem_cons_of_mem _ member)

theorem GrownFrom.settle (written : HoldsOfWritten holds) (grown : builder.GrownFrom holds start) :
    builder.settle.GrownFrom holds start := by
  have all (alternatives : List (GroupAlternative H))
      (waiting : ∀ alternative ∈ alternatives, ∀ history,
        alternative.history = some history → holds history)
      {builder : TierBuilder H} (grown : builder.GrownFrom holds start) :
      (alternatives.foldl addGroup builder).GrownFrom holds start := by
    induction alternatives generalizing builder with
    | nil => exact grown
    | cons alternative alternatives induction =>
        apply induction (fun other member => waiting other (List.mem_cons_of_mem _ member))
        exact grown.addRule written _ _ (waiting alternative List.mem_cons_self) _
  exact all builder.groups grown.waiting ⟨grown.grammar, grown.pending, by simp⟩

theorem GrownFrom.finalize (written : HoldsOfWritten holds) (grown : builder.GrownFrom holds start) :
    start.GrowsTo holds builder.finalize.1 := by
  have settled := (grown.settle written).grammar
  simp only [TierBuilder.finalize]
  split
  · exact settled
  · exact settled.trans (.addRule _ written.blank)

theorem grownFrom_run (written : HoldsOfWritten holds) (lhs : Symbol) {calls : List (Call H)}
    (given : ∀ call ∈ calls, ∀ history, call.history? = some history → holds history) :
    ((TierBuilder.start start lhs).run calls).GrownFrom holds start := by
  have builder : (TierBuilder.start start lhs).GrownFrom holds start :=
    ⟨.fresh start, by simp [TierBuilder.start], by simp [TierBuilder.start]⟩
  exact builder.run written calls given

end TierBuilder

end TracedGrammar
