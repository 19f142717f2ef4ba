import TracedGrammar.Proofs.Authoring.Extensions
import TracedGrammar.Proofs.Report.Success

/-!
# Histories while a grammar is written

A property of histories holds of all histories in a grammar as long as it holds of what is added and
is kept when the history behind a handle is changed.  Such a change leaves everything else alone.
-/

namespace TracedGrammar

namespace Grammar

variable {H : Type}

structure Histories (holds : H → Prop) (grammar : Grammar H) : Prop where
  rule : ∀ rule ∈ grammar.rules, holds rule.history
  sequence : ∀ sequence ∈ grammar.sequences, holds sequence.history

section Changes

variable {grammar next : Grammar H} {handle : Handle} {change : H → Except GrammarError H}

/-- What a change of the history behind a handle does. -/
inductive Changed (change : H → Except GrammarError H) (grammar : Grammar H) :
    Handle → Grammar H → Prop
  | rule {index : Nat} {rule : Rule H} {history : H} (authored : grammar.authoredFrom ≤ index)
      (found : grammar.rules[index]? = some rule) (changed : change rule.history = .ok history) :
      Changed change grammar (.rule index)
        { grammar with rules := grammar.rules.set index { rule with history } }
  | sequence {index : Nat} {sequence : Sequence H} {history : H}
      (waiting : grammar.sequencesConsumed ≤ index)
      (found : grammar.sequences[grammar.sequencePosition index]? = some sequence)
      (changed : change sequence.history = .ok history) :
      Changed change grammar (.sequence index)
        { grammar with
          sequences := grammar.sequences.set (grammar.sequencePosition index)
            { sequence with history } }

theorem changed_of_changeHistory (succeeds : grammar.changeHistory handle change = .ok next) :
    grammar.stage = .authored ∧ grammar.Changed change handle next := by
  unfold changeHistory at succeeds
  split at succeeds
  · cases succeeds
  · rename_i authored
    refine ⟨Decidable.not_not.mp authored, ?_⟩
    split at succeeds
    · split at succeeds
      · cases succeeds
      · rename_i index rule found
        obtain ⟨history, changed, same⟩ := bind_eq_ok_iff.mp succeeds
        cases same
        obtain ⟨bound, found⟩ := Option.ite_none_right_eq_some.mp found
        exact .rule bound found changed
    · split at succeeds
      · cases succeeds
      · rename_i index sequence found
        obtain ⟨history, changed, same⟩ := bind_eq_ok_iff.mp succeeds
        cases same
        obtain ⟨bound, found⟩ := Option.ite_none_right_eq_some.mp found
        exact .sequence bound found changed

theorem stage_changeHistory (succeeds : grammar.changeHistory handle change = .ok next) :
    next.stage = grammar.stage := by
  obtain ⟨-, changed⟩ := changed_of_changeHistory succeeds
  cases changed <;> rfl

end Changes

namespace Histories

variable {holds : H → Prop} {grammar next : Grammar H}

theorem of_growsTo (histories : grammar.Histories holds) (grows : grammar.GrowsTo holds next) :
    next.Histories holds where
  rule := by
    obtain ⟨added, written, new⟩ := grows.rules
    intro rule member
    rw [written] at member
    exact (List.mem_append.mp member).elim (histories.rule rule) (new rule)
  sequence := by
    obtain ⟨added, written, new⟩ := grows.sequences
    intro sequence member
    rw [written] at member
    exact (List.mem_append.mp member).elim (histories.sequence sequence) (new sequence)

theorem changeHistory (histories : grammar.Histories holds) {handle : Handle}
    {change : H → Except GrammarError H}
    (keeps : ∀ history next, holds history → change history = .ok next → holds next)
    (succeeds : grammar.changeHistory handle change = .ok next) : next.Histories holds := by
  obtain ⟨-, changed⟩ := changed_of_changeHistory succeeds
  cases changed with
  | @rule index rule history _ found changed =>
      refine ⟨fun other member => ?_, histories.sequence⟩
      rcases List.mem_or_eq_of_mem_set member with old | rfl
      · exact histories.rule other old
      · exact keeps _ _ (histories.rule rule (List.mem_of_getElem? found)) changed
  | @sequence index sequence history _ found changed =>
      refine ⟨histories.rule, fun other member => ?_⟩
      rcases List.mem_or_eq_of_mem_set member with old | rfl
      · exact histories.sequence other old
      · exact keeps _ _ (histories.sequence sequence (List.mem_of_getElem? found)) changed

end Histories

end Grammar

end TracedGrammar
