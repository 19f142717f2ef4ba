import TracedGrammar.Proofs.Authoring.Edits
import TracedGrammar.Proofs.Grammar.Symbols

/-!
# Commands of an author

What an author does to a grammar can be written down as a command.  A command that succeeds is an
edit, and every edit is a command that succeeds.
-/

namespace TracedGrammar

/-- What an author can do to a grammar.  Builders may be given up at any point. -/
inductive Command (H : Type)
  | allocate (count : Nat)
  | rule (lhs : Symbol) (rhs : List Symbol)
  | ruleWith (rule : Rule H)
  | sequence (lhs : Symbol) (repetition : Repetition)
  | sequenceWith (sequence : Sequence H)
  | rules (lhs : Symbol) (calls : List (RuleBuilder.Call H))
  | sequences (lhs : Symbol) (calls : List (SequenceBuilder.Call H))
  | tiers (lhs : Symbol) (calls : List (TierBuilder.Call H))
  | finishedTiers (lhs : Symbol) (calls : List (TierBuilder.Call H))
  | sort
  | action (handle : Handle) (action : Action)
  | precedence (handle : Handle) (precedence : Precedence)
  | declare (symbol : Symbol) (precedence : Precedence)

namespace Command

variable {H : Type}

/-- The histories that are given by hand. -/
def histories : Command H → List H
  | .ruleWith added => [added.history]
  | .sequenceWith added => [added.history]
  | .rules _ calls => calls.filterMap RuleBuilder.Call.history?
  | .sequences _ calls => calls.filterMap SequenceBuilder.Call.history?
  | .tiers _ calls | .finishedTiers _ calls => calls.filterMap TierBuilder.Call.history?
  | _ => []

variable [RuleHistory H]

def perform (grammar : Grammar H) : Command H → Except GrammarError (Grammar H)
  | .allocate count => .ok (grammar.freshList count).2
  | .rule lhs rhs => .ok (grammar.writeRule lhs rhs).2
  | .ruleWith added => .ok (grammar.addRule added).2
  | .sequence lhs repetition => .ok (grammar.writeSequence lhs repetition).2
  | .sequenceWith added => .ok (grammar.addSequence added).2
  | .rules lhs calls => .ok (RuleBuilder.run ⟨grammar, lhs, none⟩ calls).grammar
  | .sequences lhs calls => .ok (SequenceBuilder.run { grammar, lhs } calls).grammar
  | .tiers lhs calls => .ok ((TierBuilder.start grammar lhs).run calls).grammar
  | .finishedTiers lhs calls => .ok ((TierBuilder.start grammar lhs).run calls).finalize.1
  | .sort => .ok grammar.sort
  | .action handle given => grammar.setAction handle given
  | .precedence handle given => grammar.setPrecedence handle given
  | .declare symbol given => grammar.declarePrecedence symbol given

end Command

namespace Grammar

variable {H : Type} [RuleHistory H] {allowed : H → Prop} {grammar next : Grammar H}

theorem edit_of_perform {command : Command H}
    (given : ∀ history ∈ command.histories, allowed history)
    (done : command.perform grammar = .ok next) : Edit allowed grammar next := by
  cases command with
  | allocate count =>
      cases done
      exact .allocate grammar count
  | rule lhs rhs =>
      cases done
      exact .rule grammar lhs rhs
  | ruleWith rule =>
      cases done
      exact .ruleWith grammar rule (given _ List.mem_cons_self)
  | sequence lhs repetition =>
      cases done
      exact .sequence grammar lhs repetition
  | sequenceWith sequence =>
      cases done
      exact .sequenceWith grammar sequence (given _ List.mem_cons_self)
  | rules lhs calls =>
      cases done
      exact .rules grammar lhs calls (List.forall_mem_filterMap.mp given)
  | sequences lhs calls =>
      cases done
      exact .sequences grammar lhs calls (List.forall_mem_filterMap.mp given)
  | tiers lhs calls =>
      cases done
      exact .tiers grammar lhs calls (List.forall_mem_filterMap.mp given)
  | finishedTiers lhs calls =>
      cases done
      exact .finishedTiers grammar lhs calls (List.forall_mem_filterMap.mp given)
  | sort =>
      cases done
      exact .sort grammar
  | action handle action => exact .action done
  | precedence handle precedence => exact .precedence done
  | declare symbol precedence => exact .declare done

theorem edit_iff_exists_command : Edit allowed grammar next ↔
    ∃ command : Command H, (∀ history ∈ command.histories, allowed history) ∧
      command.perform grammar = .ok next := by
  constructor
  · intro edit
    cases edit with
    | allocate count => exact ⟨.allocate count, List.forall_mem_nil _, rfl⟩
    | rule lhs rhs => exact ⟨.rule lhs rhs, List.forall_mem_nil _, rfl⟩
    | ruleWith rule given => exact ⟨.ruleWith rule, List.forall_mem_singleton.mpr given, rfl⟩
    | sequence lhs repetition => exact ⟨.sequence lhs repetition, List.forall_mem_nil _, rfl⟩
    | sequenceWith sequence given =>
        exact ⟨.sequenceWith sequence, List.forall_mem_singleton.mpr given, rfl⟩
    | rules lhs calls given => exact ⟨.rules lhs calls, List.forall_mem_filterMap.mpr given, rfl⟩
    | sequences lhs calls given =>
        exact ⟨.sequences lhs calls, List.forall_mem_filterMap.mpr given, rfl⟩
    | tiers lhs calls given => exact ⟨.tiers lhs calls, List.forall_mem_filterMap.mpr given, rfl⟩
    | finishedTiers lhs calls given =>
        exact ⟨.finishedTiers lhs calls, List.forall_mem_filterMap.mpr given, rfl⟩
    | sort => exact ⟨.sort, List.forall_mem_nil _, rfl⟩
    | action done => exact ⟨.action _ _, List.forall_mem_nil _, done⟩
    | precedence done => exact ⟨.precedence _ _, List.forall_mem_nil _, done⟩
    | declare done => exact ⟨.declare _ _, List.forall_mem_nil _, done⟩
  · rintro ⟨command, given, done⟩
    exact edit_of_perform given done

/-- What a command does: it adds something, or it is one of those that do not. -/
theorem cases_of_perform {holds : H → Prop} (written : HoldsOfWritten holds) {command : Command H}
    (given : ∀ history ∈ command.histories, holds history)
    (done : command.perform grammar = .ok next) :
    grammar.GrowsTo holds next ∨ command = .sort ∧ next = grammar.sort ∨
      (∃ handle action, grammar.setAction handle action = .ok next) ∨
      (∃ handle precedence, command = .precedence handle precedence ∧
        grammar.setPrecedence handle precedence = .ok next) ∨
      ∃ declared, next = { grammar with declared } := by
  cases command with
  | allocate count =>
      cases done
      exact .inl (.freshList grammar count)
  | rule lhs rhs =>
      cases done
      exact .inl (.addRule grammar (written.ofOrigin _))
  | ruleWith rule =>
      cases done
      exact .inl (.addRule grammar (given _ List.mem_cons_self))
  | sequence lhs repetition =>
      cases done
      exact .inl (.addSequence grammar (written.ofOrigin _))
  | sequenceWith sequence =>
      cases done
      exact .inl (.addSequence grammar (given _ List.mem_cons_self))
  | rules lhs calls =>
      cases done
      exact .inl (RuleBuilder.growsTo_run written lhs (List.forall_mem_filterMap.mp given))
  | sequences lhs calls =>
      cases done
      exact .inl (SequenceBuilder.growsTo_run written lhs (List.forall_mem_filterMap.mp given))
  | tiers lhs calls =>
      cases done
      exact .inl (TierBuilder.grownFrom_run written lhs (List.forall_mem_filterMap.mp given)).grammar
  | finishedTiers lhs calls =>
      cases done
      exact .inl ((TierBuilder.grownFrom_run written lhs
        (List.forall_mem_filterMap.mp given)).finalize written)
  | sort =>
      cases done
      exact .inr (.inl ⟨rfl, rfl⟩)
  | action handle action => exact .inr (.inr (.inl ⟨_, _, done⟩))
  | precedence handle precedence => exact .inr (.inr (.inr (.inl ⟨_, _, rfl, done⟩)))
  | declare symbol precedence =>
      obtain ⟨declared, _, same⟩ := bind_eq_ok_iff.mp done
      cases same
      exact .inr (.inr (.inr (.inr ⟨declared, rfl⟩)))

end Grammar

end TracedGrammar
