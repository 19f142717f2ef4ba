import Mathlib.Logic.Relation
import TracedGrammar.History.Tracked
import TracedGrammar.Proofs.Authoring.Histories

/-!
# Writing a grammar

A grammar is authored when it comes from an empty one by edits: symbols are allocated, rules and
sequences are added, alone or by builders, and actions and precedence are attached.  Some histories
are allowed to be given by hand.  A grammar written without such histories has only those of rules
that no pass has made.
-/

namespace TracedGrammar

namespace Grammar

variable {H : Type} [RuleHistory H]

/-- One thing that an author does to a grammar.  Builders may be given up at any point. -/
inductive Edit (allowed : H → Prop) : Grammar H → Grammar H → Prop
  | allocate (grammar : Grammar H) (count : Nat) : Edit allowed grammar (grammar.freshList count).2
  | rule (grammar : Grammar H) (lhs : Symbol) (rhs : List Symbol) :
      Edit allowed grammar (grammar.writeRule lhs rhs).2
  | ruleWith (grammar : Grammar H) (rule : Rule H) (given : allowed rule.history) :
      Edit allowed grammar (grammar.addRule rule).2
  | sequence (grammar : Grammar H) (lhs : Symbol) (repetition : Repetition) :
      Edit allowed grammar (grammar.writeSequence lhs repetition).2
  | sequenceWith (grammar : Grammar H) (sequence : Sequence H) (given : allowed sequence.history) :
      Edit allowed grammar (grammar.addSequence sequence).2
  | rules (grammar : Grammar H) (lhs : Symbol) (calls : List (RuleBuilder.Call H))
      (given : ∀ call ∈ calls, ∀ history, call.history? = some history → allowed history) :
      Edit allowed grammar (RuleBuilder.run ⟨grammar, lhs, none⟩ calls).grammar
  | sequences (grammar : Grammar H) (lhs : Symbol) (calls : List (SequenceBuilder.Call H))
      (given : ∀ call ∈ calls, ∀ history, call.history? = some history → allowed history) :
      Edit allowed grammar (SequenceBuilder.run { grammar, lhs } calls).grammar
  | tiers (grammar : Grammar H) (lhs : Symbol) (calls : List (TierBuilder.Call H))
      (given : ∀ call ∈ calls, ∀ history, call.history? = some history → allowed history) :
      Edit allowed grammar ((TierBuilder.start grammar lhs).run calls).grammar
  | finishedTiers (grammar : Grammar H) (lhs : Symbol) (calls : List (TierBuilder.Call H))
      (given : ∀ call ∈ calls, ∀ history, call.history? = some history → allowed history) :
      Edit allowed grammar ((TierBuilder.start grammar lhs).run calls).finalize.1
  | sort (grammar : Grammar H) : Edit allowed grammar grammar.sort
  | action {grammar next : Grammar H} {handle : Handle} {action : Action}
      (done : grammar.setAction handle action = .ok next) : Edit allowed grammar next
  | precedence {grammar next : Grammar H} {handle : Handle} {precedence : Precedence}
      (done : grammar.setPrecedence handle precedence = .ok next) : Edit allowed grammar next
  | declare {grammar next : Grammar H} {symbol : Symbol} {precedence : Precedence}
      (done : grammar.declarePrecedence symbol precedence = .ok next) : Edit allowed grammar next

/-- A grammar that has been written from the start, with a supply that may have allocated symbols
before. -/
def Authored (allowed : H → Prop) (grammar : Grammar H) : Prop :=
  ∃ supply : SymbolSupply, Relation.ReflTransGen (Edit allowed) { supply } grammar

variable {allowed holds : H → Prop}

/-- What an edit does: it adds something, sorts the rules, changes one history, or declares
precedence. -/
theorem Edit.cases (written : HoldsOfWritten holds)
    (given : ∀ history, allowed history → holds history) {grammar next : Grammar H}
    (edit : Edit allowed grammar next) :
    grammar.GrowsTo holds next ∨ next = grammar.sort ∨
      (∃ handle action, grammar.setAction handle action = .ok next) ∨
      (∃ handle precedence, grammar.setPrecedence handle precedence = .ok next) ∨
      ∃ declared, next = { grammar with declared } := by
  cases edit with
  | allocate count => exact .inl (.freshList grammar count)
  | rule lhs rhs => exact .inl (.addRule grammar (written.ofOrigin _))
  | ruleWith rule allowed => exact .inl (.addRule grammar (given _ allowed))
  | sequence lhs repetition => exact .inl (.addSequence grammar (written.ofOrigin _))
  | sequenceWith sequence allowed => exact .inl (.addSequence grammar (given _ allowed))
  | rules lhs calls allowed =>
      exact .inl (RuleBuilder.growsTo_run written lhs fun call member history found =>
        given history (allowed call member history found))
  | sequences lhs calls allowed =>
      exact .inl (SequenceBuilder.growsTo_run written lhs fun call member history found =>
        given history (allowed call member history found))
  | tiers lhs calls allowed =>
      exact .inl (TierBuilder.grownFrom_run written lhs fun call member history found =>
        given history (allowed call member history found)).grammar
  | finishedTiers lhs calls allowed =>
      exact .inl ((TierBuilder.grownFrom_run written lhs fun call member history found =>
        given history (allowed call member history found)).finalize written)
  | sort => exact .inr (.inl rfl)
  | action done => exact .inr (.inr (.inl ⟨_, _, done⟩))
  | precedence done => exact .inr (.inr (.inr (.inl ⟨_, _, done⟩)))
  | declare done =>
      obtain ⟨declared, _, same⟩ := bind_eq_ok_iff.mp done
      cases same
      exact .inr (.inr (.inr (.inr ⟨declared, rfl⟩)))

theorem Edit.histories (written : HoldsOfWritten holds)
    (given : ∀ history, allowed history → holds history) {grammar next : Grammar H}
    (edit : Edit allowed grammar next) (histories : grammar.Histories holds) :
    next.Histories holds := by
  rcases edit.cases written given with
    grows | rfl | ⟨_, _, done⟩ | ⟨_, _, done⟩ | ⟨_, rfl⟩
  · exact histories.of_growsTo grows
  · exact ⟨fun rule member => histories.rule rule (List.mem_mergeSort.mp member),
      histories.sequence⟩
  · exact histories.changeHistory (fun _ _ old => written.setAction _ _ _ old) done
  · exact histories.changeHistory (fun _ _ old => written.setPrecedence _ _ _ old) done
  · exact ⟨histories.rule, histories.sequence⟩

theorem Authored.histories (written : HoldsOfWritten holds)
    (given : ∀ history, allowed history → holds history) {grammar : Grammar H}
    (authored : grammar.Authored allowed) : grammar.Histories holds := by
  obtain ⟨supply, run⟩ := authored
  induction run with
  | refl => exact ⟨by simp, by simp⟩
  | tail _ edit induction => exact edit.histories written given induction

end Grammar

namespace History

/-- A history without what its author attaches to it. -/
def unlabeled (history : History) : History :=
  { history with action := none, precedence := none }

theorem unlabeled_of_setAction {history other : History} {action : Action}
    (done : history.setAction action = .ok other) : other.unlabeled = history.unlabeled := by
  obtain ⟨_, _, same⟩ := bind_eq_ok_iff.mp done
  cases same
  rfl

theorem unlabeled_of_setPrecedence {history other : History} {precedence : Precedence}
    (done : history.setPrecedence precedence = .ok other) : other.unlabeled = history.unlabeled := by
  obtain ⟨_, _, same⟩ := bind_eq_ok_iff.mp done
  cases same
  rfl

/-- What labels have nothing to do with holds of all that is written when it holds of what is new. -/
theorem holdsOfWritten_of_unlabeled {holds : History → Prop} (blank : holds {})
    (ofOrigin : ∀ handle, holds { origin := some handle })
    (only : ∀ history, holds history ↔ holds history.unlabeled) : HoldsOfWritten holds where
  blank := blank
  ofOrigin := ofOrigin
  setAction := by
    intro history action next held done
    rwa [only, unlabeled_of_setAction done, ← only]
  setPrecedence := by
    intro history precedence next held done
    rwa [only, unlabeled_of_setPrecedence done, ← only]

theorem holdsOfWritten_isAuthored : HoldsOfWritten fun history : History => history.isAuthored = true :=
  holdsOfWritten_of_unlabeled rfl (fun _ => rfl) fun _ => .rfl

theorem chainPiece_eq_none_of_isAuthored {history : History} (authored : history.isAuthored = true) :
    history.chainPiece = none := by
  simp only [isAuthored, Bool.and_eq_true, Option.isNone_iff_eq_none] at authored
  exact authored.1.1

theorem elision_eq_none_of_isAuthored {history : History} (authored : history.isAuthored = true) :
    history.elision = none := by
  simp only [isAuthored, Bool.and_eq_true, Option.isNone_iff_eq_none] at authored
  exact authored.1.2

theorem unrolling_eq_none_of_isAuthored {history : History} (authored : history.isAuthored = true) :
    history.unrolling = none := by
  simp only [isAuthored, Bool.and_eq_true, Option.isNone_iff_eq_none] at authored
  exact authored.2

end History

end TracedGrammar
