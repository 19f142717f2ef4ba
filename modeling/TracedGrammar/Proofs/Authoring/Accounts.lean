import TracedGrammar.Builder.Handover
import TracedGrammar.Proofs.Lists

/-!
# Accounts of histories

Which histories builders write can be told from an account of their calls, without the rules and the
sequences.  An account has the histories that were written, those that wait, and the one that is due to
the next alternative that comes without one.  What is due after a call is left open.  Accounts that
differ only in what is due write different histories only where an alternative comes without one.
-/

namespace TracedGrammar

/-- The histories in a grammar, with what decides about those that are written next. -/
structure Account (H : Type) where
  rules : List H
  sequences : List H
  sequencesConsumed : Nat
  due : Option H := none
  level : Nat := 0
  associativity : Associativity := .left
  waiting : List (Option H × Precedence) := []
  conflicts : Bool := false

namespace Account

variable {H : Type}

def ofGrammar (grammar : Grammar H) : Account H where
  rules := grammar.rules.map (·.history)
  sequences := grammar.sequences.map (·.history)
  sequencesConsumed := grammar.sequencesConsumed

/-- The histories of the rules and of the sequences. -/
def histories (account : Account H) : List H × List H :=
  (account.rules, account.sequences)

def wait (account : Account H) (alternative : Option H × Precedence) : Account H :=
  { account with waiting := account.waiting ++ [alternative] }

/-- What is left of an account when the tiers are finished. -/
def afterTiers (account : Account H) : Account H where
  rules := account.rules
  sequences := account.sequences
  sequencesConsumed := account.sequencesConsumed

variable [RuleHistory H]

/-- The history of the next rule, if it gets one that refers to its handle. -/
def ownOfRule (account : Account H) : H :=
  RuleHistory.ofOrigin (.rule account.rules.length)

def ownOfSequence (account : Account H) : H :=
  RuleHistory.ofOrigin (.sequence (account.sequencesConsumed + account.sequences.length))

/-- The history of what a call adds, if that gets one that refers to its handle. -/
def own (account : Account H) : Builder.Call H → H
  | .sequence _ => account.ownOfSequence
  | .rule _ | .tier _ | .startTiers _ | .finalize => account.ownOfRule

def addRule (account : Account H) (given : Option H) : Account H :=
  { account with rules := account.rules ++ [given.getD account.ownOfRule] }

def addSequence (account : Account H) (given : Option H) : Account H :=
  { account with sequences := account.sequences ++ [given.getD account.ownOfSequence] }

/-- Adds a rule with a precedence.  A history that has another one stays as it is. -/
def addRanked (account : Account H) (alternative : Option H × Precedence) : Account H :=
  let history := alternative.1.getD account.ownOfRule
  match RuleHistory.setPrecedence history alternative.2 with
  | .ok assigned => account.addRule (some assigned)
  | .error _ => { account.addRule (some history) with conflicts := true }

/-- Adds an alternative to a tier, or lets it wait. -/
def place (account : Account H) (given : Option H) : Account H :=
  let alternative := (given, ⟨account.level, account.associativity⟩)
  let placed :=
    if account.associativity = .group then account.wait alternative
    else account.addRanked alternative
  { placed with associativity := .left }

/-- Adds what waits, and the rule for the loosest tier unless there was a conflict. -/
def settle (account : Account H) : Account H :=
  let settled := account.waiting.foldl addRanked { account with waiting := [] }
  (if settled.conflicts then settled else settled.addRule (some RuleHistory.blank)).afterTiers

/-- Adds the histories that a call writes.  An alternative that comes without one has the one that is
due, or one that refers to its handle. -/
def record (account : Account H) : Builder.Call H → Account H
  | .rule (.alternative _) => account.addRule account.due
  | .rule (.alternativeWith _ history) => account.addRule (some history)
  | .sequence (.item _) | .sequence (.itemWithin _ _) => account.addSequence account.due
  | .sequence (.itemWith _ history) => account.addSequence (some history)
  | .tier (.alternative _) => account.place account.due
  | .tier (.alternativeWith _ history) => account.place (some history)
  | .tier (.associate associativity) => { account with associativity }
  | .tier .lower =>
      { account.addRule (some RuleHistory.blank) with level := account.level + 1 }
  | .finalize => account.settle
  | _ => account

/-- Records a call, and what is due after it unless that is what was due before. -/
def step (dueAfter : Builder.Call H → Option (Option H)) (account : Account H)
    (call : Builder.Call H) : Account H :=
  { account.record call with due := (dueAfter call).getD account.due }

def run (dueAfter : Builder.Call H → Option (Option H)) (account : Account H)
    (calls : List (Builder.Call H)) : Account H :=
  calls.foldl (step dueAfter) account

theorem run_concat (dueAfter : Builder.Call H → Option (Option H)) (account : Account H)
    (calls : List (Builder.Call H)) (call : Builder.Call H) :
    account.run dueAfter (calls ++ [call]) = (account.run dueAfter calls).step dueAfter call :=
  List.foldl_concat ..

theorem due_run (dueAfter : Builder.Call H → Option (Option H)) (account : Account H)
    (calls : List (Builder.Call H)) : (account.run dueAfter calls).due =
      (calls.filterMap dueAfter).getLast?.getD account.due := by
  apply foldl_field
  intro account call
  rfl

section Grammars

variable (grammar : Grammar H)

theorem ofGrammar_addRule (rule : Rule H) : ofGrammar (grammar.addRule rule).2 =
    (ofGrammar grammar).addRule (some rule.history) := by
  simp only [ofGrammar, addRule, Grammar.addRule, List.map_append, List.map_singleton,
    Option.getD_some]

theorem ofGrammar_addSequence (sequence : Sequence H) : ofGrammar (grammar.addSequence sequence).2 =
    (ofGrammar grammar).addSequence (some sequence.history) := by
  simp only [ofGrammar, addSequence, Grammar.addSequence, List.map_append, List.map_singleton,
    Option.getD_some]

@[simp]
theorem ownOfRule_ofGrammar :
    (ofGrammar grammar).ownOfRule = RuleHistory.ofOrigin grammar.nextRule := by
  rw [ownOfRule, ofGrammar, List.length_map, Grammar.nextRule]

@[simp]
theorem ownOfSequence_ofGrammar :
    (ofGrammar grammar).ownOfSequence = RuleHistory.ofOrigin grammar.nextSequence := by
  rw [ownOfSequence, ofGrammar, List.length_map, Grammar.nextSequence]

end Grammars

end Account

/-- Whether a call adds an alternative that comes without a history. -/
def Builder.Call.IsPlain {H : Type} : Builder.Call H → Prop
  | .rule (.alternative _) | .sequence (.item _) | .sequence (.itemWithin _ _)
  | .tier (.alternative _) => True
  | _ => False

namespace Account

variable {H : Type}

/-- Two accounts differ in nothing but what their histories are, and which one is due. -/
inductive Alike (left : Account H) : Account H → Prop
  | intro (rules sequences : List H) (due : Option H)
      (rules_length : left.rules.length = rules.length)
      (sequences_length : left.sequences.length = sequences.length) :
      Alike left { left with rules, sequences, due }

theorem Alike.refl (account : Account H) : account.Alike account :=
  .intro account.rules account.sequences account.due rfl rfl

theorem Alike.replaceDue {left right : Account H} (alike : left.Alike right) (due other : Option H) :
    Alike { left with due } { right with due := other } := by
  obtain ⟨rules, sequences, _, rulesLength, sequencesLength⟩ := alike
  exact .intro rules sequences other rulesLength sequencesLength

/-- Two accounts go on alike, and with the same histories if they had the same. -/
structure GoOnAlike (left right nextLeft nextRight : Account H) : Prop where
  alike : nextLeft.Alike nextRight
  histories_eq_iff : nextLeft.histories = nextRight.histories ↔ left.histories = right.histories

theorem GoOnAlike.trans {left right nextLeft nextRight lastLeft lastRight : Account H}
    (first : GoOnAlike left right nextLeft nextRight)
    (second : GoOnAlike nextLeft nextRight lastLeft lastRight) :
    GoOnAlike left right lastLeft lastRight :=
  ⟨second.alike, second.histories_eq_iff.trans first.histories_eq_iff⟩

/-- A change that has nothing to do with the histories does not tell accounts apart. -/
theorem GoOnAlike.change {left right nextLeft nextRight : Account H}
    (go : GoOnAlike left right nextLeft nextRight) (change : Account H → Account H)
    (commutes : ∀ account rules sequences due, ∃ dueAfter,
      change { account with rules, sequences, due } =
        { change account with rules, sequences, due := dueAfter }) :
    GoOnAlike left right (change nextLeft) (change nextRight) := by
  have kept (account : Account H) : (change account).histories = account.histories := by
    obtain ⟨dueAfter, same⟩ := commutes account account.rules account.sequences account.due
    exact (congrArg histories same).trans rfl
  obtain ⟨⟨rules, sequences, due, rulesLength, sequencesLength⟩, histories_eq_iff⟩ := go
  refine ⟨?_, by rw [kept, kept, histories_eq_iff]⟩
  obtain ⟨dueAfter, same⟩ := commutes nextLeft rules sequences due
  obtain ⟨rulesKept, sequencesKept⟩ := Prod.mk.inj (kept nextLeft)
  rw [same]
  exact .intro _ _ _ (by rw [rulesKept, rulesLength]) (by rw [sequencesKept, sequencesLength])

theorem Alike.stay {left right : Account H} (alike : left.Alike right) :
    GoOnAlike left right left right :=
  ⟨alike, Iff.rfl⟩

variable [RuleHistory H] {left right : Account H}

namespace Alike

variable (alike : left.Alike right)
include alike

theorem ownOfRule_eq : left.ownOfRule = right.ownOfRule := by
  obtain ⟨rules, sequences, due, rulesLength, sequencesLength⟩ := alike
  rw [ownOfRule, ownOfRule, rulesLength]

theorem ownOfSequence_eq : left.ownOfSequence = right.ownOfSequence := by
  obtain ⟨rules, sequences, due, rulesLength, sequencesLength⟩ := alike
  rw [ownOfSequence, ownOfSequence, sequencesLength]

theorem own_eq (call : Builder.Call H) : left.own call = right.own call := by
  cases call with
  | sequence => exact alike.ownOfSequence_eq
  | rule | tier | startTiers | finalize => exact alike.ownOfRule_eq

theorem addRule (given other : Option H) : (left.addRule given).Alike (right.addRule other) := by
  obtain ⟨rules, sequences, due, rulesLength, sequencesLength⟩ := alike
  refine .intro _ _ _ ?_ sequencesLength
  simp only [Account.addRule, List.length_append, List.length_singleton, rulesLength]

theorem histories_addRule_eq_iff (given other : Option H) :
    (left.addRule given).histories = (right.addRule other).histories ↔
      left.histories = right.histories ∧ given.getD left.ownOfRule = other.getD left.ownOfRule := by
  rw [histories, Account.addRule, histories, Account.addRule, ← alike.ownOfRule_eq]
  simp only [histories, Prod.mk.injEq, List.append_singleton_inj]
  exact and_right_comm

theorem addSequence (given other : Option H) :
    (left.addSequence given).Alike (right.addSequence other) := by
  obtain ⟨rules, sequences, due, rulesLength, sequencesLength⟩ := alike
  refine .intro _ _ _ rulesLength ?_
  simp only [Account.addSequence, List.length_append, List.length_singleton, sequencesLength]

theorem histories_addSequence_eq_iff (given other : Option H) :
    (left.addSequence given).histories = (right.addSequence other).histories ↔
      left.histories = right.histories ∧
        given.getD left.ownOfSequence = other.getD left.ownOfSequence := by
  rw [histories, Account.addSequence, histories, Account.addSequence, ← alike.ownOfSequence_eq]
  simp only [histories, Prod.mk.injEq, List.append_singleton_inj, and_assoc]

/-- Where both take the same, nothing changes. -/
theorem addRule_same (given : Option H) :
    GoOnAlike left right (left.addRule given) (right.addRule given) :=
  ⟨alike.addRule given given,
    (alike.histories_addRule_eq_iff given given).trans (and_iff_left rfl)⟩

theorem addSequence_same (given : Option H) :
    GoOnAlike left right (left.addSequence given) (right.addSequence given) :=
  ⟨alike.addSequence given given,
    (alike.histories_addSequence_eq_iff given given).trans (and_iff_left rfl)⟩

theorem addRanked (alternative : Option H × Precedence) :
    GoOnAlike left right (left.addRanked alternative) (right.addRanked alternative) := by
  simp only [Account.addRanked, ← alike.ownOfRule_eq]
  split
  · exact alike.addRule_same _
  · exact (alike.addRule_same _).change ({ · with conflicts := true }) fun _ _ _ _ => ⟨_, rfl⟩

theorem foldl_addRanked (alternatives : List (Option H × Precedence)) :
    GoOnAlike left right (alternatives.foldl Account.addRanked left)
      (alternatives.foldl Account.addRanked right) := by
  induction alternatives generalizing left right with
  | nil => exact alike.stay
  | cons alternative alternatives induction =>
      have next := alike.addRanked alternative
      exact next.trans (induction next.alike)

theorem place (given : Option H) : GoOnAlike left right (left.place given) (right.place given) := by
  have same : right.associativity = left.associativity ∧ right.level = left.level := by
    cases alike
    exact ⟨rfl, rfl⟩
  simp only [Account.place, same]
  refine GoOnAlike.change ?_ ({ · with associativity := .left }) fun _ _ _ _ => ⟨_, rfl⟩
  split
  · exact alike.stay.change (wait · _) fun _ _ _ _ => ⟨_, rfl⟩
  · exact alike.addRanked _

theorem settle : GoOnAlike left right left.settle right.settle := by
  have waiting : right.waiting = left.waiting := by
    cases alike
    rfl
  have emptied := alike.stay.change ({ · with waiting := [] }) fun _ _ _ _ => ⟨_, rfl⟩
  have settled := emptied.trans (emptied.alike.foldl_addRanked left.waiting)
  have conflicts : ∀ {first second : Account H}, first.Alike second →
      second.conflicts = first.conflicts := by
    rintro first _ ⟨⟩
    rfl
  simp only [Account.settle, waiting, conflicts settled.alike]
  refine GoOnAlike.change ?_ afterTiers fun _ _ _ _ => ⟨_, rfl⟩
  split
  · exact settled
  · exact settled.trans (settled.alike.addRule_same _)

/-- What a call adds is the same, unless it is a plain alternative and different histories are due. -/
theorem record (call : Builder.Call H)
    (inTiers : ∀ inner, call = .tier inner → left.due = right.due) :
    (left.record call).Alike (right.record call) ∧
      ((left.record call).histories = (right.record call).histories ↔
        left.histories = right.histories ∧
          (call.IsPlain → left.due.getD (left.own call) = right.due.getD (left.own call))) := by
  have of_same {nextLeft nextRight : Account H} {plain same : Prop}
      (go : GoOnAlike left right nextLeft nextRight) (taken : plain → same) :
      nextLeft.Alike nextRight ∧ (nextLeft.histories = nextRight.histories ↔
        left.histories = right.histories ∧ (plain → same)) :=
    ⟨go.alike, go.histories_eq_iff.trans (and_iff_left taken).symm⟩
  cases call with
  | rule call =>
      cases call with
      | alternative rhs =>
          refine ⟨alike.addRule _ _, (alike.histories_addRule_eq_iff _ _).trans ?_⟩
          exact and_congr_right' ⟨fun taken _ => taken, fun taken => taken trivial⟩
      | alternativeWith rhs history => exact of_same (alike.addRule_same _) False.elim
      | rule | history => exact of_same alike.stay False.elim
  | sequence call =>
      cases call with
      | item | itemWithin =>
          refine ⟨alike.addSequence _ _, (alike.histories_addSequence_eq_iff _ _).trans ?_⟩
          exact and_congr_right' ⟨fun taken _ => taken, fun taken => taken trivial⟩
      | itemWith item history => exact of_same (alike.addSequence_same _) False.elim
      | sequence | separator | history | between | within => exact of_same alike.stay False.elim
  | tier call =>
      -- A grouping alternative waits with what is due, so here it has to be the same.
      have due := inTiers call rfl
      cases call with
      | alternative rhs =>
          simp only [Account.record, due]
          exact of_same (alike.place _) fun _ => trivial
      | alternativeWith rhs history => exact of_same (alike.place _) False.elim
      | associate associativity =>
          refine of_same (alike.stay.change ({ · with associativity }) ?_) False.elim
          exact fun _ _ _ _ => ⟨_, rfl⟩
      | lower =>
          have level : right.level = left.level := by
            cases alike
            rfl
          simp only [Account.record, level]
          refine of_same ((alike.addRule_same _).change ({ · with level := left.level + 1 }) ?_)
            False.elim
          exact fun _ _ _ _ => ⟨_, rfl⟩
      | history => exact of_same alike.stay False.elim
  | startTiers lhs => exact of_same alike.stay False.elim
  | finalize => exact of_same alike.settle False.elim

end Alike

end Account

end TracedGrammar
