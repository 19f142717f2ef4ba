import TracedGrammar.Proofs.Authoring.Additions
import TracedGrammar.Proofs.Lists

/-!
# What rules descend from

Beside a grammar one can keep a list of all additions, and note for every rule and every sequence which
of them it descends from.  As long as nothing but its author works on the grammar, the handles of what
no pass has worked on are numbered without gaps, though sorting may move the rules that they were given
for.
-/

namespace TracedGrammar

variable {H : Type}

/-- All additions so far, and for each rule and sequence of a grammar the one that it descends from. -/
structure Ancestry (H : Type) where
  additions : List (Addition H) := []
  rules : List (Addition H) := []
  sequences : List (Addition H) := []
deriving DecidableEq

namespace Grammar

/-- A handle has been given, now or before the last pass. -/
def HasIssued (grammar : Grammar H) : Handle → Prop
  | .rule index => index < grammar.rules.length
  | .sequence index => index < grammar.sequencesConsumed + grammar.sequences.length

theorem HasIssued.mono {grammar next : Grammar H} {handle : Handle} (issued : grammar.HasIssued handle)
    (rules : grammar.rules.length ≤ next.rules.length)
    (sequences : grammar.sequencesConsumed + grammar.sequences.length ≤
      next.sequencesConsumed + next.sequences.length) : next.HasIssued handle := by
  cases handle with
  | rule index => exact Nat.lt_of_lt_of_le issued rules
  | sequence index => exact Nat.lt_of_lt_of_le issued sequences

/-- No pass has worked on the rule that a handle was given for. -/
def isAuthored (grammar : Grammar H) : Handle → Bool
  | .rule index => grammar.authoredFrom ≤ index
  | .sequence _ => false

section Sorting

variable {α : Type} {grammar : Grammar H} {notes : List α}

/-- Moves what is noted for the rules of a grammar as they are moved when it is sorted. -/
def sortBeside (grammar : Grammar H) (notes : List α) : List α :=
  ((grammar.rules.zip notes).mergeSort
    fun first second => (first.1.compareShapes second.1).isLE).map Prod.snd

theorem sortBeside_perm (lengths : notes.length = grammar.rules.length) :
    (grammar.sortBeside notes).Perm notes := by
  have moved := (List.mergeSort_perm (grammar.rules.zip notes)
    fun first second => (first.1.compareShapes second.1).isLE).map Prod.snd
  rwa [List.map_snd_zip (Nat.le_of_eq lengths)] at moved

theorem forall₂_sort {related : Rule H → α → Prop}
    (beside : List.Forall₂ related grammar.rules notes) :
    List.Forall₂ related grammar.sort.rules (grammar.sortBeside notes) := by
  have sorted : grammar.sort.rules = ((grammar.rules.zip notes).mergeSort
      fun first second => (first.1.compareShapes second.1).isLE).map Prod.fst := by
    have projected := List.map_mergeSort (f := Prod.fst) (l := grammar.rules.zip notes)
      (s := fun first second : Rule H => (first.compareShapes second).isLE) fun _ _ _ _ => rfl
    rw [projected, List.map_fst_zip (Nat.le_of_eq beside.length_eq)]
    rfl
  rw [sorted, sortBeside, List.forall₂_map_left_iff, List.forall₂_map_right_iff, List.forall₂_same]
  intro pair member
  exact List.forall₂_zip beside (List.mem_mergeSort.mp member)

end Sorting

end Grammar

namespace Ancestry

def add (ancestry : Ancestry H) (addition : Addition H) : Ancestry H :=
  match addition.handle with
  | .rule _ =>
      { ancestry with
        additions := ancestry.additions ++ [addition]
        rules := ancestry.rules ++ [addition] }
  | .sequence _ =>
      { ancestry with
        additions := ancestry.additions ++ [addition]
        sequences := ancestry.sequences ++ [addition] }

def addAll (ancestry : Ancestry H) (additions : List (Addition H)) : Ancestry H :=
  additions.foldl add ancestry

def sort (ancestry : Ancestry H) (grammar : Grammar H) : Ancestry H :=
  { ancestry with rules := grammar.sortBeside ancestry.rules }

theorem add_of_rule {ancestry : Ancestry H} {addition : Addition H} {index : Nat}
    (given : addition.handle = .rule index) :
    ancestry.add addition = { ancestry with
      additions := ancestry.additions ++ [addition]
      rules := ancestry.rules ++ [addition] } := by
  simp only [add, given]

theorem add_of_sequence {ancestry : Ancestry H} {addition : Addition H} {index : Nat}
    (given : addition.handle = .sequence index) :
    ancestry.add addition = { ancestry with
      additions := ancestry.additions ++ [addition]
      sequences := ancestry.sequences ++ [addition] } := by
  simp only [add, given]

/-- An ancestry belongs to a grammar, and the histories in the grammar stand in a relation to the
additions that they descend from. -/
structure Fits (holds : H → Addition H → Prop) (ancestry : Ancestry H) (grammar : Grammar H) :
    Prop where
  rules : List.Forall₂ (fun rule addition => holds rule.history addition)
    grammar.rules ancestry.rules
  sequences : List.Forall₂ (fun sequence addition => holds sequence.history addition)
    grammar.sequences ancestry.sequences
  rule_known : ∀ addition ∈ ancestry.rules, addition ∈ ancestry.additions
  sequence_known : ∀ addition ∈ ancestry.sequences, addition ∈ ancestry.additions
  distinct : (ancestry.additions.map Addition.handle).Nodup
  issued : ∀ addition ∈ ancestry.additions, grammar.HasIssued addition.handle
  authoredFrom_le : grammar.authoredFrom ≤ grammar.rules.length
  authored : ((ancestry.rules.map Addition.handle).filter grammar.isAuthored).Perm
    ((List.range' grammar.authoredFrom (grammar.rules.length - grammar.authoredFrom)).map .rule)
  waiting : ancestry.sequences.map Addition.handle =
    (List.range' grammar.sequencesConsumed grammar.sequences.length).map .sequence

namespace Fits

variable {holds : H → Addition H → Prop} {ancestry : Ancestry H} {grammar : Grammar H}

theorem start (holds : H → Addition H → Prop) (supply : SymbolSupply) :
    Fits holds {} ({ supply } : Grammar H) where
  rules := .nil
  sequences := .nil
  rule_known := List.forall_mem_nil _
  sequence_known := List.forall_mem_nil _
  distinct := List.nodup_nil
  issued := List.forall_mem_nil _
  authoredFrom_le := Nat.le_refl _
  authored := .nil
  waiting := rfl

theorem eq_of_handle (fits : ancestry.Fits holds grammar) {first second : Addition H}
    (former : first ∈ ancestry.additions) (latter : second ∈ ancestry.additions)
    (same : first.handle = second.handle) : first = second :=
  List.inj_on_of_nodup_map fits.distinct former latter same

/-- A handle that has not been given yet is different from those that have. -/
theorem distinct_append (fits : ancestry.Fits holds grammar) {addition : Addition H}
    (new : ¬grammar.HasIssued addition.handle) :
    ((ancestry.additions ++ [addition]).map Addition.handle).Nodup := by
  rw [List.map_append, List.nodup_append]
  refine ⟨fits.distinct, List.nodup_singleton _, fun old before last here => ?_⟩
  obtain ⟨earlier, member, rfl⟩ := List.mem_map.mp before
  rw [List.map_singleton, List.mem_singleton] at here
  intro same
  apply new
  rw [← here, ← same]
  exact fits.issued earlier member

theorem addRule (fits : ancestry.Fits holds grammar) (lhs : Symbol) (rhs : List Symbol)
    {history : H} {source : Source H} (new : holds history ⟨grammar.nextRule, source⟩) :
    (ancestry.add ⟨grammar.nextRule, source⟩).Fits holds
      (grammar.addRule ⟨lhs, rhs, history⟩).2 := by
  generalize made : (⟨grammar.nextRule, source⟩ : Addition H) = addition at new ⊢
  generalize written : (⟨lhs, rhs, history⟩ : Rule H) = rule
  have index : addition.handle = .rule grammar.rules.length := made ▸ rfl
  have free : ¬grammar.HasIssued addition.handle := by
    rw [index]
    exact Nat.lt_irrefl _
  have longer : grammar.rules.length < (grammar.rules ++ [rule]).length := by simp
  rw [add_of_rule index]
  constructor
  case rules => exact List.rel_append fits.rules (.cons (written ▸ new) .nil)
  case sequences => exact fits.sequences
  case rule_known =>
    rw [List.forall_mem_append]
    exact ⟨fun other member => List.mem_append_left _ (fits.rule_known other member),
      fun other member => List.mem_append_right _ member⟩
  case sequence_known =>
    exact fun other member => List.mem_append_left _ (fits.sequence_known other member)
  case distinct => exact fits.distinct_append free
  case issued =>
    rw [List.forall_mem_append, List.forall_mem_singleton, index]
    exact ⟨fun other member =>
      (fits.issued other member).mono (Nat.le_of_lt longer) (Nat.le_refl _), longer⟩
  case authoredFrom_le => exact Nat.le_trans fits.authoredFrom_le (Nat.le_of_lt longer)
  case authored =>
    have numbered : grammar.isAuthored (.rule grammar.rules.length) = true :=
      decide_eq_true fits.authoredFrom_le
    have next : grammar.authoredFrom + 1 * (grammar.rules.length - grammar.authoredFrom) =
        grammar.rules.length := by
      have := fits.authoredFrom_le
      omega
    change (((ancestry.rules ++ [addition]).map Addition.handle).filter grammar.isAuthored).Perm
      ((List.range' grammar.authoredFrom
        ((grammar.rules ++ [rule]).length - grammar.authoredFrom)).map .rule)
    rw [List.length_append, List.length_singleton, Nat.sub_add_comm fits.authoredFrom_le,
      List.range'_concat, next, List.map_append, List.map_append, List.filter_append,
      List.map_singleton, index, List.filter_singleton, numbered]
    exact fits.authored.append_right _
  case waiting => exact fits.waiting

theorem addSequence (fits : ancestry.Fits holds grammar) (lhs : Symbol) (repetition : Repetition)
    {history : H} {source : Source H} (new : holds history ⟨grammar.nextSequence, source⟩) :
    (ancestry.add ⟨grammar.nextSequence, source⟩).Fits holds
      (grammar.addSequence ⟨lhs, repetition, history⟩).2 := by
  generalize made : (⟨grammar.nextSequence, source⟩ : Addition H) = addition at new ⊢
  generalize written : (⟨lhs, repetition, history⟩ : Sequence H) = sequence
  have index : addition.handle =
      .sequence (grammar.sequencesConsumed + grammar.sequences.length) := made ▸ rfl
  have free : ¬grammar.HasIssued addition.handle := by
    rw [index]
    exact Nat.lt_irrefl _
  have longer : grammar.sequencesConsumed + grammar.sequences.length <
      grammar.sequencesConsumed + (grammar.sequences ++ [sequence]).length := by simp
  rw [add_of_sequence index]
  constructor
  case rules => exact fits.rules
  case sequences => exact List.rel_append fits.sequences (.cons (written ▸ new) .nil)
  case rule_known =>
    exact fun other member => List.mem_append_left _ (fits.rule_known other member)
  case sequence_known =>
    rw [List.forall_mem_append]
    exact ⟨fun other member => List.mem_append_left _ (fits.sequence_known other member),
      fun other member => List.mem_append_right _ member⟩
  case distinct => exact fits.distinct_append free
  case issued =>
    rw [List.forall_mem_append, List.forall_mem_singleton, index]
    exact ⟨fun other member =>
      (fits.issued other member).mono (Nat.le_refl _) (Nat.le_of_lt longer), longer⟩
  case authoredFrom_le => exact fits.authoredFrom_le
  case authored => exact fits.authored
  case waiting =>
    change (ancestry.sequences ++ [addition]).map Addition.handle =
      (List.range' grammar.sequencesConsumed (grammar.sequences ++ [sequence]).length).map .sequence
    rw [List.length_append, List.length_singleton, List.range'_concat, Nat.one_mul,
      List.map_append, List.map_append, List.map_singleton, index, fits.waiting]
    rfl

/-- Rules and sequences may change in place. -/
theorem of_forall₂ (fits : ancestry.Fits holds grammar) {next : Grammar H}
    (rules : List.Forall₂ (fun rule addition => holds rule.history addition)
      next.rules ancestry.rules)
    (sequences : List.Forall₂ (fun sequence addition => holds sequence.history addition)
      next.sequences ancestry.sequences)
    (authoredFrom : next.authoredFrom = grammar.authoredFrom)
    (consumed : next.sequencesConsumed = grammar.sequencesConsumed) :
    ancestry.Fits holds next := by
  have rulesLength := rules.length_eq.trans fits.rules.length_eq.symm
  have sequencesLength := sequences.length_eq.trans fits.sequences.length_eq.symm
  have same : next.isAuthored = grammar.isAuthored := by
    funext handle
    cases handle with
    | rule index => simp only [Grammar.isAuthored, authoredFrom]
    | sequence index => rfl
  refine ⟨rules, sequences, fits.rule_known, fits.sequence_known, fits.distinct, ?_, ?_, ?_, ?_⟩
  · intro addition member
    refine (fits.issued addition member).mono (Nat.le_of_eq rulesLength.symm) ?_
    rw [sequencesLength, consumed]
  · rw [authoredFrom, rulesLength]
    exact fits.authoredFrom_le
  · rw [same, authoredFrom, rulesLength]
    exact fits.authored
  · rw [consumed, sequencesLength]
    exact fits.waiting

theorem changeHistory (fits : ancestry.Fits holds grammar) {next : Grammar H} {handle : Handle}
    {change : H → Except GrammarError H}
    (keeps : ∀ history other addition, holds history addition → change history = .ok other →
      holds other addition)
    (done : grammar.changeHistory handle change = .ok next) : ancestry.Fits holds next := by
  obtain ⟨-, changed⟩ := Grammar.changed_of_changeHistory done
  cases changed with
  | rule _ found changed =>
      exact fits.of_forall₂ (forall₂_set fits.rules found fun owner held =>
        keeps _ _ owner held changed) fits.sequences rfl rfl
  | sequence _ found changed =>
      exact fits.of_forall₂ fits.rules (forall₂_set fits.sequences found fun owner held =>
        keeps _ _ owner held changed) rfl rfl

theorem sort (fits : ancestry.Fits holds grammar) : (ancestry.sort grammar).Fits holds grammar.sort := by
  have moved : (ancestry.sort grammar).rules.Perm ancestry.rules :=
    Grammar.sortBeside_perm fits.rules.length_eq.symm
  have length : grammar.sort.rules.length = grammar.rules.length := List.length_mergeSort _
  constructor
  case rules => exact Grammar.forall₂_sort fits.rules
  case sequences => exact fits.sequences
  case rule_known => exact fun other member => fits.rule_known other (moved.mem_iff.mp member)
  case sequence_known => exact fits.sequence_known
  case distinct => exact fits.distinct
  case issued =>
    exact fun other member => (fits.issued other member).mono (Nat.le_of_eq length.symm) (Nat.le_refl _)
  case authoredFrom_le => exact length ▸ fits.authoredFrom_le
  case authored =>
    rw [length]
    exact ((moved.map Addition.handle).filter _).trans fits.authored
  case waiting => exact fits.waiting

end Fits

theorem addAll_append (ancestry : Ancestry H) (first second : List (Addition H)) :
    ancestry.addAll (first ++ second) = (ancestry.addAll first).addAll second :=
  List.foldl_append

end Ancestry

/-- Something about a grammar and its ancestry is kept when symbols are allocated and when something is
added, as long as its history is in relation to the addition. -/
structure KeptByAdding (holds : H → Addition H → Prop) (fits : Ancestry H → Grammar H → Prop) :
    Prop where
  supply : ∀ {ancestry grammar} supply, fits ancestry grammar →
    fits ancestry { grammar with supply }
  rule : ∀ {ancestry grammar history source} lhs rhs, fits ancestry grammar →
    holds history ⟨grammar.nextRule, source⟩ →
    fits (ancestry.add ⟨grammar.nextRule, source⟩) (grammar.addRule ⟨lhs, rhs, history⟩).2
  sequence : ∀ {ancestry grammar history source} lhs repetition, fits ancestry grammar →
    holds history ⟨grammar.nextSequence, source⟩ →
    fits (ancestry.add ⟨grammar.nextSequence, source⟩)
      (grammar.addSequence ⟨lhs, repetition, history⟩).2

theorem Ancestry.Fits.keptByAdding (holds : H → Addition H → Prop) :
    KeptByAdding holds (Fits holds) where
  supply := fun _ fits => fits.of_forall₂ fits.rules fits.sequences rfl rfl
  rule := fun lhs rhs fits new => fits.addRule lhs rhs new
  sequence := fun lhs repetition fits new => fits.addSequence lhs repetition new

namespace KeptByAdding

variable {fits : Ancestry H → Grammar H → Prop} {ancestry : Ancestry H}

/-- What a builder does call by call belongs together with what it adds call by call. -/
theorem additionsOf {Builder Call : Type} {grammarOf : Builder → Grammar H}
    {perform : Builder → Call → Builder} {addition? : Builder → Call → Option (Addition H)}
    (step : ∀ {ancestry : Ancestry H} (builder : Builder) (call : Call),
      fits ancestry (grammarOf builder) →
      fits (ancestry.addAll (addition? builder call).toList) (grammarOf (perform builder call)))
    {builder : Builder} (before : fits ancestry (grammarOf builder)) (calls : List Call) :
    fits (ancestry.addAll (TracedGrammar.additionsOf perform addition? builder calls))
      (grammarOf (calls.foldl perform builder)) := by
  induction calls generalizing builder ancestry with
  | nil => exact before
  | cons call calls induction =>
      rw [TracedGrammar.additionsOf, Ancestry.addAll_append]
      exact induction (step builder call before)

end KeptByAdding

variable [RuleHistory H]

/-- A relation between histories and additions that holds at first, whatever is added, and that nothing
destroys that may happen to a history. -/
structure Inheritable (holds : H → Addition H → Prop) : Prop where
  start : ∀ addition, holds addition.history addition
  setAction : ∀ {history next addition} action, holds history addition →
    RuleHistory.setAction history action = .ok next → holds next addition
  setPrecedence : ∀ {history next addition} precedence, holds history addition →
    RuleHistory.setPrecedence history precedence = .ok next → holds next addition
  unroll : ∀ {history addition} unrolling, holds history addition →
    holds (RuleHistory.unroll history unrolling) addition
  elide : ∀ {history next addition} elision, holds history addition →
    RuleHistory.elide history elision = some next → holds next addition
  split : ∀ {history next addition} piece, holds history addition →
    RuleHistory.split history piece = some next → holds next addition

variable {holds : H → Addition H → Prop}

theorem Inheritable.given (inheritable : Inheritable holds) (handle : Handle) (given : Option H) :
    holds (given.getD (RuleHistory.ofOrigin handle)) ⟨handle, .ofGiven given⟩ := by
  cases given with
  | none => exact inheritable.start ⟨handle, .own⟩
  | some history => exact inheritable.start ⟨handle, .supplied history⟩

namespace KeptByAdding

variable {fits : Ancestry H → Grammar H → Prop} {ancestry : Ancestry H}
variable (kept : KeptByAdding holds fits) (inheritable : Inheritable holds)
include kept inheritable

theorem ruleCall (builder : RuleBuilder H) (call : RuleBuilder.Call H)
    (before : fits ancestry builder.grammar) :
    fits (ancestry.addAll (builder.addition? call).toList) (builder.perform call).grammar := by
  cases call with
  | rule lhs => exact before
  | history history => exact before
  | alternative rhs =>
      rw [RuleBuilder.perform, RuleBuilder.add_eq]
      exact kept.rule _ _ before (inheritable.given _ _)
  | alternativeWith rhs history =>
      exact kept.rule _ _ before (inheritable.start ⟨_, .supplied history⟩)

theorem sequenceCall (builder : SequenceBuilder H) (call : SequenceBuilder.Call H)
    (before : fits ancestry builder.grammar) :
    fits (ancestry.addAll (builder.addition? call).toList) (builder.perform call).grammar := by
  cases call with
  | sequence lhs => exact before
  | separator separator => exact before
  | history history => exact before
  | between least most => exact before
  | within range => exact before
  | item item =>
      rw [SequenceBuilder.perform, SequenceBuilder.add_eq]
      exact kept.sequence _ _ before (inheritable.given _ _)
  | itemWithin item range =>
      rw [SequenceBuilder.perform, SequenceBuilder.add_eq]
      exact kept.sequence _ _ before (inheritable.given _ _)
  | itemWith item history =>
      exact kept.sequence _ _ before (inheritable.start ⟨_, .supplied history⟩)

theorem tierRule (builder : TierBuilder H) (lhs : Symbol) (rhs : List Symbol) (given : Option H)
    (precedence : Precedence) (before : fits ancestry builder.grammar) :
    fits (ancestry.add ⟨builder.grammar.nextRule, .ofGiven given⟩)
      (builder.addRule lhs rhs given precedence).grammar := by
  have first := inheritable.given builder.grammar.nextRule given
  simp only [TierBuilder.addRule]
  split
  · rename_i assigned done
    exact kept.rule lhs rhs before (inheritable.setPrecedence precedence first done)
  · exact kept.rule lhs rhs before first

theorem tierAlternative (builder : TierBuilder H) (rhs : List Symbol) (given : Option H)
    (before : fits ancestry builder.grammar) :
    fits (ancestry.addAll (builder.placed? given).toList) (builder.add rhs given).grammar := by
  rw [TierBuilder.add, TierBuilder.place, TierBuilder.placed?]
  cases builder.associativity with
  | left => exact kept.tierRule inheritable _ _ _ _ _ before
  | right => exact kept.tierRule inheritable _ _ _ _ _ before
  | group => exact before

theorem tierCall (builder : TierBuilder H) (call : TierBuilder.Call H)
    (before : fits ancestry builder.grammar) :
    fits (ancestry.addAll (builder.addition? call).toList) (builder.perform call).grammar := by
  cases call with
  | history history => exact before
  | alternative rhs => exact kept.tierAlternative inheritable _ _ _ before
  | alternativeWith rhs history => exact kept.tierAlternative inheritable _ _ _ before
  | associate associativity => exact before
  | lower =>
      have fresh : fits ancestry builder.grammar.fresh.2 := kept.supply _ before
      exact kept.rule _ _ fresh (inheritable.start ⟨_, .link⟩)

theorem finalize (builder : TierBuilder H) (before : fits ancestry builder.grammar) :
    fits (ancestry.addAll builder.finalAdditions) builder.finalize.1 := by
  have step {ancestry : Ancestry H} (builder : TierBuilder H) (alternative : GroupAlternative H)
      (before : fits ancestry builder.grammar) :
      fits (ancestry.addAll (builder.groupAddition? alternative).toList)
        (builder.addGroup alternative).grammar :=
    kept.tierRule inheritable _ _ _ _ _ before
  have cleared : fits ancestry { builder with groups := [] }.grammar := before
  have settled : fits (ancestry.addAll (TracedGrammar.additionsOf TierBuilder.addGroup
      TierBuilder.groupAddition? { builder with groups := [] } builder.groups))
      builder.settle.grammar :=
    additionsOf step cleared builder.groups
  rw [TierBuilder.finalAdditions, Ancestry.addAll_append]
  simp only [TierBuilder.finalize]
  cases builder.settle.conflict with
  | some conflict => exact settled
  | none => exact kept.rule _ _ settled (inheritable.start ⟨_, .link⟩)

end KeptByAdding

/-- What becomes of an ancestry when a command is performed on its grammar. -/
def Command.trace (grammar : Grammar H) (ancestry : Ancestry H) : Command H → Ancestry H
  | .sort => ancestry.sort grammar
  | command => ancestry.addAll (command.additions grammar)

/-- A command adds what it is said to add, or it sorts, labels or declares. -/
theorem KeptByAdding.command {fits : Ancestry H → Grammar H → Prop} (kept : KeptByAdding holds fits)
    (inheritable : Inheritable holds) (ancestry : Ancestry H) {grammar next : Grammar H}
    {command : Command H} (before : fits ancestry grammar)
    (sort : command = .sort → fits (ancestry.sort grammar) grammar.sort)
    (label : ∀ handle change, (∀ history other addition, holds history addition →
      change history = .ok other → holds other addition) →
      grammar.changeHistory handle change = .ok next → fits ancestry next)
    (declare : ∀ declared, (∃ symbol precedence, command = .declare symbol precedence) →
      fits ancestry { grammar with declared })
    (done : command.perform grammar = .ok next) :
    fits (command.trace grammar ancestry) next := by
  cases command with
  | allocate count =>
      cases done
      exact kept.supply _ before
  | rule lhs rhs =>
      cases done
      exact kept.rule lhs rhs before (inheritable.start ⟨_, .own⟩)
  | ruleWith added =>
      cases done
      exact kept.rule added.lhs added.rhs before (inheritable.start ⟨_, .supplied added.history⟩)
  | sequence lhs repetition =>
      cases done
      exact kept.sequence lhs repetition before (inheritable.start ⟨_, .own⟩)
  | sequenceWith added =>
      cases done
      exact kept.sequence added.lhs added.repetition before
        (inheritable.start ⟨_, .supplied added.history⟩)
  | rules lhs calls =>
      cases done
      have begun : fits ancestry (RuleBuilder.mk grammar lhs none).grammar := before
      exact additionsOf (kept.ruleCall inheritable) begun calls
  | sequences lhs calls =>
      cases done
      have begun : fits ancestry ({ grammar, lhs } : SequenceBuilder H).grammar := before
      exact additionsOf (kept.sequenceCall inheritable) begun calls
  | tiers lhs calls =>
      cases done
      have begun : fits ancestry (TierBuilder.start grammar lhs).grammar := kept.supply _ before
      exact additionsOf (kept.tierCall inheritable) begun calls
  | finishedTiers lhs calls =>
      cases done
      have begun : fits ancestry (TierBuilder.start grammar lhs).grammar := kept.supply _ before
      have run := additionsOf (kept.tierCall inheritable) begun calls
      have finished := kept.finalize inheritable _ run
      rw [← Ancestry.addAll_append] at finished
      exact finished
  | sort =>
      cases done
      exact sort rfl
  | action handle given =>
      exact label handle _ (fun _ _ _ held => inheritable.setAction given held) done
  | precedence handle given =>
      exact label handle _ (fun _ _ _ held => inheritable.setPrecedence given held) done
  | declare symbol given =>
      obtain ⟨declared, _, same⟩ := bind_eq_ok_iff.mp done
      cases same
      exact declare declared ⟨symbol, given, rfl⟩

theorem Ancestry.Fits.command (inheritable : Inheritable holds) {ancestry : Ancestry H}
    {grammar next : Grammar H} (fits : ancestry.Fits holds grammar) {command : Command H}
    (done : command.perform grammar = .ok next) :
    (command.trace grammar ancestry).Fits holds next :=
  (keptByAdding holds).command inheritable ancestry fits (fun _ => fits.sort)
    (fun _ _ keeps changed => fits.changeHistory keeps changed)
    (fun _ _ => fits.of_forall₂ fits.rules fits.sequences rfl rfl) done

end TracedGrammar
