import TracedGrammar.Proofs.Expansion.Pass

/-!
# What derives in an expanded grammar

Everything that derives before the expansion of sequences derives after it.  For the converse,
helpers are read as what they stand for, and then all new rules are true but one: a sequence that is
expanded with itself gets a rule that adds an item to whatever derives from its symbol.  This is no
harm when the symbol derives what it derives with another item.  It does, in particular, when
nothing else defines it.
-/

namespace TracedGrammar

namespace Grammar

variable {H : Type} {grammar result : Grammar H} {chain : List (ExpandedSequence H)}

/-- A further item after what a sequence has derived makes a word that its symbol derives, too, as
long as only words of good symbols count. -/
def AbsorbsStep (grammar : Grammar H) (good : Symbol → Prop) (sequence : Sequence H) : Prop :=
  ∀ word : List Symbol, (∀ symbol ∈ word, good symbol) →
    grammar.Derives (sequence.lhs :: sequence.repetition.step) word →
      grammar.Derives [sequence.lhs] word

theorem AbsorbsStep.mono {grammar : Grammar H} {sequence : Sequence H}
    {good better : Symbol → Prop} (absorbs : grammar.AbsorbsStep good sequence)
    (less : ∀ symbol, better symbol → good symbol) :
    grammar.AbsorbsStep better sequence :=
  fun word inside => absorbs word fun symbol member => less symbol (inside symbol member)

/-- Authored symbols are read as themselves and helpers as the words of their repetitions. -/
def helperReading (grammar : Grammar H) (chain : List (ExpandedSequence H)) : Interpretation :=
  ExpandedSequence.reading grammar.supply chain fun symbol => {[symbol]}

variable [RuleHistory H]

theorem ExpandsTo.direct_iff (expands : grammar.ExpandsTo result chain) {symbol : Symbol}
    {word : List Symbol} :
    result.Direct symbol word ↔
      DirectBy grammar.rules symbol word ∨
        ∃ expanded ∈ chain, DirectBy expanded.rules symbol word := by
  rw [direct_iff_directBy expands.plain]
  constructor
  · rintro @⟨rule, member⟩
    rcases expands.mem_rules_iff.mp member with authored | ⟨expanded, inChain, inside⟩
    · exact .inl (.rule authored)
    · exact .inr ⟨expanded, inChain, .rule inside⟩
  · rintro (@⟨rule, authored⟩ | ⟨expanded, inChain, @⟨rule, inside⟩⟩)
    · exact .rule (expands.mem_rules_iff.mpr (.inl authored))
    · exact .rule (expands.mem_rules_iff.mpr (.inr ⟨expanded, inChain, inside⟩))

theorem ExpandsTo.derives (expands : grammar.ExpandsTo result chain) {symbols word : List Symbol}
    (derives : grammar.Derives symbols word) : result.Derives symbols word := by
  refine TracedGrammar.Derives.lift ?_ derives
  rintro symbol middle (authored | @⟨sequence, member, middle, written⟩)
  · exact .of_direct (expands.direct_iff.mpr (.inl (.rule authored)))
  · obtain ⟨expanded, inChain, rfl⟩ := expands.exists_expanded member
    refine expanded.derives_of_mem (fun rule inside => ?_) written
    exact expands.direct_iff.mpr (.inr ⟨expanded, inChain, .rule inside⟩)

theorem ExpandsTo.absorbsStep (expands : grammar.ExpandsTo result chain)
    {sequence : Sequence H} (member : sequence ∈ grammar.sequences)
    (recursive : sequence.repetition.IsRecursive) (good : Symbol → Prop) :
    result.AbsorbsStep good sequence := by
  obtain ⟨expanded, inChain, rfl⟩ := expands.exists_expanded member
  intro word _ derives
  have direct := expands.direct_iff.mpr
    (.inr ⟨expanded, inChain, .rule (expanded.step_mem_rules recursive)⟩)
  rw [ExpandedSequence.rhs_ruleFor_step] at direct
  exact (TracedGrammar.Derives.of_direct direct).trans derives

theorem ExpandsTo.word_helperReading (expands : grammar.ExpandsTo result chain)
    {symbols : List Symbol} (allocated : ∀ symbol ∈ symbols, symbol ∈ grammar.supply) :
    (grammar.helperReading chain).word symbols = {symbols} :=
  Interpretation.word_eq_self fun symbol member =>
    ExpandedSequence.reading_authored expands.chained (allocated symbol member)

section Converse

variable (expands : grammar.ExpandsTo result chain) (uses : grammar.UsesAllocated)
include expands uses

/-- What a new rule puts in the place of a symbol is what the symbol is read as, or the rule adds an
item to what the symbol of a sequence derives. -/
theorem ExpandsTo.word_rhs_le {expanded : ExpandedSequence H} (inChain : expanded ∈ chain)
    {rule : Rule H} (member : rule ∈ expanded.rules) :
    (rule.lhs = expanded.sequence.lhs ∧
        ((grammar.helperReading chain).word rule.rhs ≤ expanded.sequence.repetition.language ∨
          expanded.sequence.repetition.IsRecursive ∧
            rule.rhs = expanded.sequence.lhs :: expanded.sequence.repetition.step)) ∨
      (grammar.helperReading chain).word rule.rhs ≤ grammar.helperReading chain rule.lhs := by
  have inSequences := expands.mem_sequences inChain
  have letters : ∀ letter, expanded.sequence.repetition.IsLetter letter →
      letter ∈ grammar.supply ∧ ({[letter]} : Language Symbol) = {[letter]} :=
    fun letter occurs => ⟨uses.letter_mem _ inSequences letter occurs, rfl⟩
  obtain ⟨top, symbol, written, writes, row, inside, rfl⟩ := expanded.mem_rules_iff.mp member
  have below := ExpandedSequence.word_rhs_le expands.chained inChain letters writes inside
  cases writes with
  | top =>
      refine .inl ⟨rfl, ?_⟩
      rcases Repetition.isStepOrPlain_of_mem_alternatives inside with ⟨recursive, rfl⟩ | plain
      · exact .inr ⟨recursive, expanded.rhs_ruleFor_step true _ _⟩
      · exact .inl (below fun occurs => absurd occurs plain)
  | helper inOrder =>
      have itself : grammar.helperReading chain (expanded.symbolOf written) = written.language :=
        ExpandedSequence.reading_helper expands.chained inChain inOrder
      apply Or.inr
      change _ ≤ grammar.helperReading chain (expanded.symbolOf written)
      rw [itself]
      exact below fun _ => itself

theorem ExpandsTo.closed {good : Symbol → Prop}
    (absorbs : ∀ sequence ∈ grammar.sequences, sequence.repetition.IsRecursive →
      grammar.AbsorbsStep good sequence)
    (symbol : Symbol) (middle : List Symbol) (step : result.Direct symbol middle) :
    let meaning := (grammar.helperReading chain).derivedFrom grammar.Direct good
    meaning.word middle ≤ meaning symbol := by
  have itself {other : Symbol} (member : other ∈ grammar.supply) :
      [other] ∈ grammar.helperReading chain other := by
    rw [helperReading, ExpandedSequence.reading_authored expands.chained member]
    exact Set.mem_singleton [other]
  rw [language_le_iff]
  intro word inside
  rw [Interpretation.mem_word_derivedFrom] at inside
  rw [Interpretation.mem_derivedFrom]
  obtain ⟨goodWord, source, inSource, derives⟩ := inside
  refine ⟨goodWord, ?_⟩
  rcases expands.direct_iff.mp step with @⟨rule, authored⟩ | ⟨expanded, inChain, @⟨rule, new⟩⟩
  · rw [expands.word_helperReading (uses.rhs_mem _ authored)] at inSource
    subst inSource
    refine ⟨[rule.lhs], itself (uses.lhs_mem _ authored), ?_⟩
    exact (TracedGrammar.Derives.of_direct (.rule authored)).trans derives
  · have inSequences := expands.mem_sequences inChain
    have lhsMember := uses.sequence_mem _ inSequences
    rcases expands.word_rhs_le uses inChain new with ⟨same, below | ⟨recursive, rhs⟩⟩ | below
    · rw [same]
      refine ⟨[expanded.sequence.lhs], itself lhsMember, ?_⟩
      exact (TracedGrammar.Derives.of_direct (.sequence inSequences (below inSource))).trans derives
    · rw [same]
      refine ⟨[expanded.sequence.lhs], itself lhsMember, ?_⟩
      rw [rhs, expands.word_helperReading] at inSource
      · rw [show source = _ from inSource] at derives
        exact absorbs _ inSequences recursive word goodWord derives
      · intro other occurs
        rcases List.mem_cons.mp occurs with rfl | inStep
        · exact lhsMember
        · exact uses.letter_mem _ inSequences other (Repetition.isLetter_of_mem_step inStep)
    · exact ⟨source, below inSource, derives⟩

/-- What derives in the expansion derives before, unless items are added where they do harm. -/
theorem ExpandsTo.derives_of_derives {good : Symbol → Prop}
    (allocated : ∀ symbol, good symbol → symbol ∈ grammar.supply)
    (absorbs : ∀ sequence ∈ grammar.sequences, sequence.repetition.IsRecursive →
      grammar.AbsorbsStep good sequence)
    {symbols word : List Symbol} (symbolsMember : ∀ symbol ∈ symbols, symbol ∈ grammar.supply)
    (goodWord : ∀ symbol ∈ word, good symbol) (derives : result.Derives symbols word) :
    grammar.Derives symbols word := by
  have inside := TracedGrammar.Derives.mem_word (expands.closed uses absorbs) derives ?_
  · obtain ⟨_, source, inSource, derives⟩ := Interpretation.mem_word_derivedFrom.mp inside
    rw [expands.word_helperReading symbolsMember] at inSource
    rwa [show source = symbols from inSource] at derives
  · intro symbol member
    have goodSymbol := goodWord symbol member
    refine Interpretation.mem_derivedFrom.mpr ⟨by simpa using goodSymbol, [symbol], ?_, .refl _⟩
    rw [helperReading, ExpandedSequence.reading_authored expands.chained
      (allocated symbol goodSymbol)]
    exact Set.mem_singleton [symbol]

/-- No symbol becomes nullable. -/
theorem ExpandsTo.derives_nil_iff {symbol : Symbol} (member : symbol ∈ grammar.supply) :
    result.Derives [symbol] [] ↔ grammar.Derives [symbol] [] := by
  have absorbs : ∀ sequence ∈ grammar.sequences, sequence.repetition.IsRecursive →
      grammar.AbsorbsStep (fun _ => False) sequence := by
    intro sequence _ _ word none derives
    obtain ⟨left, right, rfl, former, latter⟩ := TracedGrammar.Derives.exists_of_cons derives
    have empty : left ++ right = [] := List.eq_nil_iff_forall_not_mem.mpr none
    rw [empty]
    rwa [(List.append_eq_nil_iff.mp empty).1] at former
  constructor
  · exact expands.derives_of_derives uses (fun _ => False.elim) absorbs (by simpa using member)
      (by simp)
  · exact expands.derives

end Converse

omit [RuleHistory H] in
/-- Where nothing else defines its symbol, a sequence absorbs further items. -/
theorem IsOnlyDefinition.absorbsStep {sequence : Sequence H}
    (only : grammar.IsOnlyDefinition sequence) (member : sequence ∈ grammar.sequences)
    (recursive : sequence.repetition.IsRecursive) :
    grammar.AbsorbsStep (· ≠ sequence.lhs) sequence := by
  intro word others derives
  obtain ⟨left, right, rfl, former, latter⟩ := TracedGrammar.Derives.exists_of_cons derives
  rcases TracedGrammar.Derives.singleton_iff.mp former with rfl | ⟨middle, step, below⟩
  · exact absurd rfl (others sequence.lhs (by simp))
  · have written : middle ∈ sequence.repetition := by
      generalize same : sequence.lhs = symbol at step
      rcases step with inRules | @⟨other, inSequences, _, written⟩
      · exact absurd same.symm (only.rule_ne _ inRules)
      · rwa [only.sequence_eq other inSequences same.symm] at written
    have longer := Repetition.append_step_mem recursive written
    exact (TracedGrammar.Derives.of_direct (.sequence member longer)).trans (below.append latter)

end Grammar

end TracedGrammar
