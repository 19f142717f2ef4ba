import Mathlib
import TracedGrammar.Proofs.Normalization.ActionSites
import TracedGrammar.Proofs.Repetition.Unambiguous
import TracedGrammar.Proofs.Sequence.Language

/-!
# Derivation trees of an expanded sequence

The rules made from a sequence are unambiguous.  Each of them knows what sequence it comes from and
what it is for, and every derivation tree has one rule that invokes the action of the sequence.
-/

namespace TracedGrammar

namespace Sequence

/-- A rule has what was written with its sequence, and records which of its rules it is. -/
structure Records (sequence : Sequence History) (rule : Rule History) : Prop where
  origin_eq : rule.history.origin = sequence.history.origin
  action_eq : rule.history.action = sequence.history.action
  precedence_eq : rule.history.precedence = sequence.history.precedence
  unrolling : ∃ unrolling, rule.history.unrolling = some unrolling ∧
    unrolling.item = sequence.repetition.item ∧
    unrolling.separator = sequence.repetition.separator ∧
    (unrolling.top = true ↔ rule.lhs = sequence.lhs) ∧
    (unrolling.recursive = true ↔ rule.rhs.head? = some rule.lhs)

end Sequence

namespace ExpandedSequence

variable {H : Type}

/-- Helpers are read as the words of their repetitions, and letters as themselves. -/
abbrev ownReading (expanded : ExpandedSequence H) : Interpretation :=
  reading expanded.before [expanded] (authoredReading expanded.sequence)

/-- The symbol of the sequence and its letters were there before, and the symbol is no letter. -/
structure IsWritten (expanded : ExpandedSequence H) : Prop where
  lhs_mem : expanded.sequence.lhs ∈ expanded.before
  letters : ∀ letter, expanded.sequence.repetition.IsLetter letter →
    letter ∈ expanded.before ∧ letter ≠ expanded.sequence.lhs

section Unambiguity

variable {expanded : ExpandedSequence H} (isWritten : expanded.IsWritten)

include isWritten in
theorem IsWritten.helper_ne_lhs {other : Repetition} (inOrder : other ∈ expanded.order) :
    expanded.symbolOf other ≠ expanded.sequence.lhs := by
  intro same
  apply expanded.layout.helper_not_mem inOrder
  rw [same]
  exact isWritten.lhs_mem

include isWritten in
theorem IsWritten.not_isLetter {top : Bool} {symbol : Symbol} {written : Repetition}
    (writes : expanded.Writes top symbol written) :
    ¬expanded.sequence.repetition.IsLetter symbol := by
  intro isLetter
  obtain ⟨allocated, different⟩ := isWritten.letters symbol isLetter
  cases writes with
  | top => exact different rfl
  | helper inOrder => exact expanded.layout.helper_not_mem inOrder allocated

include isWritten in
theorem IsWritten.reading_letter {letter : Symbol}
    (isLetter : expanded.sequence.repetition.IsLetter letter) :
    expanded.ownReading letter = {[letter]} := by
  have chained : Chained expanded.before [expanded] expanded.after := .cons expanded (.nil _)
  obtain ⟨allocated, different⟩ := isWritten.letters letter isLetter
  rw [ownReading, reading_authored chained allocated, authoredReading, if_neg different]

variable [RuleHistory H]

theorem rules_eq (expanded : ExpandedSequence H) :
    expanded.rules =
      expanded.sequence.repetition.alternatives.map
          (expanded.ruleFor true expanded.sequence.lhs) ++
        expanded.order.flatMap fun other =>
          other.alternatives.map (expanded.ruleFor false (expanded.symbolOf other)) := by
  rw [rules, expanded.layout.productions_eq, List.map_append, List.map_map, List.map_flatMap]
  simp only [List.map_map]
  rfl

include isWritten

/-- A right-hand side is read as the row that it was written from. -/
theorem IsWritten.map_reading_rhs {top : Bool} {symbol : Symbol} {written : Repetition}
    (writes : expanded.Writes top symbol written) {row : List Part}
    (inRows : row ∈ written.alternatives) :
    (expanded.ruleFor top symbol row).rhs.map expanded.ownReading =
      row.map (Part.reading written.language Repetition.language) := by
  have chained : Chained expanded.before [expanded] expanded.after := .cons expanded (.nil _)
  change (row.map _).map _ = _
  rw [List.map_map]
  refine List.map_congr_left fun part inRow => ?_
  cases part with
  | symbol letter =>
      exact isWritten.reading_letter
        (expanded.layout.isLetter_of_writes expanded.valid writes inRows inRow)
  | self => exact reading_of_writes isWritten.lhs_mem writes
  | nested child =>
      have nested : child ∈ Part.nestedIn row := List.mem_filterMap.mpr ⟨_, inRow, rfl⟩
      exact reading_helper chained List.mem_cons_self
        (expanded.layout.mem_order_of_writes writes inRows nested)

theorem IsWritten.pairwise_rulesFor {top : Bool} {symbol : Symbol} {written : Repetition}
    (writes : expanded.Writes top symbol written) :
    (written.alternatives.map (expanded.ruleFor top symbol)).Pairwise fun first second =>
      first.lhs = second.lhs →
        ∀ word ∈ expanded.ownReading.word first.rhs, word ∉ expanded.ownReading.word second.rhs := by
  refine List.pairwise_map.mpr (written.pairwise_apart_alternatives.imp_of_mem ?_)
  intro first second inFirst inSecond apart _
  rw [Interpretation.word, isWritten.map_reading_rhs writes inFirst, Interpretation.word,
    isWritten.map_reading_rhs writes inSecond]
  exact apart

theorem IsWritten.separates : expanded.ownReading.Separates expanded.rules where
  closed := by
    intro rule member
    exact reading_closed isWritten.lhs_mem isWritten.letters rule.lhs rule.rhs (.rule member)
  cuts := by
    intro rule member
    obtain ⟨top, symbol, written, writes, row, inRows, rfl⟩ := expanded.mem_rules_iff.mp member
    rw [isWritten.map_reading_rhs writes inRows]
    exact (Repetition.hasShape_of_mem_alternatives inRows).hasFixedCuts
  apart := by
    rw [rules_eq, List.pairwise_append, List.pairwise_flatMap]
    refine ⟨?top, ⟨?helper, ?helpers⟩, ?across⟩
    case top => exact isWritten.pairwise_rulesFor .top
    case helper => exact fun _ inOrder => isWritten.pairwise_rulesFor (.helper inOrder)
    case helpers =>
      have distinct := expanded.layout.symbols.nodup_iff.mpr List.nodup_range'
      refine (List.pairwise_map.mp distinct).imp fun {first second} different => ?_
      intro one inFirst other inSecond same
      obtain ⟨_, _, rfl⟩ := List.mem_map.mp inFirst
      obtain ⟨_, _, rfl⟩ := List.mem_map.mp inSecond
      exact absurd (congrArg Symbol.id same) different
    case across =>
      intro one inTop other inHelpers same
      obtain ⟨_, _, rfl⟩ := List.mem_map.mp inTop
      obtain ⟨helper, inOrder, inRules⟩ := List.mem_flatMap.mp inHelpers
      obtain ⟨_, _, rfl⟩ := List.mem_map.mp inRules
      exact absurd same.symm (isWritten.helper_ne_lhs inOrder)

/-- A word over the letters of a sequence has at most one derivation tree. -/
theorem IsWritten.forest_eq {first second : Forest}
    (former : first.Fits expanded.rules [expanded.sequence.lhs])
    (latter : second.Fits expanded.rules [expanded.sequence.lhs])
    (letters : ∀ symbol ∈ first.leaves, expanded.sequence.repetition.IsLetter symbol)
    (same : first.leaves = second.leaves) : first = second := by
  refine isWritten.separates.forest_eq ?_ ?_ former latter ?_ letters same
  · intro symbol isLetter
    rw [isWritten.reading_letter isLetter]
    exact Set.mem_singleton [symbol]
  · intro rule member
    obtain ⟨top, symbol, written, writes, row, inRows, rfl⟩ := expanded.mem_rules_iff.mp member
    exact isWritten.not_isLetter writes
  · exact ⟨.inr Set.subsingleton_singleton, trivial⟩

end Unambiguity

section Records

variable {expanded : ExpandedSequence History} (isWritten : expanded.IsWritten)
include isWritten

/-- The sequence is separate from everything else in a grammar that has nothing else. -/
theorem IsWritten.balanced :
    Balanced expanded.rules (Grammar.SequencePart [expanded] expanded.sequence)
      expanded.sequence.repetition.IsLetter (Grammar.siteWeight expanded.sequence)
      (Rule.isSiteOf expanded.sequence.history.origin) := by
  let grammar : Grammar History :=
    { supply := expanded.before
      sequences := [expanded.sequence] }
  let result : Grammar History :=
    { supply := expanded.after
      rules := expanded.rules }
  have expands : grammar.ExpandsTo result [expanded] :=
    { sequences_eq := rfl
      chained := .cons expanded (.nil _)
      rules_eq := by simp [grammar, result]
      plain := rfl }
  have separate : grammar.IsSeparate expanded.sequence :=
    { member := List.mem_singleton_self _
      only := ⟨by simp [grammar], fun other member _ => List.mem_singleton.mp member⟩
      defined := by
        rintro symbol (⟨rule, member, _⟩ | ⟨sequence, member, rfl⟩)
        · cases member
        · rw [List.mem_singleton.mp member]
          exact isWritten.lhs_mem
      letters := isWritten.letters }
  exact separate.balanced expands

theorem IsWritten.countMarked_eq_one (invokes : expanded.sequence.history.actionSite = true)
    {forest : Forest} (fits : forest.Fits expanded.rules [expanded.sequence.lhs])
    (complete : expanded.sequence.lhs ∉ forest.leaves) :
    forest.countMarked expanded.rules (fun rule => RuleHistory.invokesAction rule.history) = 1 := by
  have alone : forest.LeavesAlone expanded.rules expanded.sequence.repetition.IsLetter := by
    intro index _ rule found
    obtain ⟨top, symbol, written, writes, row, inRows, rfl⟩ :=
      expanded.mem_rules_iff.mp (List.mem_of_getElem? found)
    exact isWritten.not_isLetter writes
  have sites : forest.countMarked expanded.rules (fun rule => RuleHistory.invokesAction rule.history) =
      forest.countMarked expanded.rules (Rule.isSiteOf expanded.sequence.history.origin) := by
    refine List.countP_congr fun index _ => ?_
    cases found : expanded.rules[index]? with
    | none => rfl
    | some rule =>
        obtain ⟨top, symbol, written, writes, row, inRows, rfl⟩ :=
          expanded.mem_rules_iff.mp (List.mem_of_getElem? found)
        have sameOrigin : (expanded.ruleFor top symbol row).history.origin =
            expanded.sequence.history.origin := rfl
        rw [Option.any_some, Option.any_some, Rule.isSiteOf, sameOrigin, decide_eq_true rfl,
          Bool.true_and]
        rfl
  have conserved := Forest.countMarked_add_weigh_leaves isWritten.balanced fits (by
    intro symbol member
    rw [List.mem_singleton.mp member]
    exact .inl rfl) alone
  rw [Grammar.weigh_siteWeight_eq_zero complete, weigh_cons, Grammar.siteWeight_lhs, invokes]
    at conserved
  rw [sites]
  exact conserved

/-- Only a step starts with the symbol that it is for. -/
theorem IsWritten.head?_rhs_iff {top : Bool} {symbol : Symbol} {written : Repetition}
    (writes : expanded.Writes top symbol written) {row : List Part}
    (inRows : row ∈ written.alternatives) :
    (expanded.ruleFor top symbol row).rhs.head? = some symbol ↔ row.head? = some .self := by
  change (row.map (Part.symbolIn expanded.symbolOf symbol)).head? = some symbol ↔ _
  rw [List.head?_map]
  constructor
  · intro found
    obtain ⟨part, isHead, same⟩ := Option.map_eq_some_iff.mp found
    have inRow := List.mem_of_mem_head? isHead
    cases part with
    | self => exact isHead
    | symbol letter =>
        have isLetter := expanded.layout.isLetter_of_writes expanded.valid writes inRows inRow
        rw [show letter = symbol from same] at isLetter
        exact absurd isLetter (isWritten.not_isLetter writes)
    | nested child =>
        have nested : child ∈ Part.nestedIn row := List.mem_filterMap.mpr ⟨_, inRow, rfl⟩
        have inOrder := expanded.layout.mem_order_of_writes writes inRows nested
        cases writes with
        | top => exact absurd same (isWritten.helper_ne_lhs inOrder)
        | helper inOther =>
            have inChildren : child ∈ written.children :=
              List.mem_flatMap.mpr ⟨row, inRows, nested⟩
            have smaller := Repetition.rank_lt_of_mem_children inChildren
            rw [expanded.layout.eq_of_symbolOf_eq inOrder inOther same] at smaller
            exact absurd smaller (Nat.lt_irrefl _)
  · intro isHead
    rw [isHead]
    rfl

theorem IsWritten.records {rule : Rule History} (member : rule ∈ expanded.rules) :
    expanded.sequence.Records rule := by
  obtain ⟨top, symbol, written, writes, row, inRows, rfl⟩ := expanded.mem_rules_iff.mp member
  refine ⟨rfl, rfl, rfl, _, rfl, rfl, rfl, ?_, ?_⟩
  · change top = true ↔ symbol = expanded.sequence.lhs
    cases writes with
    | top => exact iff_of_true rfl rfl
    | helper inOrder => exact iff_of_false Bool.false_ne_true (isWritten.helper_ne_lhs inOrder)
  · change (row.head? == some .self) = true ↔ _ = some symbol
    rw [beq_iff_eq]
    exact (isWritten.head?_rhs_iff writes inRows).symm

end Records

end ExpandedSequence

namespace Sequence

/-- The expansion of a sequence whose range is not empty is unambiguous over its letters.  If its
action is invoked at all, then in every derivation tree exactly one rule invokes it.  Every rule
records the sequence and which of its rules it is. -/
theorem expand_unambiguous (sequence : Sequence History) (supply : SymbolSupply)
    (nonempty : ∀ most, sequence.repetition.most = some most → sequence.repetition.least ≤ most)
    (lhsMember : sequence.lhs ∈ supply)
    (letters : ∀ letter, sequence.repetition.IsLetter letter →
      letter ∈ supply ∧ letter ≠ sequence.lhs) :
    ∃ rules after, sequence.expand supply = .ok (rules, after) ∧
      (∀ word : List Symbol, (∀ symbol ∈ word, sequence.repetition.IsLetter symbol) →
        {forest : Forest | forest.Fits rules [sequence.lhs] ∧ forest.leaves = word}.Subsingleton) ∧
      (RuleHistory.invokesAction sequence.history = true → ∀ forest : Forest,
        forest.Fits rules [sequence.lhs] → sequence.lhs ∉ forest.leaves →
          forest.countMarked rules (fun rule => RuleHistory.invokesAction rule.history) = 1) ∧
      ∀ rule ∈ rules, sequence.Records rule := by
  obtain ⟨expanded, rfl, rfl⟩ := ExpandedSequence.exists_of_isValid sequence nonempty supply
  have isWritten : expanded.IsWritten := ⟨lhsMember, letters⟩
  refine ⟨expanded.rules, expanded.after, expanded.expand_eq, ?_, ?_, ?_⟩
  · rintro word overLetters first ⟨former, rfl⟩ second ⟨latter, same⟩
    exact isWritten.forest_eq former latter overLetters same.symm
  · exact fun invokes forest fits complete => isWritten.countMarked_eq_one invokes fits complete
  · exact fun rule member => isWritten.records member

/-- Three to seven items, separated by what is an item itself. -/
def threeToSevenAlike : Sequence History where
  lhs := ⟨0⟩
  repetition := { item := ⟨1⟩, least := 3, most := some 7, separator := .liberal ⟨1⟩ }
  history := { origin := some (.sequence 0), action := some ⟨4⟩ }

theorem threeToSevenAlike_expand_unambiguous :
    ∃ rules after, threeToSevenAlike.expand ⟨2⟩ = .ok (rules, after) ∧
      (∀ word : List Symbol,
        (∀ symbol ∈ word, threeToSevenAlike.repetition.IsLetter symbol) →
          {forest : Forest | forest.Fits rules [⟨0⟩] ∧ forest.leaves = word}.Subsingleton) ∧
      (∀ forest : Forest, forest.Fits rules [⟨0⟩] → ⟨0⟩ ∉ forest.leaves →
        forest.countMarked rules (fun rule => RuleHistory.invokesAction rule.history) = 1) ∧
      ∀ rule ∈ rules, threeToSevenAlike.Records rule := by
  obtain ⟨rules, after, succeeds, unambiguous, once, records⟩ :=
    expand_unambiguous threeToSevenAlike ⟨2⟩ (by rintro most ⟨⟩; decide) (by decide) (by
      rintro letter (rfl | separates)
      · decide
      · cases separates
        decide)
  exact ⟨rules, after, succeeds, unambiguous, once rfl, records⟩

end Sequence

end TracedGrammar
