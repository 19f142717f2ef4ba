import Mathlib
import TracedGrammar.Grammar.Authoring
import TracedGrammar.Proofs.Normalization.ActionSites

/-!
# Trees of a sequence after normalization

A tree of a sequence goes from its symbol down to its letters.  There always is one, and every tree
invokes the action of the sequence once, as long as elision has not left the symbol of the sequence
out of a step.  When it has, there is a tree that invokes no action.
-/

namespace TracedGrammar

namespace Grammar

variable {grammar result : Grammar History} {sequence : Sequence History}

/-- A derivation tree for the symbol of a sequence, down to its letters. -/
structure IsSequenceTree (rules : List (Rule History)) (sequence : Sequence History)
    (forest : Forest) : Prop where
  fits : forest.Fits rules [sequence.lhs]
  leaves : ∀ symbol ∈ forest.leaves, sequence.repetition.IsLetter symbol
  alone : forest.LeavesAlone rules sequence.repetition.IsLetter

theorem isSequenceTree_node {rules : List (Rule History)} {index : Nat} {rule : Rule History}
    (found : rules[index]? = some rule) (lhs : rule.lhs = sequence.lhs)
    (free : ¬sequence.repetition.IsLetter sequence.lhs)
    (letters : ∀ symbol ∈ rule.rhs, sequence.repetition.IsLetter symbol) :
    IsSequenceTree rules sequence (.node index (.row rule.rhs) .nil) where
  fits := by
    rw [← lhs]
    exact .node found (Forest.fits_row _) .nil
  leaves := by
    intro symbol occurs
    rw [Forest.leaves, Forest.leaves_row, Forest.leaves, List.append_nil] at occurs
    exact letters symbol occurs
  alone := by
    intro other applied another foundOther
    rw [Forest.applied, Forest.applied_row] at applied
    obtain rfl := List.mem_singleton.mp applied
    rw [found, Option.some.injEq] at foundOther
    rwa [← foundOther, lhs]

section Normalization

variable {limits : Limits}

/-- What a rule of the expansion writes still derives in the end, without steps from symbols that
were there before and that the rule is not for. -/
theorem NormalizesTo.derives_rhs (normalizes : grammar.NormalizesTo limits result)
    {frozen : Symbol → Prop} (old : ∀ symbol, frozen symbol → symbol ∈ normalizes.eliminated.supply)
    {rule : Rule History} (member : rule ∈ normalizes.expanded.rules) (free : ¬frozen rule.lhs) :
    TracedGrammar.Derives (fun symbol middle => DirectBy result.rules symbol middle ∧ ¬frozen symbol)
      [rule.lhs] rule.rhs := by
  obtain ⟨other, inRules, lhs, rhs⟩ := normalizes.eliminates.exists_whole member
  obtain ⟨split, inChain, rfl⟩ := normalizes.binarizes.exists_split inRules
  rw [← lhs] at free
  rw [← lhs, ← rhs]
  apply split.derives_rhs.mono
  rintro _ _ ⟨inPieces⟩
  have inBinarized := normalizes.binarizes.mem_rules_iff.mpr ⟨split, inChain, inPieces⟩
  refine ⟨normalizes.directBy_iff.mpr (.rule inBinarized), ?_⟩
  rcases normalizes.binarizes.lhs_piece inChain inPieces with same | new
  · rwa [same]
  · exact fun isFrozen => new (old _ isFrozen)

variable (separate : grammar.IsSeparate sequence)
  (normalizes : grammar.NormalizesTo limits result)
include separate normalizes

theorem IsSeparate.letter_mem {letter : Symbol} (isLetter : sequence.repetition.IsLetter letter) :
    letter ∈ normalizes.eliminated.supply := by
  rw [normalizes.eliminates.supply_eq]
  exact normalizes.expands.mem_supply (separate.letters letter isLetter).1

theorem IsSeparate.balanced_normalized
    (intact : ¬(sequence.repetition.IsRecursive ∧ sequence.history.elision = none ∧
      sequence.lhs ∈ normalizes.expanded.nullableSymbols)) :
    Balanced result.rules
      (InsideChains (SequencePart normalizes.sequences sequence) sequence.repetition.IsLetter
        normalizes.splits)
      sequence.repetition.IsLetter
      (fun symbol => weigh (siteWeight sequence) (SplitRule.abbreviated normalizes.splits symbol))
      (Rule.isSiteOf sequence.history.origin) := by
  have eliminated := normalizes.eliminates.balanced
    (fun _ rhs elision => Rule.isSiteOf_variant rhs elision)
    (fun rule member inside free admits symbol occurs isNullable =>
      separate.siteWeight_eq_zero normalizes.expands intact member inside free admits occurs
        isNullable)
    (separate.balanced normalizes.expands)
  have binarized := normalizes.binarizes.balanced ?_ ?_ eliminated ?_ ?_
  · exact binarized.of_map_eq (normalizes.view_eq Rule.hidesPrecedence_isSiteOf)
  · intro rule member
    obtain ⟨origin, inRules, same, _⟩ := normalizes.eliminates.exists_thinned member
    rw [same, normalizes.eliminates.supply_eq]
    exact normalizes.expands.lhs_mem separate.defined inRules
  · intro symbol inside
    rw [normalizes.eliminates.supply_eq]
    exact separate.part_mem normalizes.expands inside
  · intro rule link top
    rw [Rule.isSiteOf_piece, ChainPiece.isTop, top]
    simp
  · intro rule link _ below
    rw [Rule.isSiteOf_piece, ChainPiece.isTop, beq_eq_false_iff_ne.mpr below, Bool.and_false]

/-- Where elision leaves the expansion intact every tree has one site, or none when the action is not
invoked at all. -/
theorem IsSeparate.countMarked_eq
    (intact : ¬(sequence.repetition.IsRecursive ∧ sequence.history.elision = none ∧
      sequence.lhs ∈ normalizes.expanded.nullableSymbols))
    {forest : Forest} (tree : IsSequenceTree result.rules sequence forest) :
    forest.countMarked result.rules (Rule.isSiteOf sequence.history.origin) =
      sequence.history.actionSite.toNat := by
  have itself {symbol : Symbol} (old : symbol ∈ normalizes.eliminated.supply) :
      weigh (siteWeight sequence) (SplitRule.abbreviated normalizes.splits symbol) =
        siteWeight sequence symbol := by
    rw [SplitRule.abbreviated_of_mem normalizes.binarizes.chained old]
    rfl
  have lhsOld : sequence.lhs ∈ normalizes.eliminated.supply := by
    rw [normalizes.eliminates.supply_eq]
    exact normalizes.expands.mem_supply separate.lhs_mem
  have conserved := Forest.countMarked_add_weigh_leaves
    (separate.balanced_normalized normalizes intact) tree.fits ?_ tree.alone
  · rw [weigh_eq_zero, weigh_cons, itself lhsOld, siteWeight_lhs] at conserved
    · exact conserved
    · intro symbol member
      have isLetter := tree.leaves symbol member
      rw [itself (separate.letter_mem normalizes isLetter)]
      exact siteWeight_of_ne (separate.letters symbol isLetter).2
  · intro symbol member
    rw [List.mem_singleton.mp member]
    exact .inl (.inl rfl)

theorem IsSeparate.exists_tree : ∃ forest, IsSequenceTree result.rules sequence forest := by
  obtain ⟨expanded, inChain, rfl⟩ := normalizes.expands.exists_expanded separate.member
  obtain ⟨word, written⟩ := expanded.valid.exists_mem
  have inExpansion : TracedGrammar.Derives (DirectBy expanded.rules) [expanded.sequence.lhs] word :=
    expanded.derives_of_mem (fun _ inside => .rule inside) written
  have derives : TracedGrammar.Derives (fun symbol middle => DirectBy result.rules symbol middle ∧
      ¬expanded.sequence.repetition.IsLetter symbol) [expanded.sequence.lhs] word := by
    apply inExpansion.lift
    rintro _ _ ⟨inRules⟩
    refine normalizes.derives_rhs (fun _ isLetter => separate.letter_mem normalizes isLetter)
      (normalizes.expands.mem_rules_iff.mpr (.inr ⟨expanded, inChain, inRules⟩)) fun isLetter => ?_
    obtain ⟨top, symbol, part, writes, row, _, rfl⟩ := expanded.mem_rules_iff.mp inRules
    obtain ⟨known, different⟩ := separate.letters _ isLetter
    cases writes with
    | top => exact different rfl
    | helper inOrder => exact normalizes.expands.chained.helper_not_mem inChain inOrder known
  obtain ⟨forest, fits, rfl, alone⟩ := Forest.exists_fits_leavesAlone derives
  exact ⟨forest, fits, fun _ occurs => Repetition.isLetter_of_mem written occurs, alone⟩

/-- The step of a nullable sequence is also normalized to a rule that only writes the letters of the
step, and is no site. -/
theorem IsSeparate.exists_step_without_lhs (recursive : sequence.repetition.IsRecursive)
    (elidable : sequence.history.elision = none)
    (nullable : sequence.lhs ∈ normalizes.expanded.nullableSymbols) :
    ∃ rule ∈ result.rules, rule.lhs = sequence.lhs ∧ rule.rhs = sequence.repetition.step ∧
      rule.isSiteOf sequence.history.origin = false := by
  obtain ⟨expanded, inChain, rfl⟩ := normalizes.expands.exists_expanded separate.member
  let step := expanded.ruleFor true expanded.sequence.lhs
    (.self :: expanded.sequence.repetition.step.map .symbol)
  have inExpanded : step ∈ normalizes.expanded.rules :=
    normalizes.expands.mem_rules_iff.mpr
      (.inr ⟨expanded, inChain, expanded.step_mem_rules recursive⟩)
  have thinned : Thinned normalizes.expanded.nullableSymbols step.rhs
      expanded.sequence.repetition.step := by
    rw [expanded.rhs_ruleFor_step]
    exact .drop nullable (.refl _)
  obtain ⟨elision, inEliminated⟩ := normalizes.eliminates.exists_variant inExpanded
    (Rule.admitsElision_iff.mpr elidable) thinned
  obtain ⟨rule, inRules, same⟩ := normalizes.exists_of_short Rule.hidesPrecedence_isSiteOf
    inEliminated expanded.sequence.repetition.length_step_le_two
  rw [Rule.isSiteOf_variant, expanded.isSiteOf_ruleFor] at same
  simp only [Prod.mk.injEq] at same
  refine ⟨rule, inRules, same.1, same.2.1, same.2.2.trans ?_⟩
  simp

theorem IsSeparate.exists_tree_without_site (recursive : sequence.repetition.IsRecursive)
    (elidable : sequence.history.elision = none)
    (nullable : sequence.lhs ∈ normalizes.expanded.nullableSymbols) :
    ∃ forest, IsSequenceTree result.rules sequence forest ∧
      forest.countMarked result.rules (Rule.isSiteOf sequence.history.origin) = 0 := by
  obtain ⟨rule, inRules, lhs, rhs, noSite⟩ :=
    separate.exists_step_without_lhs normalizes recursive elidable nullable
  obtain ⟨index, found⟩ := List.getElem?_of_mem inRules
  refine ⟨_, isSequenceTree_node found lhs ?_ ?_, ?_⟩
  · exact fun isLetter => (separate.letters _ isLetter).2 rfl
  · rw [rhs]
    exact fun _ => Repetition.isLetter_of_mem_step
  · rw [Forest.countMarked_node_row found, noSite]
    rfl

end Normalization

/-- Elision leaves the symbol of the sequence out of a step of its own expansion: the sequence is
expanded with itself, nothing has been left out of it before, and its symbol has become nullable. -/
def ElidesStep (grammar : Grammar History) (limits : Limits) (sequence : Sequence History) : Prop :=
  sequence.repetition.IsRecursive ∧ sequence.history.elision = none ∧
    ∃ expanded, (grammar.expandSequences limits).result = .ok expanded ∧
      expanded.Derives [sequence.lhs] []

theorem NormalizesTo.elidesStep_iff {limits : Limits}
    (normalizes : grammar.NormalizesTo limits result) :
    grammar.ElidesStep limits sequence ↔
      sequence.repetition.IsRecursive ∧ sequence.history.elision = none ∧
        sequence.lhs ∈ normalizes.expanded.nullableSymbols := by
  rw [mem_nullableSymbols_iff, ← derives_iff_directBy normalizes.expands.plain]
  constructor
  · rintro ⟨recursive, elidable, expanded, succeeds, derives⟩
    rw [normalizes.succeeds] at succeeds
    cases succeeds
    exact ⟨recursive, elidable, derives⟩
  · rintro ⟨recursive, elidable, derives⟩
    exact ⟨recursive, elidable, _, normalizes.succeeds, derives⟩

/-- After normalization every tree of a sequence that alone defines its symbol invokes the action of
the sequence once, if its history is that of an action site and elision does not leave its symbol
out of a step, and only then. -/
theorem normalize_invokes_once_iff {limits : Limits} (separate : grammar.IsSeparate sequence)
    (succeeds : (grammar.normalize limits).result = .ok result) :
    (∀ forest, IsSequenceTree result.rules sequence forest →
      forest.countMarked result.rules (Rule.isSiteOf sequence.history.origin) = 1) ↔
      sequence.history.actionSite = true ∧ ¬grammar.ElidesStep limits sequence := by
  obtain ⟨normalizes⟩ := exists_normalizesTo succeeds
  rw [normalizes.elidesStep_iff]
  constructor
  · intro once
    have intact : ¬(sequence.repetition.IsRecursive ∧ sequence.history.elision = none ∧
        sequence.lhs ∈ normalizes.expanded.nullableSymbols) := by
      rintro ⟨recursive, elidable, nullable⟩
      obtain ⟨forest, tree, none⟩ :=
        separate.exists_tree_without_site normalizes recursive elidable nullable
      have one := once forest tree
      rw [none] at one
      cases one
    obtain ⟨forest, tree⟩ := separate.exists_tree normalizes
    have one := once forest tree
    rw [separate.countMarked_eq normalizes intact tree] at one
    exact ⟨Bool.toNat_eq_one.mp one, intact⟩
  · rintro ⟨site, intact⟩ forest tree
    rw [separate.countMarked_eq normalizes intact tree, site]
    rfl

/-- A sequence of ones with an action. -/
def ones (most : Option Nat) : Sequence History where
  lhs := ⟨0⟩
  repetition := { item := ⟨1⟩, most }
  history := { origin := some (.sequence 0), action := some ⟨1⟩ }

def onesList (most : Option Nat) : Grammar History :=
  { supply := ⟨2⟩, sequences := [ones most] }

theorem onesList_isSeparate (most : Option Nat) : (onesList most).IsSeparate (ones most) where
  member := List.mem_singleton_self _
  only := ⟨by simp [onesList], fun _ inside _ => List.mem_singleton.mp inside⟩
  defined := by
    rintro symbol (⟨rule, inRules, _⟩ | ⟨sequence, member, rfl⟩)
    · cases inRules
    · rw [List.mem_singleton.mp member]
      exact (by decide : (⟨0⟩ : Symbol) ∈ SymbolSupply.mk 2)
  letters := by
    rintro letter (rfl | separates)
    · exact (by decide : (⟨1⟩ : Symbol) ∈ SymbolSupply.mk 2 ∧ (⟨1⟩ : Symbol) ≠ ⟨0⟩)
    · cases separates

theorem twoOnes_invokes_once :
    ∃ result, ((onesList (some 2)).normalize {}).result = .ok result ∧
      ∀ forest, IsSequenceTree result.rules (ones (some 2)) forest →
        forest.countMarked result.rules (Rule.isSiteOf (some (.sequence 0))) = 1 := by
  obtain ⟨result, succeeds⟩ :=
    exists_eq_ok (by cbv : ((onesList (some 2)).normalize {}).result.toBool = true)
  refine ⟨result, succeeds,
    (normalize_invokes_once_iff (onesList_isSeparate (some 2)) succeeds).mpr ⟨rfl, ?_⟩⟩
  rintro ⟨⟨unbounded, _⟩, _⟩
  cases unbounded

/-- When there may be any number of ones, a single one is also derived by the step without its
symbol, and that invokes nothing. -/
theorem manyOnes_not_invokes_once :
    (({ supply := ⟨2⟩ } : Grammar History).writeSequence ⟨0⟩ { item := ⟨1⟩ }).2.setAction
        (.sequence 0) ⟨1⟩ = .ok (onesList none) ∧
      (onesList none).IsSeparate (ones none) ∧
      ∃ result, ((onesList none).normalize {}).result = .ok result ∧
        ¬∀ forest, IsSequenceTree result.rules (ones none) forest →
          forest.countMarked result.rules (Rule.isSiteOf (some (.sequence 0))) = 1 := by
  refine ⟨rfl, onesList_isSeparate none, ?_⟩
  have shown : ((onesList none).normalize {}).result.toOption.map (fun result =>
      result.rules.map fun rule => (rule.lhs, rule.rhs, rule.isSiteOf (some (.sequence 0)))) =
      some [(⟨0⟩, [], true), (⟨0⟩, [⟨0⟩, ⟨1⟩], false), (⟨0⟩, [⟨1⟩], false)] := by cbv
  cases succeeds : ((onesList none).normalize {}).result with
  | error failure =>
      rw [succeeds] at shown
      cases shown
  | ok result =>
      rw [succeeds] at shown
      refine ⟨result, rfl, fun once => ?_⟩
      have third := congrArg (fun views => views[2]?) (Option.some.inj shown)
      rw [List.getElem?_map] at third
      obtain ⟨rule, found, same⟩ := Option.map_eq_some_iff.mp third
      simp only [Prod.mk.injEq] at same
      obtain ⟨lhs, rhs, noSite⟩ := same
      have free : ¬(ones none).repetition.IsLetter ⟨0⟩ := fun isLetter =>
        ((onesList_isSeparate none).letters _ isLetter).2 rfl
      have tree := isSequenceTree_node found lhs free ?_
      · have one := once _ tree
        rw [Forest.countMarked_node_row found, noSite] at one
        cases one
      · rw [rhs]
        intro symbol occurs
        exact .inl (List.mem_singleton.mp occurs)

end Grammar

end TracedGrammar
