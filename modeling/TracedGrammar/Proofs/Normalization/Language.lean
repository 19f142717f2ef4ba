import Mathlib
import TracedGrammar.Proofs.Authoring.Edits
import TracedGrammar.Proofs.History.Tracked
import TracedGrammar.Proofs.Normalization.Passes

/-!
# What derives in a normalized grammar

A grammar as it is written and its normalization derive the same words of terminals, apart from the
empty one.  For those the normalization does without rules with an empty right-hand side.
-/

namespace TracedGrammar

namespace Grammar

variable {H : Type} [RuleHistory H]

namespace NormalizesTo

variable {grammar result : Grammar H} {limits : Limits}
  (normalizes : grammar.NormalizesTo limits result)

include normalizes

theorem directBy_nonemptyRules_iff {symbol : Symbol} {word : List Symbol} :
    DirectBy result.nonemptyRules symbol word ↔
      DirectBy normalizes.binarized.nonemptyRules symbol word := by
  rw [Grammar.directBy_nonemptyRules_iff, Grammar.directBy_nonemptyRules_iff,
    normalizes.directBy_iff]

theorem length_rhs_le_two
    (splits : ∀ rule ∈ normalizes.eliminated.rules, 2 < rule.rhs.length → rule.admitsSplit = true)
    {rule : Rule H} (member : rule ∈ result.rules) : rule.rhs.length ≤ 2 := by
  have shape : (rule.lhs, rule.rhs) ∈ result.rules.map fun rule => (rule.lhs, rule.rhs) :=
    List.mem_map.mpr ⟨rule, member, rfl⟩
  rw [normalizes.view_eq hidesPrecedence_shape] at shape
  obtain ⟨piece, inPieces, same⟩ := List.mem_map.mp shape
  rw [← (Prod.mk.inj same).2]
  exact normalizes.binarizes.length_rhs_le_two splits inPieces

theorem usesAllocated_eliminated (uses : grammar.UsesAllocated) :
    normalizes.eliminated.UsesAllocated :=
  normalizes.eliminates.usesAllocated (normalizes.expands.usesAllocated uses)

/-- What happens after the elimination of nullable symbols makes no difference. -/
theorem derives_nonemptyRules_eliminated_iff (uses : grammar.UsesAllocated)
    {symbols word : List Symbol}
    (oldSymbols : ∀ symbol ∈ symbols, symbol ∈ normalizes.eliminated.supply)
    (oldWord : ∀ symbol ∈ word, symbol ∈ normalizes.eliminated.supply) :
    TracedGrammar.Derives (DirectBy result.nonemptyRules) symbols word ↔
      TracedGrammar.Derives (DirectBy normalizes.eliminated.nonemptyRules) symbols word := by
  rw [← normalizes.binarizes.derives_nonemptyRules_iff (normalizes.usesAllocated_eliminated uses)
    oldSymbols oldWord]
  exact TracedGrammar.Derives.congr fun _ _ => normalizes.directBy_nonemptyRules_iff

/-- Terminal words that are not empty derive as before. -/
theorem derives_nonemptyRules_iff (uses : grammar.UsesAllocated)
    (alone : ∀ sequence ∈ grammar.sequences, grammar.IsOnlyDefinition sequence)
    (admits : ∀ rule ∈ normalizes.expanded.rules, rule.admitsElision = true)
    {symbol : Symbol} (allocated : symbol ∈ grammar.supply) {word : List Symbol}
    (nonempty : word ≠ []) (terminal : ∀ other ∈ word, grammar.IsTerminal other) :
    TracedGrammar.Derives (DirectBy result.nonemptyRules) [symbol] word ↔
      grammar.Derives [symbol] word := by
  have old {other : Symbol} (member : other ∈ grammar.supply) :
      other ∈ normalizes.eliminated.supply := by
    rw [normalizes.eliminates.supply_eq]
    exact normalizes.expands.mem_supply member
  rw [normalizes.derives_nonemptyRules_eliminated_iff uses (by simpa using old allocated)
      (fun other member => old (terminal other member).1),
    normalizes.eliminates.derives_nonemptyRules_iff admits (fun _ => mem_nullableSymbols_iff)
      nonempty, ← derives_iff_directBy normalizes.expands.plain]
  constructor
  · refine normalizes.expands.derives_of_derives uses (fun _ inside => inside.1) ?_
      (by simpa using allocated) terminal
    intro sequence member recursive
    apply ((alone sequence member).absorbsStep member recursive).mono
    rintro other isTerminal rfl
    exact isTerminal.2 (.inr ⟨sequence, member, rfl⟩)
  · exact normalizes.expands.derives

end NormalizesTo

theorem ExpandsTo.admitsElision {grammar result : Grammar History}
    {chain : List (ExpandedSequence History)} (expands : grammar.ExpandsTo result chain)
    (histories : grammar.Histories fun history => history.isAuthored = true) {rule : Rule History}
    (member : rule ∈ result.rules) : rule.admitsElision = true := by
  rw [Rule.admitsElision_iff]
  rcases expands.mem_rules_iff.mp member with authored | ⟨expanded, inChain, new⟩
  · exact History.elision_eq_none_of_isAuthored (histories.rule rule authored)
  · obtain ⟨production, _, rfl⟩ := List.mem_map.mp new
    have none := History.elision_eq_none_of_isAuthored
      (histories.sequence _ (expands.mem_sequences inChain))
    exact none

/-- A grammar that was written without histories by hand, and in which nothing else defines the
symbol of a sequence, is normalized to one without sequences and with at most two symbols on each
right-hand side.  From every symbol they derive the same words of terminals, apart from the empty
one, where the normalized grammar only uses rules with a right-hand side. -/
theorem normalize_derives_iff {grammar result : Grammar History} {limits : Limits}
    (authored : grammar.Authored fun _ => False) (uses : grammar.UsesAllocated)
    (alone : ∀ sequence ∈ grammar.sequences, grammar.IsOnlyDefinition sequence)
    (succeeds : (grammar.normalize limits).result = .ok result) :
    result.sequences = [] ∧ (∀ rule ∈ result.rules, rule.rhs.length ≤ 2) ∧
      ∀ symbol ∈ grammar.supply, ∀ word : List Symbol, word ≠ [] →
        (∀ other ∈ word, grammar.IsTerminal other) →
          (grammar.Derives [symbol] word ↔
            TracedGrammar.Derives (DirectBy result.nonemptyRules) [symbol] word) := by
  obtain ⟨normalizes⟩ := exists_normalizesTo succeeds
  have histories := authored.histories History.holdsOfWritten_isAuthored (by simp)
  refine ⟨normalizes.plain, ?_, ?_⟩
  · intro rule member
    exact normalizes.length_rhs_le_two (fun _ _ => Rule.admitsSplit_of_long) member
  · intro symbol allocated word nonempty terminal
    exact (normalizes.derives_nonemptyRules_iff uses alone
      (fun _ member => normalizes.expands.admitsElision histories member) allocated nonempty
      terminal).symm

/-- Items with separators between them, where an item is a letter or nothing. -/
def itemList : Grammar History :=
  (((({ supply := ⟨4⟩ } : Grammar History).writeRule ⟨1⟩ [⟨3⟩]).2.writeRule ⟨1⟩ []).2.writeSequence
    ⟨0⟩ { item := ⟨1⟩, separator := .proper ⟨2⟩ }).2

theorem itemList_normalize_derives_iff :
    ∃ result, (itemList.normalize {}).result = .ok result ∧
      result.sequences = [] ∧ (∀ rule ∈ result.rules, rule.rhs.length ≤ 2) ∧
        ∀ symbol ∈ itemList.supply, ∀ word : List Symbol, word ≠ [] →
          (∀ other ∈ word, itemList.IsTerminal other) →
            (itemList.Derives [symbol] word ↔
              TracedGrammar.Derives (DirectBy result.nonemptyRules) [symbol] word) := by
  obtain ⟨result, succeeds⟩ := exists_eq_ok (by cbv : (itemList.normalize {}).result.toBool = true)
  refine ⟨result, succeeds, normalize_derives_iff ⟨⟨4⟩, ?_⟩ ?_ ?_ succeeds⟩
  · exact ((Relation.ReflTransGen.refl.tail (.rule _ ⟨1⟩ [⟨3⟩])).tail (.rule _ ⟨1⟩ [])).tail
      (.sequence _ ⟨0⟩ _)
  · exact
      { lhs_mem := by decide
        rhs_mem := by decide
        sequence_mem := by decide
        letter_mem := by
          intro sequence member letter
          rw [List.mem_singleton.mp member]
          rintro (rfl | separates)
          · decide
          · cases separates
            decide }
  · intro sequence member
    rw [List.mem_singleton.mp member]
    exact ⟨by decide, fun other inside _ => List.mem_singleton.mp inside⟩

end Grammar

end TracedGrammar
