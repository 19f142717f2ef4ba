import Mathlib
import TracedGrammar.Proofs.History.Tracked
import TracedGrammar.Proofs.Nulling.Language

/-!
# What nulling elimination keeps

The main statements say what a grammar and its elimination derive alike.  With the set of the nullable
symbols the grammars derive the same words, and the rules with an empty right-hand side are only needed
for the empty word.  With any other set the elimination derives what the grammar does when the symbols
of the set may stand for nothing, except that such a symbol need not derive the empty word any more.
-/

namespace TracedGrammar

namespace Grammar

variable {H : Type} [RuleHistory H] {grammar result : Grammar H} {nullable : SymbolSet}
  {blocks : List (List (Rule H))}

namespace EliminatesTo

variable (eliminates : grammar.EliminatesTo result nullable blocks)
include eliminates

/-- The empty word derives as before: a rule whose symbols are all nullable has a variant without any
of them. -/
theorem derives_nil_iff (admits : ∀ rule ∈ grammar.rules, rule.admitsElision = true)
    (exact : ∀ symbol, symbol ∈ nullable ↔
      TracedGrammar.Derives (DirectBy grammar.rules) [symbol] []) {symbol : Symbol} :
    TracedGrammar.Derives (DirectBy result.rules) [symbol] [] ↔
      TracedGrammar.Derives (DirectBy grammar.rules) [symbol] [] := by
  constructor
  · exact eliminates.derives_of_derives (fun _ _ step => step) fun other => (exact other).mp
  · intro derives
    rcases TracedGrammar.Derives.singleton_iff.mp derives with impossible | ⟨middle, step, below⟩
    · cases impossible
    · obtain ⟨member⟩ := step
      have none := Thinned.nil_of_derives (fun other => (exact other).mpr) below
      obtain ⟨elision, variant⟩ := eliminates.exists_variant member (admits _ member) none
      exact .of_direct (.rule variant)

theorem derives_withEmptyRules_iff (admits : ∀ rule ∈ grammar.rules, rule.admitsElision = true)
    {symbol : Symbol} {word : List Symbol} (stays : word = [] → symbol ∉ nullable) :
    TracedGrammar.Derives (DirectBy result.rules) [symbol] word ↔
      TracedGrammar.Derives (DirectBy (grammar.withEmptyRules nullable).rules) [symbol] word := by
  constructor
  · refine eliminates.derives_of_derives (fun _ _ step => directBy_withEmptyRules_iff.mpr (.inl step))
      fun other member => .of_direct ?_
    exact directBy_withEmptyRules_iff.mpr (.inr ⟨member, rfl⟩)
  · intro derives
    exact (eliminates.derives_of_derives_withEmptyRules admits stays derives).mono
      fun _ _ step => step.1

end EliminatesTo

/-- When no symbols have been left out of the rules before, the elimination of the nullable symbols
keeps what every symbol derives, and for words that are not empty it does so without rules that have an
empty right-hand side. -/
theorem eliminateNulling_derives_iff {grammar result : Grammar History} {limits : Limits}
    (whole : ∀ rule ∈ grammar.rules, rule.history.elision = none)
    (succeeds : (grammar.eliminateNulling limits).result = .ok result) (symbol : Symbol) :
    (∀ word : List Symbol, word ≠ [] →
      (TracedGrammar.Derives (DirectBy grammar.rules) [symbol] word ↔
        TracedGrammar.Derives (DirectBy result.nonemptyRules) [symbol] word)) ∧
      (TracedGrammar.Derives (DirectBy grammar.rules) [symbol] [] ↔
        TracedGrammar.Derives (DirectBy result.rules) [symbol] []) := by
  obtain ⟨blocks, eliminates⟩ := exists_eliminatesTo succeeds
  have admits (rule : Rule History) (member : rule ∈ grammar.rules) : rule.admitsElision = true :=
    Rule.admitsElision_iff.mpr (whole rule member)
  constructor
  · intro word nonempty
    exact (eliminates.derives_nonemptyRules_iff admits (fun _ => mem_nullableSymbols_iff)
      nonempty).symm
  · exact (eliminates.derives_nil_iff admits fun _ => mem_nullableSymbols_iff).symm

/-- A symbol stands for two of itself, for a letter, or for a pair of symbols that both may be
empty. -/
def doubling : Grammar History :=
  { supply := ⟨3⟩
    rules := [⟨⟨0⟩, [⟨0⟩, ⟨0⟩], {}⟩, ⟨⟨0⟩, [⟨2⟩], {}⟩, ⟨⟨0⟩, [⟨1⟩, ⟨1⟩], {}⟩, ⟨⟨1⟩, [⟨0⟩], {}⟩,
      ⟨⟨1⟩, [], {}⟩]
    stage := .sequenceExpanded
    authoredFrom := 5 }

theorem doubling_eliminateNulling_derives_iff :
    ∃ result, (doubling.eliminateNulling {}).result = .ok result ∧ ∀ symbol : Symbol,
      (∀ word : List Symbol, word ≠ [] →
        (TracedGrammar.Derives (DirectBy doubling.rules) [symbol] word ↔
          TracedGrammar.Derives (DirectBy result.nonemptyRules) [symbol] word)) ∧
        (TracedGrammar.Derives (DirectBy doubling.rules) [symbol] [] ↔
          TracedGrammar.Derives (DirectBy result.rules) [symbol] []) := by
  obtain ⟨result, succeeds⟩ :=
    exists_eq_ok (by cbv : (doubling.eliminateNulling {}).result.toBool = true)
  exact ⟨result, succeeds, eliminateNulling_derives_iff (by decide) succeeds⟩

/-- When no symbols have been left out of the rules before, to eliminate the symbols of any set is as
good as to let them stand for nothing, apart from the empty word for the symbols of the set
themselves. -/
theorem eliminateNullingWith_derives_iff {grammar result : Grammar History} {nullable : SymbolSet}
    {limits : Limits} (whole : ∀ rule ∈ grammar.rules, rule.history.elision = none)
    (succeeds : (grammar.eliminateNullingWith nullable limits).result = .ok result)
    {symbol : Symbol} {word : List Symbol} (stays : word = [] → symbol ∉ nullable) :
    TracedGrammar.Derives (DirectBy result.rules) [symbol] word ↔
      TracedGrammar.Derives (DirectBy (grammar.withEmptyRules nullable).rules) [symbol] word := by
  obtain ⟨blocks, eliminates⟩ := exists_eliminatesTo succeeds
  exact eliminates.derives_withEmptyRules_iff
    (fun rule member => Rule.admitsElision_iff.mpr (whole rule member)) stays

/-- Here the set has a letter, and not the symbols that are nullable. -/
theorem doubling_eliminateNullingWith_derives_iff :
    ∃ result, (doubling.eliminateNullingWith (.ofList [⟨2⟩]) {}).result = .ok result ∧
      ∀ word : List Symbol, TracedGrammar.Derives (DirectBy result.rules) [⟨0⟩] word ↔
        TracedGrammar.Derives (DirectBy (doubling.withEmptyRules (.ofList [⟨2⟩])).rules) [⟨0⟩]
          word := by
  obtain ⟨result, succeeds⟩ := exists_eq_ok
    (by cbv : (doubling.eliminateNullingWith (.ofList [⟨2⟩]) {}).result.toBool = true)
  exact ⟨result, succeeds, fun _ => eliminateNullingWith_derives_iff (by decide) succeeds
    fun _ => by decide⟩

end Grammar

end TracedGrammar
