import TracedGrammar.Proofs.Run.Commuting
import TracedGrammar.Proofs.Run.Decoding

/-!
# What precedence is resolved to

The rules of a grammar that is never sorted are whole, or they are the links of chains.  So for every
rule there is one word that was on the right-hand side before rules were split.  When precedence is
resolved, a rule without one takes what is declared for the rightmost declared symbol of this word, and
to resolve precedence once more changes nothing.
-/

namespace TracedGrammar

/-- What is declared for the last symbol of a word that has a declaration, if there is one. -/
inductive PrecedenceTable.Rightmost (table : PrecedenceTable) :
    List Symbol → Option Precedence → Prop
  | absent {word : List Symbol} (undeclared : ∀ symbol ∈ word, table.find? symbol = none) :
      Rightmost table word none
  | present {before after : List Symbol} {symbol : Symbol} {precedence : Precedence}
      (declared : table.find? symbol = some precedence)
      (undeclared : ∀ later ∈ after, table.find? later = none) :
      Rightmost table (before ++ symbol :: after) (some precedence)

theorem PrecedenceTable.rightmost_rightmost? (table : PrecedenceTable) (word : List Symbol) :
    table.Rightmost word (table.rightmost? word) := by
  cases found : table.rightmost? word with
  | none =>
      refine .absent fun symbol member => ?_
      exact List.findSome?_eq_none_iff.mp found symbol (List.mem_reverse.mpr member)
  | some precedence =>
      obtain ⟨after, symbol, before, reversed, declared, undeclared⟩ :=
        List.findSome?_eq_some_iff.mp found
      have written : word = before.reverse ++ symbol :: after.reverse := by
        rw [← List.reverse_reverse word, reversed]
        simp
      rw [written]
      exact .present declared fun later member => undeclared later (List.mem_reverse.mp member)

namespace ChainRule

variable {word other : List Symbol} {lhs otherLhs : Symbol} {supply otherSupply : SymbolSupply}

/-- From the bottom of a chain upwards the links show the word. -/
theorem wordAt_eq_of_link (lengths : word.length = other.length)
    (links : ∀ depth, depth + 2 ≤ word.length →
      link word lhs supply depth = link other otherLhs otherSupply depth)
    {depth : Nat} (bound : depth + 2 ≤ word.length) : wordAt word depth = wordAt other depth := by
  induction gap : word.length - (depth + 2) generalizing depth with
  | zero =>
      have here := congrArg ChainRule.rhs (links depth bound)
      rw [link, if_neg (by omega), link, if_neg (by omega)] at here
      exact here
  | succ gap induction =>
      have above : depth + 2 < word.length := by omega
      have alsoAbove : depth + 2 < other.length := by omega
      have here := congrArg (fun link => link.rhs.tail) (links depth bound)
      rw [link, if_pos above, link, if_pos alsoAbove] at here
      have last : word[word.length - (depth + 1)]?.toList =
          other[other.length - (depth + 1)]?.toList := here
      rw [wordAt_eq_append above, wordAt_eq_append alsoAbove, induction (by omega) (by omega), last]

/-- A word is split into other links than another word, whatever symbols the links get. -/
theorem eq_of_chain_eq (long : 2 < word.length) (alsoLong : 2 < other.length)
    (same : (chain word.length lhs 0 supply word.reverse).1 =
      (chain other.length otherLhs 0 otherSupply other.reverse).1) : word = other := by
  rw [chain_eq lhs supply (by omega), chain_eq otherLhs otherSupply (by omega)] at same
  have lengths : word.length = other.length := by
    have sizes := congrArg List.length same
    simp only [List.length_map, List.length_range] at sizes
    omega
  rw [← lengths] at same
  have links (depth : Nat) (bound : depth + 2 ≤ word.length) :=
    List.map_inj_left.mp same depth (List.mem_range.mpr (by omega))
  have whole := wordAt_eq_of_link lengths links (by omega : 0 + 2 ≤ word.length)
  rwa [wordAt_zero, wordAt_zero] at whole

end ChainRule

namespace Grammar

variable {owned : Symbol → Prop} {grammar resolved : Grammar History}
  {splits : List (SplitRule History)}

/-- There is a rule at an index, and it is not below the top of a chain. -/
def IsTop (grammar : Grammar History) (index : Nat) : Prop :=
  ∃ rule, grammar.rules[index]? = some rule ∧ rule.isBelowTop = false

/-- Some rules, the top first, are what a rule with a long word is split into, or there is only one, and
it was never split. -/
inductive Spells (grammar : Grammar History) : List Nat → List Symbol → Prop
  | whole {index : Nat} {rule : Rule History} (found : grammar.rules[index]? = some rule)
      (unsplit : rule.history.chainPiece = none) : Spells grammar [index] rule.rhs
  | split {indices : List Nat} {lhs : Symbol} {supply : SymbolSupply} {word : List Symbol}
      (long : 2 < word.length)
      (links : indices.map grammar.linkOf? =
        (ChainRule.chain word.length lhs 0 supply word.reverse).1.map some) :
      Spells grammar indices word

theorem Spells.unique {indices : List Nat} {word other : List Symbol}
    (spells : grammar.Spells indices word) (also : grammar.Spells indices other) : word = other := by
  have several {index : Nat} {lhs : Symbol} {supply : SymbolSupply} {word : List Symbol}
      (long : 2 < word.length) : [index].map grammar.linkOf? ≠
        (ChainRule.chain word.length lhs 0 supply word.reverse).1.map some := by
    intro links
    have sizes := congrArg List.length links
    rw [ChainRule.chain_eq lhs supply (by omega)] at sizes
    simp only [List.length_map, List.length_range, List.length_singleton] at sizes
    omega
  cases spells with
  | whole found =>
      cases also with
      | whole again => rw [Option.some.inj (found.symm.trans again)]
      | split long links => exact absurd links (several long)
  | split long links =>
      cases also with
      | whole => exact absurd links (several long)
      | split alsoLong alsoLinks =>
          have same := List.map_injective_iff.mpr (Option.some_injective _) (links.symm.trans alsoLinks)
          exact ChainRule.eq_of_chain_eq long alsoLong same

/-- Rules differ in nothing but their precedence, and a rule that has one keeps it.  Every rule belongs to
one chain, which spells one word, and if it has no precedence, it takes what is declared for the rightmost
declared symbol of this word.  So a chain has one precedence for all of its pieces. -/
structure RanksTo (grammar resolved : Grammar History) : Prop where
  same : List.Forall₂ (fun rule other => ∃ precedence, other = rule.withPrecedence precedence)
    grammar.rules resolved.rules
  keeps : ∀ (index : Nat) (rule : Rule History), grammar.rules[index]? = some rule →
    rule.hasPrecedence = true → resolved.rules[index]? = some rule
  existsUnique_top : ∀ index < grammar.rules.length,
    ∃! top, grammar.IsTop top ∧ index ∈ grammar.chains.pieces top
  existsUnique_word : ∀ top, grammar.IsTop top → ∃! word, grammar.Spells (grammar.chains.pieces top) word
  takes : ∀ (top : Nat) (word : List Symbol), grammar.IsTop top →
    grammar.Spells (grammar.chains.pieces top) word → ∀ index ∈ grammar.chains.pieces top,
    ∀ rule, grammar.rules[index]? = some rule → rule.hasPrecedence = false →
    ∃ precedence, grammar.declared.Rightmost word precedence ∧
      resolved.rules[index]? = some (rule.withPrecedence precedence)
  shares : ∀ top, grammar.IsTop top → ∀ first ∈ grammar.chains.pieces top,
    ∀ second ∈ grammar.chains.pieces top,
    (resolved.rules[first]?.map fun rule => rule.history.precedence) =
      resolved.rules[second]?.map fun rule => rule.history.precedence

section Chains

variable (inventory : grammar.HasLinks splits)
include inventory

/-- A rule that is not below the top of a chain is found from itself only. -/
theorem HasLinks.eq_of_mem_pieces_of_isTop {top index : Nat} (isTop : grammar.IsTop top)
    (also : grammar.IsTop index) (inPieces : index ∈ grammar.chains.pieces top) : top = index := by
  obtain ⟨rule, found, shallow⟩ := isTop
  obtain ⟨other, atIndex, alsoShallow⟩ := also
  rcases inventory.cases_of_mem_pieces found shallow inPieces with
    ⟨rfl, _⟩ | ⟨split, inSplits, recorded, piece, atPiece, link, isLink, isPiece⟩
  · rfl
  · obtain rfl := Option.some.inj (atIndex.symm.trans atPiece)
    obtain ⟨depth, _, rfl⟩ := SplitRule.mem_links.mp isLink
    rw [SplitRule.isBelowTop_of_linkAt isPiece, bne_eq_false_iff_eq] at alsoShallow
    subst alsoShallow
    exact inventory.index_eq_of_link found atIndex recorded isPiece

theorem HasLinks.mem_pieces_self {top : Nat} (isTop : grammar.IsTop top) :
    top ∈ grammar.chains.pieces top := by
  obtain ⟨rule, found, shallow⟩ := isTop
  rcases inventory.not_link_or_top (List.mem_of_getElem? found) shallow with
    unrecorded | ⟨split, inSplits, recorded⟩
  · rw [(pieces_of_not_link found unrecorded).2.1]
    exact List.mem_singleton_self top
  · exact (inventory.pieces_of_top inSplits found recorded).1.mem_self

theorem HasLinks.existsUnique_top_of_lt {index : Nat} (inside : index < grammar.rules.length) :
    ∃! top, grammar.IsTop top ∧ index ∈ grammar.chains.pieces top := by
  have found := List.getElem?_eq_getElem inside
  cases deep : grammar.rules[index].isBelowTop with
  | true => exact inventory.existsUnique_top found deep
  | false =>
      have isTop : grammar.IsTop index := ⟨_, found, deep⟩
      refine ⟨index, ⟨isTop, inventory.mem_pieces_self isTop⟩, ?_⟩
      rintro top ⟨alsoTop, inPieces⟩
      exact inventory.eq_of_mem_pieces_of_isTop alsoTop isTop inPieces

/-- The pieces of a chain spell the word that all of them were split from. -/
theorem HasLinks.spells_pieces {top : Nat} {rule : Rule History}
    (found : grammar.rules[top]? = some rule) (shallow : rule.isBelowTop = false) :
    grammar.Spells (grammar.chains.pieces top) (SplitRule.wordOf splits rule) ∧
      ∀ index ∈ grammar.chains.pieces top, ∃ piece, grammar.rules[index]? = some piece ∧
        SplitRule.wordOf splits piece = SplitRule.wordOf splits rule := by
  rcases inventory.not_link_or_top (List.mem_of_getElem? found) shallow with
    unrecorded | ⟨split, inSplits, recorded⟩
  · rw [(pieces_of_not_link found unrecorded).2.1, wordOf_of_not_link unrecorded]
    refine ⟨.whole found (Option.map_eq_none_iff.mp unrecorded), fun index member => ?_⟩
    rw [List.mem_singleton.mp member]
    exact ⟨rule, found, wordOf_of_not_link unrecorded⟩
  · have long := Rule.long_of_admitsSplit (inventory.admits split inSplits)
    have isTop := SplitRule.top_mem_links (inventory.admits split inSplits)
    rw [inventory.wordOf_of_link inSplits isTop recorded]
    have links : (grammar.chains.pieces top).map grammar.linkOf? = (ChainRule.chain
        split.rule.rhs.length split.rule.lhs 0 split.before split.rule.rhs.reverse).1.map some := by
      rw [ChainRule.chain_eq _ _ (by omega), (inventory.pieces_of_top inSplits found recorded).2.1]
      rfl
    refine ⟨.split long links, fun index member => ?_⟩
    obtain ⟨link, isLink, here⟩ := (inventory.mem_pieces_iff inSplits found recorded).mp member
    obtain ⟨piece, atIndex, isPiece⟩ := linkOf?_eq_some_iff.mp here
    exact ⟨piece, atIndex, inventory.wordOf_of_link inSplits isLink isPiece⟩

end Chains

/-- The pieces of a chain have the same precedence, if any. -/
theorem KeepsHistories.precedence_eq_of_mem_pieces (keeps : grammar.KeepsHistories splits)
    (inventory : grammar.HasLinks splits) {top index : Nat} {rule piece : Rule History}
    (found : grammar.rules[top]? = some rule) (shallow : rule.isBelowTop = false)
    (inPieces : index ∈ grammar.chains.pieces top) (atIndex : grammar.rules[index]? = some piece) :
    piece.history.precedence = rule.history.precedence := by
  rcases inventory.cases_of_mem_pieces found shallow inPieces with
    ⟨rfl, _⟩ | ⟨split, inSplits, recorded, other, atOther, link, isLink, isPiece⟩
  · rw [Option.some.inj (atIndex.symm.trans found)]
  · obtain rfl := Option.some.inj (atIndex.symm.trans atOther)
    exact keeps.precedence_eq inSplits (List.mem_of_getElem? atIndex) (List.mem_of_getElem? found)
      isLink (SplitRule.top_mem_links (inventory.admits split inSplits)) isPiece recorded

theorem HasLinks.ranksTo (inventory : grammar.HasLinks splits) (keeps : grammar.KeepsHistories splits)
    (rules : resolved.rules = grammar.rules.map (grammar.ranked splits)) : grammar.RanksTo resolved where
  same := by
    rw [rules, List.forall₂_map_right_iff, List.forall₂_same]
    exact fun rule _ => ⟨_, rfl⟩
  keeps := by
    intro index rule found has
    have same : grammar.ranked splits rule = rule := by
      refine Rule.ranked_eq_self fun missing => ?_
      rw [Rule.hasPrecedence, missing] at has
      cases has
    rw [rules, List.getElem?_map, found, Option.map_some, same]
  existsUnique_top := fun _ inside => inventory.existsUnique_top_of_lt inside
  existsUnique_word := by
    rintro top ⟨rule, found, shallow⟩
    obtain ⟨spells, _⟩ := inventory.spells_pieces found shallow
    exact ⟨_, spells, fun other also => also.unique spells⟩
  takes := by
    rintro top word ⟨rule, found, shallow⟩ spells index inPieces piece atIndex missing
    obtain ⟨alsoSpells, words⟩ := inventory.spells_pieces found shallow
    obtain ⟨other, atOther, sameWord⟩ := words index inPieces
    obtain rfl := Option.some.inj (atIndex.symm.trans atOther)
    have free : piece.history.precedence = none := by simpa [Rule.hasPrecedence] using missing
    refine ⟨_, grammar.declared.rightmost_rightmost? word, ?_⟩
    rw [rules, List.getElem?_map, atIndex, Option.map_some, ranked, sameWord, alsoSpells.unique spells,
      Rule.ranked_of_missing free]
  shares := by
    rintro top ⟨rule, found, shallow⟩
    have all : ∀ index ∈ grammar.chains.pieces top,
        (resolved.rules[index]?.map fun rule => rule.history.precedence) =
          some (grammar.ranked splits rule).history.precedence := by
      intro index inPieces
      obtain ⟨piece, atIndex, sameWord⟩ := (inventory.spells_pieces found shallow).2 index inPieces
      rw [rules, List.getElem?_map, atIndex]
      simp only [Option.map_some, ranked, Rule.ranked, Rule.withPrecedence, sameWord,
        keeps.precedence_eq_of_mem_pieces inventory found shallow inPieces atIndex]
    exact fun first inFirst second inSecond => (all first inFirst).trans (all second inSecond).symm

/-- A rule without a precedence takes what is declared for the rightmost declared symbol of the rule that
it was cut from, or of its own right-hand side if it was never cut. -/
def RanksBy (grammar : Grammar History) (cuts : List (Option Cut))
    (resolved : Grammar History) : Prop :=
  ∀ (index : Nat) (rule : Rule History) (cut : Option Cut),
    grammar.rules[index]? = some rule → cuts[index]? = some cut → rule.hasPrecedence = false →
      ∃ precedence, grammar.declared.Rightmost (rule.uncut cut).rhs precedence ∧
        resolved.rules[index]? = some (rule.withPrecedence precedence)

theorem LinkedBy.wordOf_eq {cuts : List (Option Cut)} (linked : grammar.LinkedBy splits cuts)
    (inventory : grammar.HasLinks splits) {index : Nat} {rule : Rule History}
    {cut : Option Cut} (found : grammar.rules[index]? = some rule)
    (noted : cuts[index]? = some cut) : SplitRule.wordOf splits rule = (rule.uncut cut).rhs := by
  have isLink := linked.isLink found noted
  cases cut with
  | none => exact wordOf_of_not_link isLink
  | some cut =>
      obtain ⟨split, inSplits, source, bound, recorded⟩ := isLink
      rw [← source] at bound
      rw [inventory.wordOf_of_link inSplits (SplitRule.mem_links.mpr ⟨cut.depth, bound, rfl⟩) recorded,
        source]
      rfl

/-- What the links of chains were split from is what rules are noted to be cut from. -/
theorem RanksTo.ranksBy (ranks : grammar.RanksTo resolved) (inventory : grammar.HasLinks splits)
    {cuts : List (Option Cut)} (linked : grammar.LinkedBy splits cuts) :
    grammar.RanksBy cuts resolved := by
  intro index rule cut found noted missing
  have inside := (List.getElem?_eq_some_iff.mp found).1
  obtain ⟨top, ⟨isTop, inPieces⟩, _⟩ := ranks.existsUnique_top index inside
  obtain ⟨topRule, atTop, shallow⟩ := isTop
  obtain ⟨spells, words⟩ := inventory.spells_pieces atTop shallow
  obtain ⟨piece, here, sameWord⟩ := words index inPieces
  obtain rfl := Option.some.inj (found.symm.trans here)
  rw [← sameWord, linked.wordOf_eq inventory found noted] at spells
  exact ranks.takes top _ ⟨topRule, atTop, shallow⟩ spells index inPieces rule found missing

/-- What has been resolved stays as it is. -/
theorem resolvePrecedence_again {H : Type} [RuleHistory H] [LawfulRuleHistory H]
    {grammar resolved : Grammar H} (done : grammar.resolvePrecedence.result = .ok resolved) :
    resolved.resolvePrecedence.result = .ok resolved := by
  rw [(isResolved_of_resolvePrecedence done).resolvePrecedence_eq]
  obtain ⟨resolution, _, rfl⟩ := exists_resolution done
  simp only [afterPass, Nat.sub_self, Nat.add_zero]
  cases grammar.stage <;> rfl

/-- Of a grammar that is never sorted the precedence can always be resolved, in one go.  All pieces take
theirs from the rule that binarization has cut them from. -/
theorem resolvePrecedence_ranksTo_of_reached (reached : grammar.Reached Unsorted owned) :
    ∃ resolved : Grammar History, grammar.resolvePrecedence.result = .ok resolved ∧
      grammar.RanksTo resolved ∧
      (∀ cuts : List (Option Cut), grammar.ReachedWith Unsorted owned cuts →
        grammar.DecodesTo cuts ∧ grammar.RanksBy cuts resolved) ∧
      resolved.resolvePrecedence.result = .ok resolved := by
  obtain ⟨splits, inventory, keeps, _⟩ := (isKept_isFaithful.of_reached reached).chains
  obtain ⟨resolved, done⟩ : ∃ resolved, grammar.resolvePrecedence.result = .ok resolved :=
    ⟨_, inventory.resolvePrecedence_eq keeps⟩
  have ranks := inventory.toHasLinks.ranksTo keeps (inventory.rules_resolvePrecedence keeps done)
  refine ⟨resolved, done, ranks, fun cuts cut => ?_, resolvePrecedence_again done⟩
  obtain ⟨_, alike, _, linked⟩ := (cut.isNoted fun _ permitted => permitted.1).linked
  exact ⟨linked.decodesTo alike.toHasLinks, ranks.ranksBy alike.toHasLinks linked⟩

/-- The rules of the sums are split. -/
def splitSumRun : Except GrammarError (Grammar History) := do
  let sums ← lateSumRun
  (sums.binarize {}).result

/-- There are pieces with a precedence and pieces without one. -/
theorem splitSum_resolvePrecedence_ranksTo : ∃ (grammar resolved : Grammar History)
    (owned : Symbol → Prop), splitSumRun = .ok grammar ∧ grammar.Reached Unsorted owned ∧
      grammar.resolvePrecedence.result = .ok resolved ∧ grammar.RanksTo resolved ∧
      (∃ cuts, grammar.ReachedWith Unsorted owned cuts ∧ grammar.DecodesTo cuts ∧
        grammar.RanksBy cuts resolved) ∧
      resolved.resolvePrecedence.result = .ok resolved := by
  obtain ⟨grammar, run⟩ := exists_eq_ok (by cbv : splitSumRun.toBool = true)
  obtain ⟨sums, written, binarization⟩ := bind_eq_ok_iff.mp run
  obtain ⟨owned, reached⟩ := reached_of_lateSumRun written
  have split : grammar.Reached Unsorted owned := reached.pass (.binarize {}) binarization
  obtain ⟨cuts, cut⟩ := reached_iff_exists_cuts.mp split
  obtain ⟨resolved, resolution, ranks, ranksBy, again⟩ := resolvePrecedence_ranksTo_of_reached split
  exact ⟨grammar, resolved, owned, run, split, resolution, ranks, ⟨cuts, cut, ranksBy cuts cut⟩, again⟩

end Grammar

end TracedGrammar
