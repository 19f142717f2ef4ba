import TracedGrammar.Proofs.Normalization.Limits
import TracedGrammar.Proofs.Report.Agreement
import TracedGrammar.Proofs.Run.Pieces

/-!
# Precedence before and after binarization

A rule that is split hands its precedence to all pieces, and what is read back from the pieces is the
right-hand side of the rule.  So it makes no difference whether precedence is resolved before rules are
split or afterwards.
-/

namespace TracedGrammar

namespace SplitRule

variable {split : SplitRule History} {precedence : Option Precedence}

/-- The same split, of a rule with another precedence. -/
def withPrecedence (split : SplitRule History) (precedence : Option Precedence) : SplitRule History :=
  { split with rule := split.rule.withPrecedence precedence }

theorem binarize_withPrecedence : (split.withPrecedence precedence).rule.binarize split.before =
    ((split.rule.binarize split.before).1.map fun part => (part.1.withPrecedence precedence, part.2),
      (split.rule.binarize split.before).2) := by
  have admits : (split.withPrecedence precedence).rule.admitsSplit = split.rule.admitsSplit := rfl
  unfold Rule.binarize
  rw [admits]
  split
  · simp only [List.map_map]
    rfl
  · rfl

theorem after_withPrecedence : (split.withPrecedence precedence).after = split.after := by
  rw [after, show (split.withPrecedence precedence).before = split.before from rfl,
    binarize_withPrecedence]
  rfl

theorem pieces_withPrecedence : (split.withPrecedence precedence).pieces =
    split.pieces.map fun piece => piece.withPrecedence precedence := by
  rw [pieces, show (split.withPrecedence precedence).before = split.before from rfl,
    binarize_withPrecedence, pieces, List.map_map, List.map_map]
  rfl

theorem precedence_of_mem_pieces {piece : Rule History} (member : piece ∈ split.pieces) :
    piece.history.precedence = split.rule.history.precedence := by
  rcases eq_or_exists_pieceAt member with ⟨_, rfl⟩ | ⟨_, depth, _, rfl⟩ <;> rfl

/-- Rules are split in one way only, and it does not depend on their precedence. -/
theorem chain_eq_map (change : Rule History → Option Precedence)
    {supply other last otherLast : SymbolSupply} {chain also : List (SplitRule History)}
    (chained : SymbolSupply.Chained before after supply chain last)
    (alsoChained : SymbolSupply.Chained before after other also otherLast) (start : other = supply)
    (rules : also.map (·.rule) = chain.map fun split => split.rule.withPrecedence (change split.rule)) :
    also = chain.map (fun split => split.withPrecedence (change split.rule)) ∧ otherLast = last := by
  induction chained generalizing other also with
  | nil supply =>
      obtain rfl := List.map_eq_nil_iff.mp rules
      exact ⟨rfl, alsoChained.eq_of_nil.symm.trans start⟩
  | cons first later induction =>
      cases alsoChained with
      | nil => cases rules
      | cons second alsoLater =>
          rw [List.map_cons, List.map_cons, List.cons.injEq] at rules
          obtain rfl : second = first.withPrecedence (change first.rule) := by
            rw [withPrecedence, ← rules.1, ← start]
          obtain ⟨rest, ends⟩ := induction alsoLater after_withPrecedence rules.2
          rw [List.map_cons, ← rest]
          exact ⟨rfl, ends⟩

end SplitRule

namespace Grammar

variable {owned : Symbol → Prop} {grammar next : Grammar History} {splits : List (SplitRule History)}
  {limits : Limits}

/-- Two drafts have taken the same symbols and have the same number of rules. -/
def AsLarge (draft other : Draft History) : Prop :=
  other.supply = draft.supply ∧ other.rules.size = draft.rules.size

theorem agree_binarizeRule {draft other : Draft History} (alike : AsLarge draft other)
    (rule : Rule History) (precedence : Option Precedence) :
    Agree AsLarge (binarizeRule limits draft rule).result
      (binarizeRule limits other (rule.withPrecedence precedence)).result := by
  have split : SplitRule.mk (rule.withPrecedence precedence) other.supply =
      (SplitRule.mk rule draft.supply).withPrecedence precedence := by
    rw [alike.1]
    rfl
  have size : (other.rules ++ (SplitRule.mk (rule.withPrecedence precedence) other.supply).pieces).size =
      (draft.rules ++ (SplitRule.mk rule draft.supply).pieces).size := by
    rw [split, SplitRule.pieces_withPrecedence, size_appendList, size_appendList, List.length_map,
      alike.2]
  rw [result_binarizeRule, result_binarizeRule, size]
  refine .check _ (.ok ⟨?_, size⟩)
  rw [split, SplitRule.after_withPrecedence]

/-- Other precedences make no difference to whether rules can be split. -/
theorem agree_binarize {change : Rule History → Option Precedence}
    (rules : next.rules = grammar.rules.map fun rule => rule.withPrecedence (change rule))
    (supply : next.supply = grammar.supply) (late : .nullingEliminated ≤ grammar.stage)
    (alsoLate : .nullingEliminated ≤ next.stage) :
    Agree (fun _ _ => True) (grammar.binarize limits).result (next.binarize limits).result := by
  have all : List.Forall₂ (fun rule counterpart => counterpart = rule.withPrecedence (change rule))
      grammar.rules next.rules := by
    rw [rules, List.forall₂_map_right_iff, List.forall₂_same]
    exact fun _ _ => rfl
  have folds : Agree AsLarge
      (Reported.fold (binarizeRule limits) { supply := grammar.supply } grammar.rules).result
      (Reported.fold (binarizeRule limits) { supply := next.supply } next.rules).result := by
    refine Reported.agree_fold (fun _ _ rule _ alike changed => ?_) ⟨supply, rfl⟩ all
    rw [changed]
    exact agree_binarizeRule alike rule _
  unfold Grammar.binarize
  rw [if_pos late, if_pos alsoLate]
  simp only [Reported.result_bind, Reported.result_report]
  exact folds.bind fun _ _ _ => .ok trivial

section Words

variable {chain : List (SplitRule History)} (inventory : grammar.HasLinks splits)
  (binarizes : grammar.BinarizesTo next chain)
include inventory binarizes

/-- The pieces of a rule were split from what the rule itself was split from, or from the rule. -/
theorem HasLinks.wordOf_of_mem_pieces {split : SplitRule History} (inChain : split ∈ chain)
    {piece : Rule History} (member : piece ∈ split.pieces) :
    SplitRule.wordOf (splits ++ SplitRule.admitted chain) piece =
      SplitRule.wordOf splits split.rule := by
  have later := inventory.binarize binarizes
  have inRules := binarizes.rule_mem inChain
  rcases SplitRule.eq_or_exists_pieceAt member with ⟨_, rfl⟩ | ⟨admits, depth, bound, rfl⟩
  · cases recorded : split.rule.link? with
    | none => rw [wordOf_of_not_link recorded, wordOf_of_not_link recorded]
    | some link =>
        obtain ⟨old, inSplits, depth, bound, rfl⟩ := inventory.exists_linkAt inRules recorded
        have isLink := SplitRule.mem_links.mpr ⟨depth, bound, rfl⟩
        rw [later.wordOf_of_link (List.mem_append_left _ inSplits) isLink recorded,
          inventory.wordOf_of_link inSplits isLink recorded]
  · have inNew : split ∈ SplitRule.admitted chain := List.mem_filter.mpr ⟨inChain, admits⟩
    rw [later.wordOf_of_link (List.mem_append_right _ inNew)
        (SplitRule.mem_links.mpr ⟨depth, bound, rfl⟩) rfl,
      wordOf_of_not_link (inventory.link?_of_admitsSplit inRules admits)]

/-- To rank a rule and split it then is to split it and rank its pieces then. -/
theorem HasLinks.pieces_ranked (declared : next.declared = grammar.declared) {split : SplitRule History}
    (inChain : split ∈ chain) :
    (split.withPrecedence (grammar.ranked splits split.rule).history.precedence).pieces =
      split.pieces.map (next.ranked (splits ++ SplitRule.admitted chain)) := by
  rw [SplitRule.pieces_withPrecedence]
  refine List.map_congr_left fun piece member => ?_
  rw [ranked, ranked, Rule.ranked, Rule.ranked, inventory.wordOf_of_mem_pieces binarizes inChain member,
    SplitRule.precedence_of_mem_pieces member, declared]
  rfl

/-- Where rules are ranked first, their pieces are what they are when pieces are ranked. -/
theorem HasLinks.map_ranked_eq_of_binarizesTo {resolved also : Grammar History}
    {counterparts : List (SplitRule History)} (alsoBinarizes : resolved.BinarizesTo also counterparts)
    (rules : resolved.rules = grammar.rules.map (grammar.ranked splits))
    (supply : resolved.supply = grammar.supply) (declared : next.declared = grammar.declared) :
    next.rules.map (next.ranked (splits ++ SplitRule.admitted chain)) = also.rules ∧
      next.supply = also.supply := by
  obtain ⟨chains, same⟩ : (counterparts = chain.map fun split =>
        split.withPrecedence (grammar.ranked splits split.rule).history.precedence) ∧
      also.supply = next.supply := by
    refine SplitRule.chain_eq_map (fun rule => (grammar.ranked splits rule).history.precedence)
      binarizes.chained alsoBinarizes.chained supply ?_
    rw [alsoBinarizes.rules_eq, rules, ← binarizes.rules_eq, List.map_map]
    rfl
  refine ⟨?_, same.symm⟩
  rw [binarizes.pieces_eq, alsoBinarizes.pieces_eq, chains, List.map_flatMap, List.flatMap_map]
  exact List.flatMap_congr fun split inChain =>
    (inventory.pieces_ranked binarizes declared inChain).symm

end Words

theorem HasChains.exists_resolved (inventory : grammar.HasChains splits)
    (keeps : grammar.KeepsHistories splits) (late : .nullingEliminated ≤ grammar.stage) :
    ∃ resolved : Grammar History, grammar.resolvePrecedence.result = .ok resolved ∧
      resolved.rules = grammar.rules.map (grammar.ranked splits) ∧
      resolved.supply = grammar.supply ∧ .nullingEliminated ≤ resolved.stage := by
  refine ⟨_, inventory.resolvePrecedence_eq keeps, rfl, rfl, ?_⟩
  change Stage.nullingEliminated ≤ ite _ _ _
  split
  · exact Nat.le_trans late (Stage.le_max_left _ _)
  · exact late

/-- Precedence can be resolved before or after rules are split: both orders fail alike, or they lead to
the same rules, histories included, and the same supply. -/
theorem binarize_resolvePrecedence_comm (reached : grammar.Reached Unsorted owned)
    (late : .nullingEliminated ≤ grammar.stage) (limits : Limits) :
    Agree (fun first second : Grammar History =>
        first.rules = second.rules ∧ first.supply = second.supply)
      (grammar.binarize limits >>= fun binarized => binarized.resolvePrecedence).result
      (grammar.resolvePrecedence >>= fun resolved => resolved.binarize limits).result := by
  have faithful := isKept_isFaithful.of_reached reached
  obtain ⟨splits, inventory, keeps, _⟩ := faithful.chains
  obtain ⟨resolved, resolves, rules, supply, alsoLate⟩ := inventory.exists_resolved keeps late
  have agree : Agree _ (grammar.binarize limits).result (resolved.binarize limits).result :=
    agree_binarize rules supply late alsoLate
  simp only [Reported.result_bind, resolves]
  cases first : (grammar.binarize limits).result with
  | error failure =>
      rw [first] at agree
      have second : (Except.ok resolved >>= fun resolved => (resolved.binarize limits).result) =
          .error failure := agree.eq_error
      rw [second]
      exact .error failure
  | ok binarized =>
      rw [first] at agree
      obtain ⟨also, second, _⟩ := agree.exists_ok
      obtain ⟨chain, binarizes⟩ := exists_binarizesTo first
      obtain ⟨counterparts, alsoBinarizes⟩ := exists_binarizesTo second
      have declared : binarized.declared = grammar.declared := by
        rw [binarize_eq_afterPass first]
        rfl
      have resolvesLast : (Except.ok binarized >>= fun binarized => binarized.resolvePrecedence.result) =
          .ok _ := (inventory.binarize binarizes).resolvePrecedence_eq
        (keeps.binarize inventory.toHasLinks binarizes)
      have splitsLast : (Except.ok resolved >>= fun resolved => (resolved.binarize limits).result) =
          .ok also := second
      rw [resolvesLast, splitsLast]
      exact .ok (inventory.map_ranked_eq_of_binarizesTo binarizes alsoBinarizes rules supply declared)

/-- A sum is normalized with a precedence for its operator, and another one is added. -/
def lateSumRun : Except GrammarError (Grammar History) := do
  let declared ← ({ supply := ⟨3⟩ } : Grammar History).declarePrecedence ⟨1⟩ ⟨1, .left⟩
  let normalized ← ((declared.writeRule ⟨0⟩ [⟨0⟩, ⟨1⟩, ⟨0⟩]).2.normalize {}).result
  let again ← normalized.declarePrecedence ⟨2⟩ ⟨0, .left⟩
  let expanded ← ((again.writeRule ⟨0⟩ [⟨0⟩, ⟨2⟩, ⟨0⟩]).2.expandSequences {}).result
  (expanded.eliminateNulling {}).result

theorem reached_of_lateSumRun (run : lateSumRun = .ok grammar) :
    ∃ owned, grammar.Reached Unsorted owned := by
  obtain ⟨declared, declares, rest⟩ := bind_eq_ok_iff.mp run
  obtain ⟨normalized, normalization, rest⟩ := bind_eq_ok_iff.mp rest
  obtain ⟨again, declaresAgain, rest⟩ := bind_eq_ok_iff.mp rest
  obtain ⟨expanded, expansion, elimination⟩ := bind_eq_ok_iff.mp rest
  have lhs : (⟨0⟩ : Symbol) ∈ (⟨3⟩ : SymbolSupply) := by decide
  have sum : ∀ symbol ∈ ([⟨0⟩, ⟨1⟩, ⟨0⟩] : List Symbol), symbol ∈ (⟨3⟩ : SymbolSupply) := by decide
  have other : ∀ symbol ∈ ([⟨0⟩, ⟨2⟩, ⟨0⟩] : List Symbol), symbol ∈ (⟨3⟩ : SymbolSupply) := by decide
  have start : Reached Unsorted _ declared := (Reached.start ⟨3⟩).declare ⟨rfl, nofun⟩ declares
  have once := start.writeRule ⟨rfl, nofun⟩ (.inl lhs) fun symbol member => .inl (sum symbol member)
  have later := (once.pass (.normalize {}) normalization).declare ⟨rfl, nofun⟩ declaresAgain
  have twice := later.writeRule ⟨rfl, nofun⟩ (.inl (.inl (.inl lhs)))
    fun symbol member => .inl (.inl (.inl (other symbol member)))
  exact ⟨_, (twice.pass (.expandSequences {}) expansion).pass (.eliminateNulling {}) elimination⟩

/-- Both orders lead to the same grammar of old and new pieces. -/
theorem lateSum_binarize_resolvePrecedence_comm : ∃ (grammar : Grammar History) (owned : Symbol → Prop),
    lateSumRun = .ok grammar ∧ grammar.Reached Unsorted owned ∧ .nullingEliminated ≤ grammar.stage ∧
      ∃ first second : Grammar History,
        (grammar.binarize {} >>= fun binarized => binarized.resolvePrecedence).result = .ok first ∧
          (grammar.resolvePrecedence >>= fun resolved => resolved.binarize {}).result = .ok second ∧
          first.rules = second.rules ∧ first.supply = second.supply := by
  obtain ⟨grammar, run⟩ := exists_eq_ok (by cbv : lateSumRun.toBool = true)
  obtain ⟨owned, reached⟩ := reached_of_lateSumRun run
  have late : (lateSumRun.map fun grammar => decide (.nullingEliminated ≤ grammar.stage)) = .ok true := by
    cbv
  have succeeds : (lateSumRun >>= fun grammar =>
      (grammar.binarize {} >>= fun binarized => binarized.resolvePrecedence).result).toBool = true := by
    cbv
  rw [run] at late succeeds
  have stage := of_decide_eq_true (Except.ok.inj late)
  have agree := binarize_resolvePrecedence_comm reached stage {}
  obtain ⟨first, done⟩ := exists_eq_ok succeeds
  have binarizedFirst : (grammar.binarize {} >>= fun binarized =>
    binarized.resolvePrecedence).result = .ok first := done
  rw [binarizedFirst] at agree
  obtain ⟨second, resolvedFirst, rules, supply⟩ := agree.exists_ok
  exact ⟨grammar, owned, run, reached, stage, first, second, binarizedFirst, resolvedFirst, rules,
    supply⟩

end Grammar

end TracedGrammar
