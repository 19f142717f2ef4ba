import TracedGrammar.Proofs.Run.Cuts

/-!
# What is read back from chains

The records in a grammar in use say of every rule what it was cut from, and from the top of a chain the
rule is read back that binarization has split, however long ago.  What is read back from all rules that
do not define a symbol inside a chain is the same before and after binarization.
-/

namespace TracedGrammar

namespace Grammar

variable {owned : Symbol → Prop} {grammar : Grammar History} {splits : List (SplitRule History)}
  {cuts : List (Option Cut)} {index : Nat} {rule : Rule History}

/-- A rule that was never cut is read back as it is, and what has been cut is recorded.  From the top of
a chain the rule is read back that was split, by way of one piece for each depth. -/
structure DecodesTo (grammar : Grammar History) (cuts : List (Option Cut)) : Prop where
  length_eq : cuts.length = grammar.rules.length
  whole : ∀ (index : Nat) (rule : Rule History), grammar.rules[index]? = some rule →
    cuts[index]? = some none → rule.history.chainPiece = none ∧
      grammar.chains.pieces index = [index] ∧ grammar.chains.fullRhs index = rule.rhs
  piece : ∀ (index : Nat) (rule : Rule History) (cut : Cut),
    grammar.rules[index]? = some rule → cuts[index]? = some (some cut) →
    rule.history.chainPiece = some
      ⟨if cut.depth + 2 < cut.source.rhs.length then .right else .left, cut.depth,
        cut.source.rhs.length⟩
  top : ∀ (index : Nat) (rule source : Rule History), grammar.rules[index]? = some rule →
    cuts[index]? = some (some ⟨source, 0⟩) →
    rule.lhs = source.lhs ∧ grammar.chains.fullRhs index = source.rhs ∧
      ((grammar.chains.pieces index).map fun piece => cuts[piece]?) =
        (List.range (source.rhs.length - 1)).map fun depth => some (some ⟨source, depth⟩)

namespace LinkedBy

variable (linked : grammar.LinkedBy splits cuts)
include linked

theorem isLink {cut : Option Cut} (found : grammar.rules[index]? = some rule)
    (noted : cuts[index]? = some cut) : SplitRule.IsLink splits rule.link? cut := by
  have beside := List.forall₂_map_left_iff.mp linked
  obtain ⟨other, also, isLink⟩ := exists_getElem?_of_forall₂ beside found
  rwa [Option.some.inj (noted.symm.trans also)]

/-- A link of a chain has been cut from the rule that was split into the chain. -/
theorem cut_eq (inventory : grammar.HasLinks splits) {split : SplitRule History}
    (inSplits : split ∈ splits) {depth : Nat} (bound : depth + 2 ≤ split.rule.rhs.length)
    (here : grammar.linkOf? index = some (split.linkAt depth)) :
    cuts[index]? = some (some ⟨split.rule, depth⟩) := by
  obtain ⟨rule, found, recorded⟩ := linkOf?_eq_some_iff.mp here
  have beside := List.forall₂_map_left_iff.mp linked
  obtain ⟨cut, noted, isLink⟩ := exists_getElem?_of_forall₂ beside found
  rw [recorded] at isLink
  cases cut with
  | none => cases isLink
  | some cut =>
      obtain ⟨other, inOther, source, otherBound, same⟩ := isLink
      rw [← source] at otherBound
      have links := Option.some.inj same
      -- No link belongs to two chains, so it was split from nothing else.
      obtain rfl := inventory.eq_of_mem_links inSplits inOther
        (SplitRule.mem_links.mpr ⟨depth, bound, rfl⟩)
        (SplitRule.mem_links.mpr ⟨cut.depth, otherBound, links.symm⟩)
      have depths := congrArg (fun link => link.piece.depth) links
      simp only [SplitRule.linkAt, ChainRule.depth_link] at depths
      rw [noted, source, depths]

theorem decodesTo (inventory : grammar.HasLinks splits) : grammar.DecodesTo cuts where
  length_eq := by
    have lengths := linked.length_eq
    rwa [List.length_map, eq_comm] at lengths
  whole := by
    intro index rule found noted
    have unrecorded : rule.link? = none := linked.isLink found noted
    exact ⟨Option.map_eq_none_iff.mp unrecorded, (pieces_of_not_link found unrecorded).2⟩
  piece := by
    intro index rule cut found noted
    obtain ⟨split, _, source, _, recorded⟩ := linked.isLink found noted
    refine (Rule.chainPiece_of_link recorded).trans ?_
    rw [SplitRule.linkAt, ChainRule.piece_link, source]
  top := by
    intro index rule source found noted
    obtain ⟨split, inSplits, same, _, recorded⟩ := linked.isLink found noted
    subst same
    obtain ⟨_, links, fullRhs⟩ := inventory.pieces_of_top inSplits found recorded
    refine ⟨?lhs, fullRhs, ?pieces⟩
    case lhs =>
      rw [Rule.lhs_of_link recorded, SplitRule.linkAt, ChainRule.lhs_link]
      rfl
    case pieces =>
      rw [SplitRule.links, List.map_map] at links
      rw [← List.forall₂_eq_eq_eq, List.forall₂_map_left_iff, List.forall₂_map_right_iff] at links ⊢
      refine forall₂_imp_of_mem links fun piece _ depth inside here => ?_
      have bound : depth + 2 ≤ split.rule.rhs.length := by
        have := List.mem_range.mp inside
        omega
      exact linked.cut_eq inventory inSplits bound here

end LinkedBy

theorem ReachedWith.decodesTo {permits : Command History → Prop}
    (reached : grammar.ReachedWith permits owned cuts)
    (plain : ∀ command, permits command → command.histories = []) : grammar.DecodesTo cuts := by
  obtain ⟨splits, inventory, _, linked⟩ := (reached.isNoted plain).linked
  exact linked.decodesTo inventory.toHasLinks

/-- In a grammar in use, old and new chains are whole and side by side.  What was split is read back from
them, and binarization keeps what is read back from all rules that do not define a symbol inside a
chain. -/
theorem hasWholeChains_unsplit_of_reached
    (reached : grammar.Reached (fun command : Command History => command.histories = []) owned) :
    grammar.HasWholeChains ∧
      (∀ cuts : List (Option Cut),
        grammar.ReachedWith (fun command => command.histories = []) owned cuts →
          grammar.DecodesTo cuts) ∧
      ∀ (limits : Limits) (result : Grammar History),
        (grammar.binarize limits).result = .ok result → result.unsplit = grammar.unsplit := by
  obtain ⟨splits, inventory, _⟩ := (isKept_isOrderly.of_reached reached).chains
  refine ⟨inventory.hasWholeChains, fun cuts cut => cut.decodesTo fun _ plain => plain,
    fun limits result done => ?_⟩
  obtain ⟨chain, binarizes⟩ := exists_binarizesTo done
  exact inventory.unsplit_binarize binarizes

/-- A chain of three pieces beside a rule that is still to be split. -/
def besideChain : Grammar History :=
  { supply := ⟨7⟩
    rules :=
      [⟨⟨0⟩, [⟨4⟩, ⟨3⟩, ⟨2⟩], { origin := some (.rule 3), elision := some ⟨.empty, 3, 1⟩ }⟩,
        ⟨⟨0⟩, [⟨5⟩, ⟨4⟩],
          { origin := some (.rule 0)
            chainPiece := some ⟨.right, 0, 4⟩
            elision := some ⟨.empty, 4, 1⟩ }⟩,
        ⟨⟨5⟩, [⟨6⟩, ⟨3⟩],
          { origin := some (.rule 0)
            chainPiece := some ⟨.right, 1, 4⟩
            elision := some ⟨.empty, 4, 1⟩
            actionSite := false }⟩,
        ⟨⟨6⟩, [⟨1⟩, ⟨2⟩],
          { origin := some (.rule 0)
            chainPiece := some ⟨.left, 2, 4⟩
            elision := some ⟨.empty, 4, 1⟩
            actionSite := false }⟩]
    stage := .nullingEliminated
    authoredFrom := 4 }

/-- A long rule is written and normalized, then another one is written, and all rules are sorted before
it is split. -/
def besideChainRun : Except GrammarError (Grammar History) := do
  let start : Grammar History := { supply := ⟨5⟩ }
  let normalized ← ((start.writeRule ⟨0⟩ [⟨1⟩, ⟨2⟩, ⟨3⟩, ⟨4⟩]).2.normalize {}).result
  let expanded ← ((normalized.writeRule ⟨0⟩ [⟨4⟩, ⟨3⟩, ⟨2⟩]).2.expandSequences {}).result
  let eliminated ← (expanded.eliminateNulling {}).result
  return eliminated.sort

theorem exists_reached_besideChain :
    ∃ owned, besideChain.Reached (fun command : Command History => command.histories = []) owned := by
  have run : besideChainRun = .ok besideChain := by cbv
  obtain ⟨normalized, normalization, rest⟩ := bind_eq_ok_iff.mp run
  obtain ⟨expanded, expansion, rest⟩ := bind_eq_ok_iff.mp rest
  obtain ⟨eliminated, elimination, rest⟩ := bind_eq_ok_iff.mp rest
  have sorted : eliminated.sort = besideChain := Except.ok.inj rest
  rw [← sorted]
  have lhs : (⟨0⟩ : Symbol) ∈ (⟨5⟩ : SymbolSupply) := by decide
  have long : ∀ symbol ∈ ([⟨1⟩, ⟨2⟩, ⟨3⟩, ⟨4⟩] : List Symbol), symbol ∈ (⟨5⟩ : SymbolSupply) := by
    decide
  have short : ∀ symbol ∈ ([⟨4⟩, ⟨3⟩, ⟨2⟩] : List Symbol), symbol ∈ (⟨5⟩ : SymbolSupply) := by decide
  have once : Reached (fun command : Command History => command.histories = []) _ _ :=
    (Reached.start ⟨5⟩).writeRule rfl lhs long
  have again := (once.pass (.normalize {}) normalization).writeRule rfl (.inl lhs)
    fun symbol member => .inl (short symbol member)
  have passed := (again.pass (.expandSequences {}) expansion).pass (.eliminateNulling {}) elimination
  exact ⟨_, passed.sort rfl⟩

theorem besideChain_hasWholeChains_unsplit : ∃ owned,
    besideChain.Reached (fun command : Command History => command.histories = []) owned ∧
      besideChain.HasWholeChains ∧
      (∃ cuts, besideChain.ReachedWith (fun command => command.histories = []) owned cuts ∧
        besideChain.DecodesTo cuts) ∧
      ∃ result, (besideChain.binarize {}).result = .ok result ∧
        result.unsplit = besideChain.unsplit := by
  obtain ⟨result, succeeds⟩ := exists_eq_ok (by cbv : (besideChain.binarize {}).result.toBool = true)
  obtain ⟨owned, reached⟩ := exists_reached_besideChain
  obtain ⟨cuts, cut⟩ := reached_iff_exists_cuts.mp reached
  obtain ⟨whole, decodes, kept⟩ := hasWholeChains_unsplit_of_reached reached
  exact ⟨owned, reached, whole, ⟨cuts, cut, decodes cuts cut⟩, result, succeeds, kept {} result succeeds⟩

end Grammar

end TracedGrammar
