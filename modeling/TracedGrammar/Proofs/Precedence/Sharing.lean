import TracedGrammar.Proofs.Precedence.Stability

/-!
# Chains share a precedence

Precedence is resolved for a chain as a whole, and a rule that is split hands its own to all of its
pieces.  So a chain with a precedence at its top has one in every piece.
-/

namespace TracedGrammar

namespace Grammar

section Untouched

variable {H : Type} [RuleHistory H] {precedence : Precedence} {rules next : Array (Rule H)}
  {grammar result : Grammar H} {chains : Chains H} {resolution last : Resolution H} {index : Nat}

/-- A rule stays as it is where something else is assigned, or what is set already. -/
theorem getElem?_assignAt {other : Nat} (succeeds : assignAt precedence rules other = .ok next)
    (settled : index = other → HoldsAt (IsSettled precedence) rules index) :
    next[index]? = rules[index]? := by
  by_cases here : index = other
  · rw [← here, assignAt_of_isSettled (settled here)] at succeeds
    rw [Except.ok.inj succeeds]
  · unfold assignAt at succeeds
    split at succeeds
    · cases succeeds
      rfl
    · obtain ⟨history, _, same⟩ := bind_eq_ok_iff.mp succeeds
      cases same
      exact Array.getElem?_setIfInBounds_ne (Ne.symm here)

omit [RuleHistory H] in
theorem HoldsAt.of_getElem?_eq {holds : H → Prop} (before : HoldsAt holds rules index)
    (same : next[index]? = rules[index]?) : HoldsAt holds next index := by
  intro rule found
  rw [same] at found
  exact before rule found

theorem getElem?_foldlM_assignAt {indices : List Nat}
    (succeeds : indices.foldlM (assignAt precedence) rules = .ok next)
    (settled : index ∈ indices → HoldsAt (IsSettled precedence) rules index) :
    next[index]? = rules[index]? := by
  induction indices generalizing rules with
  | nil =>
      cases succeeds
      rfl
  | cons other indices induction =>
      rw [List.foldlM_cons, bind_eq_ok_iff] at succeeds
      obtain ⟨middle, first, rest⟩ := succeeds
      have same := getElem?_assignAt first fun here => settled (here ▸ List.mem_cons_self)
      rw [induction rest fun later => (settled (List.mem_cons_of_mem _ later)).of_getElem?_eq same, same]

theorem getElem?_fold_resolveRule {items : List (Rule H × Nat)}
    (succeeds : (Reported.fold (grammar.resolveRule chains) resolution items).result = .ok last)
    (settled : ∀ item ∈ items, ∀ precedence, grammar.Inherits chains item.1 item.2 precedence →
      index ∈ chains.pieces item.2 → HoldsAt (IsSettled precedence) resolution.rules index) :
    last.rules[index]? = resolution.rules[index]? := by
  induction items generalizing resolution with
  | nil =>
      rw [Reported.fold_nil_eq_ok_iff] at succeeds
      rw [← succeeds]
  | cons item items induction =>
      obtain ⟨middle, first, rest⟩ := Reported.fold_cons_eq_ok_iff.mp succeeds
      rw [List.forall_mem_cons] at settled
      have same : middle.rules[index]? = resolution.rules[index]? := by
        rcases inherits_or_eq_of_resolveRule first with ⟨precedence, inherits, assigned⟩ | ⟨_, rfl⟩
        · exact getElem?_foldlM_assignAt assigned (settled.1 precedence inherits)
        · rfl
      have later := induction rest fun item member precedence inherits inPieces =>
        (settled.2 item member precedence inherits inPieces).of_getElem?_eq same
      exact later.trans same

/-- A rule stays as it is when all that its chain inherits is set there already. -/
theorem getElem?_resolvePrecedence (succeeds : grammar.resolvePrecedence.result = .ok result)
    (settled : ∀ (top : Nat) (rule : Rule H) (precedence : Precedence),
      grammar.rules[top]? = some rule → grammar.Inherits grammar.chains rule top precedence →
        index ∈ grammar.chains.pieces top → HoldsAt (IsSettled precedence) grammar.rules.toArray index) :
    result.rules[index]? = grammar.rules[index]? := by
  obtain ⟨resolution, folded, rfl⟩ := exists_resolution succeeds
  have kept : resolution.rules[index]? = grammar.rules.toArray[index]? := by
    refine getElem?_fold_resolveRule folded ?_
    rintro ⟨rule, top⟩ member precedence inherits inPieces
    exact settled top rule precedence (List.mem_zipIdx_iff_getElem?.mp member) inherits inPieces
  rwa [← Array.getElem?_toList, List.getElem?_toArray] at kept

/-- A rule stays as it is unless it is a piece of a chain that inherits a precedence. -/
theorem exists_inherits_of_ne (succeeds : grammar.resolvePrecedence.result = .ok result)
    (changed : result.rules[index]? ≠ grammar.rules[index]?) :
    ∃ (top : Nat) (rule : Rule H) (precedence : Precedence), grammar.rules[top]? = some rule ∧
      grammar.Inherits grammar.chains rule top precedence ∧ index ∈ grammar.chains.pieces top := by
  by_contra none
  refine changed (getElem?_resolvePrecedence succeeds ?_)
  intro top rule precedence atTop inherits inPieces
  exact absurd ⟨top, rule, precedence, atTop, inherits, inPieces⟩ none

theorem isBelowTop_eq_false_of_outside {rule : Rule H} (member : rule ∈ grammar.rules)
    (outside : grammar.chains.isChainSymbol rule.lhs = false) : rule.isBelowTop = false := by
  by_contra deep
  have inside : grammar.chains.isChainSymbol rule.lhs = true :=
    Chains.isChainSymbol_ofRules_iff.mpr ⟨rule, member, Bool.eq_true_of_not_eq_false deep, rfl⟩
  rw [outside] at inside
  cases inside

end Untouched

end Grammar

namespace Rule

def hasPrecedence (rule : Rule History) : Bool :=
  rule.history.precedence.isSome

theorem hasPrecedence_of_isSettled {rule : Rule History} {precedence : Precedence}
    (settled : Grammar.IsSettled precedence rule.history) : rule.hasPrecedence = true := by
  rw [hasPrecedence, (History.setPrecedence_eq_ok_iff.mp settled).1]
  rfl

end Rule

namespace Grammar

variable {grammar next : Grammar History} {splits : List (SplitRule History)}

/-- After binarization, the pieces of old chains are old, and those of new ones are those of a rule that
was split. -/
theorem HasLinks.piece_cases (inventory : grammar.HasLinks splits)
    {chain : List (SplitRule History)} (binarizes : grammar.BinarizesTo next chain)
    {split : SplitRule History} (inSplits : split ∈ splits ++ SplitRule.admitted chain)
    {rule : Rule History} (member : rule ∈ next.rules) {link : ChainRule} (isLink : link ∈ split.links)
    (recorded : rule.link? = some link) : split ∈ splits ∧ rule ∈ grammar.rules ∨
      split ∈ SplitRule.admitted chain ∧ rule = split.rule.piece link := by
  have later := inventory.binarize binarizes
  obtain ⟨other, inChain, inPieces⟩ := binarizes.mem_rules_iff.mp member
  rcases SplitRule.eq_or_exists_pieceAt inPieces with ⟨_, rfl⟩ | ⟨admits, depth, bound, rfl⟩
  · have inRules := binarizes.rule_mem inChain
    obtain ⟨old, inOld, depth, bound, rfl⟩ := inventory.exists_linkAt inRules recorded
    obtain rfl := later.eq_of_mem_links inSplits (List.mem_append_left _ inOld) isLink
      (SplitRule.mem_links.mpr ⟨depth, bound, rfl⟩)
    exact .inl ⟨inOld, inRules⟩
  · have inNew : other ∈ SplitRule.admitted chain := List.mem_filter.mpr ⟨inChain, admits⟩
    obtain rfl : other.linkAt depth = link := Option.some.inj recorded
    obtain rfl := later.eq_of_mem_links inSplits (List.mem_append_right _ inNew) isLink
      (SplitRule.mem_links.mpr ⟨depth, bound, rfl⟩)
    exact .inr ⟨inNew, rfl⟩

/-- No chain comes twice, since none is apart from itself. -/
theorem HasLinks.not_mem_of_mem {more : List (SplitRule History)}
    (inventory : grammar.HasLinks (splits ++ more)) {split : SplitRule History}
    (former : split ∈ splits) : split ∉ more := by
  intro latter
  have admits := inventory.admits split (List.mem_append_left _ former)
  have isTop := SplitRule.top_mem_links admits
  have apart := (List.pairwise_append.mp inventory.apart).2.2 split former split latter
  exact apart.disjoint admits admits isTop isTop

/-- When there is a precedence at the top of a chain, there is one in every piece. -/
def SharesPrecedence (grammar : Grammar History) (splits : List (SplitRule History)) : Prop :=
  ∀ split ∈ splits, ∀ top ∈ grammar.rules, top.link? = some (split.linkAt 0) →
    top.hasPrecedence = true → ∀ piece ∈ grammar.rules, ∀ link ∈ split.links,
      piece.link? = some link → piece.hasPrecedence = true

namespace SharesPrecedence

variable (shares : grammar.SharesPrecedence splits)
include shares

/-- Only pieces of chains matter, and only whether they have a precedence. -/
theorem of_pieces (pieces : ∀ rule ∈ next.rules, rule.link? ≠ none →
    ∃ old ∈ grammar.rules, old.link? = rule.link? ∧ old.hasPrecedence = rule.hasPrecedence) :
    next.SharesPrecedence splits := by
  intro split inSplits top inRules isTop has piece alsoInRules link isLink recorded
  obtain ⟨oldTop, before, sameTop, ranked⟩ := pieces top inRules (by simp [isTop])
  obtain ⟨oldPiece, alsoBefore, samePiece, alsoRanked⟩ := pieces piece alsoInRules (by simp [recorded])
  rw [← alsoRanked]
  refine shares split inSplits oldTop before (sameTop.trans isTop) (ranked.trans has) oldPiece
    alsoBefore link isLink (samePiece.trans recorded)

/-- From a top that has a precedence every piece is found to have one. -/
theorem hasPrecedence_pieces (inventory : grammar.HasLinks splits) {top : Nat} {rule : Rule History}
    (found : grammar.rules[top]? = some rule) (shallow : rule.isBelowTop = false)
    (has : rule.hasPrecedence = true) :
    ∀ index ∈ grammar.chains.pieces top, ∃ piece, grammar.rules[index]? = some piece ∧
      piece.hasPrecedence = true := by
  intro index inPieces
  rcases inventory.cases_of_mem_pieces found shallow inPieces with
    ⟨rfl, _⟩ | ⟨split, inSplits, recorded, piece, atIndex, link, isLink, isPiece⟩
  · exact ⟨rule, found, has⟩
  · exact ⟨piece, atIndex, shares split inSplits rule (List.mem_of_getElem? found) recorded has piece
      (List.mem_of_getElem? atIndex) link isLink isPiece⟩

theorem append {added : List (Rule History)} (rules : next.rules = grammar.rules ++ added)
    (unrecorded : ∀ rule ∈ added, rule.link? = none) : next.SharesPrecedence splits := by
  refine shares.of_pieces fun rule member recorded => ?_
  rw [rules] at member
  rcases List.mem_append.mp member with old | new
  · exact ⟨rule, old, rfl, rfl⟩
  · exact absurd (unrecorded rule new) recorded

theorem eliminate {nullable : SymbolSet} {blocks : List (List (Rule History))}
    (eliminates : grammar.EliminatesTo next nullable blocks)
    (elided : ∀ rule ∈ grammar.rules, rule.link? ≠ none → rule.admitsElision = false) :
    next.SharesPrecedence splits := by
  refine shares.of_pieces fun other member recorded => ?_
  obtain ⟨rule, inRules, _, _, ⟨_, rfl⟩ | ⟨admits, _, _, rfl⟩⟩ := eliminates.exists_thinned member
  · exact ⟨other, inRules, rfl, rfl⟩
  · have unrecorded : rule.link? = none := by
      by_contra isPiece
      rw [elided rule inRules isPiece] at admits
      cases admits
    exact absurd (Rule.link?_variant unrecorded admits) recorded

theorem binarize (inventory : grammar.HasLinks splits) {chain : List (SplitRule History)}
    (binarizes : grammar.BinarizesTo next chain) :
    next.SharesPrecedence (splits ++ SplitRule.admitted chain) := by
  intro split inSplits top inRules isTop has piece alsoInRules link isLink recorded
  have later := inventory.binarize binarizes
  have isTopLink := SplitRule.top_mem_links (later.admits split inSplits)
  rcases inventory.piece_cases binarizes inSplits inRules isTopLink isTop with
    ⟨old, wasTop⟩ | ⟨new, alike⟩
  · rcases inventory.piece_cases binarizes inSplits alsoInRules isLink recorded with
      ⟨_, wasPiece⟩ | ⟨new, _⟩
    · exact shares split old top wasTop isTop has piece wasPiece link isLink recorded
    · exact absurd new (later.not_mem_of_mem old)
  · rcases inventory.piece_cases binarizes inSplits alsoInRules isLink recorded with
      ⟨old, _⟩ | ⟨_, alsoAlike⟩
    · exact absurd new (later.not_mem_of_mem old)
    · rw [alike] at has
      rw [alsoAlike]
      exact has

/-- A chain inherits a precedence in all of its pieces. -/
theorem resolve (inventory : grammar.HasLinks splits)
    (resolves : grammar.resolvePrecedence.result = .ok next) : next.SharesPrecedence splits := by
  intro split inSplits top inRules isTop has piece alsoInRules link isLink recorded
  obtain ⟨atTop, found⟩ := List.getElem?_of_mem inRules
  obtain ⟨atPiece, alsoFound⟩ := List.getElem?_of_mem alsoInRules
  obtain ⟨oldTop, before, alike⟩ := exists_rule_before_resolvePrecedence resolves found
  obtain ⟨oldPiece, alsoBefore, alsoAlike⟩ := exists_rule_before_resolvePrecedence resolves alsoFound
  have wasTop := (Rule.link?_eq_of_face alike).trans isTop
  have wasPiece := (Rule.link?_eq_of_face alsoAlike).trans recorded
  cases had : oldTop.hasPrecedence with
  | true =>
      refine precedence_isSome_of_resolvePrecedence resolves alsoFound alsoBefore ?_
      exact shares split inSplits oldTop (List.mem_of_getElem? before) wasTop had oldPiece
        (List.mem_of_getElem? alsoBefore) link isLink wasPiece
  | false =>
      have changed : next.rules[atTop]? ≠ grammar.rules[atTop]? := by
        rw [found, before]
        rintro same
        rw [Option.some.inj same, had] at has
        cases has
      obtain ⟨other, rule, precedence, atOther, inherits, inPieces⟩ :=
        exists_inherits_of_ne resolves changed
      refine Rule.hasPrecedence_of_isSettled (isSettled_of_inherits resolves alsoFound atOther inherits
        (inventory.mem_pieces_of_mem_pieces atOther
          (isBelowTop_eq_false_of_outside (List.mem_of_getElem? atOther) inherits.outside) inSplits
          (SplitRule.top_mem_links (inventory.admits split inSplits)) isLink
          (linkOf?_eq_some_iff.mpr ⟨oldTop, before, wasTop⟩) inPieces
          (linkOf?_eq_some_iff.mpr ⟨oldPiece, alsoBefore, wasPiece⟩)))

end SharesPrecedence

end Grammar

end TracedGrammar
