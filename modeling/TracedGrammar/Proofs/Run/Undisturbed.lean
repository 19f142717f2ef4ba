import Mathlib
import TracedGrammar.Proofs.Normalization.Erasure
import TracedGrammar.Proofs.Run.Resolution
import TracedGrammar.Proofs.Run.Tracing

/-!
# What is normalized stays as it is

An author may go on writing after a normalization and normalize again.  The rules from the first
normalization have nothing left for the passes over new rules, and their chains are found as before, so
they keep their places and their histories.
-/

namespace TracedGrammar

variable {H : Type} [RuleHistory H]

/-- A step gives no history by hand. -/
def Step.IsPlain : Step H → Prop
  | .command given => given.histories = []
  | .pass _ => True

/-- A command writes on a grammar with histories of its own.  It does not sort the rules, and it declares
no precedence of a symbol. -/
structure Command.WritesOn (command : Command H) : Prop where
  plain : command.histories = []
  unsorted : command ≠ .sort
  undeclaring : ∀ symbol precedence, command ≠ .declare symbol precedence

namespace Grammar

section Writing

variable {holds : H → Prop} {base grammar next : Grammar H}

theorem declared_of_perform {command : Command H}
    (undeclaring : ∀ symbol precedence, command ≠ .declare symbol precedence)
    (done : command.perform grammar = .ok next) : next.declared = grammar.declared := by
  have kept : KeptByAdding (fun (_ : H) (_ : Addition H) => True)
      fun _ other => other.declared = grammar.declared :=
    ⟨fun _ before => before, fun _ _ before _ => before, fun _ _ before _ => before⟩
  refine kept.command inheritable_true {} rfl (fun _ => rfl) ?label ?declare done
  case label =>
    intro handle change _ changed
    obtain ⟨-, changed⟩ := changed_of_changeHistory changed
    cases changed <;> rfl
  case declare =>
    rintro declared ⟨symbol, precedence, declares⟩
    exact absurd declares (undeclaring symbol precedence)

/-- A grammar has rules behind those of another, and only these can still be labelled. -/
structure ContinuesWith (holds : H → Prop) (base grammar : Grammar H) : Prop where
  rules : ∃ added, grammar.rules = base.rules ++ added ∧ ∀ rule ∈ added, holds rule.history
  sequences : ∀ sequence ∈ grammar.sequences, holds sequence.history
  supply_le : base.supply.allocated ≤ grammar.supply.allocated
  declared : grammar.declared = base.declared
  authoredFrom : grammar.authoredFrom = base.rules.length

namespace ContinuesWith

omit [RuleHistory H] in
theorem refl (plain : base.sequences = []) (numbered : base.authoredFrom = base.rules.length) :
    ContinuesWith holds base base :=
  ⟨⟨[], by simp⟩, by simp [plain], Nat.le_refl _, rfl, numbered⟩

variable (continues : ContinuesWith holds base grammar)
include continues

omit [RuleHistory H] in
theorem of_growsTo (grows : grammar.GrowsTo holds next) (declared : next.declared = grammar.declared)
    (authoredFrom : next.authoredFrom = grammar.authoredFrom) : ContinuesWith holds base next := by
  obtain ⟨added, rules, earlier⟩ := continues.rules
  obtain ⟨more, moreRules, later⟩ := grows.rules
  obtain ⟨waiting, moreSequences, new⟩ := grows.sequences
  refine ⟨⟨added ++ more, ?_, fun rule member => ?_⟩, fun sequence member => ?_,
    Nat.le_trans continues.supply_le grows.supply_le, declared.trans continues.declared,
    authoredFrom.trans continues.authoredFrom⟩
  · rw [moreRules, rules, List.append_assoc]
  · exact (List.mem_append.mp member).elim (earlier rule) (later rule)
  · rw [moreSequences] at member
    exact (List.mem_append.mp member).elim (continues.sequences sequence) (new sequence)

omit [RuleHistory H] in
/-- What can be labelled comes after the rules of the other grammar. -/
theorem changeHistory {handle : Handle} {change : H → Except GrammarError H}
    (keeps : ∀ history other, holds history → change history = .ok other → holds other)
    (done : grammar.changeHistory handle change = .ok next) : ContinuesWith holds base next := by
  obtain ⟨added, rules, earlier⟩ := continues.rules
  obtain ⟨-, changed⟩ := changed_of_changeHistory done
  cases changed with
  | @rule index rule history authored found changed =>
      have behind : base.rules.length ≤ index := continues.authoredFrom ▸ authored
      rw [rules, List.getElem?_append_right behind] at found
      refine ⟨⟨added.set (index - base.rules.length) { rule with history }, ?_, ?_⟩,
        continues.sequences, continues.supply_le, continues.declared, continues.authoredFrom⟩
      · simp only [rules, List.set_append_right _ _ behind]
      · intro other member
        rcases List.mem_or_eq_of_mem_set member with old | rfl
        · exact earlier other old
        · exact keeps _ _ (earlier rule (List.mem_of_getElem? found)) changed
  | @sequence index sequence history _ found changed =>
      refine ⟨⟨added, rules, earlier⟩, fun other member => ?_, continues.supply_le, continues.declared,
        continues.authoredFrom⟩
      rcases List.mem_or_eq_of_mem_set member with old | rfl
      · exact continues.sequences other old
      · exact keeps _ _ (continues.sequences sequence (List.mem_of_getElem? found)) changed

theorem command (written : HoldsOfWritten holds) {command : Command H} (writes : command.WritesOn)
    (done : command.perform grammar = .ok next) : ContinuesWith holds base next := by
  rcases cases_of_perform written (by simp [writes.plain]) done with
    grows | ⟨sorts, _⟩ | ⟨_, _, done⟩ | ⟨_, _, _, done⟩ | ⟨declared, rfl⟩
  · exact continues.of_growsTo grows (declared_of_perform writes.undeclaring done)
      (keepsOffsets_of_perform done).authoredFrom
  · exact absurd sorts writes.unsorted
  · exact continues.changeHistory (fun _ _ => written.setAction _ _ _) done
  · exact continues.changeHistory (fun _ _ => written.setPrecedence _ _ _) done
  · have same : declared = grammar.declared := declared_of_perform writes.undeclaring done
    rw [same]
    exact continues

theorem foldlM (written : HoldsOfWritten holds) {commands : List (Command H)}
    (writes : ∀ command ∈ commands, command.WritesOn)
    (done : commands.foldlM Command.perform grammar = .ok next) : ContinuesWith holds base next := by
  induction commands generalizing grammar with
  | nil =>
      cases done
      exact continues
  | cons command commands induction =>
      rw [List.forall_mem_cons] at writes
      rw [List.foldlM_cons, bind_eq_ok_iff] at done
      obtain ⟨middle, first, rest⟩ := done
      exact induction (continues.command written writes.1 first) writes.2 rest

end ContinuesWith

end Writing

section Chains

variable {grammar next result : Grammar History} {splits more : List (SplitRule History)}

theorem keptByPasses_isLinked : KeptByPasses fun grammar => ∃ splits, grammar.IsLinked splits where
  expand := fun ⟨splits, linked⟩ done => ⟨splits, linked.expand done⟩
  eliminate := fun ⟨splits, linked⟩ done => ⟨splits, linked.eliminate done⟩
  binarize := fun ⟨_, linked⟩ done => by
    obtain ⟨chain, binarizes⟩ := exists_binarizesTo done
    exact ⟨_, linked.binarize done binarizes⟩
  resolve := fun ⟨splits, linked⟩ done => ⟨splits, linked.resolve done⟩
  finish := fun ⟨splits, linked⟩ binarized => ⟨splits, linked.finish binarized⟩

theorem exists_isLinked_of_arises (arises : grammar.Arises fun _ step => step.IsPlain) :
    ∃ splits, grammar.IsLinked splits :=
  keptByPasses_isLinked.of_arises (fun supply => ⟨[], .start supply⟩)
    (fun ⟨splits, linked⟩ plain done => ⟨splits, linked.command plain done⟩) arises

section Earlier

variable (inventory : grammar.HasLinks splits) (later : next.HasLinks (splits ++ more))
  (before : grammar.rules <+: next.rules)
include inventory later before

/-- The chains that earlier rules belong to are earlier ones, and are read as they were. -/
theorem HasLinks.earlier_of_mem_pieces {top index : Nat} {rule : Rule History}
    (found : next.rules[top]? = some rule) (shallow : rule.isBelowTop = false)
    (inPieces : index ∈ next.chains.pieces top) (inside : index < grammar.rules.length) :
    grammar.rules[top]? = some rule ∧ index ∈ grammar.chains.pieces top ∧
      grammar.chains.fullRhs top = next.chains.fullRhs top := by
  have same : grammar.rules[index]? = next.rules[index]? := by
    rw [List.getElem?_eq_getElem inside, List.prefix_iff_getElem?.mp before index inside]
  rcases later.cases_of_mem_pieces found shallow inPieces with
    ⟨rfl, unrecorded⟩ | ⟨split, inBoth, recorded, piece, atIndex, link, isLink, isPiece⟩
  · have also := same.trans found
    obtain ⟨_, alone, whole⟩ := pieces_of_not_link also unrecorded
    refine ⟨also, alone ▸ List.mem_singleton_self _, ?_⟩
    rw [whole, (pieces_of_not_link found unrecorded).2.2]
  · have alsoAtIndex := same.trans atIndex
    obtain ⟨old, inSplits, depth, bound, rfl⟩ :=
      inventory.exists_linkAt (List.mem_of_getElem? alsoAtIndex) isPiece
    -- A piece among the earlier rules shows that its chain is an earlier one, with its top.
    obtain rfl := later.eq_of_mem_links (List.mem_append_left more inSplits) inBoth
      (SplitRule.mem_links.mpr ⟨depth, bound, rfl⟩) isLink
    obtain ⟨oldTop, oldRule, atTop, isTop⟩ := inventory.exists_rule inSplits (by omega : 0 + 2 ≤ _)
    have atTopLater : next.rules[oldTop]? = some oldRule := by
      obtain ⟨insideTop, rfl⟩ := List.getElem?_eq_some_iff.mp atTop
      exact List.prefix_iff_getElem?.mp before oldTop insideTop
    obtain rfl := later.index_eq_of_link found atTopLater recorded isTop
    obtain rfl := Option.some.inj (found.symm.trans atTopLater)
    have here := linkOf?_eq_some_iff.mpr ⟨piece, alsoAtIndex, isPiece⟩
    refine ⟨atTop, (inventory.mem_pieces_iff inSplits atTop isTop).mpr ⟨_, isLink, here⟩, ?_⟩
    rw [(inventory.pieces_of_top inSplits atTop isTop).2.2,
      (later.pieces_of_top inBoth found isTop).2.2]

omit inventory later in
theorem isChainSymbol_eq_false_before {symbol : Symbol}
    (outside : next.chains.isChainSymbol symbol = false) :
    grammar.chains.isChainSymbol symbol = false := by
  rw [← Bool.not_eq_true, chains, Chains.isChainSymbol_ofRules_iff] at outside ⊢
  rintro ⟨rule, member, deep, same⟩
  exact outside ⟨rule, before.subset member, deep, same⟩

/-- What earlier chains can inherit they had inherited. -/
theorem HasLinks.prefix_of_resolvePrecedence (resolved : grammar.IsResolved)
    (declared : next.declared = grammar.declared)
    (done : next.resolvePrecedence.result = .ok result) : grammar.rules <+: result.rules := by
  refine List.prefix_iff_getElem?.mpr fun index inside => ?_
  have here := List.prefix_iff_getElem?.mp before index inside
  rw [getElem?_resolvePrecedence done ?settled, here]
  case settled =>
    intro top rule precedence found inherits inPieces
    have shallow := isBelowTop_eq_false_of_outside (List.mem_of_getElem? found) inherits.outside
    obtain ⟨atTop, wasPiece, fullRhs⟩ :=
      inventory.earlier_of_mem_pieces later before found shallow inPieces inside
    have inherited : grammar.Inherits grammar.chains rule top precedence :=
      ⟨isChainSymbol_eq_false_before before inherits.outside, inherits.missing, by
        rw [fullRhs, ← declared]
        exact inherits.declares⟩
    refine (resolved top rule atTop precedence inherited index wasPiece).of_getElem?_eq ?_
    rw [List.getElem?_toArray, List.getElem?_toArray, here, List.getElem?_eq_getElem inside]

end Earlier

namespace ContinuesWith

variable {base : Grammar History} {limits : Limits}
  (continues : ContinuesWith (fun history => history.isAuthored = true) base grammar)
include continues

theorem hasLinks (inventory : base.HasLinks splits) : grammar.HasLinks splits := by
  obtain ⟨added, rules, authored⟩ := continues.rules
  refine inventory.append rules continues.supply_le fun rule member => ?_
  exact Rule.link?_eq_none_of_isAuthored (authored rule member)

theorem recorded (elided : ∀ rule ∈ base.rules, rule.admitsElision = false) : grammar.Recorded where
  elided := by
    obtain ⟨added, rules, authored⟩ := continues.rules
    intro rule member split
    rw [rules] at member
    rcases List.mem_append.mp member with old | new
    · rw [Ne, ← Rule.admitsElision_iff, Bool.not_eq_true]
      exact elided rule old
    · exact absurd (History.chainPiece_eq_none_of_isAuthored (authored rule new)) split
  waiting := fun sequence member =>
    History.chainPiece_eq_none_of_isAuthored (continues.sequences sequence member)

/-- The passes have nothing to do for the rules of a normal grammar. -/
theorem prefix_of_normalize {others : Limits} (normal : base.IsNormal limits)
    (inventory : base.HasLinks splits) (done : (grammar.normalize others).result = .ok result) :
    base.rules <+: result.rules := by
  obtain ⟨expanded, eliminated, binarized, resolved, expansion, elimination, binarization, resolution,
    rfl⟩ := exists_passes_of_normalize done
  obtain ⟨sequences, expands⟩ := exists_expandsTo expansion
  obtain ⟨blocks, eliminates⟩ := exists_eliminatesTo elimination
  obtain ⟨chain, binarizes⟩ := exists_binarizesTo binarization
  have recorded := continues.recorded normal.elided
  have expandedLinks := (continues.hasLinks inventory).expand expands recorded.waiting
  have eliminatedLinks :=
    expandedLinks.eliminate eliminates (recorded.expand expands).admitsElision_eq_false
  have written : base.rules <+: grammar.rules := by
    obtain ⟨added, rules, _⟩ := continues.rules
    exact ⟨added, rules.symm⟩
  have afterExpansion : base.rules <+: expanded.rules := by
    rw [expands.rules_eq]
    exact written.trans (List.prefix_append _ _)
  have afterElimination := eliminates.prefix_of_refuses afterExpansion normal.elided
  have afterBinarization := binarizes.prefix_of_refuses afterElimination normal.split
  have declared : binarized.declared = base.declared := by
    rw [binarize_eq_afterPass binarization, eliminateNullingWith_eq_afterPass elimination,
      expandSequences_eq_afterPass expansion]
    exact continues.declared
  have afterResolution : base.rules <+: resolved.rules :=
    inventory.prefix_of_resolvePrecedence (eliminatedLinks.binarize binarizes) afterBinarization
      normal.resolved declared resolution
  exact afterResolution

end ContinuesWith

end Chains

/-- Where histories record nothing, rules from sequences come after all others. -/
theorem ContinuesWith.prefix_of_normalize_untracked {holds : Untracked → Prop}
    {base grammar result : Grammar Untracked} {limits : Limits}
    (continues : ContinuesWith holds base grammar)
    (done : (grammar.normalize limits).result = .ok result) : base.rules <+: result.rules := by
  obtain ⟨expanded, expansion, _, rfl⟩ := normalize_untracked_iff.mp done
  obtain ⟨chain, expands⟩ := exists_expandsTo expansion
  obtain ⟨added, rules, _⟩ := continues.rules
  change base.rules <+: expanded.rules
  rw [expands.rules_eq, rules, List.append_assoc]
  exact List.prefix_append _ _

/-- A grammar is normalized, written on and normalized again, within any limits.  The rules from the
first normalization come first after the second one, just as they were. -/
theorem rules_prefix_of_normalize_again :
    (∀ (grammar normal written result : Grammar History) (limits others : Limits)
      (commands : List (Command History)), grammar.Arises (fun _ step => step.IsPlain) →
      (grammar.normalize limits).result = .ok normal →
      (∀ command ∈ commands, command.WritesOn) →
      commands.foldlM Command.perform normal = .ok written →
      (written.normalize others).result = .ok result → normal.rules <+: result.rules) ∧
    ∀ (grammar normal written result : Grammar Untracked) (limits others : Limits)
      (commands : List (Command Untracked)),
      (grammar.normalize limits).result = .ok normal →
      (∀ command ∈ commands, command.WritesOn) →
      commands.foldlM Command.perform normal = .ok written →
      (written.normalize others).result = .ok result → normal.rules <+: result.rules := by
  constructor
  · intro grammar normal written result limits others commands arises normalization writes done again
    obtain ⟨splits, linked⟩ := keptByPasses_isLinked.pass (exists_isLinked_of_arises arises)
      (show ((Pass.normalize limits).run grammar).result = .ok normal from normalization)
    have isNormal := isNormal_of_normalize normalization
    have continues := (ContinuesWith.refl isNormal.plain isNormal.numbered).foldlM
      History.holdsOfWritten_isAuthored writes done
    exact continues.prefix_of_normalize isNormal linked.inventory again
  · intro grammar normal written result limits others commands normalization writes done again
    have isNormal := isNormal_of_normalize normalization
    have any : HoldsOfWritten fun _ : Untracked => True :=
      ⟨trivial, fun _ => trivial, fun _ _ _ _ _ => trivial, fun _ _ _ _ _ => trivial⟩
    have continues := (ContinuesWith.refl isNormal.plain isNormal.numbered).foldlM any writes done
    exact continues.prefix_of_normalize_untracked again

/-- A sum and its operands are written, with a precedence for the operator. -/
def sumSteps (H : Type) : List (Step H) :=
  [.command (.declare ⟨1⟩ ⟨1, .left⟩),
    .command (.rule ⟨0⟩ [⟨0⟩, ⟨1⟩, ⟨0⟩]),
    .command (.rule ⟨0⟩ [⟨2⟩])]

/-- An operand may now be empty, and longer sums and lists of operands are written, partly with builders.
Two of the new rules get an action or a precedence. -/
def sumCommands (H : Type) (normal : Grammar H) : List (Command H) :=
  [.rule ⟨2⟩ [],
    .rules ⟨0⟩ [.alternative [⟨0⟩, ⟨1⟩, ⟨0⟩, ⟨1⟩, ⟨0⟩], .rule ⟨3⟩, .alternative [⟨2⟩, ⟨1⟩, ⟨2⟩]],
    .sequence ⟨2⟩ ⟨⟨3⟩, 0, none, .absent⟩,
    .action (.rule normal.rules.length) ⟨7⟩,
    .precedence (.rule (normal.rules.length + 1)) ⟨7, .right⟩,
    .finishedTiers ⟨2⟩ [.alternative [⟨3⟩], .lower, .alternative [⟨2⟩, ⟨1⟩, ⟨2⟩]]]

theorem writesOn_sumCommands {H : Type} {normal : Grammar H} :
    ∀ command ∈ sumCommands H normal, command.WritesOn := by
  intro command member
  simp only [sumCommands, List.mem_cons, List.not_mem_nil, or_false] at member
  rcases member with rfl | rfl | rfl | rfl | rfl | rfl <;>
    exact ⟨rfl, fun same => (nomatch same), fun _ _ same => (nomatch same)⟩

/-- The sums, after a normalization, with what is written then, and after another normalization. -/
def sumRun (H : Type) [RuleHistory H] :
    Except GrammarError (Grammar H × Grammar H × Grammar H × Grammar H) := do
  let sums ← (sumSteps H).foldlM Step.perform { supply := ⟨4⟩ }
  let normal ← (sums.normalize {}).result
  let written ← (sumCommands H normal).foldlM Command.perform normal
  let result ← (written.normalize { rules := some 500 }).result
  return (sums, normal, written, result)

/-- How many rules there are after the first normalization, and how many after the second one. -/
def sumCounts (H : Type) [RuleHistory H] : Except GrammarError (Nat × Nat) :=
  (sumRun H).map fun last => (last.2.1.rules.length, last.2.2.2.rules.length)

theorem exists_sumRun {H : Type} [RuleHistory H] {before after : Nat}
    (counts : sumCounts H = .ok (before, after)) :
    ∃ sums normal written result : Grammar H, sumRun H = .ok (sums, normal, written, result) ∧
      normal.rules.length = before ∧ result.rules.length = after := by
  unfold sumCounts at counts
  cases done : sumRun H with
  | error failure =>
      rw [done] at counts
      cases counts
  | ok last =>
      rw [done] at counts
      cases counts
      exact ⟨_, _, _, _, rfl, rfl, rfl⟩

theorem steps_of_sumRun {H : Type} [RuleHistory H] {sums normal written result : Grammar H}
    (run : sumRun H = .ok (sums, normal, written, result)) :
    (sumSteps H).foldlM Step.perform { supply := ⟨4⟩ } = .ok sums ∧
      (sums.normalize {}).result = .ok normal ∧
      (sumCommands H normal).foldlM Command.perform normal = .ok written ∧
      (written.normalize { rules := some 500 }).result = .ok result := by
  simp only [sumRun, bind_eq_ok_iff] at run
  obtain ⟨_, first, _, second, _, third, _, fourth, same⟩ := run
  cases same
  exact ⟨first, second, third, fourth⟩

/-- There are old rules from a chain, which have a precedence, and there is an old rule with a symbol
that is nullable now. -/
theorem sumRun_rules_prefix_of_normalize_again :
    (∃ sums normal written result : Grammar History,
      sumRun History = .ok (sums, normal, written, result) ∧ normal.rules.length = 3 ∧
        result.rules.length = 37 ∧ normal.rules <+: result.rules) ∧
    ∃ sums normal written result : Grammar Untracked,
      sumRun Untracked = .ok (sums, normal, written, result) ∧ normal.rules.length = 2 ∧
        result.rules.length = 11 ∧ normal.rules <+: result.rules := by
  constructor
  · obtain ⟨sums, normal, written, result, run, before, after⟩ :=
      exists_sumRun (by cbv : sumCounts History = .ok (3, 37))
    obtain ⟨start, once, added, again⟩ := steps_of_sumRun run
    have arises : sums.Arises fun _ step => step.IsPlain := by
      refine arises_of_foldlM (fun step member grammar => ?_) start
      simp only [sumSteps, List.mem_cons, List.not_mem_nil, or_false] at member
      rcases member with rfl | rfl | rfl <;> rfl
    exact ⟨sums, normal, written, result, run, before, after, rules_prefix_of_normalize_again.1 sums
      normal written result {} _ _ arises once writesOn_sumCommands added again⟩
  · obtain ⟨sums, normal, written, result, run, before, after⟩ :=
      exists_sumRun (by cbv : sumCounts Untracked = .ok (2, 11))
    obtain ⟨_, once, added, again⟩ := steps_of_sumRun run
    exact ⟨sums, normal, written, result, run, before, after, rules_prefix_of_normalize_again.2 sums
      normal written result {} _ _ once writesOn_sumCommands added again⟩

end Grammar

end TracedGrammar
