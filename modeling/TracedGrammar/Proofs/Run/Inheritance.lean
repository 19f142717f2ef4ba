import TracedGrammar.Proofs.Chain.Places
import TracedGrammar.Proofs.Precedence.Stability
import TracedGrammar.Proofs.Run.Ancestry
import TracedGrammar.Proofs.Run.Steps

/-!
# What passes hand on

A pass makes a block of rules from each rule or sequence that it works on, and all rules of a block
descend from what the block was made from.  No pass leaves fewer rules than there were, so the handles
of rules that are added later are new.
-/

namespace TracedGrammar

section Blocks

variable {α β γ : Type}

/-- Every item of a block has the owner of what the block was made from. -/
def spread (owners : List α) (blocks : List (List β)) : List α :=
  (owners.zip blocks).flatMap fun owned => List.replicate owned.2.length owned.1

theorem mem_of_mem_spread {owners : List α} {blocks : List (List β)} {owner : α}
    (member : owner ∈ spread owners blocks) : owner ∈ owners := by
  obtain ⟨owned, inside, copied⟩ := List.mem_flatMap.mp member
  rw [List.eq_of_mem_replicate copied]
  exact (List.of_mem_zip inside).1

theorem forall₂_replicate {related : α → β → Prop} {items : List α} {owner : β}
    (all : ∀ item ∈ items, related item owner) :
    List.Forall₂ related items (List.replicate items.length owner) := by
  induction items with
  | nil => exact .nil
  | cons item items induction =>
      rw [List.forall_mem_cons] at all
      exact .cons all.1 (induction all.2)

theorem forall₂_spread {related : α → β → Prop} {made : γ → β → Prop} {items : List α}
    {owners : List β} {blocks : List (List γ)} (owned : List.Forall₂ related items owners)
    (makes : List.Forall₂ (fun item block => ∀ owner, related item owner → ∀ new ∈ block,
      made new owner) items blocks) : List.Forall₂ made blocks.flatten (spread owners blocks) := by
  induction owned generalizing blocks with
  | nil =>
      cases makes
      exact .nil
  | cons here _ induction =>
      cases makes with
      | cons block later => exact List.rel_append (forall₂_replicate (block _ here)) (induction later)

theorem length_le_length_flatten {items : List α} {blocks : List (List β)}
    (nonempty : List.Forall₂ (fun _ block => block ≠ []) items blocks) :
    items.length ≤ blocks.flatten.length := by
  induction nonempty with
  | nil => exact Nat.le_refl _
  | cons here _ induction =>
      have := List.length_pos_iff.mpr here
      rw [List.length_cons, List.flatten_cons, List.length_append]
      omega

end Blocks

theorem Stage.max_ne_authored {stage other : Stage} (late : other ≠ .authored) :
    max stage other ≠ .authored := by
  intro same
  apply late
  apply rank_injective
  have ranks := congrArg rank same
  rw [rank_max] at ranks
  exact Nat.le_zero.mp (Nat.le_trans (Nat.le_max_right _ _) (Nat.le_of_eq ranks))

variable {H : Type}

theorem Grammar.authoredFrom_of_afterPass {grammar next : Grammar H} {sequences : List (Sequence H)}
    (written : next = grammar.afterPass next.supply next.rules sequences next.stage)
    (late : next.stage ≠ .authored) : next.authoredFrom = next.rules.length := by
  rw [written]
  exact if_neg late

namespace Ancestry

/-- The rules of a grammar have been made anew, and no sequences are left. -/
def handOn (ancestry : Ancestry H) (rules : List (Addition H)) : Ancestry H :=
  { ancestry with rules, sequences := [] }

namespace Fits

variable {holds : H → Addition H → Prop} {ancestry : Ancestry H} {grammar : Grammar H}

/-- Nothing that was added so far has been left alone by a pass that has worked on all rules. -/
theorem filter_isAuthored_eq_nil (fits : ancestry.Fits holds grammar) {next : Grammar H}
    (beyond : grammar.rules.length ≤ next.authoredFrom) {owners : List (Addition H)}
    (known : ∀ owner ∈ owners, owner ∈ ancestry.additions) :
    (owners.map Addition.handle).filter next.isAuthored = [] := by
  rw [List.filter_eq_nil_iff, List.forall_mem_map]
  intro owner member authored
  have issued := fits.issued owner (known owner member)
  cases given : owner.handle with
  | rule index =>
      rw [given] at authored issued
      have above := of_decide_eq_true authored
      exact absurd (Nat.lt_of_lt_of_le issued beyond) (Nat.not_lt.mpr above)
  | sequence index =>
      rw [given] at authored
      cases authored

theorem retire (fits : ancestry.Fits holds grammar) :
    ancestry.Fits holds { grammar with authoredFrom := grammar.rules.length } where
  rules := fits.rules
  sequences := fits.sequences
  rule_known := fits.rule_known
  sequence_known := fits.sequence_known
  distinct := fits.distinct
  issued := fits.issued
  authoredFrom_le := Nat.le_refl _
  authored := by
    rw [fits.filter_isAuthored_eq_nil (Nat.le_refl _) fits.rule_known, Nat.sub_self]
    exact .nil
  waiting := fits.waiting

/-- All rules and sequences have been worked on. -/
theorem handOn (fits : ancestry.Fits holds grammar) {owners : List (Addition H)} {next : Grammar H}
    (written : next = grammar.afterPass next.supply next.rules [] next.stage)
    (late : next.stage ≠ .authored)
    (rules : List.Forall₂ (fun rule addition => holds rule.history addition) next.rules owners)
    (known : ∀ owner ∈ owners, owner ∈ ancestry.additions)
    (longer : grammar.rules.length ≤ next.rules.length) :
    (ancestry.handOn owners).Fits holds next := by
  have authoredFrom := Grammar.authoredFrom_of_afterPass written late
  have sequences : next.sequences = [] := by rw [written]; rfl
  have consumed : next.sequencesConsumed = grammar.sequencesConsumed + grammar.sequences.length := by
    rw [written]
    rfl
  constructor
  case rules => exact rules
  case sequences =>
    rw [sequences]
    exact .nil
  case rule_known => exact known
  case sequence_known => exact List.forall_mem_nil _
  case distinct => exact fits.distinct
  case issued =>
    intro addition member
    exact (fits.issued addition member).mono longer (by rw [consumed]; exact Nat.le_add_right _ _)
  case authoredFrom_le => exact Nat.le_of_eq authoredFrom
  case authored =>
    rw [Ancestry.handOn, fits.filter_isAuthored_eq_nil (by rw [authoredFrom]; exact longer) known,
      authoredFrom, Nat.sub_self]
    exact .nil
  case waiting =>
    rw [sequences]
    rfl

end Fits

end Ancestry

variable [RuleHistory H]

theorem Rule.HasVariants.ne_nil {rule : Rule H} {nullable : SymbolSet} {block : List (Rule H)}
    (variants : rule.HasVariants nullable block) : block ≠ [] := by
  cases admits : rule.admitsElision with
  | false =>
      rw [variants.kept admits]
      exact List.cons_ne_nil _ _
  | true =>
      obtain ⟨elision, member⟩ := variants.complete admits rule.rhs (.refl rule.rhs)
      exact List.ne_nil_of_mem member

namespace Grammar

variable {grammar next : Grammar H}

theorem expandSequences_eq_afterPass {limits : Limits}
    (done : (grammar.expandSequences limits).result = .ok next) :
    next = grammar.afterPass next.supply next.rules [] next.stage := by
  simp only [expandSequences, Reported.bind_result_eq_ok_iff] at done
  obtain ⟨_, _, _, _, same⟩ := done
  cases same
  rfl

theorem stage_expandSequences_ne {limits : Limits}
    (done : (grammar.expandSequences limits).result = .ok next) : next.stage ≠ .authored := by
  rw [stage_expandSequences done]
  exact Stage.max_ne_authored (by decide)

theorem stage_eliminateNullingWith_ne {nullable : SymbolSet} {limits : Limits}
    (done : (grammar.eliminateNullingWith nullable limits).result = .ok next) :
    next.stage ≠ .authored := by
  rw [(stage_eliminateNullingWith done).2]
  exact Stage.max_ne_authored (by decide)

theorem stage_binarize_ne {limits : Limits} (done : (grammar.binarize limits).result = .ok next) :
    next.stage ≠ .authored := by
  rw [(stage_binarize done).2]
  exact Stage.max_ne_authored (by decide)

theorem eliminateNullingWith_eq_afterPass {nullable : SymbolSet} {limits : Limits}
    (done : (grammar.eliminateNullingWith nullable limits).result = .ok next) :
    next = grammar.afterPass next.supply next.rules [] next.stage := by
  unfold eliminateNullingWith at done
  split at done
  · simp only [Reported.bind_result_eq_ok_iff] at done
    obtain ⟨_, _, _, _, same⟩ := done
    cases same
    rfl
  · cases done

theorem binarize_eq_afterPass {limits : Limits}
    (done : (grammar.binarize limits).result = .ok next) :
    next = grammar.afterPass next.supply next.rules [] next.stage := by
  unfold binarize at done
  split at done
  · simp only [Reported.bind_result_eq_ok_iff] at done
    obtain ⟨_, _, _, _, same⟩ := done
    cases same
    rfl
  · cases done

theorem resolvePrecedence_eq_afterPass (done : grammar.resolvePrecedence.result = .ok next) :
    next = grammar.afterPass next.supply next.rules grammar.sequences next.stage := by
  obtain ⟨_, _, rfl⟩ := exists_resolution done
  rfl

theorem length_resolvePrecedence (done : grammar.resolvePrecedence.result = .ok next) :
    next.rules.length = grammar.rules.length := by
  have hides : HidesPrecedence fun _ : Rule H => () := fun _ _ _ _ => rfl
  simpa using congrArg List.length (map_resolvePrecedence hides done)

theorem ExpandsTo.length_le {chain : List (ExpandedSequence H)}
    (expands : grammar.ExpandsTo next chain) : grammar.rules.length ≤ next.rules.length := by
  rw [expands.rules_eq, List.length_append]
  exact Nat.le_add_right _ _

theorem EliminatesTo.length_le {nullable : SymbolSet} {blocks : List (List (Rule H))}
    (eliminates : grammar.EliminatesTo next nullable blocks) :
    grammar.rules.length ≤ next.rules.length := by
  rw [eliminates.rules_eq]
  exact length_le_length_flatten (eliminates.variants.imp fun _ _ variants => variants.ne_nil)

theorem BinarizesTo.length_le {chain : List (SplitRule H)} (binarizes : grammar.BinarizesTo next chain) :
    grammar.rules.length ≤ next.rules.length := by
  rw [binarizes.pieces_eq, List.flatMap_def, ← binarizes.rules_eq]
  apply length_le_length_flatten
  rw [List.forall₂_map_left_iff, List.forall₂_map_right_iff, List.forall₂_same]
  intro split _
  rw [← List.length_pos_iff, SplitRule.length_pieces]
  exact Nat.succ_pos _

/-- Where precedence is resolved, histories stay in relation to what they were in relation to. -/
theorem forall₂_resolvePrecedence {holds : H → Addition H → Prop} (inheritable : Inheritable holds)
    (done : grammar.resolvePrecedence.result = .ok next) {owners : List (Addition H)}
    (rules : List.Forall₂ (fun rule addition => holds rule.history addition) grammar.rules owners) :
    List.Forall₂ (fun rule addition => holds rule.history addition) next.rules owners := by
  have length := length_resolvePrecedence done
  obtain ⟨resolution, folded, same⟩ := exists_resolution done
  rw [List.forall₂_iff_get] at rules ⊢
  refine ⟨length.trans rules.1, fun index inNext inOwners => ?_⟩
  have inRules : index < grammar.rules.length := length ▸ inNext
  have before : HoldsAt (holds · (owners.get ⟨index, inOwners⟩)) grammar.rules.toArray index := by
    intro rule found
    rw [List.getElem?_toArray, List.getElem?_eq_getElem inRules] at found
    cases found
    exact rules.2 index inRules inOwners
  have lasting : IsLasting (holds · (owners.get ⟨index, inOwners⟩)) :=
    fun _ _ precedence set held => inheritable.setPrecedence precedence held set
  refine before.fold_resolveRule lasting folded _ ?_
  have written : next.rules = resolution.rules.toList := congrArg (·.rules) same
  rw [← Array.getElem?_toList, ← written]
  exact List.getElem?_eq_getElem inNext

end Grammar

namespace Inheritable

variable {holds : H → Addition H → Prop} (inheritable : Inheritable holds) {rule : Rule H}
  {owner : Addition H} (held : holds rule.history owner)
include inheritable held

theorem variant (rhs : List Symbol) (elision : Elision) :
    holds (rule.variant rhs elision).history owner := by
  rw [Rule.variant]
  cases elided : RuleHistory.elide rule.history elision with
  | none => exact held
  | some history => exact inheritable.elide elision held elided

theorem piece (link : ChainRule) : holds (rule.piece link).history owner := by
  rw [Rule.piece]
  cases split : RuleHistory.split rule.history link.piece with
  | none => exact held
  | some history => exact inheritable.split link.piece held split

theorem block {nullable : SymbolSet} {block : List (Rule H)} (variants : rule.HasVariants nullable block)
    {new : Rule H} (member : new ∈ block) : holds new.history owner := by
  cases admits : rule.admitsElision with
  | false =>
      rw [variants.kept admits, List.mem_singleton] at member
      rwa [member]
  | true =>
      obtain ⟨rhs, elision, _, rfl⟩ := variants.thinned admits new member
      exact inheritable.variant held rhs elision

end Inheritable

namespace Ancestry.Fits

variable {holds : H → Addition H → Prop} {ancestry : Ancestry H} {grammar next : Grammar H}
  {limits : Limits} (fits : ancestry.Fits holds grammar) (inheritable : Inheritable holds)
include fits inheritable

theorem expand (done : (grammar.expandSequences limits).result = .ok next)
    {chain : List (ExpandedSequence H)} (expands : grammar.ExpandsTo next chain) :
    (ancestry.handOn (ancestry.rules ++
      spread ancestry.sequences (chain.map ExpandedSequence.rules))).Fits holds next := by
  refine fits.handOn (Grammar.expandSequences_eq_afterPass done)
    (Grammar.stage_expandSequences_ne done) ?rules ?known expands.length_le
  case rules =>
    rw [expands.rules_eq, List.flatMap_def]
    refine List.rel_append fits.rules (forall₂_spread fits.sequences ?_)
    rw [← expands.sequences_eq, List.forall₂_map_left_iff, List.forall₂_map_right_iff,
      List.forall₂_same]
    intro expanded _ owner held rule member
    obtain ⟨production, _, rfl⟩ := List.mem_map.mp member
    exact inheritable.unroll _ held
  case known =>
    rw [List.forall_mem_append]
    exact ⟨fits.rule_known, fun owner member =>
      fits.sequence_known owner (mem_of_mem_spread member)⟩

theorem eliminate {nullable : SymbolSet}
    (done : (grammar.eliminateNullingWith nullable limits).result = .ok next)
    {blocks : List (List (Rule H))}
    (makes : List.Forall₂ (Grammar.MadeFrom nullable limits) grammar.rules blocks)
    (written : next.rules = blocks.flatten) :
    (ancestry.handOn (spread ancestry.rules blocks)).Fits holds next := by
  have variants := makes.imp fun rule block ⟨_, made⟩ => Rule.hasVariants_of_variants made
  refine fits.handOn (Grammar.eliminateNullingWith_eq_afterPass done)
    (Grammar.stage_eliminateNullingWith_ne done) ?rules ?known ?longer
  case rules =>
    rw [written]
    exact forall₂_spread fits.rules (variants.imp fun _ _ has _ held _ member =>
      inheritable.block held has member)
  case known => exact fun owner member => fits.rule_known owner (mem_of_mem_spread member)
  case longer =>
    rw [written]
    exact length_le_length_flatten (variants.imp fun _ _ has => has.ne_nil)

theorem binarize (done : (grammar.binarize limits).result = .ok next) {chain : List (SplitRule H)}
    (binarizes : grammar.BinarizesTo next chain) :
    (ancestry.handOn (spread ancestry.rules (chain.map SplitRule.pieces))).Fits holds next := by
  refine fits.handOn (Grammar.binarize_eq_afterPass done) (Grammar.stage_binarize_ne done) ?rules
    ?known binarizes.length_le
  case rules =>
    rw [binarizes.pieces_eq, List.flatMap_def]
    refine forall₂_spread fits.rules ?_
    rw [← binarizes.rules_eq, List.forall₂_map_left_iff, List.forall₂_map_right_iff,
      List.forall₂_same]
    intro split _ owner held piece member
    rcases SplitRule.eq_or_exists_pieceAt member with ⟨_, rfl⟩ | ⟨_, depth, _, rfl⟩
    · exact held
    · exact inheritable.piece held _
  case known => exact fun owner member => fits.rule_known owner (mem_of_mem_spread member)

/-- Rules get a precedence in place.  At the first stage they keep their handles. -/
theorem resolve (done : grammar.resolvePrecedence.result = .ok next) : ancestry.Fits holds next := by
  have written := Grammar.resolvePrecedence_eq_afterPass done
  have rules := Grammar.forall₂_resolvePrecedence inheritable done fits.rules
  have sequences : next.sequences = grammar.sequences := Grammar.sequences_resolvePrecedence done
  have waiting : List.Forall₂ (fun sequence addition => holds sequence.history addition)
      next.sequences ancestry.sequences := sequences ▸ fits.sequences
  have consumed : next.sequencesConsumed = grammar.sequencesConsumed := by
    rw [written]
    exact Nat.add_eq_left.mpr (Nat.sub_self _)
  by_cases authored : next.stage = .authored
  · refine fits.of_forall₂ rules waiting ?_ consumed
    rw [written]
    exact if_pos authored
  · refine fits.retire.of_forall₂ rules waiting ?_ consumed
    rw [written]
    exact (if_neg authored).trans (Grammar.length_resolvePrecedence done)

end Ancestry.Fits

/-- A pass succeeds, and all that it makes is handed on to. -/
inductive Pass.Descends : Pass → Grammar H × Ancestry H → Grammar H × Ancestry H → Prop
  | expandSequences {limits : Limits} {grammar next : Grammar H} {ancestry : Ancestry H}
      {chain : List (ExpandedSequence H)} (done : (grammar.expandSequences limits).result = .ok next)
      (expands : grammar.ExpandsTo next chain) :
      Descends (.expandSequences limits) (grammar, ancestry)
        (next, ancestry.handOn
          (ancestry.rules ++ spread ancestry.sequences (chain.map ExpandedSequence.rules)))
  | eliminateNulling {limits : Limits} {grammar : Grammar H} {ancestry : Ancestry H}
      {last : Grammar H × Ancestry H}
      (same : Descends (.eliminateNullingWith grammar.nullableSymbols limits) (grammar, ancestry) last) :
      Descends (.eliminateNulling limits) (grammar, ancestry) last
  | eliminateNullingWith {nullable : SymbolSet} {limits : Limits} {grammar next : Grammar H}
      {ancestry : Ancestry H} {blocks : List (List (Rule H))}
      (done : (grammar.eliminateNullingWith nullable limits).result = .ok next)
      (makes : List.Forall₂ (Grammar.MadeFrom nullable limits) grammar.rules blocks)
      (written : next.rules = blocks.flatten) :
      Descends (.eliminateNullingWith nullable limits) (grammar, ancestry)
        (next, ancestry.handOn (spread ancestry.rules blocks))
  | binarize {limits : Limits} {grammar next : Grammar H} {ancestry : Ancestry H}
      {chain : List (SplitRule H)} (done : (grammar.binarize limits).result = .ok next)
      (binarizes : grammar.BinarizesTo next chain) :
      Descends (.binarize limits) (grammar, ancestry)
        (next, ancestry.handOn (spread ancestry.rules (chain.map SplitRule.pieces)))
  | resolvePrecedence {grammar next : Grammar H} {ancestry : Ancestry H}
      (done : grammar.resolvePrecedence.result = .ok next) :
      Descends .resolvePrecedence (grammar, ancestry) (next, ancestry)
  | normalize {limits : Limits} {start expanded eliminated binarized resolved : Grammar H × Ancestry H}
      (expansion : Descends (.expandSequences limits) start expanded)
      (elimination : Descends (.eliminateNulling limits) expanded eliminated)
      (binarization : Descends (.binarize limits) eliminated binarized)
      (resolution : Descends .resolvePrecedence binarized resolved) :
      Descends (.normalize limits) start ({ resolved.1 with stage := .normalized }, resolved.2)

namespace Pass.Descends

variable {pass : Pass} {start last : Grammar H × Ancestry H}

theorem done (descends : pass.Descends start last) : (pass.run start.1).result = .ok last.1 := by
  induction descends with
  | expandSequences done _ => exact done
  | eliminateNulling _ same => exact same
  | eliminateNullingWith done _ _ => exact done
  | binarize done _ => exact done
  | resolvePrecedence done => exact done
  | normalize _ _ _ _ expansion elimination binarization resolution =>
      simp only [run, Grammar.normalize, Reported.bind_result_eq_ok_iff]
      exact ⟨_, rfl, _, expansion, _, elimination, _, binarization, _, resolution, rfl⟩

/-- Only the resolution of precedence leaves a grammar at its first stage. -/
theorem eq_of_authored (descends : pass.Descends start last) (authored : last.1.stage = .authored) :
    pass = .resolvePrecedence ∧ last.2 = start.2 ∧ last.1.authoredFrom = start.1.authoredFrom := by
  induction descends with
  | expandSequences done _ => exact absurd authored (Grammar.stage_expandSequences_ne done)
  | eliminateNulling same _ =>
      exact absurd authored (Grammar.stage_eliminateNullingWith_ne same.done)
  | eliminateNullingWith done _ _ =>
      exact absurd authored (Grammar.stage_eliminateNullingWith_ne done)
  | binarize done _ => exact absurd authored (Grammar.stage_binarize_ne done)
  | resolvePrecedence done =>
      refine ⟨rfl, rfl, ?_⟩
      rw [Grammar.resolvePrecedence_eq_afterPass done]
      exact if_pos authored
  | normalize => cases authored

/-- All rules have been worked on unless the grammar is at its first stage. -/
theorem authoredFrom_eq (descends : pass.Descends start last) (late : last.1.stage ≠ .authored) :
    last.1.authoredFrom = last.1.rules.length := by
  induction descends with
  | expandSequences done _ =>
      exact Grammar.authoredFrom_of_afterPass (Grammar.expandSequences_eq_afterPass done) late
  | eliminateNulling _ same => exact same late
  | eliminateNullingWith done _ _ =>
      exact Grammar.authoredFrom_of_afterPass (Grammar.eliminateNullingWith_eq_afterPass done) late
  | binarize done _ =>
      exact Grammar.authoredFrom_of_afterPass (Grammar.binarize_eq_afterPass done) late
  | resolvePrecedence done =>
      exact Grammar.authoredFrom_of_afterPass (Grammar.resolvePrecedence_eq_afterPass done) late
  | @normalize _ _ _ _ binarized resolved _ _ binarization resolution _ _ _ same =>
      apply same
      intro authored
      have := Grammar.binarized_le_stage_resolvePrecedence resolution.done
        (Grammar.binarized_le_stage_binarize binarization.done)
      rw [authored] at this
      cases this

theorem fits {holds : H → Addition H → Prop} (inheritable : Inheritable holds)
    (descends : pass.Descends start last) (before : start.2.Fits holds start.1) :
    last.2.Fits holds last.1 := by
  induction descends with
  | expandSequences done expands => exact before.expand inheritable done expands
  | eliminateNulling _ same => exact same before
  | eliminateNullingWith done makes written => exact before.eliminate inheritable done makes written
  | binarize done binarizes => exact before.binarize inheritable done binarizes
  | resolvePrecedence done => exact before.resolve inheritable done
  | normalize _ _ _ _ expansion elimination binarization resolution =>
      have resolved := resolution (binarization (elimination (expansion before)))
      exact resolved.of_forall₂ resolved.rules resolved.sequences rfl rfl

end Pass.Descends

/-- Whenever a pass succeeds, what it makes can be handed on to. -/
theorem Pass.exists_descends {pass : Pass} {grammar next : Grammar H}
    (done : (pass.run grammar).result = .ok next) (ancestry : Ancestry H) :
    ∃ later, pass.Descends (grammar, ancestry) (next, later) := by
  have elimination {nullable : SymbolSet} {limits : Limits} {grammar next : Grammar H}
      (done : (grammar.eliminateNullingWith nullable limits).result = .ok next)
      (ancestry : Ancestry H) :
      ∃ later, Descends (.eliminateNullingWith nullable limits) (grammar, ancestry) (next, later) := by
    obtain ⟨blocks, eliminates, makes⟩ := Grammar.exists_eliminatesTo_madeFrom done
    exact ⟨_, .eliminateNullingWith done makes eliminates.rules_eq⟩
  cases pass with
  | expandSequences limits =>
      obtain ⟨chain, expands⟩ := Grammar.exists_expandsTo done
      exact ⟨_, .expandSequences done expands⟩
  | eliminateNulling limits =>
      obtain ⟨later, same⟩ := elimination done ancestry
      exact ⟨later, .eliminateNulling same⟩
  | eliminateNullingWith nullable limits => exact elimination done ancestry
  | binarize limits =>
      obtain ⟨chain, binarizes⟩ := Grammar.exists_binarizesTo done
      exact ⟨_, .binarize done binarizes⟩
  | resolvePrecedence => exact ⟨ancestry, .resolvePrecedence done⟩
  | normalize limits =>
      obtain ⟨expanded, eliminated, binarized, resolved, expansion, eliminating, binarization,
        resolution, rfl⟩ := Grammar.exists_passes_of_normalize done
      obtain ⟨chain, expands⟩ := Grammar.exists_expandsTo expansion
      obtain ⟨_, second⟩ := elimination eliminating _
      obtain ⟨splits, binarizes⟩ := Grammar.exists_binarizesTo binarization
      exact ⟨_, .normalize (.expandSequences expansion expands) (.eliminateNulling second)
        (.binarize binarization binarizes) (.resolvePrecedence resolution)⟩

end TracedGrammar
