import Mathlib.Data.List.Forall2
import TracedGrammar.Nulling.Elimination
import TracedGrammar.Proofs.Grammar.Symbols
import TracedGrammar.Proofs.Lists
import TracedGrammar.Proofs.Nulling.Variants

/-!
# What nulling elimination does

When it succeeds, every rule has been replaced by a block of its variants.
-/

namespace TracedGrammar

namespace Grammar

variable {H : Type} [RuleHistory H]

/-- One grammar has, in place of each rule of another, a block of variants. -/
structure EliminatesTo (grammar result : Grammar H) (nullable : SymbolSet)
    (blocks : List (List (Rule H))) : Prop where
  variants : List.Forall₂ (fun rule block => rule.HasVariants nullable block) grammar.rules blocks
  rules_eq : result.rules = blocks.flatten
  supply_eq : result.supply = grammar.supply
  plain : result.sequences = []

/-- A block is what elimination makes of a rule, after some number of other rules. -/
def MadeFrom (nullable : SymbolSet) (limits : Limits) (rule : Rule H) (block : List (Rule H)) : Prop :=
  ∃ produced, rule.variants nullable limits produced = .ok block

theorem eliminateRule_eq_ok_iff {nullable : SymbolSet} {limits : Limits}
    {produced next : Array (Rule H)} {rule : Rule H} :
    (eliminateRule nullable limits produced rule).result = .ok next ↔
      ∃ variants, rule.variants nullable limits produced.size = .ok variants ∧
        produced ++ variants = next := by
  simp only [eliminateRule, Reported.bind_result_eq_ok_iff, Reported.result_liftM]
  refine exists_congr fun variants => and_congr_right fun _ => ?_
  split <;> exact ⟨Except.ok.inj, congrArg Except.ok⟩

theorem madeFrom_of_eliminateRule {nullable : SymbolSet} {limits : Limits}
    {produced next : Array (Rule H)} {rule : Rule H}
    (succeeds : (eliminateRule nullable limits produced rule).result = .ok next) :
    ∃ block, MadeFrom nullable limits rule block ∧ next.toList = produced.toList ++ block := by
  obtain ⟨block, made, rfl⟩ := eliminateRule_eq_ok_iff.mp succeeds
  exact ⟨block, ⟨produced.size, made⟩, Array.toList_appendList⟩

theorem exists_blocks_of_fold {nullable : SymbolSet} {limits : Limits}
    {start last : Array (Rule H)} {rules : List (Rule H)}
    (succeeds : (Reported.fold (eliminateRule nullable limits) start rules).result = .ok last) :
    ∃ blocks, List.Forall₂ (MadeFrom nullable limits) rules blocks ∧
      last.toList = start.toList ++ blocks.flatten := by
  induction rules generalizing start with
  | nil =>
      rw [Reported.fold_nil_eq_ok_iff] at succeeds
      subst succeeds
      exact ⟨[], .nil, by simp⟩
  | cons rule rules induction =>
      obtain ⟨next, first, rest⟩ := Reported.fold_cons_eq_ok_iff.mp succeeds
      obtain ⟨block, made, written⟩ := madeFrom_of_eliminateRule first
      obtain ⟨blocks, others, later⟩ := induction rest
      refine ⟨block :: blocks, .cons made others, ?_⟩
      rw [later, written, List.flatten_cons, List.append_assoc]

/-- The blocks are those that are made from the rules one by one. -/
theorem exists_eliminatesTo_madeFrom {grammar result : Grammar H} {nullable : SymbolSet}
    {limits : Limits} (succeeds : (grammar.eliminateNullingWith nullable limits).result = .ok result) :
    ∃ blocks, grammar.EliminatesTo result nullable blocks ∧
      List.Forall₂ (MadeFrom nullable limits) grammar.rules blocks := by
  unfold eliminateNullingWith at succeeds
  split at succeeds
  · simp only [Reported.bind_result_eq_ok_iff] at succeeds
    obtain ⟨produced, folded, _, _, same⟩ := succeeds
    cases same
    obtain ⟨blocks, made, written⟩ := exists_blocks_of_fold folded
    have variants := made.imp fun _ _ ⟨_, variants⟩ => Rule.hasVariants_of_variants variants
    exact ⟨blocks, ⟨variants, written, rfl, rfl⟩, made⟩
  · cases succeeds

theorem exists_eliminatesTo {grammar result : Grammar H} {nullable : SymbolSet} {limits : Limits}
    (succeeds : (grammar.eliminateNullingWith nullable limits).result = .ok result) :
    ∃ blocks, grammar.EliminatesTo result nullable blocks := by
  obtain ⟨blocks, eliminates, _⟩ := exists_eliminatesTo_madeFrom succeeds
  exact ⟨blocks, eliminates⟩

theorem stage_eliminateNullingWith {grammar result : Grammar H} {nullable : SymbolSet}
    {limits : Limits} (succeeds : (grammar.eliminateNullingWith nullable limits).result = .ok result) :
    .sequenceExpanded ≤ grammar.stage ∧ result.stage = max grammar.stage .nullingEliminated := by
  unfold eliminateNullingWith at succeeds
  split at succeeds
  · rename_i expanded
    simp only [Reported.bind_result_eq_ok_iff] at succeeds
    obtain ⟨_, _, _, _, same⟩ := succeeds
    cases same
    exact ⟨expanded, rfl⟩
  · cases succeeds

namespace EliminatesTo

variable {grammar result : Grammar H} {nullable : SymbolSet} {blocks : List (List (Rule H))}

/-- Where every rule refuses an elision, nothing changes. -/
theorem rules_eq_of_refuses (eliminates : grammar.EliminatesTo result nullable blocks)
    (refuses : ∀ rule ∈ grammar.rules, rule.admitsElision = false) : result.rules = grammar.rules := by
  rw [eliminates.rules_eq]
  have variants := eliminates.variants
  clear eliminates
  generalize grammar.rules = rules at variants refuses
  induction variants with
  | nil => rfl
  | cons hasVariants _ induction =>
      rw [List.forall_mem_cons] at refuses
      rw [List.flatten_cons, hasVariants.kept refuses.1, induction refuses.2]
      rfl

/-- Rules that refuse an elision stay where they are, if they come first. -/
theorem prefix_of_refuses (eliminates : grammar.EliminatesTo result nullable blocks)
    {kept : List (Rule H)} (before : kept <+: grammar.rules)
    (refuses : ∀ rule ∈ kept, rule.admitsElision = false) : kept <+: result.rules := by
  rw [eliminates.rules_eq]
  have variants := eliminates.variants
  clear eliminates
  generalize grammar.rules = rules at variants before
  induction kept generalizing rules blocks with
  | nil => exact List.nil_prefix
  | cons rule kept induction =>
      rw [List.forall_mem_cons] at refuses
      cases variants with
      | nil => exact absurd before (by simp)
      | cons hasVariants others =>
          obtain ⟨rfl, rest⟩ := List.cons_prefix_cons.mp before
          rw [List.flatten_cons, hasVariants.kept refuses.1]
          exact List.cons_prefix_cons.mpr ⟨rfl, induction refuses.2 _ others rest⟩

theorem exists_rule (eliminates : grammar.EliminatesTo result nullable blocks) {other : Rule H}
    (member : other ∈ result.rules) :
    ∃ rule ∈ grammar.rules, ∃ block, rule.HasVariants nullable block ∧ other ∈ block := by
  rw [eliminates.rules_eq] at member
  have made : Blockwise (fun rule other => ∃ block, rule.HasVariants nullable block ∧ other ∈ block)
      grammar.rules blocks.flatten :=
    .of_forall₂ (eliminates.variants.imp fun _ block variants _ inside => ⟨block, variants, inside⟩)
  exact made.exists_item member

theorem exists_block (eliminates : grammar.EliminatesTo result nullable blocks) {rule : Rule H}
    (member : rule ∈ grammar.rules) :
    ∃ block, rule.HasVariants nullable block ∧ ∀ other ∈ block, other ∈ result.rules := by
  rw [eliminates.rules_eq]
  have variants := eliminates.variants
  generalize grammar.rules = rules at variants member
  clear eliminates
  induction variants with
  | nil => simp at member
  | @cons first block rules blocks hasVariants _ induction =>
      rcases List.mem_cons.mp member with rfl | later
      · exact ⟨block, hasVariants, fun other inside => List.mem_append_left _ inside⟩
      · obtain ⟨origin, hasVariants, inside⟩ := induction later
        exact ⟨origin, hasVariants, fun other inBlock => List.mem_append_right _ (inside other inBlock)⟩

/-- A rule afterwards has the left-hand side of a rule before, and a right-hand side that is left of
that of the rule. -/
theorem exists_thinned (eliminates : grammar.EliminatesTo result nullable blocks) {other : Rule H}
    (member : other ∈ result.rules) :
    ∃ rule ∈ grammar.rules, other.lhs = rule.lhs ∧ Thinned nullable rule.rhs other.rhs ∧
      (rule.admitsElision = false ∧ other = rule ∨
        rule.admitsElision = true ∧ ∃ rhs elision, rule.variant rhs elision = other) := by
  obtain ⟨rule, inRules, block, hasVariants, inside⟩ := eliminates.exists_rule member
  refine ⟨rule, inRules, ?_⟩
  cases admits : rule.admitsElision with
  | false =>
      rw [hasVariants.kept admits, List.mem_singleton] at inside
      subst inside
      exact ⟨rfl, .refl _, .inl ⟨rfl, rfl⟩⟩
  | true =>
      obtain ⟨rhs, elision, thinned, rfl⟩ := hasVariants.thinned admits other inside
      exact ⟨rfl, thinned, .inr ⟨rfl, rhs, elision, rfl⟩⟩

theorem exists_variant (eliminates : grammar.EliminatesTo result nullable blocks) {rule : Rule H}
    (member : rule ∈ grammar.rules) (admits : rule.admitsElision = true) {rhs : List Symbol}
    (thinned : Thinned nullable rule.rhs rhs) :
    ∃ elision, rule.variant rhs elision ∈ result.rules := by
  obtain ⟨block, hasVariants, inside⟩ := eliminates.exists_block member
  obtain ⟨elision, inBlock⟩ := hasVariants.complete admits rhs thinned
  exact ⟨elision, inside _ inBlock⟩

theorem exists_whole (eliminates : grammar.EliminatesTo result nullable blocks) {rule : Rule H}
    (member : rule ∈ grammar.rules) :
    ∃ other ∈ result.rules, other.lhs = rule.lhs ∧ other.rhs = rule.rhs := by
  cases admits : rule.admitsElision with
  | false =>
      obtain ⟨block, hasVariants, inside⟩ := eliminates.exists_block member
      refine ⟨rule, inside rule ?_, rfl, rfl⟩
      rw [hasVariants.kept admits]
      exact List.mem_singleton_self rule
  | true =>
      obtain ⟨elision, inside⟩ := eliminates.exists_variant member admits (.refl rule.rhs)
      exact ⟨_, inside, rfl, rfl⟩

/-- A rule stays as it is or has something left out. -/
theorem directBy_iff (eliminates : grammar.EliminatesTo result nullable blocks) {symbol : Symbol}
    {word : List Symbol} :
    DirectBy result.rules symbol word ↔ ∃ rule ∈ grammar.rules, rule.lhs = symbol ∧
      (rule.rhs = word ∨ rule.admitsElision = true ∧ Thinned nullable rule.rhs word) := by
  constructor
  · rintro ⟨member⟩
    obtain ⟨rule, inRules, same, thinned, ⟨_, rfl⟩ | ⟨admits, _⟩⟩ := eliminates.exists_thinned member
    · exact ⟨_, inRules, rfl, .inl rfl⟩
    · exact ⟨rule, inRules, same.symm, .inr ⟨admits, thinned⟩⟩
  · rintro ⟨rule, inRules, rfl, rfl | ⟨admits, thinned⟩⟩
    · obtain ⟨other, member, lhs, rhs⟩ := eliminates.exists_whole inRules
      rw [← lhs, ← rhs]
      exact .rule member
    · obtain ⟨elision, member⟩ := eliminates.exists_variant inRules admits thinned
      exact .rule member

theorem usesAllocated (eliminates : grammar.EliminatesTo result nullable blocks)
    (uses : grammar.UsesAllocated) : result.UsesAllocated where
  lhs_mem := by
    intro other member
    obtain ⟨rule, inRules, same, _⟩ := eliminates.exists_thinned member
    rw [eliminates.supply_eq, same]
    exact uses.lhs_mem rule inRules
  rhs_mem := by
    intro other member symbol occurs
    obtain ⟨rule, inRules, _, thinned, _⟩ := eliminates.exists_thinned member
    rw [eliminates.supply_eq]
    exact uses.rhs_mem rule inRules symbol (thinned.sublist.subset occurs)
  sequence_mem := by simp [eliminates.plain]
  letter_mem := by simp [eliminates.plain]

end EliminatesTo

end Grammar

end TracedGrammar
