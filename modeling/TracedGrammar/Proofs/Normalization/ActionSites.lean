import TracedGrammar.History.Tracked
import TracedGrammar.Proofs.Expansion.Part
import TracedGrammar.Proofs.History.Tracked
import TracedGrammar.Proofs.Normalization.Balance

/-!
# Where the action of a sequence is invoked

The symbol of a sequence weighs one, and an action site of the sequence takes this weight away.  All
rules of its expansion are in balance then: a step keeps the symbol and is no site, and every other
rule for the symbol is a site.  Only one thing disturbs the balance later.  When the symbol is
nullable it is left out of a step, and the variant without it is no site either.
-/

namespace TracedGrammar

namespace Rule

/-- Whether applying the rule invokes the action of an origin. -/
def isSiteOf (origin : Option Handle) (rule : Rule History) : Bool :=
  decide (rule.history.origin = origin) && rule.history.actionSite

variable {origin : Option Handle} {rule : Rule History}

theorem isSiteOf_variant (rhs : List Symbol) (elision : Elision) :
    (rule.variant rhs elision).isSiteOf origin = rule.isSiteOf origin := by
  have kept (next : History) (elided : rule.history.elide elision = some next) :
      next.origin = rule.history.origin ∧ next.actionSite = rule.history.actionSite := by
    unfold History.elide at elided
    split at elided
    · cases elided
      exact ⟨rfl, rfl⟩
    · cases elided
  unfold isSiteOf variant
  change (decide (((rule.history.elide elision).getD _).origin = origin) &&
    ((rule.history.elide elision).getD _).actionSite) = _
  cases found : rule.history.elide elision with
  | none => rfl
  | some next =>
      obtain ⟨sameOrigin, sameSite⟩ := kept next found
      rw [Option.getD_some, sameOrigin, sameSite]

theorem isSiteOf_piece (link : ChainRule) :
    (rule.piece link).isSiteOf origin = (rule.isSiteOf origin && link.piece.isTop) := by
  change (decide (rule.history.origin = origin) && (rule.history.actionSite && _)) =
    (decide (rule.history.origin = origin) && rule.history.actionSite && _)
  rw [Bool.and_assoc]

theorem hidesPrecedence_isSiteOf :
    Grammar.HidesPrecedence fun rule : Rule History => (rule.lhs, rule.rhs, rule.isSiteOf origin) := by
  intro rule history precedence assigned
  obtain ⟨_, _, same⟩ := bind_eq_ok_iff.mp assigned
  cases same
  rfl

end Rule

/-- A rule of an expansion is a site when it is for the symbol of the sequence and no step. -/
theorem ExpandedSequence.isSiteOf_ruleFor (expanded : ExpandedSequence History) (top : Bool)
    (symbol : Symbol) (row : List Part) :
    (expanded.ruleFor top symbol row).isSiteOf expanded.sequence.history.origin =
      (expanded.sequence.history.actionSite && (top && !(row.head? == some .self))) := by
  have sameOrigin : (expanded.ruleFor top symbol row).history.origin =
      expanded.sequence.history.origin := rfl
  rw [Rule.isSiteOf, sameOrigin, decide_eq_true rfl, Bool.true_and]
  rfl

namespace Grammar

/-- The symbol of a sequence weighs one when its action is invoked at all. -/
def siteWeight (sequence : Sequence History) (symbol : Symbol) : Nat :=
  if symbol = sequence.lhs then sequence.history.actionSite.toNat else 0

variable {grammar result : Grammar History} {sequence : Sequence History}

theorem siteWeight_of_ne {symbol : Symbol} (different : symbol ≠ sequence.lhs) :
    siteWeight sequence symbol = 0 :=
  if_neg different

theorem siteWeight_lhs : siteWeight sequence sequence.lhs = sequence.history.actionSite.toNat :=
  if_pos rfl

theorem weigh_siteWeight_eq_zero {word : List Symbol} (absent : sequence.lhs ∉ word) :
    weigh (siteWeight sequence) word = 0 :=
  weigh_eq_zero fun _ member => siteWeight_of_ne fun same => absent (same ▸ member)

section Expansion

variable {chain : List (ExpandedSequence History)} (separate : grammar.IsSeparate sequence)
  (expands : grammar.ExpandsTo result chain)
include separate expands

theorem IsSeparate.weigh_rhs_ruleFor {expanded : ExpandedSequence History}
    (inChain : expanded ∈ chain) (isSequence : expanded.sequence = sequence) {top : Bool}
    {symbol : Symbol} {written : Repetition} (writes : expanded.Writes top symbol written)
    {row : List Part} (inRows : row ∈ written.alternatives) :
    weigh (siteWeight sequence) (expanded.ruleFor top symbol row).rhs +
        ((expanded.ruleFor top symbol row).isSiteOf sequence.history.origin).toNat =
      siteWeight sequence symbol := by
  have absent := separate.lhs_not_mem_rhs expands inChain isSequence writes inRows
  subst isSequence
  rw [expanded.isSiteOf_ruleFor]
  cases writes with
  | helper inOrder =>
      rw [weigh_siteWeight_eq_zero (absent (by simp)),
        siteWeight_of_ne (separate.helper_ne_lhs expands inChain inOrder), Bool.false_and,
        Bool.and_false]
      rfl
  | top =>
      rcases Repetition.isStepOrPlain_of_mem_alternatives inRows with ⟨recursive, rfl⟩ | plain
      · have light : expanded.sequence.lhs ∉ expanded.sequence.repetition.step := fun member =>
          (separate.letters _ (Repetition.isLetter_of_mem_step member)).2 rfl
        rw [expanded.rhs_ruleFor_step, weigh_cons, weigh_siteWeight_eq_zero light]
        simp
      · have notStep : (row.head? == some .self) = false := by
          rw [beq_eq_false_iff_ne]
          exact fun head => plain (List.mem_of_mem_head? head)
        rw [weigh_siteWeight_eq_zero (absent fun _ => plain), siteWeight_lhs, notStep]
        simp

theorem IsSeparate.balanced :
    Balanced result.rules (SequencePart chain sequence) sequence.repetition.IsLetter
      (siteWeight sequence) (Rule.isSiteOf sequence.history.origin) := by
  constructor
  · intro rule member inside free other occurs
    obtain ⟨expanded, inChain, isSequence, top, symbol, written, writes, row, inRows, rfl⟩ :=
      separate.exists_ruleFor expands member inside free
    exact part_of_mem_rhs inChain isSequence writes inRows occurs
  · intro rule member inside free
    obtain ⟨expanded, inChain, isSequence, top, symbol, written, writes, row, inRows, rfl⟩ :=
      separate.exists_ruleFor expands member inside free
    exact separate.weigh_rhs_ruleFor expands inChain isSequence writes inRows

/-- Elision takes away no weight, unless it leaves the symbol out of its own step. -/
theorem IsSeparate.siteWeight_eq_zero {nullable : SymbolSet}
    (intact : ¬(sequence.repetition.IsRecursive ∧ sequence.history.elision = none ∧
      sequence.lhs ∈ nullable)) {rule : Rule History} (member : rule ∈ result.rules)
    (inside : SequencePart chain sequence rule.lhs)
    (free : ¬sequence.repetition.IsLetter rule.lhs) (admits : rule.admitsElision = true)
    {symbol : Symbol} (occurs : symbol ∈ rule.rhs) (isNullable : symbol ∈ nullable) :
    siteWeight sequence symbol = 0 := by
  apply siteWeight_of_ne
  rintro rfl
  obtain ⟨expanded, inChain, isSequence, top, symbol, written, writes, row, inRows, rfl⟩ :=
    separate.exists_ruleFor expands member inside free
  refine separate.lhs_not_mem_rhs expands inChain isSequence writes inRows ?_ occurs
  rintro rfl again
  have none : expanded.sequence.history.elision = none := Rule.admitsElision_iff.mp admits
  subst isSequence
  cases writes with
  | top =>
      rcases Repetition.isStepOrPlain_of_mem_alternatives inRows with ⟨recursive, _⟩ | plain
      · exact intact ⟨recursive, none, isNullable⟩
      · exact plain again

end Expansion

end Grammar

end TracedGrammar
