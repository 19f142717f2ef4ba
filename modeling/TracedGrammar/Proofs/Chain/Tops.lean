import Mathlib.Data.List.Forall2
import TracedGrammar.Proofs.Chain.Faces
import TracedGrammar.Proofs.History.Lawful

/-!
# Tops of chains

After binarization the rules that are not below the top of a chain stand for the rules from before, one
for each and in the same order.
-/

namespace TracedGrammar

section Lists

variable {α β : Type}

/-- When one item of each block passes a test, and it comes first, these items stand for the blocks. -/
theorem forall₂_filter_zipIdx (items : β → List α) (test : α → Bool) {blocks : List β}
    (heads : ∀ block ∈ blocks, ∃ top below, items block = top :: below ∧ test top = true ∧
      ∀ other ∈ below, test other = false) (start : Nat) :
    List.Forall₂ (fun block item => ∃ below, items block = item.1 :: below) blocks
      (((blocks.flatMap items).zipIdx start).filter fun item => test item.1) := by
  induction blocks generalizing start with
  | nil => exact .nil
  | cons block blocks induction =>
      obtain ⟨⟨top, below, written, passes, fails⟩, later⟩ := List.forall_mem_cons.mp heads
      have none : ((below.zipIdx (start + 1)).filter fun item => test item.1) = [] := by
        rw [List.filter_eq_nil_iff]
        intro item member
        rw [fails item.1 (List.fst_mem_of_mem_zipIdx member)]
        exact Bool.false_ne_true
      rw [List.flatMap_cons, List.zipIdx_append, List.filter_append, written, List.zipIdx_cons,
        List.filter_cons, if_pos passes, none]
      exact .cons ⟨below, written⟩ (induction later _)

end Lists

namespace Grammar

variable {H : Type} [RuleHistory H]

/-- The indices of the rules that are not below the top of a chain, in order. -/
def tops (grammar : Grammar H) : List Nat :=
  (grammar.rules.zipIdx.filter fun item => !item.1.isBelowTop).map Prod.snd

theorem tops_eq_of_faces {first second : Grammar H}
    (faces : first.rules.map Rule.face = second.rules.map Rule.face) : first.tops = second.tops := by
  have entries (grammar : Grammar H) : grammar.tops =
      ((grammar.rules.map Rule.face).zipIdx.filter fun item =>
        !item.1.2.2.any fun piece => !piece.isTop).map Prod.snd := by
    rw [List.zipIdx_map, List.filter_map, List.map_map]
    rfl
  rw [entries, entries, faces]

end Grammar

/-- What a rule is for, and what has been left out of it. -/
def Rule.lineage (rule : Rule History) : Symbol × Option Handle × Option Action × Option Elision :=
  (rule.lhs, rule.history.origin, rule.history.action, rule.history.elision)

/-- The first piece of a rule is its top, and stands for the rule. -/
theorem SplitRule.exists_pieces_eq (split : SplitRule History)
    (whole : split.rule.isBelowTop = false) :
    ∃ top below, split.pieces = top :: below ∧ top.isBelowTop = false ∧
      (∀ other ∈ below, other.isBelowTop = true) ∧ top.lineage = split.rule.lineage ∧
      if split.rule.admitsSplit then top.link? = some (split.linkAt 0) else top = split.rule := by
  cases admits : split.rule.admitsSplit with
  | false => exact ⟨split.rule, [], pieces_eq_singleton admits, whole, by simp, rfl, rfl⟩
  | true =>
      have long := Rule.long_of_admitsSplit admits
      have lhs : (split.pieceAt 0).lhs = split.rule.lhs := ChainRule.lhs_link
      refine ⟨split.pieceAt 0, (List.range (split.rule.rhs.length - 2)).map fun depth =>
        split.pieceAt (depth + 1), ?written, isBelowTop_pieceAt split 0, ?below, ?lineage, rfl⟩
      case written =>
        rw [pieces_eq admits, show split.rule.rhs.length - 1 = split.rule.rhs.length - 2 + 1 by omega,
          List.range_succ_eq_map, List.map_cons, List.map_map]
        rfl
      case below =>
        intro other member
        obtain ⟨depth, _, rfl⟩ := List.mem_map.mp member
        exact isBelowTop_pieceAt split (depth + 1)
      case lineage =>
        rw [Rule.lineage, lhs]
        rfl

namespace Grammar

/-- The chain with a given top is read back as a rule from before. -/
structure IsTopFor (grammar : Grammar History) (rule : Rule History) (top : Nat) : Prop where
  exists_rule : ∃ topRule, grammar.rules[top]? = some topRule ∧ topRule.lineage = rule.lineage
  fullRhs_eq : grammar.chains.fullRhs top = rule.rhs

variable {grammar result : Grammar History} {chain : List (SplitRule History)}

/-- Where nothing was split before, there is one top for each rule. -/
theorem BinarizesTo.forall₂_isTopFor (binarizes : grammar.BinarizesTo result chain)
    (inventory : grammar.HasChains [])
    (unrecorded : ∀ rule ∈ grammar.rules, rule.link? = none) :
    List.Forall₂ result.IsTopFor grammar.rules result.tops := by
  have later : result.HasChains (SplitRule.admitted chain) := inventory.binarize binarizes
  have whole (split : SplitRule History) (inChain : split ∈ chain) :
      split.rule.isBelowTop = false :=
    Rule.isBelowTop_of_not_link (unrecorded _ (binarizes.rule_mem inChain))
  have paired := forall₂_filter_zipIdx SplitRule.pieces (fun rule => !rule.isBelowTop)
    (fun split inChain => by
      obtain ⟨top, below, written, isTop, deep, _⟩ := split.exists_pieces_eq (whole split inChain)
      exact ⟨top, below, written, by simp [isTop], by simpa using deep⟩) 0
  rw [← binarizes.pieces_eq] at paired
  rw [← binarizes.rules_eq, tops, List.forall₂_map_left_iff, List.forall₂_map_right_iff]
  refine forall₂_imp_of_mem paired ?_
  rintro split inChain ⟨top, index⟩ member ⟨below, written⟩
  have found : result.rules[index]? = some top :=
    List.mem_zipIdx_iff_getElem?.mp (List.mem_filter.mp member).1
  obtain ⟨first, others, pieces, _, _, lineage, kind⟩ :=
    split.exists_pieces_eq (whole split inChain)
  obtain rfl := (List.cons.inj (pieces.symm.trans written)).1
  refine ⟨⟨first, found, lineage⟩, ?_⟩
  cases admits : split.rule.admitsSplit with
  | false =>
      rw [admits] at kind
      obtain rfl : first = split.rule := kind
      exact (pieces_of_not_link found (unrecorded _ (binarizes.rule_mem inChain))).2.2
  | true =>
      rw [admits] at kind
      have inNew : split ∈ SplitRule.admitted chain := List.mem_filter.mpr ⟨inChain, admits⟩
      exact (later.pieces_of_top inNew found kind).2.2

/-- Precedence makes no difference. -/
theorem forall₂_isTopFor_resolvePrecedence {binarized : Grammar History}
    (succeeds : binarized.resolvePrecedence.result = .ok result) {rules : List (Rule History)}
    (tops : List.Forall₂ binarized.IsTopFor rules binarized.tops) :
    List.Forall₂ result.IsTopFor rules result.tops := by
  have hides : HidesPrecedence fun rule : Rule History => (rule.face, rule.lineage) := by
    intro rule history precedence set
    obtain ⟨rfl, _⟩ := History.setPrecedence_eq_ok_iff.mp set
    rfl
  have views := map_resolvePrecedence hides succeeds
  have faces : result.rules.map Rule.face = binarized.rules.map Rule.face := by
    have first := congrArg (List.map Prod.fst) views
    rwa [List.map_map, List.map_map] at first
  rw [tops_eq_of_faces faces]
  refine tops.imp fun rule top isTop => ⟨?_, ?_⟩
  · obtain ⟨topRule, found, lineage⟩ := isTop.exists_rule
    have same := congrArg (fun shown => shown[top]?) views
    simp only [List.getElem?_map, found, Option.map_some, Option.map_eq_some_iff,
      Prod.mk.injEq] at same
    obtain ⟨other, now, _, alike⟩ := same
    exact ⟨other, now, alike.trans lineage⟩
  · rw [chains, Chains.fullRhs_eq_of_faces faces]
    exact isTop.fullRhs_eq

end Grammar

end TracedGrammar
