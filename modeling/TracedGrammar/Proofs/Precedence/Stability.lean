import TracedGrammar.Proofs.Chain.Faces
import TracedGrammar.Proofs.History.Lawful

/-!
# Precedence is resolved once

When precedence has been resolved, every piece of a chain that inherits a precedence has taken it.  To
resolve precedence again sets what is set already.
-/

namespace TracedGrammar

namespace Grammar

variable {H : Type} [RuleHistory H]

/-- A precedence can be set without changing the history. -/
def IsSettled (precedence : Precedence) (history : H) : Prop :=
  RuleHistory.setPrecedence history precedence = .ok history

/-- If there is a rule at an index, then its history has a property. -/
def HoldsAt (holds : H → Prop) (rules : Array (Rule H)) (index : Nat) : Prop :=
  ∀ rule, rules[index]? = some rule → holds rule.history

/-- A property that a history keeps when a precedence is set. -/
def IsLasting (holds : H → Prop) : Prop :=
  ∀ ⦃history next : H⦄ ⦃precedence : Precedence⦄,
    RuleHistory.setPrecedence history precedence = .ok next → holds history → holds next

/-- The chain with a rule at its top takes a precedence that is declared for one of its symbols. -/
structure Inherits (grammar : Grammar H) (chains : Chains H) (rule : Rule H) (index : Nat)
    (precedence : Precedence) : Prop where
  outside : chains.isChainSymbol rule.lhs = false
  missing : RuleHistory.precedence rule.history = none
  declares : grammar.declared.rightmost? (chains.fullRhs index) = some precedence

section Steps

variable {holds : H → Prop} {precedence : Precedence} {rules next : Array (Rule H)}
  {grammar : Grammar H} {chains : Chains H} {resolution last : Resolution H} {rule : Rule H}
  {index : Nat}

theorem HoldsAt.assignAt (before : HoldsAt holds rules index) (lasting : IsLasting holds)
    {other : Nat} (succeeds : assignAt precedence rules other = .ok next) :
    HoldsAt holds next index := by
  unfold Grammar.assignAt at succeeds
  split at succeeds
  · cases succeeds
    exact before
  · rename_i old found
    obtain ⟨history, set, same⟩ := bind_eq_ok_iff.mp succeeds
    cases same
    intro rule now
    by_cases here : other = index
    · subst here
      have bound := (Array.getElem?_eq_some_iff.mp found).1
      rw [Array.getElem?_setIfInBounds_self_of_lt bound] at now
      cases now
      exact lasting set (before old found)
    · rw [Array.getElem?_setIfInBounds_ne here] at now
      exact before rule now

theorem HoldsAt.foldlM_assignAt (before : HoldsAt holds rules index) (lasting : IsLasting holds)
    {indices : List Nat} (succeeds : indices.foldlM (Grammar.assignAt precedence) rules = .ok next) :
    HoldsAt holds next index := by
  induction indices generalizing rules with
  | nil =>
      cases succeeds
      exact before
  | cons other indices induction =>
      rw [List.foldlM_cons, bind_eq_ok_iff] at succeeds
      obtain ⟨middle, first, rest⟩ := succeeds
      exact induction (before.assignAt lasting first) rest

/-- What happens to a rule: its chain inherits a precedence or nothing changes. -/
theorem inherits_or_eq_of_resolveRule
    (succeeds : (grammar.resolveRule chains resolution (rule, index)).result = .ok last) :
    (∃ precedence, grammar.Inherits chains rule index precedence ∧
        (chains.pieces index).foldlM (assignAt precedence) resolution.rules = .ok last.rules) ∨
      (∀ precedence, ¬grammar.Inherits chains rule index precedence) ∧ last = resolution := by
  simp only [resolveRule] at succeeds
  split at succeeds
  · rename_i skipped
    cases succeeds
    refine .inr ⟨fun precedence inherits => ?_, rfl⟩
    simp [inherits.outside, inherits.missing] at skipped
  · rename_i considered
    simp only [Bool.or_eq_true, not_or, Bool.not_eq_true, Option.isSome_eq_false_iff,
      Option.isNone_iff_eq_none] at considered
    split at succeeds
    · rename_i undeclared
      cases succeeds
      refine .inr ⟨fun precedence inherits => ?_, rfl⟩
      rw [inherits.declares] at undeclared
      cases undeclared
    · rename_i precedence declares
      simp only [Reported.bind_result_eq_ok_iff] at succeeds
      obtain ⟨_, _, rules, assigned, same⟩ := succeeds
      cases same
      exact .inl ⟨precedence, ⟨considered.1, considered.2, declares⟩, assigned⟩

theorem HoldsAt.resolveRule (before : HoldsAt holds resolution.rules index)
    (lasting : IsLasting holds) {item : Rule H × Nat}
    (succeeds : (grammar.resolveRule chains resolution item).result = .ok last) :
    HoldsAt holds last.rules index := by
  rcases inherits_or_eq_of_resolveRule succeeds with ⟨precedence, _, assigned⟩ | ⟨_, rfl⟩
  · exact before.foldlM_assignAt lasting assigned
  · exact before

theorem HoldsAt.fold_resolveRule (before : HoldsAt holds resolution.rules index)
    (lasting : IsLasting holds) {items : List (Rule H × Nat)}
    (succeeds : (Reported.fold (grammar.resolveRule chains) resolution items).result = .ok last) :
    HoldsAt holds last.rules index := by
  induction items generalizing resolution with
  | nil =>
      rw [Reported.fold_nil_eq_ok_iff] at succeeds
      rwa [← succeeds]
  | cons item items induction =>
      obtain ⟨middle, first, rest⟩ := Reported.fold_cons_eq_ok_iff.mp succeeds
      exact induction (before.resolveRule lasting first) rest

end Steps

section Lawful

variable [LawfulRuleHistory H] {precedence : Precedence} {rules next : Array (Rule H)}
  {grammar result : Grammar H} {chains : Chains H} {resolution last : Resolution H}

theorem isLasting_isSettled (precedence : Precedence) :
    IsLasting (IsSettled (H := H) precedence) :=
  fun _ _ _ set settled => LawfulRuleHistory.setPrecedence_later settled set

theorem isLasting_precedence :
    IsLasting fun history : H => (RuleHistory.precedence history).isSome = true :=
  fun _ _ _ => LawfulRuleHistory.precedence_setPrecedence

theorem holdsAt_isSettled_of_assignAt {index : Nat}
    (succeeds : assignAt precedence rules index = .ok next) :
    HoldsAt (IsSettled precedence) next index := by
  unfold assignAt at succeeds
  split at succeeds
  · rename_i absent
    cases succeeds
    intro rule now
    rw [absent] at now
    cases now
  · rename_i old found
    obtain ⟨history, set, same⟩ := bind_eq_ok_iff.mp succeeds
    cases same
    intro rule now
    rw [Array.getElem?_setIfInBounds_self_of_lt (Array.getElem?_eq_some_iff.mp found).1] at now
    cases now
    exact LawfulRuleHistory.setPrecedence_again set

theorem holdsAt_isSettled_of_foldlM {indices : List Nat}
    (succeeds : indices.foldlM (assignAt precedence) rules = .ok next) :
    ∀ index ∈ indices, HoldsAt (IsSettled precedence) next index := by
  induction indices generalizing rules with
  | nil => simp
  | cons index indices induction =>
      rw [List.foldlM_cons, bind_eq_ok_iff] at succeeds
      obtain ⟨middle, first, rest⟩ := succeeds
      rw [List.forall_mem_cons]
      exact ⟨(holdsAt_isSettled_of_assignAt first).foldlM_assignAt (isLasting_isSettled _) rest,
        induction rest⟩

theorem holdsAt_isSettled_of_fold {items : List (Rule H × Nat)}
    (succeeds : (Reported.fold (grammar.resolveRule chains) resolution items).result = .ok last)
    {item : Rule H × Nat} (member : item ∈ items)
    (inherits : grammar.Inherits chains item.1 item.2 precedence) :
    ∀ index ∈ chains.pieces item.2, HoldsAt (IsSettled precedence) last.rules index := by
  induction items generalizing resolution with
  | nil => cases member
  | cons first items induction =>
      obtain ⟨middle, now, rest⟩ := Reported.fold_cons_eq_ok_iff.mp succeeds
      rcases List.mem_cons.mp member with rfl | later
      · intro index isPiece
        rcases inherits_or_eq_of_resolveRule now with ⟨other, also, assigned⟩ | ⟨none, _⟩
        · have same := Option.some.inj (inherits.declares.symm.trans also.declares)
          subst same
          exact (holdsAt_isSettled_of_foldlM assigned index isPiece).fold_resolveRule
            (isLasting_isSettled _) rest
        · exact absurd inherits (none precedence)
      · exact induction rest later

section Resolved

variable (succeeds : grammar.resolvePrecedence.result = .ok result) {index : Nat} {rule : Rule H}
  (found : result.rules[index]? = some rule)
include succeeds

theorem map_face_resolvePrecedence : result.rules.map Rule.face = grammar.rules.map Rule.face :=
  map_resolvePrecedence (fun rule history precedence set =>
    congrArg Prod.fst (hidesPrecedence_admits rule history precedence set)) succeeds

include found

theorem exists_rule_before_resolvePrecedence :
    ∃ old, grammar.rules[index]? = some old ∧ old.face = rule.face := by
  rcases Chains.getElem?_of_faces (map_face_resolvePrecedence succeeds) index with
    ⟨none, _⟩ | ⟨one, old, now, before, alike⟩
  · rw [found] at none
    cases none
  · obtain rfl := Option.some.inj (found.symm.trans now)
    exact ⟨old, before, alike.symm⟩

/-- A precedence that was there before is not taken away. -/
theorem precedence_isSome_of_resolvePrecedence {old : Rule H} (before : grammar.rules[index]? = some old)
    (present : (RuleHistory.precedence old.history).isSome = true) :
    (RuleHistory.precedence rule.history).isSome = true := by
  obtain ⟨resolution, folded, rfl⟩ := exists_resolution succeeds
  have start : HoldsAt (fun history => (RuleHistory.precedence history).isSome = true)
      grammar.rules.toArray index := by
    intro other atIndex
    rw [List.getElem?_toArray, before] at atIndex
    cases atIndex
    exact present
  refine start.fold_resolveRule isLasting_precedence folded rule ?_
  rw [← Array.getElem?_toList]
  exact found

theorem isSettled_of_inherits {top : Nat} {topRule : Rule H} (atTop : grammar.rules[top]? = some topRule)
    (inherits : grammar.Inherits grammar.chains topRule top precedence)
    (isPiece : index ∈ grammar.chains.pieces top) : IsSettled precedence rule.history := by
  obtain ⟨resolution, folded, rfl⟩ := exists_resolution succeeds
  have member : (topRule, top) ∈ grammar.rules.zipIdx := List.mem_zipIdx_iff_getElem?.mpr atTop
  refine holdsAt_isSettled_of_fold folded member inherits index isPiece rule ?_
  rw [← Array.getElem?_toList]
  exact found

end Resolved

/-- Whatever a chain inherits has been set in all of its pieces. -/
def IsResolved (grammar : Grammar H) : Prop :=
  ∀ (index : Nat) (rule : Rule H), grammar.rules[index]? = some rule →
    ∀ precedence, grammar.Inherits grammar.chains rule index precedence →
      ∀ piece ∈ grammar.chains.pieces index,
        HoldsAt (IsSettled precedence) grammar.rules.toArray piece

theorem isResolved_of_resolvePrecedence
    (succeeds : grammar.resolvePrecedence.result = .ok result) : result.IsResolved := by
  have faces := map_face_resolvePrecedence succeeds
  intro top rule found precedence inherits piece isPiece other atPiece
  obtain ⟨old, before, alike⟩ := exists_rule_before_resolvePrecedence succeeds found
  have inherited : grammar.Inherits grammar.chains old top precedence := by
    refine ⟨?outside, ?missing, ?declares⟩
    case outside =>
      rw [chains, ← Chains.isChainSymbol_eq_of_faces faces, Rule.lhs_of_face alike]
      exact inherits.outside
    case missing =>
      rw [← Option.isNone_iff_eq_none, ← Option.isSome_eq_false_iff, Bool.eq_false_iff]
      intro present
      have last := precedence_isSome_of_resolvePrecedence succeeds found before present
      simp only [inherits.missing, Option.isSome_none, Bool.false_eq_true] at last
    case declares =>
      have declared : result.declared = grammar.declared := by
        obtain ⟨_, _, rfl⟩ := exists_resolution succeeds
        rfl
      rw [chains, ← Chains.fullRhs_eq_of_faces faces, ← declared]
      exact inherits.declares
  rw [List.getElem?_toArray] at atPiece
  refine isSettled_of_inherits succeeds atPiece before inherited ?_
  rw [chains, ← Chains.pieces_eq_of_faces faces]
  exact isPiece

end Lawful

section Again

variable {precedence : Precedence} {rules : Array (Rule H)} {grammar : Grammar H}

theorem assignAt_of_isSettled {index : Nat} (settled : HoldsAt (IsSettled precedence) rules index) :
    assignAt precedence rules index = .ok rules := by
  unfold assignAt
  split
  · rfl
  · rename_i rule found
    obtain ⟨bound, rfl⟩ := Array.getElem?_eq_some_iff.mp found
    have unchanged : rules.setIfInBounds index rules[index] = rules := by
      rw [Array.setIfInBounds, dif_pos bound, Array.set_getElem_self]
    rw [settled _ found]
    exact congrArg Except.ok unchanged

theorem foldlM_assignAt_of_isSettled {indices : List Nat}
    (settled : ∀ index ∈ indices, HoldsAt (IsSettled precedence) rules index) :
    indices.foldlM (assignAt precedence) rules = .ok rules := by
  induction indices with
  | nil => rfl
  | cons index indices induction =>
      rw [List.forall_mem_cons] at settled
      rw [List.foldlM_cons, assignAt_of_isSettled settled.1]
      exact induction settled.2

theorem exists_resolveRule_eq (resolution : Resolution H) {chains : Chains H} {rule : Rule H}
    {index : Nat}
    (settled : ∀ precedence, grammar.Inherits chains rule index precedence →
      ∀ piece ∈ chains.pieces index, HoldsAt (IsSettled precedence) resolution.rules piece) :
    ∃ resolved, (grammar.resolveRule chains resolution (rule, index)).result =
      .ok { resolution with resolved } := by
  simp only [resolveRule]
  split
  · exact ⟨resolution.resolved, rfl⟩
  · rename_i considered
    simp only [Bool.or_eq_true, not_or, Bool.not_eq_true, Option.isSome_eq_false_iff,
      Option.isNone_iff_eq_none] at considered
    split
    · exact ⟨resolution.resolved, rfl⟩
    · rename_i precedence declares
      have unchanged := foldlM_assignAt_of_isSettled
        (settled precedence ⟨considered.1, considered.2, declares⟩)
      refine ⟨resolution.resolved + 1, ?_⟩
      simp only [Reported.result_bind, Reported.result_quiet, unchanged]
      rfl

theorem IsResolved.withStage (resolved : grammar.IsResolved) (stage : Stage) :
    { grammar with stage }.IsResolved :=
  fun index rule found precedence inherits =>
    resolved index rule found precedence ⟨inherits.outside, inherits.missing, inherits.declares⟩

/-- Where everything is set already, nothing changes. -/
theorem IsResolved.resolvePrecedence_eq (resolved : grammar.IsResolved) :
    grammar.resolvePrecedence.result = .ok (grammar.afterPass grammar.supply grammar.rules
      grammar.sequences (if Stage.binarized ≤ grammar.stage then
        max grammar.stage .precedenceResolved else grammar.stage)) := by
  have folds (items : List (Rule H × Nat)) (inside : ∀ item ∈ items, item ∈ grammar.rules.zipIdx)
      (count : Nat) : ∃ last, (Reported.fold (grammar.resolveRule (Chains.ofRules grammar.rules))
        ⟨grammar.rules.toArray, count⟩ items).result = .ok ⟨grammar.rules.toArray, last⟩ := by
    induction items generalizing count with
    | nil => exact ⟨count, Reported.fold_nil_eq_ok_iff.mpr rfl⟩
    | cons item items induction =>
        rw [List.forall_mem_cons] at inside
        have found := List.mem_zipIdx_iff_getElem?.mp inside.1
        obtain ⟨next, first⟩ := exists_resolveRule_eq ⟨grammar.rules.toArray, count⟩
          (resolved item.2 item.1 found)
        obtain ⟨last, rest⟩ := induction inside.2 next
        exact ⟨last, Reported.fold_cons_eq_ok_iff.mpr ⟨_, first, rest⟩⟩
  obtain ⟨last, folded⟩ := folds grammar.rules.zipIdx (fun _ member => member) 0
  simp only [resolvePrecedence, Reported.result_bind, folded]
  rfl

end Again

end Grammar

end TracedGrammar
