import TracedGrammar.Precedence.Resolution
import TracedGrammar.Proofs.Lists
import TracedGrammar.Proofs.Report.Success

/-!
# What the resolution of precedence does

It changes the precedence in histories, and nothing else.  What can be told of a rule without its
precedence is the same afterwards.
-/

namespace TracedGrammar

namespace Grammar

variable {H β : Type} [RuleHistory H] {view : Rule H → β}

/-- A view of rules does not show their precedence. -/
def HidesPrecedence (view : Rule H → β) : Prop :=
  ∀ rule history precedence, RuleHistory.setPrecedence rule.history precedence = .ok history →
    view { rule with history } = view rule

theorem map_assignAt (hides : HidesPrecedence view) {precedence : Precedence}
    {rules next : Array (Rule H)} {index : Nat}
    (succeeds : assignAt precedence rules index = .ok next) :
    next.toList.map view = rules.toList.map view := by
  unfold assignAt at succeeds
  split at succeeds
  · cases succeeds
    rfl
  · rename_i rule found
    obtain ⟨history, assigned, same⟩ := bind_eq_ok_iff.mp succeeds
    cases same
    rw [← Array.getElem?_toList] at found
    rw [Array.toList_setIfInBounds]
    exact map_set_of_eq found (hides _ history precedence assigned)

theorem map_foldlM_assignAt (hides : HidesPrecedence view) {precedence : Precedence}
    {rules last : Array (Rule H)} {indices : List Nat}
    (succeeds : indices.foldlM (assignAt precedence) rules = .ok last) :
    last.toList.map view = rules.toList.map view := by
  induction indices generalizing rules with
  | nil =>
      cases succeeds
      rfl
  | cons index indices induction =>
      rw [List.foldlM_cons, bind_eq_ok_iff] at succeeds
      obtain ⟨next, first, rest⟩ := succeeds
      rw [induction rest, map_assignAt hides first]

theorem map_resolveRule (hides : HidesPrecedence view) {grammar : Grammar H} {chains : Chains H}
    {resolution next : Resolution H} {item : Rule H × Nat}
    (succeeds : (grammar.resolveRule chains resolution item).result = .ok next) :
    next.rules.toList.map view = resolution.rules.toList.map view := by
  simp only [resolveRule] at succeeds
  split at succeeds
  · cases succeeds
    rfl
  · split at succeeds
    · cases succeeds
      rfl
    · simp only [Reported.bind_result_eq_ok_iff] at succeeds
      obtain ⟨_, _, rules, assigned, same⟩ := succeeds
      cases same
      exact map_foldlM_assignAt hides assigned

theorem map_fold_resolveRule (hides : HidesPrecedence view) {grammar : Grammar H}
    {chains : Chains H} {resolution last : Resolution H} {items : List (Rule H × Nat)}
    (succeeds : (Reported.fold (grammar.resolveRule chains) resolution items).result = .ok last) :
    last.rules.toList.map view = resolution.rules.toList.map view := by
  induction items generalizing resolution with
  | nil =>
      rw [Reported.fold_nil_eq_ok_iff] at succeeds
      rw [succeeds]
  | cons item items induction =>
      obtain ⟨next, first, rest⟩ := Reported.fold_cons_eq_ok_iff.mp succeeds
      rw [induction rest, map_resolveRule hides first]

theorem exists_resolution {grammar result : Grammar H}
    (succeeds : grammar.resolvePrecedence.result = .ok result) :
    ∃ resolution : Resolution H,
      (Reported.fold (grammar.resolveRule (Chains.ofRules grammar.rules))
        { rules := grammar.rules.toArray } grammar.rules.zipIdx).result = .ok resolution ∧
      result = grammar.afterPass grammar.supply resolution.rules.toList grammar.sequences
        (if Stage.binarized ≤ grammar.stage then max grammar.stage .precedenceResolved
          else grammar.stage) := by
  simp only [resolvePrecedence, Reported.bind_result_eq_ok_iff] at succeeds
  obtain ⟨resolution, folded, _, _, same⟩ := succeeds
  cases same
  exact ⟨resolution, folded, rfl⟩

theorem map_resolvePrecedence (hides : HidesPrecedence view) {grammar result : Grammar H}
    (succeeds : grammar.resolvePrecedence.result = .ok result) :
    result.rules.map view = grammar.rules.map view := by
  obtain ⟨resolution, folded, rfl⟩ := exists_resolution succeeds
  exact map_fold_resolveRule hides folded

theorem supply_resolvePrecedence {grammar result : Grammar H}
    (succeeds : grammar.resolvePrecedence.result = .ok result) :
    result.supply = grammar.supply := by
  obtain ⟨_, _, rfl⟩ := exists_resolution succeeds
  rfl

theorem sequences_resolvePrecedence {grammar result : Grammar H}
    (succeeds : grammar.resolvePrecedence.result = .ok result) :
    result.sequences = grammar.sequences := by
  obtain ⟨_, _, rfl⟩ := exists_resolution succeeds
  rfl

theorem stage_resolvePrecedence {grammar result : Grammar H}
    (succeeds : grammar.resolvePrecedence.result = .ok result) :
    result.stage = if Stage.binarized ≤ grammar.stage then max grammar.stage .precedenceResolved
      else grammar.stage := by
  obtain ⟨_, _, rfl⟩ := exists_resolution succeeds
  rfl

end Grammar

end TracedGrammar
