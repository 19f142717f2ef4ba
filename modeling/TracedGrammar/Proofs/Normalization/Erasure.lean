import TracedGrammar.Proofs.Normalization.Limits

/-!
# Grammars without records

Any grammar can be taken without what its histories record.  Sequences are expanded in the same way with
records and without.  The other passes leave rules alone that record nothing, so without records there is
nothing left to do once sequences are expanded, apart from asking for the number of rules.
-/

namespace TracedGrammar

variable {H : Type} {limits : Limits}

def Rule.erase (rule : Rule H) : Rule Untracked :=
  ⟨rule.lhs, rule.rhs, {}⟩

def Sequence.erase (sequence : Sequence H) : Sequence Untracked :=
  ⟨sequence.lhs, sequence.repetition, {}⟩

def Draft.erase (draft : Draft H) : Draft Untracked :=
  ⟨draft.supply, draft.rules.map Rule.erase⟩

/-- The same grammar with histories that record nothing. -/
def Grammar.erase (grammar : Grammar H) : Grammar Untracked :=
  { supply := grammar.supply
    rules := grammar.rules.map Rule.erase
    sequences := grammar.sequences.map Sequence.erase
    declared := grammar.declared
    stage := grammar.stage
    authoredFrom := grammar.authoredFrom
    sequencesConsumed := grammar.sequencesConsumed }

/-- What maps every step of one run to a step of another maps the runs. -/
theorem Reported.result_fold_map {α β γ δ : Type} {first : β → α → Reported β}
    {second : δ → γ → Reported δ} {view : β → δ} {facet : α → γ}
    (steps : ∀ state item,
      (second (view state) (facet item)).result = (first state item).result.map view)
    (start : β) (items : List α) :
    (fold second (view start) (items.map facet)).result = (fold first start items).result.map view := by
  simp only [result_fold]
  induction items generalizing start with
  | nil => rfl
  | cons item items induction =>
      rw [List.map_cons, List.foldlM_cons, List.foldlM_cons, steps]
      cases (first start item).result with
      | error failure => rfl
      | ok next => exact induction next

section Expansion

variable [RuleHistory H]

theorem Sequence.expand_erase (sequence : Sequence H) (supply : SymbolSupply) :
    sequence.erase.expand supply =
      (sequence.expand supply).map fun written => (written.1.map Rule.erase, written.2) := by
  have same : sequence.erase.repetition = sequence.repetition := rfl
  unfold Sequence.expand
  rw [same]
  cases sequence.repetition.validate with
  | error failure => rfl
  | ok _ =>
      refine congrArg (fun rules => Except.ok (rules, _)) ?_
      rw [List.map_map]
      rfl

theorem Draft.expand_erase (draft : Draft H) (sequence : Sequence H) :
    draft.erase.expand sequence.erase = (draft.expand sequence).map Draft.erase := by
  have same : draft.erase.supply = draft.supply := rfl
  unfold Draft.expand
  rw [same, Sequence.expand_erase]
  cases sequence.expand draft.supply with
  | error failure => rfl
  | ok written =>
      refine congrArg (fun rules => Except.ok (Draft.mk _ rules)) ?_
      rw [← Array.toList_inj]
      simp [Draft.erase]

namespace Grammar

theorem expandSequence_erase (kept : Nat) (draft : Draft H) (sequence : Sequence H) :
    (expandSequence limits kept draft.erase sequence.erase).result =
      (expandSequence limits kept draft sequence).result.map Draft.erase := by
  have same : sequence.erase.repetition = sequence.repetition := rfl
  simp only [expandSequence, Reported.result_bind, Reported.result_liftM, Reported.result_report, same,
    Draft.expand_erase]
  cases sequence.repetition.validate with
  | error failure => rfl
  | ok _ =>
      cases draft.expand sequence with
      | error failure => rfl
      | ok next =>
          have size : next.erase.rules.size = next.rules.size := Array.size_map
          change (limits.checkRules (kept + next.erase.rules.size) >>= fun _ => .ok next.erase) =
            (limits.checkRules (kept + next.rules.size) >>= fun _ => .ok next).map Draft.erase
          rw [size]
          cases limits.checkRules (kept + next.rules.size) <;> rfl

/-- Sequences are expanded in the same way without records. -/
theorem expandSequences_erase (grammar : Grammar H) :
    (grammar.erase.expandSequences limits).result =
      (grammar.expandSequences limits).result.map Grammar.erase := by
  have count : grammar.erase.rules.length = grammar.rules.length := List.length_map _
  have start : Draft.erase ({ supply := grammar.supply } : Draft H) = { supply := grammar.supply } :=
    congrArg (Draft.mk _) Array.map_empty
  have folds : (Reported.fold (expandSequence limits grammar.erase.rules.length)
      { supply := grammar.erase.supply } grammar.erase.sequences).result =
        (Reported.fold (expandSequence limits grammar.rules.length) { supply := grammar.supply }
          grammar.sequences).result.map Draft.erase := by
    rw [count, ← Reported.result_fold_map (expandSequence_erase grammar.rules.length), start]
    rfl
  simp only [expandSequences, Reported.result_bind, folds]
  cases (Reported.fold (expandSequence limits grammar.rules.length) { supply := grammar.supply }
      grammar.sequences).result with
  | error failure => rfl
  | ok draft =>
      refine congrArg Except.ok ?_
      simp [afterPass, Grammar.erase, Draft.erase]

end Grammar

end Expansion

namespace Grammar

variable {grammar expanded result : Grammar Untracked}

/-- Where nothing is recorded, every precedence is as good as set. -/
theorem isResolved_of_untracked (grammar : Grammar Untracked) : grammar.IsResolved :=
  fun _ _ _ _ _ _ _ _ _ => rfl

/-- The passes after an expansion keep all rules, when there are few enough. -/
theorem exists_passes_of_untracked (expansion : (grammar.expandSequences limits).result = .ok expanded)
    (accepted : limits.checkRules expanded.rules.length = .ok ()) :
    ∃ eliminated binarized resolved, (expanded.eliminateNulling limits).result = .ok eliminated ∧
      (eliminated.binarize limits).result = .ok binarized ∧
      binarized.resolvePrecedence.result = .ok resolved ∧
      ({ resolved with stage := .normalized } : Grammar Untracked) =
        { expanded with stage := .normalized } := by
  obtain ⟨_, expands⟩ := exists_expandsTo expansion
  have numbered : expanded.authoredFrom = expanded.rules.length :=
    authoredFrom_of_afterPass (expandSequences_eq_afterPass expansion)
      (stage_expandSequences_ne expansion)
  have late : Stage.sequenceExpanded ≤ expanded.stage := by
    rw [stage_expandSequences expansion]
    exact Stage.le_max_right _ _
  let eliminated : Grammar Untracked :=
    { expanded with stage := max expanded.stage .nullingEliminated }
  let binarized : Grammar Untracked := { eliminated with stage := max eliminated.stage .binarized }
  let resolved : Grammar Untracked :=
    { binarized with stage := max binarized.stage .precedenceResolved }
  have eliminates : (expanded.eliminateNulling limits).result = .ok eliminated :=
    eliminateNullingWith_eq_of_refuses expands.plain numbered late (fun _ _ => rfl) accepted
  have splits : (eliminated.binarize limits).result = .ok binarized :=
    binarize_eq_of_refuses expands.plain numbered (Stage.le_max_right _ _)
      (fun _ _ => Bool.and_false _) accepted
  have resolves : binarized.resolvePrecedence.result = .ok resolved :=
    resolvePrecedence_eq_of_isResolved expands.plain numbered (Stage.le_max_right _ _)
      (isResolved_of_untracked binarized)
  exact ⟨eliminated, binarized, resolved, eliminates, splits, resolves, rfl⟩

/-- Without records, the passes after an expansion only count the rules. -/
theorem normalize_untracked_iff : (grammar.normalize limits).result = .ok result ↔
    ∃ expanded, (grammar.expandSequences limits).result = .ok expanded ∧
      limits.checkRules expanded.rules.length = .ok () ∧
      result = { expanded with stage := .normalized } := by
  rw [normalize_eq_ok_iff]
  constructor
  · rintro ⟨expanded, eliminated, binarized, resolved, expansion, elimination, binarization, resolution,
      rfl⟩
    have accepted : limits.checkRules expanded.rules.length = .ok () := by
      obtain ⟨_, eliminates⟩ := exists_eliminatesTo elimination
      rw [← eliminates.rules_eq_of_refuses fun _ _ => rfl]
      exact (eliminateNullingWith_limited_iff.mp elimination).2
    obtain ⟨_, _, _, first, second, third, same⟩ := exists_passes_of_untracked expansion accepted
    obtain rfl := Except.ok.inj (first.symm.trans elimination)
    obtain rfl := Except.ok.inj (second.symm.trans binarization)
    obtain rfl := Except.ok.inj (third.symm.trans resolution)
    exact ⟨expanded, expansion, accepted, same⟩
  · rintro ⟨expanded, expansion, accepted, rfl⟩
    obtain ⟨eliminated, binarized, resolved, first, second, third, same⟩ :=
      exists_passes_of_untracked expansion accepted
    exact ⟨expanded, eliminated, binarized, resolved, expansion, first, second, third, same.symm⟩

/-- Records make no difference to how sequences are expanded, and a grammar without records is only
expanded when it is normalized. -/
theorem expandSequences_erase_and_normalize_untracked (limits : Limits) :
    (∀ grammar : Grammar History, (grammar.erase.expandSequences limits).result =
      (grammar.expandSequences limits).result.map Grammar.erase) ∧
    ∀ grammar result : Grammar Untracked, (grammar.normalize limits).result = .ok result ↔
      ∃ expanded, (grammar.expandSequences limits).result = .ok expanded ∧
        (∀ most ∈ limits.rules, expanded.rules.length ≤ most) ∧
        result = { expanded with stage := .normalized } := by
  refine ⟨expandSequences_erase, fun grammar result => normalize_untracked_iff.trans ?_⟩
  simp only [Limits.checkRules_eq_ok_iff, Option.mem_def]

end Grammar

end TracedGrammar
