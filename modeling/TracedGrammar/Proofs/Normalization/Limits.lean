import TracedGrammar.Proofs.Normalization.Stability
import TracedGrammar.Proofs.Run.Inheritance

/-!
# Limits refuse and do nothing else

A pass counts the rules that it has made so far, and no pass ever takes one back.  So whatever is
refused on the way would be too large in the end, and a pass that is not refused makes what it makes
without a limit.
-/

namespace TracedGrammar

namespace Limits

/-- The same limits without one on the number of rules. -/
def unlimited (limits : Limits) : Limits :=
  { limits with rules := none }

theorem checkPositions_mono {limits : Limits} {larger : Nat}
    (more : limits.nullablePositions ≤ larger) {positions : List Nat}
    (accepted : limits.checkPositions positions = .ok ()) :
    { limits with nullablePositions := larger }.checkPositions positions = .ok () := by
  unfold checkPositions at accepted ⊢
  split at accepted
  · cases accepted
  · rename_i few
    rwa [if_neg (Nat.not_lt.mpr (Nat.le_trans (Nat.not_lt.mp few) more))]

end Limits

namespace Reported

variable {α β : Type} {first second : β → α → Reported β} {start last : β} {items : List α}

theorem fold_mono (more : ∀ state item next, (first state item).result = .ok next →
      (second state item).result = .ok next)
    (succeeds : (fold first start items).result = .ok last) :
    (fold second start items).result = .ok last := by
  induction items generalizing start with
  | nil => exact fold_nil_eq_ok_iff.mpr (fold_nil_eq_ok_iff.mp succeeds)
  | cons item items induction =>
      obtain ⟨next, now, rest⟩ := fold_cons_eq_ok_iff.mp succeeds
      exact fold_cons_eq_ok_iff.mpr ⟨next, more start item next now, induction rest⟩

/-- When each step asks whether what it has made is accepted, and what comes before something accepted
is accepted too, it is enough to ask in the end. -/
theorem fold_eq_ok_iff_of_checked {accepted : β → Prop}
    (checked : ∀ state item next, (first state item).result = .ok next ↔
      (second state item).result = .ok next ∧ accepted next)
    (earlier : ∀ state item next, (second state item).result = .ok next → accepted next →
      accepted state) :
    (fold first start items).result = .ok last ↔
      (fold second start items).result = .ok last ∧ (items = [] ∨ accepted last) := by
  have before {start : β} {items : List α} (rest : (fold second start items).result = .ok last)
      (inTheEnd : accepted last) : accepted start := by
    induction items generalizing start with
    | nil => rwa [fold_nil_eq_ok_iff.mp rest]
    | cons item items induction =>
        obtain ⟨next, now, later⟩ := fold_cons_eq_ok_iff.mp rest
        exact earlier start item next now (induction later)
  induction items generalizing start with
  | nil => simp [fold_nil_eq_ok_iff]
  | cons item items induction =>
      simp only [fold_cons_eq_ok_iff, checked, induction, List.cons_ne_nil, false_or]
      constructor
      · rintro ⟨next, ⟨now, accepts⟩, later, rfl | inTheEnd⟩
        · obtain rfl := fold_nil_eq_ok_iff.mp later
          exact ⟨⟨next, now, later⟩, accepts⟩
        · exact ⟨⟨next, now, later⟩, inTheEnd⟩
      · rintro ⟨⟨next, now, later⟩, inTheEnd⟩
        exact ⟨next, ⟨now, before later inTheEnd⟩, later, .inr inTheEnd⟩

theorem fold_eq_ok_iff_of_accepted {accepted : β → Prop}
    (checked : ∀ state item next, (first state item).result = .ok next ↔
      (second state item).result = .ok next ∧ accepted next)
    (earlier : ∀ state item next, (second state item).result = .ok next → accepted next →
      accepted state) (accepts : accepted start) :
    (fold first start items).result = .ok last ↔
      (fold second start items).result = .ok last ∧ accepted last := by
  rw [fold_eq_ok_iff_of_checked checked earlier]
  refine and_congr_right fun succeeds => ⟨?_, .inr⟩
  rintro (rfl | inTheEnd)
  · rwa [← fold_nil_eq_ok_iff.mp succeeds]
  · exact inTheEnd

end Reported

namespace VariantTable

variable {accept other : Nat → Except GrammarError Unit} {rhs : List Symbol} {table next last : VariantTable}

theorem size_le_of_add {elided : PositionSet} (added : table.add accept rhs elided = .ok next) :
    table.found.size ≤ next.found.size := by
  unfold add at added
  split at added
  · cases added
    exact Nat.le_refl _
  · obtain ⟨_, _, same⟩ := bind_eq_ok_iff.mp added
    cases same
    simp

theorem size_le_of_collect {keepsEmpty : Bool} {singletons : List PositionSet} {choices remaining : Nat}
    (collected : collect accept rhs keepsEmpty singletons choices remaining table = .ok last) :
    table.found.size ≤ last.found.size := by
  induction remaining generalizing table with
  | zero =>
      cases collected
      exact Nat.le_refl _
  | succ remaining induction =>
      rw [collect] at collected
      split at collected
      · exact induction collected
      · split at collected
        · cases collected
        · rename_i added
          exact Nat.le_trans (size_le_of_add added) (induction collected)

/-- Whether a choice is counted depends on the place of a new right-hand side only. -/
theorem add_eq_ok_iff {elided : PositionSet} (lenient : ∀ count, other count = .ok ()) :
    table.add accept rhs elided = .ok next ↔ table.add other rhs elided = .ok next ∧
      (next.found.size = table.found.size ∨ accept next.found.size = .ok ()) := by
  unfold add
  split
  · constructor
    · intro same
      cases same
      exact ⟨rfl, .inl rfl⟩
    · exact And.left
  · simp only [bind_eq_ok_iff]
    constructor
    · rintro ⟨_, accepted, same⟩
      cases same
      refine ⟨⟨(), lenient _, rfl⟩, .inr ?_⟩
      rwa [Array.size_push]
    · rintro ⟨⟨_, _, same⟩, accepted⟩
      cases same
      rw [Array.size_push] at accepted
      exact ⟨(), accepted.resolve_left (Nat.succ_ne_self _), rfl⟩

/-- When smaller numbers are accepted with larger ones, all choices are counted if the last place is
accepted. -/
theorem collect_eq_ok_iff {keepsEmpty : Bool} {singletons : List PositionSet}
    {choices remaining : Nat} (lenient : ∀ count, other count = .ok ())
    (smaller : ∀ count larger, count ≤ larger → accept larger = .ok () → accept count = .ok ()) :
    collect accept rhs keepsEmpty singletons choices remaining table = .ok last ↔
      collect other rhs keepsEmpty singletons choices remaining table = .ok last ∧
        (last.found.size = table.found.size ∨ accept last.found.size = .ok ()) := by
  induction remaining generalizing table with
  | zero =>
      constructor
      · intro same
        cases same
        exact ⟨rfl, .inl rfl⟩
      · exact And.left
  | succ remaining induction =>
      simp only [collect]
      split
      · exact induction
      · generalize chosenUnion singletons (choices - (remaining + 1)) = elided
        constructor
        · intro collected
          split at collected
          · cases collected
          · rename_i next added
            obtain ⟨adds, here⟩ := (add_eq_ok_iff lenient).mp added
            obtain ⟨collects, later⟩ := induction.mp collected
            rw [adds]
            refine ⟨collects, ?_⟩
            rcases later with same | accepted
            · rwa [same]
            · exact .inr accepted
        · rintro ⟨collected, inTheEnd⟩
          split at collected
          · cases collected
          · rename_i next added
            have first := size_le_of_add added
            have second := size_le_of_collect collected
            have accepted : next.found.size = table.found.size ∨ accept next.found.size = .ok () :=
              inTheEnd.imp (fun same => by omega) (smaller _ _ second)
            rw [(add_eq_ok_iff lenient).mpr ⟨added, accepted⟩]
            exact induction.mpr ⟨collected, inTheEnd.imp_left fun same => by omega⟩

end VariantTable

variable {H : Type} [RuleHistory H] {limits : Limits}

namespace Rule

variable {rule : Rule H} {nullable : SymbolSet} {produced : Nat} {variants : List (Rule H)}

theorem length_elisions (table : VariantTable) (lengthBefore : Nat) :
    (table.elisions lengthBefore).length = table.found.size := by
  rw [VariantTable.elisions, List.length_map, Array.length_toList]

/-- All variants of a rule are there if the last of them is accepted. -/
theorem variants_limited_iff : rule.variants nullable limits produced = .ok variants ↔
    rule.variants nullable limits.unlimited produced = .ok variants ∧
      limits.checkRules (produced + variants.length) = .ok () := by
  have nonempty (succeeds : rule.variants nullable limits.unlimited produced = .ok variants) :
      variants.length ≠ 0 := by
    rw [Ne, List.length_eq_zero_iff]
    exact (hasVariants_of_variants succeeds).ne_nil
  have counted (table : VariantTable) :
      VariantTable.ofPositions (fun count => limits.checkRules (produced + count)) rule.rhs
          (nullable.positionsIn rule.rhs) = .ok table ↔
        VariantTable.ofPositions (fun count => limits.unlimited.checkRules (produced + count)) rule.rhs
          (nullable.positionsIn rule.rhs) = .ok table ∧
            (table.found.size = 0 ∨ limits.checkRules (produced + table.found.size) = .ok ()) :=
    VariantTable.collect_eq_ok_iff (fun _ => rfl) fun _ _ fewer accepted =>
      Limits.checkRules_of_le accepted (Nat.add_le_add_left fewer produced)
  cases admits : rule.admitsElision with
  | false =>
      simp only [Rule.variants, admits, Bool.false_eq_true, if_false, bind_eq_ok_iff]
      constructor
      · rintro ⟨_, accepted, same⟩
        cases same
        exact ⟨⟨(), rfl, rfl⟩, accepted⟩
      · rintro ⟨⟨_, _, same⟩, accepted⟩
        cases same
        exact ⟨(), accepted, rfl⟩
  | true =>
      simp only [Rule.variants, admits, if_true, bind_eq_ok_iff] at nonempty ⊢
      constructor
      · rintro ⟨_, few, table, made, same⟩
        obtain ⟨all, accepted⟩ := (counted table).mp made
        have succeeds := nonempty ⟨(), few, table, all, same⟩
        cases same
        rw [List.length_map, length_elisions] at succeeds ⊢
        exact ⟨⟨(), few, table, all, rfl⟩, accepted.resolve_left succeeds⟩
      · rintro ⟨⟨_, few, table, all, same⟩, accepted⟩
        cases same
        rw [List.length_map, length_elisions] at accepted
        exact ⟨(), few, table, (counted table).mpr ⟨all, .inr accepted⟩, rfl⟩

theorem variants_mono {larger : Nat} (more : limits.nullablePositions ≤ larger)
    (succeeds : rule.variants nullable limits produced = .ok variants) :
    rule.variants nullable { limits with nullablePositions := larger } produced = .ok variants := by
  unfold Rule.variants at succeeds ⊢
  split at succeeds
  · rename_i admits
    rw [if_pos admits]
    obtain ⟨_, few, rest⟩ := bind_eq_ok_iff.mp succeeds
    exact bind_eq_ok_iff.mpr ⟨(), Limits.checkPositions_mono more few, rest⟩
  · rename_i refuses
    rw [if_neg refuses]
    exact succeeds

end Rule

namespace Grammar

variable {grammar next : Grammar H}

section Steps

variable {kept : Nat}

theorem expandSequence_limited_iff {draft other : Draft H} {sequence : Sequence H} :
    (expandSequence limits kept draft sequence).result = .ok other ↔
      (expandSequence limits.unlimited kept draft sequence).result = .ok other ∧
        limits.checkRules (kept + other.rules.size) = .ok () := by
  simp only [expandSequence, Reported.bind_result_eq_ok_iff, Reported.result_liftM]
  constructor
  · rintro ⟨_, valid, _, reported, written, expands, _, accepted, same⟩
    cases same
    exact ⟨⟨(), valid, (), reported, _, expands, (), rfl, rfl⟩, accepted⟩
  · rintro ⟨⟨_, valid, _, reported, written, expands, _, _, same⟩, accepted⟩
    cases same
    exact ⟨(), valid, (), reported, _, expands, (), accepted, rfl⟩

theorem size_le_of_expandSequence {draft other : Draft H} {sequence : Sequence H}
    (succeeds : (expandSequence limits kept draft sequence).result = .ok other) :
    draft.rules.size ≤ other.rules.size := by
  obtain ⟨expanded, _, _, _, written⟩ := exists_expanded_of_expandSequence succeeds
  rw [← Array.length_toList, ← Array.length_toList, written, List.length_append]
  exact Nat.le_add_right _ _

section Elimination

variable {nullable : SymbolSet} {produced other : Array (Rule H)} {rule : Rule H}

theorem eliminateRule_limited_iff :
    (eliminateRule nullable limits produced rule).result = .ok other ↔
      (eliminateRule nullable limits.unlimited produced rule).result = .ok other ∧
        limits.checkRules other.size = .ok () := by
  rw [eliminateRule_eq_ok_iff, eliminateRule_eq_ok_iff]
  constructor
  · rintro ⟨variants, succeeds, rfl⟩
    obtain ⟨made, accepted⟩ := Rule.variants_limited_iff.mp succeeds
    exact ⟨⟨variants, made, rfl⟩, (size_appendList produced variants).symm ▸ accepted⟩
  · rintro ⟨⟨variants, made, rfl⟩, accepted⟩
    rw [size_appendList] at accepted
    exact ⟨variants, Rule.variants_limited_iff.mpr ⟨made, accepted⟩, rfl⟩

theorem size_le_of_eliminateRule
    (succeeds : (eliminateRule nullable limits produced rule).result = .ok other) :
    produced.size ≤ other.size := by
  obtain ⟨variants, _, rfl⟩ := eliminateRule_eq_ok_iff.mp succeeds
  rw [size_appendList]
  exact Nat.le_add_right _ _

theorem eliminateRule_mono {larger : Nat} (more : limits.nullablePositions ≤ larger)
    (succeeds : (eliminateRule nullable limits produced rule).result = .ok other) :
    (eliminateRule nullable { limits with nullablePositions := larger } produced rule).result =
      .ok other := by
  obtain ⟨variants, made, same⟩ := eliminateRule_eq_ok_iff.mp succeeds
  exact eliminateRule_eq_ok_iff.mpr ⟨variants, Rule.variants_mono more made, same⟩

end Elimination

theorem binarizeRule_limited_iff {draft other : Draft H} {rule : Rule H} :
    (binarizeRule limits draft rule).result = .ok other ↔
      (binarizeRule limits.unlimited draft rule).result = .ok other ∧
        limits.checkRules other.rules.size = .ok () := by
  have unlimited : limits.unlimited.checkRules other.rules.size = .ok () := rfl
  rw [binarizeRule_eq_ok_iff, binarizeRule_eq_ok_iff, and_iff_left unlimited]

theorem size_le_of_binarizeRule {draft other : Draft H} {rule : Rule H}
    (succeeds : (binarizeRule limits draft rule).result = .ok other) :
    draft.rules.size ≤ other.rules.size := by
  obtain ⟨rfl, _⟩ := binarizeRule_eq_ok_iff.mp succeeds
  rw [size_appendList]
  exact Nat.le_add_right _ _

end Steps

section Passes

/-- An expansion asks for its number of rules only if there is a sequence. -/
theorem expandSequences_limited_iff :
    (grammar.expandSequences limits).result = .ok next ↔
      (grammar.expandSequences limits.unlimited).result = .ok next ∧
        (grammar.sequences = [] ∨ limits.checkRules next.rules.length = .ok ()) := by
  have folded (draft : Draft H) :
      (Reported.fold (expandSequence limits grammar.rules.length) { supply := grammar.supply }
          grammar.sequences).result = .ok draft ↔
        (Reported.fold (expandSequence limits.unlimited grammar.rules.length)
            { supply := grammar.supply } grammar.sequences).result = .ok draft ∧
          (grammar.sequences = [] ∨
            limits.checkRules (grammar.rules.length + draft.rules.size) = .ok ()) :=
    Reported.fold_eq_ok_iff_of_checked (fun _ _ _ => expandSequence_limited_iff)
      fun _ _ _ succeeds accepted => Limits.checkRules_of_le accepted
        (Nat.add_le_add_left (size_le_of_expandSequence succeeds) _)
  simp only [expandSequences, Reported.bind_result_eq_ok_iff, folded]
  constructor
  · rintro ⟨draft, ⟨made, accepted⟩, _, reported, same⟩
    cases same
    refine ⟨⟨draft, made, (), reported, rfl⟩, ?_⟩
    simpa [afterPass] using accepted
  · rintro ⟨⟨draft, made, _, reported, same⟩, accepted⟩
    cases same
    refine ⟨draft, ⟨made, ?_⟩, (), reported, rfl⟩
    simpa [afterPass] using accepted

theorem eliminateNullingWith_limited_iff {nullable : SymbolSet} :
    (grammar.eliminateNullingWith nullable limits).result = .ok next ↔
      (grammar.eliminateNullingWith nullable limits.unlimited).result = .ok next ∧
        limits.checkRules next.rules.length = .ok () := by
  have folded (produced : Array (Rule H)) :
      (Reported.fold (eliminateRule nullable limits) #[] grammar.rules).result = .ok produced ↔
        (Reported.fold (eliminateRule nullable limits.unlimited) #[] grammar.rules).result =
            .ok produced ∧ limits.checkRules produced.size = .ok () :=
    Reported.fold_eq_ok_iff_of_accepted (fun _ _ _ => eliminateRule_limited_iff)
      (fun _ _ _ succeeds accepted =>
        Limits.checkRules_of_le accepted (size_le_of_eliminateRule succeeds)) limits.checkRules_zero
  unfold eliminateNullingWith
  split
  · simp only [Reported.bind_result_eq_ok_iff, folded]
    constructor
    · rintro ⟨produced, ⟨made, accepted⟩, _, reported, same⟩
      cases same
      exact ⟨⟨produced, made, (), reported, rfl⟩, accepted⟩
    · rintro ⟨⟨produced, made, _, reported, same⟩, accepted⟩
      cases same
      exact ⟨produced, ⟨made, accepted⟩, (), reported, rfl⟩
  · simp

theorem binarize_limited_iff :
    (grammar.binarize limits).result = .ok next ↔
      (grammar.binarize limits.unlimited).result = .ok next ∧
        limits.checkRules next.rules.length = .ok () := by
  have folded (draft : Draft H) :
      (Reported.fold (binarizeRule limits) { supply := grammar.supply } grammar.rules).result =
          .ok draft ↔
        (Reported.fold (binarizeRule limits.unlimited) { supply := grammar.supply }
            grammar.rules).result = .ok draft ∧ limits.checkRules draft.rules.size = .ok () :=
    Reported.fold_eq_ok_iff_of_accepted (fun _ _ _ => binarizeRule_limited_iff)
      (fun _ _ _ succeeds accepted =>
        Limits.checkRules_of_le accepted (size_le_of_binarizeRule succeeds)) limits.checkRules_zero
  unfold binarize
  split
  · simp only [Reported.bind_result_eq_ok_iff, folded]
    constructor
    · rintro ⟨draft, ⟨made, accepted⟩, _, reported, same⟩
      cases same
      exact ⟨⟨draft, made, (), reported, rfl⟩, accepted⟩
    · rintro ⟨⟨draft, made, _, reported, same⟩, accepted⟩
      cases same
      exact ⟨draft, ⟨made, accepted⟩, (), reported, rfl⟩
  · simp

theorem eliminateNullingWith_mono {nullable : SymbolSet} {larger : Nat}
    (more : limits.nullablePositions ≤ larger)
    (succeeds : (grammar.eliminateNullingWith nullable limits).result = .ok next) :
    (grammar.eliminateNullingWith nullable { limits with nullablePositions := larger }).result =
      .ok next := by
  unfold eliminateNullingWith at succeeds ⊢
  split at succeeds
  · rename_i late
    rw [if_pos late]
    simp only [Reported.bind_result_eq_ok_iff] at succeeds ⊢
    obtain ⟨produced, folded, rest⟩ := succeeds
    exact ⟨produced, Reported.fold_mono (fun _ _ _ => eliminateRule_mono more) folded, rest⟩
  · cases succeeds

/-- A limit on rules makes the pass refuse the results that are larger, and nothing else. -/
def RefusesExcess (pass : Limits → Reported (Grammar H)) (most positions : Nat) : Prop :=
  ∀ result : Grammar H, (pass ⟨some most, positions⟩).result = .ok result ↔
    (pass ⟨none, positions⟩).result = .ok result ∧ result.rules.length ≤ most

theorem checkRules_some_iff {most positions count : Nat} :
    Limits.checkRules ⟨some most, positions⟩ count = .ok () ↔ count ≤ most := by
  simp [Limits.checkRules_eq_ok_iff]

/-- Without sequences an expansion always succeeds, with the rules that were there. -/
theorem exists_expandSequences_of_plain (limits : Limits) (plain : grammar.sequences = []) :
    ∃ result, (grammar.expandSequences limits).result = .ok result ∧
      result.rules = grammar.rules := by
  refine ⟨grammar.afterPass grammar.supply (grammar.rules ++ []) []
    (max grammar.stage .sequenceExpanded), ?_, List.append_nil _⟩
  simp only [expandSequences, Reported.bind_result_eq_ok_iff, plain, Reported.fold_nil_eq_ok_iff]
  exact ⟨_, rfl, (), rfl, rfl⟩

theorem expandSequences_refusesExcess_iff {most positions : Nat} :
    RefusesExcess grammar.expandSequences most positions ↔
      grammar.sequences ≠ [] ∨ grammar.rules.length ≤ most := by
  have limited (result : Grammar H) :
      (grammar.expandSequences ⟨some most, positions⟩).result = .ok result ↔
        (grammar.expandSequences ⟨none, positions⟩).result = .ok result ∧
          (grammar.sequences = [] ∨ result.rules.length ≤ most) := by
    rw [expandSequences_limited_iff, checkRules_some_iff, Limits.unlimited]
  constructor
  · intro refuses
    by_cases plain : grammar.sequences = []
    · obtain ⟨result, succeeds, same⟩ :=
        exists_expandSequences_of_plain ⟨some most, positions⟩ plain
      have few := ((refuses result).mp succeeds).2
      rw [same] at few
      exact .inr few
    · exact .inl plain
  · intro asked result
    rw [limited]
    refine and_congr_right fun succeeds => ⟨?_, .inr⟩
    rintro (plain | few)
    · obtain ⟨other, same, rules⟩ := exists_expandSequences_of_plain ⟨none, positions⟩ plain
      rw [succeeds] at same
      cases same
      rw [rules]
      exact asked.resolve_left fun sequences => sequences plain
    · exact few

/-- Elimination and binarization refuse all grammars with more rules than the limit, and only those.
Expansion does so only when there is a sequence to expand or too few rules to refuse: it asks for the
number of rules after each sequence, and without sequences it never asks. -/
theorem passes_refuseExcess_iff (grammar : Grammar H) (most positions : Nat) :
    (RefusesExcess grammar.expandSequences most positions ↔
      grammar.sequences ≠ [] ∨ grammar.rules.length ≤ most) ∧
    RefusesExcess grammar.eliminateNulling most positions ∧
    (∀ nullable, RefusesExcess (grammar.eliminateNullingWith nullable) most positions) ∧
    RefusesExcess grammar.binarize most positions := by
  have eliminates (nullable : SymbolSet) :
      RefusesExcess (grammar.eliminateNullingWith nullable) most positions := fun result => by
    rw [eliminateNullingWith_limited_iff, checkRules_some_iff, Limits.unlimited]
  refine ⟨expandSequences_refusesExcess_iff, eliminates grammar.nullableSymbols, eliminates,
    fun result => ?_⟩
  rw [binarize_limited_iff, checkRules_some_iff, Limits.unlimited]

/-- A single rule and no sequence. -/
def loneRule : Grammar History :=
  (({ supply := ⟨2⟩ } : Grammar History).writeRule ⟨0⟩ [⟨1⟩]).2

/-- With a limit of no rules at all the single rule is still returned by an expansion. -/
theorem loneRule_not_refusesExcess : ¬RefusesExcess loneRule.expandSequences 0 20 := by
  intro refuses
  have count : (loneRule.expandSequences ⟨some 0, 20⟩).result.map (·.rules.length) = .ok 1 := by cbv
  obtain ⟨result, succeeds⟩ :=
    exists_eq_ok (by cbv : (loneRule.expandSequences ⟨some 0, 20⟩).result.toBool = true)
  rw [succeeds] at count
  have length : result.rules.length = 1 := Except.ok.inj count
  have few := ((refuses result).mp succeeds).2
  omega

end Passes

section Normalization

variable {result : Grammar H}

theorem normalize_eq_ok_iff : (grammar.normalize limits).result = .ok result ↔
    ∃ expanded eliminated binarized resolved,
      (grammar.expandSequences limits).result = .ok expanded ∧
      (expanded.eliminateNulling limits).result = .ok eliminated ∧
      (eliminated.binarize limits).result = .ok binarized ∧
      binarized.resolvePrecedence.result = .ok resolved ∧
      result = { resolved with stage := .normalized } := by
  refine ⟨exists_passes_of_normalize, ?_⟩
  rintro ⟨expanded, eliminated, binarized, resolved, expansion, elimination, binarization, resolution,
    rfl⟩
  simp only [normalize, Reported.bind_result_eq_ok_iff]
  exact ⟨(), rfl, expanded, expansion, eliminated, elimination, binarized, binarization, resolved,
    resolution, rfl⟩

/-- A normalization that is not refused for its number of rules ends with few enough of them.  The
passes before it need not be asked, because none of them makes more. -/
theorem normalize_limited_iff : (grammar.normalize limits).result = .ok result ↔
    (grammar.normalize limits.unlimited).result = .ok result ∧
      limits.checkRules result.rules.length = .ok () := by
  rw [normalize_eq_ok_iff, normalize_eq_ok_iff]
  constructor
  · rintro ⟨expanded, eliminated, binarized, resolved, expansion, elimination, binarization, resolution,
      rfl⟩
    have last := binarize_limited_iff.mp binarization
    refine ⟨⟨expanded, eliminated, binarized, resolved, (expandSequences_limited_iff.mp expansion).1,
      (eliminateNullingWith_limited_iff.mp elimination).1, last.1, resolution, rfl⟩, ?_⟩
    rw [length_resolvePrecedence resolution]
    exact last.2
  · rintro ⟨⟨expanded, eliminated, binarized, resolved, expansion, elimination, binarization, resolution,
      rfl⟩, accepted⟩
    rw [length_resolvePrecedence resolution] at accepted
    obtain ⟨_, eliminates⟩ := exists_eliminatesTo elimination
    obtain ⟨_, binarizes⟩ := exists_binarizesTo binarization
    have before := Limits.checkRules_of_le accepted binarizes.length_le
    have first := Limits.checkRules_of_le before eliminates.length_le
    exact ⟨expanded, eliminated, binarized, resolved,
      expandSequences_limited_iff.mpr ⟨expansion, .inr first⟩,
      eliminateNullingWith_limited_iff.mpr ⟨elimination, before⟩,
      binarize_limited_iff.mpr ⟨binarization, accepted⟩, resolution, rfl⟩

/-- A limit on rules refuses exactly the results that are larger, and a larger limit on nullable
positions changes no result.  This holds for every grammar and whatever its histories record. -/
theorem normalize_limits_refuse_only (grammar : Grammar H) (positions : Nat) :
    (∀ (most : Nat) (result : Grammar H),
      (grammar.normalize ⟨some most, positions⟩).result = .ok result ↔
        (grammar.normalize ⟨none, positions⟩).result = .ok result ∧ result.rules.length ≤ most) ∧
      ∀ (rules : Option Nat) (larger : Nat), positions ≤ larger → ∀ result : Grammar H,
        (grammar.normalize ⟨rules, positions⟩).result = .ok result →
          (grammar.normalize ⟨rules, larger⟩).result = .ok result := by
  constructor
  · intro most result
    rw [normalize_limited_iff, Limits.checkRules_eq_ok_iff]
    simp [Limits.unlimited]
  · intro rules larger more result succeeds
    rw [normalize_eq_ok_iff] at succeeds ⊢
    obtain ⟨expanded, eliminated, binarized, resolved, expansion, elimination, rest⟩ := succeeds
    have enlarged := eliminateNullingWith_mono more elimination
    exact ⟨expanded, eliminated, binarized, resolved, expansion, enlarged, rest⟩

/-- Two optional symbols beside a list of two items. -/
def optionalSides : Grammar History :=
  (((({ supply := ⟨5⟩ } : Grammar History).writeRule ⟨0⟩ [⟨1⟩, ⟨2⟩, ⟨3⟩, ⟨1⟩]).2.writeRule ⟨1⟩
    []).2.writeSequence ⟨3⟩ { item := ⟨4⟩, least := 1, most := some 2 }).2

theorem optionalSides_limits_refuse_only :
    2 ≤ 20 ∧ ∃ result, (optionalSides.normalize ⟨none, 2⟩).result = .ok result ∧
      result.rules.length = 13 ∧ (optionalSides.normalize ⟨some 13, 2⟩).result = .ok result ∧
      (optionalSides.normalize ⟨some 12, 2⟩).result ≠ .ok result ∧
      (optionalSides.normalize ⟨some 13, 20⟩).result = .ok result := by
  have count : (optionalSides.normalize ⟨none, 2⟩).result.map (·.rules.length) = .ok 13 := by cbv
  obtain ⟨result, succeeds⟩ :=
    exists_eq_ok (by cbv : (optionalSides.normalize ⟨none, 2⟩).result.toBool = true)
  rw [succeeds] at count
  have length : result.rules.length = 13 := Except.ok.inj count
  obtain ⟨refuses, enlarges⟩ := normalize_limits_refuse_only optionalSides 2
  have within := (refuses 13 result).mpr ⟨succeeds, Nat.le_of_eq length⟩
  refine ⟨by decide, result, succeeds, length, within, fun beyond => ?_,
    enlarges (some 13) 20 (by decide) result within⟩
  have few := ((refuses 12 result).mp beyond).2
  omega

end Normalization

end Grammar

end TracedGrammar
