import Mathlib
import TracedGrammar.Proofs.Run.Records
import TracedGrammar.Proofs.Run.Steps

/-!
# What stages promise

The stage of a grammar can be relied on, whatever was done to the grammar and in whichever order.  So
the passes that only look at rules never come upon a sequence that is still to be expanded.
-/

namespace TracedGrammar

namespace Grammar

variable {grammar next : Grammar History}

/-- A grammar is what its stage says: besides what passes have recorded, no rule is long any more from
binarization on. -/
structure MeetsStage (grammar : Grammar History) : Prop extends Staged grammar where
  binarized : .binarized ≤ grammar.stage → ∀ rule ∈ grammar.rules, rule.rhs.length ≤ 2

namespace MeetsStage

theorem of_authored (authored : grammar.stage = .authored) : grammar.MeetsStage where
  toStaged := .of_authored authored
  binarized := by
    intro late
    rw [authored] at late
    cases late

theorem of_growsTo {holds : History → Prop} (meets : grammar.MeetsStage)
    (grows : grammar.GrowsTo holds next) : next.MeetsStage := by
  rcases grows.stage with authored | ⟨rules, _, stage⟩
  · exact of_authored authored
  · refine ⟨meets.toStaged.of_growsTo grows, ?_⟩
    rw [stage, rules]
    exact meets.binarized

theorem of_relabels (meets : grammar.MeetsStage) (relabels : grammar.Relabels next)
    (stage : Stage.binarized ≤ grammar.stage ∨ next.stage = grammar.stage) : next.MeetsStage where
  toStaged := meets.toStaged.of_relabels relabels stage
  binarized := by
    intro late rule member
    have earlier : .binarized ≤ grammar.stage := stage.elim id fun same => same ▸ late
    obtain ⟨old, inRules, same⟩ := relabels.exists_rule member
    have rhs : old.rhs = rule.rhs := congrArg (fun record => record.2.1) same
    rw [← rhs]
    exact meets.binarized earlier old inRules

theorem expand {limits : Limits} (meets : grammar.MeetsStage)
    (done : (grammar.expandSequences limits).result = .ok next) : next.MeetsStage where
  toStaged := meets.toStaged.expand done
  binarized := by
    intro late
    rw [stage_expandSequences done] at late
    have earlier : .binarized ≤ grammar.stage := Stage.le_of_le_max late (by decide)
    obtain ⟨chain, expands⟩ := exists_expandsTo done
    rw [(expands.eq_of_no_sequences (meets.expanded (Nat.le_trans (by decide) earlier))).1]
    exact meets.binarized earlier

theorem eliminate {nullable : SymbolSet} {limits : Limits} (meets : grammar.MeetsStage)
    (done : (grammar.eliminateNullingWith nullable limits).result = .ok next) : next.MeetsStage where
  toStaged := .eliminate done
  binarized := by
    intro late other member
    rw [(stage_eliminateNullingWith done).2] at late
    have earlier : .binarized ≤ grammar.stage := Stage.le_of_le_max late (by decide)
    obtain ⟨blocks, eliminates⟩ := exists_eliminatesTo done
    obtain ⟨rule, inRules, _, thinned, _⟩ := eliminates.exists_thinned member
    exact Nat.le_trans thinned.sublist.length_le (meets.binarized earlier rule inRules)

theorem binarize {limits : Limits} (meets : grammar.MeetsStage)
    (done : (grammar.binarize limits).result = .ok next) : next.MeetsStage where
  toStaged := meets.toStaged.binarize done
  binarized := by
    intro _ piece member
    obtain ⟨chain, binarizes⟩ := exists_binarizesTo done
    exact binarizes.length_rhs_le_two (fun _ _ => Rule.admitsSplit_of_long) member

theorem command {command : Command History} (meets : grammar.MeetsStage)
    (done : command.perform grammar = .ok next) : next.MeetsStage := by
  have written : HoldsOfWritten fun _ : History => True :=
    ⟨trivial, fun _ => trivial, fun _ _ _ _ _ => trivial, fun _ _ _ _ _ => trivial⟩
  rcases growsTo_or_relabels written (fun _ _ => trivial) done with grows | ⟨relabels, stage⟩
  · exact meets.of_growsTo grows
  · exact meets.of_relabels relabels (.inr stage)

end MeetsStage

theorem keptByPasses_meetsStage : KeptByPasses MeetsStage where
  expand := MeetsStage.expand
  eliminate := MeetsStage.eliminate
  binarize := MeetsStage.binarize
  resolve := by
    intro grammar next meets done
    refine meets.of_relabels (.of_resolvePrecedence done) ?_
    rw [stage_resolvePrecedence done]
    by_cases binarized : Stage.binarized ≤ grammar.stage
    · exact .inl binarized
    · exact .inr (if_neg binarized)
  finish := fun meets binarized => meets.of_relabels ⟨.refl _, rfl, rfl⟩ (.inl binarized)

theorem MeetsStage.of_arises {permits : Grammar History → Step History → Prop}
    (arises : grammar.Arises permits) : grammar.MeetsStage :=
  keptByPasses_meetsStage.of_arises (fun _ => .of_authored rfl)
    (fun meets _ done => meets.command done) arises

/-- A pass that leaves no sequences behind had none before it. -/
structure LosesNoSequences (grammar : Grammar History) : Prop where
  eliminateNulling : ∀ limits next, (grammar.eliminateNulling limits).result = .ok next →
    grammar.sequences = [] ∧ next.sequences = []
  eliminateNullingWith : ∀ nullable limits next,
    (grammar.eliminateNullingWith nullable limits).result = .ok next →
    grammar.sequences = [] ∧ next.sequences = []
  binarize : ∀ limits next, (grammar.binarize limits).result = .ok next →
    grammar.sequences = [] ∧ next.sequences = []

theorem Staged.losesNoSequences (staged : grammar.Staged) : grammar.LosesNoSequences := by
  have elimination (nullable : SymbolSet) (limits : Limits) (next : Grammar History)
      (done : (grammar.eliminateNullingWith nullable limits).result = .ok next) :
      grammar.sequences = [] ∧ next.sequences = [] := by
    obtain ⟨blocks, eliminates⟩ := exists_eliminatesTo done
    exact ⟨staged.expanded (stage_eliminateNullingWith done).1, eliminates.plain⟩
  refine ⟨fun limits next done => elimination _ limits next done, elimination, ?_⟩
  intro limits next done
  obtain ⟨chain, binarizes⟩ := exists_binarizesTo done
  exact ⟨staged.expanded (Nat.le_trans (by decide) (stage_binarize done).1), binarizes.plain⟩

/-- Whatever commands were given and passes were run, with any histories and in any order, the grammar
is what its stage says, and no pass drops a sequence. -/
theorem meetsStage_losesNoSequences_of_arises (arises : grammar.Arises fun _ _ => True) :
    grammar.MeetsStage ∧ grammar.LosesNoSequences := by
  have meets := MeetsStage.of_arises arises
  exact ⟨meets, meets.toStaged.losesNoSequences⟩

/-- A sequence and a long rule are normalized.  Then another sequence is written, and the passes are run
one by one up to binarization. -/
def twoRounds : List (Step History) :=
  [.command (.sequence ⟨0⟩ ⟨⟨1⟩, 0, none, .absent⟩),
    .command (.rule ⟨2⟩ [⟨0⟩, ⟨1⟩, ⟨0⟩, ⟨1⟩]),
    .pass (.normalize {}),
    .command (.sequenceWith ⟨⟨1⟩, ⟨⟨3⟩, 1, some 2, .absent⟩, {}⟩),
    .command .sort,
    .pass (.expandSequences {}),
    .pass (.eliminateNulling {}),
    .pass (.binarize {})]

theorem twoRounds_meetsStage_losesNoSequences :
    ∃ grammar, twoRounds.foldlM Step.perform { supply := ⟨4⟩ } = .ok grammar ∧
      grammar.stage = .binarized ∧ grammar.MeetsStage ∧ grammar.LosesNoSequences := by
  have stage : (twoRounds.foldlM Step.perform { supply := ⟨4⟩ }).map Grammar.stage =
      .ok .binarized := by cbv
  cases done : twoRounds.foldlM Step.perform { supply := ⟨4⟩ } with
  | error failure =>
      rw [done] at stage
      cases stage
  | ok grammar =>
      rw [done] at stage
      have permitted : ∀ step ∈ twoRounds, ∀ _ : Grammar History, True := fun _ _ _ => trivial
      exact ⟨grammar, rfl, Except.ok.inj stage,
        meetsStage_losesNoSequences_of_arises (arises_of_foldlM permitted done)⟩

end Grammar

end TracedGrammar
