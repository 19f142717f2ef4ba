import TracedGrammar.Proofs.Chain.Preservation
import TracedGrammar.Proofs.Run.Reached

/-!
# What passes have recorded

From the stages on at which a grammar says so, it has no sequences left and every rule has been through
nulling elimination.  Pieces of chains have been through it in any case, and what waits to be expanded
is no piece.  Neither actions and precedence nor the order of rules have to do with any of that.
-/

namespace TracedGrammar

/-- Everything about a rule but its action, its precedence and where it comes from. -/
def Rule.record (rule : Rule History) :
    Symbol × List Symbol × Option ChainPiece × Option Elision :=
  (rule.lhs, rule.rhs, rule.history.chainPiece, rule.history.elision)

theorem Rule.link?_eq_none_of_isAuthored {rule : Rule History}
    (authored : rule.history.isAuthored = true) : rule.link? = none :=
  Option.map_eq_none_iff.mpr (History.chainPiece_eq_none_of_isAuthored authored)

def Sequence.record (sequence : Sequence History) : Symbol × Repetition × Option ChainPiece :=
  (sequence.lhs, sequence.repetition, sequence.history.chainPiece)

namespace Grammar

variable {grammar next : Grammar History}

/-- Two grammars differ in the order of rules, and in what is attached to rules and sequences by their
author, only. -/
structure Relabels (grammar next : Grammar History) : Prop where
  rules : (next.rules.map Rule.record).Perm (grammar.rules.map Rule.record)
  sequences : next.sequences.map Sequence.record = grammar.sequences.map Sequence.record
  supply_eq : next.supply = grammar.supply

namespace Relabels

theorem exists_rule (relabels : grammar.Relabels next) {rule : Rule History}
    (member : rule ∈ next.rules) : ∃ old ∈ grammar.rules, old.record = rule.record :=
  List.mem_map.mp (relabels.rules.mem_iff.mp (List.mem_map_of_mem member))

theorem exists_sequence (relabels : grammar.Relabels next) {sequence : Sequence History}
    (member : sequence ∈ next.sequences) :
    ∃ old ∈ grammar.sequences, old.record = sequence.record := by
  have shown := List.mem_map_of_mem (f := Sequence.record) member
  rw [relabels.sequences] at shown
  exact List.mem_map.mp shown

theorem faces (relabels : grammar.Relabels next) :
    (next.rules.map Rule.face).Perm (grammar.rules.map Rule.face) := by
  have faces := relabels.rules.map fun record => (record.1, record.2.1, record.2.2.1)
  rwa [List.map_map, List.map_map] at faces

theorem sort (grammar : Grammar History) : grammar.Relabels grammar.sort :=
  ⟨(List.mergeSort_perm _ _).map _, rfl, rfl⟩

theorem of_changeHistory {handle : Handle} {change : History → Except GrammarError History}
    (keeps : ∀ history other, change history = .ok other →
      other.chainPiece = history.chainPiece ∧ other.elision = history.elision)
    (done : grammar.changeHistory handle change = .ok next) : grammar.Relabels next := by
  obtain ⟨-, changed⟩ := changed_of_changeHistory done
  cases changed with
  | rule _ found changed =>
      obtain ⟨piece, elision⟩ := keeps _ _ changed
      refine ⟨List.Perm.of_eq (map_set_of_eq found ?_), rfl, rfl⟩
      simp only [Rule.record, piece, elision]
  | sequence _ found changed =>
      refine ⟨.refl _, map_set_of_eq found ?_, rfl⟩
      simp only [Sequence.record, (keeps _ _ changed).1]

end Relabels

end Grammar

namespace History

variable {history other : History}

theorem records_of_unlabeled (same : other.unlabeled = history.unlabeled) :
    other.chainPiece = history.chainPiece ∧ other.elision = history.elision := by
  have pieces := congrArg chainPiece same
  have elisions := congrArg elision same
  exact ⟨pieces, elisions⟩

theorem records_of_setAction {action : Action} (done : history.setAction action = .ok other) :
    other.chainPiece = history.chainPiece ∧ other.elision = history.elision :=
  records_of_unlabeled (unlabeled_of_setAction done)

theorem records_of_setPrecedence {precedence : Precedence}
    (done : history.setPrecedence precedence = .ok other) :
    other.chainPiece = history.chainPiece ∧ other.elision = history.elision :=
  records_of_unlabeled (unlabeled_of_setPrecedence done)

end History

namespace Grammar

variable {grammar next : Grammar History}

theorem Relabels.of_resolvePrecedence (done : grammar.resolvePrecedence.result = .ok next) :
    grammar.Relabels next := by
  have hides : HidesPrecedence Rule.record := by
    intro rule history precedence assigned
    obtain ⟨piece, elision⟩ := History.records_of_setPrecedence assigned
    simp only [Rule.record, piece, elision]
  refine ⟨List.Perm.of_eq (map_resolvePrecedence hides done), ?_, supply_resolvePrecedence done⟩
  rw [sequences_resolvePrecedence done]

/-- A command adds something, or it only moves and relabels what is there. -/
theorem growsTo_or_relabels {holds : History → Prop} (written : HoldsOfWritten holds)
    {command : Command History} (given : ∀ history ∈ command.histories, holds history)
    (done : command.perform grammar = .ok next) :
    grammar.GrowsTo holds next ∨ grammar.Relabels next ∧ next.stage = grammar.stage := by
  rcases (edit_of_perform given done).cases written (fun _ holds => holds) with
    grows | rfl | ⟨_, _, done⟩ | ⟨_, _, done⟩ | ⟨_, rfl⟩
  · exact .inl grows
  · exact .inr ⟨.sort grammar, rfl⟩
  · exact .inr ⟨.of_changeHistory (fun _ _ => History.records_of_setAction) done,
      stage_changeHistory done⟩
  · exact .inr ⟨.of_changeHistory (fun _ _ => History.records_of_setPrecedence) done,
      stage_changeHistory done⟩
  · exact .inr ⟨⟨.refl _, rfl, rfl⟩, rfl⟩

theorem elision_of_eliminates {nullable : SymbolSet} {blocks : List (List (Rule History))}
    (eliminates : grammar.EliminatesTo next nullable blocks) {other : Rule History}
    (member : other ∈ next.rules) : other.history.elision ≠ none := by
  obtain ⟨rule, _, _, _, ⟨refuses, rfl⟩ | ⟨admits, rhs, elision, rfl⟩⟩ :=
    eliminates.exists_thinned member
  · rw [← Bool.not_eq_true, Rule.admitsElision_iff] at refuses
    exact refuses
  · have fresh := Rule.admitsElision_iff.mp admits
    change ((rule.history.elide elision).getD rule.history).elision ≠ none
    simp [History.elide, fresh]

theorem exists_rule_of_binarizes {chain : List (SplitRule History)}
    (binarizes : grammar.BinarizesTo next chain) {piece : Rule History}
    (member : piece ∈ next.rules) :
    ∃ rule ∈ grammar.rules, piece.history.elision = rule.history.elision := by
  obtain ⟨split, inChain, inPieces⟩ := binarizes.mem_rules_iff.mp member
  refine ⟨split.rule, binarizes.rule_mem inChain, ?_⟩
  rcases SplitRule.eq_or_exists_pieceAt inPieces with ⟨_, rfl⟩ | ⟨_, depth, _, rfl⟩
  · rfl
  · rfl

/-- What the stage of a grammar says is true of its sequences and rules. -/
structure Staged (grammar : Grammar History) : Prop where
  expanded : .sequenceExpanded ≤ grammar.stage → grammar.sequences = []
  eliminated : .nullingEliminated ≤ grammar.stage →
    ∀ rule ∈ grammar.rules, rule.history.elision ≠ none

namespace Staged

theorem of_authored (authored : grammar.stage = .authored) : grammar.Staged := by
  constructor <;> intro late <;> rw [authored] at late <;> cases late

theorem of_growsTo {holds : History → Prop} (staged : grammar.Staged)
    (grows : grammar.GrowsTo holds next) : next.Staged := by
  rcases grows.stage with authored | ⟨rules, sequences, stage⟩
  · exact of_authored authored
  · constructor
    · rw [stage, sequences]
      exact staged.expanded
    · rw [stage, rules]
      exact staged.eliminated

theorem of_relabels (staged : grammar.Staged) (relabels : grammar.Relabels next)
    (stage : Stage.binarized ≤ grammar.stage ∨ next.stage = grammar.stage) : next.Staged where
  expanded := by
    intro late
    have earlier : .sequenceExpanded ≤ grammar.stage :=
      stage.elim (fun binarized => Nat.le_trans (by decide) binarized) fun same => same ▸ late
    have shown := relabels.sequences
    rw [staged.expanded earlier] at shown
    exact List.map_eq_nil_iff.mp shown
  eliminated := by
    intro late rule member
    have earlier : .nullingEliminated ≤ grammar.stage :=
      stage.elim (fun binarized => Nat.le_trans (by decide) binarized) fun same => same ▸ late
    obtain ⟨old, inRules, same⟩ := relabels.exists_rule member
    have elision : old.history.elision = rule.history.elision :=
      congrArg (fun record => record.2.2.2) same
    rw [← elision]
    exact staged.eliminated earlier old inRules

theorem expand {limits : Limits} (staged : grammar.Staged)
    (done : (grammar.expandSequences limits).result = .ok next) : next.Staged := by
  obtain ⟨chain, expands⟩ := exists_expandsTo done
  refine ⟨fun _ => expands.plain, fun late => ?_⟩
  rw [stage_expandSequences done] at late
  have earlier : .nullingEliminated ≤ grammar.stage := Stage.le_of_le_max late (by decide)
  -- At this stage there is nothing left to expand.
  rw [(expands.eq_of_no_sequences (staged.expanded (Nat.le_trans (by decide) earlier))).1]
  exact staged.eliminated earlier

theorem eliminate {nullable : SymbolSet} {limits : Limits}
    (done : (grammar.eliminateNullingWith nullable limits).result = .ok next) : next.Staged := by
  obtain ⟨blocks, eliminates⟩ := exists_eliminatesTo done
  exact ⟨fun _ => eliminates.plain, fun _ _ => elision_of_eliminates eliminates⟩

theorem binarize {limits : Limits} (staged : grammar.Staged)
    (done : (grammar.binarize limits).result = .ok next) : next.Staged := by
  obtain ⟨chain, binarizes⟩ := exists_binarizesTo done
  refine ⟨fun _ => binarizes.plain, fun _ piece member => ?_⟩
  obtain ⟨rule, inRules, same⟩ := exists_rule_of_binarizes binarizes member
  rw [same]
  exact staged.eliminated (stage_binarize done).1 rule inRules

end Staged

/-- Pieces of chains have been through nulling elimination, and no sequence is a piece. -/
structure Recorded (grammar : Grammar History) : Prop where
  elided : ∀ rule ∈ grammar.rules, rule.history.chainPiece ≠ none → rule.history.elision ≠ none
  waiting : ∀ sequence ∈ grammar.sequences, sequence.history.chainPiece = none

namespace Recorded

theorem of_growsTo (recorded : grammar.Recorded)
    (grows : grammar.GrowsTo (fun history => history.isAuthored = true) next) : next.Recorded where
  elided := by
    obtain ⟨added, written, authored⟩ := grows.rules
    intro rule member split
    rw [written] at member
    rcases List.mem_append.mp member with old | new
    · exact recorded.elided rule old split
    · exact absurd (History.chainPiece_eq_none_of_isAuthored (authored rule new)) split
  waiting := by
    obtain ⟨added, written, authored⟩ := grows.sequences
    intro sequence member
    rw [written] at member
    rcases List.mem_append.mp member with old | new
    · exact recorded.waiting sequence old
    · exact History.chainPiece_eq_none_of_isAuthored (authored sequence new)

theorem of_relabels (recorded : grammar.Recorded) (relabels : grammar.Relabels next) :
    next.Recorded where
  elided := by
    intro rule member
    obtain ⟨old, inRules, same⟩ := relabels.exists_rule member
    have piece : old.history.chainPiece = rule.history.chainPiece :=
      congrArg (fun record => record.2.2.1) same
    have elision : old.history.elision = rule.history.elision :=
      congrArg (fun record => record.2.2.2) same
    rw [← piece, ← elision]
    exact recorded.elided old inRules
  waiting := by
    intro sequence member
    obtain ⟨old, inSequences, same⟩ := relabels.exists_sequence member
    have piece : old.history.chainPiece = sequence.history.chainPiece :=
      congrArg (fun record => record.2.2) same
    rw [← piece]
    exact recorded.waiting old inSequences

/-- Elimination does not touch pieces of chains. -/
theorem admitsElision_eq_false (recorded : grammar.Recorded) :
    ∀ rule ∈ grammar.rules, rule.link? ≠ none → rule.admitsElision = false := by
  intro rule member split
  have elided := recorded.elided rule member (mt Option.map_eq_none_iff.mpr split)
  rw [← Bool.not_eq_true, Rule.admitsElision_iff]
  exact elided

theorem expand {chain : List (ExpandedSequence History)} (recorded : grammar.Recorded)
    (expands : grammar.ExpandsTo next chain) : next.Recorded where
  elided := by
    intro rule member split
    rcases expands.mem_rules_iff.mp member with old | ⟨expanded, inChain, new⟩
    · exact recorded.elided rule old split
    · obtain ⟨production, _, rfl⟩ := List.mem_map.mp new
      exact absurd (recorded.waiting _ (expands.mem_sequences inChain)) split
  waiting := by simp [expands.plain]

theorem eliminate {nullable : SymbolSet} {blocks : List (List (Rule History))}
    (eliminates : grammar.EliminatesTo next nullable blocks) : next.Recorded :=
  ⟨fun _ member _ => elision_of_eliminates eliminates member, by simp [eliminates.plain]⟩

theorem binarize {chain : List (SplitRule History)} (binarizes : grammar.BinarizesTo next chain)
    (eliminated : ∀ rule ∈ grammar.rules, rule.history.elision ≠ none) : next.Recorded where
  elided := by
    intro piece member _
    obtain ⟨rule, inRules, same⟩ := exists_rule_of_binarizes binarizes member
    rw [same]
    exact eliminated rule inRules
  waiting := by simp [binarizes.plain]

end Recorded

end Grammar

end TracedGrammar
