import TracedGrammar.Proofs.Run.Resolution
import TracedGrammar.Proofs.Run.Tracing

/-!
# Runs without sorting

Pieces of chains are made by passes, and what a pass has made comes before all that can be labelled.  So
only when rules have been sorted an author can get at a piece.
-/

namespace TracedGrammar

namespace Grammar

variable {grammar next : Grammar History}

theorem pieceOf?_eq_of_map (same : next.rules.map (fun rule => rule.history.chainPiece) =
    grammar.rules.map fun rule => rule.history.chainPiece) (index : Nat) :
    next.pieceOf? index = grammar.pieceOf? index := by
  have found (grammar : Grammar History) : grammar.pieceOf? index =
      ((grammar.rules.map fun rule => rule.history.chainPiece)[index]?).join := by
    rw [List.getElem?_map]
    unfold pieceOf?
    cases grammar.rules[index]? <;> rfl
  rw [found, found, same]

/-- No rule that can still be labelled is a piece of a chain. -/
def HidesPieces (grammar : Grammar History) : Prop :=
  ∀ index, grammar.authoredFrom ≤ index → grammar.pieceOf? index = none

namespace HidesPieces

/-- When a pass has worked on all rules, none can be labelled. -/
theorem of_worked (worked : grammar.authoredFrom = grammar.rules.length) : grammar.HidesPieces := by
  intro index beyond
  rw [worked] at beyond
  rw [pieceOf?, List.getElem?_eq_none beyond]
  rfl

variable (hides : grammar.HidesPieces)
include hides

theorem of_map (same : next.rules.map (fun rule => rule.history.chainPiece) =
    grammar.rules.map fun rule => rule.history.chainPiece)
    (authoredFrom : next.authoredFrom = grammar.authoredFrom) : next.HidesPieces := by
  intro index behind
  rw [pieceOf?_eq_of_map same]
  exact hides index (authoredFrom ▸ behind)

theorem of_growsTo (grows : grammar.GrowsTo (fun history => history.isAuthored = true) next)
    (authoredFrom : next.authoredFrom = grammar.authoredFrom) : next.HidesPieces := by
  obtain ⟨added, rules, authored⟩ := grows.rules
  intro index behind
  rw [authoredFrom] at behind
  have old := hides index behind
  unfold pieceOf? at old ⊢
  rw [rules]
  by_cases inside : index < grammar.rules.length
  · rwa [List.getElem?_append_left inside]
  · rw [List.getElem?_append_right (Nat.not_lt.mp inside), Option.bind_eq_none_iff]
    exact fun rule found =>
      History.chainPiece_eq_none_of_isAuthored (authored rule (List.mem_of_getElem? found))

theorem changeHistory {handle : Handle} {change : History → Except GrammarError History}
    (keeps : ∀ history other, change history = .ok other → other.chainPiece = history.chainPiece)
    (done : grammar.changeHistory handle change = .ok next) : next.HidesPieces := by
  obtain ⟨-, changed⟩ := changed_of_changeHistory done
  cases changed with
  | sequence => exact hides
  | rule _ found changed => exact hides.of_map (map_set_of_eq found (keeps _ _ changed)) rfl

theorem command {command : Command History} (unsorted : command ≠ .sort)
    (plain : command.histories = []) (done : command.perform grammar = .ok next) :
    next.HidesPieces := by
  rcases cases_of_perform History.holdsOfWritten_isAuthored (by simp [plain]) done with
    grows | ⟨sorts, _⟩ | ⟨_, _, done⟩ | ⟨_, _, _, done⟩ | ⟨_, rfl⟩
  · exact hides.of_growsTo grows (keepsOffsets_of_perform done).authoredFrom
  · exact absurd sorts unsorted
  · exact hides.changeHistory (fun _ _ set => (History.records_of_setAction set).1) done
  · exact hides.changeHistory (fun _ _ set => (History.records_of_setPrecedence set).1) done
  · exact hides

/-- What can be labelled is no piece, so labels spare the pieces. -/
theorem sparesPieces {command : Command History} (plain : command.histories = [])
    (done : command.perform grammar = .ok next) : grammar.SparesPieces (.command command) := by
  cases command with
  | precedence handle precedence =>
      have labeled : grammar.setPrecedence handle precedence = .ok next := done
      obtain ⟨-, changed⟩ := changed_of_changeHistory labeled
      cases changed with
      | rule authored => exact hides _ authored
      | sequence => exact plain
  | _ => exact plain

end HidesPieces

theorem keptByPasses_hidesPieces : KeptByPasses HidesPieces where
  expand := fun _ done => .of_worked (authoredFrom_of_afterPass (expandSequences_eq_afterPass done)
    (stage_expandSequences_ne done))
  eliminate := fun _ done => .of_worked (authoredFrom_of_afterPass
    (eliminateNullingWith_eq_afterPass done) (stage_eliminateNullingWith_ne done))
  binarize := fun _ done => .of_worked (authoredFrom_of_afterPass (binarize_eq_afterPass done)
    (stage_binarize_ne done))
  resolve := by
    intro grammar next hides done
    have written := resolvePrecedence_eq_afterPass done
    by_cases authored : next.stage = .authored
    · refine hides.of_map (map_resolvePrecedence (fun rule history precedence set => ?_) done) ?_
      · exact (History.records_of_setPrecedence set).1
      · rw [written]
        exact if_pos authored
    · exact .of_worked (authoredFrom_of_afterPass written authored)
  finish := fun hides _ => hides

/-- As long as a grammar is never sorted, no piece of a chain is ever labelled. -/
theorem ResolvedFrom.sparesPieces_of_unsorted {permits : Grammar History → Step History → Prop}
    {table : PrecedenceTable} (unsorted : ∀ grammar, ¬permits grammar (.command .sort))
    (plain : ∀ grammar command, permits grammar (.command command) → command.histories = [])
    (resolved : grammar.ResolvedFrom permits table) : grammar.ResolvedFrom SparesPieces table := by
  obtain ⟨supply, run⟩ := resolved
  generalize reached : (grammar, table) = last at run
  suffices last.1.ResolvedFrom SparesPieces last.2 ∧ last.1.HidesPieces by
    rw [← reached] at this
    exact this.1
  clear reached
  induction run with
  | refl => exact ⟨⟨supply, .refl⟩, .of_worked rfl⟩
  | tail _ advances induction =>
      obtain ⟨⟨supply, earlier⟩, hides⟩ := induction
      obtain ⟨step, permitted, done⟩ := advances
      obtain ⟨next, performed, same⟩ := bind_eq_ok_iff.mp done
      cases same
      cases step with
      | command command =>
          have without := plain _ command permitted
          refine ⟨⟨supply, earlier.tail ⟨_, hides.sparesPieces without performed, done⟩⟩,
            hides.command ?_ without performed⟩
          rintro rfl
          exact unsorted _ permitted
      | pass pass =>
          exact ⟨⟨supply, earlier.tail ⟨.pass pass, trivial, done⟩⟩,
            keptByPasses_hidesPieces.pass hides performed⟩

end Grammar

end TracedGrammar
