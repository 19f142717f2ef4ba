import TracedGrammar.Proofs.Run.Inheritance

/-!
# Runs with ancestries

Every run of a grammar can be followed with an ancestry, which fits the grammar at every step.  Handles
retire when a pass takes the grammar out of its first stage, and stay so.
-/

namespace TracedGrammar

variable {H : Type}

namespace Grammar

variable {grammar next : Grammar H} {handle : Handle}

/-- A pass has worked on what a handle was given for. -/
def HasRetired (grammar : Grammar H) : Handle → Prop
  | .rule index => index < grammar.authoredFrom
  | .sequence index => index < grammar.sequencesConsumed

theorem HasRetired.mono (retired : grammar.HasRetired handle)
    (authoredFrom : grammar.authoredFrom ≤ next.authoredFrom)
    (consumed : grammar.sequencesConsumed ≤ next.sequencesConsumed) : next.HasRetired handle := by
  cases handle with
  | rule index => exact Nat.lt_of_lt_of_le retired authoredFrom
  | sequence index => exact Nat.lt_of_lt_of_le retired consumed

theorem HasRetired.afterPass (retired : grammar.HasRetired handle)
    (le : grammar.authoredFrom ≤ grammar.rules.length) {sequences : List (Sequence H)}
    (written : next = grammar.afterPass next.supply next.rules sequences next.stage)
    (longer : grammar.rules.length ≤ next.rules.length) :
    next.authoredFrom ≤ next.rules.length ∧ next.HasRetired handle := by
  have authoredFrom : next.authoredFrom =
      if next.stage = .authored then grammar.authoredFrom else next.rules.length := by
    rw [written]
    rfl
  refine ⟨?_, retired.mono ?_ ?_⟩
  · rw [authoredFrom]
    split
    · exact Nat.le_trans le longer
    · exact Nat.le_refl _
  · rw [authoredFrom]
    split
    · exact Nat.le_refl _
    · exact Nat.le_trans le longer
  · rw [written]
    exact Nat.le_add_right _ _

/-- A grammar has at least the rules of another, and no pass has worked on more than there. -/
structure KeepsOffsets (grammar next : Grammar H) : Prop where
  authoredFrom : next.authoredFrom = grammar.authoredFrom
  consumed : next.sequencesConsumed = grammar.sequencesConsumed
  longer : grammar.rules.length ≤ next.rules.length

end Grammar

variable [RuleHistory H]

/-- A permitted step that succeeds, with what becomes of the ancestry. -/
inductive Traces (permits : Grammar H → Step H → Prop) :
    Grammar H × Ancestry H → Grammar H × Ancestry H → Prop
  | command {grammar next : Grammar H} {ancestry : Ancestry H} {command : Command H}
      (permitted : permits grammar (.command command)) (done : command.perform grammar = .ok next) :
      Traces permits (grammar, ancestry) (next, command.trace grammar ancestry)
  | pass {start last : Grammar H × Ancestry H} {pass : Pass}
      (permitted : permits start.1 (.pass pass)) (descends : pass.Descends start last) :
      Traces permits start last

/-- A grammar comes from an empty one by permitted steps, and its rules descend from what was added. -/
def Grammar.Traced (permits : Grammar H → Step H → Prop) (grammar : Grammar H)
    (ancestry : Ancestry H) : Prop :=
  ∃ supply : SymbolSupply,
    Relation.ReflTransGen (Traces permits) ({ supply }, {}) (grammar, ancestry)

section Runs

variable {permits : Grammar H → Step H → Prop} {holds : H → Addition H → Prop}
  {start last : Grammar H × Ancestry H} {grammar : Grammar H} {ancestry : Ancestry H}

theorem Traces.advances (traces : Traces permits start last) :
    Grammar.Advances permits start.1 last.1 := by
  cases traces with
  | command permitted done => exact ⟨.command _, permitted, done⟩
  | pass permitted descends => exact ⟨.pass _, permitted, descends.done⟩

theorem Traces.fits (inheritable : Inheritable holds) (traces : Traces permits start last)
    (before : start.2.Fits holds start.1) : last.2.Fits holds last.1 := by
  cases traces with
  | command _ done => exact before.command inheritable done
  | pass _ descends => exact descends.fits inheritable before

theorem Grammar.Traced.arises (traced : grammar.Traced permits ancestry) : grammar.Arises permits := by
  obtain ⟨supply, run⟩ := traced
  exact ⟨supply, run.lift Prod.fst fun _ _ => Traces.advances⟩

theorem Grammar.Traced.fits (inheritable : Inheritable holds)
    (traced : grammar.Traced permits ancestry) : ancestry.Fits holds grammar := by
  obtain ⟨supply, run⟩ := traced
  generalize reached : (grammar, ancestry) = last at run
  suffices last.2.Fits holds last.1 by rwa [← reached] at this
  clear reached
  induction run with
  | refl => exact .start holds supply
  | tail _ traces induction => exact traces.fits inheritable induction

/-- Every run can be followed. -/
theorem Grammar.Arises.exists_traced (arises : grammar.Arises permits) :
    ∃ ancestry, grammar.Traced permits ancestry := by
  obtain ⟨supply, run⟩ := arises
  induction run with
  | refl => exact ⟨_, supply, .refl⟩
  | tail _ advances induction =>
      obtain ⟨ancestry, supply, traced⟩ := induction
      obtain ⟨step, permitted, done⟩ := advances
      cases step with
      | command command => exact ⟨_, supply, traced.tail (.command permitted done)⟩
      | pass pass =>
          obtain ⟨later, descends⟩ := pass.exists_descends done ancestry
          exact ⟨later, supply, traced.tail (.pass permitted descends)⟩

/-- Performs a command on a grammar with an ancestry. -/
def Command.follow (state : Grammar H × Ancestry H) (command : Command H) :
    Except GrammarError (Grammar H × Ancestry H) := do
  let next ← command.perform state.1
  return (next, command.trace state.1 state.2)

theorem Grammar.traced_of_foldlM {commands : List (Command H)}
    (permitted : ∀ command ∈ commands, ∀ grammar, permits grammar (.command command))
    {supply : SymbolSupply}
    (done : commands.foldlM Command.follow ({ supply }, {}) = .ok (grammar, ancestry)) :
    grammar.Traced permits ancestry := by
  refine ⟨supply, ?_⟩
  generalize (({ supply }, {}) : Grammar H × Ancestry H) = state at done ⊢
  induction commands generalizing state with
  | nil =>
      cases done
      exact .refl
  | cons command commands induction =>
      rw [List.foldlM_cons, bind_eq_ok_iff] at done
      obtain ⟨middle, first, rest⟩ := done
      rw [List.forall_mem_cons] at permitted
      obtain ⟨next, performed, same⟩ := bind_eq_ok_iff.mp first
      cases same
      exact .head (.command (permitted.1 state.1) performed) (induction permitted.2 _ rest)

theorem inheritable_true : Inheritable fun (_ : H) (_ : Addition H) => True :=
  ⟨fun _ => trivial, fun _ _ _ => trivial, fun _ _ _ => trivial, fun _ _ => trivial,
    fun _ _ _ => trivial, fun _ _ _ => trivial⟩

end Runs

namespace Grammar

variable {grammar next last : Grammar H} {handle : Handle}

/-- The author of a grammar does not change which rules have been worked on. -/
theorem keepsOffsets_of_perform {command : Command H} (done : command.perform grammar = .ok next) :
    grammar.KeepsOffsets next := by
  have kept : KeptByAdding (fun (_ : H) (_ : Addition H) => True)
      fun _ other => grammar.KeepsOffsets other := by
    refine ⟨fun _ before => ⟨before.authoredFrom, before.consumed, before.longer⟩, ?_,
      fun _ _ before _ => ⟨before.authoredFrom, before.consumed, before.longer⟩⟩
    intro ancestry other history source lhs rhs before _
    refine ⟨before.authoredFrom, before.consumed, Nat.le_trans before.longer ?_⟩
    rw [addRule, List.length_append]
    exact Nat.le_add_right _ _
  have sorted : grammar.KeepsOffsets grammar.sort :=
    ⟨rfl, rfl, Nat.le_of_eq (List.length_mergeSort _).symm⟩
  have labeled (handle : Handle) (change : H → Except GrammarError H)
      (changed : grammar.changeHistory handle change = .ok next) : grammar.KeepsOffsets next := by
    obtain ⟨-, changed⟩ := changed_of_changeHistory changed
    cases changed with
    | rule => exact ⟨rfl, rfl, Nat.le_of_eq List.length_set.symm⟩
    | sequence => exact ⟨rfl, rfl, Nat.le_refl _⟩
  exact kept.command inheritable_true {} ⟨rfl, rfl, Nat.le_refl _⟩ (fun _ => sorted)
    (fun handle change _ => labeled handle change) (fun _ _ => ⟨rfl, rfl, Nat.le_refl _⟩) done

end Grammar

end TracedGrammar
