import Mathlib.Logic.Relation
import TracedGrammar.Proofs.Run.Reached

/-!
# Runs

A run takes a grammar through commands and passes in any order.  What holds at the start and is kept by
every permitted step holds after every run.
-/

namespace TracedGrammar

/-- What is done to a grammar at a time. -/
inductive Step (H : Type)
  | command (command : Command H)
  | pass (pass : Pass)

variable {H : Type} [RuleHistory H]

def Step.perform (grammar : Grammar H) : Step H → Except GrammarError (Grammar H)
  | .command given => given.perform grammar
  | .pass given => (given.run grammar).result

namespace Grammar

/-- A permitted step that succeeds. -/
def Advances (permits : Grammar H → Step H → Prop) (grammar next : Grammar H) : Prop :=
  ∃ step : Step H, permits grammar step ∧ step.perform grammar = .ok next

/-- A grammar comes from an empty one by permitted steps. -/
def Arises (permits : Grammar H → Step H → Prop) (grammar : Grammar H) : Prop :=
  ∃ supply : SymbolSupply, Relation.ReflTransGen (Advances permits) { supply } grammar

variable {permits : Grammar H → Step H → Prop} {holds : Grammar H → Prop} {grammar : Grammar H}

theorem KeptByPasses.of_arises (kept : KeptByPasses holds)
    (start : ∀ supply : SymbolSupply, holds { supply })
    (command : ∀ {grammar next : Grammar H} {command : Command H}, holds grammar →
      permits grammar (.command command) → command.perform grammar = .ok next → holds next)
    (arises : grammar.Arises permits) : holds grammar := by
  obtain ⟨supply, run⟩ := arises
  induction run with
  | refl => exact start supply
  | tail _ advances induction =>
      obtain ⟨step, permitted, done⟩ := advances
      cases step with
      | command given => exact command induction permitted done
      | pass pass => exact kept.pass induction done

/-- Steps that are always permitted, one after the other. -/
theorem arises_of_foldlM {steps : List (Step H)}
    (permitted : ∀ step ∈ steps, ∀ grammar, permits grammar step) {supply : SymbolSupply}
    (done : steps.foldlM Step.perform { supply } = .ok grammar) : grammar.Arises permits := by
  refine ⟨supply, ?_⟩
  generalize ({ supply } : Grammar H) = start at done ⊢
  induction steps generalizing start with
  | nil =>
      cases done
      exact .refl
  | cons step steps induction =>
      rw [List.foldlM_cons, bind_eq_ok_iff] at done
      obtain ⟨next, first, rest⟩ := done
      rw [List.forall_mem_cons] at permitted
      exact .head ⟨step, permitted.1 start, first⟩ (induction permitted.2 next rest)

end Grammar

end TracedGrammar
