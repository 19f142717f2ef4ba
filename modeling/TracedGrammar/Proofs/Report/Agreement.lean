import Mathlib.Data.List.Forall2
import TracedGrammar.Report.Basic

/-!
# Computations that agree

Two computations agree when both fail with the same failure, or both succeed and their values are
related.  Where every step agrees on related states, so do the runs through two lists.
-/

namespace TracedGrammar

variable {α β γ δ : Type}

inductive Agree (related : α → β → Prop) :
    Except GrammarError α → Except GrammarError β → Prop
  | ok {first : α} {second : β} (relates : related first second) :
      Agree related (.ok first) (.ok second)
  | error (failure : GrammarError) : Agree related (.error failure) (.error failure)

theorem Agree.eq_error {related : α → β → Prop} {failure : GrammarError}
    {second : Except GrammarError β} (agree : Agree related (.error failure) second) :
    second = .error failure := by
  cases agree
  rfl

theorem Agree.exists_ok {related : α → β → Prop} {value : α} {second : Except GrammarError β}
    (agree : Agree related (.ok value) second) : ∃ other, second = .ok other ∧ related value other := by
  cases agree with
  | ok relates => exact ⟨_, rfl, relates⟩

theorem Agree.bind {related : α → β → Prop} {other : γ → δ → Prop}
    {first : Except GrammarError α} {second : Except GrammarError β} {next : α → Except GrammarError γ}
    {also : β → Except GrammarError δ} (agree : Agree related first second)
    (steps : ∀ former latter, related former latter → Agree other (next former) (also latter)) :
    Agree other (first >>= next) (second >>= also) := by
  cases agree with
  | ok relates => exact steps _ _ relates
  | error failure => exact .error failure

/-- The same check comes before two computations. -/
theorem Agree.check {other : γ → δ → Prop} (check : Except GrammarError α)
    {next : Except GrammarError γ} {also : Except GrammarError δ} (agree : Agree other next also) :
    Agree other (check >>= fun _ => next) (check >>= fun _ => also) := by
  cases check with
  | ok _ => exact agree
  | error failure => exact .error failure

theorem Reported.agree_fold {related : γ → δ → Prop} {alike : α → β → Prop}
    {first : γ → α → Reported γ} {second : δ → β → Reported δ}
    (steps : ∀ state other item counterpart, related state other → alike item counterpart →
      Agree related (first state item).result (second other counterpart).result)
    {start : γ} {begin : δ} (starts : related start begin) {items : List α} {counterparts : List β}
    (all : List.Forall₂ alike items counterparts) :
    Agree related (fold first start items).result (fold second begin counterparts).result := by
  simp only [result_fold]
  induction all generalizing start begin with
  | nil => exact .ok starts
  | cons here _ induction =>
      rw [List.foldlM_cons, List.foldlM_cons]
      exact (steps _ _ _ _ starts here).bind fun _ _ relates => induction relates

end TracedGrammar
