import TracedGrammar.Report.Basic

/-!
# Successful computations

A composition succeeds when each of its parts succeeds on what the part before has left.
-/

namespace TracedGrammar

variable {ε α β : Type}

theorem exists_eq_ok {result : Except ε α} (succeeds : result.toBool = true) :
    ∃ value, result = .ok value := by
  cases result with
  | error failure => cases succeeds
  | ok value => exact ⟨value, rfl⟩

theorem bind_eq_ok_iff {first : Except ε α} {next : α → Except ε β} {value : β} :
    first >>= next = .ok value ↔ ∃ middle, first = .ok middle ∧ next middle = .ok value := by
  cases first with
  | error failure => simp [bind, Except.bind]
  | ok middle => simp [bind, Except.bind]

namespace Reported

@[simp]
theorem result_liftM (result : Except GrammarError α) :
    (liftM result : Reported α).result = result :=
  rfl

theorem bind_result_eq_ok_iff {first : Reported α} {next : α → Reported β} {value : β} :
    (first >>= next).result = .ok value ↔
      ∃ middle, first.result = .ok middle ∧ (next middle).result = .ok value := by
  rw [result_bind, bind_eq_ok_iff]

theorem fold_nil_eq_ok_iff {step : β → α → Reported β} {start last : β} :
    (fold step start []).result = .ok last ↔ start = last := by
  rw [result_fold]
  simp [pure, Except.pure]

theorem fold_cons_eq_ok_iff {step : β → α → Reported β} {start last : β} {item : α}
    {items : List α} :
    (fold step start (item :: items)).result = .ok last ↔
      ∃ next, (step start item).result = .ok next ∧ (fold step next items).result = .ok last := by
  simp only [result_fold, List.foldlM_cons, bind_eq_ok_iff]

end Reported

end TracedGrammar
