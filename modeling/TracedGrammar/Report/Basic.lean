import TracedGrammar.Report.Entry

/-!
# Results with a report

A pass succeeds or fails, and in both cases it has reported something on the way.  The report never
has an influence on the result: the result of a composition is the composition of the results.
-/

namespace TracedGrammar

/-- The result of a computation together with what it reported. -/
structure Reported (α : Type) where
  entries : List LogEntry
  result : Except GrammarError α

namespace Reported

variable {α β : Type}

/-- Goes on with the value of a success, after what has been reported. -/
def andThen (first : Reported α) (next : α → Reported β) : Reported β :=
  match first with
  | ⟨entries, .error failure⟩ => ⟨entries, .error failure⟩
  | ⟨entries, .ok value⟩ => ⟨entries ++ (next value).entries, (next value).result⟩

instance : Monad Reported where
  pure value := ⟨[], .ok value⟩
  bind := andThen

def quiet (result : Except GrammarError α) : Reported α :=
  ⟨[], result⟩

instance : MonadLift (Except GrammarError) Reported :=
  ⟨quiet⟩

def report (entry : LogEntry) : Reported Unit :=
  ⟨[entry], .ok ()⟩

/-- Goes through a list with a state, until the first failure. -/
def fold (step : β → α → Reported β) (start : β) (items : List α) : Reported β :=
  go [] start items
where
  /-- Keeps the report so far in reverse. -/
  go (reversed : List LogEntry) (state : β) : List α → Reported β
    | [] => ⟨reversed.reverse, .ok state⟩
    | item :: items =>
        match step state item with
        | ⟨entries, .error failure⟩ => ⟨(entries.reverse ++ reversed).reverse, .error failure⟩
        | ⟨entries, .ok next⟩ => go (entries.reverse ++ reversed) next items

@[simp]
theorem result_pure (value : α) : (pure value : Reported α).result = .ok value :=
  rfl

@[simp]
theorem result_bind (first : Reported α) (next : α → Reported β) :
    (first >>= next).result = first.result >>= fun value => (next value).result := by
  obtain ⟨entries, result⟩ := first
  cases result <;> rfl

@[simp]
theorem result_quiet (result : Except GrammarError α) : (quiet result).result = result :=
  rfl

@[simp]
theorem result_report (entry : LogEntry) : (report entry).result = .ok () :=
  rfl

instance : LawfulMonad Reported :=
  LawfulMonad.mk' Reported
    (fun reported => by
      obtain ⟨entries, result⟩ := reported
      cases result <;> simp [Functor.map, andThen])
    (fun _ _ => by simp [bind, pure, andThen])
    (fun first next _ => by
      obtain ⟨entries, result⟩ := first
      cases result with
      | error failure => rfl
      | ok value =>
          rcases continued : next value with ⟨later, result⟩
          cases result <;> simp [bind, andThen, continued])

theorem fold_go_result (step : β → α → Reported β) (reversed : List LogEntry) (start : β)
    (items : List α) :
    (fold.go step reversed start items).result =
      items.foldlM (fun state item => (step state item).result) start := by
  induction items generalizing reversed start with
  | nil => rfl
  | cons item items induction =>
      simp only [fold.go, List.foldlM_cons]
      split
      · rename_i found
        simp [found, bind, Except.bind]
      · rename_i found
        simpa [found, bind, Except.bind] using induction _ _

theorem result_fold (step : β → α → Reported β) (start : β) (items : List α) :
    (fold step start items).result =
      items.foldlM (fun state item => (step state item).result) start :=
  fold_go_result step [] start items

end Reported

end TracedGrammar
