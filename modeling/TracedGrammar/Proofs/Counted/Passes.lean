import TracedGrammar.Proofs.Counted.Parts
import TracedGrammar.Proofs.Run.Reached

/-!
# Passes whose allocations are counted in 32 bits

The passes that allocate symbols are written once more for a supply that has an end, in which a pass is
interrupted when there is no room for a symbol that it needs.  A pass of this kind succeeds exactly when
it succeeds with a supply that has no end and the symbols fit, and then the result is the same.  So
whatever is true of the results of passes is true of the results of passes that are counted.
-/

namespace TracedGrammar

section Success

variable {α β γ : Type}

def Interruption.lift (result : Except GrammarError α) : Except Interruption α :=
  result.mapError .failed

theorem Interruption.lift_eq_ok_iff {result : Except GrammarError α} {value : α} :
    lift result = .ok value ↔ result = .ok value := by
  cases result with
  | error failure => simp [lift, Except.mapError]
  | ok value => simp [lift, Except.mapError]

/-- A computation from a supply succeeds if another one does and there is room for its symbols, and only
then. -/
structure SucceedsWithin (supplyOf : α → SymbolSupply) (supply : SymbolSupply)
    (counted : Except Interruption α) (plain : Except GrammarError α) : Prop where
  allocated_le : ∀ {value}, plain = .ok value → supply.allocated ≤ (supplyOf value).allocated
  eq_ok_iff : ∀ {value}, counted = .ok value ↔ plain = .ok value ∧ supply.HasRoom (supplyOf value)

namespace SucceedsWithin

variable {supplyOf : α → SymbolSupply} {other : β → SymbolSupply} {supply later : SymbolSupply}

theorem of_counts {counted : Except Interruption α} {made : α}
    (counts : Counts supply (supplyOf made) counted made) :
    SucceedsWithin supplyOf supply counted (.ok made) where
  allocated_le := by
    rintro _ ⟨⟩
    exact counts.allocated_le
  eq_ok_iff := by
    intro value
    rw [counts.eq_ok_iff, Except.ok.injEq]
    exact and_congr_right fun same => by rw [same]

theorem pure (value : α) : SucceedsWithin supplyOf (supplyOf value) (.ok value) (.ok value) :=
  .of_counts (.pure _ _)

/-- Nothing is allocated. -/
theorem lift {plain : Except GrammarError α}
    (same : ∀ value, plain = .ok value → supplyOf value = supply) :
    SucceedsWithin supplyOf supply (Interruption.lift plain) plain where
  allocated_le := fun {value} succeeds => by rw [same value succeeds]
  eq_ok_iff := by
    intro value
    rw [Interruption.lift_eq_ok_iff]
    refine ⟨fun succeeds => ⟨succeeds, ?_⟩, And.left⟩
    rw [same value succeeds]
    exact .refl supply

/-- The same check comes first. -/
theorem check (check : Except GrammarError γ) {counted : Except Interruption α}
    {plain : Except GrammarError α} (next : SucceedsWithin supplyOf supply counted plain) :
    SucceedsWithin supplyOf supply (Interruption.lift check >>= fun _ => counted)
      (check >>= fun _ => plain) := by
  cases check with
  | ok _ => exact next
  | error failure => exact ⟨nofun, by simp [Interruption.lift, Except.mapError, Bind.bind, Except.bind]⟩

theorem bind {counted : Except Interruption α} {plain : Except GrammarError α}
    {next : α → Except Interruption β} {plainNext : α → Except GrammarError β}
    (first : SucceedsWithin supplyOf supply counted plain)
    (second : ∀ value, plain = .ok value →
      SucceedsWithin other (supplyOf value) (next value) (plainNext value)) :
    SucceedsWithin other supply (counted >>= next) (plain >>= plainNext) where
  allocated_le := by
    intro last succeeds
    obtain ⟨value, former, latter⟩ := bind_eq_ok_iff.mp succeeds
    exact Nat.le_trans (first.allocated_le former) ((second value former).allocated_le latter)
  eq_ok_iff := by
    intro last
    rw [bind_eq_ok_iff, bind_eq_ok_iff]
    constructor
    · rintro ⟨value, former, latter⟩
      obtain ⟨plainly, before⟩ := first.eq_ok_iff.mp former
      obtain ⟨alsoPlainly, after⟩ := (second value plainly).eq_ok_iff.mp latter
      refine ⟨⟨value, plainly, alsoPlainly⟩, ?_⟩
      exact (SymbolSupply.hasRoom_trans_iff (first.allocated_le plainly)
        ((second value plainly).allocated_le alsoPlainly)).mp ⟨before, after⟩
    · rintro ⟨⟨value, plainly, alsoPlainly⟩, room⟩
      obtain ⟨before, after⟩ := (SymbolSupply.hasRoom_trans_iff (first.allocated_le plainly)
        ((second value plainly).allocated_le alsoPlainly)).mpr room
      exact ⟨value, first.eq_ok_iff.mpr ⟨plainly, before⟩,
        (second value plainly).eq_ok_iff.mpr ⟨alsoPlainly, after⟩⟩

theorem foldlM {step : α → γ → Except Interruption α} {plainStep : α → γ → Except GrammarError α}
    (steps : ∀ state item, SucceedsWithin supplyOf (supplyOf state) (step state item)
      (plainStep state item)) (start : α) (items : List γ) :
    SucceedsWithin supplyOf (supplyOf start) (items.foldlM step start)
      (items.foldlM plainStep start) := by
  induction items generalizing start with
  | nil => exact .pure start
  | cons item items induction =>
      rw [List.foldlM_cons, List.foldlM_cons]
      exact (steps start item).bind fun next _ => induction next

end SucceedsWithin

end Success

variable {H : Type} [RuleHistory H] {limits : Limits}

namespace Counted

def binarizeRule (limits : Limits) (draft : Draft H) (rule : Rule H) :
    Except Interruption (Draft H) := do
  let (parts, supply) ← pieces rule draft.supply
  let rules := draft.rules ++ parts.map Prod.fst
  Interruption.lift (limits.checkRules rules.size)
  return { supply, rules }

def binarize (grammar : Grammar H) (limits : Limits) : Except Interruption (Grammar H) := do
  if Stage.nullingEliminated ≤ grammar.stage then
    let draft ← grammar.rules.foldlM (binarizeRule limits) { supply := grammar.supply }
    return grammar.afterPass draft.supply draft.rules.toList [] (max grammar.stage .binarized)
  else
    throw (.failed (.wrongStage .binarization grammar.stage))

def expandSequence (limits : Limits) (kept : Nat) (draft : Draft H) (sequence : Sequence H) :
    Except Interruption (Draft H) := do
  Interruption.lift sequence.repetition.validate
  let (made, supply) ← productions sequence.repetition sequence.lhs draft.supply
  let rules := draft.rules ++ made.map sequence.ruleOf
  Interruption.lift (limits.checkRules (kept + rules.size))
  return { supply, rules }

def expandSequences (grammar : Grammar H) (limits : Limits) : Except Interruption (Grammar H) := do
  let draft ← grammar.sequences.foldlM (expandSequence limits grammar.rules.length)
    { supply := grammar.supply }
  return grammar.afterPass draft.supply (grammar.rules ++ draft.rules.toList) []
    (max grammar.stage .sequenceExpanded)

def normalize (grammar : Grammar H) (limits : Limits) : Except Interruption (Grammar H) := do
  let expanded ← expandSequences grammar limits
  let eliminated ← Interruption.lift (expanded.eliminateNulling limits).result
  let binarized ← binarize eliminated limits
  let resolved ← Interruption.lift binarized.resolvePrecedence.result
  return { resolved with stage := .normalized }

/-- Runs a pass with a supply that counts in 32 bits.  Only the expansion of sequences and binarization
allocate symbols. -/
def run (grammar : Grammar H) : Pass → Except Interruption (Grammar H)
  | .expandSequences limits => expandSequences grammar limits
  | .binarize limits => binarize grammar limits
  | .normalize limits => normalize grammar limits
  | pass => Interruption.lift (pass.run grammar).result

end Counted

namespace Counted

theorem binarizeRule_succeedsWithin (draft : Draft H) (rule : Rule H) :
    SucceedsWithin Draft.supply draft.supply (binarizeRule limits draft rule)
      (Grammar.binarizeRule limits draft rule).result := by
  have parts : SucceedsWithin Prod.snd draft.supply (pieces rule draft.supply)
      (.ok (rule.binarize draft.supply)) :=
    .of_counts (counts_pieces rule draft.supply)
  rw [Grammar.result_binarizeRule]
  change SucceedsWithin _ _ _ (Except.ok (rule.binarize draft.supply) >>= fun made =>
    limits.checkRules (draft.rules ++ made.1.map Prod.fst).size >>= fun _ =>
      .ok (Draft.mk made.2 (draft.rules ++ made.1.map Prod.fst)))
  exact parts.bind fun made _ => .check _ (.pure (Draft.mk made.2 (draft.rules ++ made.1.map Prod.fst)))

theorem binarize_succeedsWithin (grammar : Grammar H) (limits : Limits) :
    SucceedsWithin Grammar.supply grammar.supply (binarize grammar limits)
      (grammar.binarize limits).result := by
  unfold binarize Grammar.binarize
  split
  · simp only [Reported.result_bind, Reported.result_report, Reported.result_fold]
    refine (SucceedsWithin.foldlM binarizeRule_succeedsWithin
      { supply := grammar.supply } grammar.rules).bind fun draft _ => ?_
    exact .pure (grammar.afterPass draft.supply draft.rules.toList [] (max grammar.stage .binarized))
  · constructor <;> simp

theorem result_expandSequence {kept : Nat} (draft : Draft H) (sequence : Sequence H) :
    (Grammar.expandSequence limits kept draft sequence).result =
      sequence.repetition.validate >>= fun _ =>
        .ok (sequence.repetition.expand sequence.lhs draft.supply) >>= fun made =>
          limits.checkRules (kept + (draft.rules ++ made.1.map sequence.ruleOf).size) >>= fun _ =>
            .ok ⟨made.2, draft.rules ++ made.1.map sequence.ruleOf⟩ := by
  simp only [Grammar.expandSequence, Reported.result_bind, Reported.result_report,
    Reported.result_liftM, Draft.expand, Sequence.expand]
  cases sequence.repetition.validate with
  | error failure => rfl
  | ok _ => rfl

theorem expandSequence_succeedsWithin {kept : Nat} (draft : Draft H) (sequence : Sequence H) :
    SucceedsWithin Draft.supply draft.supply (expandSequence limits kept draft sequence)
      (Grammar.expandSequence limits kept draft sequence).result := by
  have made : SucceedsWithin Prod.snd draft.supply
      (productions sequence.repetition sequence.lhs draft.supply)
      (.ok (sequence.repetition.expand sequence.lhs draft.supply)) :=
    .of_counts (counts_productions _ _ _)
  rw [result_expandSequence]
  refine .check _ (made.bind fun made _ => ?_)
  exact .check _ (.pure (Draft.mk made.2 (draft.rules ++ made.1.map sequence.ruleOf)))

theorem expandSequences_succeedsWithin (grammar : Grammar H) (limits : Limits) :
    SucceedsWithin Grammar.supply grammar.supply (expandSequences grammar limits)
      (grammar.expandSequences limits).result := by
  unfold expandSequences Grammar.expandSequences
  simp only [Reported.result_bind, Reported.result_report, Reported.result_fold]
  refine (SucceedsWithin.foldlM expandSequence_succeedsWithin
    { supply := grammar.supply } grammar.sequences).bind fun draft _ => ?_
  exact .pure (grammar.afterPass draft.supply (grammar.rules ++ draft.rules.toList) []
    (max grammar.stage .sequenceExpanded))

theorem eliminateNullingWith_succeedsWithin (grammar : Grammar H) (nullable : SymbolSet)
    (limits : Limits) :
    SucceedsWithin Grammar.supply grammar.supply
      (Interruption.lift (grammar.eliminateNullingWith nullable limits).result)
      (grammar.eliminateNullingWith nullable limits).result := by
  refine .lift fun eliminated done => ?_
  obtain ⟨_, eliminates⟩ := Grammar.exists_eliminatesTo done
  exact eliminates.supply_eq

theorem eliminateNulling_succeedsWithin (grammar : Grammar H) (limits : Limits) :
    SucceedsWithin Grammar.supply grammar.supply
      (Interruption.lift (grammar.eliminateNulling limits).result)
      (grammar.eliminateNulling limits).result :=
  eliminateNullingWith_succeedsWithin grammar grammar.nullableSymbols limits

theorem resolvePrecedence_succeedsWithin (grammar : Grammar H) :
    SucceedsWithin Grammar.supply grammar.supply
      (Interruption.lift grammar.resolvePrecedence.result) grammar.resolvePrecedence.result :=
  .lift fun _ done => Grammar.supply_resolvePrecedence done

theorem normalize_succeedsWithin (grammar : Grammar H) (limits : Limits) :
    SucceedsWithin Grammar.supply grammar.supply (normalize grammar limits)
      (grammar.normalize limits).result := by
  unfold normalize Grammar.normalize
  simp only [Reported.result_bind, Reported.result_report]
  refine (expandSequences_succeedsWithin grammar limits).bind fun expanded _ => ?_
  refine (eliminateNulling_succeedsWithin expanded limits).bind fun eliminated _ => ?_
  refine (binarize_succeedsWithin eliminated limits).bind fun binarized _ => ?_
  refine (resolvePrecedence_succeedsWithin binarized).bind fun resolved _ => ?_
  exact .pure { resolved with stage := .normalized }

theorem run_succeedsWithin (grammar : Grammar H) (pass : Pass) :
    SucceedsWithin Grammar.supply grammar.supply (run grammar pass) (pass.run grammar).result := by
  cases pass with
  | expandSequences limits => exact expandSequences_succeedsWithin grammar limits
  | eliminateNulling limits => exact eliminateNulling_succeedsWithin grammar limits
  | eliminateNullingWith nullable limits =>
      exact eliminateNullingWith_succeedsWithin grammar nullable limits
  | binarize limits => exact binarize_succeedsWithin grammar limits
  | resolvePrecedence => exact resolvePrecedence_succeedsWithin grammar
  | normalize limits => exact normalize_succeedsWithin grammar limits

/-- A pass that is counted succeeds when the pass does and there is room for the symbols that it
allocates, and only then. -/
theorem run_eq_ok_iff {pass : Pass} {grammar next : Grammar H} :
    run grammar pass = .ok next ↔
      (pass.run grammar).result = .ok next ∧ grammar.supply.HasRoom next.supply :=
  (run_succeedsWithin grammar pass).eq_ok_iff

/-- However many passes are run, it is enough that there is room for what is allocated in the end. -/
theorem foldlM_run_eq_ok_iff {passes : List Pass} {grammar next : Grammar H} :
    passes.foldlM run grammar = .ok next ↔
      grammar.runPasses passes = .ok next ∧ grammar.supply.HasRoom next.supply :=
  (SucceedsWithin.foldlM run_succeedsWithin grammar passes).eq_ok_iff

end Counted

end TracedGrammar
