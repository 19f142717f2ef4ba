import TracedGrammar.Builder.Sequence
import TracedGrammar.History.Tracked
import TracedGrammar.Proofs.Repetition.FixedWidth

/-!
# Ranges of sequences

A sequence that is given a range has the bounds of that range, however it is given.  They are out of
order exactly if no count is in the range, and then the sequence is refused before any symbol is
allocated.
-/

namespace TracedGrammar

namespace CountRange

variable {range : CountRange} {bound : CountBound} {count : Nat}

theorem allowsFrom_iff (small : count ≤ maxCount) :
    bound.AllowsFrom count ↔ ∃ least, leastOf bound = some least ∧ least ≤ count := by
  cases bound with
  | unbounded => simp [CountBound.AllowsFrom, leastOf]
  | included least => simp [CountBound.AllowsFrom, leastOf]
  | excluded below =>
      rw [CountBound.AllowsFrom, leastOf]
      split
      · simp only [Option.some.injEq, exists_eq_left', Nat.succ_le_iff]
      · simp only [reduceCtorEq, false_and, exists_false, iff_false]
        omega

/-- A count of 32 bits is in a range if it is between the extremes. -/
theorem mem_iff_extremes (small : count ≤ maxCount) :
    count ∈ range ↔
      range.extremes.1 ≤ count ∧ ∀ most, range.extremes.2 = some most → count ≤ most := by
  rw [mem_iff, and_iff_right small, allowsFrom_iff small]
  unfold extremes
  cases found : leastOf range.lower with
  | none =>
      -- Only what follows the greatest count would be in the range.
      simp only [reduceCtorEq, false_and, exists_false, false_iff, Option.some.injEq]
      intro between
      have positive : 0 < maxCount := by decide
      have last := between.2 _ rfl
      omega
  | some least =>
      simp only [Option.some.injEq, exists_eq_left']
      cases range.upper with
      | unbounded => simp [CountBound.AllowsUpTo]
      | included most => simp [CountBound.AllowsUpTo]
      | excluded above =>
          cases above with
          | zero =>
              simp only [CountBound.AllowsUpTo, Nat.not_lt_zero, and_false, false_iff,
                Option.some.injEq, forall_eq']
              omega
          | succ most =>
              simp only [CountBound.AllowsUpTo, Nat.lt_succ_iff, Option.some.injEq, forall_eq']

end CountRange

namespace Range32

theorem mem_toRange_iff (range : Range32) (count : UInt32) : count.toNat ∈ range.toRange ↔
    range.toRange.extremes.1 ≤ count.toNat ∧
      ∀ most, range.toRange.extremes.2 = some most → count.toNat ≤ most :=
  CountRange.mem_iff_extremes (Nat.le_sub_one_of_lt count.toNat_lt)

/-- A range that is not empty has its least count. -/
theorem exists_mem_iff (range : Range32) : (∃ count : UInt32, count.toNat ∈ range.toRange) ↔
    ∀ most, range.toRange.extremes.2 = some most → range.toRange.extremes.1 ≤ most := by
  obtain ⟨least, most, _, same⟩ := range.extremes_toRange
  constructor
  · rintro ⟨count, inside⟩ greatest found
    obtain ⟨above, below⟩ := (range.mem_toRange_iff count).mp inside
    exact above.trans (below greatest found)
  · intro ordered
    refine ⟨least, (range.mem_toRange_iff least).mpr ?_⟩
    rw [same] at ordered ⊢
    exact ⟨Nat.le_refl _, ordered⟩

end Range32

namespace Sequence

variable {H : Type} [RuleHistory H]

/-- A sequence is rewritten as it is expanded, and the supply is left as it was when that fails. -/
theorem run_rewrite (sequence : Sequence H) (supply : SymbolSupply) :
    sequence.rewrite.run.run supply = match sequence.expand supply with
      | .ok (rules, after) => (.ok rules, after)
      | .error failure => (.error failure, supply) := by
  unfold rewrite expand
  cases sequence.repetition.validate with
  | error failure => rfl
  | ok => rfl

theorem run_rewrite_of_isValid (sequence : Sequence H) (supply : SymbolSupply)
    (valid : sequence.repetition.IsValid) : sequence.rewrite.run.run supply =
      (.ok ((sequence.repetition.expand sequence.lhs supply).1.map sequence.ruleOf),
        (sequence.repetition.expand sequence.lhs supply).2) := by
  rw [run_rewrite, expand, Repetition.validate_eq_ok_iff.mpr valid]
  rfl

/-- A sequence is refused for its bounds alone. -/
theorem run_rewrite_cases (sequence : Sequence H) (supply : SymbolSupply) :
    sequence.repetition.IsValid ∧ (∃ rules after,
        sequence.rewrite.run.run supply = (.ok rules, after)) ∨
      ¬sequence.repetition.IsValid ∧ ∃ least most,
        sequence.rewrite.run.run supply = (.error (.emptyRange least most), supply) := by
  by_cases valid : sequence.repetition.IsValid
  · exact .inl ⟨valid, _, _, sequence.run_rewrite_of_isValid supply valid⟩
  · obtain ⟨most, bounded, less⟩ : ∃ most, sequence.repetition.most = some most ∧
        most < sequence.repetition.least := by
      unfold Repetition.IsValid at valid
      push Not at valid
      exact valid
    refine .inr ⟨valid, sequence.repetition.least, most, ?_⟩
    rw [run_rewrite, expand, Repetition.validate, bounded]
    simp only [if_neg (Nat.not_le.mpr less)]
    rfl

/-- A sequence has the counts of a range of 32 bits.  It is refused if there are none, and otherwise
no number leaves the 32 bits while it is written. -/
structure HasRange (sequence : Sequence H) (range : Range32) : Prop where
  bounds : ∃ least most, range.extremes = some (least, most) ∧
    sequence.repetition.least = least.toNat ∧ sequence.repetition.most = most.map UInt32.toNat
  mem_iff : ∀ count : UInt32, count.toNat ∈ range.toRange ↔
    sequence.repetition.least ≤ count.toNat ∧
      ∀ most, sequence.repetition.most = some most → count.toNat ≤ most
  refused_iff : ∀ supply, (∃ least most,
      (sequence.rewrite.run.run supply).1 = .error (.emptyRange least most)) ↔
    ∀ count : UInt32, count.toNat ∉ range.toRange
  unchanged : ∀ supply failure, (sequence.rewrite.run.run supply).1 = .error failure →
    (sequence.rewrite.run.run supply).2 = supply
  written : ∀ count : UInt32, count.toNat ∈ range.toRange → ∀ part : Repetition,
    part = sequence.repetition ∨ part.IsDescendant sequence.repetition →
      ∃ fixed : Repetition32, fixed.toRepetition = part ∧
        fixed.alternatives = some part.alternatives

theorem hasRange_of_extremes {sequence : Sequence H} {range : Range32}
    (leastEq : sequence.repetition.least = range.toRange.extremes.1)
    (mostEq : sequence.repetition.most = range.toRange.extremes.2) : sequence.HasRange range := by
  have valid_iff : (∃ count : UInt32, count.toNat ∈ range.toRange) ↔
      sequence.repetition.IsValid := by
    rw [range.exists_mem_iff, Repetition.IsValid, leastEq, mostEq]
  obtain ⟨least, most, made, same⟩ := range.extremes_toRange
  replace leastEq : sequence.repetition.least = least.toNat :=
    leastEq.trans (congrArg Prod.fst same)
  replace mostEq : sequence.repetition.most = most.map UInt32.toNat :=
    mostEq.trans (congrArg Prod.snd same)
  let fixed : Repetition32 :=
    ⟨sequence.repetition.item, least, most, sequence.repetition.separator⟩
  have whole : fixed.toRepetition = sequence.repetition := by
    rw [Repetition32.toRepetition, ← leastEq, ← mostEq]
  constructor
  case bounds => exact ⟨least, most, made, leastEq, mostEq⟩
  case mem_iff =>
    intro count
    rw [range.mem_toRange_iff, same, leastEq, mostEq]
  case refused_iff =>
    intro supply
    rw [← not_exists, valid_iff]
    rcases sequence.run_rewrite_cases supply with
      ⟨valid, rules, after, succeeds⟩ | ⟨invalid, fewest, greatest, fails⟩
    · rw [succeeds]
      simp [valid]
    · rw [fails]
      exact iff_of_true ⟨fewest, greatest, rfl⟩ invalid
  case unchanged =>
    intro supply failure failed
    rcases sequence.run_rewrite_cases supply with
      ⟨_, rules, after, succeeds⟩ | ⟨_, fewest, greatest, fails⟩
    · rw [succeeds] at failed
      cases failed
    · rw [fails]
  case written =>
    intro count inside part comes
    have valid := valid_iff.mp ⟨count, inside⟩
    rw [← whole] at valid comes
    exact Repetition32.exists_alternatives_eq_some valid comes

end Sequence

namespace SequenceBuilder

variable {H : Type}

namespace Call

/-- The item of a sequence that a call adds. -/
def item? : Call H → Option Symbol
  | .item symbol | .itemWithin symbol _ | .itemWith symbol _ => some symbol
  | .sequence _ | .separator _ | .history _ | .between _ _ | .within _ => none

/-- Whether a call replaces the bounds that were given before. -/
def SetsBounds : Call H → Prop
  | .between _ _ | .within _ | .itemWithin _ _ => True
  | .sequence _ | .separator _ | .history _ | .item _ | .itemWith _ _ => False

/-- The range that a call gives, alone or with an item. -/
def range? : Call H → Option CountRange
  | .within range | .itemWithin _ range => some range
  | .sequence _ | .separator _ | .history _ | .between _ _ | .item _ | .itemWith _ _ => none

theorem filterMap_item?_cons (call : Call H) (calls : List (Call H)) :
    (call :: calls).filterMap item? = call.item?.toList ++ calls.filterMap item? := by
  rw [List.filterMap_cons]
  cases call.item? <;> rfl

end Call

def bounds (builder : SequenceBuilder H) : Nat × Option Nat :=
  (builder.least, builder.most)

/-- A builder has added sequences for some items within its bounds. -/
structure Adds (before after : SequenceBuilder H) (items : List Symbol) (added : List (Sequence H)) :
    Prop where
  sequences_eq : after.grammar.sequences = before.grammar.sequences ++ added
  items_eq : added.map (·.repetition.item) = items
  bounds_eq : ∀ sequence ∈ added,
    (sequence.repetition.least, sequence.repetition.most) = after.bounds

theorem Adds.none {before after : SequenceBuilder H}
    (same : after.grammar.sequences = before.grammar.sequences) : before.Adds after [] [] where
  sequences_eq := by rw [same, List.append_nil]
  items_eq := rfl
  bounds_eq := List.forall_mem_nil _

theorem Adds.trans {before between after : SequenceBuilder H} {items others : List Symbol}
    {added more : List (Sequence H)} (first : before.Adds between items added)
    (second : between.Adds after others more) (kept : after.bounds = between.bounds) :
    before.Adds after (items ++ others) (added ++ more) where
  sequences_eq := by rw [second.sequences_eq, first.sequences_eq, List.append_assoc]
  items_eq := by rw [List.map_append, first.items_eq, second.items_eq]
  bounds_eq := by
    intro sequence member
    rcases List.mem_append.mp member with early | late
    · rw [kept]
      exact first.bounds_eq sequence early
    · exact second.bounds_eq sequence late

variable [RuleHistory H]

theorem exists_adds_add (builder : SequenceBuilder H) (item : Symbol) :
    (builder.add item).bounds = builder.bounds ∧
      ∃ sequence, builder.Adds (builder.add item) [item] [sequence] := by
  unfold add
  split
  · exact ⟨rfl, _, rfl, rfl, List.forall_mem_singleton.mpr rfl⟩
  · exact ⟨rfl, _, rfl, rfl, List.forall_mem_singleton.mpr rfl⟩

/-- A call adds at most one sequence, within the bounds that hold then. -/
theorem exists_adds_perform (builder : SequenceBuilder H) (call : Call H) :
    ∃ added, builder.Adds (builder.perform call) call.item?.toList added := by
  cases call with
  | sequence lhs => exact ⟨[], .none rfl⟩
  | separator separator => exact ⟨[], .none rfl⟩
  | history history => exact ⟨[], .none rfl⟩
  | between least most => exact ⟨[], .none rfl⟩
  | within range => exact ⟨[], .none rfl⟩
  | item item =>
      obtain ⟨_, sequence, adds⟩ := builder.exists_adds_add item
      exact ⟨[sequence], adds⟩
  | itemWithin item range =>
      obtain ⟨_, sequence, adds⟩ := (builder.setRange range).exists_adds_add item
      exact ⟨[sequence], adds.sequences_eq, adds.items_eq, adds.bounds_eq⟩
  | itemWith item history => exact ⟨[_], rfl, rfl, List.forall_mem_singleton.mpr rfl⟩

theorem bounds_perform (builder : SequenceBuilder H) {call : Call H} (keeps : ¬call.SetsBounds) :
    (builder.perform call).bounds = builder.bounds := by
  cases call with
  | item item => exact (builder.exists_adds_add item).1
  | between | within | itemWithin => exact absurd trivial keeps
  | sequence | separator | history | itemWith => rfl

theorem bounds_perform_of_range? (builder : SequenceBuilder H) {call : Call H} {range : CountRange}
    (given : call.range? = some range) : (builder.perform call).bounds = range.extremes := by
  cases call with
  | within other => rw [← Option.some.inj given]; rfl
  | itemWithin item other =>
      rw [← Option.some.inj given]
      exact ((builder.setRange other).exists_adds_add item).1
  | sequence | separator | history | between | item | itemWith => cases given

theorem Adds.exists_cons {builder after : SequenceBuilder H} {call : Call H}
    {calls : List (Call H)} {added : List (Sequence H)}
    (later : (builder.perform call).Adds after (calls.filterMap Call.item?) added)
    (kept : after.bounds = (builder.perform call).bounds) :
    ∃ all, builder.Adds after ((call :: calls).filterMap Call.item?) all := by
  obtain ⟨first, adds⟩ := builder.exists_adds_perform call
  rw [Call.filterMap_item?_cons]
  exact ⟨first ++ added, adds.trans later kept⟩

/-- Calls that do not replace the bounds add sequences within them. -/
theorem exists_adds_run (builder : SequenceBuilder H) {calls : List (Call H)}
    (keep : ∀ call ∈ calls, ¬call.SetsBounds) :
    (builder.run calls).bounds = builder.bounds ∧
      ∃ added, builder.Adds (builder.run calls) (calls.filterMap Call.item?) added := by
  induction calls generalizing builder with
  | nil => exact ⟨rfl, [], .none rfl⟩
  | cons call calls induction =>
      obtain ⟨first, later⟩ := List.forall_mem_cons.mp keep
      obtain ⟨kept, added, adds⟩ := induction (builder.perform call) later
      exact ⟨kept.trans (builder.bounds_perform first), adds.exists_cons kept⟩

end SequenceBuilder

section Ranges

variable {H : Type} [RuleHistory H]

/-- A sequence that gets a range has the counts of the range, whether it is given to the sequence or to
the builder before. -/
theorem Sequence.hasRange_of_given (range : Range32) :
    (∀ sequence : Sequence H, Sequence.HasRange
      { sequence with repetition := sequence.repetition.within range.toRange } range) ∧
    ∀ (builder : SequenceBuilder H) (first : SequenceBuilder.Call H)
      (calls : List (SequenceBuilder.Call H)), first.range? = some range.toRange →
      (∀ call ∈ calls, ¬call.SetsBounds) →
        ∃ added, (builder.run (first :: calls)).grammar.sequences =
            builder.grammar.sequences ++ added ∧
          added.map (·.repetition.item) =
            (first :: calls).filterMap SequenceBuilder.Call.item? ∧
          ∀ sequence ∈ added, sequence.HasRange range := by
  refine ⟨fun sequence => hasRange_of_extremes rfl rfl, fun builder first calls given keep => ?_⟩
  obtain ⟨kept, _, later⟩ := (builder.perform first).exists_adds_run keep
  obtain ⟨added, adds⟩ := later.exists_cons kept
  refine ⟨added, adds.sequences_eq, adds.items_eq, fun sequence member => ?_⟩
  have bounds := (adds.bounds_eq sequence member).trans
    (kept.trans (builder.bounds_perform_of_range? given))
  exact hasRange_of_extremes (congrArg Prod.fst bounds) (congrArg Prod.snd bounds)

end Ranges

/-- What would follow the greatest count. -/
def beyondGreatest : Range32 :=
  ⟨.excluded 4294967295, .unbounded⟩

theorem not_mem_beyondGreatest (count : UInt32) : count.toNat ∉ beyondGreatest.toRange := by
  rintro ⟨_, follows, _⟩
  have small := count.toNat_lt
  change 4294967295 < count.toNat at follows
  omega

theorem beyondGreatest_hasRange_of_given : ∃ added : List (Sequence History),
    (SequenceBuilder.run { grammar := {}, lhs := ⟨0⟩ }
      [.itemWithin ⟨1⟩ beyondGreatest.toRange, .intersperse ⟨2⟩, .item ⟨3⟩]).grammar.sequences =
        added ∧
    added.map (·.repetition.item) = [⟨1⟩, ⟨3⟩] ∧
    ∀ sequence ∈ added, ∀ supply, (∃ least most,
        (sequence.rewrite.run.run supply).1 = .error (.emptyRange least most)) ∧
      (sequence.rewrite.run.run supply).2 = supply := by
  obtain ⟨added, sequences, items, ranged⟩ :=
    (Sequence.hasRange_of_given (H := History) beyondGreatest).2 { grammar := {}, lhs := ⟨0⟩ }
      (.itemWithin ⟨1⟩ beyondGreatest.toRange) [.intersperse ⟨2⟩, .item ⟨3⟩] rfl (by
        intro call member
        rcases List.mem_pair.mp member with rfl | rfl <;> exact not_false)
  refine ⟨added, sequences, items, fun sequence member supply => ?_⟩
  obtain ⟨least, most, refused⟩ :=
    ((ranged sequence member).refused_iff supply).mpr not_mem_beyondGreatest
  exact ⟨⟨least, most, refused⟩, (ranged sequence member).unchanged supply _ refused⟩

end TracedGrammar
