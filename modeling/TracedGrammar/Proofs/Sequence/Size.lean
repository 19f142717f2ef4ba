import TracedGrammar.History.Tracked
import TracedGrammar.Proofs.Repetition.Halving
import TracedGrammar.Proofs.Sequence.Expanded

/-!
# Size of an expanded sequence

Each repetition that comes up in an expansion gets one symbol and at most two rules, with at most
three symbols each.  As few repetitions come up for each binary digit of the bounds, the expansion is
logarithmic in them.
-/

namespace TracedGrammar

namespace Repetition

variable {repetition : Repetition}

theorem length_runs_le (repetition : Repetition) (glue : List Symbol) :
    (repetition.runs glue).length ≤ 2 := by
  simp only [runs]
  (repeat' split) <;> simp

theorem length_alternatives_le (repetition : Repetition) : repetition.alternatives.length ≤ 2 := by
  unfold alternatives
  split
  · (repeat' split) <;> simp
  · split
    · simp
    · simp
    · exact length_runs_le repetition _
    · exact length_runs_le repetition _

/-- A row of at most two parts, or one of three with a separator in the middle. -/
def IsShort (repetition : Repetition) (row : List Part) : Prop :=
  row.length ≤ 2 ∨ ∃ first separator last, repetition.separator.symbol? = some separator ∧
    row = [first, .symbol separator, last]

theorem isShort_of_mem_runs {row : List Part}
    (member : row ∈ repetition.runs repetition.separator.glue) : repetition.IsShort row := by
  have glued (first last : Part) :
      repetition.IsShort (first :: repetition.separator.glue.map .symbol ++ [last]) := by
    unfold Separator.glue
    cases found : repetition.separator.symbol? with
    | none => exact .inl (Nat.le_refl 2)
    | some separator => exact .inr ⟨first, separator, last, found, rfl⟩
  simp only [runs] at member
  (repeat' split at member) <;> grind [IsShort]

theorem isShort_of_mem_alternatives {row : List Part} (member : row ∈ repetition.alternatives) :
    repetition.IsShort row := by
  unfold alternatives at member
  split at member
  · (repeat' split at member) <;> grind [IsShort]
  · cases found : repetition.separator with
    | absent =>
        rw [found] at member
        apply isShort_of_mem_runs
        rwa [found]
    | proper symbol =>
        rw [found] at member
        apply isShort_of_mem_runs
        rwa [found]
    | trailing symbol =>
        rw [found] at member
        rw [List.mem_singleton.mp member]
        exact .inl (Nat.le_refl 2)
    | liberal symbol =>
        rw [found] at member
        rcases List.mem_pair.mp member with rfl | rfl <;> exact .inl (Nat.le_succ 1)

theorem Layout.nodup_order {lhs : Symbol} {supply : SymbolSupply}
    {symbolOf : Repetition → Symbol} {order : List Repetition}
    (layout : repetition.Layout lhs supply symbolOf order) : order.Nodup :=
  .of_map _ (layout.symbols.nodup_iff.mpr List.nodup_range')

/-- The repetitions that get a symbol differ, and they are among the few that come up. -/
theorem Layout.length_order_le {lhs : Symbol} {supply : SymbolSupply}
    {symbolOf : Repetition → Symbol} {order : List Repetition}
    (layout : repetition.Layout lhs supply symbolOf order) (valid : repetition.IsValid) :
    order.length ≤ 5 * repetition.digits + 7 := by
  rw [← length_helpers]
  apply List.Subperm.length_le
  apply layout.nodup_order.subperm
  intro other inOrder
  exact mem_helpers_of_isDescendant valid (layout.descends other inOrder)

end Repetition

namespace ExpandedSequence

variable {H : Type} [RuleHistory H]

theorem length_rules_le (expanded : ExpandedSequence H) :
    expanded.rules.length ≤ 2 * (expanded.order.length + 1) := by
  have later : (expanded.order.flatMap fun other => other.alternatives.map
      (Production.ofRow expanded.symbolOf (expanded.symbolOf other) false)).length ≤
        2 * expanded.order.length := by
    generalize expanded.order = order
    induction order with
    | nil => exact Nat.le_refl 0
    | cons other order induction =>
        have few := other.length_alternatives_le
        rw [List.flatMap_cons, List.length_append, List.length_map, List.length_cons]
        omega
  have first := expanded.sequence.repetition.length_alternatives_le
  rw [rules, List.length_map, expanded.layout.productions_eq, List.length_append, List.length_map]
  omega

theorem rhs_short (expanded : ExpandedSequence H) {rule : Rule H}
    (member : rule ∈ expanded.rules) : rule.rhs.length ≤ 2 ∨ ∃ first separator last,
      expanded.sequence.repetition.separator.symbol? = some separator ∧
        rule.rhs = [first, separator, last] := by
  obtain ⟨top, symbol, written, writes, row, inside, rfl⟩ := expanded.mem_rules_iff.mp member
  have same : written.separator.symbol? = expanded.sequence.repetition.separator.symbol? := by
    cases writes with
    | top => rfl
    | helper inOrder =>
        exact (Repetition.isPartOf_of_isDescendant expanded.valid
          (expanded.layout.descends written inOrder)).symbol_eq
  rcases Repetition.isShort_of_mem_alternatives inside with few | ⟨first, separator, last, found, rfl⟩
  · left
    change (row.map _).length ≤ 2
    rwa [List.length_map]
  · exact .inr ⟨_, separator, _, same ▸ found, rfl⟩

end ExpandedSequence

namespace Sequence

variable {H : Type} [RuleHistory H]

/-- The expansion of a sequence whose range is not empty is logarithmic in the bounds, in the number
of its rules and in the number of symbols that it allocates.  No rule is longer than two items with a
separator. -/
theorem expand_logarithmic (sequence : Sequence H) (supply : SymbolSupply)
    (nonempty : ∀ most, sequence.repetition.most = some most → sequence.repetition.least ≤ most) :
    ∃ rules after, sequence.expand supply = .ok (rules, after) ∧
      rules.length ≤ 16 * (sequence.repetition.digits + 1) ∧
      after.allocated ≤ supply.allocated + 8 * (sequence.repetition.digits + 1) ∧
      ∀ rule ∈ rules, rule.rhs.length ≤ 3 ∧ (rule.rhs.length = 3 → ∃ first separator last,
        sequence.repetition.separator.symbol? = some separator ∧
          rule.rhs = [first, separator, last]) := by
  obtain ⟨expanded, rfl, rfl⟩ := ExpandedSequence.exists_of_isValid sequence nonempty supply
  have allocations := expanded.layout.length_order_le nonempty
  have few := expanded.length_rules_le
  refine ⟨expanded.rules, expanded.after, expanded.expand_eq, by omega, ?_, fun rule member => ?_⟩
  · rw [ExpandedSequence.after, expanded.layout.allocated_eq]
    omega
  · rcases expanded.rhs_short member with short | ⟨first, separator, last, found, whole⟩
    · exact ⟨by omega, by omega⟩
    · exact ⟨by rw [whole]; exact Nat.le_refl 3, fun _ => ⟨first, separator, last, found, whole⟩⟩

/-- A thousand to four thousand million items, with separators of which the last may be left out. -/
def thousandOrMore : Sequence History where
  lhs := ⟨0⟩
  repetition :=
    { item := ⟨1⟩, least := 1000, most := some 4000000000, separator := .liberal ⟨2⟩ }
  history := { origin := some (.sequence 0) }

theorem digits_thousandOrMore : thousandOrMore.repetition.digits = 32 := by
  apply Nat.le_antisymm
  · exact Nat.size_le.mpr (by decide)
  · exact Nat.lt_size.mpr (by decide)

theorem thousandOrMore_expand_logarithmic :
    ∃ rules after, thousandOrMore.expand ⟨3⟩ = .ok (rules, after) ∧ rules.length ≤ 16 * 33 ∧
      after.allocated ≤ 3 + 8 * 33 ∧
      ∀ rule ∈ rules, rule.rhs.length ≤ 3 ∧ (rule.rhs.length = 3 → ∃ first last,
        rule.rhs = [first, ⟨2⟩, last]) := by
  obtain ⟨rules, after, succeeds, few, allocations, short⟩ :=
    expand_logarithmic thousandOrMore ⟨3⟩ (by rintro most ⟨⟩; decide)
  rw [digits_thousandOrMore] at few allocations
  refine ⟨rules, after, succeeds, few, allocations, fun rule member => ?_⟩
  refine ⟨(short rule member).1, fun three => ?_⟩
  obtain ⟨first, separator, last, found, whole⟩ := (short rule member).2 three
  obtain rfl := Option.some.inj found
  exact ⟨first, last, whole⟩

end Sequence

end TracedGrammar
