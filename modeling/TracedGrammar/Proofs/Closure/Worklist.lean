import TracedGrammar.Closure

/-!
# Closing sets of symbols

While a set is being closed, every rule that should still spread to its left-hand side has a symbol
that waits to be taken up.  When none is waiting the set is closed, and it has only what it must.
-/

namespace TracedGrammar

variable {H : Type}

theorem SymbolSet.mem_insert {set : SymbolSet} {added symbol : Symbol} :
    symbol ∈ set.insert added ↔ added = symbol ∨ symbol ∈ set := by
  simp [mem_iff]

theorem Rule.spreads_iff {rule : Rule H} {set : SymbolSet} :
    rule.spreads set = true ↔ ¬rule.lhs ∈ set ∧ ∀ symbol ∈ rule.rhs, symbol ∈ set := by
  simp [Rule.spreads, SymbolSet.mem_iff]

namespace RhsClosure

section Occurrences

variable {symbol : Symbol} {occurrences : List (Occurrence H)}

theorem takeWhile_eq_filter
    (sorted : occurrences.Pairwise fun first second => first.symbol.id ≤ second.symbol.id)
    (beyond : ∀ occurrence ∈ occurrences, symbol.id ≤ occurrence.symbol.id) :
    occurrences.takeWhile (fun occurrence => decide (occurrence.symbol = symbol)) =
      occurrences.filter fun occurrence => decide (occurrence.symbol = symbol) := by
  induction occurrences with
  | nil => rfl
  | cons first others induction =>
      obtain ⟨smallest, sortedOthers⟩ := List.pairwise_cons.mp sorted
      by_cases same : first.symbol = symbol
      · have rest := induction sortedOthers fun other member =>
          beyond other (List.mem_cons_of_mem _ member)
        simp [same, rest]
      · -- A larger symbol comes first, so there is no occurrence at all.
        have none : ∀ other ∈ others, ¬other.symbol = symbol := by
          rintro other member rfl
          have first_le := smallest other member
          have le_first := beyond first List.mem_cons_self
          exact same (congrArg Symbol.mk (Nat.le_antisymm first_le le_first))
        simpa [same] using none

/-- In a sorted list the occurrences of a symbol stand together, behind those of smaller symbols. -/
theorem takeWhile_dropWhile_eq_filter
    (sorted : occurrences.Pairwise fun first second => first.symbol.id ≤ second.symbol.id) :
    (occurrences.dropWhile fun occurrence => decide (occurrence.symbol.id < symbol.id)).takeWhile
        (fun occurrence => decide (occurrence.symbol = symbol)) =
      occurrences.filter fun occurrence => decide (occurrence.symbol = symbol) := by
  induction occurrences with
  | nil => rfl
  | cons first others induction =>
      obtain ⟨smallest, sortedOthers⟩ := List.pairwise_cons.mp sorted
      by_cases smaller : first.symbol.id < symbol.id
      · have different : ¬first.symbol = symbol := by
          rintro rfl
          exact Nat.lt_irrefl _ smaller
        simpa [smaller, different] using induction sortedOthers
      · have beyond : ∀ occurrence ∈ first :: others, symbol.id ≤ occurrence.symbol.id := by
          intro occurrence member
          rcases List.mem_cons.mp member with rfl | later
          · omega
          · have first_le := smallest occurrence later
            omega
        simpa [smaller] using takeWhile_eq_filter sorted beyond

theorem pairwise_occurrences_ofRules (rules : List (Rule H)) :
    (ofRules rules).occurrences.Pairwise fun first second =>
      first.symbol.id ≤ second.symbol.id := by
  refine (List.pairwise_mergeSort ?_ ?_ _).imp fun sorted => of_decide_eq_true sorted
  · intro first second third former latter
    exact decide_eq_true (Nat.le_trans (of_decide_eq_true former) (of_decide_eq_true latter))
  · intro first second
    simpa using Nat.le_total first.symbol.id second.symbol.id

theorem mem_rulesWith_ofRules {rules : List (Rule H)} {rule : Rule H} :
    rule ∈ (ofRules rules).rulesWith symbol ↔ rule ∈ rules ∧ symbol ∈ rule.rhs := by
  rw [rulesWith, takeWhile_dropWhile_eq_filter (pairwise_occurrences_ofRules rules)]
  constructor
  · intro member
    obtain ⟨occurrence, found, rfl⟩ := List.mem_map.mp member
    obtain ⟨sorted, same⟩ := List.mem_filter.mp found
    obtain ⟨origin, inRules, occurs⟩ := List.mem_flatMap.mp (List.mem_mergeSort.mp sorted)
    obtain ⟨other, inRhs, rfl⟩ := List.mem_map.mp occurs
    obtain rfl : other = symbol := of_decide_eq_true same
    exact ⟨inRules, inRhs⟩
  · rintro ⟨inRules, inRhs⟩
    have occurs : (⟨symbol, rule⟩ : Occurrence H) ∈ rules.flatMap Rule.occurrences :=
      List.mem_flatMap.mpr ⟨rule, inRules, List.mem_map.mpr ⟨symbol, inRhs, rfl⟩⟩
    refine List.mem_map.mpr ⟨⟨symbol, rule⟩, List.mem_filter.mpr ⟨?_, ?_⟩, rfl⟩
    · exact List.mem_mergeSort.mpr occurs
    · exact decide_eq_true rfl

end Occurrences

section Spreading

variable {rules : List (Rule H)} {set : SymbolSet} {symbol : Symbol}

/-- A rule that should spread has a symbol that waits, or is among those still to be gone through. -/
def Attends (rules : List (Rule H)) (state : SymbolSet × List Symbol)
    (ahead : List (Rule H)) : Prop :=
  ∀ rule ∈ rules, rule.rhs ≠ [] → (∀ symbol ∈ rule.rhs, symbol ∈ state.1) →
    rule.lhs ∈ state.1 ∨ (∃ symbol ∈ rule.rhs, symbol ∈ state.2) ∨ rule ∈ ahead

theorem mem_spread_of_mem {state : SymbolSet × List Symbol} {rule : Rule H}
    (member : symbol ∈ state.1) : symbol ∈ (spread state rule).1 := by
  unfold spread
  split
  · exact SymbolSet.mem_insert.mpr (.inr member)
  · exact member

theorem Attends.spread {state : SymbolSet × List Symbol} {rule : Rule H} {ahead : List (Rule H)}
    (attends : Attends rules state (rule :: ahead)) :
    Attends rules (RhsClosure.spread state rule) ahead := by
  intro other inRules nonempty inside
  cases due : rule.spreads state.1 with
  | true =>
      simp only [RhsClosure.spread, due, if_true, SymbolSet.mem_insert] at inside ⊢
      by_cases before : ∀ symbol ∈ other.rhs, symbol ∈ state.1
      · rcases attends other inRules nonempty before with old | ⟨symbol, occurs, waits⟩ | isAhead
        · exact .inl (.inr old)
        · exact .inr (.inl ⟨symbol, occurs, List.mem_cons_of_mem _ waits⟩)
        · rcases List.mem_cons.mp isAhead with rfl | later
          · exact .inl (.inl rfl)
          · exact .inr (.inr later)
      · -- The right-hand side is complete only now, so the new member is one of its symbols.
        simp only [Classical.not_forall] at before
        obtain ⟨symbol, occurs, new⟩ := before
        obtain rfl := (inside symbol occurs).resolve_right new
        exact .inr (.inl ⟨rule.lhs, occurs, List.mem_cons_self⟩)
  | false =>
      simp only [RhsClosure.spread, due, Bool.false_eq_true, if_false] at inside ⊢
      rcases attends other inRules nonempty inside with old | waits | isAhead
      · exact .inl old
      · exact .inr (.inl waits)
      · rcases List.mem_cons.mp isAhead with rfl | later
        · by_cases old : other.lhs ∈ state.1
          · exact .inl old
          · rw [Rule.spreads_iff.mpr ⟨old, inside⟩] at due
            cases due
        · exact .inr (.inr later)

theorem Attends.foldl_spread {ahead : List (Rule H)} {state : SymbolSet × List Symbol}
    (attends : Attends rules state ahead) : Attends rules (ahead.foldl RhsClosure.spread state) [] := by
  induction ahead generalizing state with
  | nil => exact attends
  | cons rule ahead induction => exact induction attends.spread

/-- When a symbol is taken up, all rules that it occurs in are gone through. -/
theorem Attends.takeUp {waiting : List Symbol} (closure : RhsClosure H)
    (knows : ∀ rule ∈ rules, symbol ∈ rule.rhs → rule ∈ closure.rulesWith symbol)
    (attends : Attends rules (set, symbol :: waiting) []) :
    Attends rules (closure.takeUp set symbol waiting) [] := by
  apply Attends.foldl_spread
  intro rule inRules nonempty inside
  rcases attends rule inRules nonempty inside with old | ⟨other, occurs, waits⟩ | impossible
  · exact .inl old
  · rcases List.mem_cons.mp waits with rfl | later
    · exact .inr (.inr (knows rule inRules occurs))
    · exact .inr (.inl ⟨other, occurs, later⟩)
  · cases impossible

theorem mem_takeUp_of_mem {closure : RhsClosure H} {waiting : List Symbol} {other : Symbol}
    (member : other ∈ set) : other ∈ (closure.takeUp set symbol waiting).1 := by
  apply List.foldlRecOn (motive := fun state : SymbolSet × List Symbol => other ∈ state.1)
  · exact member
  · intro state inState rule _
    exact mem_spread_of_mem inState

/-- Taking up a symbol adds only what has to be there. -/
theorem property_of_mem_takeUp {closure : RhsClosure H} {waiting : List Symbol}
    (property : Symbol → Prop)
    (spreads : ∀ rule ∈ closure.rulesWith symbol, (∀ symbol ∈ rule.rhs, property symbol) →
      property rule.lhs)
    (start : ∀ other ∈ set, property other) :
    ∀ other ∈ (closure.takeUp set symbol waiting).1, property other := by
  apply List.foldlRecOn
    (motive := fun state : SymbolSet × List Symbol => ∀ other ∈ state.1, property other)
  · exact start
  · intro state inState rule gone other member
    cases due : rule.spreads state.1 with
    | true =>
        simp only [spread, due, if_true, SymbolSet.mem_insert] at member
        rcases member with rfl | old
        · apply spreads rule gone
          intro symbol occurs
          exact inState symbol ((Rule.spreads_iff.mp due).2 symbol occurs)
        · exact inState other old
    | false =>
        simp only [spread, due, Bool.false_eq_true, if_false] at member
        exact inState other member

end Spreading

section Draining

variable {rules : List (Rule H)} {closure : RhsClosure H} {set : SymbolSet}

theorem drain_idle (closure : RhsClosure H) (set : SymbolSet) :
    (closure.drain set).2 = { closure with waiting := [] } := by
  fun_induction drain closure set with
  | case1 closure set none => rw [← none]
  | case2 closure set symbol waiting _ next induction => exact induction

theorem mem_drain_of_mem {symbol : Symbol} (member : symbol ∈ set) :
    symbol ∈ (closure.drain set).1 := by
  fun_induction drain closure set with
  | case1 => exact member
  | case2 closure set taken waiting _ next induction => exact induction (mem_takeUp_of_mem member)

theorem property_of_mem_drain (property : Symbol → Prop)
    (spreads : ∀ symbol, ∀ rule ∈ closure.rulesWith symbol,
      (∀ symbol ∈ rule.rhs, property symbol) → property rule.lhs)
    (start : ∀ symbol ∈ set, property symbol) :
    ∀ symbol ∈ (closure.drain set).1, property symbol := by
  fun_induction drain closure set with
  | case1 => exact start
  | case2 closure set taken waiting _ next induction =>
      exact induction spreads (property_of_mem_takeUp property (spreads taken) start)

/-- When all symbols have been taken up, no rule is left that should spread. -/
theorem lhs_mem_drain (knows : ∀ symbol, ∀ rule ∈ rules, symbol ∈ rule.rhs →
      rule ∈ closure.rulesWith symbol)
    (attends : Attends rules (set, closure.waiting) []) :
    ∀ rule ∈ rules, rule.rhs ≠ [] → (∀ symbol ∈ rule.rhs, symbol ∈ (closure.drain set).1) →
      rule.lhs ∈ (closure.drain set).1 := by
  fun_induction drain closure set with
  | case1 closure set none =>
      intro rule inRules nonempty inside
      rw [none] at attends
      rcases attends rule inRules nonempty inside with old | ⟨_, _, impossible⟩ | impossible
      · exact old
      · cases impossible
      · cases impossible
  | case2 closure set taken waiting found next induction =>
      rw [found] at attends
      exact induction knows (attends.takeUp closure (knows taken))

end Draining

section Closing

variable {closure : RhsClosure H}

/-- A closure that has been used is as it was before. -/
theorem close_idle (fresh : closure.waiting = []) (set : SymbolSet) :
    (closure.close set).2 = closure := by
  rw [close, drain_idle, ← fresh]

theorem closeEach_eq_map (fresh : closure.waiting = []) (sets : List SymbolSet) :
    closure.closeEach sets = sets.map fun set => (closure.close set).1 := by
  induction sets with
  | nil => rfl
  | cons set sets induction =>
      calc closure.closeEach (set :: sets)
        _ = (closure.close set).1 :: (closure.close set).2.closeEach sets := rfl
        _ = (closure.close set).1 :: closure.closeEach sets := by rw [close_idle fresh]
        _ = (set :: sets).map fun set => (closure.close set).1 := by rw [induction, List.map_cons]

end Closing

end RhsClosure

namespace SymbolSet

variable {set : SymbolSet} {rules : List (Rule H)} {symbol : Symbol}

theorem mem_close_of_mem (member : symbol ∈ set) : symbol ∈ set.close rules :=
  RhsClosure.mem_drain_of_mem member

theorem lhs_mem_close {rule : Rule H} (member : rule ∈ rules) (nonempty : rule.rhs ≠ [])
    (inside : ∀ symbol ∈ rule.rhs, symbol ∈ set.close rules) : rule.lhs ∈ set.close rules := by
  refine RhsClosure.lhs_mem_drain ?_ ?_ rule member nonempty inside
  · intro symbol other inRules occurs
    exact RhsClosure.mem_rulesWith_ofRules.mpr ⟨inRules, occurs⟩
  · -- In the beginning all members are waiting.
    intro other _ nonempty inSet
    obtain ⟨first, occurs⟩ := List.exists_mem_of_ne_nil _ nonempty
    refine .inr (.inl ⟨first, occurs, List.mem_append_left _ (List.mem_reverse.mpr ?_)⟩)
    exact mem_toList.mpr (inSet first occurs)

/-- The closure has no more than it must. -/
theorem close_subset (property : Symbol → Prop) (start : ∀ symbol ∈ set, property symbol)
    (spreads : ∀ rule ∈ rules, rule.rhs ≠ [] → (∀ symbol ∈ rule.rhs, property symbol) →
      property rule.lhs) (member : symbol ∈ set.close rules) : property symbol := by
  refine RhsClosure.property_of_mem_drain property ?_ start symbol member
  intro taken rule found
  obtain ⟨inRules, occurs⟩ := RhsClosure.mem_rulesWith_ofRules.mp found
  exact spreads rule inRules (List.ne_nil_of_mem occurs)

end SymbolSet

end TracedGrammar
