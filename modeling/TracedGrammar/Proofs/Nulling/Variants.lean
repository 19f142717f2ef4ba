import TracedGrammar.Proofs.Nulling.Thinning
import TracedGrammar.Proofs.Report.Success

/-!
# The variants of a rule

A table of variants that counts some choices has the right-hand sides that they leave.  So the
variants of a rule are the rules with its thinned right-hand sides.
-/

namespace TracedGrammar

namespace VariantTable

/-- Every right-hand side that has been counted has been found. -/
def Consistent (table : VariantTable) : Prop :=
  ∀ rhs count, table.alternatives[rhs]? = some count → ∃ elided, (rhs, elided) ∈ table.found

/-- Some choices have been counted, each with what it leaves and what it leaves out. -/
structure Counted (table next : VariantTable) (choices : List (List Symbol × PositionSet)) :
    Prop where
  consistent : next.Consistent
  keeps : ∀ entry ∈ table.found, entry ∈ next.found
  mem_choices : ∀ entry ∈ next.found, entry ∈ table.found ∨ entry ∈ choices
  covers : ∀ choice ∈ choices, ∃ elided, (choice.1, elided) ∈ next.found

theorem Counted.refl {table : VariantTable} (consistent : table.Consistent) :
    Counted table table [] where
  consistent := consistent
  keeps := fun _ member => member
  mem_choices := fun _ member => .inl member
  covers := by simp

theorem Counted.trans {table next last : VariantTable}
    {choices more : List (List Symbol × PositionSet)} (first : Counted table next choices)
    (second : Counted next last more) : Counted table last (choices ++ more) where
  consistent := second.consistent
  keeps := fun entry member => second.keeps entry (first.keeps entry member)
  mem_choices := by
    intro entry member
    rcases second.mem_choices entry member with earlier | later
    · exact (first.mem_choices entry earlier).imp_right (List.mem_append_left more)
    · exact .inr (List.mem_append_right choices later)
  covers := by
    intro choice member
    rcases List.mem_append.mp member with early | late
    · obtain ⟨elided, found⟩ := first.covers choice early
      exact ⟨elided, second.keeps _ found⟩
    · exact second.covers choice late

theorem add_counted {table next : VariantTable} {accept : Nat → Except GrammarError Unit}
    {rhs : List Symbol} {elided : PositionSet} (consistent : table.Consistent)
    (added : table.add accept rhs elided = .ok next) : Counted table next [(rhs, elided)] := by
  unfold add at added
  split at added
  · rename_i count known
    cases added
    have found := consistent rhs count known
    exact
      { consistent := by
          intro other otherCount counted
          rw [Std.HashMap.getElem?_insert] at counted
          split at counted
          · rename_i same
            exact beq_iff_eq.mp same ▸ found
          · exact consistent other otherCount counted
        keeps := fun _ member => member
        mem_choices := fun _ member => .inl member
        covers := by simpa using found }
  · rw [bind_eq_ok_iff] at added
    obtain ⟨_, _, same⟩ := added
    cases same
    exact
      { consistent := by
          intro other otherCount counted
          rw [Std.HashMap.getElem?_insert] at counted
          split at counted
          · rename_i same
            exact ⟨elided, by simp [beq_iff_eq.mp same]⟩
          · obtain ⟨earlier, found⟩ := consistent other otherCount counted
            exact ⟨earlier, Array.mem_push_of_mem _ found⟩
        keeps := fun _ member => Array.mem_push_of_mem _ member
        mem_choices := by
          intro entry member
          simpa using Array.mem_push.mp member
        covers := by
          intro choice member
          rw [List.mem_singleton.mp member]
          exact ⟨elided, Array.mem_push_self⟩ }

def chosen (rhs : List Symbol) (singletons : List PositionSet) (choice : Nat) :
    List Symbol × PositionSet :=
  ((chosenUnion singletons choice).removeFrom 0 rhs, chosenUnion singletons choice)

/-- The last choices have been counted, apart from those that leave nothing where that is not
allowed. -/
theorem collect_counted {accept : Nat → Except GrammarError Unit} {rhs : List Symbol}
    {keepsEmpty : Bool} {singletons : List PositionSet} {choices remaining : Nat}
    {table last : VariantTable} (few : remaining ≤ choices) (consistent : table.Consistent)
    (collected : collect accept rhs keepsEmpty singletons choices remaining table = .ok last) :
    Counted table last (((List.range' (choices - remaining) remaining).map
      (chosen rhs singletons)).filter fun choice => !(choice.1.isEmpty && !keepsEmpty)) := by
  induction remaining generalizing table with
  | zero =>
      cases collected
      exact .refl consistent
  | succ remaining induction =>
      have next : choices - (remaining + 1) + 1 = choices - remaining := by omega
      rw [collect] at collected
      rw [List.range'_succ, List.map_cons, List.filter_cons, next]
      split at collected
      · rename_i skipped
        rw [if_neg (by rw [Bool.not_eq_true, Bool.not_eq_false']; exact skipped)]
        exact induction (by omega) consistent collected
      · rename_i admitted
        rw [if_pos (by rw [Bool.not_eq_true']; exact Bool.eq_false_iff.mpr admitted)]
        split at collected
        · cases collected
        · rename_i next added
          have first := add_counted consistent added
          exact first.trans (induction (by omega) first.consistent collected)

theorem mem_ofPositions_iff {accept : Nat → Except GrammarError Unit} {rhs : List Symbol}
    {set : SymbolSet} {table : VariantTable}
    (low : ∀ position ∈ set.positionsFrom 0 rhs, position < PositionSet.capacity)
    (made : ofPositions accept rhs (set.positionsIn rhs) = .ok table) (rest : List Symbol) :
    (∃ elided, (rest, elided) ∈ table.found) ↔ Thinned set rhs rest := by
  have consistent : empty.Consistent := by
    intro other count counted
    simp [empty] at counted
  have counted := collect_counted (Nat.le_refl _) consistent made
  rw [Nat.sub_self, ← List.range_eq_range'] at counted
  constructor
  · rintro ⟨elided, found⟩
    rcases counted.mem_choices _ found with impossible | isChoice
    · simp [empty] at impossible
    · obtain ⟨choice, _, same⟩ := List.mem_map.mp (List.mem_filter.mp isChoice).1
      obtain rfl : chosenRest set 0 rhs choice = rest := congrArg Prod.fst same
      exact thinned_chosenRest choice
  · intro thinned
    obtain ⟨choice, small, rfl⟩ := exists_choice_of_thinned thinned low
    have admitted : (!((chosenRest set 0 rhs choice).isEmpty &&
        !(set.positionsIn rhs).length == rhs.length)) = true := by
      by_cases empty : chosenRest set 0 rhs choice = []
      · rw [empty] at thinned
        simp [SymbolSet.positionsIn_eq, length_positionsFrom_of_thinned_nil thinned]
      · rw [List.isEmpty_eq_false_iff.mpr empty]
        rfl
    obtain ⟨elided, found⟩ := counted.covers (chosen rhs _ choice) (List.mem_filter.mpr
      ⟨List.mem_map_of_mem (List.mem_range.mpr small), admitted⟩)
    exact ⟨elided, found⟩

end VariantTable

namespace Limits

theorem lt_capacity_of_checkPositions {limits : Limits} {set : SymbolSet} {rhs : List Symbol}
    (accepted : limits.checkPositions (set.positionsIn rhs) = .ok ()) :
    ∀ position ∈ set.positionsFrom 0 rhs, position < PositionSet.capacity := by
  intro position member
  unfold checkPositions at accepted
  split at accepted
  · cases accepted
  · split at accepted
    · rename_i none
      rw [SymbolSet.positionsIn_eq, List.getLast?_eq_none_iff] at none
      rw [none] at member
      cases member
    · rename_i last found
      split at accepted
      · cases accepted
      · have := SymbolSet.le_last_of_mem_positionsFrom found member
        omega

end Limits

namespace Rule

variable {H : Type} [RuleHistory H]

/-- The variants of a rule: itself when nothing may be left out of it, and otherwise the rules with
its thinned right-hand sides. -/
structure HasVariants (rule : Rule H) (nullable : SymbolSet) (variants : List (Rule H)) : Prop where
  kept : rule.admitsElision = false → variants = [rule]
  thinned : rule.admitsElision = true → ∀ other ∈ variants, ∃ rhs elision,
    Thinned nullable rule.rhs rhs ∧ rule.variant rhs elision = other
  complete : rule.admitsElision = true → ∀ rhs, Thinned nullable rule.rhs rhs →
    ∃ elision, rule.variant rhs elision ∈ variants

theorem hasVariants_of_variants {rule : Rule H} {nullable : SymbolSet} {limits : Limits}
    {produced : Nat} {variants : List (Rule H)}
    (succeeds : rule.variants nullable limits produced = .ok variants) :
    rule.HasVariants nullable variants := by
  unfold Rule.variants at succeeds
  split at succeeds
  · rename_i admits
    simp only [bind_eq_ok_iff] at succeeds
    obtain ⟨_, accepted, table, made, same⟩ := succeeds
    cases same
    have found := VariantTable.mem_ofPositions_iff
      (Limits.lt_capacity_of_checkPositions accepted) made
    exact
      { kept := fun refuses => absurd (admits.symm.trans refuses) (by simp)
        thinned := by
          intro _ other member
          simp only [VariantTable.elisions, List.mem_map] at member
          obtain ⟨_, ⟨⟨rest, elided⟩, inFound, rfl⟩, rfl⟩ := member
          exact ⟨rest, _, (found rest).mp ⟨elided, by simpa using inFound⟩, rfl⟩
        complete := by
          intro _ rhs thinned
          obtain ⟨elided, inFound⟩ := (found rhs).mpr thinned
          refine ⟨_, List.mem_map.mpr ⟨_, List.mem_map.mpr ⟨(rhs, elided), ?_, rfl⟩, rfl⟩⟩
          simpa using inFound }
  · rename_i refuses
    simp only [bind_eq_ok_iff] at succeeds
    obtain ⟨_, _, same⟩ := succeeds
    cases same
    exact
      { kept := fun _ => rfl
        thinned := fun admits => absurd admits refuses
        complete := fun admits => absurd admits refuses }

end Rule

end TracedGrammar
