import TracedGrammar.Proofs.Nulling.Pass

/-!
# What variants record

Every variant of a rule records the positions that are left out, and these are positions of nullable
symbols.  No two variants of a rule have the same right-hand side.
-/

namespace TracedGrammar

namespace PositionSet

/-- The items of a list whose positions, counted from `start`, are not in the set. -/
def keptItems {α : Type} (positions : PositionSet) (start : Nat) (items : List α) : List (α × Nat) :=
  (items.zipIdx start).filter fun item => !positions.contains item.2

variable {α : Type} (positions : PositionSet)

theorem removeFrom_eq (start : Nat) (items : List α) :
    positions.removeFrom start items = (positions.keptItems start items).map Prod.fst := by
  induction items generalizing start with
  | nil => rfl
  | cons item items induction =>
      rw [removeFrom, keptItems, List.zipIdx_cons, List.filter_cons, induction]
      cases positions.contains start <;> rfl

theorem retained_eq (items : List α) :
    positions.retained items.length = (positions.keptItems 0 items).map Prod.snd := by
  rw [retained, keptItems, List.range_eq_range', ← List.zipIdx_map_snd 0 items, List.filter_map]
  rfl

end PositionSet

theorem SymbolSet.mem_positionsFrom_zero_iff {set : SymbolSet} {rhs : List Symbol} {position : Nat} :
    position ∈ set.positionsFrom 0 rhs ↔ ∃ symbol ∈ set, rhs[position]? = some symbol := by
  simp only [positionsFrom, List.mem_map, List.mem_filter, Prod.exists,
    List.mem_zipIdx_iff_getElem?, exists_eq_right, mem_iff]
  exact exists_congr fun symbol => and_comm

namespace VariantTable

/-- Nothing has been found twice, since everything that has been found is counted. -/
structure IsDistinct (table : VariantTable) : Prop where
  nodup : (table.found.toList.map Prod.fst).Nodup
  counted : ∀ rhs ∈ table.found.toList.map Prod.fst, rhs ∈ table.alternatives

theorem IsDistinct.add {table next : VariantTable} (distinct : table.IsDistinct)
    {accept : Nat → Except GrammarError Unit} {rhs : List Symbol} {elided : PositionSet}
    (added : table.add accept rhs elided = .ok next) : next.IsDistinct := by
  unfold VariantTable.add at added
  split at added
  · cases added
    exact ⟨distinct.nodup, fun other found =>
      Std.HashMap.mem_insert.mpr (.inr (distinct.counted other found))⟩
  · rename_i unknown
    obtain ⟨_, _, same⟩ := bind_eq_ok_iff.mp added
    cases same
    have new : rhs ∉ table.found.toList.map Prod.fst := by
      intro found
      have known := distinct.counted rhs found
      rw [← Std.HashMap.isSome_getElem?_iff_mem, unknown] at known
      cases known
    have written : (table.found.push (rhs, elided)).toList.map Prod.fst =
        table.found.toList.map Prod.fst ++ [rhs] := by
      rw [Array.toList_push, List.map_append]
      rfl
    constructor
    · rw [written]
      exact List.nodup_append_comm.mp (List.nodup_cons.mpr ⟨new, distinct.nodup⟩)
    · rw [written]
      intro other found
      rw [Std.HashMap.mem_insert]
      rcases List.mem_append.mp found with earlier | here
      · exact .inr (distinct.counted other earlier)
      · exact .inl (beq_iff_eq.mpr (List.mem_singleton.mp here).symm)

theorem IsDistinct.collect {accept : Nat → Except GrammarError Unit} {rhs : List Symbol}
    {keepsEmpty : Bool} {singletons : List PositionSet} {choices remaining : Nat}
    {table last : VariantTable} (distinct : table.IsDistinct)
    (collected : collect accept rhs keepsEmpty singletons choices remaining table = .ok last) :
    last.IsDistinct := by
  induction remaining generalizing table with
  | zero =>
      cases collected
      exact distinct
  | succ remaining induction =>
      rw [VariantTable.collect] at collected
      split at collected
      · exact induction distinct collected
      · split at collected
        · cases collected
        · rename_i next added
          exact induction (distinct.add added) collected

variable {accept : Nat → Except GrammarError Unit} {rhs : List Symbol} {set : SymbolSet}
  {table : VariantTable} (made : ofPositions accept rhs (set.positionsIn rhs) = .ok table)
include made

theorem nodup_of_ofPositions : (table.found.toList.map Prod.fst).Nodup := by
  have start : empty.IsDistinct := ⟨List.nodup_nil, by simp [empty]⟩
  exact (start.collect made).nodup

/-- What has been found is what is left without the positions that are found with it. -/
theorem recorded_of_ofPositions {entry : List Symbol × PositionSet} (found : entry ∈ table.found) :
    entry.1 = entry.2.removeFrom 0 rhs ∧
      ∀ position, entry.2.contains position = true → position ∈ set.positionsFrom 0 rhs := by
  have consistent : empty.Consistent := by
    intro other count counted
    simp [empty] at counted
  have counted := collect_counted (Nat.le_refl _) consistent made
  rcases counted.mem_choices entry found with impossible | isChoice
  · simp [empty] at impossible
  · obtain ⟨choice, _, rfl⟩ := List.mem_map.mp (List.mem_filter.mp isChoice).1
    exact ⟨rfl, fun position taken => mem_of_contains_chosenUnion taken⟩

end VariantTable

namespace Rule

variable {H : Type} [RuleHistory H]

/-- The variants of a rule say which positions they leave out, and differ from each other. -/
structure HasRecords (rule : Rule H) (nullable : SymbolSet) (variants : List (Rule H)) : Prop where
  nodup : (variants.map Rule.rhs).Nodup
  recorded : ∀ other ∈ variants, ∃ elision : Elision,
    rule.variant (elision.elided.removeFrom 0 rule.rhs) elision = other ∧
      elision.lengthBefore = rule.rhs.length ∧
      ∀ position, elision.elided.contains position = true →
        ∃ symbol ∈ nullable, rule.rhs[position]? = some symbol

theorem hasRecords_of_madeFrom {rule : Rule H} (admits : rule.admitsElision = true)
    {nullable : SymbolSet} {limits : Limits} {variants : List (Rule H)}
    (made : Grammar.MadeFrom nullable limits rule variants) : rule.HasRecords nullable variants := by
  obtain ⟨produced, succeeds⟩ := made
  rw [Rule.variants, if_pos admits] at succeeds
  simp only [bind_eq_ok_iff] at succeeds
  obtain ⟨_, _, table, made, same⟩ := succeeds
  cases same
  constructor
  · have shapes : ((table.elisions rule.rhs.length).map fun entry =>
        rule.variant entry.1 entry.2).map Rule.rhs = table.found.toList.map Prod.fst := by
      rw [VariantTable.elisions, List.map_map, List.map_map]
      rfl
    rw [shapes]
    exact VariantTable.nodup_of_ofPositions made
  · intro other member
    simp only [VariantTable.elisions, List.mem_map] at member
    obtain ⟨_, ⟨⟨rest, elided⟩, inFound, rfl⟩, rfl⟩ := member
    obtain ⟨left, taken⟩ := VariantTable.recorded_of_ofPositions made (Array.mem_toList_iff.mp inFound)
    obtain rfl : rest = elided.removeFrom 0 rule.rhs := left
    refine ⟨⟨elided, rule.rhs.length, table.alternatives.getD (elided.removeFrom 0 rule.rhs) 0⟩, rfl,
      rfl, fun position contained => ?_⟩
    exact SymbolSet.mem_positionsFrom_zero_iff.mp (taken position contained)

end Rule

end TracedGrammar
