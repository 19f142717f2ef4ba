import Mathlib.Data.Nat.BitIndices
import TracedGrammar.History.PositionSet

/-!
# Positions of a mask

A set of positions lists the ones of its mask, each once and in increasing order, and its size is their
number.  The positions that it lists below some length and those that it retains of that length are
together all positions below the length.  When positions are inserted, their order does not matter: the
set is the only one that lists them.
-/

namespace TracedGrammar

namespace PositionSet

variable {positions other : PositionSet} {position length : Nat}

/-- A position is in the set if the mask has a one where a shifted one has its own. -/
theorem contains_iff : positions.contains position = true ↔
    position < capacity ∧ positions.mask &&& 1#64 <<< position ≠ 0 := by
  rw [← BitVec.twoPow_eq, BitVec.and_twoPow]
  by_cases low : position < capacity
  · have one : BitVec.twoPow 64 position ≠ 0#64 := by
      intro zero
      have there := congrArg (BitVec.getLsbD · position) zero
      simp [show position < 64 from low] at there
    rw [contains, and_iff_right low]
    split
    · exact iff_of_true ‹_› one
    · exact iff_of_false ‹_› fun different => different rfl
  · have absent := contains_eq_false_of_le (Nat.not_lt.mp low) positions
    simp [absent, low]

theorem mem_toList : position ∈ positions.toList ↔ positions.contains position = true := by
  rw [toList, List.mem_filter, List.mem_range, and_iff_right_iff_imp]
  exact fun inside => (contains_iff.mp inside).1

theorem sortedLT_toList (positions : PositionSet) : positions.toList.SortedLT :=
  (List.pairwise_lt_range.filter _).sortedLT

theorem sortedLT_retained (positions : PositionSet) (length : Nat) :
    (positions.retained length).SortedLT :=
  (List.pairwise_lt_range.filter _).sortedLT

theorem toList_eq_bitIndices (positions : PositionSet) :
    positions.toList = positions.mask.toNat.bitIndices :=
  positions.sortedLT_toList.eq_of_mem_iff Nat.bitIndices_sorted fun position => by
    rw [mem_toList, Nat.mem_bitIndices]
    rfl

theorem cpopNatRec_zero_eq_length (mask : BitVec 64) (length : Nat) :
    mask.cpopNatRec length 0 = ((List.range length).filter mask.getLsbD).length := by
  induction length with
  | zero => rfl
  | succ length induction =>
      rw [BitVec.cpopNatRec_succ, BitVec.cpopNatRec_add, induction, List.range_succ,
        List.filter_append, List.length_append, List.filter_singleton]
      cases mask.getLsbD length <;> rfl

theorem size_eq_length_toList (positions : PositionSet) :
    positions.size = positions.toList.length := by
  rw [size, BitVec.toNat_cpop]
  exact cpopNatRec_zero_eq_length positions.mask capacity

theorem filter_toList_eq (positions : PositionSet) (length : Nat) :
    positions.toList.filter (· < length) = (List.range length).filter positions.contains := by
  apply List.SortedLT.eq_of_mem_iff
  · exact (positions.sortedLT_toList.pairwise.filter _).sortedLT
  · exact (List.pairwise_lt_range.filter _).sortedLT
  · intro position
    simp [mem_toList, and_comm]

/-- Sets that list the same positions are equal. -/
theorem eq_of_mem_toList_iff
    (same : ∀ position, position ∈ positions.toList ↔ position ∈ other.toList) :
    positions = other := by
  refine eq_of_contains_eq fun position => ?_
  rw [Bool.eq_iff_iff, ← mem_toList, ← mem_toList]
  exact same position

theorem mem_foldl_insert {added : List Nat} (low : ∀ position ∈ added, position < capacity) :
    position ∈ (added.foldl insert positions).toList ↔
      position ∈ positions.toList ∨ position ∈ added := by
  induction added generalizing positions with
  | nil => simp
  | cons first added induction =>
      obtain ⟨firstLow, low⟩ := List.forall_mem_cons.mp low
      rw [List.foldl_cons, induction low, List.mem_cons, ← or_assoc]
      apply or_congr_left
      rw [mem_toList, mem_toList, contains_insert, Bool.or_eq_true, decide_eq_true_eq]
      apply or_congr_right
      rw [and_iff_left_iff_imp]
      rintro rfl
      exact firstLow

theorem mem_toList_ofList {added : List Nat} (low : ∀ position ∈ added, position < capacity) :
    position ∈ (ofList added).toList ↔ position ∈ added := by
  rw [ofList, mem_foldl_insert low, mem_toList, contains_empty]
  simp

/-- A set lists the ones of its mask. -/
structure ListsOnes (positions : PositionSet) : Prop where
  mem_iff : ∀ position, position ∈ positions.toList ↔
    position < capacity ∧ positions.mask &&& 1#64 <<< position ≠ 0
  indices_eq : positions.toList = positions.mask.toNat.bitIndices
  increasing : positions.toList.Pairwise (· < ·)
  size_eq : positions.size = positions.toList.length

/-- A set divides the positions below a length into those that it lists and those that it retains. -/
structure Divides (positions : PositionSet) (length : Nat) : Prop where
  listed_increasing : (positions.toList.filter (· < length)).Pairwise (· < ·)
  retained_increasing : (positions.retained length).Pairwise (· < ·)
  perm : (positions.toList.filter (· < length) ++ positions.retained length).Perm (List.range length)

theorem listsOnes (positions : PositionSet) : positions.ListsOnes where
  mem_iff _ := mem_toList.trans contains_iff
  indices_eq := positions.toList_eq_bitIndices
  increasing := positions.sortedLT_toList.pairwise
  size_eq := positions.size_eq_length_toList

theorem divides (positions : PositionSet) (length : Nat) : positions.Divides length where
  listed_increasing := positions.sortedLT_toList.pairwise.filter _
  retained_increasing := (positions.sortedLT_retained length).pairwise
  perm := by
    rw [filter_toList_eq]
    exact List.filter_append_perm positions.contains (List.range length)

/-- Every set lists the ones of its mask and divides the positions below any length.  Inserting some
positions gives the one set that lists these. -/
theorem listsOnes_divides_eq_ofList_iff :
    (∀ positions : PositionSet, positions.ListsOnes ∧ ∀ length, positions.Divides length) ∧
    ∀ added : List Nat, (∀ position ∈ added, position < capacity) → ∀ positions,
      positions = ofList added ↔ ∀ position, position ∈ positions.toList ↔ position ∈ added := by
  refine ⟨fun positions => ⟨positions.listsOnes, positions.divides⟩, fun added low positions => ?_⟩
  constructor
  · rintro rfl position
    exact mem_toList_ofList low
  · intro lists
    apply eq_of_mem_toList_iff
    intro position
    rw [lists, mem_toList_ofList low]

/-- The last position that a mask has room for, the first, one in between, and the last again. -/
def outerPositions : List Nat :=
  [63, 0, 5, 63]

theorem outerPositions_eq_ofList_iff : (∀ position ∈ outerPositions, position < capacity) ∧
    ⟨9223372036854775841⟩ = ofList outerPositions ∧
    ∀ position, position ∈ (ofList outerPositions).toList ↔ position ∈ outerPositions := by
  have low : ∀ position ∈ outerPositions, position < capacity := by decide
  have unique := listsOnes_divides_eq_ofList_iff.2 outerPositions low
  have listed : (⟨9223372036854775841⟩ : PositionSet).toList = [0, 5, 63] := by decide
  refine ⟨low, (unique _).mpr fun position => ?_, (unique _).mp rfl⟩
  rw [listed]
  simp only [outerPositions, List.mem_cons, List.not_mem_nil, or_false]
  omega

end PositionSet

end TracedGrammar
