import Mathlib
import TracedGrammar.Proofs.Nulling.Records

/-!
# Choices of what to leave out

A choice of some positions picks those that its bits stand for.  A larger choice picks a set with a
larger mask, and every set of the positions is picked by one choice.
-/

namespace TracedGrammar

/-- A right-hand side without the symbols at some positions. -/
def withoutPositions (removed : Finset Nat) (rhs : List Symbol) : List Symbol :=
  (rhs.zipIdx.filter fun item => item.2 ∉ removed).map Prod.fst

namespace PositionSet

/-- The positions in a set. -/
def positions (set : PositionSet) : Finset Nat :=
  (Finset.range capacity).filter fun position => set.contains position

variable {set first second : PositionSet} {position : Nat}

theorem mem_positions_iff : position ∈ set.positions ↔ set.contains position = true := by
  rw [positions, Finset.mem_filter, Finset.mem_range, and_iff_right_iff_imp]
  intro contained
  by_contra high
  rw [contains_eq_false_of_le (Nat.le_of_not_lt high)] at contained
  cases contained

@[simp]
theorem positions_empty : empty.positions = ∅ := by
  ext position
  simp [mem_positions_iff]

theorem positions_injective (same : first.positions = second.positions) : first = second := by
  refine eq_of_contains_eq fun position => ?_
  rw [Bool.eq_iff_iff]
  have alike := Finset.ext_iff.mp same position
  rwa [mem_positions_iff, mem_positions_iff] at alike

theorem removeFrom_zero_eq (rhs : List Symbol) :
    set.removeFrom 0 rhs = withoutPositions set.positions rhs := by
  rw [removeFrom_eq, keptItems, withoutPositions]
  congr 1
  refine List.filter_congr fun item _ => ?_
  simp [mem_positions_iff]

/-- What is left of a right-hand side is what it has at the positions that are retained. -/
theorem map_retained (rhs : List Symbol) :
    (set.retained rhs.length).map (fun position => rhs[position]?) =
      (withoutPositions set.positions rhs).map some := by
  rw [retained_eq, ← removeFrom_zero_eq, removeFrom_eq, List.map_map, List.map_map]
  refine List.map_congr_left fun item member => ?_
  exact List.mem_zipIdx_iff_getElem?.mp (List.mem_filter.mp member).1

theorem testBit_mask (position : Nat) : set.mask.toNat.testBit position = set.contains position :=
  rfl

/-- A set has a smaller mask than another one with more positions. -/
theorem toNat_mask_le_of_subset (fewer : first.positions ⊆ second.positions) :
    first.mask.toNat ≤ second.mask.toNat := by
  have both : first.mask.toNat &&& second.mask.toNat = first.mask.toNat := by
    refine Nat.eq_of_testBit_eq fun position => ?_
    rw [Nat.testBit_and, testBit_mask, testBit_mask, Bool.and_eq_left_iff_imp]
    intro contained
    exact mem_positions_iff.mp (fewer (mem_positions_iff.mpr contained))
  rw [← both]
  exact Nat.and_le_right

theorem dvd_toNat_mask {start : Nat} (absent : ∀ position < start, set.contains position = false) :
    2 ^ start ∣ set.mask.toNat := by
  refine Nat.dvd_of_mod_eq_zero (Nat.eq_of_testBit_eq fun position => ?_)
  rw [Nat.testBit_mod_two_pow, testBit_mask, Nat.zero_testBit, Bool.and_eq_false_imp, decide_eq_true_eq]
  exact absent position

end PositionSet

section Masks

variable {positions : List Nat} {first choice other : Nat}

theorem dvd_mask_chosenUnion {start : Nat} (above : ∀ position ∈ positions, start ≤ position)
    (choice : Nat) :
    2 ^ start ∣ (chosenUnion (positions.map PositionSet.empty.insert) choice).mask.toNat := by
  refine PositionSet.dvd_toNat_mask fun position low => ?_
  rw [Bool.eq_false_iff]
  intro chosen
  have := above position (mem_of_contains_chosenUnion chosen)
  omega

/-- The lowest bit of a choice counts for the first position. -/
theorem mask_chosenUnion_cons (low : first < PositionSet.capacity)
    (above : ∀ position ∈ positions, first < position) (choice : Nat) :
    (chosenUnion ((first :: positions).map PositionSet.empty.insert) choice).mask.toNat =
      choice % 2 * 2 ^ first +
        (chosenUnion (positions.map PositionSet.empty.insert) (choice / 2)).mask.toNat := by
  rw [List.map_cons, chosenUnion]
  split
  · rename_i odd
    obtain ⟨factor, later⟩ := dvd_mask_chosenUnion above (choice / 2)
    have single : (PositionSet.empty.insert first).mask.toNat = 2 ^ first := by
      simp only [PositionSet.insert, PositionSet.empty, BitVec.ofNat_eq_ofNat, BitVec.zero_or]
      exact BitVec.toNat_twoPow_of_lt low
    have small : 2 ^ first < 2 ^ (first + 1) := Nat.pow_lt_pow_right Nat.one_lt_two (Nat.lt_succ_self _)
    rw [PositionSet.union, BitVec.toNat_or, single, later, odd, Nat.one_mul, Nat.or_comm,
      ← Nat.two_pow_add_eq_or_of_lt small, Nat.add_comm]
  · rename_i even
    rw [show choice % 2 = 0 by omega, Nat.zero_mul, Nat.zero_add]

/-- A larger choice picks a set with a larger mask. -/
theorem mask_chosenUnion_lt (increasing : positions.Pairwise (· < ·))
    (low : ∀ position ∈ positions, position < PositionSet.capacity) (less : choice < other)
    (small : other < 2 ^ positions.length) :
    (chosenUnion (positions.map PositionSet.empty.insert) choice).mask.toNat <
      (chosenUnion (positions.map PositionSet.empty.insert) other).mask.toNat := by
  induction positions generalizing choice other with
  | nil =>
      rw [List.length_nil, Nat.pow_zero] at small
      omega
  | cons first positions induction =>
      rw [List.pairwise_cons] at increasing
      rw [List.forall_mem_cons] at low
      rw [List.length_cons, Nat.pow_succ] at small
      rw [mask_chosenUnion_cons low.1 increasing.1, mask_chosenUnion_cons low.1 increasing.1]
      have positive : 0 < 2 ^ first := Nat.two_pow_pos first
      rcases Nat.lt_or_ge (choice / 2) (other / 2) with higher | same
      · have later := induction increasing.2 low.2 higher (by omega)
        obtain ⟨factor, left⟩ := dvd_mask_chosenUnion increasing.1 (choice / 2)
        obtain ⟨more, right⟩ := dvd_mask_chosenUnion increasing.1 (other / 2)
        -- Both are multiples of a power of two that is larger than what the lowest bit counts for.
        have apart : 2 ^ (first + 1) * (factor + 1) ≤ 2 ^ (first + 1) * more := by
          rw [left, right] at later
          exact Nat.mul_le_mul_left _ (Nat.lt_of_mul_lt_mul_left later)
        have bit : choice % 2 * 2 ^ first ≤ 1 * 2 ^ first := Nat.mul_le_mul_right _ (by omega)
        rw [left, right]
        rw [Nat.mul_succ, Nat.pow_succ] at apart
        rw [Nat.pow_succ]
        omega
      · have equal : choice / 2 = other / 2 := by omega
        rw [equal, show choice % 2 = 0 by omega, show other % 2 = 1 by omega]
        omega

theorem injOn_positions_chosenUnion (increasing : positions.Pairwise (· < ·))
    (low : ∀ position ∈ positions, position < PositionSet.capacity) :
    Set.InjOn (fun choice => (chosenUnion (positions.map PositionSet.empty.insert) choice).positions)
      (Finset.range (2 ^ positions.length)) := by
  have strict : StrictMonoOn (fun choice =>
      (chosenUnion (positions.map PositionSet.empty.insert) choice).mask.toNat)
      (Finset.range (2 ^ positions.length)) :=
    fun _ _ _ inside less => mask_chosenUnion_lt increasing low less (Finset.mem_range.mp inside)
  intro choice small other alsoSmall same
  exact strict.injOn small alsoSmall
    (congrArg (fun set => set.mask.toNat) (PositionSet.positions_injective same))

/-- The sets that are picked are all sets of the positions. -/
theorem image_positions_chosenUnion (increasing : positions.Pairwise (· < ·))
    (low : ∀ position ∈ positions, position < PositionSet.capacity) :
    (Finset.range (2 ^ positions.length)).image (fun choice =>
        (chosenUnion (positions.map PositionSet.empty.insert) choice).positions) =
      positions.toFinset.powerset := by
  refine Finset.eq_of_subset_of_card_le ?inside ?many
  case inside =>
    intro picked member
    obtain ⟨choice, _, rfl⟩ := Finset.mem_image.mp member
    refine Finset.mem_powerset.mpr fun position inSet => ?_
    exact List.mem_toFinset.mpr (mem_of_contains_chosenUnion (PositionSet.mem_positions_iff.mp inSet))
  case many =>
    rw [Finset.card_powerset, List.toFinset_card_of_nodup (increasing.imp Nat.ne_of_lt),
      Finset.card_image_of_injOn (injOn_positions_chosenUnion increasing low), Finset.card_range]

end Masks

/-- The positions of nullable symbols on a right-hand side. -/
def nullablePositions (nullable : SymbolSet) (rhs : List Symbol) : Finset Nat :=
  (Finset.range rhs.length).filter fun position => rhs[position]?.any nullable.contains

section Positions

variable {nullable : SymbolSet} {rhs : List Symbol} {position : Nat}

theorem mem_nullablePositions_iff : position ∈ nullablePositions nullable rhs ↔
    ∃ symbol ∈ nullable, rhs[position]? = some symbol := by
  rw [nullablePositions, Finset.mem_filter, Finset.mem_range, Option.any_eq_true]
  constructor
  · rintro ⟨_, symbol, here, contained⟩
    exact ⟨symbol, SymbolSet.mem_iff.mpr contained, here⟩
  · rintro ⟨symbol, member, here⟩
    exact ⟨(List.getElem?_eq_some_iff.mp here).1, symbol, here, SymbolSet.mem_iff.mp member⟩

theorem mem_positionsIn_iff :
    position ∈ nullable.positionsIn rhs ↔ position ∈ nullablePositions nullable rhs := by
  rw [mem_nullablePositions_iff, SymbolSet.positionsIn_eq, SymbolSet.mem_positionsFrom_zero_iff]

theorem toFinset_positionsIn : (nullable.positionsIn rhs).toFinset = nullablePositions nullable rhs := by
  ext position
  rw [List.mem_toFinset, mem_positionsIn_iff]

theorem pairwise_positionsIn : (nullable.positionsIn rhs).Pairwise (· < ·) :=
  List.Pairwise.sublist (SymbolSet.positionsFrom_sublist 0 rhs) List.pairwise_lt_range'

theorem length_positionsIn :
    (nullable.positionsIn rhs).length = (nullablePositions nullable rhs).card := by
  rw [← toFinset_positionsIn, List.toFinset_card_of_nodup (pairwise_positionsIn.imp Nat.ne_of_lt)]

end Positions

section Rests

variable {nullable : SymbolSet} {rhs : List Symbol} {removed other : Finset Nat} {position : Nat}

@[simp]
theorem withoutPositions_empty (rhs : List Symbol) : withoutPositions ∅ rhs = rhs := by
  simp [withoutPositions]

theorem withoutPositions_congr (agree : ∀ position < rhs.length, position ∈ removed ↔ position ∈ other) :
    withoutPositions removed rhs = withoutPositions other rhs := by
  unfold withoutPositions
  congr 1
  refine List.filter_congr fun item member => ?_
  have inside : item.2 < rhs.length := (List.getElem?_eq_some_iff.mp
    (List.mem_zipIdx_iff_getElem?.mp member)).1
  exact decide_eq_decide.mpr (not_congr (agree item.2 inside))

theorem withoutPositions_ne_self (member : position ∈ removed) (inside : position < rhs.length) :
    withoutPositions removed rhs ≠ rhs := by
  intro same
  have lengths := congrArg List.length same
  rw [withoutPositions, List.length_map] at lengths
  have all := List.length_filter_eq_length_iff.mp (lengths.trans List.length_zipIdx.symm)
  have here : (rhs[position], position) ∈ rhs.zipIdx :=
    List.mem_zipIdx_iff_getElem?.mpr (List.getElem?_eq_getElem inside)
  exact absurd member (of_decide_eq_true (all _ here))

theorem withoutPositions_eq_nil_iff :
    withoutPositions removed rhs = [] ↔ ∀ position < rhs.length, position ∈ removed := by
  rw [withoutPositions, List.map_eq_nil_iff, List.filter_eq_nil_iff]
  constructor
  · intro taken position inside
    have here : (rhs[position], position) ∈ rhs.zipIdx :=
      List.mem_zipIdx_iff_getElem?.mpr (List.getElem?_eq_getElem inside)
    simpa using taken _ here
  · intro taken item member
    have here := List.mem_zipIdx_iff_getElem?.mp member
    simpa using taken item.2 (List.getElem?_eq_some_iff.mp here).1

theorem filter_withoutPositions (test : Symbol → Bool) : (withoutPositions removed rhs).filter test =
    ((rhs.zipIdx.filter fun item => test item.1).filter fun item => item.2 ∉ removed).map Prod.fst := by
  rw [withoutPositions, List.filter_map, List.filter_comm]
  rfl

/-- What is left without some nullable symbols still has all others. -/
theorem mem_nullablePositions_of_withoutPositions_eq (only : removed ⊆ nullablePositions nullable rhs)
    (same : withoutPositions other rhs = withoutPositions removed rhs) (member : position ∈ other)
    (inside : position < rhs.length) : position ∈ nullablePositions nullable rhs := by
  have kept (item : Symbol × Nat)
      (fixed : item ∈ rhs.zipIdx.filter fun item => !nullable.contains item.1) : item.2 ∉ removed := by
    intro taken
    obtain ⟨symbol, isNullable, here⟩ := mem_nullablePositions_iff.mp (only taken)
    obtain ⟨there, notNullable⟩ := List.mem_filter.mp fixed
    obtain rfl := Option.some_inj.mp ((List.mem_zipIdx_iff_getElem?.mp there).symm.trans here)
    rw [SymbolSet.mem_iff.mp isNullable] at notNullable
    cases notNullable
  have letters := congrArg
    (fun rest => (rest.filter fun symbol => !nullable.contains symbol).length) same
  simp only [filter_withoutPositions, List.length_map] at letters
  rw [List.filter_eq_self.mpr fun item fixed => decide_eq_true (kept item fixed),
    List.length_filter_eq_length_iff] at letters
  by_contra fixed
  have here := List.getElem?_eq_getElem inside
  have notNullable : (!nullable.contains rhs[position]) = true := by
    rw [Bool.not_eq_true', ← Bool.not_eq_true, ← SymbolSet.mem_iff]
    exact fun isNullable => fixed (mem_nullablePositions_iff.mpr ⟨_, isNullable, here⟩)
  have stays := letters (rhs[position], position)
    (List.mem_filter.mpr ⟨List.mem_zipIdx_iff_getElem?.mpr here, notNullable⟩)
  exact of_decide_eq_true stays member

end Rests

/-- The sets of nullable positions without which a word is left. -/
def waysToLeave (nullable : SymbolSet) (rhs word : List Symbol) : Finset (Finset Nat) :=
  (nullablePositions nullable rhs).powerset.filter fun removed => withoutPositions removed rhs = word

/-- What a choice of nullable positions leaves, and what it leaves out. -/
def leaving (nullable : SymbolSet) (rhs : List Symbol) (choice : Nat) : List Symbol × PositionSet :=
  VariantTable.chosen rhs ((nullable.positionsIn rhs).map PositionSet.empty.insert) choice

section Leaving

variable {nullable : SymbolSet} {rhs : List Symbol} {choice other : Nat}

theorem fst_leaving (choice : Nat) : (leaving nullable rhs choice).1 =
    withoutPositions (leaving nullable rhs choice).2.positions rhs :=
  PositionSet.removeFrom_zero_eq rhs

/-- For no right-hand side with a nullable symbol all choices leave the same. -/
theorem card_waysToLeave_lt (some : (nullablePositions nullable rhs).Nonempty) (word : List Symbol) :
    (waysToLeave nullable rhs word).card < 2 ^ (nullablePositions nullable rhs).card := by
  rw [← Finset.card_powerset]
  refine Finset.card_lt_card (Finset.filter_ssubset.mpr ?_)
  obtain ⟨position, member⟩ := some
  have inside : position < rhs.length := by
    obtain ⟨_, _, here⟩ := mem_nullablePositions_iff.mp member
    exact (List.getElem?_eq_some_iff.mp here).1
  by_cases whole : rhs = word
  · refine ⟨_, Finset.mem_powerset_self _, fun same => ?_⟩
    exact withoutPositions_ne_self member inside (same.trans whole.symm)
  · exact ⟨∅, Finset.empty_mem_powerset _, by rwa [withoutPositions_empty]⟩

/-- Numbers of 32 bits count the ways to leave something out at up to 32 positions. -/
theorem card_waysToLeave_lt_size (few : (nullablePositions nullable rhs).card ≤ 32)
    (word : List Symbol) : (waysToLeave nullable rhs word).card < UInt32.size := by
  rcases (nullablePositions nullable rhs).eq_empty_or_nonempty with none | some
  · have all := Finset.card_filter_le (nullablePositions nullable rhs).powerset
      fun removed => withoutPositions removed rhs = word
    rw [none, Finset.powerset_empty, Finset.card_singleton] at all
    rw [waysToLeave, none, Finset.powerset_empty]
    exact Nat.lt_of_le_of_lt all (by decide)
  · refine Nat.lt_of_lt_of_le (card_waysToLeave_lt some word) ?_
    exact Nat.pow_le_pow_right Nat.two_pos few

variable (low : ∀ position ∈ nullablePositions nullable rhs, position < PositionSet.capacity)
include low

theorem mask_leaving_lt (less : choice < other)
    (small : other < 2 ^ (nullablePositions nullable rhs).card) :
    (leaving nullable rhs choice).2.mask.toNat < (leaving nullable rhs other).2.mask.toNat := by
  rw [← length_positionsIn] at small
  exact mask_chosenUnion_lt pairwise_positionsIn
    (fun position member => low position (mem_positionsIn_iff.mp member)) less small

theorem image_leaving : (Finset.range (2 ^ (nullablePositions nullable rhs).card)).image (fun choice =>
    (leaving nullable rhs choice).2.positions) = (nullablePositions nullable rhs).powerset := by
  rw [← toFinset_positionsIn, List.toFinset_card_of_nodup (pairwise_positionsIn.imp Nat.ne_of_lt)]
  exact image_positions_chosenUnion pairwise_positionsIn
    fun position member => low position (mem_positionsIn_iff.mp member)

theorem exists_leaving {removed : Finset Nat} (removable : removed ⊆ nullablePositions nullable rhs) :
    ∃ choice < 2 ^ (nullablePositions nullable rhs).card,
      (leaving nullable rhs choice).2.positions = removed := by
  rw [← Finset.mem_powerset, ← image_leaving low] at removable
  obtain ⟨choice, small, same⟩ := Finset.mem_image.mp removable
  exact ⟨choice, Finset.mem_range.mp small, same⟩

/-- As many choices leave a word as there are sets of positions to leave out for it. -/
theorem count_leaving (word : List Symbol) :
    (((List.range (2 ^ (nullablePositions nullable rhs).card)).map (leaving nullable rhs)).map
      Prod.fst).count word = (waysToLeave nullable rhs word).card := by
  rw [waysToLeave, ← image_leaving low, Finset.filter_image, Finset.card_image_of_injOn]
  · rw [List.map_map, List.count_eq_countP, List.countP_map, List.countP_eq_length_filter]
    simp only [← fst_leaving]
    refine congrArg List.length (List.filter_congr fun choice _ => ?_)
    exact beq_eq_decide _ _
  · rw [← length_positionsIn]
    refine Set.InjOn.mono (Finset.filter_subset _ _) ?_
    exact injOn_positions_chosenUnion pairwise_positionsIn
      fun position member => low position (mem_positionsIn_iff.mp member)

end Leaving

end TracedGrammar
