/-!
# Sets of positions

Positions on a right-hand side are counted from zero.  A set of positions is a mask of 64 bits, so
it holds positions below 64 only.
-/

namespace TracedGrammar

/-- A set of positions below 64. -/
structure PositionSet where
  mask : BitVec 64
deriving DecidableEq, Repr

namespace PositionSet

def capacity : Nat :=
  64

def empty : PositionSet :=
  ⟨0⟩

def contains (positions : PositionSet) (position : Nat) : Bool :=
  positions.mask.getLsbD position

instance : Membership Nat PositionSet :=
  ⟨fun positions position => positions.contains position = true⟩

instance (position : Nat) (positions : PositionSet) : Decidable (position ∈ positions) :=
  inferInstanceAs (Decidable (positions.contains position = true))

/-- Adds a position below 64. -/
def insert (positions : PositionSet) (position : Nat) : PositionSet :=
  ⟨positions.mask ||| BitVec.twoPow 64 position⟩

def ofList (positions : List Nat) : PositionSet :=
  positions.foldl insert empty

def union (first second : PositionSet) : PositionSet :=
  ⟨first.mask ||| second.mask⟩

def size (positions : PositionSet) : Nat :=
  positions.mask.cpop.toNat

def isEmpty (positions : PositionSet) : Bool :=
  positions.mask == 0

def toList (positions : PositionSet) : List Nat :=
  (List.range capacity).filter positions.contains

/-- The positions below `length` that are not in the set, in increasing order.  When the set is what
was taken out of a right-hand side of that length, the position at index `i` is the one that the
symbol at index `i` of the rest had. -/
def retained (positions : PositionSet) (length : Nat) : List Nat :=
  (List.range length).filter fun position => !positions.contains position

/-- What is left of a list, whose first element has the position `start`, when the elements at the
positions of the set are taken out. -/
def removeFrom {α : Type} (positions : PositionSet) : (start : Nat) → List α → List α
  | _, [] => []
  | start, item :: items =>
      if positions.contains start then
        positions.removeFrom (start + 1) items
      else
        item :: positions.removeFrom (start + 1) items

@[simp]
theorem contains_empty (position : Nat) : empty.contains position = false := by
  simp [empty, contains]

@[simp]
theorem contains_insert (positions : PositionSet) (added position : Nat) :
    (positions.insert added).contains position =
      (positions.contains position || decide (position = added ∧ position < 64)) := by
  simp only [insert, contains, BitVec.getLsbD_or, BitVec.getLsbD_twoPow]
  by_cases same : position = added <;> by_cases low : position < 64 <;> simp_all [eq_comm]

@[simp]
theorem contains_union (first second : PositionSet) (position : Nat) :
    (first.union second).contains position =
      (first.contains position || second.contains position) := by
  simp [union, contains]

theorem contains_eq_false_of_le {position : Nat} (high : 64 ≤ position)
    (positions : PositionSet) : positions.contains position = false :=
  BitVec.getLsbD_of_ge positions.mask position high

theorem eq_of_contains_eq {first second : PositionSet}
    (same : ∀ position, first.contains position = second.contains position) : first = second := by
  obtain ⟨mask⟩ := first
  obtain ⟨other⟩ := second
  congr 1
  exact BitVec.eq_of_getLsbD_eq fun position _ => same position

end PositionSet

end TracedGrammar
