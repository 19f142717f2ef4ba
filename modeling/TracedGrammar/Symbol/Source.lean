import TracedGrammar.Symbol.Supply

/-!
# Symbols in 32 bits

A symbol is stored in 32 bits, and one number of 32 bits is no symbol.  A source counts its symbols in
the same way and must stop before it comes to that number.  One that does not stop gives its last
symbol once more and then starts over.  As long as there is room, a source is like a supply that has
no end.
-/

namespace TracedGrammar

namespace SymbolSupply

/-- How many symbols can be allocated when a counter of 32 bits must not come to its last number. -/
def capacity : Nat :=
  UInt32.size - 2

theorem capacity_add_two : capacity + 2 = UInt32.size :=
  rfl

/-- Allocates a symbol as long as there is room. -/
def draw? (supply : SymbolSupply) : Option (Symbol × SymbolSupply) :=
  if supply.allocated < capacity then some supply.fresh else none

/-- There is room for all symbols that are allocated on the way from one state of a supply to another. -/
def HasRoom (supply later : SymbolSupply) : Prop :=
  later.allocated ≤ max capacity supply.allocated

theorem HasRoom.refl (supply : SymbolSupply) : supply.HasRoom supply :=
  Nat.le_max_right _ _

/-- There is room for all symbols if there is for the first ones and then for the others. -/
theorem hasRoom_trans_iff {supply middle later : SymbolSupply}
    (first : supply.allocated ≤ middle.allocated) (second : middle.allocated ≤ later.allocated) :
    supply.HasRoom middle ∧ middle.HasRoom later ↔ supply.HasRoom later := by
  simp only [HasRoom]
  omega

end SymbolSupply

/-- A source of symbols that counts them in 32 bits. -/
structure SymbolSource where
  next : UInt32
deriving DecidableEq, Repr

namespace SymbolSource

/-- The number that is no symbol. -/
def null : UInt32 :=
  UInt32.ofNat (UInt32.size - 1)

/-- The supply that has allocated as many symbols. -/
def supply (source : SymbolSource) : SymbolSupply :=
  ⟨source.next.toNat⟩

/-- Gives a symbol and counts on, whatever comes next. -/
def advance (source : SymbolSource) : Symbol × SymbolSource :=
  (.ofNumber source.next.toNat, ⟨source.next + 1⟩)

/-- Gives a symbol unless its number, or the one that comes next, is no symbol. -/
def next? (source : SymbolSource) : Option (Symbol × SymbolSource) :=
  if source.next = null ∨ source.next + 1 = null then none else some source.advance

variable {source : SymbolSource}

theorem toNat_null : null.toNat = SymbolSupply.capacity + 1 :=
  rfl

theorem allocated_supply_lt (source : SymbolSource) : source.supply.allocated < UInt32.size :=
  source.next.toNat_lt_size

theorem next_eq_null_iff : source.next = null ↔ source.supply.allocated = SymbolSupply.capacity + 1 := by
  rw [← UInt32.toNat_inj, toNat_null]
  rfl

theorem toNat_next_add_one (other : source.next ≠ null) :
    (source.next + 1).toNat = source.supply.allocated + 1 := by
  have narrow := source.allocated_supply_lt
  rw [Ne, next_eq_null_iff] at other
  have below : source.supply.allocated + 1 < UInt32.size := by
    rw [← SymbolSupply.capacity_add_two] at narrow ⊢
    omega
  exact (UInt32.toNat_add _ _).trans (Nat.mod_eq_of_lt below)

/-- Before the last number a source does what a supply does. -/
theorem advance_eq_fresh (other : source.next ≠ null) :
    (source.advance.1, source.advance.2.supply) = source.supply.fresh := by
  have narrow := source.allocated_supply_lt
  have symbol : Symbol.ofNumber source.next.toNat = ⟨source.supply.allocated⟩ := by
    rw [Ne, next_eq_null_iff] at other
    rw [Symbol.ofNumber, Symbol.mk.injEq]
    change min (source.supply.allocated % UInt32.size) SymbolSupply.capacity = source.supply.allocated
    rw [Nat.mod_eq_of_lt narrow]
    rw [← SymbolSupply.capacity_add_two] at narrow
    omega
  rw [SymbolSupply.fresh, advance, supply, toNat_next_add_one other, symbol]

/-- A source that is stopped in time gives what a supply gives as long as there is room. -/
theorem map_next?_eq_draw? (source : SymbolSource) :
    source.next?.map (fun drawn => (drawn.1, drawn.2.supply)) = source.supply.draw? := by
  have narrow := source.allocated_supply_lt
  rw [← SymbolSupply.capacity_add_two] at narrow
  by_cases last : source.next = null
  · rw [next?, if_pos (.inl last), SymbolSupply.draw?, if_neg]
    · rfl
    · rw [next_eq_null_iff.mp last]
      omega
  · have room : source.next + 1 = null ↔ ¬source.supply.allocated < SymbolSupply.capacity := by
      rw [← UInt32.toNat_inj, toNat_next_add_one last, toNat_null]
      rw [next_eq_null_iff] at last
      omega
    by_cases fits : source.supply.allocated < SymbolSupply.capacity
    · rw [next?, if_neg (by simp [last, room, fits]), SymbolSupply.draw?, if_pos fits, Option.map_some,
        advance_eq_fresh last]
    · rw [next?, if_pos (.inr (room.mpr fits)), SymbolSupply.draw?, if_neg fits]
      rfl

/-- When it is not stopped, a source gives a symbol for the second time at the last number only. -/
theorem advance_mem_supply_iff : source.advance.1 ∈ source.supply ↔ source.next = null := by
  constructor
  · intro again
    refine Decidable.byContradiction fun other => ?_
    rw [congrArg Prod.fst (advance_eq_fresh other)] at again
    exact source.supply.fresh_not_mem again
  · intro last
    rw [SymbolSupply.mem_iff, next_eq_null_iff.mp last]
    simp only [advance, last]
    decide

/-- The last symbol is given twice, and the first one comes next. -/
example : (advance ⟨null - 1⟩).1 = (advance ⟨null⟩).1 ∧ (advance ⟨null⟩).2 = ⟨0⟩ := by decide

end SymbolSource

end TracedGrammar
