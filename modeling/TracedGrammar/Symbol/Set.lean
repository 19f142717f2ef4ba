import TracedGrammar.Symbol.Supply

/-!
# Sets of symbols

A set of symbols is a row of membership flags, one for each symbol up to some length.  Symbols
beyond the length are not members.  The length grows as members are added and never shrinks, and two
sets are equal when they have the same members and the same length.
-/

namespace TracedGrammar

structure SymbolSet where
  flags : Array Bool
deriving DecidableEq, Repr

namespace SymbolSet

def empty : SymbolSet :=
  ⟨#[]⟩

/-- The set whose length covers every allocated symbol, with all of them in or all of them out. -/
def filled (supply : SymbolSupply) (member : Bool) : SymbolSet :=
  ⟨Array.replicate supply.allocated member⟩

def length (set : SymbolSet) : Nat :=
  set.flags.size

def contains (set : SymbolSet) (symbol : Symbol) : Bool :=
  set.flags[symbol.id]?.getD false

instance : Membership Symbol SymbolSet :=
  ⟨fun set symbol => set.contains symbol = true⟩

theorem mem_iff {symbol : Symbol} {set : SymbolSet} :
    symbol ∈ set ↔ set.contains symbol = true :=
  Iff.rfl

instance (symbol : Symbol) (set : SymbolSet) : Decidable (symbol ∈ set) :=
  inferInstanceAs (Decidable (set.contains symbol = true))

/-- Indexing by a symbol tells whether it is a member, for symbols beyond the length too. -/
instance : GetElem SymbolSet Symbol Bool fun _ _ => True :=
  ⟨fun set symbol _ => if set.contains symbol then true else false⟩

def reserve (set : SymbolSet) (length : Nat) : SymbolSet :=
  if set.length < length then
    ⟨set.flags ++ Array.replicate (length - set.length) false⟩
  else
    set

/-- Adds a symbol, lengthening the set as needed. -/
def insert (set : SymbolSet) (symbol : Symbol) : SymbolSet :=
  ⟨(set.reserve (symbol.id + 1)).flags.setIfInBounds symbol.id true⟩

/-- Takes a symbol out.  The length stays. -/
def erase (set : SymbolSet) (symbol : Symbol) : SymbolSet :=
  ⟨set.flags.setIfInBounds symbol.id false⟩

def assign (set : SymbolSet) (symbol : Symbol) (member : Bool) : SymbolSet :=
  if member then set.insert symbol else set.erase symbol

def ofList (symbols : List Symbol) : SymbolSet :=
  symbols.foldl insert empty

def toList (set : SymbolSet) : List Symbol :=
  ((List.range set.length).map Symbol.mk).filter set.contains

def isEmpty (set : SymbolSet) : Bool :=
  !set.flags.contains true

@[simp]
theorem contains_empty (symbol : Symbol) : empty.contains symbol = false :=
  rfl

@[simp]
theorem getElem_eq_contains (set : SymbolSet) (symbol : Symbol) :
    set[symbol] = set.contains symbol := by
  change (if set.contains symbol then true else false) = _
  cases set.contains symbol <;> rfl

theorem mem_toList {symbol : Symbol} {set : SymbolSet} : symbol ∈ set.toList ↔ symbol ∈ set := by
  simp only [toList, List.mem_filter, List.mem_map, List.mem_range, mem_iff, and_iff_right_iff_imp]
  intro member
  refine ⟨symbol.id, Nat.lt_of_not_le fun beyond => ?_, rfl⟩
  rw [contains, Array.getElem?_eq_none beyond] at member
  cases member

theorem contains_filled (supply : SymbolSupply) (member : Bool) (symbol : Symbol) :
    (filled supply member).contains symbol = (decide (symbol ∈ supply) && member) := by
  by_cases inside : symbol.id < supply.allocated <;>
    simp [contains, filled, SymbolSupply.mem_iff, inside]

@[simp]
theorem contains_reserve (set : SymbolSet) (length : Nat) (symbol : Symbol) :
    (set.reserve length).contains symbol = set.contains symbol := by
  unfold reserve
  split
  · simp only [contains, Array.getElem?_append]
    split
    · rfl
    · rename_i beyond
      rw [Array.getElem?_eq_none (by omega : set.flags.size ≤ symbol.id),
        Array.getElem?_replicate]
      split <;> rfl
  · rfl

theorem length_reserve (set : SymbolSet) (length : Nat) :
    (set.reserve length).length = max set.length length := by
  unfold reserve
  split
  · simp only [SymbolSet.length, Array.size_append, Array.size_replicate] at *
    omega
  · omega

@[simp]
theorem contains_insert (set : SymbolSet) (added symbol : Symbol) :
    (set.insert added).contains symbol = (decide (added = symbol) || set.contains symbol) := by
  have long : added.id < (set.reserve (added.id + 1)).flags.size := by
    have := set.length_reserve (added.id + 1)
    simp only [SymbolSet.length] at this
    omega
  rw [← contains_reserve set (added.id + 1)]
  by_cases same : added = symbol
  · subst same
    simp [insert, contains, long]
  · have different : added.id ≠ symbol.id := fun equal =>
      same (by cases added; cases symbol; exact congrArg Symbol.mk equal)
    simp [insert, contains, different, same]

theorem length_insert (set : SymbolSet) (added : Symbol) :
    (set.insert added).length = max set.length (added.id + 1) := by
  have := set.length_reserve (added.id + 1)
  simpa [insert, SymbolSet.length] using this

@[simp]
theorem contains_erase (set : SymbolSet) (removed symbol : Symbol) :
    (set.erase removed).contains symbol = (decide (removed ≠ symbol) && set.contains symbol) := by
  by_cases same : removed = symbol
  · subst same
    by_cases inside : removed.id < set.flags.size <;> simp [erase, contains, inside]
  · have different : removed.id ≠ symbol.id := fun equal =>
      same (by cases removed; cases symbol; exact congrArg Symbol.mk equal)
    simp [erase, contains, different, same]

@[simp]
theorem length_erase (set : SymbolSet) (removed : Symbol) :
    (set.erase removed).length = set.length := by
  simp [erase, SymbolSet.length]

end SymbolSet

end TracedGrammar
