import Mathlib.Data.List.Nodup
import TracedGrammar.Proofs.Lists
import TracedGrammar.Symbol.Supply

/-!
# Allocations one after the other

When steps take symbols from a supply, each going on with what the one before has left, a symbol
that is allocated on the way belongs to one of the steps only.
-/

namespace TracedGrammar

namespace SymbolSupply

/-- The symbols that are allocated between two states of a supply, in the order of allocation. -/
def since (supply last : SymbolSupply) : List Symbol :=
  (supply.freshList (last.allocated - supply.allocated)).1

theorem mem_since_iff {symbol : Symbol} {supply last : SymbolSupply} :
    symbol ∈ supply.since last ↔ symbol ∉ supply ∧ symbol ∈ last := by
  obtain ⟨id⟩ := symbol
  simp only [since, freshList, List.mem_map, List.mem_range'_1, Symbol.mk.injEq, exists_eq_right,
    mem_iff]
  omega

theorem since_nodup (supply last : SymbolSupply) : (supply.since last).Nodup :=
  List.Nodup.map (fun _ _ same => congrArg Symbol.id same) List.nodup_range'

theorem since_self (supply : SymbolSupply) : supply.since supply = [] := by
  rw [since, Nat.sub_self]
  rfl

theorem since_append {supply middle last : SymbolSupply}
    (first : supply.allocated ≤ middle.allocated) (second : middle.allocated ≤ last.allocated) :
    supply.since middle ++ middle.since last = supply.since last := by
  have start : middle.allocated = supply.allocated + (middle.allocated - supply.allocated) := by omega
  have all : last.allocated - supply.allocated =
      (middle.allocated - supply.allocated) + (last.allocated - middle.allocated) := by omega
  rw [since, since, since, freshList, freshList, freshList, ← List.map_append, all,
    ← List.range'_append_1, ← start]

variable {α : Type} {before after : α → SymbolSupply}

/-- Steps that go on with the supply that the one before has left. -/
inductive Chained (before after : α → SymbolSupply) : SymbolSupply → List α → SymbolSupply → Prop
  | nil (supply : SymbolSupply) : Chained before after supply [] supply
  | cons (first : α) {rest : List α} {last : SymbolSupply}
      (later : Chained before after (after first) rest last) :
      Chained before after (before first) (first :: rest) last

namespace Chained

theorem eq_of_nil {supply last : SymbolSupply} (chained : Chained before after supply [] last) :
    supply = last := by
  cases chained
  rfl

theorem exists_step_of_allocated {supply last : SymbolSupply} {chain : List α}
    (chained : Chained before after supply chain last) {symbol : Symbol} (new : symbol ∉ supply)
    (known : symbol ∈ last) : ∃ step ∈ chain, symbol ∉ before step ∧ symbol ∈ after step := by
  induction chained with
  | nil => exact absurd known new
  | cons first _ induction =>
      by_cases early : symbol ∈ after first
      · exact ⟨first, List.mem_cons_self, new, early⟩
      · obtain ⟨step, later, own⟩ := induction early known
        exact ⟨step, List.mem_cons_of_mem _ later, own⟩

variable {supply last : SymbolSupply} {chain : List α}
  (grows : ∀ step, (before step).allocated ≤ (after step).allocated)
  (chained : Chained before after supply chain last)
include grows chained

theorem allocated_le : supply.allocated ≤ last.allocated := by
  induction chained with
  | nil => exact Nat.le_refl _
  | cons first _ induction => exact Nat.le_trans (grows first) induction

theorem le_before {step : α} (member : step ∈ chain) :
    supply.allocated ≤ (before step).allocated := by
  induction chained with
  | nil => cases member
  | cons first _ induction =>
      rcases List.mem_cons.mp member with rfl | later
      · exact Nat.le_refl _
      · exact Nat.le_trans (grows first) (induction later)

theorem after_le {step : α} (member : step ∈ chain) :
    (after step).allocated ≤ last.allocated := by
  induction chained with
  | nil => cases member
  | cons first rest induction =>
      rcases List.mem_cons.mp member with rfl | later
      · exact rest.allocated_le grows
      · exact induction later

theorem flatMap_since : (chain.flatMap fun step => (before step).since (after step)) =
    supply.since last := by
  induction chained with
  | nil supply => exact (since_self supply).symm
  | cons first later induction =>
      rw [List.flatMap_cons, induction, since_append (grows first) (later.allocated_le grows)]

theorem pairwise :
    chain.Pairwise fun first second => (after first).allocated ≤ (before second).allocated := by
  induction chained with
  | nil => exact .nil
  | cons first later induction => exact .cons (fun _ member => later.le_before grows member) induction

theorem index_eq_of_allocated {left right : Nat} {first second : α}
    (atLeft : chain[left]? = some first) (atRight : chain[right]? = some second) {symbol : Symbol}
    (newFirst : symbol ∉ before first) (hasFirst : symbol ∈ after first)
    (newSecond : symbol ∉ before second) (hasSecond : symbol ∈ after second) : left = right := by
  rw [mem_iff] at newFirst hasFirst newSecond hasSecond
  refine index_eq_of_pairwise (chained.pairwise grows) atLeft atRight ⟨?_, ?_⟩
  all_goals omega

theorem eq_of_allocated {first second : α} (inFirst : first ∈ chain) (inSecond : second ∈ chain)
    {symbol : Symbol} (newFirst : symbol ∉ before first) (hasFirst : symbol ∈ after first)
    (newSecond : symbol ∉ before second) (hasSecond : symbol ∈ after second) : first = second := by
  obtain ⟨left, atLeft⟩ := List.getElem?_of_mem inFirst
  obtain ⟨right, atRight⟩ := List.getElem?_of_mem inSecond
  obtain rfl := chained.index_eq_of_allocated grows atLeft atRight newFirst hasFirst newSecond
    hasSecond
  exact Option.some.inj (atLeft.symm.trans atRight)

end Chained

end SymbolSupply

end TracedGrammar
