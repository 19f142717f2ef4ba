import Mathlib.Data.Set.Function
import TracedGrammar.Language.Forest

/-!
# Forests next to each other

Two rows of trees next to each other fit the words that they fit, next to each other, and are told
apart again by the number of trees.  When the nodes of some rules are taken out of a forest, the trees
below them come next to each other in their place.
-/

namespace TracedGrammar

namespace Forest

variable {H : Type} {rules : List (Rule H)}

def append : Forest → Forest → Forest
  | .nil, other => other
  | .leaf symbol rest, other => .leaf symbol (rest.append other)
  | .node index below rest, other => .node index below (rest.append other)

instance : Append Forest :=
  ⟨append⟩

@[simp]
theorem nil_append (other : Forest) : nil ++ other = other :=
  rfl

@[simp]
theorem leaf_append (symbol : Symbol) (rest other : Forest) :
    leaf symbol rest ++ other = leaf symbol (rest ++ other) :=
  rfl

@[simp]
theorem node_append (index : Nat) (below rest other : Forest) :
    node index below rest ++ other = node index below (rest ++ other) :=
  rfl

@[simp]
theorem append_nil (forest : Forest) : forest ++ nil = forest := by
  induction forest with
  | nil => rfl
  | leaf symbol rest induction => rw [leaf_append, induction]
  | node index below rest _ induction => rw [node_append, induction]

theorem append_assoc (first second third : Forest) :
    first ++ second ++ third = first ++ (second ++ third) := by
  induction first with
  | nil => rfl
  | leaf symbol rest induction => rw [leaf_append, leaf_append, leaf_append, induction]
  | node index below rest _ induction => rw [node_append, node_append, node_append, induction]

@[simp]
theorem leaves_append (first second : Forest) :
    (first ++ second).leaves = first.leaves ++ second.leaves := by
  induction first with
  | nil => rfl
  | leaf symbol rest induction => rw [leaf_append, leaves, leaves, induction, List.cons_append]
  | node index below rest _ induction =>
      rw [node_append, leaves, leaves, induction, List.append_assoc]

theorem Fits.append {first second : Forest} {left right : List Symbol}
    (former : Fits rules first left) (latter : Fits rules second right) :
    Fits rules (first ++ second) (left ++ right) := by
  induction former with
  | nil => exact latter
  | leaf symbol _ induction => exact .leaf symbol induction
  | node found under _ _ induction => exact .node found under induction

theorem Fits.exists_of_append {forest : Forest} {left right : List Symbol}
    (fits : Fits rules forest (left ++ right)) :
    ∃ first second, first ++ second = forest ∧ Fits rules first left ∧ Fits rules second right := by
  induction left generalizing forest with
  | nil => exact ⟨.nil, forest, rfl, .nil, fits⟩
  | cons symbol left induction =>
      cases fits with
      | leaf _ later =>
          obtain ⟨first, second, rfl, former, latter⟩ := induction later
          exact ⟨.leaf symbol first, second, rfl, .leaf symbol former, latter⟩
      | node found under later =>
          obtain ⟨first, second, rfl, former, latter⟩ := induction later
          exact ⟨.node _ _ first, second, rfl, .node found under former, latter⟩

/-- The number of trees. -/
def width : Forest → Nat
  | .nil => 0
  | .leaf _ rest => rest.width + 1
  | .node _ _ rest => rest.width + 1

theorem Fits.width_eq {forest : Forest} {word : List Symbol} (fits : Fits rules forest word) :
    forest.width = word.length := by
  induction fits with
  | nil => rfl
  | leaf _ _ induction => rw [width, induction, List.length_cons]
  | node _ _ _ _ induction => rw [width, induction, List.length_cons]

theorem append_inj {first second left right : Forest} (same : first ++ second = left ++ right)
    (wide : first.width = left.width) : first = left ∧ second = right := by
  induction first generalizing left with
  | nil =>
      cases left with
      | nil => exact ⟨rfl, same⟩
      | leaf => cases wide
      | node => cases wide
  | leaf symbol rest induction =>
      cases left with
      | nil => cases wide
      | leaf other others =>
          obtain ⟨rfl, later⟩ := leaf.inj same
          obtain ⟨rfl, rfl⟩ := induction later (Nat.succ.inj wide)
          exact ⟨rfl, rfl⟩
      | node => cases same
  | node index below rest _ induction =>
      cases left with
      | nil => cases wide
      | leaf => cases same
      | node other under others =>
          obtain ⟨rfl, rfl, later⟩ := node.inj same
          obtain ⟨rfl, rfl⟩ := induction later (Nat.succ.inj wide)
          exact ⟨rfl, rfl⟩

/-- Gives the nodes the indices in another list of rules.  A node whose rule is not in the other list
is taken out, and what is below it comes in its place. -/
def contract (origin : Nat → Option Nat) : Forest → Forest
  | .nil => .nil
  | .leaf symbol rest => .leaf symbol (rest.contract origin)
  | .node index below rest =>
      match origin index with
      | some original => .node original (below.contract origin) (rest.contract origin)
      | none => below.contract origin ++ rest.contract origin

section Contract

variable {origin : Nat → Option Nat} {index : Nat}

theorem contract_node_of_some {original : Nat} (kept : origin index = some original)
    (below rest : Forest) :
    (node index below rest).contract origin =
      node original (below.contract origin) (rest.contract origin) := by
  rw [contract, kept]

theorem contract_node_of_none (gone : origin index = none) (below rest : Forest) :
    (node index below rest).contract origin = below.contract origin ++ rest.contract origin := by
  rw [contract, gone]

/-- What is left of two nodes for the same rule is told apart by what is left below and after them. -/
theorem contract_node_inj {below rest otherBelow otherRest : Forest}
    (wide : (below.contract origin).width = (otherBelow.contract origin).width)
    (same : (node index below rest).contract origin =
      (node index otherBelow otherRest).contract origin) :
    below.contract origin = otherBelow.contract origin ∧
      rest.contract origin = otherRest.contract origin := by
  cases found : origin index with
  | none =>
      rw [contract_node_of_none found, contract_node_of_none found] at same
      exact append_inj same wide
  | some original =>
      rw [contract_node_of_some found, contract_node_of_some found] at same
      exact (node.inj same).2

@[simp]
theorem contract_append (first second : Forest) :
    (first ++ second).contract origin = first.contract origin ++ second.contract origin := by
  induction first with
  | nil => rfl
  | leaf symbol rest induction => rw [leaf_append, contract, contract, induction, leaf_append]
  | node index below rest _ induction =>
      cases found : origin index with
      | none =>
          rw [node_append, contract_node_of_none found, contract_node_of_none found, induction,
            append_assoc]
      | some original =>
          rw [node_append, contract_node_of_some found, contract_node_of_some found, induction,
            node_append]

@[simp]
theorem leaves_contract (forest : Forest) : (forest.contract origin).leaves = forest.leaves := by
  induction forest with
  | nil => rfl
  | leaf symbol rest induction => rw [contract, leaves, leaves, induction]
  | node index below rest belowInduction restInduction =>
      cases found : origin index with
      | none =>
          rw [contract_node_of_none found, leaves_append, leaves, belowInduction, restInduction]
      | some original =>
          rw [contract_node_of_some found, leaves, leaves, belowInduction, restInduction]

end Contract

end Forest

/-- The derivation trees of a word from a symbol. -/
def Grammar.trees {H : Type} (grammar : Grammar H) (symbol : Symbol) (word : List Symbol) :
    Set Forest :=
  {forest | forest.Fits grammar.rules [symbol] ∧ forest.leaves = word}

end TracedGrammar
