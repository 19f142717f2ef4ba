import TracedGrammar.Language.Derivation

/-!
# Derivation trees

A forest is a row of trees whose inner nodes are labelled with the rules that are applied there, by
their indices, and whose leaves are symbols.  A forest fits a word when its roots are the symbols of
the word and every node has below it what its rule asks for.  A word derives another by some rules
exactly when a forest that fits the first has the second at its leaves.
-/

namespace TracedGrammar

/-- A row of derivation trees. -/
inductive Forest
  | nil
  | leaf (symbol : Symbol) (rest : Forest)
  | node (index : Nat) (below rest : Forest)
deriving DecidableEq, Repr

namespace Forest

variable {H : Type}

/-- The symbols at the leaves, from left to right. -/
def leaves : Forest → List Symbol
  | .nil => []
  | .leaf symbol rest => symbol :: rest.leaves
  | .node _ below rest => below.leaves ++ rest.leaves

/-- The indices of the rules that are applied, each node before those below it. -/
def applied : Forest → List Nat
  | .nil => []
  | .leaf _ rest => rest.applied
  | .node index below rest => index :: (below.applied ++ rest.applied)

/-- The roots of a forest are the symbols of a word, and every rule is applied to its left-hand
side. -/
inductive Fits (rules : List (Rule H)) : Forest → List Symbol → Prop
  | nil : Fits rules .nil []
  | leaf (symbol : Symbol) {rest : Forest} {word : List Symbol} (later : Fits rules rest word) :
      Fits rules (.leaf symbol rest) (symbol :: word)
  | node {index : Nat} {rule : Rule H} {below rest : Forest} {word : List Symbol}
      (found : rules[index]? = some rule) (under : Fits rules below rule.rhs)
      (later : Fits rules rest word) : Fits rules (.node index below rest) (rule.lhs :: word)

section Decidable

variable {rules : List (Rule H)}

theorem fits_leaf_iff {symbol other : Symbol} {rest : Forest} {word : List Symbol} :
    Fits rules (.leaf symbol rest) (other :: word) ↔ symbol = other ∧ Fits rules rest word := by
  constructor
  · intro fits
    cases fits with
    | leaf _ later => exact ⟨rfl, later⟩
  · rintro ⟨rfl, later⟩
    exact .leaf symbol later

theorem fits_node_iff {index : Nat} {rule : Rule H} (found : rules[index]? = some rule)
    {symbol : Symbol} {below rest : Forest} {word : List Symbol} :
    Fits rules (.node index below rest) (symbol :: word) ↔
      rule.lhs = symbol ∧ Fits rules below rule.rhs ∧ Fits rules rest word := by
  constructor
  · intro fits
    cases fits with
    | node same under later =>
        obtain rfl := Option.some.inj (same.symm.trans found)
        exact ⟨rfl, under, later⟩
  · rintro ⟨rfl, under, later⟩
    exact .node found under later

instance decidableFits (rules : List (Rule H)) :
    (forest : Forest) → (word : List Symbol) → Decidable (Fits rules forest word)
  | .nil, [] => .isTrue .nil
  | .nil, _ :: _ => .isFalse nofun
  | .leaf _ _, [] => .isFalse nofun
  | .leaf _ rest, _ :: word =>
      have := decidableFits rules rest word
      decidable_of_iff' _ fits_leaf_iff
  | .node _ _ _, [] => .isFalse nofun
  | .node index below rest, symbol :: word =>
      match found : rules[index]? with
      | none => .isFalse fun fits => by
          cases fits with
          | node same => cases found.symm.trans same
      | some rule =>
          have := decidableFits rules below rule.rhs
          have := decidableFits rules rest word
          decidable_of_iff' _ (fits_node_iff found)

end Decidable

theorem Fits.derives {rules : List (Rule H)} {forest : Forest} {word : List Symbol}
    (fits : Fits rules forest word) : Derives (DirectBy rules) word forest.leaves := by
  induction fits with
  | nil => exact .nil
  | leaf symbol _ induction => exact .keep symbol induction
  | node found _ _ below later =>
      exact .expand (.rule (List.mem_of_getElem? found)) below later

theorem exists_fits_of_derives {rules : List (Rule H)} {word derived : List Symbol}
    (derives : Derives (DirectBy rules) word derived) :
    ∃ forest, Fits rules forest word ∧ forest.leaves = derived := by
  induction derives with
  | nil => exact ⟨.nil, .nil, rfl⟩
  | keep symbol _ induction =>
      obtain ⟨forest, fits, rfl⟩ := induction
      exact ⟨.leaf symbol forest, .leaf symbol fits, rfl⟩
  | expand step _ _ below later =>
      obtain ⟨member⟩ := step
      obtain ⟨index, found⟩ := List.getElem?_of_mem member
      obtain ⟨under, fitsUnder, rfl⟩ := below
      obtain ⟨rest, fitsRest, rfl⟩ := later
      exact ⟨.node index under rest, .node found fitsUnder fitsRest, rfl⟩

/-- Derivations and forests agree. -/
theorem exists_fits_iff_derives {rules : List (Rule H)} {word derived : List Symbol} :
    (∃ forest, Fits rules forest word ∧ forest.leaves = derived) ↔
      Derives (DirectBy rules) word derived := by
  constructor
  · rintro ⟨forest, fits, rfl⟩
    exact fits.derives
  · exact exists_fits_of_derives

end Forest

end TracedGrammar
