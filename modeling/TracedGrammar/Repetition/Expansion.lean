import TracedGrammar.Repetition.Alternatives
import TracedGrammar.Symbol.Supply

/-!
# Writing a repetition with plain productions

The alternatives of a repetition mention smaller repetitions.  Each of these gets one fresh symbol,
however often it is mentioned, and its own alternatives are written later, the symbol allocated last
first.  The weight of the repetitions that are still to be written falls with every one of them.
-/

namespace TracedGrammar

structure Production where
  lhs : Symbol
  rhs : List Symbol
  top : Bool
  recursive : Bool
deriving DecidableEq, Repr

/-- The state of an expansion. -/
structure Expander where
  supply : SymbolSupply
  /-- The symbols allocated for repetitions, the latest first. -/
  helpers : List (Repetition × Symbol)
  /-- The symbols whose alternatives are still to be written, the latest first. -/
  pending : List (Symbol × Repetition)
deriving Repr

namespace Expander

def start (supply : SymbolSupply) : Expander :=
  ⟨supply, [], []⟩

/-- The symbol for a repetition, allocated when there is none yet. -/
def helper (state : Expander) (repetition : Repetition) : Symbol × Expander :=
  match state.helpers.lookup repetition with
  | some symbol => (symbol, state)
  | none =>
      let (symbol, supply) := state.supply.fresh
      (symbol,
        { supply
          helpers := (repetition, symbol) :: state.helpers
          pending := (symbol, repetition) :: state.pending })

def resolve (lhs : Symbol) (state : Expander) : Part → Symbol × Expander
  | .symbol symbol => (symbol, state)
  | .self => (lhs, state)
  | .nested repetition => state.helper repetition

def resolveRow (lhs : Symbol) (state : Expander) : List Part → List Symbol × Expander
  | [] => ([], state)
  | part :: row =>
      let (symbol, next) := state.resolve lhs part
      let (symbols, last) := next.resolveRow lhs row
      (symbol :: symbols, last)

def write (lhs : Symbol) (top : Bool) (state : Expander) :
    List (List Part) → List Production × Expander
  | [] => ([], state)
  | row :: rows =>
      let (rhs, next) := state.resolveRow lhs row
      let (productions, last) := next.write lhs top rows
      ({ lhs, rhs, top, recursive := row.head? == some .self } :: productions, last)

/-- The weight of what is still to be written. -/
def weight (state : Expander) : Nat :=
  Repetition.totalWeight (state.pending.map Prod.snd)

theorem weight_helper_le (state : Expander) (repetition : Repetition) :
    (state.helper repetition).2.weight ≤ state.weight + repetition.weight := by
  unfold helper
  split
  · exact Nat.le_add_right _ _
  · simp [weight, Nat.add_comm]

theorem weight_resolveRow_le (lhs : Symbol) (state : Expander) (row : List Part) :
    (state.resolveRow lhs row).2.weight ≤
      state.weight + Repetition.totalWeight (Part.nestedIn row) := by
  induction row generalizing state with
  | nil => simp [resolveRow]
  | cons part row induction =>
      have rest := induction (state.resolve lhs part).2
      cases part with
      | symbol symbol => simpa [resolveRow, resolve] using rest
      | self => simpa [resolveRow, resolve] using rest
      | nested repetition =>
          have first := state.weight_helper_le repetition
          simp only [resolveRow, resolve, Part.nestedIn_nested_cons,
            Repetition.totalWeight_cons] at rest ⊢
          omega

theorem weight_write_le (lhs : Symbol) (top : Bool) (state : Expander)
    (rows : List (List Part)) :
    (state.write lhs top rows).2.weight ≤
      state.weight + Repetition.totalWeight (rows.flatMap Part.nestedIn) := by
  induction rows generalizing state with
  | nil => simp [write]
  | cons row rows induction =>
      have first := state.weight_resolveRow_le lhs row
      have rest := induction (state.resolveRow lhs row).2
      simp only [write, List.flatMap_cons, Repetition.totalWeight_append] at rest ⊢
      omega

def finish : Expander → List Production × SymbolSupply
  | ⟨supply, _, []⟩ => ([], supply)
  | ⟨supply, helpers, (lhs, repetition) :: rest⟩ =>
      let written := (⟨supply, helpers, rest⟩ : Expander).write lhs false repetition.alternatives
      let (productions, supply) := written.2.finish
      (written.1 ++ productions, supply)
termination_by state => state.weight
decreasing_by
  have bound :=
    (⟨supply, helpers, rest⟩ : Expander).weight_write_le lhs false repetition.alternatives
  have less := repetition.totalWeight_children_lt
  simp only [Repetition.children] at less
  simp only [weight, List.map_cons, Repetition.totalWeight_cons] at bound ⊢
  omega

end Expander

namespace Repetition

/-- The productions that make `lhs` stand for a repetition, those for `lhs` itself first. -/
def expand (repetition : Repetition) (lhs : Symbol) (supply : SymbolSupply) :
    List Production × SymbolSupply :=
  let (top, state) := (Expander.start supply).write lhs true repetition.alternatives
  let (productions, supply) := state.finish
  (top ++ productions, supply)

end Repetition

end TracedGrammar
