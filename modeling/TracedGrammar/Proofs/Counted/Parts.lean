import TracedGrammar.GrammarError
import TracedGrammar.Proofs.Chain.Pass
import TracedGrammar.Proofs.Report.Success
import TracedGrammar.Proofs.Sequence.Expanded
import TracedGrammar.Symbol.Source

/-!
# Allocations that are counted in 32 bits

What passes do with a supply is written here once more for a supply that has an end.  A computation is
interrupted when there is no room for a symbol that it needs.  Otherwise it makes what is made with a
supply that has no end, and it is interrupted only if the symbols do not fit.
-/

namespace TracedGrammar

/-- Why a computation that allocates symbols has no result. -/
inductive Interruption
  | failed (error : GrammarError)
  | outOfSymbols
deriving DecidableEq, Repr

/-- From one state of a supply to a later one something is computed, as long as there is room. -/
structure Counts {α : Type} (supply later : SymbolSupply) (counted : Except Interruption α)
    (made : α) : Prop where
  allocated_le : supply.allocated ≤ later.allocated
  eq_ok_of_room : supply.HasRoom later → counted = .ok made
  eq_error_of_not_room : ¬supply.HasRoom later → counted = .error .outOfSymbols

namespace Counts

variable {α β : Type} {supply middle later : SymbolSupply} {counted : Except Interruption α}
  {made : α}

theorem pure (supply : SymbolSupply) (made : α) : Counts supply supply (.ok made) made where
  allocated_le := Nat.le_refl _
  eq_ok_of_room := fun _ => rfl
  eq_error_of_not_room := fun full => absurd (.refl supply) full

theorem eq_ok_iff (counts : Counts supply later counted made) {value : α} :
    counted = .ok value ↔ made = value ∧ supply.HasRoom later := by
  by_cases room : supply.HasRoom later
  · rw [counts.eq_ok_of_room room, Except.ok.injEq]
    exact (and_iff_left room).symm
  · rw [counts.eq_error_of_not_room room]
    simp [room]

theorem bind (first : Counts supply middle counted made) {next : α → Except Interruption β} {value : β}
    (second : Counts middle later (next made) value) : Counts supply later (counted >>= next) value where
  allocated_le := Nat.le_trans first.allocated_le second.allocated_le
  eq_ok_of_room := by
    intro room
    obtain ⟨before, after⟩ :=
      (SymbolSupply.hasRoom_trans_iff first.allocated_le second.allocated_le).mpr room
    rw [first.eq_ok_of_room before]
    exact second.eq_ok_of_room after
  eq_error_of_not_room := by
    intro full
    by_cases before : supply.HasRoom middle
    · rw [first.eq_ok_of_room before]
      refine second.eq_error_of_not_room fun after => full ?_
      exact (SymbolSupply.hasRoom_trans_iff first.allocated_le second.allocated_le).mp ⟨before, after⟩
    · rw [first.eq_error_of_not_room before]
      rfl

end Counts

namespace Counted

def fresh (supply : SymbolSupply) : Except Interruption (Symbol × SymbolSupply) :=
  match supply.draw? with
  | some drawn => .ok drawn
  | none => .error .outOfSymbols

theorem counts_fresh (supply : SymbolSupply) :
    Counts supply supply.fresh.2 (fresh supply) supply.fresh := by
  have room : supply.HasRoom supply.fresh.2 ↔ supply.allocated < SymbolSupply.capacity := by
    simp only [SymbolSupply.HasRoom, SymbolSupply.fresh]
    omega
  constructor
  case allocated_le => exact Nat.le_succ _
  case eq_ok_of_room =>
    intro fits
    rw [fresh, SymbolSupply.draw?, if_pos (room.mp fits)]
  case eq_error_of_not_room =>
    intro full
    rw [fresh, SymbolSupply.draw?, if_neg (mt room.mpr full)]

section Chains

/-- The chain that defines `lhs`, with symbols that are counted. -/
def chain (fullLength : Nat) (lhs : Symbol) (depth : Nat) (supply : SymbolSupply) :
    List Symbol → Except Interruption (List ChainRule × SymbolSupply)
  | last :: third :: second :: rest => do
      let (helper, afterHelper) ← fresh supply
      let (below, afterChain) ←
        chain fullLength helper (depth + 1) afterHelper (third :: second :: rest)
      return ({ lhs, rhs := [helper, last], piece := ⟨.right, depth, fullLength⟩ } :: below, afterChain)
  | ends => return ([{ lhs, rhs := ends.reverse, piece := ⟨.left, depth, fullLength⟩ }], supply)

theorem counts_chain (fullLength : Nat) (lhs : Symbol) (depth : Nat) (supply : SymbolSupply)
    (word : List Symbol) :
    Counts supply (ChainRule.chain fullLength lhs depth supply word).2
      (chain fullLength lhs depth supply word) (ChainRule.chain fullLength lhs depth supply word) := by
  fun_induction chain with
  | case1 lhs depth supply last third second rest induction =>
      rw [ChainRule.chain]
      exact (counts_fresh supply).bind ((induction supply.fresh.1 supply.fresh.2).bind (.pure _ _))
  | case2 lhs depth supply ends short =>
      rw [ChainRule.chain]
      · exact .pure _ _
      · exact short

variable {H : Type} [RuleHistory H]

/-- The pieces of a rule, with symbols that are counted. -/
def pieces (rule : Rule H) (supply : SymbolSupply) :
    Except Interruption (List (Rule H × ChainPart) × SymbolSupply) :=
  if rule.admitsSplit then do
    let (links, rest) ← chain rule.rhs.length rule.lhs 0 supply rule.rhs.reverse
    return (links.map fun link => (rule.piece link, link.piece.part), rest)
  else
    return ([(rule, .whole)], supply)

theorem counts_pieces (rule : Rule H) (supply : SymbolSupply) :
    Counts supply (rule.binarize supply).2 (pieces rule supply) (rule.binarize supply) := by
  unfold pieces Rule.binarize
  split
  · exact (counts_chain _ _ _ _ _).bind (.pure _ _)
  · exact .pure _ _

end Chains

section Expansions

def helper (state : Expander) (repetition : Repetition) : Except Interruption (Symbol × Expander) :=
  match state.helpers.lookup repetition with
  | some symbol => return (symbol, state)
  | none => do
      let (symbol, supply) ← fresh state.supply
      return (symbol,
        { supply
          helpers := (repetition, symbol) :: state.helpers
          pending := (symbol, repetition) :: state.pending })

theorem counts_helper (state : Expander) (repetition : Repetition) :
    Counts state.supply (state.helper repetition).2.supply (helper state repetition)
      (state.helper repetition) := by
  unfold helper Expander.helper
  cases state.helpers.lookup repetition with
  | some symbol => exact .pure _ _
  | none => exact (counts_fresh state.supply).bind (.pure _ _)

def resolve (lhs : Symbol) (state : Expander) : Part → Except Interruption (Symbol × Expander)
  | .symbol symbol => return (symbol, state)
  | .self => return (lhs, state)
  | .nested repetition => helper state repetition

theorem counts_resolve (lhs : Symbol) (state : Expander) (part : Part) :
    Counts state.supply (state.resolve lhs part).2.supply (resolve lhs state part)
      (state.resolve lhs part) := by
  cases part with
  | symbol symbol => exact .pure _ _
  | self => exact .pure _ _
  | nested repetition => exact counts_helper state repetition

def resolveRow (lhs : Symbol) (state : Expander) :
    List Part → Except Interruption (List Symbol × Expander)
  | [] => return ([], state)
  | part :: row => do
      let (symbol, next) ← resolve lhs state part
      let (symbols, last) ← resolveRow lhs next row
      return (symbol :: symbols, last)

theorem counts_resolveRow (lhs : Symbol) (state : Expander) (row : List Part) :
    Counts state.supply (state.resolveRow lhs row).2.supply (resolveRow lhs state row)
      (state.resolveRow lhs row) := by
  induction row generalizing state with
  | nil => exact .pure _ _
  | cons part row induction =>
      exact (counts_resolve lhs state part).bind ((induction _).bind (.pure _ _))

def write (lhs : Symbol) (top : Bool) (state : Expander) :
    List (List Part) → Except Interruption (List Production × Expander)
  | [] => return ([], state)
  | row :: rows => do
      let (rhs, next) ← resolveRow lhs state row
      let (productions, last) ← write lhs top next rows
      return ({ lhs, rhs, top, recursive := row.head? == some .self } :: productions, last)

theorem counts_write (lhs : Symbol) (top : Bool) (state : Expander) (rows : List (List Part)) :
    Counts state.supply (state.write lhs top rows).2.supply (write lhs top state rows)
      (state.write lhs top rows) := by
  induction rows generalizing state with
  | nil => exact .pure _ _
  | cons row rows induction =>
      exact (counts_resolveRow lhs state row).bind ((induction _).bind (.pure _ _))

def finish : Expander → Except Interruption (List Production × SymbolSupply)
  | ⟨supply, _, []⟩ => return ([], supply)
  | ⟨supply, helpers, (lhs, repetition) :: rest⟩ =>
      match _ : write lhs false ⟨supply, helpers, rest⟩ repetition.alternatives with
      | .error interruption => .error interruption
      | .ok (productions, state) => do
          let (others, supply) ← finish state
          return (productions ++ others, supply)
termination_by state => state.weight
decreasing_by
  -- What is written without an interruption is what is written from a supply that has no end.
  rename_i made
  have same := ((counts_write lhs false ⟨supply, helpers, rest⟩ repetition.alternatives).eq_ok_iff.mp
    made).1
  have bound :=
    (⟨supply, helpers, rest⟩ : Expander).weight_write_le lhs false repetition.alternatives
  have less := repetition.totalWeight_children_lt
  rw [same] at bound
  simp only [Repetition.children] at less
  simp only [Expander.weight, List.map_cons, Repetition.totalWeight_cons] at bound ⊢
  omega

theorem finish_cons (supply : SymbolSupply) (helpers : List (Repetition × Symbol)) (lhs : Symbol)
    (repetition : Repetition) (rest : List (Symbol × Repetition)) :
    finish ⟨supply, helpers, (lhs, repetition) :: rest⟩ =
      write lhs false ⟨supply, helpers, rest⟩ repetition.alternatives >>= fun written =>
        finish written.2 >>= fun finished => .ok (written.1 ++ finished.1, finished.2) := by
  rw [finish]
  split
  · rename_i interruption interrupted
    rw [interrupted]
    rfl
  · rename_i productions state made
    rw [made]
    rfl

theorem counts_finish (state : Expander) :
    Counts state.supply state.finish.2 (finish state) state.finish := by
  fun_induction Expander.finish with
  | case1 supply helpers =>
      rw [finish]
      exact .pure _ _
  | case2 supply helpers lhs repetition rest written productions later finished induction =>
      have first := counts_write lhs false ⟨supply, helpers, rest⟩ repetition.alternatives
      rw [finish_cons]
      refine first.bind (induction.bind ?_)
      rw [finished]
      exact .pure _ _

/-- The productions that make `lhs` stand for a repetition, with symbols that are counted. -/
def productions (repetition : Repetition) (lhs : Symbol) (supply : SymbolSupply) :
    Except Interruption (List Production × SymbolSupply) := do
  let (top, state) ← write lhs true (.start supply) repetition.alternatives
  let (productions, supply) ← finish state
  return (top ++ productions, supply)

theorem counts_productions (repetition : Repetition) (lhs : Symbol) (supply : SymbolSupply) :
    Counts supply (repetition.expand lhs supply).2 (productions repetition lhs supply)
      (repetition.expand lhs supply) :=
  (counts_write lhs true (.start supply) repetition.alternatives).bind
    ((counts_finish _).bind (.pure _ _))

end Expansions

end Counted

end TracedGrammar
