import Mathlib.Data.List.Perm.Basic
import Mathlib.Logic.Relation
import TracedGrammar.Repetition.Expansion

/-!
# What an expansion writes

The productions of an expansion are described without the order of allocations.  Each repetition in
some list has a symbol of its own, the symbols are those that the supply gave out, and the
productions are the alternatives of the whole repetition, followed by those of the repetitions in
the list.  The list has everything that is mentioned, and nothing that is not mentioned.
-/

namespace TracedGrammar

namespace Repetition

def IsChild (child parent : Repetition) : Prop :=
  child ∈ parent.children

def IsDescendant : Repetition → Repetition → Prop :=
  Relation.TransGen IsChild

end Repetition

/-- The symbol for a part of an alternative of `lhs`, when repetitions have the given symbols. -/
def Part.symbolIn (symbolOf : Repetition → Symbol) (lhs : Symbol) : Part → Symbol
  | .symbol letter => letter
  | .self => lhs
  | .nested repetition => symbolOf repetition

def Production.ofRow (symbolOf : Repetition → Symbol) (lhs : Symbol) (top : Bool)
    (row : List Part) : Production :=
  { lhs
    rhs := row.map (Part.symbolIn symbolOf lhs)
    top
    recursive := row.head? == some .self }

namespace Expander

def Knows (state : Expander) (symbolOf : Repetition → Symbol) : Prop :=
  ∀ repetition symbol, state.helpers.lookup repetition = some symbol → symbolOf repetition = symbol

/-- A state has grown by symbols for some of the wanted repetitions, so that all of them have one. -/
structure Grows (state next : Expander) (wanted : List Repetition)
    (added : List (Symbol × Repetition)) : Prop where
  keeps : ∀ repetition symbol, state.helpers.lookup repetition = some symbol →
    next.helpers.lookup repetition = some symbol
  covers : ∀ repetition ∈ wanted, ∃ symbol, next.helpers.lookup repetition = some symbol
  new : ∀ repetition symbol, next.helpers.lookup repetition = some symbol →
    state.helpers.lookup repetition = some symbol ∨ (symbol, repetition) ∈ added
  known : ∀ entry ∈ added, next.helpers.lookup entry.2 = some entry.1
  wanted_of_added : ∀ entry ∈ added, entry.2 ∈ wanted
  pending_eq : next.pending = added ++ state.pending
  fresh : (added.map (·.1.id)).Perm (List.range' state.supply.allocated added.length)
  allocated_eq : next.supply.allocated = state.supply.allocated + added.length

theorem Grows.refl (state : Expander) : state.Grows state [] [] where
  keeps := fun _ _ found => found
  covers := by simp
  new := fun _ _ found => .inl found
  known := by simp
  wanted_of_added := by simp
  pending_eq := rfl
  fresh := .nil
  allocated_eq := rfl

theorem Grows.trans {state next last : Expander} {wanted others : List Repetition}
    {added more : List (Symbol × Repetition)} (first : state.Grows next wanted added)
    (second : next.Grows last others more) :
    state.Grows last (wanted ++ others) (more ++ added) where
  keeps := fun repetition symbol found =>
    second.keeps repetition symbol (first.keeps repetition symbol found)
  covers := by
    intro repetition member
    rcases List.mem_append.mp member with early | late
    · obtain ⟨symbol, found⟩ := first.covers repetition early
      exact ⟨symbol, second.keeps repetition symbol found⟩
    · exact second.covers repetition late
  new := by
    intro repetition symbol found
    rcases second.new repetition symbol found with earlier | inMore
    · exact (first.new repetition symbol earlier).imp_right (List.mem_append_right more)
    · exact .inr (List.mem_append_left added inMore)
  known := by
    intro entry member
    rcases List.mem_append.mp member with late | early
    · exact second.known entry late
    · exact second.keeps _ _ (first.known entry early)
  wanted_of_added := by
    intro entry member
    rcases List.mem_append.mp member with late | early
    · exact List.mem_append_right _ (second.wanted_of_added entry late)
    · exact List.mem_append_left _ (first.wanted_of_added entry early)
  pending_eq := by rw [second.pending_eq, first.pending_eq, List.append_assoc]
  fresh := by
    rw [List.map_append, List.length_append, Nat.add_comm, ← List.range'_append_1]
    refine List.perm_append_comm.trans (first.fresh.append ?_)
    rw [← first.allocated_eq]
    exact second.fresh
  allocated_eq := by
    rw [second.allocated_eq, first.allocated_eq, List.length_append]
    omega

theorem helper_grows (state : Expander) (repetition : Repetition) :
    ∃ added, state.Grows (state.helper repetition).2 [repetition] added ∧
      (state.helper repetition).2.helpers.lookup repetition =
        some (state.helper repetition).1 := by
  unfold helper
  split
  · rename_i symbol found
    refine ⟨[], { Grows.refl state with covers := ?_, wanted_of_added := by simp }, found⟩
    intro other member
    rw [List.mem_singleton.mp member]
    exact ⟨symbol, found⟩
  · rename_i unknown
    refine ⟨[(state.supply.fresh.1, repetition)], ?_, List.lookup_cons_self⟩
    have different {other : Repetition} {symbol : Symbol}
        (found : state.helpers.lookup other = some symbol) : (other == repetition) = false := by
      rw [beq_eq_false_iff_ne]
      rintro rfl
      rw [unknown] at found
      cases found
    exact
      { keeps := by
          intro other symbol found
          rw [List.lookup_cons, different found]
          exact found
        covers := by
          intro other member
          rw [List.mem_singleton.mp member]
          exact ⟨_, List.lookup_cons_self⟩
        new := by
          intro other symbol found
          rw [List.lookup_cons] at found
          split at found
          · rename_i same
            rw [Option.some.injEq] at found
            rw [beq_iff_eq.mp same, ← found]
            exact .inr List.mem_cons_self
          · exact .inl found
        known := by
          intro entry member
          rw [List.mem_singleton.mp member]
          exact List.lookup_cons_self
        wanted_of_added := by simp
        pending_eq := rfl
        fresh := .refl _
        allocated_eq := rfl }

theorem resolve_grows (lhs : Symbol) (state : Expander) (part : Part) :
    ∃ added, state.Grows (state.resolve lhs part).2 part.nested?.toList added ∧
      ∀ symbolOf, (state.resolve lhs part).2.Knows symbolOf →
        (state.resolve lhs part).1 = part.symbolIn symbolOf lhs := by
  cases part with
  | symbol letter => exact ⟨[], Grows.refl state, fun _ _ => rfl⟩
  | self => exact ⟨[], Grows.refl state, fun _ _ => rfl⟩
  | nested repetition =>
      obtain ⟨added, grows, found⟩ := state.helper_grows repetition
      exact ⟨added, grows, fun symbolOf knows => (knows _ _ found).symm⟩

theorem Grows.knows {state next : Expander} {wanted : List Repetition}
    {added : List (Symbol × Repetition)} (grows : state.Grows next wanted added)
    {symbolOf : Repetition → Symbol} (knows : next.Knows symbolOf) : state.Knows symbolOf :=
  fun repetition symbol found => knows repetition symbol (grows.keeps repetition symbol found)

theorem resolveRow_grows (lhs : Symbol) (state : Expander) (row : List Part) :
    ∃ added, state.Grows (state.resolveRow lhs row).2 (Part.nestedIn row) added ∧
      ∀ symbolOf, (state.resolveRow lhs row).2.Knows symbolOf →
        (state.resolveRow lhs row).1 = row.map (Part.symbolIn symbolOf lhs) := by
  induction row generalizing state with
  | nil => exact ⟨[], Grows.refl state, fun _ _ => rfl⟩
  | cons part row induction =>
      obtain ⟨added, first, head⟩ := state.resolve_grows lhs part
      obtain ⟨more, second, tail⟩ := induction (state.resolve lhs part).2
      refine ⟨more ++ added, ?_, fun symbolOf knows => ?_⟩
      · have all := first.trans second
        cases part with
        | symbol letter => exact all
        | self => exact all
        | nested repetition => exact all
      · simp only [resolveRow, List.map_cons] at knows ⊢
        rw [head symbolOf (second.knows knows), tail symbolOf knows]

theorem write_grows (lhs : Symbol) (top : Bool) (state : Expander) (rows : List (List Part)) :
    ∃ added, state.Grows (state.write lhs top rows).2 (rows.flatMap Part.nestedIn) added ∧
      ∀ symbolOf, (state.write lhs top rows).2.Knows symbolOf →
        (state.write lhs top rows).1 = rows.map (Production.ofRow symbolOf lhs top) := by
  induction rows generalizing state with
  | nil => exact ⟨[], Grows.refl state, fun _ _ => rfl⟩
  | cons row rows induction =>
      obtain ⟨added, first, head⟩ := state.resolveRow_grows lhs row
      obtain ⟨more, second, tail⟩ := induction (state.resolveRow lhs row).2
      refine ⟨more ++ added, first.trans second, fun symbolOf knows => ?_⟩
      simp only [write, List.map_cons] at knows ⊢
      rw [head symbolOf (second.knows knows), tail symbolOf knows]
      rfl

def PendingKnown (state : Expander) : Prop :=
  ∀ entry ∈ state.pending, state.helpers.lookup entry.2 = some entry.1

/-- What finishing a state has written, where `count` symbols have been allocated on the way. -/
structure Finishes (state : Expander) (symbolOf : Repetition → Symbol) (order : List Repetition)
    (count : Nat) : Prop where
  knows : state.Knows symbolOf
  productions_eq : state.finish.1 = order.flatMap fun repetition =>
    repetition.alternatives.map (Production.ofRow symbolOf (symbolOf repetition) false)
  allocated_eq : state.finish.2.allocated = state.supply.allocated + count
  symbols : (order.map fun repetition => (symbolOf repetition).id).Perm
    (state.pending.map (·.1.id) ++ List.range' state.supply.allocated count)
  pending_mem : ∀ entry ∈ state.pending, entry.2 ∈ order
  children_mem : ∀ repetition ∈ order, ∀ child ∈ repetition.children,
    (∃ symbol, state.helpers.lookup child = some symbol) ∨ child ∈ order
  descends : ∀ repetition ∈ order,
    ∃ entry ∈ state.pending, Relation.ReflTransGen Repetition.IsChild repetition entry.2

/-- What is written for one pending repetition comes before what is written for the others and for
those that it mentions. -/
theorem Finishes.cons {supply : SymbolSupply} {helpers : List (Repetition × Symbol)} {lhs : Symbol}
    {repetition : Repetition} {rest added : List (Symbol × Repetition)}
    {written : List Production × Expander}
    (writes : (⟨supply, helpers, rest⟩ : Expander).write lhs false repetition.alternatives = written)
    (known : (⟨supply, helpers, (lhs, repetition) :: rest⟩ : Expander).PendingKnown)
    (grows : (⟨supply, helpers, rest⟩ : Expander).Grows written.2 repetition.children added)
    (exact : ∀ symbolOf, written.2.Knows symbolOf →
      written.1 = repetition.alternatives.map (Production.ofRow symbolOf lhs false))
    {symbolOf : Repetition → Symbol} {order : List Repetition} {count : Nat}
    (finishes : written.2.Finishes symbolOf order count) :
    (⟨supply, helpers, (lhs, repetition) :: rest⟩ : Expander).Finishes symbolOf
      (repetition :: order) (added.length + count) := by
  have knows := grows.knows finishes.knows
  have own : symbolOf repetition = lhs :=
    knows repetition lhs (known (lhs, repetition) List.mem_cons_self)
  have inOrder {child : Repetition} {symbol : Symbol}
      (found : written.2.helpers.lookup child = some symbol) :
      (∃ symbol, helpers.lookup child = some symbol) ∨ child ∈ repetition :: order := by
    rcases grows.new child symbol found with earlier | inAdded
    · exact .inl ⟨symbol, earlier⟩
    · have pending := finishes.pending_mem (symbol, child)
      rw [grows.pending_eq] at pending
      exact .inr (List.mem_cons_of_mem _ (pending (List.mem_append_left _ inAdded)))
  exact
    { knows
      productions_eq := by
        rw [finish, writes, List.flatMap_cons, own, ← exact symbolOf finishes.knows,
          ← finishes.productions_eq]
      allocated_eq := by
        rw [finish, writes]
        change (Expander.finish _).2.allocated = _
        rw [finishes.allocated_eq, grows.allocated_eq, Nat.add_assoc]
      symbols := by
        have perm := finishes.symbols
        rw [grows.pending_eq, grows.allocated_eq, List.map_append, List.append_assoc] at perm
        rw [List.map_cons, own, List.map_cons, List.cons_append, ← List.range'_append_1]
        refine .cons _ (perm.trans ?_)
        apply List.perm_append_comm.trans
        rw [List.append_assoc]
        refine .append_left _ (List.perm_append_comm.trans ?_)
        exact grows.fresh.append_right _
      pending_mem := by
        intro entry member
        rcases List.mem_cons.mp member with rfl | later
        · exact List.mem_cons_self
        · have pending := finishes.pending_mem entry
          rw [grows.pending_eq] at pending
          exact List.mem_cons_of_mem _ (pending (List.mem_append_right _ later))
      children_mem := by
        intro other member child inChildren
        rcases List.mem_cons.mp member with rfl | later
        · obtain ⟨symbol, found⟩ := grows.covers child inChildren
          exact inOrder found
        · rcases finishes.children_mem other later child inChildren with ⟨symbol, found⟩ | inside
          · exact inOrder found
          · exact .inr (List.mem_cons_of_mem _ inside)
      descends := by
        intro other member
        rcases List.mem_cons.mp member with rfl | later
        · exact ⟨_, List.mem_cons_self, .refl⟩
        · obtain ⟨entry, pending, chain⟩ := finishes.descends other later
          rw [grows.pending_eq] at pending
          rcases List.mem_append.mp pending with inAdded | inRest
          · exact ⟨_, List.mem_cons_self, chain.tail (grows.wanted_of_added entry inAdded)⟩
          · exact ⟨entry, List.mem_cons_of_mem _ inRest, chain⟩ }

theorem exists_finishes (state : Expander) (known : state.PendingKnown) :
    ∃ symbolOf order count, state.Finishes symbolOf order count := by
  induction state using finish.induct with
  | case1 supply helpers =>
      refine ⟨fun repetition => (helpers.lookup repetition).getD default, [], 0, ?_⟩
      exact
        { knows := fun repetition symbol found => by
            change (helpers.lookup repetition).getD default = symbol
            rw [show helpers.lookup repetition = some symbol from found]
            rfl
          productions_eq := by rw [finish]; rfl
          allocated_eq := by rw [finish]; rfl
          symbols := .nil
          pending_mem := by simp
          children_mem := by simp
          descends := by simp }
  | case2 supply helpers lhs repetition rest written _ _ _ induction =>
      obtain ⟨added, grows, exact⟩ :=
        write_grows lhs false ⟨supply, helpers, rest⟩ repetition.alternatives
      have later : written.2.PendingKnown := by
        intro entry member
        rw [show written.2.pending = added ++ rest from grows.pending_eq] at member
        rcases List.mem_append.mp member with inAdded | inRest
        · exact grows.known entry inAdded
        · exact grows.keeps _ _ (known entry (List.mem_cons_of_mem _ inRest))
      obtain ⟨symbolOf, order, count, finishes⟩ := induction later
      exact ⟨symbolOf, _, _, finishes.cons rfl known grows exact⟩

end Expander

/-- What the expansion of a repetition has written. -/
structure Repetition.Layout (repetition : Repetition) (lhs : Symbol) (supply : SymbolSupply)
    (symbolOf : Repetition → Symbol) (order : List Repetition) : Prop where
  productions_eq : (repetition.expand lhs supply).1 =
    repetition.alternatives.map (Production.ofRow symbolOf lhs true) ++
      order.flatMap fun other =>
        other.alternatives.map (Production.ofRow symbolOf (symbolOf other) false)
  allocated_eq : (repetition.expand lhs supply).2.allocated = supply.allocated + order.length
  symbols : (order.map fun other => (symbolOf other).id).Perm
    (List.range' supply.allocated order.length)
  children_mem : ∀ other, other = repetition ∨ other ∈ order →
    ∀ child ∈ other.children, child ∈ order
  descends : ∀ other ∈ order, other.IsDescendant repetition

theorem Repetition.exists_layout (repetition : Repetition) (lhs : Symbol) (supply : SymbolSupply) :
    ∃ symbolOf order, repetition.Layout lhs supply symbolOf order := by
  obtain ⟨added, grows, written⟩ :=
    (Expander.start supply).write_grows lhs true repetition.alternatives
  have pending := grows.pending_eq
  rw [show (Expander.start supply).pending = [] from rfl, List.append_nil] at pending
  have inAdded {other : Repetition} {symbol : Symbol} (found : List.lookup other
      ((Expander.start supply).write lhs true repetition.alternatives).2.helpers = some symbol) :
      (symbol, other) ∈ added :=
    (grows.new other symbol found).resolve_left (by simp [Expander.start])
  obtain ⟨symbolOf, order, count, finishes⟩ := Expander.exists_finishes _ fun entry member =>
    grows.known entry (pending ▸ member)
  have inOrder {other : Repetition} {symbol : Symbol} (found : List.lookup other
      ((Expander.start supply).write lhs true repetition.alternatives).2.helpers = some symbol) :
      other ∈ order :=
    finishes.pending_mem (symbol, other) (pending ▸ inAdded found)
  have symbols := finishes.symbols
  rw [pending, grows.allocated_eq] at symbols
  have symbolsPerm := symbols.trans (grows.fresh.append_right _)
  have length : added.length + count = order.length := by
    have := symbolsPerm.length_eq
    simp only [List.length_map, List.length_append, List.length_range'] at this
    omega
  refine ⟨symbolOf, order, ?_⟩
  exact
    { productions_eq := by
        rw [expand]
        change _ ++ (Expander.finish _).1 = _
        rw [finishes.productions_eq, written symbolOf finishes.knows]
      allocated_eq := by
        rw [expand]
        change (Expander.finish _).2.allocated = _
        rw [finishes.allocated_eq, grows.allocated_eq, Nat.add_assoc, length]
        rfl
      symbols := by
        rw [← length, ← List.range'_append_1]
        exact symbolsPerm
      children_mem := by
        rintro other (rfl | inside) child inChildren
        · obtain ⟨symbol, found⟩ := grows.covers child inChildren
          exact inOrder found
        · rcases finishes.children_mem other inside child inChildren with ⟨symbol, found⟩ | inside
          · exact inOrder found
          · exact inside
      descends := by
        intro other inside
        obtain ⟨entry, inPending, chain⟩ := finishes.descends other inside
        rw [pending] at inPending
        exact .tail' chain (grows.wanted_of_added entry inPending) }

end TracedGrammar
