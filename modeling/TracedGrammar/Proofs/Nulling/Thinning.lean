import TracedGrammar.Nulling.Variants

/-!
# Leaving out symbols

A word is thinned when some of its symbols that are in a set are left out.  The choices of some of
the positions of such symbols leave exactly the words that it can be thinned to.
-/

namespace TracedGrammar

/-- The second word is what is left of the first when some symbols of a set are left out. -/
inductive Thinned (set : SymbolSet) : List Symbol → List Symbol → Prop
  | nil : Thinned set [] []
  | keep (symbol : Symbol) {word rest : List Symbol} (later : Thinned set word rest) :
      Thinned set (symbol :: word) (symbol :: rest)
  | drop {symbol : Symbol} {word rest : List Symbol} (member : symbol ∈ set)
      (later : Thinned set word rest) : Thinned set (symbol :: word) rest

theorem Thinned.refl {set : SymbolSet} : (word : List Symbol) → Thinned set word word
  | [] => .nil
  | symbol :: word => .keep symbol (refl word)

theorem Thinned.sublist {set : SymbolSet} {word rest : List Symbol} (thinned : Thinned set word rest) :
    rest.Sublist word := by
  induction thinned with
  | nil => exact .slnil
  | keep symbol _ induction => exact .cons_cons symbol induction
  | drop _ _ induction => exact .cons _ induction

theorem Thinned.mono {set other : SymbolSet} {word rest : List Symbol} (thinned : Thinned set word rest)
    (more : ∀ symbol ∈ word, symbol ∈ set → symbol ∈ other) : Thinned other word rest := by
  induction thinned with
  | nil => exact .nil
  | keep symbol _ induction =>
      exact .keep symbol (induction fun later member => more later (List.mem_cons_of_mem _ member))
  | drop member _ induction =>
      exact .drop (more _ List.mem_cons_self member)
        (induction fun later inside => more later (List.mem_cons_of_mem _ inside))

namespace PositionSet

variable {α : Type}

theorem removeFrom_congr {first second : PositionSet} {start : Nat} {items : List α}
    (agree : ∀ position, start ≤ position → first.contains position = second.contains position) :
    first.removeFrom start items = second.removeFrom start items := by
  induction items generalizing start with
  | nil => rfl
  | cons item items induction =>
      have later : first.removeFrom (start + 1) items = second.removeFrom (start + 1) items :=
        induction fun position above => agree position (Nat.le_of_succ_le above)
      rw [removeFrom, removeFrom, agree start (Nat.le_refl _), later]

end PositionSet

namespace SymbolSet

variable {set : SymbolSet}

/-- The positions of symbols of a set on a right-hand side whose first position is `start`. -/
def positionsFrom (set : SymbolSet) (start : Nat) (rhs : List Symbol) : List Nat :=
  ((rhs.zipIdx start).filter fun item => set.contains item.1).map Prod.snd

theorem positionsIn_eq (rhs : List Symbol) : set.positionsIn rhs = set.positionsFrom 0 rhs :=
  rfl

@[simp]
theorem positionsFrom_nil (start : Nat) : set.positionsFrom start [] = [] :=
  rfl

theorem positionsFrom_cons_of_mem {symbol : Symbol} (member : symbol ∈ set) (start : Nat)
    (rest : List Symbol) :
    set.positionsFrom start (symbol :: rest) = start :: set.positionsFrom (start + 1) rest := by
  simp [positionsFrom, mem_iff.mp member]

theorem positionsFrom_cons_of_not_mem {symbol : Symbol} (absent : symbol ∉ set) (start : Nat)
    (rest : List Symbol) :
    set.positionsFrom start (symbol :: rest) = set.positionsFrom (start + 1) rest := by
  simp [positionsFrom, show set.contains symbol = false by simpa [mem_iff] using absent]

theorem positionsFrom_sublist (start : Nat) (rhs : List Symbol) :
    (set.positionsFrom start rhs).Sublist (List.range' start rhs.length) := by
  have chosen := (List.filter_sublist (p := fun item => set.contains item.1)
    (l := rhs.zipIdx start)).map Prod.snd
  rwa [List.zipIdx_map_snd] at chosen

theorem le_of_mem_positionsFrom {start position : Nat} {rhs : List Symbol}
    (member : position ∈ set.positionsFrom start rhs) : start ≤ position :=
  (List.mem_range'_1.mp ((positionsFrom_sublist start rhs).subset member)).1

theorem le_last_of_mem_positionsFrom {start position last : Nat} {rhs : List Symbol}
    (found : (set.positionsFrom start rhs).getLast? = some last)
    (member : position ∈ set.positionsFrom start rhs) : position ≤ last := by
  have ordered : (set.positionsFrom start rhs).Pairwise (· < ·) :=
    List.Pairwise.sublist (positionsFrom_sublist start rhs) List.pairwise_lt_range'
  obtain ⟨before, split⟩ := List.getLast?_eq_some_iff.mp found
  rw [split] at member ordered
  rcases List.mem_append.mp member with early | last
  · exact Nat.le_of_lt ((List.pairwise_append.mp ordered).2.2 position early last (by simp))
  · exact Nat.le_of_eq (List.mem_singleton.mp last)

end SymbolSet

section Choices

variable {set : SymbolSet} {start : Nat} {rhs rest : List Symbol}

theorem mem_of_contains_chosenUnion {positions : List Nat} {choice position : Nat}
    (chosen : (chosenUnion (positions.map PositionSet.empty.insert) choice).contains position =
      true) : position ∈ positions := by
  induction positions generalizing choice with
  | nil => simp [chosenUnion] at chosen
  | cons first positions induction =>
      rw [List.map_cons, chosenUnion] at chosen
      split at chosen
      · simp only [PositionSet.contains_union, PositionSet.contains_insert,
          PositionSet.contains_empty, Bool.false_or, Bool.or_eq_true, decide_eq_true_eq] at chosen
        rcases chosen with ⟨same, _⟩ | later
        · exact same ▸ List.mem_cons_self
        · exact List.mem_cons_of_mem _ (induction later)
      · exact List.mem_cons_of_mem _ (induction chosen)

theorem thinned_removeFrom {removed : PositionSet}
    (inside : ∀ position, start ≤ position → removed.contains position = true →
      position ∈ set.positionsFrom start rhs) :
    Thinned set rhs (removed.removeFrom start rhs) := by
  induction rhs generalizing start with
  | nil => exact .nil
  | cons symbol rhs induction =>
      have later : Thinned set rhs (removed.removeFrom (start + 1) rhs) := by
        apply induction
        intro position above taken
        have member := inside position (Nat.le_of_succ_le above) taken
        by_cases inSet : symbol ∈ set
        · rw [SymbolSet.positionsFrom_cons_of_mem inSet, List.mem_cons] at member
          exact member.resolve_left (by omega)
        · rwa [SymbolSet.positionsFrom_cons_of_not_mem inSet] at member
      rw [PositionSet.removeFrom]
      split
      · rename_i taken
        refine .drop (Decidable.byContradiction fun absent => ?_) later
        have member := inside start (Nat.le_refl _) taken
        rw [SymbolSet.positionsFrom_cons_of_not_mem absent] at member
        have := SymbolSet.le_of_mem_positionsFrom member
        omega
      · exact .keep symbol later

theorem length_positionsFrom_of_thinned_nil (thinned : Thinned set rhs []) (start : Nat) :
    (set.positionsFrom start rhs).length = rhs.length := by
  generalize empty : [] = rest at thinned
  induction thinned generalizing start with
  | nil => rfl
  | keep => cases empty
  | drop member _ induction =>
      rw [SymbolSet.positionsFrom_cons_of_mem member, List.length_cons, induction _ empty]
      rfl

def chosenRest (set : SymbolSet) (start : Nat) (rhs : List Symbol) (choice : Nat) : List Symbol :=
  (chosenUnion ((set.positionsFrom start rhs).map PositionSet.empty.insert) choice).removeFrom
    start rhs

theorem thinned_chosenRest (choice : Nat) : Thinned set rhs (chosenRest set start rhs choice) :=
  thinned_removeFrom fun _ _ chosen => mem_of_contains_chosenUnion chosen

theorem contains_later_chosenUnion (choice : Nat) :
    (chosenUnion ((set.positionsFrom (start + 1) rhs).map PositionSet.empty.insert)
      choice).contains start = false := by
  rw [Bool.eq_false_iff]
  intro chosen
  have := SymbolSet.le_of_mem_positionsFrom (mem_of_contains_chosenUnion chosen)
  omega

/-- Every thinned word is left by some choice, as long as a set can hold the positions. -/
theorem exists_choice_of_thinned (thinned : Thinned set rhs rest)
    (low : ∀ position ∈ set.positionsFrom start rhs, position < PositionSet.capacity) :
    ∃ choice < 1 <<< (set.positionsFrom start rhs).length,
      chosenRest set start rhs choice = rest := by
  induction thinned generalizing start with
  | nil => exact ⟨0, Nat.one_pos, rfl⟩
  | @keep symbol rhs rest later induction =>
      by_cases member : symbol ∈ set
      · rw [SymbolSet.positionsFrom_cons_of_mem member] at low ⊢
        obtain ⟨choice, small, rfl⟩ := induction fun position inside =>
          low position (List.mem_cons_of_mem _ inside)
        refine ⟨2 * choice, by rw [List.length_cons, Nat.shiftLeft_succ]; omega, ?_⟩
        rw [chosenRest, SymbolSet.positionsFrom_cons_of_mem member, List.map_cons, chosenUnion,
          if_neg (by omega), Nat.mul_div_cancel_left choice Nat.two_pos, PositionSet.removeFrom,
          contains_later_chosenUnion]
        rfl
      · rw [SymbolSet.positionsFrom_cons_of_not_mem member] at low ⊢
        obtain ⟨choice, small, rfl⟩ := induction low
        refine ⟨choice, small, ?_⟩
        rw [chosenRest, SymbolSet.positionsFrom_cons_of_not_mem member, PositionSet.removeFrom,
          contains_later_chosenUnion]
        rfl
  | @drop symbol rhs rest member later induction =>
      rw [SymbolSet.positionsFrom_cons_of_mem member] at low ⊢
      obtain ⟨choice, small, rfl⟩ := induction fun position inside =>
        low position (List.mem_cons_of_mem _ inside)
      refine ⟨2 * choice + 1, by rw [List.length_cons, Nat.shiftLeft_succ]; omega, ?_⟩
      have held : start < 64 := low start List.mem_cons_self
      rw [chosenRest, SymbolSet.positionsFrom_cons_of_mem member, List.map_cons, chosenUnion,
        if_pos (by omega), show (2 * choice + 1) / 2 = choice by omega, PositionSet.removeFrom,
        if_pos (by simp [held])]
      refine PositionSet.removeFrom_congr fun position above => ?_
      have different : position ≠ start := by omega
      simp [different]

end Choices

end TracedGrammar
