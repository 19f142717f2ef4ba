import TracedGrammar.Repetition.Basic

/-!
# Alternatives of a repetition

A repetition is written with a few alternatives, each a short row of parts.  A part is a symbol, the
repetition itself, or a smaller repetition that gets a symbol of its own.  Unbounded repetition is
left recursion.  Bounded repetition halves the number of items at a power of two, so the number of
different repetitions that come up is logarithmic.

Every part that is a repetition has a smaller rank than the whole, and there are at most three of
them.  So the load of the alternatives, which counts `4 ^ rank` for each, is below the weight
`4 ^ rank` of the whole.
-/

namespace TracedGrammar

/-- The greatest power of two below `count`, when `count` is at least two. -/
def halfPower (count : Nat) : Nat :=
  1 <<< (count - 1).log2

theorem halfPower_pos (count : Nat) : 0 < halfPower count := by
  rw [halfPower, Nat.one_shiftLeft]
  exact Nat.two_pow_pos _

theorem halfPower_lt {count : Nat} (large : 2 ≤ count) : halfPower count < count := by
  have := Nat.log2_self_le (by omega : count - 1 ≠ 0)
  rw [halfPower, Nat.one_shiftLeft]
  omega

/-- One position of an alternative. -/
inductive Part
  | symbol (symbol : Symbol)
  | self
  | nested (repetition : Repetition)
deriving DecidableEq, Repr

namespace Separator

/-- How many steps lead from a way of separation to those that need no other. -/
def rank : Separator → Nat
  | .absent => 0
  | .proper _ => 0
  | .trailing _ => 1
  | .liberal _ => 2

end Separator

namespace Repetition

/-- The same repetition where another item follows. -/
def leading (repetition : Repetition) : Repetition :=
  repetition.separatedBy repetition.separator.leading

/-- The alternatives of a repetition of one item or more, where `glue` stands between neighbouring
items. -/
def runs (repetition : Repetition) (glue : List Symbol) : List (List Part) :=
  let item := Part.symbol repetition.item
  let glue := glue.map Part.symbol
  if repetition.least = 1 then
    match repetition.most with
    | none => [[item], .self :: glue ++ [item]]
    | some most =>
        if most ≤ 1 then
          [[item]]
        else if most = 2 then
          [[.nested (repetition.exactly 1)], [.nested (repetition.exactly 2)]]
        else
          let half := halfPower most
          [[.nested (repetition.between 1 (some half))],
            [.nested (repetition.exactly half).leading,
              .nested (repetition.between 1 (some (most - half)))]]
  else if repetition.most = some repetition.least then
    if repetition.least = 2 then
      [item :: glue ++ [item]]
    else
      let half := halfPower repetition.least
      [[.nested (repetition.exactly half).leading,
        .nested (repetition.exactly (repetition.least - half))]]
  else
    [[.nested (repetition.exactly (repetition.least - 1)).leading,
      .nested (repetition.between 1 (repetition.most.map (· - repetition.least + 1)))]]

def alternatives (repetition : Repetition) : List (List Part) :=
  if repetition.least = 0 then
    if repetition.most = some 0 then
      [[]]
    else if repetition.most = none ∧ repetition.separator = .absent then
      [[], [.self, .symbol repetition.item]]
    else
      [[], [.nested (repetition.between 1 repetition.most)]]
  else
    match repetition.separator with
    | .liberal symbol =>
        [[.nested (repetition.separatedBy (.proper symbol))],
          [.nested (repetition.separatedBy (.trailing symbol))]]
    | .trailing symbol => [[.nested (repetition.separatedBy (.proper symbol)), .symbol symbol]]
    | .proper symbol => repetition.runs [symbol]
    | .absent => repetition.runs []

def extent (repetition : Repetition) : Nat :=
  max repetition.least (repetition.most.getD (repetition.least + 1))

/-- How far a repetition is from being written without others.  Fewer items come before a fixed
number of them, and that comes before a simpler separation. -/
def rank (repetition : Repetition) : Nat :=
  6 * repetition.extent + (if repetition.most = some repetition.least then 0 else 3) +
    repetition.separator.rank + (if repetition.least = 0 then 10 else 0)

/-- The share of a repetition in the measure of what is left to write. -/
def weight (repetition : Repetition) : Nat :=
  1 <<< (2 * repetition.rank)

end Repetition

namespace Part

/-- The repetition that a part stands for, unless it is the one being written. -/
def nested? : Part → Option Repetition
  | .symbol _ => none
  | .self => none
  | .nested repetition => some repetition

def nestedIn (row : List Part) : List Repetition :=
  row.filterMap nested?

@[simp]
theorem nestedIn_nil : nestedIn [] = [] :=
  rfl

@[simp]
theorem nestedIn_symbol_cons (symbol : Symbol) (row : List Part) :
    nestedIn (.symbol symbol :: row) = nestedIn row :=
  rfl

@[simp]
theorem nestedIn_self_cons (row : List Part) : nestedIn (.self :: row) = nestedIn row :=
  rfl

@[simp]
theorem nestedIn_nested_cons (repetition : Repetition) (row : List Part) :
    nestedIn (.nested repetition :: row) = repetition :: nestedIn row :=
  rfl

@[simp]
theorem nestedIn_append (first second : List Part) :
    nestedIn (first ++ second) = nestedIn first ++ nestedIn second :=
  List.filterMap_append

@[simp]
theorem nestedIn_map_symbol (symbols : List Symbol) :
    nestedIn (symbols.map .symbol) = [] := by
  induction symbols with
  | nil => rfl
  | cons symbol symbols induction => simpa using induction

end Part

namespace Repetition

def children (repetition : Repetition) : List Repetition :=
  repetition.alternatives.flatMap Part.nestedIn

def totalWeight : List Repetition → Nat
  | [] => 0
  | repetition :: others => repetition.weight + totalWeight others

@[simp]
theorem totalWeight_nil : totalWeight [] = 0 :=
  rfl

@[simp]
theorem totalWeight_cons (repetition : Repetition) (others : List Repetition) :
    totalWeight (repetition :: others) = repetition.weight + totalWeight others :=
  rfl

@[simp]
theorem totalWeight_append (first second : List Repetition) :
    totalWeight (first ++ second) = totalWeight first + totalWeight second := by
  induction first with
  | nil => simp
  | cons repetition others induction =>
      rw [List.cons_append, totalWeight_cons, totalWeight_cons, induction, Nat.add_assoc]

theorem weight_pos (repetition : Repetition) : 0 < repetition.weight := by
  rw [weight, Nat.one_shiftLeft]
  exact Nat.two_pow_pos _

/-- At most three repetitions of smaller rank weigh less than one. -/
theorem totalWeight_lt {repetition : Repetition} {others : List Repetition}
    (few : others.length ≤ 3) (smaller : ∀ other ∈ others, other.rank < repetition.rank) :
    totalWeight others < repetition.weight := by
  have light : 4 * totalWeight others ≤ others.length * repetition.weight := by
    clear few
    induction others with
    | nil => simp
    | cons other others induction =>
        have less := smaller other (by simp)
        have share : 4 * other.weight ≤ repetition.weight := by
          have grown := Nat.pow_le_pow_right Nat.two_pos
            (by omega : 2 * other.rank + 2 ≤ 2 * repetition.rank)
          rw [Nat.pow_succ, Nat.pow_succ] at grown
          rw [weight, weight, Nat.one_shiftLeft, Nat.one_shiftLeft]
          omega
        have rest := induction fun member inside => smaller member (by simp [inside])
        rw [totalWeight_cons, List.length_cons, Nat.add_one_mul others.length]
        omega
  have positive := repetition.weight_pos
  have bounded : others.length * repetition.weight ≤ 3 * repetition.weight :=
    Nat.mul_le_mul_right _ few
  omega

theorem runs_nested (repetition : Repetition) (glue : List Symbol)
    (positive : repetition.least ≠ 0) (simple : repetition.separator.rank = 0) :
    ((repetition.runs glue).flatMap Part.nestedIn).length ≤ 3 ∧
      ∀ child ∈ (repetition.runs glue).flatMap Part.nestedIn, child.rank < repetition.rank := by
  have leadingRank : repetition.separator.leading.rank ≤ 1 := by
    cases repetition.separator <;> simp [Separator.leading, Separator.rank]
  obtain ⟨item, least, most, separator⟩ := repetition
  simp only at positive simple leadingRank
  simp only [runs]
  split
  · subst least
    cases most with
    | none => simp
    | some most =>
        simp only
        split
        · simp
        · split
          · simp [rank, extent, exactly, between, *]
          · have := halfPower_pos most
            have := halfPower_lt (by omega : 2 ≤ most)
            simp [rank, extent, exactly, between, leading, separatedBy, *]
            (repeat' split) <;> omega
  · split
    · split
      · simp
      · have := halfPower_pos least
        have := halfPower_lt (by omega : 2 ≤ least)
        simp_all [rank, extent, exactly, between, leading, separatedBy]
        (repeat' split) <;> omega
    · cases most with
      | none =>
          simp [rank, extent, exactly, between, leading, separatedBy, *]
          (repeat' split) <;> omega
      | some most =>
          simp_all [rank, extent, exactly, between, leading, separatedBy]
          (repeat' split) <;> omega

theorem children_few_and_smaller (repetition : Repetition) :
    repetition.children.length ≤ 3 ∧
      ∀ child ∈ repetition.children, child.rank < repetition.rank := by
  unfold children alternatives
  split
  · rename_i zero
    split
    · simp
    · split
      · simp
      · obtain ⟨item, least, most, separator⟩ := repetition
        cases most with
        | none =>
            simp_all [rank, extent, between]
            omega
        | some most =>
            simp_all [rank, extent, between]
            split <;> omega
  · rename_i positive
    cases found : repetition.separator with
    | absent => exact runs_nested repetition [] positive (by simp [found, Separator.rank])
    | proper symbol =>
        exact runs_nested repetition [symbol] positive (by simp [found, Separator.rank])
    | trailing symbol => simp [rank, extent, separatedBy, found, Separator.rank]
    | liberal symbol => simp [rank, extent, separatedBy, found, Separator.rank]

theorem rank_lt_of_mem_children {repetition child : Repetition}
    (member : child ∈ repetition.children) : child.rank < repetition.rank :=
  repetition.children_few_and_smaller.2 child member

theorem totalWeight_children_lt (repetition : Repetition) :
    totalWeight repetition.children < repetition.weight :=
  totalWeight_lt repetition.children_few_and_smaller.1 fun _ => rank_lt_of_mem_children

end Repetition

end TracedGrammar
