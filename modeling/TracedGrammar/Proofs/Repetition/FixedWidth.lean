import TracedGrammar.Proofs.Repetition.Descent

/-!
# Counts of fixed width

Counts are numbers of 32 bits.  The bounds of a range, and of all repetitions that come up while one is
written, can be computed in such numbers with sums and differences that are given up when they leave
the 32 bits.  None of them does, so the bounds are the same as those computed in natural numbers.
-/

namespace TracedGrammar

section Arithmetic

/-- A sum, unless it wraps around. -/
def sum32 (first second : UInt32) : Option UInt32 :=
  if first.toNat + second.toNat < UInt32.size then some (first + second) else none

/-- A difference, unless it wraps around. -/
def difference32 (first second : UInt32) : Option UInt32 :=
  if second ≤ first then some (first - second) else none

def leadingZeros (count : UInt32) : UInt32 :=
  if count = 0 then 32 else 31 - count.log2

/-- The greatest power of two below a count. -/
def halfPower32 (count : UInt32) : Option UInt32 := do
  let less ← difference32 count 1
  let place ← difference32 31 (leadingZeros less)
  return 1 <<< place

theorem exists_sum32 (first second : UInt32) (fits : first.toNat + second.toNat < UInt32.size) :
    ∃ sum, sum32 first second = some sum ∧ sum.toNat = first.toNat + second.toNat :=
  ⟨_, if_pos fits, by rw [UInt32.toNat_add, Nat.mod_eq_of_lt fits]⟩

theorem exists_difference32 (first second : UInt32) (fits : second.toNat ≤ first.toNat) :
    ∃ difference, difference32 first second = some difference ∧
      difference.toNat = first.toNat - second.toNat :=
  have fits := UInt32.le_iff_toNat_le.mpr fits
  ⟨_, if_pos fits, UInt32.toNat_sub_of_le _ _ fits⟩

theorem leadingZeros_add_log2 {count : UInt32} (positive : count.toNat ≠ 0) :
    (leadingZeros count).toNat + count.toNat.log2 = 31 := by
  have digit : count.toNat.log2 < 32 := (Nat.log2_lt positive).mpr count.toNat_lt
  have few : count.log2 ≤ 31 := UInt32.le_iff_toNat_le.mpr (Nat.le_of_lt_succ digit)
  rw [leadingZeros, if_neg (mt UInt32.toNat_inj.mpr positive), UInt32.toNat_sub_of_le _ _ few]
  exact Nat.sub_add_cancel (Nat.le_of_lt_succ digit)

theorem exists_halfPower32 {count : UInt32} (several : 2 ≤ count.toNat) :
    ∃ half, halfPower32 count = some half ∧ half.toNat = halfPower count.toNat := by
  obtain ⟨less, made, exact⟩ := exists_difference32 count 1 (Nat.one_le_of_lt several)
  rw [UInt32.toNat_one] at exact
  have zeros := leadingZeros_add_log2 (show less.toNat ≠ 0 by omega)
  have fits : (leadingZeros less).toNat ≤ (31 : UInt32).toNat := Nat.le.intro zeros
  obtain ⟨place, placed, same⟩ := exists_difference32 31 (leadingZeros less) fits
  have log : place.toNat = (count.toNat - 1).log2 := by
    rw [same, ← exact]
    exact Nat.sub_eq_of_eq_add' zeros.symm
  have small := count.toNat_lt
  have below := halfPower_lt several
  rw [halfPower, ← log] at below
  refine ⟨1 <<< place, ?_, ?_⟩
  · simp only [halfPower32, made, placed, Option.bind_eq_bind, Option.bind_some]
    rfl
  · have digit : place.toNat < 32 := by
      rw [same]
      exact Nat.lt_succ_of_le (Nat.sub_le _ _)
    rw [halfPower, ← log, UInt32.toNat_shiftLeft, Nat.mod_eq_of_lt digit, UInt32.toNat_one,
      Nat.mod_eq_of_lt (below.trans small)]

theorem toNat_max (first second : UInt32) :
    (max first second).toNat = max first.toNat second.toNat := by
  change (if first ≤ second then second else first).toNat = _
  split
  · rename_i le
    exact (Nat.max_eq_right (UInt32.le_iff_toNat_le.mp le)).symm
  · rename_i greater
    exact (Nat.max_eq_left (Nat.le_of_not_le (mt UInt32.le_iff_toNat_le.mpr greater))).symm

end Arithmetic

/-- An end of a range of numbers of 32 bits. -/
inductive Bound32
  | unbounded
  | included (count : UInt32)
  | excluded (count : UInt32)
deriving DecidableEq, Repr

def Bound32.toBound : Bound32 → CountBound
  | .unbounded => .unbounded
  | .included count => .included count.toNat
  | .excluded count => .excluded count.toNat

structure Range32 where
  lower : Bound32
  upper : Bound32
deriving DecidableEq, Repr

namespace Range32

def toRange (range : Range32) : CountRange :=
  ⟨range.lower.toBound, range.upper.toBound⟩

def leastOf : Bound32 → Option UInt32
  | .unbounded => some 0
  | .included least => some least
  | .excluded below => sum32 below 1

/-- The least and the greatest count of a range. -/
def extremes (range : Range32) : Option (UInt32 × Option UInt32) :=
  match leastOf range.lower with
  | none => do
      let most ← difference32 4294967295 1
      return (4294967295, some most)
  | some least =>
      match range.upper with
      | .unbounded => some (least, none)
      | .included most => some (least, some most)
      | .excluded above =>
          match difference32 above 1 with
          | none => some (max least 1, some 0)
          | some most => some (least, some most)

theorem leastOf_toBound (bound : Bound32) :
    CountRange.leastOf bound.toBound = (leastOf bound).map UInt32.toNat := by
  cases bound with
  | unbounded => rfl
  | included least => rfl
  | excluded below =>
      rw [Bound32.toBound, CountRange.leastOf, leastOf]
      split
      · rename_i room
        obtain ⟨least, made, exact⟩ := exists_sum32 below 1 (Nat.add_lt_of_lt_sub room)
        rw [made, Option.map_some, exact, UInt32.toNat_one]
      · rename_i full
        rw [sum32, UInt32.toNat_one, if_neg (mt Nat.lt_sub_of_add_lt full)]
        rfl

/-- No bound of a range leaves the 32 bits. -/
theorem extremes_toRange (range : Range32) :
    ∃ least most, range.extremes = some (least, most) ∧
      range.toRange.extremes = (least.toNat, most.map UInt32.toNat) := by
  obtain ⟨lower, upper⟩ := range
  unfold CountRange.extremes extremes toRange
  rw [leastOf_toBound]
  cases leastOf lower with
  | none => exact ⟨_, _, rfl, rfl⟩
  | some least =>
      cases upper with
      | unbounded => exact ⟨_, _, rfl, rfl⟩
      | included most => exact ⟨_, _, rfl, rfl⟩
      | excluded above =>
          cases limit : above.toNat with
          | zero =>
              have larger := toNat_max least 1
              have none : difference32 above 1 = none := by
                rw [difference32, if_neg]
                rw [UInt32.le_iff_toNat_le, limit, UInt32.toNat_one]
                exact Nat.not_succ_le_zero 0
              refine ⟨max least 1, some 0, by simp only [none], ?_⟩
              simp only [Bound32.toBound, limit, Option.map_some, larger, UInt32.toNat_one]
              rfl
          | succ most =>
              obtain ⟨less, made, exact⟩ := exists_difference32 above 1 (by
                rw [limit, UInt32.toNat_one]
                exact Nat.le_add_left 1 most)
              rw [limit, UInt32.toNat_one, Nat.add_sub_cancel] at exact
              refine ⟨least, some less, by simp only [made], ?_⟩
              simp only [Bound32.toBound, limit, Option.map_some, exact]

end Range32

/-- A repetition between bounds of 32 bits. -/
structure Repetition32 where
  item : Symbol
  least : UInt32
  most : Option UInt32
  separator : Separator
deriving DecidableEq, Repr

namespace Repetition32

def toRepetition (repetition : Repetition32) : Repetition where
  item := repetition.item
  least := repetition.least.toNat
  most := repetition.most.map UInt32.toNat
  separator := repetition.separator

def between (repetition : Repetition32) (least : UInt32) (most : Option UInt32) : Repetition32 :=
  { repetition with least, most }

def exactly (repetition : Repetition32) (count : UInt32) : Repetition32 :=
  repetition.between count (some count)

def separatedBy (repetition : Repetition32) (separator : Separator) : Repetition32 :=
  { repetition with separator }

def leading (repetition : Repetition32) : Repetition32 :=
  repetition.separatedBy repetition.separator.leading

def part (repetition : Repetition32) : Part :=
  .nested repetition.toRepetition

/-- How many items may follow those that are fixed, with the first of them. -/
def spread (repetition : Repetition32) : Option (Option UInt32) :=
  repetition.most.mapM fun most => do
    let more ← difference32 most repetition.least
    sum32 more 1

/-- The alternatives of a repetition of one item or more. -/
def runs (repetition : Repetition32) (glue : List Symbol) : Option (List (List Part)) :=
  let item := Part.symbol repetition.item
  let glue := glue.map Part.symbol
  if repetition.least = 1 then
    match repetition.most with
    | none => some [[item], .self :: glue ++ [item]]
    | some most =>
        if most ≤ 1 then
          some [[item]]
        else if most = 2 then
          some [[(repetition.exactly 1).part], [(repetition.exactly 2).part]]
        else do
          let half ← halfPower32 most
          let rest ← difference32 most half
          return [[(repetition.between 1 (some half)).part],
            [(repetition.exactly half).leading.part, (repetition.between 1 (some rest)).part]]
  else if repetition.most = some repetition.least then
    if repetition.least = 2 then
      some [item :: glue ++ [item]]
    else do
      let half ← halfPower32 repetition.least
      let rest ← difference32 repetition.least half
      return [[(repetition.exactly half).leading.part, (repetition.exactly rest).part]]
  else do
    let start ← difference32 repetition.least 1
    let spread ← repetition.spread
    return [[(repetition.exactly start).leading.part, (repetition.between 1 spread).part]]

/-- The alternatives of a repetition. -/
def alternatives (repetition : Repetition32) : Option (List (List Part)) :=
  if repetition.least = 0 then
    if repetition.most = some 0 then
      some [[]]
    else if repetition.most = none ∧ repetition.separator = .absent then
      some [[], [.self, .symbol repetition.item]]
    else
      some [[], [(repetition.between 1 repetition.most).part]]
  else
    match repetition.separator with
    | .liberal symbol =>
        some [[(repetition.separatedBy (.proper symbol)).part],
          [(repetition.separatedBy (.trailing symbol)).part]]
    | .trailing symbol => some [[(repetition.separatedBy (.proper symbol)).part, .symbol symbol]]
    | .proper symbol => repetition.runs [symbol]
    | .absent => repetition.runs []

section Parts

variable (repetition : Repetition32) (count least : UInt32) (most : Option UInt32)

@[simp]
theorem part_between : (repetition.between least most).part =
    .nested (repetition.toRepetition.between least.toNat (most.map UInt32.toNat)) :=
  rfl

@[simp]
theorem part_exactly : (repetition.exactly count).part =
    .nested (repetition.toRepetition.exactly count.toNat) :=
  rfl

@[simp]
theorem part_leading_exactly : (repetition.exactly count).leading.part =
    .nested (repetition.toRepetition.exactly count.toNat).leading :=
  rfl

end Parts

section Alternatives

variable {repetition : Repetition32}

theorem least_eq_iff (count : UInt32) :
    repetition.toRepetition.least = count.toNat ↔ repetition.least = count :=
  UInt32.toNat_inj

theorem most_eq_iff (count : UInt32) :
    repetition.toRepetition.most = some count.toNat ↔ repetition.most = some count :=
  Option.map_eq_some_iff.trans ⟨fun ⟨_, found, same⟩ => UInt32.toNat_inj.mp same ▸ found,
    fun found => ⟨_, found, rfl⟩⟩

theorem exists_spread (valid : repetition.toRepetition.IsValid)
    (several : 2 ≤ repetition.least.toNat) :
    ∃ spread, repetition.spread = some spread ∧ spread.map UInt32.toNat =
      repetition.toRepetition.most.map (· - repetition.toRepetition.least + 1) := by
  unfold spread
  cases bounded : repetition.most with
  | none => exact ⟨none, rfl, by simp [toRepetition, bounded]⟩
  | some most =>
      have enough : repetition.least.toNat ≤ most.toNat :=
        valid most.toNat (congrArg (Option.map UInt32.toNat) bounded)
      have small := most.toNat_lt
      obtain ⟨more, made, difference⟩ := exists_difference32 most repetition.least enough
      obtain ⟨spread, added, sum⟩ := exists_sum32 more 1 (by
        rw [difference, UInt32.toNat_one, UInt32.size]
        omega)
      rw [difference, UInt32.toNat_one] at sum
      refine ⟨some spread, ?_, by simp [toRepetition, bounded, sum]⟩
      simp [made, added]

theorem runs_toRepetition (valid : repetition.toRepetition.IsValid)
    (positive : repetition.toRepetition.least ≠ 0) (glue : List Symbol) :
    repetition.runs glue = some (repetition.toRepetition.runs glue) := by
  have one : repetition.toRepetition.least = 1 ↔ repetition.least = 1 := least_eq_iff 1
  have two : repetition.toRepetition.least = 2 ↔ repetition.least = 2 := least_eq_iff 2
  have fixed : repetition.toRepetition.most = some repetition.toRepetition.least ↔
      repetition.most = some repetition.least := most_eq_iff _
  unfold Repetition.runs runs
  simp only [one, two, fixed]
  split
  · obtain ⟨item, least, most, separator⟩ := repetition
    cases most with
    | none => rfl
    | some most =>
        have few : most.toNat ≤ 1 ↔ most ≤ 1 := (UInt32.le_iff_toNat_le (b := 1)).symm
        have two : most.toNat = 2 ↔ most = 2 := UInt32.toNat_inj (b := 2)
        have bounded : (⟨item, least, some most, separator⟩ : Repetition32).toRepetition.most =
          some most.toNat := rfl
        simp only [bounded, few, two]
        split
        · rfl
        · rename_i many
          split
          · rfl
          · have several : 2 ≤ most.toNat := Nat.lt_of_not_le (mt few.mp many)
            obtain ⟨half, made, exact⟩ := exists_halfPower32 several
            obtain ⟨rest, left, difference⟩ := exists_difference32 most half
              (exact ▸ (halfPower_lt several).le)
            rw [exact] at difference
            simp only [part_between, part_leading_exactly, made, left, Option.bind_eq_bind,
              Option.bind_some, Option.map_some, exact, difference]
            rfl
  · rename_i more
    have several : 2 ≤ repetition.least.toNat := by
      have different := mt one.mp more
      change repetition.least.toNat ≠ 1 at different
      change repetition.least.toNat ≠ 0 at positive
      omega
    split
    · split
      · rfl
      · obtain ⟨half, made, exact⟩ := exists_halfPower32 several
        obtain ⟨rest, left, difference⟩ := exists_difference32 repetition.least half
          (exact ▸ (halfPower_lt several).le)
        rw [exact] at difference
        simp only [part_exactly, part_leading_exactly, made, left, Option.bind_eq_bind,
          Option.bind_some, exact, difference]
        rfl
    · obtain ⟨start, made, exact⟩ := exists_difference32 repetition.least 1
        (Nat.one_le_of_lt several)
      obtain ⟨spread, opened, same⟩ := exists_spread valid several
      rw [UInt32.toNat_one] at exact
      simp only [part_between, part_leading_exactly, made, opened, Option.bind_eq_bind,
        Option.bind_some, exact, same]
      rfl

/-- The alternatives of a repetition that is possible are written without leaving the 32 bits. -/
theorem alternatives_toRepetition (valid : repetition.toRepetition.IsValid) :
    repetition.alternatives = some repetition.toRepetition.alternatives := by
  have zero : repetition.toRepetition.least = 0 ↔ repetition.least = 0 := least_eq_iff 0
  have none : repetition.toRepetition.most = none ↔ repetition.most = none :=
    Option.map_eq_none_iff
  have nothing : repetition.toRepetition.most = some 0 ↔ repetition.most = some 0 := most_eq_iff 0
  have same : repetition.toRepetition.separator = repetition.separator := rfl
  unfold Repetition.alternatives alternatives
  simp only [zero, none, nothing, same]
  split
  · split
    · rfl
    · split <;> rfl
  · rename_i positive
    have runs := runs_toRepetition valid (mt zero.mp positive)
    cases repetition.separator with
    | absent => exact runs []
    | proper symbol => exact runs [symbol]
    | trailing symbol => rfl
    | liberal symbol => rfl

theorem exists_of_mem_runs {glue : List Symbol} {rows : List (List Part)} {row : List Part}
    {child : Repetition} (written : repetition.runs glue = some rows) (member : row ∈ rows)
    (nested : .nested child ∈ row) : ∃ other : Repetition32, other.toRepetition = child := by
  simp only [runs, Option.bind_eq_bind, Option.pure_def] at written
  (repeat' split at written) <;> grind [part, Option.bind_eq_some_iff]

theorem exists_of_mem_alternatives {rows : List (List Part)} {row : List Part} {child : Repetition}
    (written : repetition.alternatives = some rows) (member : row ∈ rows)
    (nested : .nested child ∈ row) : ∃ other : Repetition32, other.toRepetition = child := by
  unfold alternatives at written
  split at written
  · (repeat' split at written) <;> grind [part]
  · split at written
    · grind [part]
    · grind [part]
    · exact exists_of_mem_runs written member nested
    · exact exists_of_mem_runs written member nested

theorem exists_of_isChild {child : Repetition} (valid : repetition.toRepetition.IsValid)
    (mentioned : child.IsChild repetition.toRepetition) :
    ∃ other : Repetition32, other.toRepetition = child := by
  obtain ⟨row, inRows, inside⟩ := List.mem_flatMap.mp mentioned
  obtain ⟨part, inRow, found⟩ := List.mem_filterMap.mp inside
  cases part with
  | nested nested =>
      obtain rfl := Option.some.inj found
      exact exists_of_mem_alternatives (alternatives_toRepetition valid) inRows inRow
  | symbol symbol => cases found
  | self => cases found

theorem exists_of_isDescendant {other : Repetition} (valid : repetition.toRepetition.IsValid)
    (descends : other.IsDescendant repetition.toRepetition) :
    ∃ fixed : Repetition32, fixed.toRepetition = other := by
  induction descends using Relation.TransGen.head_induction_on with
  | single mentioned => exact exists_of_isChild valid mentioned
  | head mentioned later induction =>
      obtain ⟨parent, rfl⟩ := induction
      exact exists_of_isChild (Repetition.isPartOf_of_isDescendant valid later).valid mentioned

/-- All repetitions that come up have bounds of 32 bits, and are written without leaving these. -/
theorem exists_alternatives_eq_some {part : Repetition} (valid : repetition.toRepetition.IsValid)
    (comes : part = repetition.toRepetition ∨ part.IsDescendant repetition.toRepetition) :
    ∃ fixed : Repetition32, fixed.toRepetition = part ∧
      fixed.alternatives = some part.alternatives := by
  rcases comes with rfl | descends
  · exact ⟨repetition, rfl, alternatives_toRepetition valid⟩
  · obtain ⟨fixed, rfl⟩ := exists_of_isDescendant valid descends
    have partValid := (Repetition.isPartOf_of_isDescendant valid descends).valid
    exact ⟨fixed, rfl, alternatives_toRepetition partValid⟩

end Alternatives

end Repetition32

end TracedGrammar
