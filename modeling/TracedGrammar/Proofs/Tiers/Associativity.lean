import TracedGrammar.Proofs.Tiers.Trees

/-!
# Associativity in tiers

An alternative that associates to one side may have an alternative of its own tier on top of the
operand on that side.  On top of its other operands there are only alternatives of tighter tiers,
except in the tightest tier.  There is nothing tighter for the operands there, so they are of the
same tier, and the associativity is not honoured.
-/

namespace TracedGrammar

namespace Forest

variable {H : Type} {rules : List (Rule H)}

/-- All nodes, each with the forest below it. -/
def nodes : Forest → List (Nat × Forest)
  | .nil => []
  | .leaf _ rest => rest.nodes
  | .node index below rest => (index, below) :: (below.nodes ++ rest.nodes)

/-- What comes after some number of trees. -/
def skip : Nat → Forest → Forest
  | 0, forest => forest
  | _ + 1, .nil => .nil
  | count + 1, .leaf _ rest => rest.skip count
  | count + 1, .node _ _ rest => rest.skip count

/-- The first of the nodes from the root of the first tree down that is kept, with its new index. -/
def topmost (origin : Nat → Option Nat) : Forest → Option Nat
  | .nil => none
  | .leaf _ _ => none
  | .node index below _ =>
      match origin index with
      | some original => some original
      | none => below.topmost origin

theorem Fits.exists_of_mem_nodes {forest below : Forest} {word : List Symbol} {index : Nat}
    (fits : Fits rules forest word) (member : (index, below) ∈ forest.nodes) :
    ∃ rule, rules[index]? = some rule ∧ Fits rules below rule.rhs := by
  induction fits with
  | nil => cases member
  | leaf _ _ induction => exact induction member
  | node found under _ belowInduction restInduction =>
      rw [nodes, List.mem_cons, List.mem_append] at member
      rcases member with here | inside | later
      · obtain ⟨rfl, rfl⟩ := Prod.mk.inj here
        exact ⟨_, found, under⟩
      · exact belowInduction inside
      · exact restInduction later

theorem Fits.skip {forest : Forest} {word : List Symbol} (fits : Fits rules forest word)
    (count : Nat) : Fits rules (forest.skip count) (word.drop count) := by
  induction count generalizing forest word with
  | zero => exact fits
  | succ count induction =>
      cases fits with
      | nil => exact .nil
      | leaf _ later => exact induction later
      | node _ _ later => exact induction later

end Forest

namespace TierBuilder

variable {H : Type} [RuleHistory H]

/-- The operand at a place is not the one on the side of the associativity. -/
def Alternative.IsOffSide (alternative : Alternative) (lhs : Symbol) (place : Nat) : Prop :=
  alternative.rhs[place]? = some lhs ∧
    match alternative.associativity with
    | .left => lhs ∈ alternative.rhs.take place
    | .right => lhs ∈ alternative.rhs.drop (place + 1)
    | .group => False

/-- Somewhere in a forest, an alternative has another one on top of an operand that is not on the
side of its associativity. -/
def HasOffSide (outline : Outline) (before : Nat) (lhs : Symbol) (forest : Forest)
    (alternative other : Alternative) : Prop :=
  ∃ (index number place otherNumber : Nat) (below : Forest),
    (index, below) ∈ forest.nodes ∧ outline.origin before index = some number ∧
      outline.alternatives[number]? = some alternative ∧ alternative.IsOffSide lhs place ∧
      (below.skip place).topmost (outline.origin before) = some otherNumber ∧
      outline.alternatives[otherNumber]? = some other

/-- Nowhere in a forest an alternative is of the same tier as one that it has on top of an operand
that is not on the side of its associativity. -/
def HonoursAssociativity (outline : Outline) (before : Nat) (lhs : Symbol) (forest : Forest) :
    Prop :=
  ∀ alternative other, HasOffSide outline before lhs forest alternative other →
    other.tier ≠ alternative.tier

theorem Alternative.most_of_isOffSide {alternative : Alternative} {lhs : Symbol} {place : Nat}
    (offSide : alternative.IsOffSide lhs place) :
    alternative.most lhs place = some (alternative.tier - 1) := by
  obtain ⟨_, side⟩ := offSide
  unfold most
  cases associates : alternative.associativity with
  | left =>
      rw [associates] at side
      simp only [if_pos side]
  | right =>
      rw [associates] at side
      simp only [if_pos side]
  | group =>
      rw [associates] at side
      exact side.elim

namespace LaidOut

variable {start result : Grammar H} {lhs : Symbol} {outline : Outline}
  (laidOut : LaidOut start lhs outline result) (separate : IsSeparate start result lhs outline)
include laidOut separate

/-- The alternative on top of a tree for a tier is of that tier or of a tighter one. -/
theorem tier_le_of_topmost {forest : Forest} {word : List Symbol} {tier number : Nat}
    {alternative : Alternative} (bound : tier ≤ outline.tier)
    (fits : forest.Fits result.rules (tierSymbol start.supply tier :: word))
    (top : forest.topmost (outline.origin start.rules.length) = some number)
    (atNumber : outline.alternatives[number]? = some alternative) : alternative.tier ≤ tier := by
  induction forest generalizing word tier with
  | nil => cases top
  | leaf => cases top
  | node index below rest belowInduction _ =>
      generalize known : tierSymbol start.supply tier = symbol at fits
      cases fits with
      | @node _ rule _ _ _ found under _ =>
          have expanded : IsInner start result lhs rule.lhs :=
            known ▸ laidOut.isInner_tierSymbol bound
          obtain ⟨role, isRole, plays⟩ := laidOut.exists_roleAt separate found expanded
          rw [Forest.topmost, origin_of_roleAt isRole] at top
          cases plays with
          | alternative same _ =>
              obtain rfl := Option.some.inj top
              obtain rfl := Option.some.inj (same.symm.trans atNumber)
              exact Nat.le_of_eq (tierSymbol_inj known).symm
          | link tighter =>
              obtain rfl := tierSymbol_inj known
              exact (belowInduction (Nat.le_of_succ_le bound) under top).trans (Nat.le_succ _)
          | top => exact absurd known (laidOut.ne_lhs separate bound)

theorem tier_le_of_hasOffSide {forest : Forest} {word : List Symbol}
    (fits : forest.Fits result.rules word) {alternative other : Alternative}
    (offSide : HasOffSide outline start.rules.length lhs forest alternative other) :
    other.tier ≤ alternative.tier - 1 := by
  obtain ⟨index, number, place, otherNumber, below, member, isOrigin, atNumber, isOffSide, top,
    atOther⟩ := offSide
  obtain ⟨rule, found, under⟩ := fits.exists_of_mem_nodes member
  obtain ⟨role, isRole, isNumber⟩ := Option.bind_eq_some_iff.mp isOrigin
  obtain rfl := Role.number?_eq_some_iff.mp isNumber
  cases laidOut.plays_of_roleAt isRole found with
  | alternative same _ =>
      obtain rfl := Option.some.inj (atNumber.symm.trans same)
      have tight := laidOut.complete.tier_le _ (List.mem_of_getElem? atNumber)
      have stands : ((alternative.slots lhs).map (Slot.symbol start.supply outline.tier))[place]? =
          some (tierSymbol start.supply (alternative.tier - 1)) := by
        rw [List.getElem?_map, Alternative.getElem?_slots, isOffSide.1,
          Alternative.most_of_isOffSide isOffSide]
        simp [Slot.symbol]
      have operand := under.skip place
      rw [List.drop_eq_getElem?_toList_append, stands] at operand
      exact laidOut.tier_le_of_topmost separate (by omega) operand top atOther

end LaidOut

/-- In successfully finished tiers, what is on top of an operand that is not on the side of the
associativity is of a tighter tier, unless the alternative is in the tightest tier.  There it is
always of the same tier. -/
theorem tier_eq_iff_of_hasOffSide {start : Grammar H} {lhs : Symbol} {calls : List (Call H)}
    {next : RuleBuilder H}
    (succeeds : ((TierBuilder.start start lhs).run calls).finalize.2 = .ok next)
    (separate : IsSeparate start next.grammar lhs (.ofCalls calls)) {forest : Forest}
    {word : List Symbol} (fits : forest.Fits next.grammar.rules word)
    {alternative other : Alternative}
    (offSide : HasOffSide (.ofCalls calls) start.rules.length lhs forest alternative other) :
    other.tier ≤ alternative.tier - 1 ∧ (other.tier = alternative.tier ↔ alternative.tier = 0) := by
  have tighter := (laidOut_of_finalize succeeds).tier_le_of_hasOffSide separate fits offSide
  refine ⟨tighter, ?_⟩
  omega

/-- A number that is added to another one, in a looser tier than the numbers. -/
def sumTree : Forest :=
  let number : Forest := .node 1 (.leaf ⟨1⟩ .nil) .nil
  .node 5 (.node 3 (.node 2 number (.leaf ⟨2⟩ number)) .nil) .nil

theorem sumTree_tier_eq_iff :
    ∃ next, ((TierBuilder.start bareExpressions ⟨0⟩).run sumCalls).finalize.2 = .ok next ∧
      IsSeparate bareExpressions next.grammar ⟨0⟩ (.ofCalls sumCalls) ∧
      sumTree.Fits next.grammar.rules [⟨0⟩] ∧
      ∃ alternative other, HasOffSide (.ofCalls sumCalls) 1 ⟨0⟩ sumTree alternative other ∧
        other.tier ≤ alternative.tier - 1 ∧
          (other.tier = alternative.tier ↔ alternative.tier = 0) := by
  obtain ⟨next, succeeds, fits⟩ : ∃ next : RuleBuilder History,
      ((TierBuilder.start bareExpressions ⟨0⟩).run sumCalls).finalize.2 = .ok next ∧
        sumTree.Fits next.grammar.rules [⟨0⟩] := ⟨_, rfl, by decide⟩
  have separate : IsSeparate bareExpressions next.grammar ⟨0⟩ (.ofCalls sumCalls) :=
    .of_mem (by decide) (by decide) (by decide)
  have offSide : HasOffSide (.ofCalls sumCalls) 1 ⟨0⟩ sumTree ⟨[⟨0⟩, ⟨2⟩, ⟨0⟩], 1, .left⟩
      ⟨[⟨1⟩], 0, .left⟩ :=
    ⟨3, 2, 2, 0, _, .tail _ (.head _), rfl, rfl, ⟨rfl, by decide⟩, rfl, rfl⟩
  exact ⟨next, succeeds, separate, fits, _, _, offSide,
    tier_eq_iff_of_hasOffSide succeeds separate fits offSide⟩

/-- Numbers and sums in one tier. -/
def looseCalls : List (Call History) :=
  [.alternative [⟨1⟩], .alternative [⟨0⟩, ⟨2⟩, ⟨0⟩]]

/-- The first two of three numbers are added first. -/
def groupedLeft : Forest :=
  let number : Forest := .node 1 (.leaf ⟨1⟩ .nil) .nil
  .node 3 (.node 2 (.node 2 (number ++ .leaf ⟨2⟩ number) (.leaf ⟨2⟩ number)) .nil) .nil

/-- The last two of three numbers are added first. -/
def groupedRight : Forest :=
  let number : Forest := .node 1 (.leaf ⟨1⟩ .nil) .nil
  .node 3 (.node 2 (number ++ .leaf ⟨2⟩ (.node 2 (number ++ .leaf ⟨2⟩ number) .nil)) .nil) .nil

/-- Sums in the tightest tier associate to both sides. -/
theorem groupedRight_not_honoursAssociativity :
    ∃ next, ((TierBuilder.start bareExpressions ⟨0⟩).run looseCalls).finalize.2 = .ok next ∧
      IsSeparate bareExpressions next.grammar ⟨0⟩ (.ofCalls looseCalls) ∧
      groupedLeft.Fits next.grammar.rules [⟨0⟩] ∧ groupedRight.Fits next.grammar.rules [⟨0⟩] ∧
      groupedLeft.leaves = groupedRight.leaves ∧
      ¬HonoursAssociativity (.ofCalls looseCalls) 1 ⟨0⟩ groupedRight := by
  refine ⟨_, rfl, .of_mem (by decide) (by decide) (by decide), by decide, by decide, rfl, ?_⟩
  intro honours
  have offSide : HasOffSide (.ofCalls looseCalls) 1 ⟨0⟩ groupedRight ⟨[⟨0⟩, ⟨2⟩, ⟨0⟩], 0, .left⟩
      ⟨[⟨0⟩, ⟨2⟩, ⟨0⟩], 0, .left⟩ :=
    ⟨2, 1, 2, 1, _, .tail _ (.head _), rfl, rfl, ⟨rfl, by decide⟩, rfl, rfl⟩
  exact honours _ _ offSide rfl

end TierBuilder

end TracedGrammar
