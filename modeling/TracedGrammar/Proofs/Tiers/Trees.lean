import TracedGrammar.Proofs.History.Lawful
import TracedGrammar.Proofs.Tiers.Layout

/-!
# Derivation trees of tiers

In the derivation trees of the rules that a builder of tiers adds, the nodes of alternatives are
what counts.  When the nodes that lead from one tier to the next are taken out, what is left is a
flat tree over the alternatives, in which every operand is of a tier that its place admits, and every
flat tree is left by exactly one derivation tree.
-/

namespace TracedGrammar

namespace Forest

variable {H : Type} {rules : List (Rule H)} {inner : Symbol → Prop}

/-- A forest fits a word, with the symbols expanded that have a property, and no others. -/
inductive Expands (rules : List (Rule H)) (inner : Symbol → Prop) : Forest → List Symbol → Prop
  | nil : Expands rules inner .nil []
  | leaf {symbol : Symbol} {rest : Forest} {word : List Symbol} (outer : ¬inner symbol)
      (later : Expands rules inner rest word) :
      Expands rules inner (.leaf symbol rest) (symbol :: word)
  | node {index : Nat} {rule : Rule H} {below rest : Forest} {word : List Symbol}
      (found : rules[index]? = some rule) (expanded : inner rule.lhs)
      (under : Expands rules inner below rule.rhs) (later : Expands rules inner rest word) :
      Expands rules inner (.node index below rest) (rule.lhs :: word)

theorem expands_iff {forest : Forest} {word : List Symbol} : forest.Expands rules inner word ↔
    forest.Fits rules word ∧ (∀ symbol ∈ forest.leaves, ¬inner symbol) ∧
      ∀ index ∈ forest.applied, ∀ rule, rules[index]? = some rule → inner rule.lhs := by
  constructor
  · intro expands
    induction expands with
    | nil => exact ⟨.nil, by simp [leaves], by simp [applied]⟩
    | leaf outer _ induction =>
        obtain ⟨fits, outside, inside⟩ := induction
        exact ⟨.leaf _ fits, List.forall_mem_cons.mpr ⟨outer, outside⟩, inside⟩
    | @node index rule below rest word found expanded _ _ belowInduction restInduction =>
        obtain ⟨under, underOutside, underInside⟩ := belowInduction
        obtain ⟨later, laterOutside, laterInside⟩ := restInduction
        refine ⟨.node found under later, ?_, ?_⟩
        · exact List.forall_mem_append.mpr ⟨underOutside, laterOutside⟩
        · refine List.forall_mem_cons.mpr ⟨fun other same => ?_, ?_⟩
          · rwa [← Option.some.inj (found.symm.trans same)]
          · exact List.forall_mem_append.mpr ⟨underInside, laterInside⟩
  · rintro ⟨fits, outside, inside⟩
    induction fits with
    | nil => exact .nil
    | leaf symbol _ induction =>
        rw [leaves, List.forall_mem_cons] at outside
        exact .leaf outside.1 (induction outside.2 inside)
    | node found _ _ belowInduction restInduction =>
        rw [leaves, List.forall_mem_append] at outside
        rw [applied, List.forall_mem_cons, List.forall_mem_append] at inside
        exact .node found (inside.1 _ found) (belowInduction outside.1 inside.2.1)
          (restInduction outside.2 inside.2.2)

theorem Expands.append {first second : Forest} {left right : List Symbol}
    (former : Expands rules inner first left) (latter : Expands rules inner second right) :
    Expands rules inner (first ++ second) (left ++ right) := by
  induction former with
  | nil => exact latter
  | leaf outer _ induction => exact .leaf outer induction
  | node found expanded under _ _ induction => exact .node found expanded under induction

end Forest

namespace TierBuilder

open Forest (contract_node_of_some contract_node_of_none)

variable {H : Type} [RuleHistory H]

/-- The symbols that are only there for the tiers: their left-hand side and what their builder took. -/
def IsInner (start result : Grammar H) (lhs symbol : Symbol) : Prop :=
  symbol = lhs ∨ symbol ∈ start.supply.since result.supply

/-- The derivation trees of a word from the left-hand side of tiers, with all symbols expanded that
are only there for the tiers, and all others left as leaves. -/
def trees (start result : Grammar H) (lhs : Symbol) (word : List Symbol) : Set Forest :=
  {forest | forest.Expands result.rules (IsInner start result lhs) [lhs] ∧ forest.leaves = word}

/-- The flat trees of a word over alternatives. -/
def flatTrees (lhs : Symbol) (alternatives : List Alternative) (word : List Symbol) : Set Forest :=
  {forest | IsFlat lhs alternatives forest [.operand none] ∧ forest.leaves = word}

/-- The tiers keep to themselves.  No rule from before defines a symbol that is only there for them,
and the symbols that their builder took occur in none of the alternatives. -/
structure IsSeparate (start result : Grammar H) (lhs : Symbol) (outline : Outline) : Prop where
  lhs_not_mem : lhs ∉ start.supply.since result.supply
  rules_outer : ∀ rule ∈ start.rules, ¬IsInner start result lhs rule.lhs
  rhs_not_mem : ∀ alternative ∈ outline.alternatives, ∀ symbol ∈ alternative.rhs,
    symbol ∉ start.supply.since result.supply

omit [RuleHistory H] in
/-- Tiers are separate if all that they are written with was there before, and their left-hand side
has no other rules. -/
theorem IsSeparate.of_mem {start result : Grammar H} {lhs : Symbol} {outline : Outline}
    (lhsOld : lhs ∈ start.supply)
    (rulesOld : ∀ rule ∈ start.rules, rule.lhs ∈ start.supply ∧ rule.lhs ≠ lhs)
    (rhsOld : ∀ alternative ∈ outline.alternatives, ∀ symbol ∈ alternative.rhs,
      symbol ∈ start.supply) :
    IsSeparate start result lhs outline where
  lhs_not_mem := fun new => (SymbolSupply.mem_since_iff.mp new).1 lhsOld
  rules_outer := by
    rintro rule member (same | new)
    · exact (rulesOld rule member).2 same
    · exact (SymbolSupply.mem_since_iff.mp new).1 (rulesOld rule member).1
  rhs_not_mem := fun alternative member symbol inRhs new =>
    (SymbolSupply.mem_since_iff.mp new).1 (rhsOld alternative member symbol inRhs)

/-- The loosest tier that a symbol can be expanded to. -/
def reach (supply : SymbolSupply) (lhs : Symbol) (loosest : Nat) (symbol : Symbol) : Nat :=
  if symbol = lhs then loosest else symbol.id - supply.allocated

@[simp]
theorem reach_lhs (supply : SymbolSupply) (lhs : Symbol) (loosest : Nat) :
    reach supply lhs loosest lhs = loosest :=
  if_pos rfl

/-- A symbol stands at a slot, with the tier that it reaches in some relation to the bound. -/
inductive Stands (start result : Grammar H) (lhs : Symbol) (loosest : Nat)
    (allows : Nat → Option Nat → Prop) : Symbol → Slot → Prop
  | leaf {symbol : Symbol} (outer : ¬IsInner start result lhs symbol) :
      Stands start result lhs loosest allows symbol (.leaf symbol)
  | operand {symbol : Symbol} {most : Option Nat} (expanded : IsInner start result lhs symbol)
      (allowed : allows (reach start.supply lhs loosest symbol) most) :
      Stands start result lhs loosest allows symbol (.operand most)

/-- A bound admits all that can be reached. -/
def Within (tier : Nat) (most : Option Nat) : Prop :=
  ∀ bound ∈ most, tier ≤ bound

/-- All that a bound admits can be reached. -/
def Exhausts (loosest tier : Nat) (most : Option Nat) : Prop :=
  ∀ other ≤ loosest, Within other most → other ≤ tier

omit [RuleHistory H] in
theorem exists_stands (start result : Grammar H) (lhs : Symbol) (loosest : Nat)
    (word : List Symbol) :
    ∃ slots, List.Forall₂ (Stands start result lhs loosest Within) word slots := by
  induction word with
  | nil => exact ⟨[], .nil⟩
  | cons symbol word induction =>
      obtain ⟨slots, stands⟩ := induction
      by_cases expanded : IsInner start result lhs symbol
      · exact ⟨.operand none :: slots, .cons (.operand expanded (by simp [Within])) stands⟩
      · exact ⟨.leaf symbol :: slots, .cons (.leaf expanded) stands⟩

namespace LaidOut

variable {start result : Grammar H} {lhs : Symbol} {outline : Outline} {index : Nat} {role : Role}

omit [RuleHistory H] in
theorem origin_of_roleAt (isRole : outline.roleAt start.rules.length index = some role) :
    outline.origin start.rules.length index = role.number? := by
  rw [Outline.origin, isRole]
  rfl

variable (laidOut : LaidOut start lhs outline result)
include laidOut

theorem isInner_tierSymbol {tier : Nat} (bound : tier ≤ outline.tier) :
    IsInner start result lhs (tierSymbol start.supply tier) :=
  .inr (laidOut.mem_since_iff.mpr ⟨tier, bound, rfl⟩)

theorem tier_lt_of_roleAt {tighter : Nat}
    (isRole : outline.roleAt start.rules.length index = some (.link tighter)) :
    tighter < outline.tier := by
  have member := List.mem_of_getElem? (Outline.roleAt_eq_some_iff.mp isRole).2
  simpa [Outline.mem_finalRoles_iff laidOut.complete] using member

/-- From any tier the links lead down to every tighter one. -/
theorem exists_climb {forest : Forest} {tier high : Nat} (looser : tier ≤ high)
    (bound : high ≤ outline.tier) (expands : forest.Expands result.rules
      (IsInner start result lhs) [tierSymbol start.supply tier]) :
    ∃ longer : Forest, longer.Expands result.rules (IsInner start result lhs)
        [tierSymbol start.supply high] ∧
      longer.contract (outline.origin start.rules.length) =
        forest.contract (outline.origin start.rules.length) := by
  induction high, looser using Nat.le_induction with
  | base => exact ⟨forest, expands, rfl⟩
  | succ high looser induction =>
      obtain ⟨longer, climbed, same⟩ := induction (Nat.le_of_succ_le bound)
      have member : .link high ∈ outline.finalRoles :=
        (Outline.mem_finalRoles_iff laidOut.complete).mpr (.inr (.inl ⟨high, bound, rfl⟩))
      obtain ⟨index, rule, found, isRole, plays⟩ := laidOut.exists_rule member
      cases plays with
      | link =>
          refine ⟨.node index longer .nil, .node found ?_ climbed .nil, ?_⟩
          · exact laidOut.isInner_tierSymbol bound
          · rw [contract_node_of_none (origin_of_roleAt isRole), same]
            exact Forest.append_nil _

variable (separate : IsSeparate start result lhs outline)
include separate

theorem ne_lhs {tier : Nat} (bound : tier ≤ outline.tier) : tierSymbol start.supply tier ≠ lhs := by
  rintro rfl
  exact separate.lhs_not_mem (laidOut.mem_since_iff.mpr ⟨tier, bound, rfl⟩)

theorem reach_tierSymbol {tier : Nat} (bound : tier ≤ outline.tier) :
    reach start.supply lhs outline.tier (tierSymbol start.supply tier) = tier := by
  rw [reach, if_neg (laidOut.ne_lhs separate bound)]
  exact Nat.add_sub_cancel_left ..

/-- A rule for a symbol that is only there for the tiers has a role in them. -/
theorem exists_roleAt {rule : Rule H} (found : result.rules[index]? = some rule)
    (expanded : IsInner start result lhs rule.lhs) :
    ∃ role, outline.roleAt start.rules.length index = some role ∧
      Plays start.supply lhs outline.tier outline.alternatives role rule := by
  rcases laidOut.mem_or_exists_roleAt found with ⟨member, _⟩ | known
  · exact absurd expanded (separate.rules_outer rule member)
  · exact known

theorem stands_tierSymbol {allows : Nat → Option Nat → Prop} {tier : Nat} {most : Option Nat}
    (bound : tier ≤ outline.tier) (allowed : allows tier most) :
    Stands start result lhs outline.tier allows (tierSymbol start.supply tier) (.operand most) := by
  apply Stands.operand (laidOut.isInner_tierSymbol bound)
  rwa [laidOut.reach_tierSymbol separate bound]

/-- The symbols on the right-hand side of an alternative's rule stand at its slots. -/
theorem stands_slots {allows : Nat → Option Nat → Prop} (unbounded : allows outline.tier none)
    (bounded : ∀ bound, allows bound (some bound)) {alternative : Alternative}
    (member : alternative ∈ outline.alternatives) :
    List.Forall₂ (Stands start result lhs outline.tier allows)
      ((alternative.slots lhs).map (Slot.symbol start.supply outline.tier))
      (alternative.slots lhs) := by
  rw [List.forall₂_map_left_iff, List.forall₂_same]
  intro slot inSlots
  rcases Alternative.cases_of_mem_slots inSlots with ⟨symbol, inRhs, apart, rfl⟩ | ⟨place, rfl⟩
  · exact .leaf (not_or.mpr ⟨apart, separate.rhs_not_mem alternative member symbol inRhs⟩)
  · have tight := laidOut.complete.tier_le alternative member
    apply laidOut.stands_tierSymbol separate (Alternative.getD_most_le tight place)
    cases alternative.most lhs place with
    | none => exact unbounded
    | some bound => exact bounded bound

/-- What is left of a derivation tree is flat. -/
theorem isFlat_contract {forest : Forest} {word : List Symbol}
    (expands : forest.Expands result.rules (IsInner start result lhs) word) {slots : List Slot}
    (stands : List.Forall₂ (Stands start result lhs outline.tier Within) word slots) :
    IsFlat lhs outline.alternatives (forest.contract (outline.origin start.rules.length))
      slots := by
  induction expands generalizing slots with
  | nil =>
      cases stands
      exact .nil
  | leaf outer _ induction =>
      cases stands with
      | cons first rest =>
          cases first with
          | leaf => exact .leaf _ (induction rest)
          | operand expanded => exact absurd expanded outer
  | @node index rule below rest word found expanded _ _ belowInduction restInduction =>
      obtain ⟨role, isRole, plays⟩ := laidOut.exists_roleAt separate found expanded
      have origin := origin_of_roleAt isRole
      cases stands with
      | cons first rest =>
          have after := restInduction rest
          cases first with
          | leaf outer => exact absurd expanded outer
          | operand _ allowed =>
              cases plays with
              | @alternative number alternative given history atNumber assigned =>
                  have member := List.mem_of_getElem? atNumber
                  have tight := laidOut.complete.tier_le alternative member
                  rw [laidOut.reach_tierSymbol separate tight] at allowed
                  rw [contract_node_of_some origin]
                  refine .node atNumber allowed (belowInduction ?_) after
                  exact laidOut.stands_slots separate (by simp [Within]) (by simp [Within]) member
              | link tighter =>
                  have bound := laidOut.tier_lt_of_roleAt isRole
                  rw [laidOut.reach_tierSymbol separate bound] at allowed
                  rw [contract_node_of_none origin]
                  apply IsFlat.append (belowInduction (.cons ?_ .nil)) after
                  apply laidOut.stands_tierSymbol separate (Nat.le_of_lt bound)
                  exact fun other member => Nat.le_of_succ_le (allowed other member)
              | top =>
                  rw [reach_lhs] at allowed
                  rw [contract_node_of_none origin]
                  apply IsFlat.append (belowInduction (.cons ?_ .nil)) after
                  exact laidOut.stands_tierSymbol separate (Nat.le_refl _) allowed

/-- A symbol that is only there for the tiers can be expanded to every tier that it reaches. -/
theorem exists_reach {forest : Forest} {symbol : Symbol} {tier : Nat}
    (expanded : IsInner start result lhs symbol)
    (reached : tier ≤ reach start.supply lhs outline.tier symbol)
    (expands : forest.Expands result.rules (IsInner start result lhs)
      [tierSymbol start.supply tier]) :
    ∃ longer : Forest, longer.Expands result.rules (IsInner start result lhs) [symbol] ∧
      longer.contract (outline.origin start.rules.length) =
        forest.contract (outline.origin start.rules.length) := by
  rcases expanded with rfl | taken
  · rw [reach_lhs] at reached
    obtain ⟨longer, climbed, same⟩ :=
      laidOut.exists_climb reached (Nat.le_refl _) expands
    have member : .top ∈ outline.finalRoles :=
      (Outline.mem_finalRoles_iff laidOut.complete).mpr (.inr (.inr rfl))
    obtain ⟨index, rule, found, isRole, plays⟩ := laidOut.exists_rule member
    cases plays with
    | top =>
        refine ⟨.node index longer .nil, .node found (.inl rfl) climbed .nil, ?_⟩
        rw [contract_node_of_none (origin_of_roleAt isRole), same]
        exact Forest.append_nil _
  · obtain ⟨high, bound, rfl⟩ := laidOut.mem_since_iff.mp taken
    rw [laidOut.reach_tierSymbol separate bound] at reached
    exact laidOut.exists_climb reached bound expands

/-- Every flat tree is what is left of a derivation tree. -/
theorem exists_contract_eq {forest : Forest} {slots : List Slot}
    (flat : IsFlat lhs outline.alternatives forest slots) {word : List Symbol}
    (stands : List.Forall₂ (Stands start result lhs outline.tier (Exhausts outline.tier)) word
      slots) :
    ∃ longer : Forest, longer.Expands result.rules (IsInner start result lhs) word ∧
      longer.contract (outline.origin start.rules.length) = forest := by
  induction flat generalizing word with
  | nil =>
      cases stands
      exact ⟨.nil, .nil, rfl⟩
  | leaf symbol _ induction =>
      cases stands with
      | cons first rest =>
          cases first with
          | leaf outer =>
              obtain ⟨longer, expands, rfl⟩ := induction rest
              exact ⟨.leaf symbol longer, .leaf outer expands, rfl⟩
  | @node number alternative most below rest slots atNumber admitted _ _ belowInduction
      restInduction =>
      have inOutline := List.mem_of_getElem? atNumber
      have tight := laidOut.complete.tier_le _ inOutline
      cases stands with
      | cons first others =>
          cases first with
          | operand expanded exhausts =>
              obtain ⟨later, fitsLater, rfl⟩ := restInduction others
              obtain ⟨under, fitsUnder, rfl⟩ := belowInduction (laidOut.stands_slots separate
                (fun _ bound _ => bound) (fun _ _ _ within => within _ rfl) inOutline)
              have member : .alternative number ∈ outline.finalRoles :=
                (Outline.mem_finalRoles_iff laidOut.complete).mpr
                  (.inl ⟨number, (List.getElem?_eq_some_iff.mp atNumber).1, rfl⟩)
              obtain ⟨index, rule, found, isRole, plays⟩ := laidOut.exists_rule member
              cases plays with
              | alternative same _ =>
                  obtain rfl := Option.some.inj (atNumber.symm.trans same)
                  obtain ⟨longer, climbed, left⟩ := laidOut.exists_reach separate expanded
                    (exhausts _ tight admitted)
                    (.node found (laidOut.isInner_tierSymbol tight) fitsUnder .nil)
                  refine ⟨longer ++ later, climbed.append fitsLater, ?_⟩
                  rw [Forest.contract_append, left, contract_node_of_some (origin_of_roleAt isRole)]
                  rfl

theorem width_contract {forest : Forest} {word : List Symbol}
    (expands : forest.Expands result.rules (IsInner start result lhs) word) :
    (forest.contract (outline.origin start.rules.length)).width = word.length := by
  obtain ⟨slots, stands⟩ := exists_stands start result lhs outline.tier word
  rw [(laidOut.isFlat_contract separate expands stands).width_eq, stands.length_eq]

section SameSymbol

variable {other : Nat} {otherRole : Role} {rule otherRule : Rule H}
  (isRole : outline.roleAt start.rules.length index = some role)
  (isOther : outline.roleAt start.rules.length other = some otherRole)
  (plays : Plays start.supply lhs outline.tier outline.alternatives role rule)
  (otherPlays : Plays start.supply lhs outline.tier outline.alternatives otherRole otherRule)
  (same : rule.lhs = otherRule.lhs)
include isRole isOther plays otherPlays same

/-- Apart from alternatives, a symbol that is only there for the tiers has one rule. -/
theorem role_eq_of_lhs_eq (gone : role.number? = none) (otherGone : otherRole.number? = none) :
    role = otherRole := by
  cases plays with
  | alternative => cases gone
  | link tighter =>
      cases otherPlays with
      | alternative => cases otherGone
      | link other => rw [Nat.succ.inj (tierSymbol_inj same)]
      | top => exact absurd same (laidOut.ne_lhs separate (laidOut.tier_lt_of_roleAt isRole))
  | top =>
      cases otherPlays with
      | alternative => cases otherGone
      | link tighter =>
          exact absurd same.symm (laidOut.ne_lhs separate (laidOut.tier_lt_of_roleAt isOther))
      | top => rfl

omit isRole in
/-- What is left of a tree below the link of a tier is not a tree of an alternative of that tier. -/
theorem contract_ne_of_lhs_eq {number : Nat} (kept : role.number? = some number)
    (otherGone : otherRole.number? = none) {below : Forest}
    (expands : below.Expands result.rules (IsInner start result lhs) otherRule.rhs)
    (others under rest : Forest) :
    below.contract (outline.origin start.rules.length) ++ others ≠ .node number under rest := by
  cases plays with
  | link => cases kept
  | top => cases kept
  | @alternative _ alternative _ _ atNumber _ =>
      obtain rfl := Option.some.inj kept
      have tight := laidOut.complete.tier_le _ (List.mem_of_getElem? atNumber)
      cases otherPlays with
      | alternative => cases otherGone
      | top => exact absurd same (laidOut.ne_lhs separate tight)
      | link tighter =>
          -- Below the link there is only room for a tighter tier than that of the alternative.
          intro joined
          have looser : alternative.tier = tighter + 1 := tierSymbol_inj same
          have bound := Nat.le_of_lt (laidOut.tier_lt_of_roleAt isOther)
          have within : Within tighter (some tighter) := by simp [Within]
          have flat := laidOut.isFlat_contract separate expands
            (.cons (laidOut.stands_tierSymbol separate bound within) .nil)
          generalize below.contract (outline.origin start.rules.length) = left at flat joined
          cases flat with
          | node found admitted _ _ =>
              obtain ⟨rfl, _, _⟩ := Forest.node.inj joined
              obtain rfl := Option.some.inj (found.symm.trans atNumber)
              have := admitted tighter rfl
              omega

/-- When what is left of two trees for the same symbol is the same, both begin in the same role. -/
theorem role_eq_of_contract_eq {below rest otherBelow otherRest : Forest}
    (under : below.Expands result.rules (IsInner start result lhs) rule.rhs)
    (otherUnder : otherBelow.Expands result.rules (IsInner start result lhs) otherRule.rhs)
    (left : (Forest.node index below rest).contract (outline.origin start.rules.length) =
      (Forest.node other otherBelow otherRest).contract (outline.origin start.rules.length)) :
    role = otherRole := by
  have origin := origin_of_roleAt isRole
  have otherOrigin := origin_of_roleAt isOther
  cases kept : role.number? with
  | some number =>
      rw [contract_node_of_some (origin.trans kept)] at left
      cases otherKept : otherRole.number? with
      | some otherNumber =>
          rw [contract_node_of_some (otherOrigin.trans otherKept)] at left
          obtain ⟨rfl, _, _⟩ := Forest.node.inj left
          rw [Role.number?_eq_some_iff.mp kept, Role.number?_eq_some_iff.mp otherKept]
      | none =>
          rw [contract_node_of_none (otherOrigin.trans otherKept)] at left
          exact absurd left.symm (laidOut.contract_ne_of_lhs_eq separate isOther plays otherPlays
            same kept otherKept otherUnder _ _ _)
  | none =>
      cases otherKept : otherRole.number? with
      | some otherNumber =>
          rw [contract_node_of_none (origin.trans kept),
            contract_node_of_some (otherOrigin.trans otherKept)] at left
          exact absurd left (laidOut.contract_ne_of_lhs_eq separate isRole otherPlays plays
            same.symm otherKept kept under _ _ _)
      | none =>
          exact laidOut.role_eq_of_lhs_eq separate isRole isOther plays otherPlays same kept
            otherKept

end SameSymbol

/-- Different derivation trees leave different flat trees. -/
theorem eq_of_contract_eq {first second : Forest} {word : List Symbol}
    (former : first.Expands result.rules (IsInner start result lhs) word)
    (latter : second.Expands result.rules (IsInner start result lhs) word)
    (same : first.contract (outline.origin start.rules.length) =
      second.contract (outline.origin start.rules.length)) : first = second := by
  induction former generalizing second with
  | nil =>
      cases latter
      rfl
  | leaf outer _ induction =>
      cases latter with
      | leaf _ later => rw [induction later (Forest.leaf.inj same).2]
      | node _ expanded _ _ => exact absurd expanded outer
  | @node index rule below rest word found expanded under later belowInduction restInduction =>
      generalize lhs_eq : rule.lhs = symbol at latter
      cases latter with
      | leaf outer _ => exact absurd (lhs_eq ▸ expanded) outer
      | node otherFound otherExpanded otherUnder otherLater =>
          obtain ⟨role, isRole, plays⟩ := laidOut.exists_roleAt separate found expanded
          obtain ⟨otherRole, isOther, otherPlays⟩ :=
            laidOut.exists_roleAt separate otherFound otherExpanded
          obtain rfl := laidOut.role_eq_of_contract_eq separate isRole isOther plays otherPlays
            lhs_eq under otherUnder same
          obtain rfl := Outline.index_eq_of_roleAt laidOut.complete isRole isOther
          obtain rfl := Option.some.inj (found.symm.trans otherFound)
          have width := laidOut.width_contract separate under
          have otherWidth := laidOut.width_contract separate otherUnder
          obtain ⟨sameBelow, sameRest⟩ :=
            Forest.contract_node_inj (width.trans otherWidth.symm) same
          rw [belowInduction otherUnder sameBelow, restInduction otherLater sameRest]

theorem contract_bijOn (word : List Symbol) :
    Set.BijOn (Forest.contract (outline.origin start.rules.length)) (trees start result lhs word)
      (flatTrees lhs outline.alternatives word) := by
  have inner : IsInner start result lhs lhs := .inl rfl
  refine ⟨?mapsTo, ?injOn, ?surjOn⟩
  case mapsTo =>
    rintro forest ⟨expands, rfl⟩
    refine ⟨?_, Forest.leaves_contract forest⟩
    exact laidOut.isFlat_contract separate expands
      (.cons (.operand inner (by simp [Within])) .nil)
  case injOn =>
    rintro first ⟨former, _⟩ second ⟨latter, _⟩ same
    exact laidOut.eq_of_contract_eq separate former latter same
  case surjOn =>
    rintro forest ⟨flat, rfl⟩
    have exhausts : Exhausts outline.tier (reach start.supply lhs outline.tier lhs) none := by
      rw [reach_lhs]
      exact fun _ bound _ => bound
    obtain ⟨longer, expands, rfl⟩ :=
      laidOut.exists_contract_eq separate flat (.cons (.operand inner exhausts) .nil)
    exact ⟨longer, ⟨expands, (Forest.leaves_contract longer).symm⟩, rfl⟩

omit separate in
/-- The rule of an alternative has a history on which the precedence of the alternative was set. -/
theorem exists_setPrecedence {number : Nat} {rule : Rule H}
    (found : result.rules[index]? = some rule)
    (isOrigin : outline.origin start.rules.length index = some number) :
    ∃ alternative given, outline.alternatives[number]? = some alternative ∧
      RuleHistory.setPrecedence given alternative.precedence = .ok rule.history := by
  obtain ⟨role, isRole, isNumber⟩ := Option.bind_eq_some_iff.mp isOrigin
  obtain rfl := Role.number?_eq_some_iff.mp isNumber
  cases laidOut.plays_of_roleAt isRole found with
  | alternative atNumber assigned => exact ⟨_, _, atNumber, assigned⟩

end LaidOut

/-- Finished tiers have the derivation trees of their left-hand side in one-to-one correspondence
with the flat trees over the alternatives, for every word.  To get there, the nodes that lead from
one tier to another are taken out, and the nodes of alternatives get the numbers of the alternatives,
whose tiers and associativity are in the histories of the rules. -/
theorem contract_bijOn_flatTrees {start : Grammar History} {lhs : Symbol}
    {calls : List (Call History)} {next : RuleBuilder History}
    (succeeds : ((TierBuilder.start start lhs).run calls).finalize.2 = .ok next)
    (separate : IsSeparate start next.grammar lhs (.ofCalls calls)) (word : List Symbol) :
    Set.BijOn (Forest.contract ((Outline.ofCalls calls).origin start.rules.length))
        (trees start next.grammar lhs word)
        (flatTrees lhs (Outline.ofCalls calls).alternatives word) ∧
      ∀ (index number : Nat) (rule : Rule History), next.grammar.rules[index]? = some rule →
        (Outline.ofCalls calls).origin start.rules.length index = some number →
          ∃ alternative, (Outline.ofCalls calls).alternatives[number]? = some alternative ∧
            rule.history.precedence = some ⟨alternative.tier, alternative.associativity⟩ := by
  have laidOut := laidOut_of_finalize succeeds
  refine ⟨laidOut.contract_bijOn separate word, fun index number rule found isOrigin => ?_⟩
  obtain ⟨alternative, given, atNumber, assigned⟩ := laidOut.exists_setPrecedence found isOrigin
  refine ⟨alternative, atNumber, ?_⟩
  rw [(History.setPrecedence_eq_ok_iff.mp assigned).1]
  rfl

/-- A grammar whose start symbol stands for expressions that have no rules yet. -/
def bareExpressions : Grammar History :=
  { supply := ⟨6⟩
    rules := [⟨⟨5⟩, [⟨0⟩], {}⟩] }

/-- Numbers and brackets, and then sums, which associate to the left. -/
def sumCalls : List (Call History) :=
  [.alternative [⟨1⟩], .associate .group, .alternative [⟨3⟩, ⟨0⟩, ⟨4⟩], .lower,
    .alternative [⟨0⟩, ⟨2⟩, ⟨0⟩]]

theorem sumCalls_contract_bijOn :
    ∃ next, ((TierBuilder.start bareExpressions ⟨0⟩).run sumCalls).finalize.2 = .ok next ∧
      IsSeparate bareExpressions next.grammar ⟨0⟩ (.ofCalls sumCalls) ∧
      Set.BijOn (Forest.contract ((Outline.ofCalls sumCalls).origin bareExpressions.rules.length))
          (trees bareExpressions next.grammar ⟨0⟩ [⟨1⟩, ⟨2⟩, ⟨3⟩, ⟨1⟩, ⟨4⟩])
          (flatTrees ⟨0⟩ (Outline.ofCalls sumCalls).alternatives [⟨1⟩, ⟨2⟩, ⟨3⟩, ⟨1⟩, ⟨4⟩]) ∧
        ∀ (index number : Nat) (rule : Rule History), next.grammar.rules[index]? = some rule →
          (Outline.ofCalls sumCalls).origin bareExpressions.rules.length index = some number →
            ∃ alternative, (Outline.ofCalls sumCalls).alternatives[number]? = some alternative ∧
              rule.history.precedence = some ⟨alternative.tier, alternative.associativity⟩ := by
  obtain ⟨next, succeeds⟩ : ∃ next,
      ((TierBuilder.start bareExpressions ⟨0⟩).run sumCalls).finalize.2 = .ok next := ⟨_, rfl⟩
  have separate : IsSeparate bareExpressions next.grammar ⟨0⟩ (.ofCalls sumCalls) :=
    .of_mem (by decide) (by decide) (by decide)
  exact ⟨next, succeeds, separate, contract_bijOn_flatTrees succeeds separate _⟩

end TierBuilder

end TracedGrammar
