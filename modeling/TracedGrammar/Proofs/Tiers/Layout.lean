import TracedGrammar.Proofs.Lists
import TracedGrammar.Proofs.Symbol.Allocation
import TracedGrammar.Proofs.Tiers.Outline

/-!
# Rules of tiers

A builder of tiers takes one new symbol for each tier, in the order of the tiers.  After any calls
the rules that it has added are those that the outline of the calls says, in the same order, and
finishing the tiers adds the ones that are still missing.
-/

namespace TracedGrammar

namespace TierBuilder

variable {H : Type} [RuleHistory H]

section Replacement

variable {symbol extreme others : Symbol} {word : List Symbol} {place : Nat}

theorem getElem?_replaceFirst : (replaceFirst symbol extreme others word)[place]? =
    word[place]?.map fun here =>
      if here = symbol then if symbol ∈ word.take place then others else extreme else here := by
  induction word generalizing place with
  | nil => rfl
  | cons head word induction =>
      unfold replaceFirst
      split
      · rename_i same
        cases place with
        | zero => simp [same]
        | succ place => simp [same]
      · rename_i apart
        cases place with
        | zero => simp [apart]
        | succ place => simp [induction, Ne.symm apart]

@[simp]
theorem length_replaceFirst : (replaceFirst symbol extreme others word).length = word.length := by
  induction word with
  | nil => rfl
  | cons head word induction =>
      unfold replaceFirst
      split
      · simp
      · simp [induction]

theorem getElem?_replaceLast : (replaceLast symbol extreme others word)[place]? =
    word[place]?.map fun here =>
      if here = symbol then if symbol ∈ word.drop (place + 1) then others else extreme
      else here := by
  by_cases inside : place < word.length
  · have mirrored : word.length - (word.length - 1 - place) = place + 1 := by omega
    have turned : word.length - 1 - (word.length - 1 - place) = place := by omega
    rw [replaceLast, List.getElem?_reverse (by simpa using inside), getElem?_replaceFirst,
      length_replaceFirst, List.length_reverse, List.getElem?_reverse (by omega), turned,
      List.take_reverse, mirrored]
    simp only [List.mem_reverse]
  · have outside : word.length ≤ place := Nat.not_lt.mp inside
    rw [List.getElem?_eq_none outside, List.getElem?_eq_none (by simpa [replaceLast] using outside)]
    rfl

end Replacement

/-- The symbol that is taken for a tier. -/
def tierSymbol (supply : SymbolSupply) (tier : Nat) : Symbol :=
  ⟨supply.allocated + tier⟩

theorem tierSymbol_inj {supply : SymbolSupply} {first second : Nat}
    (same : tierSymbol supply first = tierSymbol supply second) : first = second :=
  Nat.add_left_cancel (congrArg Symbol.id same)

/-- What stands at a slot when the tiers are made of symbols. -/
def Slot.symbol (supply : SymbolSupply) (loosest : Nat) : Slot → Symbol
  | .leaf symbol => symbol
  | .operand most => tierSymbol supply (most.getD loosest)

/-- A rule is what its role asks for. -/
inductive Plays (supply : SymbolSupply) (lhs : Symbol) (loosest : Nat)
    (alternatives : List Alternative) : Role → Rule H → Prop
  | alternative {number : Nat} {alternative : Alternative} {given history : H}
      (found : alternatives[number]? = some alternative)
      (assigned : RuleHistory.setPrecedence given alternative.precedence = .ok history) :
      Plays supply lhs loosest alternatives (.alternative number)
        ⟨tierSymbol supply alternative.tier,
          (alternative.slots lhs).map (Slot.symbol supply loosest), history⟩
  | link (tighter : Nat) :
      Plays supply lhs loosest alternatives (.link tighter)
        ⟨tierSymbol supply (tighter + 1), [tierSymbol supply tighter], RuleHistory.blank⟩
  | top :
      Plays supply lhs loosest alternatives .top
        ⟨lhs, [tierSymbol supply loosest], RuleHistory.blank⟩

/-- An alternative that waits, as it is written and as the builder keeps it. -/
structure Waits (supply : SymbolSupply) (alternatives : List Alternative) (number : Nat)
    (group : GroupAlternative H) : Prop where
  found : alternatives[number]? = some ⟨group.rhs, group.precedence.level, .group⟩
  lhs_eq : group.lhs = tierSymbol supply group.precedence.level
  associativity_eq : group.precedence.associativity = .group

section Earlier

variable {supply : SymbolSupply} {lhs : Symbol} {loosest : Nat} {earlier : List Alternative}

theorem getElem?_append_of_some {number : Nat} {alternative : Alternative}
    (found : earlier[number]? = some alternative) (more : List Alternative) :
    (earlier ++ more)[number]? = some alternative := by
  rw [List.getElem?_append_left (List.getElem?_eq_some_iff.mp found).1, found]

theorem Plays.append {role : Role} {rule : Rule H}
    (plays : Plays supply lhs loosest earlier role rule) (more : List Alternative) :
    Plays supply lhs loosest (earlier ++ more) role rule := by
  cases plays with
  | alternative found assigned => exact .alternative (getElem?_append_of_some found more) assigned
  | link tighter => exact .link tighter
  | top => exact .top

omit [RuleHistory H] in
theorem Waits.append {number : Nat} {group : GroupAlternative H}
    (waits : Waits supply earlier number group) (more : List Alternative) :
    Waits supply (earlier ++ more) number group :=
  { waits with found := getElem?_append_of_some waits.found more }

end Earlier

/-- A builder has done what an outline says, starting from some grammar.  The loosest tier that
there will be is fixed in advance. -/
structure Follows (start : Grammar H) (lhs : Symbol) (loosest : Nat) (outline : Outline)
    (builder : TierBuilder H) : Prop where
  lhs_eq : builder.lhs = lhs
  level_eq : builder.level = outline.tier
  associativity_eq : builder.associativity = outline.associativity
  current_eq : builder.current = tierSymbol start.supply outline.tier
  tighter_eq : builder.tighter = tierSymbol start.supply (outline.tier - 1)
  allocated_eq : builder.grammar.supply.allocated = start.supply.allocated + outline.tier + 1
  plays : builder.conflict = none → ∃ added, builder.grammar.rules = start.rules ++ added ∧
    List.Forall₂ (Plays start.supply lhs loosest outline.alternatives) outline.roles added
  waits : List.Forall₂ (Waits start.supply outline.alternatives) outline.waiting builder.groups

/-- Without a conflict, a rule has been added on whose history the precedence was set. -/
theorem exists_addRule_eq {builder : TierBuilder H} {lhs : Symbol} {rhs : List Symbol}
    {history : Option H} {precedence : Precedence}
    (free : (builder.addRule lhs rhs history precedence).conflict = none) :
    builder.conflict = none ∧ ∃ given assigned,
      RuleHistory.setPrecedence given precedence = .ok assigned ∧
        builder.addRule lhs rhs history precedence =
          { builder with grammar := (builder.grammar.addRule ⟨lhs, rhs, assigned⟩).2 } := by
  unfold addRule at free ⊢
  cases set : RuleHistory.setPrecedence
      (history.getD (RuleHistory.ofOrigin builder.grammar.nextRule)) precedence with
  | ok assigned =>
      simp only [set] at free ⊢
      exact ⟨free, _, assigned, set, rfl⟩
  | error conflict =>
      simp only [set] at free
      cases earlier : builder.conflict <;> simp [earlier] at free

/-- Whether or not there is a conflict, adding a rule changes nothing but the rules. -/
theorem addRule_eq (builder : TierBuilder H) (lhs : Symbol) (rhs : List Symbol) (history : Option H)
    (precedence : Precedence) : ∃ added conflict, builder.addRule lhs rhs history precedence =
      { builder with grammar := (builder.grammar.addRule added).2, conflict } := by
  unfold addRule
  simp only
  split
  · exact ⟨_, builder.conflict, rfl⟩
  · exact ⟨_, _, rfl⟩

section Shapes

variable {supply : SymbolSupply} {lhs : Symbol} {loosest tier : Nat} {rhs : List Symbol}

theorem eq_map_slots {alternative : Alternative} {word : List Symbol}
    (spelled : ∀ place : Nat, word[place]? = alternative.rhs[place]?.map fun here =>
      if here = lhs then tierSymbol supply ((alternative.most lhs place).getD loosest) else here) :
    word = (alternative.slots lhs).map (Slot.symbol supply loosest) := by
  apply List.ext_getElem?
  intro place
  rw [spelled, List.getElem?_map, Alternative.getElem?_slots, Option.map_map]
  congr 1
  funext here
  rw [Function.comp_apply]
  split <;> rfl

/-- On the right-hand side of an alternative that associates to the left, the symbols of its own
tier and of the next tighter one come where the operands are. -/
theorem replaceFirst_eq_map_slots :
    replaceFirst lhs (tierSymbol supply tier) (tierSymbol supply (tier - 1)) rhs =
      (Alternative.slots ⟨rhs, tier, .left⟩ lhs).map (Slot.symbol supply loosest) := by
  apply eq_map_slots
  intro place
  rw [getElem?_replaceFirst]
  simp only [Alternative.most, Option.getD_some, apply_ite (tierSymbol supply)]

theorem replaceLast_eq_map_slots :
    replaceLast lhs (tierSymbol supply tier) (tierSymbol supply (tier - 1)) rhs =
      (Alternative.slots ⟨rhs, tier, .right⟩ lhs).map (Slot.symbol supply loosest) := by
  apply eq_map_slots
  intro place
  rw [getElem?_replaceLast]
  simp only [Alternative.most, Option.getD_some, apply_ite (tierSymbol supply)]

theorem map_eq_map_slots :
    (rhs.map fun symbol => if symbol = lhs then tierSymbol supply loosest else symbol) =
      (Alternative.slots ⟨rhs, tier, .group⟩ lhs).map (Slot.symbol supply loosest) := by
  apply eq_map_slots
  intro place
  rw [List.getElem?_map]
  rfl

end Shapes

namespace Follows

variable {start : Grammar H} {lhs : Symbol} {loosest : Nat} {outline : Outline}
  {builder : TierBuilder H}

theorem of_start (grammar : Grammar H) (lhs : Symbol) (loosest : Nat) :
    Follows grammar lhs loosest {} (TierBuilder.start grammar lhs) where
  lhs_eq := rfl
  level_eq := rfl
  associativity_eq := rfl
  current_eq := rfl
  tighter_eq := rfl
  allocated_eq := rfl
  plays := fun _ => ⟨[], (List.append_nil _).symm, .nil⟩
  waits := .nil

variable (follows : Follows start lhs loosest outline builder)
include follows

/-- An alternative that is written down changes nothing about the rules that have been added. -/
theorem write (alternative : Alternative) : Follows start lhs loosest
    { outline with alternatives := outline.alternatives ++ [alternative] } builder where
  __ := follows
  plays := fun free => by
    obtain ⟨added, rules_eq, plays⟩ := follows.plays free
    exact ⟨added, rules_eq, plays.imp fun _ _ plays => plays.append _⟩
  waits := follows.waits.imp fun _ _ waits => waits.append _

/-- A rule that is added has a role, if it is what the role asks for whenever its precedence can be
set. -/
theorem addRule {role : Role} {symbol : Symbol} {word : List Symbol} {history : Option H}
    {precedence : Precedence}
    (plays : ∀ {given assigned : H}, RuleHistory.setPrecedence given precedence = .ok assigned →
      Plays start.supply lhs loosest outline.alternatives role ⟨symbol, word, assigned⟩) :
    Follows start lhs loosest { outline with roles := outline.roles ++ [role] }
      (builder.addRule symbol word history precedence) := by
  obtain ⟨rule, conflict, same⟩ := addRule_eq builder symbol word history precedence
  constructor
  case plays =>
    intro free
    obtain ⟨before, given, assigned, set, becomes⟩ := exists_addRule_eq free
    obtain ⟨added, rules_eq, earlier⟩ := follows.plays before
    refine ⟨added ++ [⟨symbol, word, assigned⟩], ?_,
      List.rel_append earlier (.cons (plays set) .nil)⟩
    rw [becomes, ← List.append_assoc, ← rules_eq]
    rfl
  all_goals rw [same]
  case lhs_eq => exact follows.lhs_eq
  case level_eq => exact follows.level_eq
  case associativity_eq => exact follows.associativity_eq
  case current_eq => exact follows.current_eq
  case tighter_eq => exact follows.tighter_eq
  case allocated_eq => exact follows.allocated_eq
  case waits => exact follows.waits

/-- An alternative that does not wait gets its rule at once. -/
theorem addNow {rhs word : List Symbol} {history : Option H} (now : outline.associativity ≠ .group)
    (spelled : word = (Alternative.slots ⟨rhs, outline.tier, outline.associativity⟩ lhs).map
      (Slot.symbol start.supply loosest)) :
    Follows start lhs loosest (outline.add rhs)
      { builder.addRule builder.current word history builder.precedence with
        associativity := .left, pending := none } := by
  have added : Follows start lhs loosest _
      (builder.addRule builder.current word history builder.precedence) :=
    (follows.write ⟨rhs, outline.tier, outline.associativity⟩).addRule fun set => by
      rw [TierBuilder.precedence, follows.level_eq, follows.associativity_eq] at set
      rw [follows.current_eq, spelled]
      exact .alternative List.getElem?_concat_length set
  rw [Outline.add, if_neg now]
  exact { added with associativity_eq := rfl }

theorem add (rhs : List Symbol) (history : Option H) :
    Follows start lhs loosest (outline.add rhs) (builder.add rhs history) := by
  unfold TierBuilder.add place
  rw [follows.associativity_eq]
  cases associates : outline.associativity with
  | left =>
      apply follows.addNow (by simp [associates])
      rw [follows.lhs_eq, follows.current_eq, follows.tighter_eq, associates]
      exact replaceFirst_eq_map_slots
  | right =>
      apply follows.addNow (by simp [associates])
      rw [follows.lhs_eq, follows.current_eq, follows.tighter_eq, associates]
      exact replaceLast_eq_map_slots
  | group =>
      have written := follows.write ⟨rhs, outline.tier, outline.associativity⟩
      rw [Outline.add, if_pos associates]
      refine { written with associativity_eq := rfl, waits := ?_ }
      refine List.rel_append written.waits (.cons ⟨?_, ?_, ?_⟩ .nil)
      · rw [List.getElem?_concat_length, TierBuilder.precedence, follows.level_eq, associates]
      · rw [TierBuilder.precedence, follows.level_eq, follows.current_eq]
      · rw [TierBuilder.precedence, follows.associativity_eq, associates]

theorem lower : Follows start lhs loosest (outline.perform (.lower : Call H)) builder.lower where
  lhs_eq := follows.lhs_eq
  level_eq := congrArg (· + 1) follows.level_eq
  associativity_eq := follows.associativity_eq
  current_eq := by
    change Symbol.mk builder.grammar.supply.allocated = _
    rw [follows.allocated_eq, Nat.add_assoc]
    rfl
  tighter_eq := follows.current_eq
  allocated_eq := congrArg (· + 1) follows.allocated_eq
  plays := fun free => by
    obtain ⟨rules, rules_eq, plays⟩ := follows.plays free
    refine ⟨_, ?_, List.rel_append plays (.cons (.link outline.tier) .nil)⟩
    rw [← List.append_assoc, ← rules_eq, ← follows.current_eq]
    simp only [TierBuilder.lower, Grammar.addRule, Grammar.fresh, SymbolSupply.fresh, tierSymbol]
    rw [follows.allocated_eq, Nat.add_assoc]
  waits := follows.waits

theorem perform (call : Call H) :
    Follows start lhs loosest (outline.perform call) (builder.perform call) := by
  cases call with
  | history => exact { follows with }
  | alternative rhs => exact follows.add rhs _
  | alternativeWith rhs history => exact follows.add rhs _
  | associate => exact { follows with associativity_eq := rfl }
  | lower => exact follows.lower

theorem run (calls : List (Call H)) :
    Follows start lhs loosest (calls.foldl Outline.perform outline) (builder.run calls) := by
  induction calls generalizing outline builder with
  | nil => exact follows
  | cons call calls induction => exact induction (follows.perform call)

/-- When the loosest tier is reached, an alternative that was waiting gets its rule. -/
theorem addGroup (last : outline.tier = loosest) {number : Nat} {group : GroupAlternative H}
    (waits : Waits start.supply outline.alternatives number group) :
    Follows start lhs loosest { outline with roles := outline.roles ++ [.alternative number] }
      (builder.addGroup group) := by
  apply follows.addRule
  intro given assigned set
  have precedence_eq : group.precedence = ⟨group.precedence.level, .group⟩ := by
    rw [← waits.associativity_eq]
  rw [precedence_eq] at set
  rw [follows.lhs_eq, follows.current_eq, last, waits.lhs_eq, map_eq_map_slots]
  exact .alternative waits.found set

theorem foldl_addGroup (last : outline.tier = loosest) {numbers : List Nat}
    {groups : List (GroupAlternative H)}
    (waits : List.Forall₂ (Waits start.supply outline.alternatives) numbers groups) :
    Follows start lhs loosest
      { outline with roles := outline.roles ++ numbers.map Role.alternative }
      (groups.foldl TierBuilder.addGroup builder) := by
  induction numbers generalizing outline builder groups with
  | nil =>
      cases waits
      rw [List.map_nil, List.append_nil]
      exact follows
  | cons number numbers induction =>
      cases waits with
      | cons first rest =>
          have added := induction (follows.addGroup last first) last rest
          rwa [List.append_assoc] at added

theorem settle (last : outline.tier = loosest) : Follows start lhs loosest
    { outline with roles := outline.roles ++ outline.waiting.map Role.alternative, waiting := [] }
    builder.settle := by
  have emptied : Follows start lhs loosest { outline with waiting := [] }
      { builder with groups := [] } := { follows with waits := .nil }
  exact emptied.foldl_addGroup last follows.waits

end Follows

/-- How the rules of a grammar are laid out in which the tiers of an outline have been finished. -/
structure LaidOut (start : Grammar H) (lhs : Symbol) (outline : Outline) (result : Grammar H) :
    Prop where
  complete : outline.IsComplete
  allocated_eq : result.supply.allocated = start.supply.allocated + outline.tier + 1
  exists_plays : ∃ added, result.rules = start.rules ++ added ∧
    List.Forall₂ (Plays start.supply lhs outline.tier outline.alternatives) outline.finalRoles added

theorem Follows.laidOut {start : Grammar H} {lhs : Symbol} {outline : Outline}
    {builder : TierBuilder H} (follows : Follows start lhs outline.tier outline builder)
    (complete : outline.IsComplete) {next : RuleBuilder H}
    (succeeds : builder.finalize.2 = .ok next) : LaidOut start lhs outline next.grammar := by
  have settled := follows.settle rfl
  unfold finalize at succeeds
  cases conflict : builder.settle.conflict with
  | some conflict => simp [conflict] at succeeds
  | none =>
      simp only [conflict, Except.ok.injEq] at succeeds
      subst succeeds
      obtain ⟨added, rules_eq, plays⟩ := settled.plays conflict
      refine ⟨complete, settled.allocated_eq,
        added ++ [⟨lhs, [builder.settle.current], RuleHistory.blank⟩], ?_,
        List.rel_append plays (.cons ?_ .nil)⟩
      · rw [← List.append_assoc, ← rules_eq, ← settled.lhs_eq]
        rfl
      · rw [settled.current_eq]
        exact .top

/-- After any calls, successfully finished tiers are laid out as the calls say. -/
theorem laidOut_of_finalize {start : Grammar H} {lhs : Symbol} {calls : List (Call H)}
    {next : RuleBuilder H}
    (succeeds : ((TierBuilder.start start lhs).run calls).finalize.2 = .ok next) :
    LaidOut start lhs (.ofCalls calls) next.grammar :=
  ((Follows.of_start start lhs _).run calls).laidOut (Outline.isComplete_ofCalls calls) succeeds

namespace LaidOut

variable {start result : Grammar H} {lhs : Symbol} {outline : Outline}
  (laidOut : LaidOut start lhs outline result)
include laidOut

theorem plays_of_roleAt {index : Nat} {role : Role} {rule : Rule H}
    (isRole : outline.roleAt start.rules.length index = some role)
    (found : result.rules[index]? = some rule) :
    Plays start.supply lhs outline.tier outline.alternatives role rule := by
  obtain ⟨added, rules_eq, plays⟩ := laidOut.exists_plays
  obtain ⟨later, atPlace⟩ := Outline.roleAt_eq_some_iff.mp isRole
  rw [rules_eq, List.getElem?_append_right later] at found
  obtain ⟨other, same, related⟩ := exists_getElem?_of_forall₂ plays atPlace
  obtain rfl := Option.some.inj (same.symm.trans found)
  exact related

/-- A rule is from before the tiers, or it has a role in them. -/
theorem mem_or_exists_roleAt {index : Nat} {rule : Rule H}
    (found : result.rules[index]? = some rule) :
    rule ∈ start.rules ∧ outline.roleAt start.rules.length index = none ∨
      ∃ role, outline.roleAt start.rules.length index = some role ∧
        Plays start.supply lhs outline.tier outline.alternatives role rule := by
  obtain ⟨added, rules_eq, plays⟩ := laidOut.exists_plays
  by_cases later : start.rules.length ≤ index
  · have atPlace := found
    rw [rules_eq, List.getElem?_append_right later] at atPlace
    obtain ⟨role, isRole, _⟩ := exists_getElem?_of_forall₂ plays.flip atPlace
    have known := Outline.roleAt_eq_some_iff.mpr ⟨later, isRole⟩
    exact .inr ⟨role, known, laidOut.plays_of_roleAt known found⟩
  · rw [rules_eq, List.getElem?_append_left (Nat.not_le.mp later)] at found
    exact .inl ⟨List.mem_of_getElem? found, if_neg later⟩

/-- Every role is played. -/
theorem exists_rule {role : Role} (member : role ∈ outline.finalRoles) :
    ∃ index rule, result.rules[index]? = some rule ∧
      outline.roleAt start.rules.length index = some role ∧
      Plays start.supply lhs outline.tier outline.alternatives role rule := by
  obtain ⟨added, rules_eq, plays⟩ := laidOut.exists_plays
  obtain ⟨index, isRole⟩ := Outline.exists_roleAt member start.rules.length
  obtain ⟨later, atPlace⟩ := Outline.roleAt_eq_some_iff.mp isRole
  obtain ⟨rule, found, related⟩ := exists_getElem?_of_forall₂ plays atPlace
  refine ⟨index, rule, ?_, isRole, related⟩
  rw [rules_eq, List.getElem?_append_right later, found]

/-- The symbols that the builder has taken are those of the tiers. -/
theorem mem_since_iff {symbol : Symbol} : symbol ∈ start.supply.since result.supply ↔
    ∃ tier ≤ outline.tier, symbol = tierSymbol start.supply tier := by
  obtain ⟨id⟩ := symbol
  simp only [SymbolSupply.mem_since_iff, SymbolSupply.mem_iff, laidOut.allocated_eq, tierSymbol,
    Symbol.mk.injEq]
  constructor
  · rintro ⟨new, old⟩
    exact ⟨id - start.supply.allocated, by omega, by omega⟩
  · rintro ⟨tier, bound, rfl⟩
    omega

end LaidOut

end TierBuilder

end TracedGrammar
