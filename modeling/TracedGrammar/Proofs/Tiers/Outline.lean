import Mathlib.Data.List.Nodup
import Mathlib.Data.List.Perm.Basic
import TracedGrammar.Builder.Tiers
import TracedGrammar.Proofs.Language.Concatenation

/-!
# Tiers as they are written

The calls on a builder of tiers give alternatives, each in a tier and with an associativity.  This
is read off the calls alone, and so is which tier each operand of an alternative may come from, and
what each of the rules that will be added is there for.  A tree over the alternatives themselves,
without any symbols for tiers, is flat.
-/

namespace TracedGrammar

namespace TierBuilder

/-- An alternative as it is written, with the tier that it is in. -/
structure Alternative where
  rhs : List Symbol
  tier : Nat
  associativity : Associativity
deriving DecidableEq, Repr

/-- A place on a right-hand side: a symbol that stays as it is, or an operand.  The operand may be
bounded by the loosest tier that it can come from. -/
inductive Slot
  | leaf (symbol : Symbol)
  | operand (most : Option Nat)
deriving DecidableEq, Repr

namespace Alternative

variable (alternative : Alternative) (lhs : Symbol)

def precedence : Precedence :=
  ⟨alternative.tier, alternative.associativity⟩

/-- The loosest tier of an operand.  The first operand of an alternative that associates to the left
may be of the same tier, and so may the last one if it associates to the right.  All other operands
have to be tighter, if there is a tighter tier. -/
def most (place : Nat) : Option Nat :=
  match alternative.associativity with
  | .left =>
      some (if lhs ∈ alternative.rhs.take place then alternative.tier - 1 else alternative.tier)
  | .right =>
      some (if lhs ∈ alternative.rhs.drop (place + 1) then alternative.tier - 1
        else alternative.tier)
  | .group => none

def slots : List Slot :=
  alternative.rhs.mapIdx fun place symbol =>
    if symbol = lhs then .operand (alternative.most lhs place) else .leaf symbol

variable {alternative lhs}

theorem getElem?_slots {place : Nat} : (alternative.slots lhs)[place]? =
    alternative.rhs[place]?.map fun symbol =>
      if symbol = lhs then .operand (alternative.most lhs place) else .leaf symbol :=
  List.getElem?_mapIdx

/-- A slot is that of a symbol which stays, or that of an operand. -/
theorem cases_of_mem_slots {slot : Slot} (member : slot ∈ alternative.slots lhs) :
    (∃ symbol ∈ alternative.rhs, symbol ≠ lhs ∧ slot = .leaf symbol) ∨
      ∃ place, slot = .operand (alternative.most lhs place) := by
  obtain ⟨place, found⟩ := List.getElem?_of_mem member
  rw [getElem?_slots, Option.map_eq_some_iff] at found
  obtain ⟨symbol, atPlace, rfl⟩ := found
  by_cases operand : symbol = lhs
  · exact .inr ⟨place, if_pos operand⟩
  · exact .inl ⟨symbol, List.mem_of_getElem? atPlace, operand, if_neg operand⟩

theorem getD_most_le {loosest : Nat} (tight : alternative.tier ≤ loosest) (place : Nat) :
    (alternative.most lhs place).getD loosest ≤ loosest := by
  unfold most
  cases alternative.associativity with
  | left =>
      simp only [Option.getD_some]
      split <;> omega
  | right =>
      simp only [Option.getD_some]
      split <;> omega
  | group => exact Nat.le_refl _

end Alternative

/-- A row of trees over alternatives fits a row of slots when every node has an alternative of a
tier that its slot admits and has below it what the alternative asks for. -/
inductive IsFlat (lhs : Symbol) (alternatives : List Alternative) : Forest → List Slot → Prop
  | nil : IsFlat lhs alternatives .nil []
  | leaf (symbol : Symbol) {rest : Forest} {slots : List Slot}
      (later : IsFlat lhs alternatives rest slots) :
      IsFlat lhs alternatives (.leaf symbol rest) (.leaf symbol :: slots)
  | node {number : Nat} {alternative : Alternative} {most : Option Nat} {below rest : Forest}
      {slots : List Slot} (found : alternatives[number]? = some alternative)
      (admitted : ∀ bound ∈ most, alternative.tier ≤ bound)
      (under : IsFlat lhs alternatives below (alternative.slots lhs))
      (later : IsFlat lhs alternatives rest slots) :
      IsFlat lhs alternatives (.node number below rest) (.operand most :: slots)

namespace IsFlat

variable {lhs : Symbol} {alternatives : List Alternative} {forest : Forest} {slots : List Slot}

theorem append (first : IsFlat lhs alternatives forest slots) {other : Forest} {others : List Slot}
    (second : IsFlat lhs alternatives other others) :
    IsFlat lhs alternatives (forest ++ other) (slots ++ others) := by
  induction first with
  | nil => exact second
  | leaf symbol _ induction => exact .leaf symbol induction
  | node found admitted under _ _ induction => exact .node found admitted under induction

theorem width_eq (flat : IsFlat lhs alternatives forest slots) : forest.width = slots.length := by
  induction flat with
  | nil => rfl
  | leaf _ _ induction => rw [Forest.width, induction, List.length_cons]
  | node _ _ _ _ _ induction => rw [Forest.width, induction, List.length_cons]

end IsFlat

/-- What a rule is there for: an alternative, known by its number, or a tier that stands for the
next tighter one, known by its number, or the left-hand side that stands for the loosest. -/
inductive Role
  | alternative (number : Nat)
  | link (tighter : Nat)
  | top
deriving DecidableEq, Repr

def Role.number? : Role → Option Nat
  | .alternative number => some number
  | .link _ => none
  | .top => none

theorem Role.number?_eq_some_iff {role : Role} {number : Nat} :
    role.number? = some number ↔ role = .alternative number := by
  cases role <;> simp [Role.number?]

/-- What the calls have written so far. -/
structure Outline where
  alternatives : List Alternative := []
  /-- How the next alternative associates. -/
  associativity : Associativity := .left
  tier : Nat := 0
  /-- What the rules are there for that have been added. -/
  roles : List Role := []
  /-- The numbers of the alternatives whose rules have not been added yet. -/
  waiting : List Nat := []
deriving DecidableEq, Repr

namespace Outline

variable {H : Type}

def add (outline : Outline) (rhs : List Symbol) : Outline :=
  let written : Outline := { outline with
    alternatives := outline.alternatives ++ [⟨rhs, outline.tier, outline.associativity⟩]
    associativity := .left }
  if outline.associativity = .group then
    { written with waiting := outline.waiting ++ [outline.alternatives.length] }
  else
    { written with roles := outline.roles ++ [.alternative outline.alternatives.length] }

def perform (outline : Outline) : Call H → Outline
  | .history _ => outline
  | .alternative rhs => outline.add rhs
  | .alternativeWith rhs _ => outline.add rhs
  | .associate associativity => { outline with associativity }
  | .lower =>
      { outline with tier := outline.tier + 1, roles := outline.roles ++ [.link outline.tier] }

def ofCalls (calls : List (Call H)) : Outline :=
  calls.foldl perform {}

/-- What the added rules are there for when the tiers are finished. -/
def finalRoles (outline : Outline) : List Role :=
  outline.roles ++ outline.waiting.map Role.alternative ++ [.top]

/-- What the rule at an index is there for, when there were some rules before. -/
def roleAt (outline : Outline) (before index : Nat) : Option Role :=
  if before ≤ index then outline.finalRoles[index - before]? else none

/-- The number of the alternative that the rule at an index is there for. -/
def origin (outline : Outline) (before index : Nat) : Option Nat :=
  (outline.roleAt before index).bind Role.number?

variable {outline : Outline}

theorem roleAt_eq_some_iff {before index : Nat} {role : Role} :
    outline.roleAt before index = some role ↔
      before ≤ index ∧ outline.finalRoles[index - before]? = some role :=
  Option.ite_none_right_eq_some

theorem exists_roleAt {role : Role} (member : role ∈ outline.finalRoles) (before : Nat) :
    ∃ index, outline.roleAt before index = some role := by
  obtain ⟨place, found⟩ := List.getElem?_of_mem member
  refine ⟨before + place, roleAt_eq_some_iff.mpr ⟨Nat.le_add_right _ _, ?_⟩⟩
  rwa [Nat.add_sub_cancel_left]

theorem alternatives_add (rhs : List Symbol) : (outline.add rhs).alternatives =
    outline.alternatives ++ [⟨rhs, outline.tier, outline.associativity⟩] := by
  unfold add
  split <;> rfl

theorem tier_add (rhs : List Symbol) : (outline.add rhs).tier = outline.tier := by
  unfold add
  split <;> rfl

/-- The roles are all different, one for each alternative and one for each tier but the loosest. -/
structure IsComplete (outline : Outline) : Prop where
  tier_le : ∀ alternative ∈ outline.alternatives, alternative.tier ≤ outline.tier
  perm : (outline.roles ++ outline.waiting.map Role.alternative).Perm
    ((List.range outline.alternatives.length).map Role.alternative ++
      (List.range outline.tier).map Role.link)

namespace IsComplete

theorem add (complete : outline.IsComplete) (rhs : List Symbol) : (outline.add rhs).IsComplete where
  tier_le := by
    rw [alternatives_add, tier_add, List.forall_mem_append, List.forall_mem_singleton]
    exact ⟨complete.tier_le, Nat.le_refl _⟩
  perm := by
    have counts := List.perm_iff_count.mp complete.perm
    simp only [List.count_append] at counts
    rw [alternatives_add, tier_add, List.length_append, List.length_singleton, List.range_succ,
      List.perm_iff_count]
    intro role
    unfold Outline.add
    split
    all_goals
      simp only [List.map_append, List.count_append, List.map_singleton]
      have := counts role
      omega

theorem perform (complete : outline.IsComplete) (call : Call H) :
    (outline.perform call).IsComplete := by
  cases call with
  | history => exact complete
  | alternative rhs => exact complete.add rhs
  | alternativeWith rhs => exact complete.add rhs
  | associate => exact ⟨complete.tier_le, complete.perm⟩
  | lower =>
      refine ⟨fun alternative member => Nat.le_succ_of_le (complete.tier_le alternative member), ?_⟩
      have counts := List.perm_iff_count.mp complete.perm
      simp only [List.count_append] at counts
      simp only [Outline.perform, List.range_succ, List.perm_iff_count, List.map_append,
        List.count_append, List.map_singleton]
      intro role
      have := counts role
      omega

theorem foldl (complete : outline.IsComplete) (calls : List (Call H)) :
    (calls.foldl Outline.perform outline).IsComplete := by
  induction calls generalizing outline with
  | nil => exact complete
  | cons call calls induction => exact induction (complete.perform call)

end IsComplete

theorem isComplete_ofCalls (calls : List (Call H)) : (ofCalls calls).IsComplete := by
  apply IsComplete.foldl
  exact ⟨by simp, .nil⟩

section Roles

variable (complete : outline.IsComplete)
include complete

theorem mem_finalRoles_iff {role : Role} : role ∈ outline.finalRoles ↔
    (∃ number < outline.alternatives.length, role = .alternative number) ∨
      (∃ tighter < outline.tier, role = .link tighter) ∨ role = .top := by
  rw [finalRoles, List.mem_append, complete.perm.mem_iff, List.mem_singleton, List.mem_append,
    or_assoc]
  simp only [List.mem_map, List.mem_range, eq_comm]

theorem nodup_finalRoles : outline.finalRoles.Nodup := by
  have injective : Function.Injective Role.alternative := fun _ _ same => Role.alternative.inj same
  have links : Function.Injective Role.link := fun _ _ same => Role.link.inj same
  rw [finalRoles, List.nodup_append, complete.perm.nodup_iff, List.nodup_append]
  refine ⟨⟨List.nodup_range.map injective, List.nodup_range.map links, ?_⟩,
    List.nodup_singleton _, ?_⟩
  · simp
  · intro role member other isTop
    rw [complete.perm.mem_iff] at member
    rw [List.mem_singleton.mp isTop]
    rintro rfl
    simp at member

/-- A role is taken by one rule only. -/
theorem index_eq_of_roleAt {before left right : Nat} {role : Role}
    (atLeft : outline.roleAt before left = some role)
    (atRight : outline.roleAt before right = some role) : left = right := by
  rw [roleAt_eq_some_iff] at atLeft atRight
  have bound := (List.getElem?_eq_some_iff.mp atLeft.2).1
  have same := (List.getElem?_inj bound (nodup_finalRoles complete)).mp
    (atLeft.2.trans atRight.2.symm)
  omega

end Roles

end Outline

end TierBuilder

end TracedGrammar
