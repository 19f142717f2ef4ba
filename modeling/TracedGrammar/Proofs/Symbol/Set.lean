import Mathlib.Data.Finset.Image
import TracedGrammar.Symbol.Set

/-!
# Sets of symbols as finite sets

Whatever is done to a set of symbols, it answers as the finite set to which the same is done.  The
length bounds the members and never shrinks, and beside the members it is all that tells two sets
apart.
-/

namespace TracedGrammar

/-- The symbols of a supply. -/
def SymbolSupply.symbols (supply : SymbolSupply) : Finset Symbol :=
  (Finset.range supply.allocated).image Symbol.mk

theorem SymbolSupply.mem_symbols {supply : SymbolSupply} {symbol : Symbol} :
    symbol ∈ supply.symbols ↔ symbol ∈ supply := by
  obtain ⟨id⟩ := symbol
  simp [symbols, mem_iff]

namespace SymbolSet

/-- What can be done to a set of symbols.  It can be made anew from a supply or from a list. -/
inductive Call
  | fill (supply : SymbolSupply) (member : Bool)
  | collect (symbols : List Symbol)
  | insert (symbol : Symbol)
  | assign (symbol : Symbol) (member : Bool)
  | reserve (length : Nat)
deriving DecidableEq, Repr

def perform (set : SymbolSet) : Call → SymbolSet
  | .fill supply member => filled supply member
  | .collect symbols => ofList symbols
  | .insert symbol => set.insert symbol
  | .assign symbol member => set.assign symbol member
  | .reserve length => set.reserve length

/-- The set after some calls, the first of which is made on the empty set. -/
def run (calls : List Call) : SymbolSet :=
  calls.foldl perform empty

/-- What a call does to a finite set. -/
def Call.onMembers (members : Finset Symbol) : Call → Finset Symbol
  | .fill supply true => supply.symbols
  | .fill _ false => ∅
  | .collect symbols => symbols.toFinset
  | .insert symbol => Insert.insert symbol members
  | .assign symbol true => Insert.insert symbol members
  | .assign symbol false => members.erase symbol
  | .reserve _ => members

def runOnMembers (calls : List Call) : Finset Symbol :=
  calls.foldl Call.onMembers ∅

variable {set other : SymbolSet} {symbol : Symbol} {members : Finset Symbol}

/-- A set has the members of a finite set. -/
def Represents (set : SymbolSet) (members : Finset Symbol) : Prop :=
  ∀ symbol, set.contains symbol = decide (symbol ∈ members)

theorem contains_ofList (symbols : List Symbol) (symbol : Symbol) :
    (ofList symbols).contains symbol = decide (symbol ∈ symbols) := by
  have loop (symbols : List Symbol) (set : SymbolSet) :
      (symbols.foldl SymbolSet.insert set).contains symbol =
        (set.contains symbol || decide (symbol ∈ symbols)) := by
    induction symbols generalizing set with
    | nil => simp
    | cons first symbols induction =>
        rw [List.foldl_cons, induction, contains_insert]
        by_cases same : first = symbol
        · simp [same]
        · simp [same, Ne.symm same]
  rw [ofList, loop, contains_empty, Bool.false_or]

theorem Represents.perform (represents : set.Represents members) (call : Call) :
    (set.perform call).Represents (call.onMembers members) := by
  intro symbol
  cases call with
  | fill supply member =>
      cases member <;> simp [SymbolSet.perform, Call.onMembers, contains_filled,
        SymbolSupply.mem_symbols]
  | collect symbols => simp [SymbolSet.perform, Call.onMembers, contains_ofList]
  | insert added =>
      simp [SymbolSet.perform, Call.onMembers, represents symbol, eq_comm]
  | assign changed member =>
      cases member <;>
        simp [SymbolSet.perform, Call.onMembers, assign, represents symbol, eq_comm]
  | reserve length => exact (contains_reserve set length symbol).trans (represents symbol)

theorem represents_run (calls : List Call) : (run calls).Represents (runOnMembers calls) := by
  have loop (calls : List Call) {set : SymbolSet} {members : Finset Symbol}
      (represents : set.Represents members) :
      (calls.foldl SymbolSet.perform set).Represents (calls.foldl Call.onMembers members) := by
    induction calls generalizing set members with
    | nil => exact represents
    | cons call calls induction => exact induction (represents.perform call)
  exact loop calls fun symbol => rfl

theorem contains_eq_false_of_length_le (beyond : set.length ≤ symbol.id) :
    set.contains symbol = false := by
  rw [contains, Array.getElem?_eq_none beyond]
  rfl

theorem pairwise_toList (set : SymbolSet) :
    set.toList.Pairwise fun first second => first.id < second.id := by
  apply List.Pairwise.filter
  rw [List.pairwise_map]
  exact List.pairwise_lt_range

theorem isEmpty_iff : set.isEmpty = true ↔ ∀ symbol, set.contains symbol = false := by
  rw [isEmpty, Bool.not_eq_true', Bool.eq_false_iff, Ne, Array.contains_iff_mem,
    Array.mem_iff_getElem?]
  constructor
  · intro absent symbol
    cases found : set.flags[symbol.id]? with
    | none => rw [contains, found]; rfl
    | some flag =>
        cases flag with
        | false => rw [contains, found]; rfl
        | true => exact absurd ⟨symbol.id, found⟩ absent
  · rintro empty ⟨id, found⟩
    have := empty ⟨id⟩
    rw [contains, found] at this
    cases this

/-- Two sets with the same members and the same length are equal. -/
theorem eq_iff : set = other ↔
    set.length = other.length ∧ ∀ symbol, set.contains symbol = other.contains symbol := by
  refine ⟨fun same => same ▸ ⟨rfl, fun _ => rfl⟩, fun ⟨lengths, same⟩ => ?_⟩
  obtain ⟨flags⟩ := set
  obtain ⟨flags'⟩ := other
  congr 1
  apply Array.ext lengths
  intro id inside inside'
  have here := same ⟨id⟩
  rwa [contains, contains, Array.getElem?_eq_getElem inside, Array.getElem?_eq_getElem inside',
    Option.getD_some, Option.getD_some] at here

/-- A set answers as a finite set does. -/
structure Answers (set : SymbolSet) (members : Finset Symbol) : Prop where
  contains_iff : ∀ symbol, set.contains symbol = true ↔ symbol ∈ members
  getElem_iff : ∀ symbol, set[symbol] = true ↔ symbol ∈ members
  contains_beyond : ∀ symbol, set.length ≤ symbol.id → set.contains symbol = false
  mem_toList_iff : ∀ symbol, symbol ∈ set.toList ↔ symbol ∈ members
  increasing : set.toList.Pairwise fun first second => first.id < second.id
  isEmpty_iff : set.isEmpty = true ↔ members = ∅
  id_lt_length : ∀ symbol ∈ members, symbol.id < set.length

theorem Represents.answers (represents : set.Represents members) : set.Answers members where
  contains_iff symbol := by simp [represents symbol]
  getElem_iff symbol := by simp [represents symbol]
  contains_beyond symbol beyond := contains_eq_false_of_length_le beyond
  mem_toList_iff symbol := by simp [mem_toList, mem_iff, represents symbol]
  increasing := set.pairwise_toList
  isEmpty_iff := by simp [SymbolSet.isEmpty_iff, represents _, Finset.eq_empty_iff_forall_notMem]
  id_lt_length symbol member := by
    by_contra beyond
    have absent := contains_eq_false_of_length_le (Nat.not_lt.mp beyond)
    simp [represents symbol, member] at absent

/-- Whatever is done to it, a set of symbols answers as the finite set to which the same is done.  Its
length does not shrink as long as it is not made anew, and two sets are equal if they have the same
members and the same length. -/
theorem run_answers :
    (∀ calls, (run calls).Answers (runOnMembers calls)) ∧
    (∀ (set : SymbolSet) (symbol : Symbol) (member : Bool) (length : Nat),
      set.length ≤ (set.insert symbol).length ∧ set.length ≤ (set.assign symbol member).length ∧
        set.length ≤ (set.reserve length).length) ∧
    ∀ first second, run first = run second ↔
      runOnMembers first = runOnMembers second ∧ (run first).length = (run second).length := by
  refine ⟨fun calls => (represents_run calls).answers, fun set symbol member length => ?_,
    fun first second => ?_⟩
  · have inserted : set.length ≤ (set.insert symbol).length := by
      rw [length_insert]
      exact Nat.le_max_left _ _
    refine ⟨inserted, ?_, ?_⟩
    · cases member with
      | true => exact inserted
      | false => exact (set.length_erase symbol).ge
    · rw [length_reserve]
      exact Nat.le_max_left _ _
  · rw [eq_iff, and_comm]
    refine and_congr_left' ⟨fun same => ?_, fun same symbol => ?_⟩
    · ext symbol
      rw [← (represents_run first).answers.contains_iff, same,
        (represents_run second).answers.contains_iff]
    · rw [represents_run first symbol, represents_run second symbol, same]

end SymbolSet

end TracedGrammar
