import Mathlib
import TracedGrammar.Proofs.History.Tracked
import TracedGrammar.Proofs.Nulling.Choices

/-!
# Variants in order

The table of variants counts choices in increasing order, and so finds every right-hand side with the
least of the masks that leave it.
-/

namespace TracedGrammar

/-- Every occurrence is one of exactly one key. -/
theorem sum_count_of_nodup {α : Type} [DecidableEq α] [equality : BEq α] [LawfulBEq α]
    {keys words : List α} (distinct : keys.Nodup) (same : ∀ word, word ∈ keys ↔ word ∈ words) :
    (keys.map words.count).sum = words.length := by
  obtain rfl : equality = instBEqOfDecidableEq := lawful_beq_subsingleton _ _
  have all : keys.toFinset = words.toFinset := by
    ext word
    rw [List.mem_toFinset, List.mem_toFinset, same]
  rw [← List.sum_toFinset _ distinct, all, List.sum_toFinset_count_eq_length]

namespace VariantTable

/-- Every word is counted as often as it occurs, in a number of 32 bits. -/
def Counts (counts : Std.HashMap (List Symbol) UInt32) (words : List (List Symbol)) : Prop :=
  ∀ word, counts[word]? = if word ∈ words then some (UInt32.ofNat (words.count word)) else none

theorem Counts.insert {counts : Std.HashMap (List Symbol) UInt32} {words : List (List Symbol)}
    (before : Counts counts words) (word : List Symbol) :
    Counts (counts.insert word (UInt32.ofNat (words.count word + 1))) (words ++ [word]) := by
  intro other
  rw [Std.HashMap.getElem?_insert]
  by_cases same : word = other
  · subst same
    simp
  · have absent : other ≠ word := Ne.symm same
    simp [same, absent, before other]

/-- Some choices have been counted, each with what it leaves and what it leaves out, and masks have not
become smaller from one to the next. -/
structure Tallies (table : VariantTable) (choices : List (List Symbol × PositionSet)) : Prop where
  ordered : table.found.toList.Sublist choices
  covers : ∀ choice ∈ choices, ∃ elided, (choice.1, elided) ∈ table.found.toList
  least : ∀ entry ∈ table.found.toList, ∀ choice ∈ choices, choice.1 = entry.1 →
    entry.2.mask.toNat ≤ choice.2.mask.toNat
  counts : Counts table.alternatives (choices.map Prod.fst)

theorem tallies_empty : empty.Tallies [] where
  ordered := List.Sublist.refl _
  covers := by simp
  least := by simp
  counts := fun word => by simp [empty]

variable {table : VariantTable} {accept : Nat → Except GrammarError Unit} {rhs : List Symbol}
  {choices : List (List Symbol × PositionSet)}

/-- One more choice is counted. -/
theorem Tallies.exists_add (tallies : table.Tallies choices) (accepts : ∀ count, accept count = .ok ())
    {last : List Symbol × PositionSet}
    (increasing : ∀ choice ∈ choices, choice.2.mask.toNat ≤ last.2.mask.toNat) :
    ∃ next, table.add accept last.1 last.2 = .ok next ∧ next.Tallies (choices ++ [last]) := by
  have before := tallies.counts last.1
  have after := tallies.counts.insert last.1
  have words : choices.map Prod.fst ++ [last.1] = (choices ++ [last]).map Prod.fst := by simp
  rw [words] at after
  -- A known rest keeps its entry, whose mask is no larger, and a new one gets the mask that leaves it.
  by_cases known : last.1 ∈ choices.map Prod.fst
  · rw [if_pos known] at before
    refine ⟨_, by rw [add, before], ?_⟩
    constructor
    case ordered => exact tallies.ordered.trans (List.sublist_append_left _ _)
    case covers =>
      intro choice member
      rcases List.mem_append.mp member with old | new
      · exact tallies.covers choice old
      · obtain ⟨earlier, inChoices, same⟩ := List.mem_map.mp known
        rw [List.mem_singleton.mp new, ← same]
        exact tallies.covers earlier inChoices
    case least =>
      intro entry found choice member same
      rcases List.mem_append.mp member with old | new
      · exact tallies.least entry found choice old same
      · rw [List.mem_singleton.mp new]
        exact increasing entry (tallies.ordered.subset found)
    case counts => rwa [UInt32.ofNat_add] at after
  · rw [if_neg known] at before
    refine ⟨_, by rw [add, before, accepts]; rfl, ?_⟩
    have written : (table.found.push last).toList = table.found.toList ++ [last] := Array.toList_push
    constructor
    case ordered =>
      rw [written]
      exact tallies.ordered.append_right _
    case covers =>
      rw [written]
      intro choice member
      rcases List.mem_append.mp member with old | new
      · obtain ⟨earlier, found⟩ := tallies.covers choice old
        exact ⟨earlier, List.mem_append_left _ found⟩
      · rw [List.mem_singleton.mp new]
        exact ⟨last.2, List.mem_append_right _ (List.mem_singleton_self _)⟩
    case least =>
      rw [written]
      intro entry found choice member same
      rcases List.mem_append.mp found with old | new
      · rcases List.mem_append.mp member with earlier | now
        · exact tallies.least entry old choice earlier same
        · rw [List.mem_singleton.mp now]
          exact increasing entry (tallies.ordered.subset old)
      · rw [List.mem_singleton.mp new] at same ⊢
        rcases List.mem_append.mp member with earlier | now
        · exact absurd (List.mem_map.mpr ⟨choice, earlier, same⟩) known
        · rw [List.mem_singleton.mp now]
    case counts => rwa [List.count_eq_zero.mpr known] at after

/-- All choices are counted in order, as long as none that leaves nothing has to be skipped. -/
theorem Tallies.exists_collect {keepsEmpty : Bool} {singletons : List PositionSet}
    {total counted remaining : Nat} (sum : counted + remaining = total)
    (tallies : table.Tallies ((List.range counted).map (chosen rhs singletons)))
    (accepts : ∀ count, accept count = .ok ())
    (keeps : ∀ choice, (chosen rhs singletons choice).1 = [] → keepsEmpty = true)
    (increasing : ∀ other < total, ∀ choice < other,
      (chosen rhs singletons choice).2.mask.toNat ≤ (chosen rhs singletons other).2.mask.toNat) :
    ∃ last, collect accept rhs keepsEmpty singletons total remaining table = .ok last ∧
      last.Tallies ((List.range total).map (chosen rhs singletons)) := by
  induction remaining generalizing table counted with
  | zero =>
      rw [Nat.add_zero] at sum
      exact ⟨table, rfl, sum ▸ tallies⟩
  | succ remaining induction =>
      have larger : ∀ choice ∈ (List.range counted).map (chosen rhs singletons),
          choice.2.mask.toNat ≤ (chosen rhs singletons counted).2.mask.toNat := by
        intro choice member
        obtain ⟨earlier, inRange, rfl⟩ := List.mem_map.mp member
        exact increasing counted (by omega) earlier (List.mem_range.mp inRange)
      obtain ⟨next, added, after⟩ := tallies.exists_add accepts larger
      rw [← List.map_singleton, ← List.map_append, ← List.range_succ] at after
      obtain ⟨last, collected, tallied⟩ := induction (by omega) after
      refine ⟨last, ?_, tallied⟩
      have stays : ¬((chosen rhs singletons counted).1.isEmpty && !keepsEmpty) = true := by
        rw [Bool.and_eq_true, List.isEmpty_iff]
        rintro ⟨nothing, skips⟩
        rw [keeps counted nothing] at skips
        cases skips
      rw [collect, show total - (remaining + 1) = counted by omega]
      simp only [chosen] at added stays
      simp only [if_neg stays, added, collected]

theorem exists_ofPositions_tallies {nullable : SymbolSet} (accepts : ∀ count, accept count = .ok ())
    (low : ∀ position ∈ nullablePositions nullable rhs, position < PositionSet.capacity) :
    ∃ table, ofPositions accept rhs (nullable.positionsIn rhs) = .ok table ∧
      table.Tallies ((List.range (2 ^ (nullablePositions nullable rhs).card)).map
        (leaving nullable rhs)) := by
  unfold ofPositions
  rw [length_positionsIn, Nat.one_shiftLeft]
  refine tallies_empty.exists_collect (Nat.zero_add _) accepts ?keeps ?increasing
  case keeps =>
    intro choice nothing
    have thinned : Thinned nullable rhs (chosenRest nullable 0 rhs choice) := thinned_chosenRest choice
    rw [show chosenRest nullable 0 rhs choice = [] from nothing] at thinned
    rw [← length_positionsIn, SymbolSet.positionsIn_eq, length_positionsFrom_of_thinned_nil thinned,
      beq_self_eq_true]
  case increasing => exact fun other small choice less => Nat.le_of_lt (mask_leaving_lt low less small)

end VariantTable

/-- Everything that can be left of a right-hand side without some of its nullable symbols is recorded
once, in the order of masks, each with the least mask that leaves it.  The alternatives of a rest are the
sets of nullable positions without which it is left. -/
structure Enumerates (nullable : SymbolSet) (rhs : List Symbol) (elisions : List Elision) : Prop where
  increasing : elisions.Pairwise fun first second =>
    first.elided.mask.toNat < second.elided.mask.toNat
  untouched : ∃ first later, elisions = first :: later ∧ first.elided = .empty
  lengthBefore : ∀ elision ∈ elisions, elision.lengthBefore = rhs.length
  removable : ∀ elision ∈ elisions, elision.elided.positions ⊆ nullablePositions nullable rhs
  existsUnique : ∀ removed ⊆ nullablePositions nullable rhs, ∃! elision, elision ∈ elisions ∧
    withoutPositions elision.elided.positions rhs = withoutPositions removed rhs
  least : ∀ elision ∈ elisions, ∀ other : PositionSet,
    withoutPositions other.positions rhs = withoutPositions elision.elided.positions rhs →
      elision.elided.mask.toNat ≤ other.mask.toNat
  retained : ∀ elision ∈ elisions,
    (elision.elided.retained elision.lengthBefore).map (fun position => rhs[position]?) =
      (withoutPositions elision.elided.positions rhs).map some
  exists_nil_iff : (∃ elision ∈ elisions, withoutPositions elision.elided.positions rhs = []) ↔
    ∀ symbol ∈ rhs, symbol ∈ nullable
  alternatives : (nullablePositions nullable rhs).card ≤ 32 → ∀ elision ∈ elisions,
    elision.alternatives.toNat =
      (waysToLeave nullable rhs (withoutPositions elision.elided.positions rhs)).card
  sum_alternatives : (nullablePositions nullable rhs).card ≤ 32 →
    (elisions.map fun elision => elision.alternatives.toNat).sum =
      2 ^ (nullablePositions nullable rhs).card

namespace VariantTable.Tallies

variable {table : VariantTable} {nullable : SymbolSet} {rhs : List Symbol}
  (low : ∀ position ∈ nullablePositions nullable rhs, position < PositionSet.capacity)
  (tallies : table.Tallies ((List.range (2 ^ (nullablePositions nullable rhs).card)).map
    (leaving nullable rhs)))
include low tallies

theorem pairwise_found : table.found.toList.Pairwise fun first second =>
    first.2.mask.toNat < second.2.mask.toNat := by
  refine List.Pairwise.sublist tallies.ordered (List.pairwise_map.mpr ?_)
  refine List.pairwise_lt_range.imp_of_mem fun _ small less => ?_
  exact mask_leaving_lt low less (List.mem_range.mp small)

/-- What is found is left without the nullable symbols at the positions that are found with it. -/
theorem left_of_mem {entry : List Symbol × PositionSet} (found : entry ∈ table.found.toList) :
    entry.1 = withoutPositions entry.2.positions rhs ∧
      entry.2.positions ⊆ nullablePositions nullable rhs := by
  obtain ⟨choice, small, rfl⟩ := List.mem_map.mp (tallies.ordered.subset found)
  refine ⟨fst_leaving choice, Finset.mem_powerset.mp ?_⟩
  rw [← image_leaving low]
  exact Finset.mem_image_of_mem _ (Finset.mem_range.mpr (List.mem_range.mp small))

theorem exists_found {removed : Finset Nat} (removable : removed ⊆ nullablePositions nullable rhs) :
    ∃ elided, (withoutPositions removed rhs, elided) ∈ table.found.toList := by
  obtain ⟨choice, small, rfl⟩ := exists_leaving low removable
  rw [← fst_leaving]
  exact tallies.covers _ (List.mem_map_of_mem (List.mem_range.mpr small))

/-- No set of positions whatsoever that leaves the same has a smaller mask. -/
theorem mask_le_of_mem {entry : List Symbol × PositionSet} (found : entry ∈ table.found.toList)
    {other : PositionSet} (same : withoutPositions other.positions rhs = entry.1) :
    entry.2.mask.toNat ≤ other.mask.toNat := by
  obtain ⟨left, removable⟩ := tallies.left_of_mem low found
  -- Of the other positions only nullable ones take something away, and some choice picks these.
  have within : other.positions.filter (· < rhs.length) ⊆ nullablePositions nullable rhs := by
    intro position member
    obtain ⟨taken, inside⟩ := Finset.mem_filter.mp member
    exact mem_nullablePositions_of_withoutPositions_eq removable (same.trans left) taken inside
  obtain ⟨choice, small, picked⟩ := exists_leaving low within
  have alike : (leaving nullable rhs choice).1 = entry.1 := by
    rw [fst_leaving, picked, ← same]
    refine withoutPositions_congr fun position inside => ?_
    rw [Finset.mem_filter, and_iff_left inside]
  have smaller := tallies.least entry found _ (List.mem_map_of_mem (List.mem_range.mpr small)) alike
  refine Nat.le_trans smaller (PositionSet.toNat_mask_le_of_subset ?_)
  rw [picked]
  exact Finset.filter_subset _ _

theorem nodup_fst_found : (table.found.toList.map Prod.fst).Nodup := by
  refine List.pairwise_map.mpr ((tallies.pairwise_found low).imp_of_mem ?_)
  intro first second found alsoFound less same
  have larger := tallies.least second alsoFound first (tallies.ordered.subset found) same
  omega

theorem alternatives_of_mem {entry : List Symbol × PositionSet} (found : entry ∈ table.found.toList) :
    table.alternatives.getD entry.1 0 = UInt32.ofNat (waysToLeave nullable rhs entry.1).card := by
  have member : entry.1 ∈ ((List.range (2 ^ (nullablePositions nullable rhs).card)).map
      (leaving nullable rhs)).map Prod.fst := List.mem_map_of_mem (tallies.ordered.subset found)
  rw [Std.HashMap.getD_eq_getD_getElem?, tallies.counts, if_pos member, count_leaving low]
  rfl

theorem existsUnique_found {removed : Finset Nat}
    (removable : removed ⊆ nullablePositions nullable rhs) :
    ∃! entry, entry ∈ table.found.toList ∧ entry.1 = withoutPositions removed rhs := by
  obtain ⟨elided, found⟩ := tallies.exists_found low removable
  refine ⟨_, ⟨found, rfl⟩, fun other ⟨alsoFound, same⟩ => ?_⟩
  exact List.inj_on_of_nodup_map (tallies.nodup_fst_found low) alsoFound found same

/-- The right-hand side as it was is found first. -/
theorem exists_found_eq_cons :
    ∃ first later, table.found.toList = first :: later ∧ first.2 = .empty := by
  obtain ⟨elided, found⟩ := tallies.exists_found low (Finset.empty_subset _)
  have least : elided.mask.toNat ≤ PositionSet.empty.mask.toNat :=
    tallies.mask_le_of_mem low found (by rw [PositionSet.positions_empty])
  have ordered := tallies.pairwise_found low
  cases written : table.found.toList with
  | nil =>
      rw [written] at found
      cases found
  | cons first later =>
      refine ⟨first, later, rfl, ?_⟩
      rw [written] at found ordered
      have smaller : first.2.mask.toNat ≤ elided.mask.toNat := by
        rcases List.mem_cons.mp found with same | other
        · rw [← same]
        · exact Nat.le_of_lt ((List.pairwise_cons.mp ordered).1 _ other)
      have nothing : first.2.mask = PositionSet.empty.mask :=
        BitVec.eq_of_toNat_eq (Nat.eq_zero_of_le_zero (Nat.le_trans smaller least))
      exact congrArg PositionSet.mk nothing

theorem exists_found_nil_iff :
    (∃ entry ∈ table.found.toList, entry.1 = []) ↔ ∀ symbol ∈ rhs, symbol ∈ nullable := by
  constructor
  · rintro ⟨entry, found, nothing⟩ symbol occurs
    obtain ⟨left, removable⟩ := tallies.left_of_mem low found
    obtain ⟨position, here⟩ := List.getElem?_of_mem occurs
    have taken := withoutPositions_eq_nil_iff.mp (left.symm.trans nothing) position
      (List.getElem?_eq_some_iff.mp here).1
    obtain ⟨other, isNullable, there⟩ := mem_nullablePositions_iff.mp (removable taken)
    obtain rfl := Option.some_inj.mp (here.symm.trans there)
    exact isNullable
  · intro all
    obtain ⟨elided, found⟩ := tallies.exists_found low (Finset.Subset.refl _)
    refine ⟨_, found, withoutPositions_eq_nil_iff.mpr fun position inside => ?_⟩
    have here := List.getElem?_eq_getElem inside
    exact mem_nullablePositions_iff.mpr ⟨_, all _ (List.mem_of_getElem? here), here⟩

/-- The ways to leave the different rests are all ways to leave something out. -/
theorem sum_card_waysToLeave :
    (table.found.toList.map fun entry => (waysToLeave nullable rhs entry.1).card).sum =
      2 ^ (nullablePositions nullable rhs).card := by
  have counts := sum_count_of_nodup (tallies.nodup_fst_found low) (fun word => ⟨fun found =>
    (tallies.ordered.map Prod.fst).subset found, fun left => by
      obtain ⟨choice, member, rfl⟩ := List.mem_map.mp left
      obtain ⟨elided, found⟩ := tallies.covers choice member
      exact List.mem_map.mpr ⟨_, found, rfl⟩⟩)
  rw [List.map_map, List.length_map, List.length_map, List.length_range] at counts
  rw [← counts]
  refine congrArg List.sum (List.map_congr_left fun entry _ => ?_)
  exact (count_leaving low entry.1).symm

theorem enumerates : Enumerates nullable rhs (table.found.toList.map fun entry =>
    ⟨entry.2, rhs.length, table.alternatives.getD entry.1 0⟩) := by
  have recorded (entry : List Symbol × PositionSet) (found : entry ∈ table.found.toList) :=
    tallies.left_of_mem low found
  constructor
  case increasing => exact List.pairwise_map.mpr (tallies.pairwise_found low)
  case untouched =>
    obtain ⟨first, later, written, untouched⟩ := tallies.exists_found_eq_cons low
    exact ⟨_, _, by rw [written, List.map_cons], untouched⟩
  case lengthBefore =>
    rw [List.forall_mem_map]
    exact fun _ _ => rfl
  case removable =>
    rw [List.forall_mem_map]
    exact fun entry found => (recorded entry found).2
  case existsUnique =>
    intro removed removable
    obtain ⟨entry, ⟨found, same⟩, only⟩ := tallies.existsUnique_found low removable
    refine ⟨_, ⟨List.mem_map_of_mem found, (recorded entry found).1.symm.trans same⟩, ?_⟩
    rintro elision ⟨member, alike⟩
    obtain ⟨other, alsoFound, rfl⟩ := List.mem_map.mp member
    rw [only other ⟨alsoFound, (recorded other alsoFound).1.trans alike⟩]
  case least =>
    rw [List.forall_mem_map]
    intro entry found other same
    exact tallies.mask_le_of_mem low found (same.trans (recorded entry found).1.symm)
  case retained =>
    rw [List.forall_mem_map]
    exact fun entry _ => PositionSet.map_retained rhs
  case exists_nil_iff =>
    rw [← tallies.exists_found_nil_iff low]
    constructor
    · rintro ⟨elision, member, nothing⟩
      obtain ⟨entry, found, rfl⟩ := List.mem_map.mp member
      exact ⟨entry, found, (recorded entry found).1.trans nothing⟩
    · rintro ⟨entry, found, nothing⟩
      exact ⟨_, List.mem_map_of_mem found, (recorded entry found).1.symm.trans nothing⟩
  case alternatives =>
    intro few
    rw [List.forall_mem_map]
    intro entry found
    rw [tallies.alternatives_of_mem low found, ← (recorded entry found).1]
    exact UInt32.toNat_ofNat_of_lt' (card_waysToLeave_lt_size few _)
  case sum_alternatives =>
    intro few
    rw [← tallies.sum_card_waysToLeave low, List.map_map]
    refine congrArg List.sum (List.map_congr_left fun entry found => ?_)
    rw [Function.comp_apply, tallies.alternatives_of_mem low found]
    exact UInt32.toNat_ofNat_of_lt' (card_waysToLeave_lt_size few _)

end VariantTable.Tallies

/-- There are more nullable positions than a limit allows, or a position that a mask does not reach, or
so many positions that their sets cannot be numbered with 64 bits. -/
def TooManyPositions (nullable : SymbolSet) (rhs : List Symbol) (most : Nat) : Prop :=
  most < (nullablePositions nullable rhs).card ∨
    (∃ position ∈ nullablePositions nullable rhs, 64 ≤ position) ∨
    (nullablePositions nullable rhs).card = 64

instance (nullable : SymbolSet) (rhs : List Symbol) (most : Nat) :
    Decidable (TooManyPositions nullable rhs most) :=
  inferInstanceAs (Decidable (_ ∨ _ ∨ _))

section Positions

theorem card_nullablePositions_le {nullable : SymbolSet} {rhs : List Symbol}
    (low : ∀ position ∈ nullablePositions nullable rhs, position < PositionSet.capacity) :
    (nullablePositions nullable rhs).card ≤ PositionSet.capacity := by
  have inside := Finset.card_le_card fun position member => Finset.mem_range.mpr (low position member)
  rwa [Finset.card_range] at inside

theorem checkPositions_cases (limits : Limits) (nullable : SymbolSet) (rhs : List Symbol) :
    TooManyPositions nullable rhs limits.nullablePositions ∧
        (∃ limit attempted, limits.checkPositions (nullable.positionsIn rhs) =
          .error (.tooLarge limit attempted)) ∨
      ¬TooManyPositions nullable rhs limits.nullablePositions ∧
        limits.checkPositions (nullable.positionsIn rhs) = .ok () := by
  unfold Limits.checkPositions
  rw [length_positionsIn]
  split
  · rename_i many
    exact .inl ⟨.inl many, _, _, rfl⟩
  · rename_i few
    split
    · rename_i none
      rw [List.getLast?_eq_none_iff] at none
      have nothing (position : Nat) : position ∉ nullablePositions nullable rhs := by
        rw [← mem_positionsIn_iff, none]
        exact List.not_mem_nil
      have empty := Finset.eq_empty_of_forall_notMem nothing
      refine .inr ⟨?_, rfl⟩
      rintro (many | ⟨position, member, _⟩ | full)
      · exact few many
      · exact nothing position member
      · rw [empty, Finset.card_empty] at full
        cases full
    · rename_i last found
      have member := mem_positionsIn_iff.mp (List.mem_of_getLast? found)
      split
      · rename_i high
        exact .inl ⟨.inr (.inl ⟨last, member, high⟩), _, _, rfl⟩
      · rename_i reachable
        have low (position : Nat) (other : position ∈ nullablePositions nullable rhs) :
            position < PositionSet.capacity := by
          have := SymbolSet.le_last_of_mem_positionsFrom found (mem_positionsIn_iff.mpr other)
          omega
        split
        · rename_i full
          exact .inl ⟨.inr (.inr (Nat.le_antisymm (card_nullablePositions_le low) full)), _, _, rfl⟩
        · rename_i room
          refine .inr ⟨?_, rfl⟩
          rintro (many | ⟨position, other, high⟩ | full)
          · exact few many
          · exact absurd (low position other) (Nat.not_lt.mpr high)
          · exact room (Nat.le_of_eq full.symm)

end Positions

namespace Rule

/-- A rule with symbols left out and recorded. -/
def without (rule : Rule History) (elision : Elision) : Rule History where
  lhs := rule.lhs
  rhs := withoutPositions elision.elided.positions rule.rhs
  history := { rule.history with elision := some elision }

theorem variant_eq_without {rule : Rule History} (fresh : rule.history.elision = none)
    {elision : Elision} {rest : List Symbol}
    (left : rest = withoutPositions elision.elided.positions rule.rhs) :
    rule.variant rest elision = rule.without elision := by
  have recorded : RuleHistory.elide rule.history elision =
      some { rule.history with elision := some elision } := by
    simp only [RuleHistory.elide, History.elide, fresh]
  rw [variant, recorded, left]
  rfl

section Elimination

variable {rule : Rule History} (fresh : rule.history.elision = none) {nullable : SymbolSet}
  {maxPositions : Nat}
include fresh

theorem eliminateNulling_eq_error {failure : GrammarError}
    (fails : Limits.checkPositions ⟨none, maxPositions⟩ (nullable.positionsIn rule.rhs) =
      .error failure) : rule.eliminateNulling nullable maxPositions = .error failure := by
  rw [eliminateNulling, variants, if_pos (admitsElision_iff.mpr fresh)]
  simp only [fails]
  rfl

/-- Within the limits, all that can be left is tallied and becomes variants. -/
theorem exists_eliminateNulling_eq_ok (few : ¬TooManyPositions nullable rule.rhs maxPositions)
    (accepted : Limits.checkPositions ⟨none, maxPositions⟩ (nullable.positionsIn rule.rhs) = .ok ()) :
    ∃ elisions : List Elision,
      rule.eliminateNulling nullable maxPositions = .ok (elisions.map rule.without) ∧
        Enumerates nullable rule.rhs elisions := by
  have low : ∀ position ∈ nullablePositions nullable rule.rhs, position < PositionSet.capacity := by
    intro position member
    by_contra high
    exact few (.inr (.inl ⟨position, member, Nat.le_of_not_lt high⟩))
  have accepts (count : Nat) : Limits.checkRules ⟨none, maxPositions⟩ (0 + count) = .ok () := rfl
  obtain ⟨table, made, tallies⟩ := VariantTable.exists_ofPositions_tallies accepts low
  refine ⟨_, ?_, tallies.enumerates low⟩
  rw [eliminateNulling, variants, if_pos (admitsElision_iff.mpr fresh)]
  simp only [accepted, made, VariantTable.elisions, List.map_map]
  refine congrArg Except.ok (List.map_congr_left fun entry found => ?_)
  exact variant_eq_without fresh (tallies.left_of_mem low found).1

end Elimination

/-- A rule that has not been through elimination has too many nullable positions, or else all of its
variants are enumerated. -/
theorem eliminateNulling_enumerates {rule : Rule History} (fresh : rule.history.elision = none)
    (nullable : SymbolSet) (maxPositions : Nat) :
    ((∃ limit attempted, rule.eliminateNulling nullable maxPositions =
        .error (.tooLarge limit attempted)) ↔ TooManyPositions nullable rule.rhs maxPositions) ∧
      (¬TooManyPositions nullable rule.rhs maxPositions → ∃ elisions : List Elision,
        rule.eliminateNulling nullable maxPositions = .ok (elisions.map rule.without) ∧
          Enumerates nullable rule.rhs elisions) := by
  rcases checkPositions_cases ⟨none, maxPositions⟩ nullable rule.rhs with
    ⟨many, limit, attempted, fails⟩ | ⟨few, accepted⟩
  · have failed := eliminateNulling_eq_error fresh fails
    exact ⟨⟨fun _ => many, fun _ => ⟨limit, attempted, failed⟩⟩, fun few => absurd many few⟩
  · have enumerated := exists_eliminateNulling_eq_ok fresh few accepted
    refine ⟨⟨?_, fun many => absurd many few⟩, fun _ => enumerated⟩
    rintro ⟨limit, attempted, failed⟩
    obtain ⟨elisions, done, _⟩ := enumerated
    rw [failed] at done
    cases done

/-- A letter after two signs that can be left out. -/
def optionalPair : Rule History :=
  ⟨⟨0⟩, [⟨1⟩, ⟨1⟩, ⟨2⟩], { origin := some (.rule 0) }⟩

/-- One sign can be left out in two ways, and the first of them counts. -/
theorem optionalPair_eliminateNulling_enumerates :
    (∃ limit attempted, optionalPair.eliminateNulling (.ofList [⟨1⟩]) 1 =
      .error (.tooLarge limit attempted)) ∧
    ∃ elisions : List Elision, elisions = [⟨.empty, 3, 1⟩, ⟨⟨1⟩, 3, 2⟩, ⟨⟨3⟩, 3, 1⟩] ∧
      optionalPair.eliminateNulling (.ofList [⟨1⟩]) 20 = .ok (elisions.map optionalPair.without) ∧
      Enumerates (.ofList [⟨1⟩]) optionalPair.rhs elisions := by
  have fresh : optionalPair.history.elision = none := rfl
  refine ⟨(eliminateNulling_enumerates fresh _ 1).1.mpr (by decide), ?_⟩
  obtain ⟨elisions, done, enumerates⟩ :=
    (eliminateNulling_enumerates fresh (.ofList [⟨1⟩]) 20).2 (by decide)
  refine ⟨elisions, ?_, done, enumerates⟩
  have recorded : (optionalPair.eliminateNulling (.ofList [⟨1⟩]) 20).map
      (List.map fun other => other.history.elision) =
        .ok ([⟨.empty, 3, 1⟩, ⟨⟨1⟩, 3, 2⟩, ⟨⟨3⟩, 3, 1⟩].map some) := by cbv
  rw [done] at recorded
  have shown := Except.ok.inj recorded
  rw [List.map_map] at shown
  exact List.map_injective_iff.mpr (Option.some_injective _) shown

end Rule

end TracedGrammar
