import TracedGrammar.Proofs.Normalization.Limits
import TracedGrammar.Proofs.Nulling.Enumeration

/-!
# Counts of alternatives

The alternatives of a variant are counted in 32 bits, so they are known up to a multiple of `2 ^ 32`
only.  Two sets of positions without which the same is left have the same size.  So there are at most
as many of them as there are sets of that size, and with 34 nullable positions these are still few
enough.  With 35 they are not: in a row of equal symbols all sets of a size leave the same.
-/

namespace TracedGrammar

section Ways

variable {nullable : SymbolSet} {rhs word : List Symbol} {removed : Finset Nat} {symbol : Symbol}

theorem nullablePositions_subset_range :
    nullablePositions nullable rhs ⊆ Finset.range rhs.length := by
  intro position member
  obtain ⟨_, _, here⟩ := mem_nullablePositions_iff.mp member
  exact Finset.mem_range.mpr (List.getElem?_eq_some_iff.mp here).1

theorem length_withoutPositions (inside : removed ⊆ Finset.range rhs.length) :
    (withoutPositions removed rhs).length = rhs.length - removed.card := by
  have places : (rhs.zipIdx.map Prod.snd).countP (· ∉ removed) =
      (Finset.range rhs.length \ removed).card := by
    rw [List.zipIdx_map_snd, ← List.range_eq_range', Finset.sdiff_eq_filter,
      List.countP_eq_length_filter]
    rfl
  rw [List.countP_map, Finset.card_sdiff_of_subset inside, Finset.card_range] at places
  rw [withoutPositions, List.length_map, ← List.countP_eq_length_filter, ← places]
  rfl

theorem mem_of_mem_withoutPositions (left : symbol ∈ withoutPositions removed rhs) :
    symbol ∈ rhs := by
  obtain ⟨item, member, rfl⟩ := List.mem_map.mp left
  exact List.fst_mem_of_mem_zipIdx (List.mem_filter.mp member).1

/-- What is left tells how many symbols were taken away. -/
theorem waysToLeave_subset : waysToLeave nullable rhs word ⊆
    (nullablePositions nullable rhs).powersetCard (rhs.length - word.length) := by
  intro removed member
  obtain ⟨removable, left⟩ := Finset.mem_filter.mp member
  rw [Finset.mem_powerset] at removable
  have inside := removable.trans nullablePositions_subset_range
  have few := Finset.card_le_card inside
  rw [Finset.card_range] at few
  rw [Finset.mem_powersetCard, ← left, length_withoutPositions inside]
  exact ⟨removable, by omega⟩

theorem card_waysToLeave_le_choose : (waysToLeave nullable rhs word).card ≤
    (nullablePositions nullable rhs).card.choose (rhs.length - word.length) := by
  rw [← Finset.card_powersetCard]
  exact Finset.card_le_card waysToLeave_subset

/-- Numbers of 32 bits count the sets of one size among up to 34 positions. -/
theorem card_waysToLeave_lt_of_le (few : (nullablePositions nullable rhs).card ≤ 34)
    (word : List Symbol) : (waysToLeave nullable rhs word).card < UInt32.size :=
  calc (waysToLeave nullable rhs word).card
      ≤ (nullablePositions nullable rhs).card.choose (rhs.length - word.length) :=
        card_waysToLeave_le_choose
    _ ≤ Nat.choose 34 (rhs.length - word.length) := Nat.choose_le_choose _ few
    _ ≤ Nat.choose 34 (34 / 2) := Nat.choose_le_middle _ _
    _ < UInt32.size := by norm_num [Nat.choose_eq_factorial_div_factorial, Nat.factorial]

theorem withoutPositions_replicate {count : Nat} (inside : removed ⊆ Finset.range count) :
    withoutPositions removed (List.replicate count symbol) =
      List.replicate (count - removed.card) symbol := by
  refine List.eq_replicate_iff.mpr ⟨?_, fun other member => ?_⟩
  · rw [length_withoutPositions (by rwa [List.length_replicate]), List.length_replicate]
  · exact List.eq_of_mem_replicate (mem_of_mem_withoutPositions member)

/-- All sets of a size leave the same of a row of equal symbols. -/
theorem card_waysToLeave_replicate {total count : Nat} (isNullable : symbol ∈ nullable)
    (few : count ≤ total) :
    (waysToLeave nullable (List.replicate total symbol) (List.replicate count symbol)).card =
      total.choose count := by
  have all : nullablePositions nullable (List.replicate total symbol) = Finset.range total := by
    ext position
    rw [mem_nullablePositions_iff, Finset.mem_range]
    constructor
    · rintro ⟨other, _, here⟩
      simpa using (List.getElem?_eq_some_iff.mp here).1
    · intro inside
      exact ⟨symbol, isNullable, by rw [List.getElem?_replicate, if_pos inside]⟩
  have same : waysToLeave nullable (List.replicate total symbol) (List.replicate count symbol) =
      (Finset.range total).powersetCard (total - count) := by
    ext removed
    rw [waysToLeave, all, Finset.mem_filter, Finset.mem_powerset, Finset.mem_powersetCard]
    refine and_congr_right fun inside => ?_
    have fits := Finset.card_le_card inside
    rw [Finset.card_range] at fits
    rw [withoutPositions_replicate inside, List.replicate_inj, and_iff_left (.inr rfl)]
    omega
  rw [same, Finset.card_powersetCard, Finset.card_range, Nat.choose_symm few]

end Ways

/-- Counts by remainders add up to all when no count is too large for them. -/
theorem sum_mod_eq_iff {α : Type} {count : α → Nat} {size : Nat} (positive : 0 < size)
    (items : List α) : (items.map fun item => count item % size).sum = (items.map count).sum ↔
      ∀ item ∈ items, count item < size := by
  induction items with
  | nil => simp
  | cons item items induction =>
      have first := Nat.mod_le (count item) size
      have rest : (items.map fun item => count item % size).sum ≤ (items.map count).sum :=
        List.sum_le_sum fun other _ => Nat.mod_le (count other) size
      rw [List.map_cons, List.map_cons, List.sum_cons, List.sum_cons, List.forall_mem_cons,
        ← induction, ← Nat.mod_eq_iff_lt (Nat.ne_of_gt positive)]
      omega

/-- What is recorded for a right-hand side that a table has found. -/
def VariantTable.record (table : VariantTable) (lengthBefore : Nat)
    (entry : List Symbol × PositionSet) : Elision :=
  ⟨entry.2, lengthBefore, table.alternatives.getD entry.1 0⟩

namespace Rule

/-- The number of sets of nullable positions without which the same is left as without some others. -/
def ways (rule : Rule History) (nullable : SymbolSet) (elision : Elision) : Nat :=
  (waysToLeave nullable rule.rhs (rule.without elision).rhs).card

/-- The recorded alternatives of the variants are all that there are. -/
structure CountsAlternatives (rule : Rule History) (nullable : SymbolSet) (elisions : List Elision) :
    Prop where
  fits : ∀ elision ∈ elisions, rule.ways nullable elision ≤ 2 ^ 32 - 1
  recorded : ∀ elision ∈ elisions, elision.alternatives.toNat = rule.ways nullable elision
  sum_eq : (elisions.map fun elision => elision.alternatives.toNat).sum =
    2 ^ (nullablePositions nullable rule.rhs).card

theorem without_injective (rule : Rule History) : Function.Injective rule.without :=
  fun _ _ same => Option.some_inj.mp (congrArg (fun other => other.history.elision) same)

section Counts

variable {rule : Rule History} {nullable : SymbolSet} {elisions : List Elision}
  (recorded : ∀ elision ∈ elisions,
    elision.alternatives.toNat = rule.ways nullable elision % 2 ^ 32)
  (all : (elisions.map (rule.ways nullable)).sum = 2 ^ (nullablePositions nullable rule.rhs).card)
include recorded

theorem recorded_of_fits (fits : ∀ elision ∈ elisions, rule.ways nullable elision ≤ 2 ^ 32 - 1) :
    ∀ elision ∈ elisions, elision.alternatives.toNat = rule.ways nullable elision := by
  intro elision member
  have few := fits elision member
  rw [recorded elision member, Nat.mod_eq_of_lt (by omega)]

include all

theorem countsAlternatives_of_fits
    (fits : ∀ elision ∈ elisions, rule.ways nullable elision ≤ 2 ^ 32 - 1) :
    rule.CountsAlternatives nullable elisions where
  fits := fits
  recorded := recorded_of_fits recorded fits
  sum_eq := by rw [← all, List.map_congr_left (recorded_of_fits recorded fits)]

theorem countsAlternatives_of_sum_eq
    (sum : (elisions.map fun elision => elision.alternatives.toNat).sum =
      2 ^ (nullablePositions nullable rule.rhs).card) :
    rule.CountsAlternatives nullable elisions := by
  apply countsAlternatives_of_fits recorded all
  rw [List.map_congr_left recorded, ← all, sum_mod_eq_iff (Nat.two_pow_pos 32)] at sum
  exact fun elision member => Nat.le_sub_one_of_lt (sum elision member)

end Counts

section Alternatives

variable {rule : Rule History} (fresh : rule.history.elision = none) {nullable : SymbolSet}
  {limits : Limits} {produced : Nat} {variants : List (Rule History)}
include fresh

/-- A rule that has not been through elimination has the variants that are tallied. -/
theorem exists_tallies (succeeds : rule.variants nullable limits produced = .ok variants) :
    (∀ position ∈ nullablePositions nullable rule.rhs, position < PositionSet.capacity) ∧
      ∃ table : VariantTable,
        table.Tallies ((List.range (2 ^ (nullablePositions nullable rule.rhs).card)).map
          (leaving nullable rule.rhs)) ∧
        variants = (table.found.toList.map (table.record rule.rhs.length)).map rule.without := by
  have unlimited := (variants_limited_iff.mp succeeds).1
  rw [Rule.variants, if_pos (admitsElision_iff.mpr fresh)] at unlimited
  simp only [bind_eq_ok_iff] at unlimited
  obtain ⟨_, accepted, table, made, same⟩ := unlimited
  have low : ∀ position ∈ nullablePositions nullable rule.rhs, position < PositionSet.capacity := by
    rcases checkPositions_cases limits.unlimited nullable rule.rhs with
      ⟨_, _, _, refused⟩ | ⟨few, _⟩
    · rw [refused] at accepted
      cases accepted
    · intro position member
      by_contra high
      exact few (.inr (.inl ⟨position, member, Nat.le_of_not_lt high⟩))
  have accepts (count : Nat) : limits.unlimited.checkRules (produced + count) = .ok () := rfl
  obtain ⟨other, alsoMade, tallies⟩ := VariantTable.exists_ofPositions_tallies accepts low
  obtain rfl : other = table := Except.ok.inj (alsoMade.symm.trans made)
  refine ⟨low, other, tallies, ?_⟩
  rw [← Except.ok.inj same, VariantTable.elisions, List.map_map, List.map_map]
  exact List.map_congr_left fun entry found =>
    variant_eq_without fresh (tallies.left_of_mem low found).1

/-- The alternatives of the variants are counted modulo `2 ^ 32`. -/
theorem exists_recorded (succeeds : rule.variants nullable limits produced = .ok variants) :
    ∃ elisions : List Elision, variants = elisions.map rule.without ∧
      (∀ elision ∈ elisions,
        elision.alternatives.toNat = rule.ways nullable elision % 2 ^ 32) ∧
      (elisions.map (rule.ways nullable)).sum =
        2 ^ (nullablePositions nullable rule.rhs).card := by
  obtain ⟨low, table, tallies, rfl⟩ := exists_tallies fresh succeeds
  have left (entry : List Symbol × PositionSet) (found : entry ∈ table.found.toList) :
      rule.ways nullable (table.record rule.rhs.length entry) =
        (waysToLeave nullable rule.rhs entry.1).card := by
    rw [(tallies.left_of_mem low found).1]
    rfl
  refine ⟨_, rfl, ?recorded, ?all⟩
  case recorded =>
    rw [List.forall_mem_map]
    intro entry found
    rw [left entry found, VariantTable.record, tallies.alternatives_of_mem low found]
    exact UInt32.toNat_ofNat'
  case all =>
    rw [List.map_map, ← tallies.sum_card_waysToLeave low]
    exact congrArg List.sum (List.map_congr_left left)

/-- The alternatives of the variants are counted modulo `2 ^ 32`.  They are the true ones if no count is
larger, which is so for up to 34 nullable positions, and otherwise they do not add up. -/
theorem variants_alternatives
    (succeeds : rule.variants nullable limits produced = .ok variants) :
    ∃ elisions : List Elision, variants = elisions.map rule.without ∧
      (∀ elision ∈ elisions,
        elision.alternatives.toNat = rule.ways nullable elision % 2 ^ 32) ∧
      (elisions.map (rule.ways nullable)).sum = 2 ^ (nullablePositions nullable rule.rhs).card ∧
      (rule.CountsAlternatives nullable elisions ↔
        ∀ elision ∈ elisions, rule.ways nullable elision ≤ 2 ^ 32 - 1) ∧
      ((elisions.map fun elision => elision.alternatives.toNat).sum =
          2 ^ (nullablePositions nullable rule.rhs).card →
        rule.CountsAlternatives nullable elisions) ∧
      ((nullablePositions nullable rule.rhs).card ≤ 34 →
        rule.CountsAlternatives nullable elisions) := by
  obtain ⟨elisions, same, recorded, all⟩ := exists_recorded fresh succeeds
  refine ⟨elisions, same, recorded, all, ⟨CountsAlternatives.fits, ?_⟩,
    countsAlternatives_of_sum_eq recorded all, ?_⟩
  · exact countsAlternatives_of_fits recorded all
  · intro few
    refine countsAlternatives_of_fits recorded all fun elision _ => ?_
    exact Nat.le_sub_one_of_lt (card_waysToLeave_lt_of_le few _)

end Alternatives

theorem optionalPair_variants_alternatives :
    optionalPair.history.elision = none ∧
      ∃ variants, optionalPair.variants (.ofList [⟨1⟩]) {} 7 = .ok variants ∧
        ∃ elisions : List Elision, variants = elisions.map optionalPair.without ∧
          optionalPair.CountsAlternatives (.ofList [⟨1⟩]) elisions := by
  have fresh : optionalPair.history.elision = none := rfl
  obtain ⟨variants, succeeds⟩ := exists_eq_ok
    (by cbv : (optionalPair.variants (.ofList [⟨1⟩]) {} 7).toBool = true)
  obtain ⟨elisions, same, _, _, _, _, few⟩ := variants_alternatives fresh succeeds
  exact ⟨fresh, variants, succeeds, elisions, same, few (by decide)⟩

/-- A row of 35 signs that can be left out. -/
def optionalRow : Rule History :=
  ⟨⟨0⟩, List.replicate 35 ⟨1⟩, { origin := some (.rule 0) }⟩

/-- Half of the signs can be left out in more ways than 32 bits can count. -/
theorem optionalRow_not_countsAlternatives :
    optionalRow.history.elision = none ∧ ∃ elisions : List Elision,
      optionalRow.eliminateNulling (.ofList [⟨1⟩]) 35 = .ok (elisions.map optionalRow.without) ∧
      (∃ elision ∈ elisions, optionalRow.ways (.ofList [⟨1⟩]) elision = 4537567650 ∧
        elision.alternatives.toNat = 242600354) ∧
      ¬optionalRow.CountsAlternatives (.ofList [⟨1⟩]) elisions := by
  have fresh : optionalRow.history.elision = none := rfl
  have few : ¬TooManyPositions (.ofList [⟨1⟩]) optionalRow.rhs 35 := by decide
  have accepted := (checkPositions_cases ⟨none, 35⟩ (.ofList [⟨1⟩]) optionalRow.rhs).resolve_left
    fun refused => few refused.1
  obtain ⟨elisions, succeeds, enumerates⟩ := exists_eliminateNulling_eq_ok fresh few accepted.2
  obtain ⟨others, same, recorded, _⟩ := exists_recorded fresh succeeds
  obtain rfl := List.map_injective_iff.mpr optionalRow.without_injective same
  obtain ⟨elision, ⟨member, left⟩, _⟩ := enumerates.existsUnique (Finset.range 17) (by decide)
  have half : withoutPositions (Finset.range 17) optionalRow.rhs = List.replicate 18 ⟨1⟩ :=
    withoutPositions_replicate (by decide)
  have many : optionalRow.ways (.ofList [⟨1⟩]) elision = 4537567650 := by
    rw [ways, without, left, half]
    refine (card_waysToLeave_replicate (by decide) (by decide)).trans ?_
    norm_num [Nat.choose_eq_factorial_div_factorial, Nat.factorial]
  refine ⟨fresh, elisions, succeeds, ⟨elision, member, many, ?_⟩, fun counts => ?_⟩
  · rw [recorded elision member, many]
    rfl
  · have fits := counts.fits elision member
    rw [many] at fits
    omega

end Rule

end TracedGrammar
