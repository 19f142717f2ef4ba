import Mathlib.Data.Nat.Size
import TracedGrammar.Proofs.Repetition.Descent

/-!
# What comes up while a count is halved

Halving a count at powers of two comes to powers of two and to what is left of the count below one.
So the repetitions that come up while one is written are among a few for each binary digit of its
bounds: those for halved counts, and those that lead to a repetition of one item or more with at
most separators between items.
-/

namespace TracedGrammar

/-- The power of two at which a count is halved leaves a rest that is not larger than itself. -/
theorem exists_halfPower_eq {count : Nat} (several : 2 ≤ count) :
    ∃ place, halfPower count = 2 ^ place ∧ 2 ^ place < count ∧ count ≤ 2 ^ (place + 1) := by
  have positive : count - 1 ≠ 0 := by omega
  have lower := Nat.log2_self_le positive
  have upper := Nat.lt_log2_self (n := count - 1)
  exact ⟨(count - 1).log2, by rw [halfPower, Nat.one_shiftLeft], by omega, by omega⟩

/-- What halving comes to from a count with some number of binary digits. -/
def halvings (digits count : Nat) : List Nat :=
  (List.range (digits + 1)).map (count % 2 ^ ·) ++ (List.range digits).map (2 ^ ·)

section Halvings

variable {digits count part place : Nat}

theorem mem_halvings_iff : part ∈ halvings digits count ↔
    (∃ place ≤ digits, count % 2 ^ place = part) ∨ ∃ place < digits, 2 ^ place = part := by
  simp only [halvings, List.mem_append, List.mem_map, List.mem_range, Nat.lt_succ_iff]

theorem length_halvings (digits count : Nat) : (halvings digits count).length = 2 * digits + 1 := by
  rw [halvings, List.length_append, List.length_map, List.length_map, List.length_range,
    List.length_range]
  omega

theorem two_pow_mem_halvings (small : place < digits) : 2 ^ place ∈ halvings digits count :=
  mem_halvings_iff.mpr (.inr ⟨place, small, rfl⟩)

theorem self_mem_halvings (small : count < 2 ^ digits) : count ∈ halvings digits count :=
  mem_halvings_iff.mpr (.inl ⟨digits, Nat.le_refl _, Nat.mod_eq_of_lt small⟩)

theorem lt_of_mem_halvings (member : part ∈ halvings digits count) : part < 2 ^ digits := by
  rcases mem_halvings_iff.mp member with ⟨place, few, rfl⟩ | ⟨place, few, rfl⟩
  · have below := Nat.mod_lt count (Nat.two_pow_pos place)
    exact Nat.lt_of_lt_of_le below (Nat.pow_le_pow_right Nat.two_pos few)
  · exact Nat.pow_lt_pow_right Nat.one_lt_two few

/-- Both halves of what halving has come to are such, too. -/
theorem exists_halves_of_mem_halvings (member : part ∈ halvings digits count) (several : 2 ≤ part) :
    ∃ place < digits, halfPower part = 2 ^ place ∧ part - 2 ^ place ∈ halvings digits count := by
  obtain ⟨place, half, lower, upper⟩ := exists_halfPower_eq several
  have small : place < digits :=
    (Nat.pow_lt_pow_iff_right Nat.one_lt_two).mp (lower.trans (lt_of_mem_halvings member))
  refine ⟨place, small, half, ?_⟩
  rw [Nat.pow_succ] at upper
  rcases Nat.lt_or_ge part (2 ^ place * 2) with less | whole
  · -- The highest digit is at the place, so that the rest are the digits below it.
    have rest : part - 2 ^ place = part % 2 ^ place := by
      rw [Nat.mod_eq_sub_mod (Nat.le_of_lt lower), Nat.mod_eq_of_lt (by omega)]
    rcases mem_halvings_iff.mp member with ⟨digit, few, rfl⟩ | ⟨digit, few, rfl⟩
    · have higher : place ≤ digit := by
        refine (Nat.pow_le_pow_iff_right Nat.one_lt_two).mp (lower.le.trans ?_)
        exact Nat.le_of_lt (Nat.mod_lt _ (Nat.two_pow_pos digit))
      rw [rest, Nat.mod_mod_of_dvd _ (Nat.pow_dvd_pow 2 higher)]
      exact mem_halvings_iff.mpr (.inl ⟨place, small.le, rfl⟩)
    · have above := (Nat.pow_lt_pow_iff_right Nat.one_lt_two).mp lower
      rw [← Nat.pow_succ] at less
      have below := (Nat.pow_lt_pow_iff_right Nat.one_lt_two).mp less
      omega
  · rw [show part - 2 ^ place = 2 ^ place by omega]
    exact two_pow_mem_halvings small

end Halvings

namespace Repetition

variable {parent child base : Repetition}

/-- What comes up while a repetition of one item or more is written, when its bounds have some number
of binary digits.  A fixed number of items comes first, and then up to a number of others. -/
def pieces (base : Repetition) (digits fixed spread : Nat) : List Repetition :=
  (halvings digits spread).map (fun most => base.between 1 (some most)) ++
    (halvings digits fixed).map base.exactly ++
    (List.range digits).map (fun place => (base.exactly (2 ^ place)).leading) ++
    [(base.exactly fixed).leading, base.between 1 none]

section Pieces

variable {digits fixed spread count : Nat}

theorem length_pieces (base : Repetition) (digits fixed spread : Nat) :
    (base.pieces digits fixed spread).length = 5 * digits + 4 := by
  simp only [pieces, List.length_append, List.length_map, length_halvings, List.length_range,
    List.length_cons, List.length_nil]
  omega

theorem between_mem_pieces (member : count ∈ halvings digits spread) :
    base.between 1 (some count) ∈ base.pieces digits fixed spread := by
  simp only [pieces, List.mem_append, List.mem_map]
  exact .inl (.inl (.inl ⟨count, member, rfl⟩))

theorem exactly_mem_pieces (member : count ∈ halvings digits fixed) :
    base.exactly count ∈ base.pieces digits fixed spread := by
  simp only [pieces, List.mem_append, List.mem_map]
  exact .inl (.inl (.inr ⟨count, member, rfl⟩))

theorem block_mem_pieces {place : Nat} (small : place < digits) :
    (base.exactly (2 ^ place)).leading ∈ base.pieces digits fixed spread := by
  simp only [pieces, List.mem_append, List.mem_map]
  exact .inl (.inr ⟨place, List.mem_range.mpr small, rfl⟩)

theorem start_mem_pieces : (base.exactly fixed).leading ∈ base.pieces digits fixed spread := by
  simp [pieces]

theorem unbounded_mem_pieces : base.between 1 none ∈ base.pieces digits fixed spread := by
  simp [pieces]

theorem cases_of_mem_pieces {piece : Repetition} (member : piece ∈ base.pieces digits fixed spread) :
    (∃ most ∈ halvings digits spread, piece = base.between 1 (some most)) ∨
      (∃ count ∈ halvings digits fixed, piece = base.exactly count) ∨
      (∃ place < digits, piece = (base.exactly (2 ^ place)).leading) ∨
      piece = (base.exactly fixed).leading ∨ piece = base.between 1 none := by
  simp only [pieces, List.mem_append, List.mem_map, List.mem_range, List.mem_cons, List.not_mem_nil,
    or_false] at member
  rcases member with ((⟨most, inside, rfl⟩ | ⟨count, inside, rfl⟩) | ⟨place, small, rfl⟩) | last
  · exact .inl ⟨most, inside, rfl⟩
  · exact .inr (.inl ⟨count, inside, rfl⟩)
  · exact .inr (.inr (.inl ⟨place, small, rfl⟩))
  · exact .inr (.inr (.inr last))

variable (simple : base.separator.rank = 0)
include simple

/-- Where an item follows, a repetition is written by way of the same one without that. -/
theorem eq_or_mentions_of_leading (filled : base.least = 0 → base.most = some 0)
    (mentions : base.leading.Mentions child) : child = base ∨ base.Mentions child := by
  obtain ⟨item, least, most, separator⟩ := base
  cases separator with
  | absent => exact .inr mentions
  | proper symbol =>
      cases mentions with
      | positive zero some => exact absurd (filled zero) some
      | tight => exact .inl rfl
      | _ => grind [leading, separatedBy, Separator.leading, Separator.rank]
  | trailing symbol => cases simple
  | liberal symbol => cases simple

theorem mem_pieces_of_exactly (inside : count ∈ halvings digits fixed)
    (mentions : (base.exactly count).Mentions child) : child ∈ base.pieces digits fixed spread := by
  cases mentions with
  | block _ _ bounded many =>
      obtain rfl := Option.some.inj bounded
      obtain ⟨place, small, half, _⟩ := exists_halves_of_mem_halvings inside (by omega)
      rw [half]
      exact block_mem_pieces small
  | rest _ _ bounded many =>
      obtain rfl := Option.some.inj bounded
      obtain ⟨place, _, half, rest⟩ := exists_halves_of_mem_halvings inside (by omega)
      rw [half]
      exact exactly_mem_pieces rest
  | _ => grind [exactly, between, Separator.rank]

theorem mem_pieces_of_between {most : Nat} (inside : most ∈ halvings digits spread)
    (mentions : (base.between 1 (some most)).Mentions child) :
    child ∈ base.pieces digits fixed spread := by
  cases mentions with
  | either _ _ two few =>
      obtain rfl := Option.some.inj two
      have second : 1 < digits :=
        (Nat.pow_lt_pow_iff_right Nat.one_lt_two).mp (lt_of_mem_halvings inside)
      rcases few with rfl | rfl
      · exact exactly_mem_pieces (two_pow_mem_halvings (Nat.zero_lt_of_lt second))
      · exact exactly_mem_pieces (two_pow_mem_halvings second)
  | lower _ _ bounded many =>
      obtain rfl := Option.some.inj bounded
      obtain ⟨place, low, half, _⟩ := exists_halves_of_mem_halvings inside (by omega)
      rw [half]
      exact between_mem_pieces (two_pow_mem_halvings low)
  | upper _ _ bounded many =>
      obtain rfl := Option.some.inj bounded
      obtain ⟨place, _, half, rest⟩ := exists_halves_of_mem_halvings inside (by omega)
      rw [half]
      exact between_mem_pieces rest
  | block _ _ bounded many =>
      obtain rfl := Option.some.inj bounded
      obtain ⟨place, low, half, _⟩ := exists_halves_of_mem_halvings inside (by omega)
      rw [half]
      exact block_mem_pieces low
  | _ => grind [between, Separator.rank]

theorem not_mentions_unbounded : ¬(base.between 1 none).Mentions child := by
  intro mentions
  cases mentions with
  | _ => grind [between, Separator.rank]

/-- Only pieces come up where pieces are written. -/
theorem mem_pieces_of_mentions (small : fixed < 2 ^ digits)
    (member : parent ∈ base.pieces digits fixed spread) (mentions : parent.Mentions child) :
    child ∈ base.pieces digits fixed spread := by
  have followed {count : Nat} (inside : count ∈ halvings digits fixed)
      (mentions : (base.exactly count).leading.Mentions child) :
      child ∈ base.pieces digits fixed spread := by
    have alike : (base.exactly count).separator.rank = 0 := simple
    rcases eq_or_mentions_of_leading alike (congrArg some) mentions with rfl | mentions
    · exact exactly_mem_pieces inside
    · exact mem_pieces_of_exactly simple inside mentions
  rcases cases_of_mem_pieces member with
    ⟨most, inside, rfl⟩ | ⟨count, inside, rfl⟩ | ⟨place, low, rfl⟩ | rfl | rfl
  · exact mem_pieces_of_between simple inside mentions
  · exact mem_pieces_of_exactly simple inside mentions
  · exact followed (two_pow_mem_halvings low) mentions
  · exact followed (self_mem_halvings small) mentions
  · exact absurd mentions (not_mentions_unbounded simple)

end Pieces

/-- The same repetition with one item at least. -/
def nonempty (repetition : Repetition) : Repetition :=
  repetition.between (max 1 repetition.least) repetition.most

/-- A repetition of one item or more with at most separators between items. -/
def core (repetition : Repetition) : Repetition :=
  repetition.nonempty.separatedBy repetition.separator.tight

/-- The number of items that come first when a number of others is left open. -/
def fixedCount (repetition : Repetition) : Nat :=
  if repetition.most = some repetition.least then repetition.least else repetition.least - 1

def spreadCount (repetition : Repetition) : Nat :=
  repetition.most.getD repetition.least - repetition.least + 1

section Simple

variable {digits : Nat} (simple : base.separator.rank = 0) (mentions : base.Mentions child)
include simple mentions

theorem mem_pieces_of_fixed (fixed : base.most = some base.least)
    (small : base.fixedCount < 2 ^ digits) :
    child ∈ base.pieces digits base.fixedCount base.spreadCount := by
  have whole : base = base.exactly base.fixedCount := by
    rw [fixedCount, if_pos fixed, exactly, between, ← fixed]
  rw [whole] at mentions
  exact mem_pieces_of_exactly simple (self_mem_halvings small) mentions

theorem mem_pieces_of_one (one : base.least = 1) (wide : base.spreadCount < 2 ^ digits) :
    child ∈ base.pieces digits base.fixedCount base.spreadCount := by
  cases bounded : base.most with
  | none =>
      have whole : base = base.between 1 none := by rw [between, ← one, ← bounded]
      rw [whole] at mentions
      exact absurd mentions (not_mentions_unbounded simple)
  | some most =>
      have spread : base.spreadCount = most - 1 + 1 := by
        rw [spreadCount, bounded, one, Option.getD_some]
      rcases Nat.eq_zero_or_pos most with rfl | enough
      · cases mentions with
        | _ => grind [Separator.rank]
      · have whole : base = base.between 1 (some base.spreadCount) := by
          rw [between, spread, Nat.sub_add_cancel enough, ← one, ← bounded]
        rw [whole] at mentions
        exact mem_pieces_of_between simple (self_mem_halvings wide) mentions

/-- A fixed number of items comes before up to a number of others. -/
theorem mem_pieces_of_several (unfixed : base.most ≠ some base.least) (several : 2 ≤ base.least)
    (wide : base.spreadCount < 2 ^ digits) :
    child ∈ base.pieces digits base.fixedCount base.spreadCount := by
  cases mentions with
  | start =>
      rw [show base.least - 1 = base.fixedCount by rw [fixedCount, if_neg unfixed]]
      exact start_mem_pieces
  | span =>
      cases bounded : base.most with
      | none => exact unbounded_mem_pieces
      | some most =>
          have spread : base.spreadCount = most - base.least + 1 := by
            rw [spreadCount, bounded, Option.getD_some]
          rw [Option.map_some, ← spread]
          exact between_mem_pieces (self_mem_halvings wide)
  | _ => grind [Separator.rank]

end Simple

/-- The number of binary digits of the larger bound. -/
def digits (repetition : Repetition) : Nat :=
  Nat.size (max (max repetition.least (repetition.most.getD 0)) 1)

/-- All that can come up while a repetition is written. -/
def helpers (repetition : Repetition) : List Repetition :=
  [repetition.nonempty, repetition.core, repetition.core.leading] ++
    repetition.core.pieces repetition.digits repetition.core.fixedCount repetition.core.spreadCount

section Helpers

variable {repetition : Repetition}

theorem length_helpers (repetition : Repetition) :
    repetition.helpers.length = 5 * repetition.digits + 7 := by
  rw [helpers, List.length_append, length_pieces]
  simp only [List.length_cons, List.length_nil]
  omega

theorem mem_helpers_iff : child ∈ repetition.helpers ↔
    child = repetition.nonempty ∨ child = repetition.core ∨ child = repetition.core.leading ∨
      child ∈ repetition.core.pieces repetition.digits repetition.core.fixedCount
        repetition.core.spreadCount := by
  simp [helpers]

theorem simple_core (repetition : Repetition) : repetition.core.separator.rank = 0 :=
  repetition.separator.rank_tight

theorem least_core_pos (repetition : Repetition) : 1 ≤ repetition.core.least :=
  Nat.le_max_left _ _

theorem fixedCount_core_lt (repetition : Repetition) :
    repetition.core.fixedCount < 2 ^ repetition.digits := by
  have bound := Nat.lt_size_self (max (max repetition.least (repetition.most.getD 0)) 1)
  have least : repetition.core.least = max 1 repetition.least := rfl
  rw [digits, fixedCount]
  split <;> omega

theorem spreadCount_core_lt (valid : repetition.IsValid) :
    repetition.core.spreadCount < 2 ^ repetition.digits := by
  have bound := Nat.lt_size_self (max (max repetition.least (repetition.most.getD 0)) 1)
  rw [digits]
  change repetition.most.getD (max 1 repetition.least) - max 1 repetition.least + 1 < _
  cases bounded : repetition.most with
  | none =>
      rw [bounded] at bound
      simp only [Option.getD_none] at bound ⊢
      omega
  | some most =>
      have enough := valid most bounded
      rw [bounded] at bound
      simp only [Option.getD_some] at bound ⊢
      omega

theorem mem_pieces_of_core (valid : repetition.IsValid) (mentions : repetition.core.Mentions child) :
    child ∈ repetition.core.pieces repetition.digits repetition.core.fixedCount
      repetition.core.spreadCount := by
  have simple := repetition.simple_core
  have positive := repetition.least_core_pos
  by_cases fixed : repetition.core.most = some repetition.core.least
  · exact mem_pieces_of_fixed simple mentions fixed repetition.fixedCount_core_lt
  · by_cases one : repetition.core.least = 1
    · exact mem_pieces_of_one simple mentions one (spreadCount_core_lt valid)
    · exact mem_pieces_of_several simple mentions fixed (by omega) (spreadCount_core_lt valid)

theorem nonempty_mem_helpers (repetition : Repetition) :
    repetition.nonempty ∈ repetition.helpers :=
  mem_helpers_iff.mpr (.inl rfl)

theorem core_mem_helpers (repetition : Repetition) : repetition.core ∈ repetition.helpers :=
  mem_helpers_iff.mpr (.inr (.inl rfl))

theorem piece_mem_helpers (inside : child ∈ repetition.core.pieces repetition.digits
    repetition.core.fixedCount repetition.core.spreadCount) : child ∈ repetition.helpers :=
  mem_helpers_iff.mpr (.inr (.inr (.inr inside)))

theorem mem_helpers_of_core (valid : repetition.IsValid) (mentions : repetition.core.Mentions child) :
    child ∈ repetition.helpers :=
  piece_mem_helpers (mem_pieces_of_core valid mentions)

/-- Where an item follows, only the same repetition without that is mentioned, unless there are no
separators. -/
theorem mem_helpers_of_leading (valid : repetition.IsValid)
    (mentions : repetition.core.leading.Mentions child) : child ∈ repetition.helpers := by
  have positive := repetition.least_core_pos
  rcases eq_or_mentions_of_leading repetition.simple_core (by omega) mentions with rfl | mentions
  · exact core_mem_helpers repetition
  · exact mem_helpers_of_core valid mentions

/-- Separators after the last item are left to repetitions of their own before items are counted. -/
theorem mem_helpers_of_nonempty (valid : repetition.IsValid)
    (mentions : repetition.nonempty.Mentions child) : child ∈ repetition.helpers := by
  by_cases simple : repetition.separator.rank = 0
  · have same : repetition.separator.tight = repetition.separator := by
      revert simple
      cases repetition.separator <;> simp [Separator.tight, Separator.rank]
    have whole : repetition.nonempty = repetition.core := by rw [core, same]; rfl
    rw [whole] at mentions
    exact mem_helpers_of_core valid mentions
  · have loose : repetition.nonempty.separator.rank ≠ 0 := simple
    cases mentions with
    | positive zero => exact absurd zero (Nat.ne_of_gt (Nat.le_max_left 1 _))
    | tight => exact core_mem_helpers repetition
    | @trailing symbol _ liberal =>
        have separated : repetition.separator = .liberal symbol := liberal
        have whole : repetition.core.leading = repetition.nonempty.separatedBy (.trailing symbol) := by
          rw [leading, core, separated]
          rfl
        exact mem_helpers_iff.mpr (.inr (.inr (.inl whole.symm)))
    | _ => contradiction

theorem mem_helpers_of_mentions (valid : repetition.IsValid)
    (member : parent = repetition ∨ parent ∈ repetition.helpers) (mentions : parent.Mentions child) :
    child ∈ repetition.helpers := by
  rcases member with rfl | member
  · by_cases zero : parent.least = 0
    · cases mentions with
      | positive =>
          have whole : parent.nonempty = parent.between 1 parent.most := by
            rw [nonempty, zero, Nat.max_zero]
          rw [← whole]
          exact nonempty_mem_helpers parent
      | _ => grind
    · have whole : parent.nonempty = parent := by
        rw [nonempty, Nat.max_eq_right (Nat.one_le_iff_ne_zero.mpr zero)]
        rfl
      exact mem_helpers_of_nonempty valid (whole.symm ▸ mentions)
  · rcases mem_helpers_iff.mp member with rfl | rfl | rfl | piece
    · exact mem_helpers_of_nonempty valid mentions
    · exact mem_helpers_of_core valid mentions
    · exact mem_helpers_of_leading valid mentions
    · exact piece_mem_helpers (mem_pieces_of_mentions repetition.simple_core
        repetition.fixedCount_core_lt piece mentions)

theorem mem_helpers_of_isDescendant (valid : repetition.IsValid)
    (descends : child.IsDescendant repetition) : child ∈ repetition.helpers := by
  induction descends using Relation.TransGen.head_induction_on with
  | single mentioned => exact mem_helpers_of_mentions valid (.inl rfl) (mentions_of_isChild mentioned)
  | head mentioned _ inside =>
      exact mem_helpers_of_mentions valid (.inr inside) (mentions_of_isChild mentioned)

end Helpers

end Repetition

end TracedGrammar
