import TracedGrammar.Proofs.Repetition.Rows

/-!
# Alternatives write the words of a repetition

The alternatives of a repetition are an equation for its words, in which smaller repetitions and
perhaps the repetition itself occur.  The words solve the equation: whatever an alternative writes
is a word.  They are its least solution: every word is written by some alternative, and where the
repetition itself occurs there, a shorter word stands.
-/

namespace TracedGrammar

namespace Repetition

section Runs

variable {repetition : Repetition} {whole : Language Symbol} {word : List Symbol}

theorem mem_iff_of_unbounded_run (simple : repetition.separator.rank = 0)
    (one : repetition.least = 1) (unbounded : repetition.most = none)
    (inner : ∀ other ∈ whole, other ∈ repetition)
    (outer : ∀ other ∈ repetition, other.length < word.length → other ∈ whole) :
    word ∈ repetition ↔ word = repetition.run 0 ∨
      ∃ first ∈ whole, word = first ++ repetition.step := by
  have positive : repetition.least ≠ 0 := by omega
  have allows (count : Nat) : repetition.Allows (count + 1) :=
    ⟨by omega, fun most bounded => by simp [unbounded] at bounded⟩
  rw [mem_iff_of_simple _ _ simple positive]
  constructor
  · rintro ⟨count, _, rfl⟩
    cases count with
    | zero => exact .inl rfl
    | succ count =>
        have earlier := (mem_iff_of_simple _ _ simple positive).mpr ⟨count, allows count, rfl⟩
        refine .inr ⟨repetition.run count, outer _ earlier ?_, repetition.run_succ count⟩
        rw [run_succ]
        simp [step]
  · rintro (rfl | ⟨first, inFirst, rfl⟩)
    · exact ⟨0, allows 0, rfl⟩
    · obtain ⟨count, _, rfl⟩ := (mem_iff_of_simple _ _ simple positive).mp (inner first inFirst)
      exact ⟨count + 1, allows _, (repetition.run_succ count).symm⟩

theorem mem_iff_exists_bounded_run (simple : repetition.separator.rank = 0)
    (one : repetition.least = 1) {most : Nat} (found : repetition.most = some most)
    (enough : 1 ≤ most) :
    word ∈ repetition ↔ ∃ row ∈ repetition.runs repetition.separator.glue,
      word ∈ Part.rowReading whole language row := by
  have allows (count : Nat) : repetition.Allows (count + 1) ↔ count + 1 ≤ most := by
    simp [Allows, one, found]
  rw [mem_iff_of_simple _ _ simple (by omega)]
  simp only [allows, runs, if_pos one, found]
  split
  · simp only [List.mem_cons, List.not_mem_nil, or_false, exists_eq_left, mem_rowReading_item]
    constructor
    · rintro ⟨count, allowed, rfl⟩
      rw [show count = 0 by omega]
    · rintro rfl
      exact ⟨0, enough, rfl⟩
  · split
    · simp only [List.mem_cons, List.not_mem_nil, or_false, exists_eq_or_imp, exists_eq_left,
        mem_rowReading_exactly simple 0, mem_rowReading_exactly simple 1]
      constructor
      · rintro ⟨count, allowed, rfl⟩
        rcases (by omega : count = 0 ∨ count = 1) with rfl | rfl
        · exact .inl rfl
        · exact .inr rfl
      · rintro (rfl | rfl)
        · exact ⟨0, by omega, rfl⟩
        · exact ⟨1, by omega, rfl⟩
    · have halfSmall := halfPower_lt (by omega : 2 ≤ most)
      simp only [List.mem_cons, List.not_mem_nil, or_false, exists_eq_or_imp, exists_eq_left,
        mem_rowReading_nested simple one_ne_zero, mem_rowReading_pair simple one_ne_zero,
        allows_between, Option.some.injEq, forall_eq']
      constructor
      · rintro ⟨count, allowed, rfl⟩
        by_cases low : count < halfPower most
        · exact .inl ⟨count, by omega, rfl⟩
        · refine .inr ⟨count - halfPower most, by omega, ?_⟩
          rw [Nat.add_sub_cancel' (by omega)]
      · rintro (⟨count, allowed, rfl⟩ | ⟨count, allowed, rfl⟩)
        · exact ⟨count, by omega, rfl⟩
        · exact ⟨halfPower most + count, by omega, rfl⟩

theorem mem_iff_exists_fixed_run (simple : repetition.separator.rank = 0)
    (two : 2 ≤ repetition.least) (fixed : repetition.most = some repetition.least) :
    word ∈ repetition ↔ ∃ row ∈ repetition.runs repetition.separator.glue,
      word ∈ Part.rowReading whole language row := by
  have only : word ∈ repetition ↔ word = repetition.run (repetition.least - 1) := by
    rw [mem_iff_of_simple _ _ simple (by omega)]
    constructor
    · rintro ⟨count, allowed, rfl⟩
      have high := allowed.2 repetition.least fixed
      have low := allowed.1
      rw [show count = repetition.least - 1 by omega]
    · rintro rfl
      refine ⟨repetition.least - 1, ⟨by omega, fun most found => ?_⟩, rfl⟩
      rw [fixed, Option.some.injEq] at found
      omega
  rw [only]
  simp only [runs, if_neg (by omega : repetition.least ≠ 1), if_pos fixed]
  split
  · rename_i exact
    have pair : Part.symbol repetition.item :: repetition.separator.glue.map Part.symbol ++
        [Part.symbol repetition.item] = (repetition.run 1).map Part.symbol := by
      rw [run_succ]
      simp [run, step]
    simp only [exact, List.mem_cons, List.not_mem_nil, or_false, exists_eq_left]
    rw [pair, Part.mem_rowReading_symbols]
  · have halfSmall := halfPower_lt two
    simp only [List.mem_cons, List.not_mem_nil, or_false, exists_eq_left]
    rw [show repetition.exactly (repetition.least - halfPower repetition.least) =
      repetition.between _ (some _) from rfl, mem_rowReading_pair simple (by omega)]
    simp only [allows_between, Option.some.injEq, forall_eq']
    constructor
    · rintro rfl
      refine ⟨repetition.least - 1 - halfPower repetition.least, by omega, ?_⟩
      rw [Nat.add_sub_cancel' (by omega)]
    · rintro ⟨count, allowed, rfl⟩
      congr 1
      omega

theorem mem_iff_exists_unfixed_run (simple : repetition.separator.rank = 0)
    (two : 2 ≤ repetition.least) (valid : repetition.IsValid)
    (notFixed : repetition.most ≠ some repetition.least) :
    word ∈ repetition ↔ ∃ row ∈ repetition.runs repetition.separator.glue,
      word ∈ Part.rowReading whole language row := by
  rw [mem_iff_of_simple _ _ simple (by omega)]
  simp only [runs, if_neg (by omega : repetition.least ≠ 1), if_neg notFixed, List.mem_cons,
    List.not_mem_nil, or_false, exists_eq_left, mem_rowReading_pair simple one_ne_zero,
    allows_between]
  constructor
  · rintro ⟨count, allowed, rfl⟩
    have atLeast := allowed.1
    refine ⟨count - (repetition.least - 1), ⟨by omega, fun most found => ?_⟩, ?_⟩
    · obtain ⟨greatest, isMost, rfl⟩ := Option.map_eq_some_iff.mp found
      have atMost := allowed.2 greatest isMost
      omega
    · rw [Nat.add_sub_cancel' (by omega)]
  · rintro ⟨count, allowed, rfl⟩
    refine ⟨repetition.least - 1 + count, ⟨by omega, fun most found => ?_⟩, rfl⟩
    have enough := valid most found
    have atMost := allowed.2 (most - repetition.least + 1) (by rw [found]; rfl)
    omega

/-- The equation for repetitions of one item or more without trailing separators. -/
theorem mem_iff_exists_run (simple : repetition.separator.rank = 0)
    (positive : repetition.least ≠ 0) (valid : repetition.IsValid)
    (inner : ∀ other ∈ whole, other ∈ repetition)
    (outer : ∀ other ∈ repetition, other.length < word.length → other ∈ whole) :
    word ∈ repetition ↔ ∃ row ∈ repetition.runs repetition.separator.glue,
      word ∈ Part.rowReading whole language row := by
  by_cases one : repetition.least = 1
  · cases found : repetition.most with
    | none =>
        rw [mem_iff_of_unbounded_run simple one found inner outer]
        simp only [runs, if_pos one, found, List.mem_cons, List.not_mem_nil, or_false,
          exists_eq_or_imp, exists_eq_left, mem_rowReading_item, mem_rowReading_step]
    | some most => exact mem_iff_exists_bounded_run simple one found (one ▸ valid most found)
  · have two : 2 ≤ repetition.least := by omega
    by_cases fixed : repetition.most = some repetition.least
    · exact mem_iff_exists_fixed_run simple two fixed
    · exact mem_iff_exists_unfixed_run simple two valid fixed

end Runs

section Equation

variable {repetition : Repetition} {whole : Language Symbol} {word : List Symbol}

theorem mem_liberal_iff {symbol : Symbol} (liberal : repetition.separator = .liberal symbol) :
    word ∈ repetition ↔ word ∈ repetition.separatedBy (.proper symbol) ∨
      word ∈ repetition.separatedBy (.trailing symbol) := by
  simp only [mem_iff, liberal, separatedBy, Separator.words, List.mem_cons, List.not_mem_nil,
    or_false, and_or_left, exists_or]
  rfl

theorem mem_trailing_iff {symbol : Symbol} (trailing : repetition.separator = .trailing symbol)
    (positive : repetition.least ≠ 0) :
    word ∈ repetition ↔
      ∃ first ∈ repetition.separatedBy (.proper symbol), word = first ++ [symbol] := by
  have proper (first : List Symbol) :=
    mem_iff_of_simple (repetition.separatedBy (.proper symbol)) first rfl positive
  have last (count : Nat) : Separator.packets [symbol] repetition.item (count + 1) =
      (repetition.separatedBy (.proper symbol)).run count ++ [symbol] := by
    rw [Separator.packets_add, Separator.packets_one, run, List.append_assoc]
    rfl
  rw [mem_iff]
  simp only [trailing, Separator.words_trailing, List.mem_singleton]
  constructor
  · rintro ⟨count, allows, rfl⟩
    obtain ⟨before, rfl⟩ := Nat.exists_eq_add_one_of_ne_zero
      (Nat.ne_of_gt (Nat.lt_of_lt_of_le (Nat.pos_of_ne_zero positive) allows.1))
    exact ⟨_, (proper _).mpr ⟨before, allows, rfl⟩, last before⟩
  · rintro ⟨first, inFirst, rfl⟩
    obtain ⟨count, allows, rfl⟩ := (proper first).mp inFirst
    exact ⟨count + 1, allows, (last count).symm⟩

theorem mem_zero_iff (zero : repetition.least = 0) :
    word ∈ repetition ↔ word = [] ∨ word ∈ repetition.between 1 repetition.most := by
  rw [mem_iff, mem_iff]
  constructor
  · rintro ⟨count, allows, written⟩
    cases count with
    | zero => exact .inl ((Separator.mem_words_zero _ _ _).mp written)
    | succ count => exact .inr ⟨count + 1, ⟨by simp [between], allows.2⟩, written⟩
  · rintro (rfl | ⟨count, allows, written⟩)
    · refine ⟨0, ⟨by omega, fun _ _ => Nat.zero_le _⟩, ?_⟩
      exact (Separator.mem_words_zero _ _ _).mpr rfl
    · exact ⟨count, ⟨by omega, allows.2⟩, written⟩

theorem mem_unseparated_iff (zero : repetition.least = 0) (unbounded : repetition.most = none)
    (absent : repetition.separator = .absent) (inner : ∀ other ∈ whole, other ∈ repetition)
    (outer : ∀ other ∈ repetition, other.length < word.length → other ∈ whole) :
    word ∈ repetition ↔ word = [] ∨ ∃ first ∈ whole, word = first ++ [repetition.item] := by
  have items (other : List Symbol) :
      other ∈ repetition ↔ ∃ count, other = List.replicate count repetition.item := by
    simp [mem_iff, Allows, zero, unbounded, absent, Separator.words]
  rw [items]
  constructor
  · rintro ⟨count, rfl⟩
    cases count with
    | zero => exact .inl rfl
    | succ count =>
        refine .inr ⟨_, outer _ ((items _).mpr ⟨count, rfl⟩) (by simp), ?_⟩
        exact List.replicate_succ'
  · rintro (rfl | ⟨first, inFirst, rfl⟩)
    · exact ⟨0, rfl⟩
    · obtain ⟨count, rfl⟩ := (items first).mp (inner first inFirst)
      exact ⟨count + 1, List.replicate_succ'.symm⟩

/-- The words of a repetition solve the equation that its alternatives are, whatever words are read
for the repetition itself, as long as the shorter ones are among them. -/
theorem mem_iff_exists_alternative (valid : repetition.IsValid)
    (inner : ∀ other ∈ whole, other ∈ repetition)
    (outer : ∀ other ∈ repetition, other.length < word.length → other ∈ whole) :
    word ∈ repetition ↔
      ∃ row ∈ repetition.alternatives, word ∈ Part.rowReading whole language row := by
  unfold alternatives
  split
  · rename_i zero
    split
    · rename_i none
      simp only [List.mem_cons, List.not_mem_nil, or_false, exists_eq_left, Part.rowReading_nil,
        Language.mem_one, mem_zero_iff zero, none]
      apply or_iff_left
      rintro ⟨count, allowed, _⟩
      have low := allowed.1
      have high := allowed.2 0 rfl
      simp only [between] at low
      omega
    · split
      · rename_i star
        rw [mem_unseparated_iff zero star.1 star.2 inner outer]
        simp only [List.mem_cons, List.not_mem_nil, or_false, exists_eq_or_imp, exists_eq_left,
          Part.rowReading_nil, Language.mem_one, Part.mem_rowReading_cons,
          Part.rowReading_singleton]
        refine or_congr_right ⟨?_, ?_⟩
        · rintro ⟨first, inFirst, rfl⟩
          exact ⟨first, inFirst, _, rfl, rfl⟩
        · rintro ⟨first, inFirst, _, rfl, rfl⟩
          exact ⟨first, inFirst, rfl⟩
      · rw [mem_zero_iff zero]
        simp only [List.mem_cons, List.not_mem_nil, or_false, exists_eq_or_imp, exists_eq_left,
          Part.rowReading_nil, Language.mem_one, Part.rowReading_singleton, Part.reading,
          mem_language]
  · rename_i positive
    cases found : repetition.separator with
    | absent =>
        have runs := mem_iff_exists_run (by rw [found]; rfl) positive valid inner outer
        simpa only [found, Separator.glue, Separator.symbol?, Option.toList] using runs
    | proper symbol =>
        have runs := mem_iff_exists_run (by rw [found]; rfl) positive valid inner outer
        simpa only [found, Separator.glue, Separator.symbol?, Option.toList] using runs
    | trailing symbol =>
        rw [mem_trailing_iff found positive]
        simp only [List.mem_cons, List.not_mem_nil, or_false, exists_eq_left,
          Part.mem_rowReading_cons, Part.rowReading_singleton]
        constructor
        · rintro ⟨first, inFirst, rfl⟩
          exact ⟨first, inFirst, _, rfl, rfl⟩
        · rintro ⟨first, inFirst, _, rfl, rfl⟩
          exact ⟨first, inFirst, rfl⟩
    | liberal symbol =>
        rw [mem_liberal_iff found]
        simp only [List.mem_cons, List.not_mem_nil, or_false, exists_eq_or_imp, exists_eq_left,
          Part.rowReading_singleton, Part.reading, mem_language]

end Equation

theorem rowReading_le {repetition : Repetition} (valid : repetition.IsValid) {row : List Part}
    (member : row ∈ repetition.alternatives) :
    Part.rowReading repetition.language language row ≤ repetition.language := by
  rw [language_le_iff]
  intro word written
  exact (mem_iff_exists_alternative valid (fun _ inside => inside) fun _ inside _ => inside).mpr
    ⟨row, member, written⟩

/-- The words of all repetitions are the least languages that contain what the alternatives write
with them.  The induction is on the rank, and on the length of the word where a repetition is written
with itself. -/
theorem language_le_of_closed {meaning : Repetition → Language Symbol}
    (closed : ∀ repetition : Repetition, ∀ row ∈ repetition.alternatives,
      Part.rowReading (meaning repetition) meaning row ≤ meaning repetition)
    (repetition : Repetition) : repetition.language ≤ meaning repetition := by
  induction ranked : repetition.rank using Nat.strong_induction_on generalizing repetition with
  | _ rank smaller =>
      subst ranked
      rw [language_le_iff]
      intro word inside
      induction long : word.length using Nat.strong_induction_on generalizing word with
      | _ length shorter =>
          subst long
          obtain ⟨count, allows, _⟩ := mem_iff.mp (mem_language.mp inside)
          let earlier := wordsWhere fun other => other ∈ repetition ∧ other.length < word.length
          have inner : ∀ other ∈ earlier, other ∈ repetition := fun _ both => both.1
          obtain ⟨row, member, written⟩ := (mem_iff_exists_alternative (IsValid.of_allows allows)
            inner fun _ first second => ⟨first, second⟩).mp inside
          refine closed repetition row member (Part.rowReading_mono ?_ ?_ written)
          · intro _
            rw [language_le_iff]
            rintro other ⟨member, less⟩
            exact shorter other.length less other member rfl
          · intro child nested
            have inChildren : child ∈ repetition.children :=
              List.mem_flatMap.mpr ⟨row, member, nested⟩
            exact smaller child.rank (rank_lt_of_mem_children inChildren) child rfl

end Repetition

end TracedGrammar
