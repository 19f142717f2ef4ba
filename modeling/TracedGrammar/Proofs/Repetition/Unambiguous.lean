import TracedGrammar.Proofs.Language.Uniqueness
import TracedGrammar.Proofs.Repetition.Solution

/-!
# Alternatives do not overlap

The number of items and the length of a word, or whether a separator comes last, tell which of the
alternatives of a repetition has written it.  An alternative has at most one part whose words are of
different lengths, so it also tells what each part has written.
-/

namespace TracedGrammar

namespace Part

variable {whole : Language Symbol} {smaller : Repetition → Language Symbol}

theorem subsingleton_symbols (symbols : List Symbol) :
    Set.Subsingleton (rowReading whole smaller (symbols.map .symbol)) := by
  intro first inFirst second inSecond
  rw [mem_rowReading_symbols.mp inFirst, mem_rowReading_symbols.mp inSecond]

theorem hasFixedCuts_symbols (symbols : List Symbol) :
    HasFixedCuts ((symbols.map Part.symbol).map (reading whole smaller)) := by
  induction symbols with
  | nil => trivial
  | cons symbol symbols induction => exact ⟨.inl Set.subsingleton_singleton, induction⟩

/-- One part is found when only symbols come after it. -/
theorem hasFixedCuts_cons_symbols (part : Part) (symbols : List Symbol) :
    HasFixedCuts ((part :: symbols.map Part.symbol).map (reading whole smaller)) :=
  ⟨.inr (subsingleton_symbols symbols), hasFixedCuts_symbols symbols⟩

end Part

namespace Separator

theorem length_packets (glue : List Symbol) (item : Symbol) (count : Nat) :
    (packets glue item count).length = count * (glue.length + 1) := by
  simp [packets]

end Separator

namespace Repetition

variable {repetition : Repetition} {whole : Language Symbol}

theorem length_run (repetition : Repetition) (count : Nat) :
    (repetition.run count).length = count * (repetition.separator.glue.length + 1) + 1 := by
  rw [run, List.length_append, Separator.length_packets, List.length_singleton]

theorem run_injective (repetition : Repetition) : Function.Injective repetition.run := by
  intro first second same
  have lengths := congrArg List.length same
  rw [length_run, length_run, Nat.add_right_cancel_iff] at lengths
  exact Nat.eq_of_mul_eq_mul_right (Nat.succ_pos _) lengths

section Shapes

/-- A row has at most one part that is not just symbols, or a fixed number of items comes first. -/
inductive HasShape (repetition : Repetition) : List Part → Prop
  | nil : HasShape repetition []
  | one (part : Part) (symbols : List Symbol) :
      HasShape repetition (part :: symbols.map Part.symbol)
  | pair (simple : repetition.separator.rank = 0) (fixed : Nat) (other : Repetition) :
      HasShape repetition [.nested (repetition.exactly fixed).leading, .nested other]

theorem HasShape.hasFixedCuts {row : List Part} (shape : repetition.HasShape row) :
    HasFixedCuts (row.map (Part.reading whole language)) := by
  cases shape with
  | nil => trivial
  | one part symbols => exact Part.hasFixedCuts_cons_symbols part symbols
  | pair simple fixed other =>
      refine ⟨.inl ?_, Part.hasFixedCuts_cons_symbols (.nested other) []⟩
      intro first inFirst second inSecond
      obtain ⟨count, allows, rfl⟩ := (mem_leading_iff (repetition.exactly fixed) simple).mp inFirst
      obtain ⟨other, alike, rfl⟩ := (mem_leading_iff (repetition.exactly fixed) simple).mp inSecond
      rw [allows_exactly.mp allows, allows_exactly.mp alike]

theorem hasShape_of_mem_runs (simple : repetition.separator.rank = 0) {row : List Part}
    (member : row ∈ repetition.runs repetition.separator.glue) : repetition.HasShape row := by
  have alone (part : Part) : repetition.HasShape [part] := .one part []
  have items (part : Part) : repetition.HasShape (part ::
      repetition.separator.glue.map Part.symbol ++ [.symbol repetition.item]) := by
    have shape : repetition.HasShape (part :: repetition.step.map Part.symbol) := .one part _
    rwa [step, List.map_append] at shape
  simp only [runs] at member
  split at member
  · split at member
    · rcases List.mem_pair.mp member with rfl | rfl
      · exact alone _
      · exact items .self
    · split at member
      · rw [List.mem_singleton.mp member]
        exact alone _
      · split at member
        · rcases List.mem_pair.mp member with rfl | rfl <;> exact alone _
        · rcases List.mem_pair.mp member with rfl | rfl
          · exact alone _
          · exact .pair simple _ _
  · split at member
    · split at member
      · rw [List.mem_singleton.mp member]
        exact items _
      · rw [List.mem_singleton.mp member]
        exact .pair simple _ _
    · rw [List.mem_singleton.mp member]
      exact .pair simple _ _

theorem hasShape_of_mem_alternatives {row : List Part} (member : row ∈ repetition.alternatives) :
    repetition.HasShape row := by
  unfold alternatives at member
  split at member
  · split at member
    · rw [List.mem_singleton.mp member]
      exact .nil
    · split at member
      · rcases List.mem_pair.mp member with rfl | rfl
        · exact .nil
        · exact .one .self [repetition.item]
      · rcases List.mem_pair.mp member with rfl | rfl
        · exact .nil
        · exact .one _ []
  · cases found : repetition.separator with
    | absent =>
        rw [found] at member
        apply hasShape_of_mem_runs (by rw [found]; rfl)
        rwa [found]
    | proper symbol =>
        rw [found] at member
        apply hasShape_of_mem_runs (by rw [found]; rfl)
        rwa [found]
    | trailing symbol =>
        simp only [found, List.mem_singleton] at member
        rw [member]
        exact .one _ [symbol]
    | liberal symbol =>
        simp only [found] at member
        rcases List.mem_pair.mp member with rfl | rfl <;> exact .one _ []

end Shapes

/-- Two rows have no word in common, when a repetition is written with its own words. -/
def Apart (repetition : Repetition) (first second : List Part) : Prop :=
  ∀ word ∈ Part.rowReading repetition.language language first,
    word ∉ Part.rowReading repetition.language language second

theorem pairwise_apart_runs (simple : repetition.separator.rank = 0)
    (positive : repetition.least ≠ 0) :
    (repetition.runs repetition.separator.glue).Pairwise repetition.Apart := by
  simp only [runs]
  split
  · split
    · rw [List.pairwise_pair]
      intro word short long
      obtain ⟨first, inFirst, rfl⟩ := mem_rowReading_step.mp long
      obtain ⟨count, _, rfl⟩ := (mem_iff_of_simple repetition _ simple positive).mp inFirst
      rw [← run_succ, mem_rowReading_item] at short
      exact absurd (repetition.run_injective short) (Nat.succ_ne_zero count)
    · split
      · exact List.pairwise_singleton _ _
      · split
        · rw [List.pairwise_pair]
          intro word short long
          rw [mem_rowReading_exactly simple 0] at short
          rw [mem_rowReading_exactly simple 1, short] at long
          exact absurd (repetition.run_injective long) zero_ne_one
        · rw [List.pairwise_pair]
          intro word short long
          obtain ⟨few, allows, rfl⟩ := (mem_rowReading_nested simple one_ne_zero).mp short
          obtain ⟨more, _, same⟩ := (mem_rowReading_pair simple one_ne_zero).mp long
          have upTo := (allows_between.mp allows).2 _ rfl
          have equal := repetition.run_injective same
          omega
  · split
    · split <;> exact List.pairwise_singleton _ _
    · exact List.pairwise_singleton _ _

theorem nil_not_mem (positive : repetition.least ≠ 0) : [] ∉ repetition := by
  have simple {other : Repetition} (bare : other.separator.rank = 0) (some : other.least ≠ 0) :
      [] ∉ other := by
    intro empty
    obtain ⟨count, _, same⟩ := (mem_iff_of_simple other [] bare some).mp empty
    exact List.append_ne_nil_of_right_ne_nil _ (List.cons_ne_nil _ _) same.symm
  have trailing {other : Repetition} {symbol : Symbol} (last : other.separator = .trailing symbol)
      (some : other.least ≠ 0) : [] ∉ other := by
    intro empty
    obtain ⟨first, _, same⟩ := (mem_trailing_iff last some).mp empty
    exact List.append_ne_nil_of_right_ne_nil first (List.cons_ne_nil _ _) same.symm
  cases found : repetition.separator with
  | absent => exact simple (by rw [found]; rfl) positive
  | proper symbol => exact simple (by rw [found]; rfl) positive
  | trailing symbol => exact trailing found positive
  | liberal symbol =>
      rw [mem_liberal_iff found]
      exact not_or.mpr ⟨simple rfl positive, trailing rfl positive⟩

/-- A word with separators between items has odd length, and one in which a separator comes last has
even length. -/
theorem apart_of_liberal {symbol : Symbol} (positive : repetition.least ≠ 0) {word : List Symbol}
    (proper : word ∈ repetition.separatedBy (.proper symbol)) :
    word ∉ repetition.separatedBy (.trailing symbol) := by
  intro trailing
  obtain ⟨count, _, rfl⟩ := (mem_iff_of_simple (repetition.separatedBy (.proper symbol)) _ rfl positive).mp
    proper
  obtain ⟨other, _, written⟩ := mem_iff.mp trailing
  have same := Separator.words_trailing symbol repetition.item other
  have lengths := congrArg List.length (List.mem_singleton.mp (same ▸ written))
  rw [length_run, Separator.length_packets] at lengths
  change count * 2 + 1 = other * 2 at lengths
  omega

theorem pairwise_apart_alternatives (repetition : Repetition) :
    repetition.alternatives.Pairwise repetition.Apart := by
  unfold alternatives
  split
  · split
    · exact List.pairwise_singleton _ _
    · split
      · rw [List.pairwise_pair]
        intro word empty step
        obtain ⟨first, _, second, item, rfl⟩ := Part.mem_rowReading_cons.mp step
        rw [Part.rowReading_singleton] at item
        obtain rfl : second = [repetition.item] := item
        exact List.append_ne_nil_of_right_ne_nil first (List.cons_ne_nil _ _) empty
      · rw [List.pairwise_pair]
        intro word empty some
        rw [Part.rowReading_singleton] at some
        obtain rfl : word = [] := empty
        have positive : (repetition.between 1 repetition.most).least ≠ 0 := one_ne_zero
        exact nil_not_mem positive some
  · rename_i positive
    cases found : repetition.separator with
    | absent =>
        have runs := pairwise_apart_runs (by rw [found]; rfl) positive
        simpa only [found, Separator.glue, Separator.symbol?, Option.toList] using runs
    | proper symbol =>
        have runs := pairwise_apart_runs (by rw [found]; rfl) positive
        simpa only [found, Separator.glue, Separator.symbol?, Option.toList] using runs
    | trailing symbol => exact List.pairwise_singleton _ _
    | liberal symbol =>
        rw [List.pairwise_pair]
        intro word proper trailing
        rw [Part.rowReading_singleton] at proper trailing
        exact apart_of_liberal positive proper trailing

end Repetition

end TracedGrammar
