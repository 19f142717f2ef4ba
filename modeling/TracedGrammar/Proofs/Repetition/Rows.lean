import TracedGrammar.Proofs.Language.Interpretation
import TracedGrammar.Repetition.Alternatives
import TracedGrammar.Repetition.Words

/-!
# What rows of parts stand for

A row of parts is read part by part: a symbol as itself, the whole repetition and smaller ones as
languages.  When no separator trails, a word before another item is a row of packets, each of which
holds an item and what separates it from the next one, and the last item of all stands alone.
-/

namespace TracedGrammar

namespace Separator

/-- What stands between neighbouring items. -/
def glue (separator : Separator) : List Symbol :=
  separator.symbol?.toList

/-- A number of items, each with some glue after it. -/
def packets (glue : List Symbol) (item : Symbol) (count : Nat) : List Symbol :=
  (List.replicate count (item :: glue)).flatten

@[simp]
theorem packets_zero (glue : List Symbol) (item : Symbol) : packets glue item 0 = [] :=
  rfl

theorem packets_succ (glue : List Symbol) (item : Symbol) (count : Nat) :
    packets glue item (count + 1) = item :: glue ++ packets glue item count := by
  simp [packets, List.replicate_succ]

theorem packets_add (glue : List Symbol) (item : Symbol) (first second : Nat) :
    packets glue item (first + second) = packets glue item first ++ packets glue item second := by
  rw [packets, List.replicate_add, List.flatten_append]
  rfl

theorem packets_one (glue : List Symbol) (item : Symbol) : packets glue item 1 = item :: glue := by
  simp [packets]

theorem intersperse_replicate (symbol item : Symbol) (count : Nat) :
    (List.replicate (count + 1) item).intersperse symbol = packets [symbol] item count ++ [item] := by
  induction count with
  | zero => rfl
  | succ count induction =>
      rw [List.replicate_succ, packets_succ]
      rw [List.replicate_succ] at induction ⊢
      rw [List.intersperse_cons_cons, induction]
      rfl

theorem flatMap_replicate (symbol item : Symbol) (count : Nat) :
    (List.replicate count item).flatMap ([·, symbol]) = packets [symbol] item count := by
  simp [packets, List.flatMap, List.map_replicate]

theorem replicate_eq_packets (item : Symbol) (count : Nat) :
    List.replicate count item = packets [] item count := by
  induction count with
  | zero => rfl
  | succ count induction => rw [List.replicate_succ, packets_succ, induction]; rfl

theorem words_trailing (symbol item : Symbol) (count : Nat) :
    (trailing symbol).words item count = [packets [symbol] item count] := by
  simp only [words, flatMap_replicate]

theorem words_leading {separator : Separator} (simple : separator.rank = 0) (item : Symbol)
    (count : Nat) : separator.leading.words item count = [packets separator.glue item count] := by
  cases separator with
  | absent => simp only [leading, words, replicate_eq_packets, glue, symbol?, Option.toList]
  | proper symbol => exact words_trailing symbol item count
  | trailing symbol => simp [rank] at simple
  | liberal symbol => simp [rank] at simple

theorem words_succ {separator : Separator} (simple : separator.rank = 0) (item : Symbol)
    (count : Nat) :
    separator.words item (count + 1) = [packets separator.glue item count ++ [item]] := by
  cases separator with
  | absent =>
      have last : packets [] item (count + 1) = packets [] item count ++ [item] := by
        rw [packets_add, packets_one]
      simp only [words, replicate_eq_packets, last, glue, symbol?, Option.toList]
  | proper symbol => simp only [words, intersperse_replicate, glue, symbol?, Option.toList]
  | trailing symbol => simp [rank] at simple
  | liberal symbol => simp [rank] at simple

end Separator

namespace Repetition

def language (repetition : Repetition) : Language Symbol :=
  wordsWhere (· ∈ repetition)

@[simp]
theorem mem_language {repetition : Repetition} {word : List Symbol} :
    word ∈ repetition.language ↔ word ∈ repetition :=
  Iff.rfl

/-- Whether some number of items is allowed. -/
def IsValid (repetition : Repetition) : Prop :=
  ∀ most, repetition.most = some most → repetition.least ≤ most

theorem IsValid.of_allows {repetition : Repetition} {count : Nat}
    (allows : repetition.Allows count) : repetition.IsValid :=
  fun most bounded => Nat.le_trans allows.1 (allows.2 most bounded)

theorem IsValid.exists_mem {repetition : Repetition} (valid : repetition.IsValid) :
    ∃ word : List Symbol, word ∈ repetition := by
  have allows : repetition.Allows repetition.least := ⟨Nat.le_refl _, valid⟩
  obtain ⟨word, written⟩ : ∃ word : List Symbol,
      word ∈ repetition.separator.words repetition.item repetition.least := by
    cases repetition.separator <;> exact ⟨_, List.mem_cons_self⟩
  exact ⟨word, repetition.least, allows, written⟩

theorem validate_eq_ok_iff {repetition : Repetition} :
    repetition.validate = .ok () ↔ repetition.IsValid := by
  unfold validate IsValid
  cases repetition.most with
  | none => simp
  | some most =>
      by_cases allowed : repetition.least ≤ most <;> simp [allowed]

end Repetition

namespace Part

/-- What a part of a row stands for, when the repetition that the row belongs to and the smaller ones
are read in given ways. -/
def reading (whole : Language Symbol) (smaller : Repetition → Language Symbol) :
    Part → Language Symbol
  | .symbol letter => {[letter]}
  | .self => whole
  | .nested repetition => smaller repetition

def rowReading (whole : Language Symbol) (smaller : Repetition → Language Symbol)
    (row : List Part) : Language Symbol :=
  (row.map (reading whole smaller)).prod

variable {whole : Language Symbol} {smaller : Repetition → Language Symbol}

@[simp]
theorem rowReading_nil : rowReading whole smaller [] = 1 :=
  rfl

theorem mem_rowReading_cons {part : Part} {row : List Part} {word : List Symbol} :
    word ∈ rowReading whole smaller (part :: row) ↔
      ∃ first ∈ part.reading whole smaller, ∃ second ∈ rowReading whole smaller row,
        first ++ second = word :=
  Language.mem_mul

@[simp]
theorem rowReading_singleton (part : Part) :
    rowReading whole smaller [part] = part.reading whole smaller := by
  simp [rowReading]

theorem mem_rowReading_symbols {symbols word : List Symbol} :
    word ∈ rowReading whole smaller (symbols.map .symbol) ↔ word = symbols := by
  induction symbols generalizing word with
  | nil => rfl
  | cons letter symbols induction =>
      rw [List.map_cons, mem_rowReading_cons]
      constructor
      · rintro ⟨first, inFirst, second, inSecond, rfl⟩
        rw [induction.mp inSecond, show first = [letter] from inFirst]
        rfl
      · rintro rfl
        exact ⟨[letter], rfl, symbols, induction.mpr rfl, rfl⟩

theorem rowReading_mono {larger : Language Symbol} {others : Repetition → Language Symbol}
    {row : List Part} (self : .self ∈ row → whole ≤ larger)
    (nested : ∀ repetition ∈ nestedIn row, smaller repetition ≤ others repetition) :
    rowReading whole smaller row ≤ rowReading larger others row := by
  induction row with
  | nil => exact le_refl _
  | cons part row induction =>
      rw [language_le_iff]
      intro word
      rw [mem_rowReading_cons, mem_rowReading_cons]
      rintro ⟨first, inFirst, second, inSecond, rfl⟩
      have later := fun member => self (List.mem_cons_of_mem _ member)
      cases part with
      | symbol letter => exact ⟨first, inFirst, second, induction later nested inSecond, rfl⟩
      | self =>
          exact ⟨first, self List.mem_cons_self inFirst, second,
            induction later nested inSecond, rfl⟩
      | nested repetition =>
          have head := nested repetition List.mem_cons_self inFirst
          have tail := induction later fun other member =>
            nested other (List.mem_cons_of_mem _ member)
          exact ⟨first, head, second, tail inSecond, rfl⟩

end Part

namespace Repetition

@[simp]
theorem allows_between {repetition : Repetition} {least count : Nat} {most : Option Nat} :
    (repetition.between least most).Allows count ↔
      least ≤ count ∧ ∀ greatest, most = some greatest → count ≤ greatest :=
  Iff.rfl

@[simp]
theorem allows_exactly {repetition : Repetition} {fixed count : Nat} :
    (repetition.exactly fixed).Allows count ↔ count = fixed := by
  simp only [exactly, allows_between, Option.some.injEq, forall_eq']
  omega

/-- The word of one item more than `count`, where nothing comes after the last. -/
def run (repetition : Repetition) (count : Nat) : List Symbol :=
  Separator.packets repetition.separator.glue repetition.item count ++ [repetition.item]

theorem mem_iff_of_simple (repetition : Repetition) (word : List Symbol)
    (simple : repetition.separator.rank = 0) (positive : repetition.least ≠ 0) :
    word ∈ repetition ↔
      ∃ count, repetition.Allows (count + 1) ∧ word = repetition.run count := by
  rw [mem_iff]
  constructor
  · rintro ⟨count, allows, written⟩
    obtain ⟨before, rfl⟩ := Nat.exists_eq_add_one_of_ne_zero
      (Nat.ne_of_gt (Nat.lt_of_lt_of_le (Nat.pos_of_ne_zero positive) allows.1))
    rw [Separator.words_succ simple, List.mem_singleton] at written
    exact ⟨before, allows, written⟩
  · rintro ⟨count, allows, rfl⟩
    refine ⟨count + 1, allows, ?_⟩
    rw [Separator.words_succ simple, List.mem_singleton]
    rfl

theorem mem_leading_iff (repetition : Repetition) {word : List Symbol}
    (simple : repetition.separator.rank = 0) :
    word ∈ repetition.leading ↔ ∃ count, repetition.Allows count ∧
      word = Separator.packets repetition.separator.glue repetition.item count := by
  rw [mem_iff]
  refine exists_congr fun count => and_congr_right fun _ => ?_
  change word ∈ repetition.separator.leading.words repetition.item count ↔ _
  rw [Separator.words_leading simple, List.mem_singleton]

section Runs

variable {repetition : Repetition} {whole : Language Symbol} {word : List Symbol}

theorem mem_rowReading_item :
    word ∈ Part.rowReading whole language [.symbol repetition.item] ↔ word = repetition.run 0 := by
  rw [Part.rowReading_singleton]
  rfl

theorem mem_rowReading_nested (simple : repetition.separator.rank = 0) {least : Nat}
    {most : Option Nat} (positive : least ≠ 0) :
    word ∈ Part.rowReading whole language [.nested (repetition.between least most)] ↔
      ∃ count, (repetition.between least most).Allows (count + 1) ∧ word = repetition.run count := by
  rw [Part.rowReading_singleton]
  exact mem_iff_of_simple (repetition.between least most) _ simple positive

theorem mem_rowReading_exactly (simple : repetition.separator.rank = 0) (count : Nat) :
    word ∈ Part.rowReading whole language [.nested (repetition.exactly (count + 1))] ↔
      word = repetition.run count := by
  rw [exactly, mem_rowReading_nested simple (Nat.succ_ne_zero count)]
  simp only [allows_between, Option.some.injEq, forall_eq']
  constructor
  · rintro ⟨other, allowed, rfl⟩
    rw [show other = count by omega]
  · rintro rfl
    exact ⟨count, by omega, rfl⟩

/-- Packets may be written in two rows, the first of which has another item after it. -/
theorem mem_rowReading_pair (simple : repetition.separator.rank = 0) {fixed least : Nat}
    {most : Option Nat} (positive : least ≠ 0) :
    word ∈ Part.rowReading whole language
        [.nested (repetition.exactly fixed).leading, .nested (repetition.between least most)] ↔
      ∃ count, (repetition.between least most).Allows (count + 1) ∧
        word = repetition.run (fixed + count) := by
  rw [Part.mem_rowReading_cons]
  constructor
  · rintro ⟨first, inFirst, second, inSecond, rfl⟩
    obtain ⟨before, allowsBefore, rfl⟩ :=
      (mem_leading_iff (repetition.exactly fixed) simple).mp inFirst
    obtain ⟨after, allowsAfter, rfl⟩ := (mem_rowReading_nested simple positive).mp inSecond
    obtain rfl := allows_exactly.mp allowsBefore
    refine ⟨after, allowsAfter, ?_⟩
    rw [run, run, Separator.packets_add, List.append_assoc]
    rfl
  · rintro ⟨count, allows, rfl⟩
    refine ⟨Separator.packets repetition.separator.glue repetition.item fixed,
      (mem_leading_iff (repetition.exactly fixed) simple).mpr
        ⟨fixed, allows_exactly.mpr rfl, rfl⟩,
      repetition.run count, (mem_rowReading_nested simple positive).mpr ⟨count, allows, rfl⟩, ?_⟩
    rw [run, run, Separator.packets_add, List.append_assoc]

/-- What is added to a word to make it one item longer. -/
def step (repetition : Repetition) : List Symbol :=
  repetition.separator.glue ++ [repetition.item]

theorem length_step_le_two (repetition : Repetition) : repetition.step.length ≤ 2 := by
  rw [step, Separator.glue, List.length_append]
  cases repetition.separator.symbol? <;> simp

theorem mem_rowReading_step :
    word ∈ Part.rowReading whole language
        (.self :: repetition.separator.glue.map Part.symbol ++ [.symbol repetition.item]) ↔
      ∃ first ∈ whole, word = first ++ repetition.step := by
  have symbols : repetition.separator.glue.map Part.symbol ++ [.symbol repetition.item] =
      repetition.step.map Part.symbol := by
    simp [step]
  rw [List.cons_append, symbols, Part.mem_rowReading_cons]
  constructor
  · rintro ⟨first, inFirst, second, inSecond, rfl⟩
    exact ⟨first, inFirst, by rw [Part.mem_rowReading_symbols.mp inSecond]⟩
  · rintro ⟨first, inFirst, rfl⟩
    exact ⟨first, inFirst, _, Part.mem_rowReading_symbols.mpr rfl, rfl⟩

theorem run_succ (repetition : Repetition) (count : Nat) :
    repetition.run (count + 1) =
      repetition.run count ++ repetition.step := by
  rw [run, run, Separator.packets_add, Separator.packets_one]
  simp [step]

end Runs

end Repetition

end TracedGrammar
