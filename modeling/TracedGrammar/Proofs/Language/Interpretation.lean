import Mathlib.Computability.Language
import Mathlib.Order.CompletePartialOrder
import TracedGrammar.Language.Derivation

/-!
# Interpretations of symbols

An interpretation gives every symbol a language.  The language of a word is the product of those of
its symbols.  When every direct step is true in an interpretation, meaning that it leads to a
smaller language, then whatever derives from a word belongs to the language of the word.  What
symbols derive is an interpretation itself.

A pass that makes up symbols is described by what each of them stands for in the grammar before.
Its correctness then needs two facts: the steps before can be taken in the new grammar, and the new
steps are true when the symbols that were made up are read as what they stand for.
-/

namespace TracedGrammar

def wordsWhere (holds : List Symbol → Prop) : Language Symbol :=
  {word | holds word}

@[simp]
theorem mem_wordsWhere {holds : List Symbol → Prop} {word : List Symbol} :
    word ∈ wordsWhere holds ↔ holds word :=
  Iff.rfl

theorem language_le_iff {first second : Language Symbol} :
    first ≤ second ↔ ∀ word ∈ first, word ∈ second :=
  Iff.rfl

/-- A language for every symbol. -/
abbrev Interpretation :=
  Symbol → Language Symbol

namespace Interpretation

def word (meaning : Interpretation) (symbols : List Symbol) : Language Symbol :=
  (symbols.map meaning).prod

@[simp]
theorem word_nil (meaning : Interpretation) : meaning.word [] = 1 :=
  rfl

@[simp]
theorem word_cons (meaning : Interpretation) (symbol : Symbol) (rest : List Symbol) :
    meaning.word (symbol :: rest) = meaning symbol * meaning.word rest :=
  rfl

theorem word_singleton (meaning : Interpretation) (symbol : Symbol) :
    meaning.word [symbol] = meaning symbol := by
  simp

theorem mem_word_cons {meaning : Interpretation} {symbol : Symbol} {rest word : List Symbol} :
    word ∈ meaning.word (symbol :: rest) ↔
      ∃ first ∈ meaning symbol, ∃ second ∈ meaning.word rest, first ++ second = word :=
  Language.mem_mul

theorem word_eq_self {meaning : Interpretation} {symbols : List Symbol}
    (itself : ∀ symbol ∈ symbols, meaning symbol = {[symbol]}) :
    meaning.word symbols = {symbols} := by
  induction symbols with
  | nil => rfl
  | cons symbol symbols induction =>
      have first := itself symbol List.mem_cons_self
      have rest := induction fun other member => itself other (List.mem_cons_of_mem _ member)
      rw [word_cons, first, rest]
      ext word
      constructor
      · rintro ⟨_, rfl, _, rfl, rfl⟩
        rfl
      · rintro rfl
        exact ⟨[symbol], rfl, symbols, rfl, rfl⟩

/-- The words of good symbols that derive from a word of each symbol's language. -/
def derivedFrom (meaning : Interpretation) (direct : Symbol → List Symbol → Prop)
    (good : Symbol → Prop) : Interpretation :=
  fun symbol => wordsWhere fun derived => (∀ other ∈ derived, good other) ∧
    ∃ word ∈ meaning symbol, Derives direct word derived

theorem mem_derivedFrom {meaning : Interpretation} {direct : Symbol → List Symbol → Prop}
    {good : Symbol → Prop} {symbol : Symbol} {derived : List Symbol} :
    derived ∈ meaning.derivedFrom direct good symbol ↔
      (∀ other ∈ derived, good other) ∧ ∃ word ∈ meaning symbol, Derives direct word derived :=
  Iff.rfl

theorem mem_word_derivedFrom {meaning : Interpretation} {direct : Symbol → List Symbol → Prop}
    {good : Symbol → Prop} {symbols derived : List Symbol} :
    derived ∈ (meaning.derivedFrom direct good).word symbols ↔
      (∀ other ∈ derived, good other) ∧
        ∃ word ∈ meaning.word symbols, Derives direct word derived := by
  induction symbols generalizing derived with
  | nil =>
      constructor
      · rintro rfl
        exact ⟨by simp, [], rfl, .nil⟩
      · rintro ⟨_, _, rfl, derives⟩
        cases derives
        rfl
  | cons symbol symbols induction =>
      rw [mem_word_cons]
      constructor
      · rintro ⟨left, ⟨goodLeft, first, inFirst, former⟩, right, inRight, rfl⟩
        obtain ⟨goodRight, second, inSecond, latter⟩ := induction.mp inRight
        refine ⟨fun other member => ?_, first ++ second, ?_, former.append latter⟩
        · exact (List.mem_append.mp member).elim (goodLeft other) (goodRight other)
        · exact Language.append_mem_mul inFirst inSecond
      · rintro ⟨good, word, inWord, derives⟩
        obtain ⟨first, inFirst, second, inSecond, rfl⟩ := mem_word_cons.mp inWord
        obtain ⟨left, right, rfl, former, latter⟩ := derives.exists_of_append
        have goodLeft := fun other member => good other (List.mem_append_left right member)
        have goodRight := fun other member => good other (List.mem_append_right left member)
        exact ⟨left, ⟨goodLeft, first, inFirst, former⟩, right,
          induction.mpr ⟨goodRight, second, inSecond, latter⟩, rfl⟩

end Interpretation

namespace Derives

variable {direct other : Symbol → List Symbol → Prop}

theorem singleton_iff {symbol : Symbol} {derived : List Symbol} :
    Derives direct [symbol] derived ↔
      derived = [symbol] ∨ ∃ middle, direct symbol middle ∧ Derives direct middle derived := by
  constructor
  · intro derives
    cases derives with
    | keep _ later =>
        cases later
        exact .inl rfl
    | expand step below later =>
        cases later
        rw [List.append_nil]
        exact .inr ⟨_, step, below⟩
  · rintro (rfl | ⟨middle, step, below⟩)
    · exact .refl _
    · exact (of_direct step).trans below

theorem exists_of_cons {symbol : Symbol} {rest derived : List Symbol}
    (derives : Derives direct (symbol :: rest) derived) :
    ∃ left right, derived = left ++ right ∧ Derives direct [symbol] left ∧
      Derives direct rest right := by
  change Derives direct ([symbol] ++ rest) derived at derives
  exact derives.exists_of_append

theorem eq_nil_of_nil {derived : List Symbol} (derives : Derives direct [] derived) :
    derived = [] := by
  cases derives
  rfl

/-- Steps that are not empty derive nothing empty from something. -/
theorem ne_nil (steps : ∀ symbol middle, direct symbol middle → middle ≠ [])
    {symbols word : List Symbol} (derives : Derives direct symbols word) (nonempty : symbols ≠ []) :
    word ≠ [] := by
  induction derives with
  | nil => exact nonempty
  | keep => exact List.cons_ne_nil _ _
  | expand step _ _ below _ => exact List.append_ne_nil_of_left_ne_nil (below (steps _ _ step)) _

/-- A derivation stays inside every interpretation in which the direct steps are true. -/
theorem mem_word {meaning : Interpretation}
    (closed : ∀ symbol middle, direct symbol middle → meaning.word middle ≤ meaning symbol)
    {symbols derived : List Symbol} (derives : Derives direct symbols derived)
    (stays : ∀ symbol ∈ derived, [symbol] ∈ meaning symbol) :
    derived ∈ meaning.word symbols := by
  induction derives with
  | nil => exact Language.nil_mem_one
  | keep symbol _ induction =>
      have first := stays symbol List.mem_cons_self
      have rest := induction fun other member => stays other (List.mem_cons_of_mem _ member)
      exact Language.append_mem_mul first rest
  | expand step _ _ below later =>
      have first := below fun other member => stays other (List.mem_append_left _ member)
      have rest := later fun other member => stays other (List.mem_append_right _ member)
      exact Language.append_mem_mul (closed _ _ step first) rest

/-- When symbols are replaced by words in such a way that every direct step can be derived, every
derivation can be followed. -/
theorem flatMap {words : Symbol → List Symbol}
    (steps : ∀ symbol middle, direct symbol middle →
      Derives other (words symbol) (middle.flatMap words))
    {symbols derived : List Symbol} (derives : Derives direct symbols derived) :
    Derives other (symbols.flatMap words) (derived.flatMap words) := by
  induction derives with
  | nil => exact .nil
  | keep symbol _ induction => exact (Derives.refl (words symbol)).append induction
  | expand step _ _ below later =>
      rw [List.flatMap_cons, List.flatMap_append]
      exact ((steps _ _ step).trans below).append later

theorem lift (steps : ∀ symbol middle, direct symbol middle → Derives other [symbol] middle)
    {symbols derived : List Symbol} (derives : Derives direct symbols derived) :
    Derives other symbols derived := by
  have followed := @flatMap direct other (fun symbol => [symbol])
    (fun symbol middle step => by
      rw [List.flatMap_singleton']
      exact steps symbol middle step) _ _ derives
  rwa [List.flatMap_singleton', List.flatMap_singleton'] at followed

end Derives

end TracedGrammar
