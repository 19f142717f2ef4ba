import TracedGrammar.Repetition.Basic

/-!
# Words of a repetition

A number of items is written as a row of them, with the separators in their places.  The words of a
repetition are those of all numbers of items that it allows.
-/

namespace TracedGrammar

namespace Separator

/-- The words of a number of items. -/
def words (separator : Separator) (item : Symbol) (count : Nat) : List (List Symbol) :=
  let items := List.replicate count item
  match separator with
  | .absent => [items]
  | .proper symbol => [items.intersperse symbol]
  | .trailing symbol => [items.flatMap ([·, symbol])]
  | .liberal symbol => [items.intersperse symbol, items.flatMap ([·, symbol])]

theorem mem_words_zero (separator : Separator) (item : Symbol) (word : List Symbol) :
    word ∈ separator.words item 0 ↔ word = [] := by
  cases separator <;> simp [words]

theorem mem_of_mem_intersperse {glue symbol : Symbol} {items : List Symbol}
    (member : symbol ∈ items.intersperse glue) : symbol ∈ items ∨ symbol = glue := by
  fun_induction items.intersperse glue <;> grind

theorem mem_of_mem_words {separator : Separator} {item symbol : Symbol} {count : Nat}
    {word : List Symbol} (written : word ∈ separator.words item count) (member : symbol ∈ word) :
    symbol = item ∨ separator.symbol? = some symbol := by
  have only : symbol ∈ List.replicate count item → symbol = item := List.eq_of_mem_replicate
  have between (glue : Symbol) (inside : symbol ∈ (List.replicate count item).intersperse glue) :
      symbol = item ∨ symbol = glue :=
    (mem_of_mem_intersperse inside).imp_left only
  have after (glue : Symbol)
      (inside : symbol ∈ (List.replicate count item).flatMap ([·, glue])) :
      symbol = item ∨ symbol = glue := by
    obtain ⟨owner, origin, inside⟩ := List.mem_flatMap.mp inside
    cases List.eq_of_mem_replicate origin
    simpa using inside
  cases separator <;> grind [words, symbol?]

end Separator

namespace Repetition

/-- A word belongs to a repetition when it is written with an allowed number of items. -/
instance : Membership (List Symbol) Repetition :=
  ⟨fun repetition word =>
    ∃ count, repetition.Allows count ∧ word ∈ repetition.separator.words repetition.item count⟩

theorem mem_iff {word : List Symbol} {repetition : Repetition} :
    word ∈ repetition ↔
      ∃ count, repetition.Allows count ∧ word ∈ repetition.separator.words repetition.item count :=
  Iff.rfl

end Repetition

end TracedGrammar
