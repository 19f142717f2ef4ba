import TracedGrammar.Language.Forest
import TracedGrammar.Proofs.Language.Interpretation
import TracedGrammar.Proofs.Lists

/-!
# When a word has one derivation tree

Suppose that symbols are read as languages in such a way that rules for the same symbol have no word in
common, and that what a right-hand side stands for can be cut at every place, because what stands
before or after the place is the same in all words.  Then the word at the leaves of a tree says which
rule is applied at the root and which part of the word is below each of its symbols.
-/

namespace TracedGrammar

section Cuts

/-- At every place there is one word that may stand next, or one that may stand after that. -/
def HasFixedCuts : List (Language Symbol) → Prop
  | [] => True
  | first :: rest => (Set.Subsingleton first ∨ Set.Subsingleton rest.prod) ∧ HasFixedCuts rest

/-- Cuts at the same place are the same. -/
theorem eq_and_eq_of_append_eq {first second : Language Symbol}
    (fixed : Set.Subsingleton first ∨ Set.Subsingleton second)
    {left right : List Symbol} (inLeft : left ∈ first) (inRight : right ∈ second)
    {otherLeft otherRight : List Symbol} (inOtherLeft : otherLeft ∈ first)
    (inOtherRight : otherRight ∈ second) (same : left ++ right = otherLeft ++ otherRight) :
    left = otherLeft ∧ right = otherRight := by
  rcases fixed with before | after
  · obtain rfl := before inLeft inOtherLeft
    exact ⟨rfl, List.append_cancel_left same⟩
  · obtain rfl := after inRight inOtherRight
    exact ⟨List.append_cancel_right same, rfl⟩

end Cuts

variable {H : Type}

/-- A reading of symbols that tells rules apart, and the parts of their right-hand sides. -/
structure Interpretation.Separates (meaning : Interpretation) (rules : List (Rule H)) : Prop where
  closed : ∀ rule ∈ rules, meaning.word rule.rhs ≤ meaning rule.lhs
  cuts : ∀ rule ∈ rules, HasFixedCuts (rule.rhs.map meaning)
  apart : rules.Pairwise fun first second => first.lhs = second.lhs →
    ∀ word ∈ meaning.word first.rhs, word ∉ meaning.word second.rhs

namespace Interpretation.Separates

variable {meaning : Interpretation} {rules : List (Rule H)} (separates : meaning.Separates rules)
include separates

theorem index_eq {left right : Nat} {first second : Rule H} (atLeft : rules[left]? = some first)
    (atRight : rules[right]? = some second) (same : first.lhs = second.lhs) {word : List Symbol}
    (inFirst : word ∈ meaning.word first.rhs) (inSecond : word ∈ meaning.word second.rhs) :
    left = right := by
  refine index_eq_of_pairwise separates.apart atLeft atRight ⟨fun differ => ?_, fun differ => ?_⟩
  · exact differ same word inFirst inSecond
  · exact differ same.symm word inSecond inFirst

theorem leaves_mem {forest : Forest} {word : List Symbol} (fits : forest.Fits rules word)
    (stays : ∀ symbol ∈ forest.leaves, [symbol] ∈ meaning symbol) :
    forest.leaves ∈ meaning.word word := by
  refine fits.derives.mem_word ?_ stays
  rintro symbol middle ⟨member⟩
  exact separates.closed _ member

/-- Trees down to symbols that have no rules and stand for themselves are told apart by their
leaves. -/
theorem forest_eq {letters : Symbol → Prop} (stays : ∀ symbol, letters symbol → [symbol] ∈ meaning symbol)
    (ends : ∀ rule ∈ rules, ¬letters rule.lhs) {first second : Forest} {word : List Symbol}
    (former : first.Fits rules word) (latter : second.Fits rules word)
    (cuts : HasFixedCuts (word.map meaning)) (lettersFirst : ∀ symbol ∈ first.leaves, letters symbol)
    (same : first.leaves = second.leaves) : first = second := by
  have inside {forest : Forest} {roots : List Symbol} (fits : forest.Fits rules roots)
      (down : ∀ symbol ∈ forest.leaves, letters symbol) : forest.leaves ∈ meaning.word roots :=
    separates.leaves_mem fits fun symbol member => stays symbol (down symbol member)
  induction former generalizing second with
  | nil =>
      cases latter
      rfl
  | leaf symbol later induction =>
      rw [Forest.leaves, List.forall_mem_cons] at lettersFirst
      cases latter with
      | leaf _ others =>
          rw [induction others cuts.2 lettersFirst.2 (List.cons.inj same).2]
      | node found _ _ =>
          exact absurd lettersFirst.1 (ends _ (List.mem_of_getElem? found))
  | @node index rule below rest word found under later belowInduction restInduction =>
      have lettersSecond := lettersFirst
      rw [same] at lettersSecond
      rw [Forest.leaves, List.forall_mem_append] at lettersFirst
      generalize lhs : rule.lhs = symbol at latter
      cases latter with
      | leaf _ _ =>
          rw [Forest.leaves, List.forall_mem_cons, ← lhs] at lettersSecond
          exact absurd lettersSecond.1 (ends _ (List.mem_of_getElem? found))
      | @node other otherRule otherBelow otherRest _ otherFound otherUnder otherLater =>
          rw [Forest.leaves, List.forall_mem_append] at lettersSecond
          have inBelow := inside under lettersFirst.1
          have inOther := inside otherUnder lettersSecond.1
          have members := List.mem_of_getElem? otherFound
          have upwards := separates.closed _ members inOther
          rw [← lhs] at upwards
          obtain ⟨sameBelow, sameRest⟩ := eq_and_eq_of_append_eq cuts.1
            (separates.closed _ (List.mem_of_getElem? found) inBelow) (inside later lettersFirst.2)
            upwards (inside otherLater lettersSecond.2) same
          rw [← sameBelow] at inOther
          obtain rfl := separates.index_eq found otherFound lhs inBelow inOther
          obtain rfl := Option.some.inj (found.symm.trans otherFound)
          have ruleCuts := separates.cuts _ (List.mem_of_getElem? found)
          rw [belowInduction otherUnder ruleCuts lettersFirst.1 sameBelow,
            restInduction otherLater cuts.2 lettersFirst.2 sameRest]

end Interpretation.Separates

end TracedGrammar
