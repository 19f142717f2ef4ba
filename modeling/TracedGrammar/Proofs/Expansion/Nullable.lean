import Mathlib
import TracedGrammar.Grammar.Authoring
import TracedGrammar.History.Tracked
import TracedGrammar.Proofs.Closure.Nullable
import TracedGrammar.Proofs.Expansion.Language

/-!
# Nullable symbols before and after the expansion

The nullable symbols are found by the rules alone.  After the expansion of all sequences they are the
symbols that derive the empty word by rules and sequences.  Before it, symbols that need a sequence
for this are missing, so both sets agree exactly when no sequence would add its symbol to the first.
-/

namespace TracedGrammar

namespace Separator

variable {separator : Separator} {item symbol : Symbol} {count : Nat} {word : List Symbol}

theorem item_mem_of_mem_words (written : word ∈ separator.words item (count + 1)) :
    item ∈ word := by
  cases separator with
  | absent => simp [List.mem_singleton.mp written, List.replicate_succ]
  | proper symbol => simp_all [words, intersperse_replicate]
  | trailing symbol => simp_all [words_trailing, packets_succ]
  | liberal symbol =>
      simp only [words, intersperse_replicate, flatMap_replicate, packets_succ, List.mem_cons,
        List.not_mem_nil, or_false] at written
      rcases written with rfl | rfl <;> simp

/-- A separator is written with two items, and with one when it follows every item. -/
theorem symbol_mem_of_mem_words (separates : separator.symbol? = some symbol)
    (enough : 2 ≤ count ∨ separator = .trailing symbol ∧ 1 ≤ count)
    (written : word ∈ separator.words item count) : symbol ∈ word := by
  have pair (two : 2 ≤ count) : ∃ others, count = others + 1 + 1 := ⟨count - 2, by omega⟩
  cases separator with
  | absent => cases separates
  | proper other =>
      obtain rfl := Option.some.inj separates
      obtain ⟨others, rfl⟩ := pair (enough.resolve_right (by simp))
      simp_all [words, intersperse_replicate, packets_succ]
  | trailing other =>
      obtain rfl := Option.some.inj separates
      obtain ⟨others, rfl⟩ : ∃ others, count = others + 1 := ⟨count - 1, by omega⟩
      simp_all [words_trailing, packets_succ]
  | liberal other =>
      obtain rfl := Option.some.inj separates
      obtain ⟨others, rfl⟩ := pair (enough.resolve_right (by simp))
      simp only [words, intersperse_replicate, flatMap_replicate, packets_succ, List.mem_cons,
        List.not_mem_nil, or_false] at written
      rcases written with rfl | rfl <;> simp

theorem singleton_mem_words_one (single : ∀ symbol, separator ≠ .trailing symbol) :
    [item] ∈ separator.words item 1 := by
  cases separator with
  | absent => simp [words]
  | proper symbol => simp [words]
  | liberal symbol => simp [words]
  | trailing symbol => exact absurd rfl (single symbol)

theorem exists_mem_words (separator : Separator) (item : Symbol) (count : Nat) :
    ∃ word : List Symbol, word ∈ separator.words item count := by
  cases separator <;> exact ⟨_, List.mem_cons_self⟩

end Separator

namespace Repetition

/-- Whether nothing is left of a repetition when all symbols with a property vanish: it asks for no
items, or its item vanishes together with every separator that cannot be avoided. -/
def Vanishes (repetition : Repetition) (property : Symbol → Prop) : Prop :=
  repetition.least = 0 ∨ property repetition.item ∧
    ∀ symbol, repetition.separator.symbol? = some symbol →
      property symbol ∨ repetition.least = 1 ∧ repetition.separator ≠ .trailing symbol

variable {repetition : Repetition} {property : Symbol → Prop}

theorem vanishes_of_mem {word : List Symbol} (written : word ∈ repetition)
    (each : ∀ symbol ∈ word, property symbol) : repetition.Vanishes property := by
  obtain ⟨count, ⟨enough, _⟩, inWords⟩ := written
  by_cases zero : repetition.least = 0
  · exact .inl zero
  · obtain ⟨others, rfl⟩ : ∃ others, count = others + 1 := ⟨count - 1, by omega⟩
    refine .inr ⟨each _ (Separator.item_mem_of_mem_words inWords), fun symbol separates => ?_⟩
    by_cases avoidable : repetition.least = 1 ∧ repetition.separator ≠ .trailing symbol
    · exact .inr avoidable
    · refine .inl (each _ (Separator.symbol_mem_of_mem_words separates ?_ inWords))
      by_cases trails : repetition.separator = .trailing symbol
      · exact .inr ⟨trails, Nat.succ_pos _⟩
      · have several : repetition.least ≠ 1 := fun one => avoidable ⟨one, trails⟩
        exact .inl (by omega)

theorem exists_mem_of_vanishes (valid : repetition.IsValid)
    (vanishes : repetition.Vanishes property) :
    ∃ word : List Symbol, word ∈ repetition ∧ ∀ symbol ∈ word, property symbol := by
  have allows : repetition.Allows repetition.least := ⟨Nat.le_refl _, valid⟩
  rcases vanishes with zero | ⟨item, separators⟩
  · refine ⟨[], ⟨_, allows, ?_⟩, by simp⟩
    rw [zero, Separator.mem_words_zero]
  · by_cases avoidable : repetition.least = 1 ∧ ∀ symbol, repetition.separator ≠ .trailing symbol
    · refine ⟨[repetition.item], ⟨_, allows, ?_⟩, by simpa using item⟩
      rw [avoidable.1]
      exact Separator.singleton_mem_words_one avoidable.2
    · obtain ⟨word, inWords⟩ :=
        repetition.separator.exists_mem_words repetition.item repetition.least
      refine ⟨word, ⟨_, allows, inWords⟩, fun symbol occurs => ?_⟩
      rcases Separator.mem_of_mem_words inWords occurs with rfl | separates
      · exact item
      · refine (separators symbol separates).resolve_right fun ⟨one, single⟩ => avoidable ⟨one, ?_⟩
        rintro other trails
        rw [trails] at separates single
        exact single (congrArg Separator.trailing (Option.some.inj separates))

/-- A repetition vanishes when one of its words is made of symbols that do. -/
theorem vanishes_iff (valid : repetition.IsValid) : repetition.Vanishes property ↔
    ∃ word : List Symbol, word ∈ repetition ∧ ∀ symbol ∈ word, property symbol :=
  ⟨exists_mem_of_vanishes valid, fun ⟨_, written, each⟩ => vanishes_of_mem written each⟩

end Repetition

namespace Grammar

variable {H : Type} [RuleHistory H] {grammar result : Grammar H} {limits : Limits}

omit [RuleHistory H] in
theorem derives_nil_of_mem_nullableSymbols {symbol : Symbol}
    (member : symbol ∈ grammar.nullableSymbols) : grammar.Derives [symbol] [] := by
  refine TracedGrammar.Derives.mono ?_ (mem_nullableSymbols_iff.mp member)
  rintro _ _ ⟨inRules⟩
  exact .rule inRules

omit [RuleHistory H] in
/-- When no sequence would add its symbol to the nullable ones, they are all symbols that derive the
empty word. -/
theorem mem_nullableSymbols_of_derives_nil
    (closed : ∀ sequence ∈ grammar.sequences,
      sequence.repetition.Vanishes (· ∈ grammar.nullableSymbols) →
        sequence.lhs ∈ grammar.nullableSymbols)
    {symbols derived : List Symbol} (derives : grammar.Derives symbols derived)
    (empty : derived = []) : ∀ symbol ∈ symbols, symbol ∈ grammar.nullableSymbols := by
  induction derives with
  | nil => simp
  | keep => simp at empty
  | expand step _ _ below later =>
      obtain ⟨noneBelow, noneLater⟩ := List.append_eq_nil_iff.mp empty
      refine List.forall_mem_cons.mpr ⟨?_, later noneLater⟩
      cases step with
      | rule inRules => exact lhs_mem_nullableSymbols inRules (below noneBelow)
      | sequence inSequences written =>
          exact closed _ inSequences (Repetition.vanishes_of_mem written (below noneBelow))

/-- After an expansion the nullable symbols are those that derive the empty word by rules and
sequences.  Before it none of them is wrong, and none that the grammar has allocated is missing
exactly when every sequence that vanishes with them stands for one of them. -/
theorem nullableSymbols_expandSequences_iff (uses : grammar.UsesAllocated)
    (succeeds : (grammar.expandSequences limits).result = .ok result) :
    (∀ symbol ∈ grammar.supply,
      (symbol ∈ result.nullableSymbols ↔ grammar.Derives [symbol] [])) ∧
    (∀ symbol ∈ grammar.nullableSymbols, symbol ∈ result.nullableSymbols) ∧
    ((∀ symbol ∈ grammar.supply,
        (symbol ∈ grammar.nullableSymbols ↔ symbol ∈ result.nullableSymbols)) ↔
      ∀ sequence ∈ grammar.sequences,
        sequence.repetition.Vanishes (· ∈ grammar.nullableSymbols) →
          sequence.lhs ∈ grammar.nullableSymbols) := by
  obtain ⟨chain, expands⟩ := exists_expandsTo succeeds
  have derived (symbol : Symbol) (allocated : symbol ∈ grammar.supply) :
      symbol ∈ result.nullableSymbols ↔ grammar.Derives [symbol] [] := by
    rw [mem_nullableSymbols_iff, ← derives_iff_directBy expands.plain]
    exact expands.derives_nil_iff uses allocated
  have kept (symbol : Symbol) (member : symbol ∈ grammar.nullableSymbols) :
      symbol ∈ result.nullableSymbols := by
    rw [mem_nullableSymbols_iff, ← derives_iff_directBy expands.plain]
    exact expands.derives (derives_nil_of_mem_nullableSymbols member)
  refine ⟨derived, kept, fun agree sequence member vanishes => ?_, fun closed symbol allocated => ?_⟩
  · obtain ⟨expanded, _, rfl⟩ := expands.exists_expanded member
    have allocated := uses.sequence_mem _ member
    obtain ⟨word, written, each⟩ := Repetition.exists_mem_of_vanishes expanded.valid vanishes
    have below : grammar.Derives word [] :=
      .nil_of_forall fun symbol occurs => derives_nil_of_mem_nullableSymbols (each symbol occurs)
    rw [agree _ allocated, derived _ allocated]
    exact (TracedGrammar.Derives.of_direct (.sequence member written)).trans below
  · refine ⟨kept symbol, fun after => ?_⟩
    have derives := (derived symbol allocated).mp after
    exact mem_nullableSymbols_of_derives_nil closed derives rfl symbol List.mem_cons_self

/-- Any number of items and nothing else. -/
def anyNumber : Grammar History :=
  (({ supply := ⟨2⟩ } : Grammar History).writeSequence ⟨0⟩ { item := ⟨1⟩ }).2

theorem anyNumber_usesAllocated : anyNumber.UsesAllocated where
  lhs_mem := by simp [anyNumber, writeSequence, addSequence]
  rhs_mem := by simp [anyNumber, writeSequence, addSequence]
  sequence_mem := by decide
  letter_mem := by
    intro sequence member letter
    rw [List.mem_singleton.mp member]
    rintro (rfl | separates)
    · decide
    · cases separates

theorem anyNumber_nullableSymbols_expandSequences_iff :
    anyNumber.UsesAllocated ∧ ∃ result, (anyNumber.expandSequences {}).result = .ok result ∧
      (∀ symbol ∈ anyNumber.supply,
        (symbol ∈ result.nullableSymbols ↔ anyNumber.Derives [symbol] [])) ∧
      (∀ symbol ∈ anyNumber.nullableSymbols, symbol ∈ result.nullableSymbols) ∧
      ((∀ symbol ∈ anyNumber.supply,
          (symbol ∈ anyNumber.nullableSymbols ↔ symbol ∈ result.nullableSymbols)) ↔
        ∀ sequence ∈ anyNumber.sequences,
          sequence.repetition.Vanishes (· ∈ anyNumber.nullableSymbols) →
            sequence.lhs ∈ anyNumber.nullableSymbols) := by
  obtain ⟨result, succeeds⟩ :=
    exists_eq_ok (by cbv : (anyNumber.expandSequences {}).result.toBool = true)
  exact ⟨anyNumber_usesAllocated, result, succeeds,
    nullableSymbols_expandSequences_iff anyNumber_usesAllocated succeeds⟩

/-- Before the expansion no symbol is found to derive the empty word, and after it the symbol of the
sequence is. -/
theorem anyNumber_nullableSymbols_differ :
    anyNumber.UsesAllocated ∧ ∃ result, (anyNumber.expandSequences {}).result = .ok result ∧
      anyNumber.nullableSymbols.toList = [] ∧ result.nullableSymbols.toList = [⟨0⟩] ∧
      ¬∀ symbol ∈ anyNumber.supply,
        (symbol ∈ anyNumber.nullableSymbols ↔ symbol ∈ result.nullableSymbols) := by
  obtain ⟨result, succeeds⟩ :=
    exists_eq_ok (by cbv : (anyNumber.expandSequences {}).result.toBool = true)
  have before : anyNumber.nullableSymbols.toList = [] := by cbv
  have after : (anyNumber.expandSequences {}).result.map (·.nullableSymbols.toList) =
      .ok [⟨0⟩] := by cbv
  rw [succeeds] at after
  have after : result.nullableSymbols.toList = [⟨0⟩] := Except.ok.inj after
  refine ⟨anyNumber_usesAllocated, result, succeeds, before, after, fun agree => ?_⟩
  have found : (⟨0⟩ : Symbol) ∈ result.nullableSymbols := by
    rw [← SymbolSet.mem_toList, after]
    exact List.mem_cons_self
  have early := (agree ⟨0⟩ (by decide)).mpr found
  rw [← SymbolSet.mem_toList, before] at early
  cases early

end Grammar

end TracedGrammar
