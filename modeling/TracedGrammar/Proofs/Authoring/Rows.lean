import TracedGrammar.Proofs.Authoring.Edits
import TracedGrammar.Proofs.Grammar.Symbols
import TracedGrammar.Proofs.History.Tracked

/-!
# Rules one after the other

An author who adds rules to a grammar, whether or not it has been normalized before, adds to what its
symbols directly stand for.  Nothing has been left out of the new rules.
-/

namespace TracedGrammar

namespace Grammar

variable {H : Type}

/-- Every symbol of some rules has been allocated. -/
def AllocatesRows (grammar : Grammar H) (rows : List (Symbol × List Symbol)) : Prop :=
  ∀ row ∈ rows, row.1 ∈ grammar.supply ∧ ∀ symbol ∈ row.2, symbol ∈ grammar.supply

theorem AllocatesRows.mono {grammar other : Grammar H} {rows : List (Symbol × List Symbol)}
    (allocated : grammar.AllocatesRows rows)
    (larger : ∀ symbol ∈ grammar.supply, symbol ∈ other.supply) : other.AllocatesRows rows :=
  fun row member => ⟨larger _ (allocated row member).1,
    fun symbol occurs => larger symbol ((allocated row member).2 symbol occurs)⟩

variable [RuleHistory H]

/-- Writes rules one after the other. -/
def writeRules (grammar : Grammar H) (rows : List (Symbol × List Symbol)) : Grammar H :=
  rows.foldl (fun current row => (current.writeRule row.1 row.2).2) grammar

variable {grammar : Grammar H} {rows : List (Symbol × List Symbol)}

theorem exists_rules_writeRules (grammar : Grammar H) (rows : List (Symbol × List Symbol)) :
    ∃ added, (grammar.writeRules rows).rules = grammar.rules ++ added ∧
      added.map (fun rule => (rule.lhs, rule.rhs)) = rows ∧
        ∀ rule ∈ added, ∃ handle, rule.history = RuleHistory.ofOrigin handle := by
  induction rows generalizing grammar with
  | nil => exact ⟨[], (List.append_nil _).symm, rfl, by simp⟩
  | cons row rows induction =>
      obtain ⟨added, written, shapes, histories⟩ := induction (grammar.writeRule row.1 row.2).2
      refine ⟨⟨row.1, row.2, RuleHistory.ofOrigin grammar.nextRule⟩ :: added, ?_, ?_, ?_⟩
      · rw [writeRules, List.foldl_cons, ← writeRules, written, writeRule, addRule,
          List.append_assoc]
        rfl
      · rw [List.map_cons, shapes]
      · exact List.forall_mem_cons.mpr ⟨⟨_, rfl⟩, histories⟩

@[simp]
theorem supply_writeRules (grammar : Grammar H) (rows : List (Symbol × List Symbol)) :
    (grammar.writeRules rows).supply = grammar.supply := by
  induction rows generalizing grammar with
  | nil => rfl
  | cons row rows induction => exact induction (grammar.writeRule row.1 row.2).2

@[simp]
theorem sequences_writeRules (grammar : Grammar H) (rows : List (Symbol × List Symbol)) :
    (grammar.writeRules rows).sequences = grammar.sequences := by
  induction rows generalizing grammar with
  | nil => rfl
  | cons row rows induction => exact induction (grammar.writeRule row.1 row.2).2

/-- A symbol directly stands for what it stood for and for the right-hand sides of its new rules. -/
theorem directBy_writeRules_iff {symbol : Symbol} {word : List Symbol} :
    DirectBy (grammar.writeRules rows).rules symbol word ↔
      DirectBy grammar.rules symbol word ∨ (symbol, word) ∈ rows := by
  obtain ⟨added, written, rfl, _⟩ := exists_rules_writeRules grammar rows
  rw [written]
  constructor
  · rintro ⟨member⟩
    rcases List.mem_append.mp member with before | new
    · exact .inl (.rule before)
    · exact .inr (List.mem_map_of_mem new)
  · rintro (@⟨_, before⟩ | new)
    · exact .rule (List.mem_append_left _ before)
    · obtain ⟨rule, inside, same⟩ := List.mem_map.mp new
      cases same
      exact .rule (List.mem_append_right _ inside)

theorem UsesAllocated.writeRules (uses : grammar.UsesAllocated) (without : grammar.sequences = [])
    (allocated : grammar.AllocatesRows rows) : (grammar.writeRules rows).UsesAllocated := by
  refine .of_directBy (by rw [sequences_writeRules, without]) fun symbol word step => ?_
  rw [supply_writeRules]
  rcases directBy_writeRules_iff.mp step with before | new
  · exact uses.mem_of_directBy before
  · exact allocated _ new

theorem admitsElision_writeRules {grammar : Grammar History} {rows : List (Symbol × List Symbol)}
    (admits : ∀ rule ∈ grammar.rules, rule.admitsElision = true) :
    ∀ rule ∈ (grammar.writeRules rows).rules, rule.admitsElision = true := by
  obtain ⟨added, written, _, histories⟩ := exists_rules_writeRules grammar rows
  rw [written, List.forall_mem_append]
  refine ⟨admits, fun rule new => ?_⟩
  obtain ⟨handle, fresh⟩ := histories rule new
  rw [Rule.admitsElision_iff, fresh]
  rfl

theorem Authored.admitsElision {grammar : Grammar History} (authored : grammar.Authored fun _ => False) :
    ∀ rule ∈ grammar.rules, rule.admitsElision = true := by
  have histories := authored.histories History.holdsOfWritten_isAuthored (by simp)
  exact fun rule member =>
    Rule.admitsElision_iff.mpr (History.elision_eq_none_of_isAuthored (histories.rule rule member))

end Grammar

end TracedGrammar
