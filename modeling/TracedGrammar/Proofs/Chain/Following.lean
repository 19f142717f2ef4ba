import Mathlib.Data.List.Nodup
import TracedGrammar.Chain.Index

/-!
# Following a chain to its end

From a piece of a chain the way goes on to the piece that defines its first symbol.  A way that ends
never comes back to a rule, so it is found within as many steps as there are rules.
-/

namespace TracedGrammar

namespace Chains

variable {H : Type} [RuleHistory H] {chains : Chains H}

section Ways

/-- The way from an index goes through some indices, piece by piece, and ends. -/
inductive Follows (chains : Chains H) : Nat → List Nat → Prop
  | last {index : Nat} (ends : chains.next? index = none) : Follows chains index [index]
  | step {index below : Nat} {rest : List Nat} (next : chains.next? index = some below)
      (later : Follows chains below rest) : Follows chains index (index :: rest)

namespace Follows

variable {index : Nat} {indices : List Nat}

theorem unique (follows : chains.Follows index indices) {others : List Nat}
    (alike : chains.Follows index others) : indices = others := by
  induction follows generalizing others with
  | last ends =>
      cases alike with
      | last => rfl
      | step next => simp [ends] at next
  | step next _ induction =>
      cases alike with
      | last ends => simp [ends] at next
      | step other later =>
          obtain rfl := Option.some.inj (next.symm.trans other)
          rw [induction later]

theorem mem_self (follows : chains.Follows index indices) : index ∈ indices := by
  cases follows <;> exact List.mem_cons_self

theorem exists_suffix (follows : chains.Follows index indices) {other : Nat}
    (member : other ∈ indices) :
    ∃ suffix, chains.Follows other suffix ∧ suffix.length ≤ indices.length := by
  induction follows with
  | last ends =>
      obtain rfl := List.mem_singleton.mp member
      exact ⟨_, .last ends, Nat.le_refl _⟩
  | step next later induction =>
      rcases List.mem_cons.mp member with rfl | inRest
      · exact ⟨_, .step next later, Nat.le_refl _⟩
      · obtain ⟨suffix, fromOther, shorter⟩ := induction inRest
        exact ⟨suffix, fromOther, Nat.le_succ_of_le shorter⟩

/-- A way that came back would have to go on as it did before. -/
theorem nodup (follows : chains.Follows index indices) : indices.Nodup := by
  induction follows with
  | last => exact List.nodup_singleton _
  | @step index below rest next later induction =>
      refine List.nodup_cons.mpr ⟨fun returns => ?_, induction⟩
      obtain ⟨suffix, again, shorter⟩ := later.exists_suffix returns
      rw [again.unique (.step next later)] at shorter
      exact absurd shorter (Nat.not_succ_le_self _)

theorem walk_eq (follows : chains.Follows index indices) {bound : Nat}
    (enough : indices.length ≤ bound) : chains.walk bound index = indices := by
  induction follows generalizing bound with
  | last ends =>
      cases bound with
      | zero => cases enough
      | succ bound => simp only [walk, ends]
  | step next _ induction =>
      cases bound with
      | zero => cases enough
      | succ bound => simp only [walk, next, induction (Nat.le_of_succ_le_succ enough)]

theorem pieces_eq (follows : chains.Follows index indices)
    (inside : ∀ other ∈ indices, other < chains.rules.size) : chains.pieces index = indices := by
  have fewer : indices.length ≤ chains.rules.size := by
    rw [← List.length_range (n := chains.rules.size)]
    exact follows.nodup.length_le_of_subset fun other member => List.mem_range.mpr (inside other member)
  rw [pieces, if_pos (inside index follows.mem_self), follows.walk_eq fewer]

end Follows

end Ways

section Index

variable {rules : List (Rule H)} {symbol : Symbol}

theorem mem_foldl_enter {items : List (Rule H × Nat)} {below : Std.HashMap Symbol Nat} :
    symbol ∈ items.foldl enter below ↔
      symbol ∈ below ∨ ∃ item ∈ items, item.1.isBelowTop = true ∧ item.1.lhs = symbol := by
  induction items generalizing below with
  | nil => simp
  | cons item items induction =>
      have entered : symbol ∈ enter below item ↔
          item.1.isBelowTop = true ∧ item.1.lhs = symbol ∨ symbol ∈ below := by
        unfold enter
        split
        · rename_i deep
          simp [deep, Std.HashMap.mem_insert]
        · rename_i shallow
          simp [shallow]
      rw [List.foldl_cons, induction, entered, List.exists_mem_cons_iff, or_comm (a := _ ∧ _), or_assoc]

theorem getElem?_foldl_enter {items : List (Rule H × Nat)} {below : Std.HashMap Symbol Nat}
    {index : Nat} (found : (items.foldl enter below)[symbol]? = some index) :
    below[symbol]? = some index ∨
      ∃ rule, (rule, index) ∈ items ∧ rule.isBelowTop = true ∧ rule.lhs = symbol := by
  induction items generalizing below with
  | nil => exact .inl found
  | cons item items induction =>
      rcases induction found with entered | ⟨rule, member, deep, defines⟩
      · unfold enter at entered
        split at entered
        · rename_i deep
          rw [Std.HashMap.getElem?_insert] at entered
          split at entered
          · rename_i same
            obtain rfl := Option.some.inj entered
            exact .inr ⟨item.1, List.mem_cons_self, deep, beq_iff_eq.mp same⟩
          · exact .inl entered
        · exact .inl entered
      · exact .inr ⟨rule, List.mem_cons_of_mem _ member, deep, defines⟩

theorem isChainSymbol_ofRules_iff :
    (ofRules rules).isChainSymbol symbol = true ↔
      ∃ rule ∈ rules, rule.isBelowTop = true ∧ rule.lhs = symbol := by
  unfold isChainSymbol ofRules
  rw [Std.HashMap.contains_iff_mem, mem_foldl_enter]
  constructor
  · rintro (impossible | ⟨⟨rule, index⟩, member, deep, defines⟩)
    · exact absurd impossible Std.HashMap.not_mem_empty
    · exact ⟨rule, List.fst_mem_of_mem_zipIdx member, deep, defines⟩
  · rintro ⟨rule, member, deep, defines⟩
    obtain ⟨index, found⟩ := List.getElem?_of_mem member
    exact .inr ⟨(rule, index), List.mem_zipIdx_iff_getElem?.mpr found, deep, defines⟩

/-- The piece that a symbol leads to is below the top of a chain and defines the symbol. -/
theorem exists_rule_of_below {index : Nat} (found : (ofRules rules).below[symbol]? = some index) :
    ∃ rule, rules[index]? = some rule ∧ rule.isBelowTop = true ∧ rule.lhs = symbol := by
  rcases getElem?_foldl_enter found with impossible | ⟨rule, member, deep, defines⟩
  · simp at impossible
  · exact ⟨rule, List.mem_zipIdx_iff_getElem?.mp member, deep, defines⟩

end Index

end Chains

end TracedGrammar
