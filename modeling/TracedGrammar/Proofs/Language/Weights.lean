import TracedGrammar.Language.Forest
import TracedGrammar.Proofs.Language.Interpretation

/-!
# Counting marked rules in derivation trees

Symbols get weights, and some rules are marked.  Suppose that every rule for a symbol in some part of
a grammar stays in that part, and that the weight of its left-hand side is the weight of its
right-hand side, with one more when the rule is marked.  Then every forest in that part has as many
marked rules as there is more weight at its roots than at its leaves.
-/

namespace TracedGrammar

variable {H : Type}

def weigh (weight : Symbol → Nat) : List Symbol → Nat
  | [] => 0
  | symbol :: word => weight symbol + weigh weight word

section Weigh

variable {weight : Symbol → Nat}

@[simp]
theorem weigh_nil : weigh weight [] = 0 :=
  rfl

@[simp]
theorem weigh_cons (symbol : Symbol) (word : List Symbol) :
    weigh weight (symbol :: word) = weight symbol + weigh weight word :=
  rfl

@[simp]
theorem weigh_append (first second : List Symbol) :
    weigh weight (first ++ second) = weigh weight first + weigh weight second := by
  induction first with
  | nil => simp
  | cons symbol first induction =>
      rw [List.cons_append, weigh_cons, weigh_cons, induction, Nat.add_assoc]

theorem weigh_eq_zero {word : List Symbol} (light : ∀ symbol ∈ word, weight symbol = 0) :
    weigh weight word = 0 := by
  induction word with
  | nil => rfl
  | cons symbol word induction =>
      rw [weigh_cons, light symbol List.mem_cons_self, Nat.zero_add]
      exact induction fun other member => light other (List.mem_cons_of_mem _ member)

theorem weigh_flatMap (words : Symbol → List Symbol) (word : List Symbol) :
    weigh weight (word.flatMap words) = weigh (fun symbol => weigh weight (words symbol)) word := by
  induction word with
  | nil => rfl
  | cons symbol word induction =>
      rw [List.flatMap_cons, weigh_append, weigh_cons, induction]

end Weigh

/-- The rules for symbols inside some part, apart from those for frozen symbols, stay inside and
balance the weights of their sides, where a marked rule counts one. -/
structure Balanced (rules : List (Rule H)) (inside frozen : Symbol → Prop)
    (weight : Symbol → Nat) (marked : Rule H → Bool) : Prop where
  stays : ∀ rule ∈ rules, inside rule.lhs → ¬frozen rule.lhs → ∀ symbol ∈ rule.rhs, inside symbol
  weigh_rhs : ∀ rule ∈ rules, inside rule.lhs → ¬frozen rule.lhs →
    weigh weight rule.rhs + (marked rule).toNat = weight rule.lhs

namespace Forest

/-- No rule is applied to a frozen symbol. -/
def LeavesAlone (rules : List (Rule H)) (frozen : Symbol → Prop) (forest : Forest) : Prop :=
  ∀ index ∈ forest.applied, ∀ rule, rules[index]? = some rule → ¬frozen rule.lhs

def countMarked (rules : List (Rule H)) (marked : Rule H → Bool) (forest : Forest) : Nat :=
  forest.applied.countP fun index => rules[index]?.any marked

variable {rules : List (Rule H)} {inside frozen : Symbol → Prop} {weight : Symbol → Nat}
  {marked : Rule H → Bool}

/-- Marked rules take away the weight that is missing at the leaves. -/
theorem countMarked_add_weigh_leaves (balanced : Balanced rules inside frozen weight marked)
    {forest : Forest} {word : List Symbol} (fits : Fits rules forest word)
    (insideWord : ∀ symbol ∈ word, inside symbol) (alone : forest.LeavesAlone rules frozen) :
    forest.countMarked rules marked + weigh weight forest.leaves = weigh weight word := by
  induction fits with
  | nil => rfl
  | leaf symbol _ induction =>
      have rest := induction (fun other member => insideWord other (List.mem_cons_of_mem _ member))
        alone
      rw [leaves, weigh_cons, weigh_cons, ← rest, Nat.add_left_comm]
      rfl
  | @node index rule below rest word found under later belowInduction laterInduction =>
      have member := List.mem_of_getElem? found
      have insideLhs := insideWord rule.lhs List.mem_cons_self
      have free := alone index List.mem_cons_self rule found
      have first := belowInduction (balanced.stays rule member insideLhs free)
        fun other inApplied => alone other
          (List.mem_cons_of_mem _ (List.mem_append_left _ inApplied))
      have second := laterInduction
        (fun other inWord => insideWord other (List.mem_cons_of_mem _ inWord))
        fun other inApplied => alone other
          (List.mem_cons_of_mem _ (List.mem_append_right _ inApplied))
      have here := balanced.weigh_rhs rule member insideLhs free
      have count : (node index below rest).countMarked rules marked =
          below.countMarked rules marked + rest.countMarked rules marked + (marked rule).toNat := by
        rw [countMarked, applied, List.countP_cons, List.countP_append, found, Option.any_some]
        cases marked rule <;> rfl
      rw [count, leaves, weigh_append, weigh_cons]
      omega

def row : List Symbol → Forest
  | [] => .nil
  | symbol :: word => .leaf symbol (row word)

theorem fits_row (word : List Symbol) : Fits rules (row word) word := by
  induction word with
  | nil => exact .nil
  | cons symbol word induction => exact .leaf symbol induction

@[simp]
theorem leaves_row (word : List Symbol) : (row word).leaves = word := by
  induction word with
  | nil => rfl
  | cons symbol word induction => rw [row, leaves, induction]

@[simp]
theorem applied_row (word : List Symbol) : (row word).applied = [] := by
  induction word with
  | nil => rfl
  | cons symbol word induction => rw [row, applied, induction]

theorem countMarked_node_row {index : Nat} {rule : Rule H} (found : rules[index]? = some rule)
    (word : List Symbol) :
    (node index (row word) .nil).countMarked rules marked = (marked rule).toNat := by
  rw [countMarked, applied, applied_row]
  cases mark : marked rule <;> simp [applied, found, mark]

/-- What derives without expanding frozen symbols is shown by a forest that leaves them alone. -/
theorem exists_fits_leavesAlone {word derived : List Symbol}
    (derives : Derives (fun symbol middle => DirectBy rules symbol middle ∧ ¬frozen symbol)
      word derived) :
    ∃ forest, Fits rules forest word ∧ forest.leaves = derived ∧
      forest.LeavesAlone rules frozen := by
  induction derives with
  | nil => exact ⟨.nil, .nil, rfl, by simp [LeavesAlone, applied]⟩
  | keep symbol _ induction =>
      obtain ⟨forest, fits, rfl, alone⟩ := induction
      exact ⟨.leaf symbol forest, .leaf symbol fits, rfl, alone⟩
  | expand step _ _ below later =>
      obtain ⟨⟨member⟩, free⟩ := step
      obtain ⟨index, found⟩ := List.getElem?_of_mem member
      obtain ⟨under, fitsUnder, rfl, aloneUnder⟩ := below
      obtain ⟨rest, fitsRest, rfl, aloneRest⟩ := later
      refine ⟨.node index under rest, .node found fitsUnder fitsRest, rfl, ?_⟩
      intro other inApplied rule foundRule
      rcases List.mem_cons.mp inApplied with rfl | inside
      · rw [found, Option.some.injEq] at foundRule
        rwa [← foundRule]
      · rcases List.mem_append.mp inside with inUnder | inRest
        · exact aloneUnder other inUnder rule foundRule
        · exact aloneRest other inRest rule foundRule

end Forest

end TracedGrammar
