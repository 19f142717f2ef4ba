import Mathlib.Data.List.Basic
import TracedGrammar.Chain.Split
import TracedGrammar.Language.Derivation

/-!
# The links of a chain

The chain for a long right-hand side has one link for each depth.  The link at a depth is there for
the word without as many of its last symbols as the depth.  It defines the symbol allocated for the
depth, and it goes on with the symbol for the next depth and the last symbol of its word, or, at the
bottom, holds the two symbols that are left.
-/

namespace TracedGrammar

namespace ChainRule

def symbolAt (lhs : Symbol) (supply : SymbolSupply) : (depth : Nat) → Symbol
  | 0 => lhs
  | depth + 1 => ⟨supply.allocated + depth⟩

/-- What the link at a depth is there for. -/
def wordAt (word : List Symbol) (depth : Nat) : List Symbol :=
  word.take (word.length - depth)

def link (word : List Symbol) (lhs : Symbol) (supply : SymbolSupply) (depth : Nat) : ChainRule :=
  if depth + 2 < word.length then
    { lhs := symbolAt lhs supply depth
      rhs := symbolAt lhs supply (depth + 1) :: word[word.length - (depth + 1)]?.toList
      piece := ⟨.right, depth, word.length⟩ }
  else
    { lhs := symbolAt lhs supply depth
      rhs := wordAt word depth
      piece := ⟨.left, depth, word.length⟩ }

variable {word : List Symbol} {lhs : Symbol} {supply : SymbolSupply} {depth : Nat}

theorem wordAt_eq_append (above : depth + 2 < word.length) :
    wordAt word depth = wordAt word (depth + 1) ++ word[word.length - (depth + 1)]?.toList := by
  have next : word.length - depth = word.length - (depth + 1) + 1 := by omega
  rw [wordAt, next, List.take_add_one]
  rfl

@[simp]
theorem wordAt_zero : wordAt word 0 = word :=
  List.take_length

theorem length_wordAt : (wordAt word depth).length = word.length - depth := by
  rw [wordAt, List.length_take]
  omega

@[simp]
theorem lhs_link : (link word lhs supply depth).lhs = symbolAt lhs supply depth := by
  unfold link
  split <;> rfl

@[simp]
theorem depth_link : (link word lhs supply depth).piece.depth = depth := by
  unfold link
  split <;> rfl

theorem piece_link : (link word lhs supply depth).piece =
    ⟨if depth + 2 < word.length then .right else .left, depth, word.length⟩ := by
  unfold link
  split <;> rfl

theorem mem_rhs_link {symbol : Symbol} (member : symbol ∈ (link word lhs supply depth).rhs) :
    symbol ∈ word ∨ depth + 2 < word.length ∧ symbol = symbolAt lhs supply (depth + 1) := by
  unfold link at member
  split at member
  · rename_i above
    rcases List.mem_cons.mp member with rfl | later
    · exact .inr ⟨above, rfl⟩
    · exact .inl (List.mem_of_getElem? (Option.mem_toList.mp later))
  · exact .inl (List.mem_of_mem_take member)

theorem length_rhs_link (bound : depth + 2 ≤ word.length) :
    (link word lhs supply depth).rhs.length = 2 := by
  unfold link
  split
  · rename_i above
    rw [List.getElem?_eq_getElem (by omega)]
    rfl
  · simp only [length_wordAt]
    omega

theorem chain_cons {rest : List Symbol} (last : Symbol) (long : 2 ≤ rest.length) {fullLength : Nat} :
    chain fullLength lhs depth supply (last :: rest) =
      (⟨lhs, [supply.fresh.1, last], ⟨.right, depth, fullLength⟩⟩ ::
          (chain fullLength supply.fresh.1 (depth + 1) supply.fresh.2 rest).1,
        (chain fullLength supply.fresh.1 (depth + 1) supply.fresh.2 rest).2) := by
  match rest, long with
  | _ :: _ :: _, _ => rw [chain]

/-- A chain from some depth on has the links for all depths from there to the bottom. -/
theorem chain_wordAt (bound : depth + 2 ≤ word.length) :
    chain word.length (symbolAt lhs supply depth) depth ⟨supply.allocated + depth⟩
        (wordAt word depth).reverse =
      ((List.range' depth (word.length - (depth + 1))).map (link word lhs supply),
        ⟨supply.allocated + (word.length - 2)⟩) := by
  induction gap : word.length - (depth + 2) generalizing depth with
  | zero =>
      obtain ⟨first, second, ends⟩ := List.length_eq_two.mp
        (show (wordAt word depth).length = 2 by rw [length_wordAt]; omega)
      have below : link word lhs supply depth =
          ⟨symbolAt lhs supply depth, [first, second], ⟨.left, depth, word.length⟩⟩ := by
        rw [link, if_neg (by omega), ends]
      rw [ends, show word.length - (depth + 1) = 1 by omega,
        show word.length - 2 = depth by omega, List.range'_one, List.map_singleton, below]
      rfl
  | succ gap induction =>
      have above : depth + 2 < word.length := by omega
      obtain ⟨last, found⟩ : ∃ last, word[word.length - (depth + 1)]? = some last :=
        ⟨_, List.getElem?_eq_getElem (by omega)⟩
      have long : 2 ≤ (wordAt word (depth + 1)).reverse.length := by
        rw [List.length_reverse, length_wordAt]
        omega
      have next : chain word.length (symbolAt lhs supply (depth + 1)) (depth + 1)
          ⟨supply.allocated + depth + 1⟩ (wordAt word (depth + 1)).reverse = _ :=
        induction (by omega) (by omega)
      have here : link word lhs supply depth = ⟨symbolAt lhs supply depth,
          [symbolAt lhs supply (depth + 1), last], ⟨.right, depth, word.length⟩⟩ := by
        rw [link, if_pos above, found]
        rfl
      have fresh : SymbolSupply.fresh ⟨supply.allocated + depth⟩ =
          (symbolAt lhs supply (depth + 1), ⟨supply.allocated + depth + 1⟩) :=
        rfl
      rw [wordAt_eq_append above, found, List.reverse_append, Option.toList_some,
        List.reverse_singleton, List.singleton_append, chain_cons _ long, fresh, next,
        show word.length - (depth + 1) = word.length - (depth + 1 + 1) + 1 by omega,
        List.range'_succ, List.map_cons, here]

theorem chain_eq (lhs : Symbol) (supply : SymbolSupply) (long : 2 ≤ word.length) :
    chain word.length lhs 0 supply word.reverse =
      ((List.range (word.length - 1)).map (link word lhs supply),
        ⟨supply.allocated + (word.length - 2)⟩) := by
  have all := @chain_wordAt word lhs supply 0 long
  rw [wordAt_zero, ← List.range_eq_range'] at all
  exact all

end ChainRule

end TracedGrammar
