import Mathlib.Data.List.Nodup
import TracedGrammar.Proofs.Chain.Pass

/-!
# Where the pieces of a rule are

After binarization the pieces of every rule stand together, in the place of the rule and the top piece
first.  So the rules afterwards are numbered by the rules before and the depths of pieces.
-/

namespace TracedGrammar

/-- A piece, with the index of its rule and its depth in the chain of the rule. -/
structure PlacedPiece (H : Type) where
  piece : Rule H
  origin : Nat
  depth : Nat

namespace PlacedPiece

variable {H : Type}

def top? (placed : PlacedPiece H) : Option Nat :=
  if placed.depth = 0 then some placed.origin else none

end PlacedPiece

variable {H : Type} [RuleHistory H]

/-- The number of pieces below the top. -/
def Rule.countBelow (rule : Rule H) : Nat :=
  if rule.admitsSplit then rule.rhs.length - 2 else 0

namespace Grammar

/-- For each rule of the binarized grammar, the index of the rule whose top piece it is. -/
def topOrigins (grammar : Grammar H) : List (Option Nat) :=
  grammar.rules.zipIdx.flatMap fun item => some item.2 :: List.replicate item.1.countBelow none

def topOrigin (grammar : Grammar H) (index : Nat) : Option Nat :=
  grammar.topOrigins.getD index none

end Grammar

namespace SplitRule

def placed (split : SplitRule H) (index : Nat) : List (PlacedPiece H) :=
  split.pieces.zipIdx.map fun item => ⟨item.1, index, item.2⟩

def placedPieces (chain : List (SplitRule H)) : List (PlacedPiece H) :=
  chain.zipIdx.flatMap fun item => item.1.placed item.2

theorem length_pieces (split : SplitRule H) : split.pieces.length = split.rule.countBelow + 1 := by
  cases admits : split.rule.admitsSplit with
  | false => simp [pieces_eq_singleton admits, Rule.countBelow, admits]
  | true =>
      have long := Rule.long_of_admitsSplit admits
      simp only [pieces_eq admits, Rule.countBelow, admits, List.length_map, List.length_range,
        if_true]
      omega

theorem map_piece_placed (split : SplitRule H) (index : Nat) :
    (split.placed index).map PlacedPiece.piece = split.pieces := by
  rw [placed, List.map_map]
  exact List.zipIdx_map_fst 0 split.pieces

theorem map_top?_placed (split : SplitRule H) (index : Nat) :
    (split.placed index).map PlacedPiece.top? =
      some index :: List.replicate split.rule.countBelow none := by
  obtain ⟨top, below, written, length⟩ : ∃ top below, split.pieces = top :: below ∧
      below.length = split.rule.countBelow := by
    have length := split.length_pieces
    cases pieces : split.pieces with
    | nil => simp [pieces] at length
    | cons top below => exact ⟨top, below, rfl, by simpa [pieces] using length⟩
  rw [placed, written, List.zipIdx_cons, List.map_cons, List.map_cons]
  refine congrArg (some index :: ·) (List.eq_replicate_iff.mpr ⟨by simpa using length, ?_⟩)
  intro label member
  simp only [List.map_map, List.mem_map, Function.comp_apply] at member
  obtain ⟨item, inBelow, rfl⟩ := member
  have deep := List.le_snd_of_mem_zipIdx inBelow
  exact if_neg (Nat.ne_of_gt deep)

theorem map_piece_placedPieces (chain : List (SplitRule H)) :
    (placedPieces chain).map PlacedPiece.piece = chain.flatMap pieces := by
  rw [placedPieces, List.map_flatMap]
  simp only [map_piece_placed]
  rw [← List.flatMap_map Prod.fst pieces, List.zipIdx_map_fst]

theorem map_top?_placedPieces {grammar : Grammar H} {chain : List (SplitRule H)}
    (rules : chain.map (·.rule) = grammar.rules) :
    (placedPieces chain).map PlacedPiece.top? = grammar.topOrigins := by
  rw [placedPieces, List.map_flatMap, Grammar.topOrigins, ← rules, List.zipIdx_map,
    List.flatMap_map]
  simp only [map_top?_placed, Prod.map_fst, Prod.map_snd, id_eq]

theorem mem_placedPieces {chain : List (SplitRule H)} {placed : PlacedPiece H} :
    placed ∈ placedPieces chain ↔
      ∃ split, chain[placed.origin]? = some split ∧ split.pieces[placed.depth]? = some placed.piece := by
  obtain ⟨piece, origin, depth⟩ := placed
  simp only [placedPieces, SplitRule.placed, List.mem_flatMap, List.mem_map, Prod.exists,
    List.mem_zipIdx_iff_getElem?, PlacedPiece.mk.injEq]
  constructor
  · rintro ⟨split, index, atOrigin, piece, depth, atDepth, rfl, rfl, rfl⟩
    exact ⟨split, atOrigin, atDepth⟩
  · rintro ⟨split, atOrigin, atDepth⟩
    exact ⟨split, origin, atOrigin, piece, depth, atDepth, rfl, rfl, rfl⟩

theorem placedPieces_nodup (chain : List (SplitRule H)) :
    ((placedPieces chain).map fun placed => (placed.origin, placed.depth)).Nodup := by
  rw [placedPieces, List.map_flatMap, List.nodup_flatMap]
  constructor
  · rintro ⟨split, index⟩ _
    have depths : (split.placed index).map (fun placed => (placed.origin, placed.depth)) =
        (split.pieces.zipIdx.map Prod.snd).map fun depth => (index, depth) := by
      rw [placed, List.map_map, List.map_map]
      rfl
    rw [depths, List.zipIdx_map_snd]
    exact List.Nodup.map (fun _ _ same => (Prod.mk.inj same).2) List.nodup_range'
  · have indices : (chain.zipIdx.map Prod.snd).Nodup := by
      rw [List.zipIdx_map_snd]
      exact List.nodup_range'
    refine (List.pairwise_map.mp indices).imp ?_
    rintro ⟨first, left⟩ ⟨second, right⟩ different label inFirst inSecond
    simp only [placed, List.map_map, List.mem_map, Function.comp_apply] at inFirst inSecond
    obtain ⟨_, _, rfl⟩ := inFirst
    obtain ⟨_, _, same⟩ := inSecond
    exact different (Prod.mk.inj same).1.symm

theorem index_eq_of_placed {chain : List (SplitRule H)} {left right : Nat}
    {first second : PlacedPiece H} (atLeft : (placedPieces chain)[left]? = some first)
    (atRight : (placedPieces chain)[right]? = some second) (origins : first.origin = second.origin)
    (depths : first.depth = second.depth) : left = right := by
  have bound : left <
      ((placedPieces chain).map fun placed => (placed.origin, placed.depth)).length := by
    rw [List.length_map]
    exact (List.getElem?_eq_some_iff.mp atLeft).1
  refine (List.getElem?_inj bound (placedPieces_nodup chain)).mp ?_
  rw [List.getElem?_map, List.getElem?_map, atLeft, atRight, Option.map_some, Option.map_some,
    origins, depths]

end SplitRule

end TracedGrammar
