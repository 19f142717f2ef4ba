import TracedGrammar.Proofs.Chain.Preservation

/-!
# What chains depend on

Chains are found by the faces of rules.  So rules that differ in the rest of their histories only have
the same chains.
-/

namespace TracedGrammar

variable {H : Type} [RuleHistory H]

namespace Rule

variable {first second : Rule H}

theorem continuesBelow_of_face (same : first.face = second.face) :
    first.continuesBelow = second.continuesBelow :=
  congrArg (fun face => face.2.2.any fun piece => piece.part == .right) same

theorem lhs_of_face (same : first.face = second.face) : first.lhs = second.lhs :=
  congrArg Prod.fst same

theorem rhs_of_face (same : first.face = second.face) : first.rhs = second.rhs :=
  congrArg (fun face => face.2.1) same

theorem contribution_of_face (same : first.face = second.face) :
    first.contribution = second.contribution := by
  rw [contribution, contribution, continuesBelow_of_face same, rhs_of_face same]

end Rule

namespace Chains

variable {first second : List (Rule H)} (faces : first.map Rule.face = second.map Rule.face)
include faces

theorem getElem?_of_faces (index : Nat) :
    first[index]? = none ∧ second[index]? = none ∨
      ∃ one other, first[index]? = some one ∧ second[index]? = some other ∧
        one.face = other.face := by
  have same := congrArg (fun found => found[index]?) faces
  simp only [List.getElem?_map] at same
  cases atFirst : first[index]? with
  | none =>
      rw [atFirst, Option.map_none] at same
      exact .inl ⟨rfl, Option.map_eq_none_iff.mp same.symm⟩
  | some one =>
      rw [atFirst, Option.map_some] at same
      obtain ⟨other, found, alike⟩ := Option.map_eq_some_iff.mp same.symm
      exact .inr ⟨one, other, rfl, found, alike.symm⟩

theorem below_eq_of_faces : (ofRules first).below = (ofRules second).below := by
  have entries (rules : List (Rule H)) : (ofRules rules).below =
      (rules.map Rule.face).zipIdx.foldl (fun below item =>
        if item.1.2.2.any fun piece => !piece.isTop then below.insert item.1.1 item.2 else below)
        ∅ := by
    rw [List.zipIdx_map, List.foldl_map]
    rfl
  rw [entries, entries, faces]

theorem isChainSymbol_eq_of_faces (symbol : Symbol) :
    (ofRules first).isChainSymbol symbol = (ofRules second).isChainSymbol symbol := by
  rw [isChainSymbol, isChainSymbol, below_eq_of_faces faces]

theorem next?_eq_of_faces (index : Nat) :
    (ofRules first).next? index = (ofRules second).next? index := by
  simp only [next?, below_eq_of_faces faces]
  simp only [ofRules, List.getElem?_toArray]
  rcases getElem?_of_faces faces index with ⟨none, gone⟩ | ⟨one, other, found, also, alike⟩
  · rw [none, gone]
  · rw [found, also]
    simp only [Rule.continuesBelow_of_face alike, Rule.rhs_of_face alike]

theorem pieces_eq_of_faces (top : Nat) :
    (ofRules first).pieces top = (ofRules second).pieces top := by
  have walks (bound index : Nat) :
      (ofRules first).walk bound index = (ofRules second).walk bound index := by
    induction bound generalizing index with
    | zero => rfl
    | succ bound induction => simp only [walk, next?_eq_of_faces faces, induction]
  have sizes : (ofRules first).rules.size = (ofRules second).rules.size := by
    simpa [ofRules] using congrArg List.length faces
  simp only [pieces, walks, sizes]

theorem fullRhs_eq_of_faces (top : Nat) :
    (ofRules first).fullRhs top = (ofRules second).fullRhs top := by
  rw [fullRhs, fullRhs, pieces_eq_of_faces faces]
  congr 1
  funext index
  simp only [ofRules, List.getElem?_toArray]
  rcases getElem?_of_faces faces index with ⟨none, gone⟩ | ⟨one, other, found, also, alike⟩
  · rw [none, gone]
  · rw [found, also, Option.map_some, Option.map_some, Rule.contribution_of_face alike]

end Chains

end TracedGrammar
