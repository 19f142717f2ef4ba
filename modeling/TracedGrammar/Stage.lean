/-!
# Stages of normalization

A grammar passes through a fixed order of stages on its way to normal form.  Some operations are
allowed only from some stage on, or only at the first.
-/

namespace TracedGrammar

/-- How far a grammar has been normalized. -/
inductive Stage
  | authored
  | sequenceExpanded
  | nullingEliminated
  | binarized
  | precedenceResolved
  | normalized
deriving DecidableEq, Repr

namespace Stage

def rank : Stage → Nat
  | .authored => 0
  | .sequenceExpanded => 1
  | .nullingEliminated => 2
  | .binarized => 3
  | .precedenceResolved => 4
  | .normalized => 5

theorem rank_injective {first second : Stage} (equal : first.rank = second.rank) :
    first = second := by
  cases first <;> cases second <;> simp [rank] at equal ⊢

instance : Ord Stage :=
  ⟨fun first second => compare first.rank second.rank⟩

instance : LE Stage :=
  ⟨fun first second => first.rank ≤ second.rank⟩

theorem le_iff {first second : Stage} : first ≤ second ↔ first.rank ≤ second.rank :=
  Iff.rfl

instance (first second : Stage) : Decidable (first ≤ second) :=
  inferInstanceAs (Decidable (first.rank ≤ second.rank))

instance : Max Stage :=
  ⟨fun first second => if first ≤ second then second else first⟩

@[simp]
theorem rank_max (first second : Stage) : (max first second).rank = max first.rank second.rank := by
  cases first <;> cases second <;> decide

theorem le_max_left (first second : Stage) : first ≤ max first second := by
  rw [le_iff, rank_max]
  exact Nat.le_max_left _ _

theorem le_max_right (first second : Stage) : second ≤ max first second := by
  rw [le_iff, rank_max]
  exact Nat.le_max_right _ _

/-- Who is late after a pass that does not lead that far was late before it. -/
theorem le_of_le_max {stage first second : Stage} (late : stage ≤ max first second)
    (beyond : ¬stage ≤ second) : stage ≤ first := by
  rw [le_iff, rank_max] at late
  rw [le_iff] at beyond ⊢
  omega

def all : List Stage :=
  [.authored, .sequenceExpanded, .nullingEliminated, .binarized, .precedenceResolved, .normalized]

def describe : Stage → String
  | .authored => "Authored"
  | .sequenceExpanded => "SequenceExpanded"
  | .nullingEliminated => "NullingEliminated"
  | .binarized => "Binarized"
  | .precedenceResolved => "PrecedenceResolved"
  | .normalized => "Normalized"

end Stage

/-- An operation that is refused at some stages. -/
inductive Operation
  | authoring
  | nullingElimination
  | binarization
deriving DecidableEq, Repr

namespace Operation

def describe : Operation → String
  | .authoring => "Authoring"
  | .nullingElimination => "NullingElimination"
  | .binarization => "Binarization"

end Operation

end TracedGrammar
