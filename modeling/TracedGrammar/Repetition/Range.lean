/-!
# Ranges of counts

A range of counts has two ends, each of which may be unbounded, included or excluded.  Counts have
32 bits.  A range is stored by the least count and, if there is one, the greatest; a range that
holds no count is stored with its greatest count below its least.
-/

namespace TracedGrammar

def maxCount : Nat :=
  UInt32.size - 1

inductive CountBound
  | unbounded
  | included (count : Nat)
  | excluded (count : Nat)
deriving DecidableEq, Repr

structure CountRange where
  lower : CountBound
  upper : CountBound
deriving DecidableEq, Repr

namespace CountBound

/-- Whether a count is on the inner side of a lower end. -/
def AllowsFrom : CountBound → Nat → Prop
  | .unbounded, _ => True
  | .included least, count => least ≤ count
  | .excluded below, count => below < count

def AllowsUpTo : CountBound → Nat → Prop
  | .unbounded, _ => True
  | .included most, count => count ≤ most
  | .excluded above, count => count < above

end CountBound

namespace CountRange

instance : Membership Nat CountRange :=
  ⟨fun range count =>
    count ≤ maxCount ∧ range.lower.AllowsFrom count ∧ range.upper.AllowsUpTo count⟩

theorem mem_iff {count : Nat} {range : CountRange} :
    count ∈ range ↔
      count ≤ maxCount ∧ range.lower.AllowsFrom count ∧ range.upper.AllowsUpTo count :=
  Iff.rfl

def leastOf : CountBound → Option Nat
  | .unbounded => some 0
  | .included least => some least
  | .excluded below => if below < maxCount then some (below + 1) else none

/-- The least and the greatest count of a range.  No count follows the greatest one and none comes
before zero, so an end that excludes them leaves nothing in the range. -/
def extremes (range : CountRange) : Nat × Option Nat :=
  match leastOf range.lower with
  | none => (maxCount, some (maxCount - 1))
  | some least =>
      match range.upper with
      | .unbounded => (least, none)
      | .included most => (least, some most)
      | .excluded 0 => (max least 1, some 0)
      | .excluded (most + 1) => (least, some most)

end CountRange

end TracedGrammar
