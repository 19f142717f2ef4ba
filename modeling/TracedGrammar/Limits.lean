import TracedGrammar.GrammarError

/-!
# Limits of normalization

Passes can make a grammar much larger.  Limits refuse a result that is too large; they never change
one that is not.
-/

namespace TracedGrammar

/-- What a pass may produce. -/
structure Limits where
  /-- The largest number of rules in the output of a pass, if there is one. -/
  rules : Option Nat := some 1000000
  /-- The largest number of nullable symbols on one right-hand side.  A rule with `k` of them is
  expanded into up to `2 ^ k` variants. -/
  nullablePositions : Nat := 20
deriving DecidableEq, Repr

namespace Limits

/-- Accepts `count` rules unless they are more than the limit. -/
def checkRules (limits : Limits) (count : Nat) : Except GrammarError Unit :=
  match limits.rules with
  | none => .ok ()
  | some limit => if count ≤ limit then .ok () else .error (.tooLarge limit count)

theorem checkRules_eq_ok_iff {limits : Limits} {count : Nat} :
    limits.checkRules count = .ok () ↔ ∀ limit, limits.rules = some limit → count ≤ limit := by
  unfold checkRules
  split
  · simp_all
  · split <;> simp_all

end Limits

end TracedGrammar
