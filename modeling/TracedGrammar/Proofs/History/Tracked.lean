import TracedGrammar.Chain.Split
import TracedGrammar.History.Tracked
import TracedGrammar.Nulling.Variants

/-!
# What recording histories let passes do

A rule whose history records everything can be split when it is too long, and symbols can be left
out of it as long as none have been.
-/

namespace TracedGrammar

namespace Rule

variable {rule : Rule History}

theorem admitsSplit_of_long (long : 2 < rule.rhs.length) : rule.admitsSplit = true := by
  simp [admitsSplit, long, RuleHistory.split]

theorem admitsElision_iff : rule.admitsElision = true ↔ rule.history.elision = none := by
  unfold admitsElision
  change (rule.history.elide _).isSome = true ↔ _
  unfold History.elide
  split
  · rename_i none
    simp [none]
  · rename_i some
    simp [some]

theorem history_variant (admits : rule.admitsElision = true) (rhs : List Symbol) (elision : Elision) :
    (rule.variant rhs elision).history = { rule.history with elision := some elision } := by
  change (rule.history.elide elision).getD rule.history = _
  rw [History.elide, admitsElision_iff.mp admits]
  rfl

end Rule

end TracedGrammar
