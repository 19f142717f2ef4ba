import TracedGrammar.Proofs.Run.Labels

/-!
# Where rules come from

No handle is given twice, and once a pass has taken the grammar out of its first stage none of the
handles from before is good any more.  A history that was made for an addition keeps its handle as the
origin of all rules that descend from it.  Rules that join tiers of precedence have no origin.
-/

namespace TracedGrammar

/-- The origin of what descends from an addition. -/
def Addition.origin (addition : Addition History) : Option Handle :=
  match addition.source with
  | .own => some addition.handle
  | .supplied history => history.origin
  | .link => none

namespace Ancestry

variable {H : Type} [RuleHistory H]

end Ancestry

namespace Grammar

end Grammar

end TracedGrammar
