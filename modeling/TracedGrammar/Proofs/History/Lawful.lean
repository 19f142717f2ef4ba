import TracedGrammar.History.Untracked
import TracedGrammar.Proofs.History.Tracked
import TracedGrammar.Proofs.Chain.Preservation
import TracedGrammar.Proofs.Precedence.Pass

/-!
# Histories that passes can rely on

A pass decides by the history of a rule whether there is something to do.  What it has recorded it
does not record again, and no later pass makes it change its mind.
-/

namespace TracedGrammar

/-- Histories remember what was done, in a way that passes do not disturb each other. -/
class LawfulRuleHistory (H : Type) [RuleHistory H] : Prop where
  isSome_elide : ∀ (history : H) (first second : Elision),
    (RuleHistory.elide history first).isSome = (RuleHistory.elide history second).isSome
  elide_elide : ∀ {history next : H} {first : Elision} (second : Elision),
    RuleHistory.elide history first = some next → RuleHistory.elide next second = none
  elide_split : ∀ {history next : H} {piece : ChainPiece} (elision : Elision),
    RuleHistory.split history piece = some next →
    (RuleHistory.elide next elision).isSome = (RuleHistory.elide history elision).isSome
  elide_setPrecedence : ∀ {history next : H} {precedence : Precedence} (elision : Elision),
    RuleHistory.setPrecedence history precedence = .ok next →
    (RuleHistory.elide next elision).isSome = (RuleHistory.elide history elision).isSome
  split_setPrecedence : ∀ {history next : H} {precedence : Precedence} (piece : ChainPiece),
    RuleHistory.setPrecedence history precedence = .ok next →
    (RuleHistory.split next piece).isSome = (RuleHistory.split history piece).isSome
  chainPiece_setPrecedence : ∀ {history next : H} {precedence : Precedence},
    RuleHistory.setPrecedence history precedence = .ok next →
    RuleHistory.chainPiece next = RuleHistory.chainPiece history
  precedence_setPrecedence : ∀ {history next : H} {precedence : Precedence},
    RuleHistory.setPrecedence history precedence = .ok next →
    (RuleHistory.precedence history).isSome = true → (RuleHistory.precedence next).isSome = true
  /-- A precedence that has been set can be set again. -/
  setPrecedence_again : ∀ {history next : H} {precedence : Precedence},
    RuleHistory.setPrecedence history precedence = .ok next →
    RuleHistory.setPrecedence next precedence = .ok next
  /-- It can also be set again after another one has been set. -/
  setPrecedence_later : ∀ {history next : H} {precedence other : Precedence},
    RuleHistory.setPrecedence history precedence = .ok history →
    RuleHistory.setPrecedence history other = .ok next →
    RuleHistory.setPrecedence next precedence = .ok next

namespace History

variable {history next : History} {precedence : Precedence}

theorem isSome_elide (history : History) (elision : Elision) :
    (RuleHistory.elide history elision).isSome = history.elision.isNone := by
  change (history.elide elision).isSome = _
  unfold elide
  split
  · rename_i absent
    rw [absent]
    rfl
  · rename_i recorded
    rw [recorded]
    rfl

/-- A precedence can be set where there is none, and where it is set already. -/
theorem setPrecedence_eq_ok_iff : RuleHistory.setPrecedence history precedence = .ok next ↔
    next = { history with precedence := some precedence } ∧
      ∀ existing, history.precedence = some existing → existing = precedence := by
  change history.setPrecedence precedence = .ok next ↔ _
  simp only [setPrecedence, bind_eq_ok_iff, assignOnce_eq_ok_iff]
  constructor
  · rintro ⟨_, ⟨rfl, free⟩, same⟩
    cases same
    exact ⟨rfl, free⟩
  · rintro ⟨rfl, free⟩
    exact ⟨precedence, ⟨rfl, free⟩, rfl⟩

instance : LawfulRuleHistory History where
  isSome_elide := by
    intro history first second
    rw [isSome_elide, isSome_elide]
  elide_elide := by
    intro history next first second elided
    change history.elide first = some next at elided
    unfold elide at elided
    split at elided
    · cases elided
      rfl
    · cases elided
  elide_split := by
    intro history next piece elision split
    cases split
    rw [isSome_elide, isSome_elide]
    rfl
  elide_setPrecedence := by
    intro history next precedence elision set
    obtain ⟨rfl, _⟩ := setPrecedence_eq_ok_iff.mp set
    rw [isSome_elide, isSome_elide]
  split_setPrecedence := fun _ _ => rfl
  chainPiece_setPrecedence := by
    intro history next precedence set
    obtain ⟨rfl, _⟩ := setPrecedence_eq_ok_iff.mp set
    rfl
  precedence_setPrecedence := by
    intro history next precedence set _
    obtain ⟨rfl, _⟩ := setPrecedence_eq_ok_iff.mp set
    rfl
  setPrecedence_again := by
    intro history next precedence set
    obtain ⟨rfl, _⟩ := setPrecedence_eq_ok_iff.mp set
    refine setPrecedence_eq_ok_iff.mpr ⟨rfl, fun existing found => ?_⟩
    exact (Option.some.inj found).symm
  setPrecedence_later := by
    intro history next precedence other first second
    obtain ⟨same, _⟩ := setPrecedence_eq_ok_iff.mp first
    obtain ⟨rfl, free⟩ := setPrecedence_eq_ok_iff.mp second
    have equal : precedence = other := free precedence (congrArg History.precedence same)
    refine setPrecedence_eq_ok_iff.mpr ⟨by rw [equal], fun existing found => ?_⟩
    rw [equal]
    exact (Option.some.inj found).symm

end History

namespace Untracked

instance : LawfulRuleHistory Untracked where
  isSome_elide := fun _ _ _ => rfl
  elide_elide := fun _ _ => rfl
  elide_split := by
    intro history next piece elision split
    cases split
  elide_setPrecedence := fun _ _ => rfl
  split_setPrecedence := fun _ _ => rfl
  chainPiece_setPrecedence := fun _ => rfl
  precedence_setPrecedence := fun _ => id
  setPrecedence_again := fun _ => rfl
  setPrecedence_later := fun _ _ => rfl

end Untracked

variable {H : Type} [RuleHistory H] [LawfulRuleHistory H]

namespace Rule

variable {rule : Rule H}

theorem admitsElision_variant (admits : rule.admitsElision = true) (rhs : List Symbol)
    (elision : Elision) : (rule.variant rhs elision).admitsElision = false := by
  rw [admitsElision, LawfulRuleHistory.isSome_elide _ _ elision, Option.isSome_iff_exists] at admits
  obtain ⟨history, elided⟩ := admits
  rw [admitsElision, variant, elided, Option.getD_some, LawfulRuleHistory.elide_elide _ elided]
  rfl

theorem admitsElision_piece (link : ChainRule) :
    (rule.piece link).admitsElision = rule.admitsElision := by
  unfold admitsElision piece
  cases split : RuleHistory.split rule.history link.piece with
  | none => exact LawfulRuleHistory.isSome_elide _ _ _
  | some history =>
      rw [LawfulRuleHistory.isSome_elide rule.history _ ⟨.empty, link.rhs.length, 1⟩]
      exact LawfulRuleHistory.elide_split _ split

end Rule

theorem Grammar.hidesPrecedence_admits :
    Grammar.HidesPrecedence fun rule : Rule H =>
      (rule.face, rule.admitsElision, rule.admitsSplit) := by
  intro rule history precedence set
  have piece := LawfulRuleHistory.chainPiece_setPrecedence set
  have elide := LawfulRuleHistory.elide_setPrecedence ⟨.empty, rule.rhs.length, 1⟩ set
  have split := LawfulRuleHistory.split_setPrecedence ⟨.right, 0, rule.rhs.length⟩ set
  simp only [Rule.face, Rule.admitsElision, Rule.admitsSplit, piece, elide, split]

end TracedGrammar
