import Mathlib
import TracedGrammar.Proofs.Lists
import TracedGrammar.Proofs.Run.Tracing

/-!
# What labels are attached to

An action or a precedence is attached to whatever stands where the rule or sequence of a handle was
added.  Sequences stay there until they are expanded, and so do rules as long as the grammar is not
sorted.  Sorting moves rules but not their handles, and from then on a label may go to another rule.
-/

namespace TracedGrammar

/-- What an author attaches by handle. -/
inductive Label
  | action (action : Action)
  | precedence (precedence : Precedence)

section Lists

variable {α : Type}

/-- An item occurs in a list at one index only. -/
def OccursOnlyAt (items : List α) (item : α) (index : Nat) : Prop :=
  ∀ other, items[other]? = some item ↔ other = index

/-- Where an item is marked, and no mark occurs twice, the item does not occur twice either. -/
theorem occursOnlyAt_of_nodup {β : Type} {mark : α → β} {test : β → Bool} {items : List α}
    (distinct : ((items.map mark).filter test).Nodup) {index : Nat} {item : α}
    (found : items[index]? = some item) (passes : test (mark item) = true) :
    OccursOnlyAt items item index := by
  intro other
  constructor
  · intro also
    have apart := List.pairwise_map.mp (List.pairwise_filter.mp distinct)
    exact index_eq_of_pairwise apart also found
      ⟨fun differ => differ passes passes rfl, fun differ => differ passes passes rfl⟩
  · rintro rfl
    exact found

end Lists

variable {H : Type}

/-- A grammar is like another but for the history of one rule or sequence, and that is the one that
was added as some addition. -/
inductive RelabelsAdded (grammar : Grammar H) (ancestry : Ancestry H) (addition : Addition H) :
    Grammar H → Prop
  | rule {index : Nat} {rule : Rule H} (history : H) (found : grammar.rules[index]? = some rule)
      (added : OccursOnlyAt ancestry.rules addition index) :
      RelabelsAdded grammar ancestry addition
        { grammar with rules := grammar.rules.set index { rule with history } }
  | sequence {index : Nat} {sequence : Sequence H} (history : H)
      (found : grammar.sequences[index]? = some sequence)
      (added : OccursOnlyAt ancestry.sequences addition index) :
      RelabelsAdded grammar ancestry addition
        { grammar with sequences := grammar.sequences.set index { sequence with history } }

namespace Ancestry.Fits

variable {holds : H → Addition H → Prop} {ancestry : Ancestry H} {grammar : Grammar H}
  (fits : ancestry.Fits holds grammar) {addition : Addition H} {index : Nat}
include fits

theorem nodup_authored : ((ancestry.rules.map Addition.handle).filter grammar.isAuthored).Nodup :=
  fits.authored.nodup_iff.mpr
    (List.Nodup.map (fun _ _ same => Handle.rule.inj same) List.nodup_range')

/-- A rule that no pass has worked on is in the grammar, once, wherever it was moved. -/
theorem exists_occursOnlyAt (member : addition ∈ ancestry.additions)
    (given : addition.handle = .rule index) (authored : grammar.authoredFrom ≤ index) :
    ∃ (place : Nat) (rule : Rule H), grammar.rules[place]? = some rule ∧
      OccursOnlyAt ancestry.rules addition place := by
  have issued := fits.issued addition member
  rw [given] at issued
  have isAuthored : grammar.isAuthored addition.handle = true := by
    rw [given]
    exact decide_eq_true authored
  have numbered : addition.handle ∈ (List.range' grammar.authoredFrom
      (grammar.rules.length - grammar.authoredFrom)).map Handle.rule := by
    rw [given]
    refine List.mem_map_of_mem (List.mem_range'_1.mpr ⟨authored, ?_⟩)
    rw [Nat.add_sub_cancel' fits.authoredFrom_le]
    exact issued
  obtain ⟨inHandles, -⟩ := List.mem_filter.mp (fits.authored.mem_iff.mpr numbered)
  obtain ⟨owner, inRules, same⟩ := List.mem_map.mp inHandles
  obtain rfl := fits.eq_of_handle (fits.rule_known owner inRules) member same
  obtain ⟨place, found⟩ := List.getElem?_of_mem inRules
  obtain ⟨bound, -⟩ := List.getElem?_eq_some_iff.mp found
  rw [← fits.rules.length_eq] at bound
  exact ⟨place, grammar.rules[place], List.getElem?_eq_getElem bound,
    occursOnlyAt_of_nodup fits.nodup_authored found isAuthored⟩

theorem occursOnlyAt_of_rule (found : ancestry.rules[index]? = some addition)
    (given : addition.handle = .rule index) (authored : grammar.authoredFrom ≤ index) :
    OccursOnlyAt ancestry.rules addition index := by
  refine occursOnlyAt_of_nodup fits.nodup_authored found ?_
  rw [given]
  exact decide_eq_true authored

/-- Sequences stay where they were added until they are expanded. -/
theorem occursOnlyAt_of_sequence (member : addition ∈ ancestry.additions)
    (given : addition.handle = .sequence index) (waiting : grammar.sequencesConsumed ≤ index) :
    OccursOnlyAt ancestry.sequences addition (grammar.sequencePosition index) := by
  have issued := fits.issued addition member
  rw [given] at issued
  have bound : grammar.sequencePosition index < grammar.sequences.length := by
    have : index < grammar.sequencesConsumed + grammar.sequences.length := issued
    rw [Grammar.sequencePosition]
    omega
  have inAncestry : grammar.sequencePosition index < ancestry.sequences.length :=
    fits.sequences.length_eq ▸ bound
  have handle : ancestry.sequences[grammar.sequencePosition index].handle = .sequence index := by
    have numbered : (ancestry.sequences.map Addition.handle)[grammar.sequencePosition index]? =
        some (.sequence index) := by
      rw [fits.waiting, List.getElem?_map, List.getElem?_range' bound, Option.map_some,
        Grammar.sequencePosition, Nat.one_mul, Nat.add_sub_cancel' waiting]
    rw [List.getElem?_map, List.getElem?_eq_getElem inAncestry, Option.map_some] at numbered
    exact Option.some.inj numbered
  have same := fits.eq_of_handle (fits.sequence_known _ (List.getElem_mem inAncestry)) member
    (handle.trans given.symm)
  have distinct : ((ancestry.sequences.map Addition.handle).filter fun _ => true).Nodup := by
    rw [List.filter_true, fits.waiting]
    exact List.Nodup.map (fun _ _ same => Handle.sequence.inj same) List.nodup_range'
  refine occursOnlyAt_of_nodup distinct ?_ rfl
  rw [← same]
  exact List.getElem?_eq_getElem inAncestry

end Ancestry.Fits

/-- The rules that no pass has worked on are where they were added. -/
def Ancestry.InPlace (ancestry : Ancestry H) (grammar : Grammar H) : Prop :=
  ∀ (index : Nat) (addition : Addition H), grammar.authoredFrom ≤ index →
    ancestry.rules[index]? = some addition → addition.handle = .rule index

theorem keptByAdding_inPlace (holds : H → Addition H → Prop) :
    KeptByAdding holds fun ancestry grammar =>
      ancestry.Fits holds grammar ∧ ancestry.InPlace grammar where
  supply := fun supply before => ⟨(Ancestry.Fits.keptByAdding holds).supply supply before.1, before.2⟩
  rule := by
    rintro ancestry grammar history source lhs rhs ⟨fits, inPlace⟩ new
    refine ⟨fits.addRule lhs rhs new, fun index addition authored found => ?_⟩
    rw [Ancestry.add_of_rule rfl] at found
    rcases Nat.lt_trichotomy index ancestry.rules.length with before | same | after
    · rw [List.getElem?_append_left before] at found
      exact inPlace index addition authored found
    · rw [same, List.getElem?_concat_length] at found
      cases found
      rw [same, ← fits.rules.length_eq]
      rfl
    · have beyond : (ancestry.rules ++ [(⟨grammar.nextRule, source⟩ : Addition H)]).length ≤ index := by
        rw [List.length_append]
        exact after
      rw [List.getElem?_eq_none beyond] at found
      cases found
  sequence := by
    rintro ancestry grammar history source lhs repetition ⟨fits, inPlace⟩ new
    refine ⟨fits.addSequence lhs repetition new, fun index addition authored found => ?_⟩
    rw [Ancestry.add_of_sequence rfl] at found
    exact inPlace index addition authored found

variable [RuleHistory H]

theorem Traces.inPlace {permits : Grammar H → Step H → Prop}
    (unsorted : ∀ grammar, ¬permits grammar (.command .sort)) {start last : Grammar H × Ancestry H}
    (traces : Traces permits start last)
    (before : start.2.Fits (fun _ _ => True) start.1 ∧ start.2.InPlace start.1) :
    last.2.Fits (fun _ _ => True) last.1 ∧ last.2.InPlace last.1 := by
  cases traces with
  | @command grammar next ancestry command permitted done =>
      refine (keptByAdding_inPlace _).command inheritable_true ancestry before ?sort ?label ?declare done
      case sort =>
        rintro rfl
        exact absurd permitted (unsorted grammar)
      case label =>
        intro handle change keeps changed
        refine ⟨before.1.changeHistory keeps changed, ?_⟩
        obtain ⟨-, changed⟩ := Grammar.changed_of_changeHistory changed
        cases changed <;> exact before.2
      case declare =>
        exact fun _ _ => ⟨before.1.of_forall₂ before.1.rules before.1.sequences rfl rfl, before.2⟩
  | pass _ descends =>
      have fits := descends.fits inheritable_true before.1
      refine ⟨fits, fun index addition authored found => ?_⟩
      by_cases early : last.1.stage = .authored
      · obtain ⟨-, ancestry, authoredFrom⟩ := descends.eq_of_authored early
        rw [authoredFrom] at authored
        rw [ancestry] at found
        exact before.2 index addition authored found
      · -- Every rule there is has been worked on.
        rw [descends.authoredFrom_eq early, fits.rules.length_eq] at authored
        rw [List.getElem?_eq_none authored] at found
        cases found

def Label.change : Label → H → Except GrammarError H
  | .action given, history => RuleHistory.setAction history given
  | .precedence given, history => RuleHistory.setPrecedence history given

namespace Grammar

def attach (grammar : Grammar H) (handle : Handle) : Label → Except GrammarError (Grammar H)
  | .action action => grammar.setAction handle action
  | .precedence precedence => grammar.setPrecedence handle precedence

theorem attach_eq_changeHistory (grammar : Grammar H) (handle : Handle) (label : Label) :
    grammar.attach handle label = grammar.changeHistory handle label.change := by
  cases label <;> rfl

variable {permits : Grammar H → Step H → Prop} {grammar next : Grammar H} {ancestry : Ancestry H}
  {addition : Addition H} {label : Label}

theorem relabelsAdded_iff (fits : ancestry.Fits (fun _ _ => True) grammar)
    (member : addition ∈ ancestry.additions) (done : grammar.attach addition.handle label = .ok next) :
    RelabelsAdded grammar ancestry addition next ↔
      next = grammar ∨
        ∀ index, addition.handle = .rule index → ancestry.rules[index]? = some addition := by
  rw [attach_eq_changeHistory] at done
  obtain ⟨-, changed⟩ := changed_of_changeHistory done
  generalize given : addition.handle = handle at changed
  cases changed with
  | @rule index rule history authored found changed =>
      constructor
      · intro relabels
        generalize reached : ({ grammar with
          rules := grammar.rules.set index { rule with history } } : Grammar H) = next at relabels
        cases relabels with
        | @rule place _ _ _ added =>
            by_cases here : place = index
            · refine .inr fun other same => ?_
              rw [← Handle.rule.inj same]
              exact (added index).mpr here.symm
            · have rules := set_eq_self_of_set_eq_set (congrArg (·.rules) reached) (Ne.symm here)
              rw [← reached, rules]
              exact .inl rfl
        | sequence =>
            have rules : grammar.rules.set index { rule with history } = grammar.rules :=
              congrArg (·.rules) reached
            rw [← reached, rules]
            exact .inl rfl
      · rintro (same | inPlace)
        · obtain ⟨place, old, here, added⟩ := fits.exists_occursOnlyAt member given authored
          have unchanged : RelabelsAdded grammar ancestry addition
              { grammar with rules := grammar.rules.set place { old with history := old.history } } :=
            .rule old.history here added
          rw [set_of_getElem? here] at unchanged
          rw [same]
          exact unchanged
        · exact .rule history found (fits.occursOnlyAt_of_rule (inPlace index rfl) given authored)
  | sequence waiting found changed =>
      refine iff_of_true (.sequence _ found (fits.occursOnlyAt_of_sequence member given waiting)) ?_
      exact .inr fun _ same => nomatch same

theorem Traced.inPlace (unsorted : ∀ grammar, ¬permits grammar (.command .sort))
    (traced : grammar.Traced permits ancestry) : ancestry.InPlace grammar := by
  obtain ⟨supply, run⟩ := traced
  generalize reached : (grammar, ancestry) = last at run
  suffices last.2.Fits (fun _ _ => True) last.1 ∧ last.2.InPlace last.1 by
    rw [← reached] at this
    exact this.2
  clear reached
  induction run with
  | refl => exact ⟨.start _ supply, fun index addition _ found => nomatch found⟩
  | tail _ traces induction => exact traces.inPlace unsorted induction

/-- As long as a grammar is never sorted, labels go where they belong. -/
theorem relabelsAdded_of_unsorted (unsorted : ∀ grammar, ¬permits grammar (.command .sort))
    (traced : grammar.Traced permits ancestry) (member : addition ∈ ancestry.additions)
    (done : grammar.attach addition.handle label = .ok next) :
    RelabelsAdded grammar ancestry addition next := by
  have fits := traced.fits inheritable_true
  refine (relabelsAdded_iff fits member done).mpr (.inr fun index given => ?_)
  rw [attach_eq_changeHistory, given] at done
  obtain ⟨-, changed⟩ := changed_of_changeHistory done
  cases changed with
  | rule authored found _ =>
      have bound := (List.getElem?_eq_some_iff.mp found).1
      rw [fits.rules.length_eq] at bound
      have here : ancestry.rules[index]? = some ancestry.rules[index] :=
        List.getElem?_eq_getElem bound
      have owner := traced.inPlace unsorted index _ authored here
      rw [here, fits.eq_of_handle (fits.rule_known _ (List.getElem_mem bound)) member
        (owner.trans given.symm)]

/-- A label that is attached by a handle changes the history of what was added, and nothing else, if
and only if a rule still stands where it was added, unless nothing changes at all. -/
theorem relabelsAdded_iff_of_traced (traced : grammar.Traced permits ancestry)
    (member : addition ∈ ancestry.additions) (done : grammar.attach addition.handle label = .ok next) :
    RelabelsAdded grammar ancestry addition next ↔
      next = grammar ∨
        ∀ index, addition.handle = .rule index → ancestry.rules[index]? = some addition :=
  relabelsAdded_iff (traced.fits inheritable_true) member done

/-- Three rules are written in the opposite of their order, and sorted. -/
def turnRound : List (Command History) :=
  [.rule ⟨0⟩ [⟨3⟩], .rule ⟨0⟩ [⟨2⟩], .rule ⟨0⟩ [⟨1⟩], .sort]

def turnedRound : Grammar History :=
  { supply := ⟨4⟩
    rules :=
      [⟨⟨0⟩, [⟨1⟩], { origin := some (.rule 2) }⟩,
        ⟨⟨0⟩, [⟨2⟩], { origin := some (.rule 1) }⟩,
        ⟨⟨0⟩, [⟨3⟩], { origin := some (.rule 0) }⟩] }

def turnedRoundAncestry : Ancestry History :=
  { additions := [⟨.rule 0, .own⟩, ⟨.rule 1, .own⟩, ⟨.rule 2, .own⟩]
    rules := [⟨.rule 2, .own⟩, ⟨.rule 1, .own⟩, ⟨.rule 0, .own⟩] }

theorem traced_turnedRound : turnedRound.Traced (fun _ _ => True) turnedRoundAncestry := by
  have followed : turnRound.foldlM Command.follow ({ supply := ⟨4⟩ }, {}) =
      .ok (turnedRound, turnedRoundAncestry) := by cbv
  exact traced_of_foldlM (fun _ _ _ => trivial) followed

/-- The rule in the middle is still where it was. -/
theorem turnedRound_relabelsAdded :
    turnedRound.Traced (fun _ _ => True) turnedRoundAncestry ∧
      ⟨.rule 1, .own⟩ ∈ turnedRoundAncestry.additions ∧
      ∃ next, turnedRound.attach (.rule 1) (.action ⟨1⟩) = .ok next ∧
        RelabelsAdded turnedRound turnedRoundAncestry ⟨.rule 1, .own⟩ next := by
  obtain ⟨next, done⟩ := exists_eq_ok
    (by cbv : (turnedRound.attach (.rule 1) (.action ⟨1⟩)).toBool = true)
  have member : (⟨.rule 1, .own⟩ : Addition History) ∈ turnedRoundAncestry.additions := by decide
  refine ⟨traced_turnedRound, member, next, done,
    (relabelsAdded_iff_of_traced traced_turnedRound member done).mpr (.inr fun index same => ?_)⟩
  cases same
  rfl

/-- The first rule has gone to the end, and its action goes to the one that was added last. -/
theorem turnedRound_not_relabelsAdded :
    ¬∀ (grammar next : Grammar History) (ancestry : Ancestry History) (addition : Addition History)
      (label : Label), grammar.Traced (fun _ _ => True) ancestry →
      addition ∈ ancestry.additions → grammar.attach addition.handle label = .ok next →
      RelabelsAdded grammar ancestry addition next := by
  intro always
  obtain ⟨next, done⟩ := exists_eq_ok
    (by cbv : (turnedRound.attach (.rule 0) (.action ⟨1⟩)).toBool = true)
  have member : (⟨.rule 0, .own⟩ : Addition History) ∈ turnedRoundAncestry.additions := by decide
  have relabels := always _ next _ _ (.action ⟨1⟩) traced_turnedRound member done
  rcases (relabelsAdded_iff (traced_turnedRound.fits inheritable_true) member done).mp relabels with
    unchanged | inPlace
  · have actions : (turnedRound.attach (.rule 0) (.action ⟨1⟩)).map
        (fun grammar => grammar.rules.map (·.history.action)) = .ok [some ⟨1⟩, none, none] := by cbv
    rw [done, unchanged] at actions
    exact absurd (Except.ok.inj actions) (by decide)
  · have here := inPlace 0 rfl
    cases here

end Grammar

end TracedGrammar
