import Mathlib
import TracedGrammar.Proofs.Precedence.Sharing
import TracedGrammar.Proofs.Run.Stages

/-!
# Resolved precedence

Once precedence has been resolved, the stage of a grammar says so until something is added.  What it
says holds for the symbols that were declared when precedence was resolved last.  A later declaration
leaves the stage as it is, and rules that define a symbol inside a chain are passed over in any case.
-/

namespace TracedGrammar

namespace Chains

variable {H : Type} [RuleHistory H]

theorem mem_pieces_self {chains : Chains H} {top : Nat} (inside : top < chains.rules.size) :
    top ∈ chains.pieces top := by
  rw [pieces, if_pos inside]
  cases bound : chains.rules.size with
  | zero => omega
  | succ bound => exact List.mem_cons_self

end Chains

namespace PrecedenceTable

/-- A word with a declared symbol has a rightmost one. -/
theorem exists_rightmost? {table : PrecedenceTable} {word : List Symbol} {symbol : Symbol}
    (occurs : symbol ∈ word) (declared : table.find? symbol ≠ none) :
    ∃ precedence, table.rightmost? word = some precedence := by
  rw [← Option.ne_none_iff_exists']
  intro none
  exact declared (List.findSome?_eq_none_iff.mp none symbol (List.mem_reverse.mpr occurs))

end PrecedenceTable

section Tables

variable {H : Type} [RuleHistory H]

/-- The declarations that precedence has been resolved from last, after a step to a grammar. -/
def Step.resolvedFrom (table : PrecedenceTable) (next : Grammar H) : Step H → PrecedenceTable
  | .pass .resolvePrecedence => next.declared
  | .pass (.normalize _) => next.declared
  | _ => table

/-- Performs a step, and keeps the declarations that precedence has been resolved from last. -/
def Step.resolve (state : Grammar H × PrecedenceTable) (step : Step H) :
    Except GrammarError (Grammar H × PrecedenceTable) := do
  let next ← step.perform state.1
  return (next, step.resolvedFrom state.2 next)

/-- A grammar comes from an empty one by permitted steps, and its precedence was last resolved from the
declarations in a table. -/
def Grammar.ResolvedFrom (permits : Grammar H → Step H → Prop) (grammar : Grammar H)
    (table : PrecedenceTable) : Prop :=
  ∃ supply : SymbolSupply, Relation.ReflTransGen
    (fun before after => ∃ step : Step H, permits before.1 step ∧ step.resolve before = .ok after)
    ({ supply }, .empty) (grammar, table)

theorem Grammar.ResolvedFrom.arises {permits : Grammar H → Step H → Prop} {grammar : Grammar H}
    {table : PrecedenceTable} (resolved : grammar.ResolvedFrom permits table) :
    grammar.Arises permits := by
  obtain ⟨supply, run⟩ := resolved
  refine ⟨supply, run.lift Prod.fst ?_⟩
  rintro before after ⟨step, permitted, done⟩
  obtain ⟨next, performed, same⟩ := bind_eq_ok_iff.mp done
  cases same
  exact ⟨step, permitted, performed⟩

theorem Grammar.resolvedFrom_of_foldlM {permits : Grammar H → Step H → Prop} {steps : List (Step H)}
    (permitted : ∀ step ∈ steps, ∀ grammar, permits grammar step) {supply : SymbolSupply}
    {grammar : Grammar H} {table : PrecedenceTable}
    (done : steps.foldlM Step.resolve ({ supply }, .empty) = .ok (grammar, table)) :
    grammar.ResolvedFrom permits table := by
  refine ⟨supply, ?_⟩
  generalize (({ supply }, .empty) : Grammar H × PrecedenceTable) = start at done ⊢
  induction steps generalizing start with
  | nil =>
      cases done
      exact .refl
  | cons step steps induction =>
      rw [List.foldlM_cons, bind_eq_ok_iff] at done
      obtain ⟨middle, first, rest⟩ := done
      rw [List.forall_mem_cons] at permitted
      exact .head ⟨step, permitted.1 start.1, first⟩ (induction permitted.2 middle rest)

end Tables

namespace Grammar

variable {grammar next : Grammar History} {splits : List (SplitRule History)}

/-- No history is given by hand, and no precedence is assigned to a single piece of a chain. -/
def SparesPieces (grammar : Grammar History) : Step History → Prop
  | .command (.precedence (.rule index) _) => grammar.pieceOf? index = none
  | .command command => command.histories = []
  | .pass _ => True

theorem SparesPieces.histories_eq_nil {command : Command History}
    (permitted : grammar.SparesPieces (.command command)) : command.histories = [] := by
  cases command with
  | precedence handle precedence => rfl
  | _ => exact permitted

theorem HasLinks.command (inventory : grammar.HasLinks splits) {command : Command History}
    (plain : command.histories = []) (done : command.perform grammar = .ok next) :
    next.HasLinks splits := by
  rcases growsTo_or_relabels History.holdsOfWritten_isAuthored (by simp [plain]) done with
    grows | ⟨relabels, _⟩
  · obtain ⟨added, rules, authored⟩ := grows.rules
    refine inventory.append rules grows.supply_le fun rule member => ?_
    exact Rule.link?_eq_none_of_isAuthored (authored rule member)
  · exact inventory.of_perm relabels.faces relabels.supply_eq

/-- What can be relied on as long as no history is given by hand: the stage, the records of passes, and
the chains of some split rules. -/
structure IsLinked (grammar : Grammar History) (splits : List (SplitRule History)) : Prop where
  meets : grammar.MeetsStage
  recorded : grammar.Recorded
  inventory : grammar.HasLinks splits

namespace IsLinked

theorem start (supply : SymbolSupply) : IsLinked { supply } [] where
  meets := .of_authored rfl
  recorded := ⟨by simp, by simp⟩
  inventory := ⟨.refl _, by simp, .nil, by simp⟩

variable (linked : grammar.IsLinked splits)
include linked

theorem command {command : Command History} (plain : command.histories = [])
    (done : command.perform grammar = .ok next) : next.IsLinked splits := by
  refine ⟨linked.meets.command done, ?_, linked.inventory.command plain done⟩
  rcases growsTo_or_relabels History.holdsOfWritten_isAuthored (by simp [plain]) done with
    grows | ⟨relabels, _⟩
  · exact linked.recorded.of_growsTo grows
  · exact linked.recorded.of_relabels relabels

theorem expand {limits : Limits} (done : (grammar.expandSequences limits).result = .ok next) :
    next.IsLinked splits := by
  obtain ⟨chain, expands⟩ := exists_expandsTo done
  exact ⟨linked.meets.expand done, linked.recorded.expand expands,
    linked.inventory.expand expands linked.recorded.waiting⟩

theorem eliminate {nullable : SymbolSet} {limits : Limits}
    (done : (grammar.eliminateNullingWith nullable limits).result = .ok next) :
    next.IsLinked splits := by
  obtain ⟨blocks, eliminates⟩ := exists_eliminatesTo done
  exact ⟨linked.meets.eliminate done, .eliminate eliminates,
    linked.inventory.eliminate eliminates linked.recorded.admitsElision_eq_false⟩

theorem binarize {limits : Limits} (done : (grammar.binarize limits).result = .ok next)
    {chain : List (SplitRule History)} (binarizes : grammar.BinarizesTo next chain) :
    next.IsLinked (splits ++ SplitRule.admitted chain) :=
  ⟨linked.meets.binarize done, .binarize binarizes (linked.meets.eliminated (stage_binarize done).1),
    linked.inventory.binarize binarizes⟩

theorem resolve (done : grammar.resolvePrecedence.result = .ok next) : next.IsLinked splits := by
  have relabels := Relabels.of_resolvePrecedence done
  exact ⟨keptByPasses_meetsStage.resolve linked.meets done, linked.recorded.of_relabels relabels,
    linked.inventory.of_perm relabels.faces relabels.supply_eq⟩

theorem finish (binarized : Stage.binarized ≤ grammar.stage) :
    IsLinked { grammar with stage := .normalized } splits :=
  ⟨keptByPasses_meetsStage.finish linked.meets binarized,
    ⟨linked.recorded.elided, linked.recorded.waiting⟩, linked.inventory.of_perm (.refl _) rfl⟩

end IsLinked

namespace SharesPrecedence

variable (shares : grammar.SharesPrecedence splits)
include shares

theorem setAction {handle : Handle} {action : Action}
    (done : grammar.setAction handle action = .ok next) : next.SharesPrecedence splits := by
  obtain ⟨-, changed⟩ := changed_of_changeHistory done
  cases changed with
  | sequence => exact shares
  | rule _ found changed =>
      refine shares.of_pieces fun rule member _ => ?_
      rcases List.mem_or_eq_of_mem_set member with old | rfl
      · exact ⟨rule, old, rfl, rfl⟩
      · obtain ⟨_, _, same⟩ := bind_eq_ok_iff.mp changed
        cases same
        exact ⟨_, List.mem_of_getElem? found, rfl, rfl⟩

theorem setPrecedence {handle : Handle} {precedence : Precedence}
    (permitted : grammar.SparesPieces (.command (.precedence handle precedence)))
    (done : grammar.setPrecedence handle precedence = .ok next) : next.SharesPrecedence splits := by
  obtain ⟨-, changed⟩ := changed_of_changeHistory done
  cases changed with
  | sequence => exact shares
  | @rule index rule history _ found changed =>
      refine shares.of_pieces fun other member recorded => ?_
      rcases List.mem_or_eq_of_mem_set member with old | rfl
      · exact ⟨other, old, rfl, rfl⟩
      · have whole : rule.history.chainPiece = none := by
          have spared : (grammar.rules[index]?.bind fun rule => rule.history.chainPiece) = none :=
            permitted
          rwa [found] at spared
        have piece := (History.records_of_setPrecedence changed).1
        exact absurd (Option.map_eq_none_iff.mpr (piece.trans whole)) recorded

theorem command {command : Command History} (permitted : grammar.SparesPieces (.command command))
    (done : command.perform grammar = .ok next) : next.SharesPrecedence splits := by
  rcases cases_of_perform History.holdsOfWritten_isAuthored
    (by simp [permitted.histories_eq_nil]) done with
    grows | ⟨_, rfl⟩ | ⟨_, _, done⟩ | ⟨_, _, rfl, done⟩ | ⟨_, rfl⟩
  · obtain ⟨added, rules, authored⟩ := grows.rules
    refine shares.append rules fun rule member => ?_
    exact Rule.link?_eq_none_of_isAuthored (authored rule member)
  · exact shares.of_pieces fun rule member _ => ⟨rule, List.mem_mergeSort.mp member, rfl, rfl⟩
  · exact shares.setAction done
  · exact shares.setPrecedence permitted done
  · exact shares

end SharesPrecedence

/-- What can be relied on whatever symbols an author uses: the stage, the records of passes, and chains
that share their precedence. -/
structure IsCoherent (grammar : Grammar History) : Prop where
  meets : grammar.MeetsStage
  recorded : grammar.Recorded
  chains : ∃ splits, grammar.HasLinks splits ∧ grammar.SharesPrecedence splits

namespace IsCoherent

theorem of_isLinked (linked : grammar.IsLinked splits) (shares : grammar.SharesPrecedence splits) :
    grammar.IsCoherent :=
  ⟨linked.meets, linked.recorded, splits, linked.inventory, shares⟩

theorem start (supply : SymbolSupply) : IsCoherent { supply } :=
  of_isLinked (.start supply) fun _ member => nomatch member

variable (coherent : grammar.IsCoherent)
include coherent

theorem exists_isLinked : ∃ splits, grammar.IsLinked splits ∧ grammar.SharesPrecedence splits := by
  obtain ⟨splits, inventory, shares⟩ := coherent.chains
  exact ⟨splits, ⟨coherent.meets, coherent.recorded, inventory⟩, shares⟩

theorem command {command : Command History} (permitted : grammar.SparesPieces (.command command))
    (done : command.perform grammar = .ok next) : next.IsCoherent := by
  obtain ⟨splits, linked, shares⟩ := coherent.exists_isLinked
  exact of_isLinked (linked.command permitted.histories_eq_nil done) (shares.command permitted done)

end IsCoherent

theorem keptByPasses_isCoherent : KeptByPasses IsCoherent where
  expand := by
    intro grammar next limits coherent done
    obtain ⟨splits, linked, shares⟩ := coherent.exists_isLinked
    obtain ⟨chain, expands⟩ := exists_expandsTo done
    exact .of_isLinked (linked.expand done)
      (shares.append expands.rules_eq fun _ => expands.link?_added linked.recorded.waiting)
  eliminate := by
    intro grammar next nullable limits coherent done
    obtain ⟨splits, linked, shares⟩ := coherent.exists_isLinked
    obtain ⟨blocks, eliminates⟩ := exists_eliminatesTo done
    exact .of_isLinked (linked.eliminate done)
      (shares.eliminate eliminates linked.recorded.admitsElision_eq_false)
  binarize := by
    intro grammar next limits coherent done
    obtain ⟨splits, linked, shares⟩ := coherent.exists_isLinked
    obtain ⟨chain, binarizes⟩ := exists_binarizesTo done
    exact .of_isLinked (linked.binarize done binarizes) (shares.binarize linked.inventory binarizes)
  resolve := by
    intro grammar next coherent done
    obtain ⟨splits, linked, shares⟩ := coherent.exists_isLinked
    exact .of_isLinked (linked.resolve done) (shares.resolve linked.inventory done)
  finish := by
    intro grammar coherent binarized
    obtain ⟨splits, linked, shares⟩ := coherent.exists_isLinked
    exact .of_isLinked (linked.finish binarized) shares

/-- Every rule that does not define a symbol inside a chain has a precedence if a table declares one of
the symbols on its full right-hand side. -/
def IsResolvedFrom (grammar : Grammar History) (table : PrecedenceTable) : Prop :=
  ∀ (top : Nat) (rule : Rule History), grammar.rules[top]? = some rule →
    grammar.chains.isChainSymbol rule.lhs = false →
    ∀ symbol ∈ grammar.chains.fullRhs top, table.find? symbol ≠ none → rule.hasPrecedence = true

namespace IsResolvedFrom

variable {table : PrecedenceTable}

theorem of_resolvePrecedence (done : grammar.resolvePrecedence.result = .ok next) :
    next.IsResolvedFrom next.declared := by
  intro top rule found outside symbol occurs declared
  cases has : rule.hasPrecedence with
  | true => rfl
  | false =>
      obtain ⟨precedence, declares⟩ := PrecedenceTable.exists_rightmost? occurs declared
      have inherits : next.Inherits next.chains rule top precedence :=
        ⟨outside, Option.isNone_iff_eq_none.mp (Option.isSome_eq_false_iff.mp has), declares⟩
      have inside := (Array.getElem?_eq_some_iff.mp (rules_chains found)).1
      have settled := isResolved_of_resolvePrecedence done top rule found precedence inherits top
        (Chains.mem_pieces_self inside) rule (by rwa [List.getElem?_toArray])
      rw [← has, Rule.hasPrecedence_of_isSettled settled]

variable (resolved : grammar.IsResolvedFrom table)
include resolved

theorem of_rules_eq (rules : next.rules = grammar.rules) : next.IsResolvedFrom table := by
  have chains : next.chains = grammar.chains := congrArg Chains.ofRules rules
  unfold IsResolvedFrom
  rw [rules, chains]
  exact resolved

/-- A rule has the same full right-hand side wherever it is moved. -/
theorem sort (inventory : grammar.HasLinks splits) : grammar.sort.IsResolvedFrom table := by
  have sorted : grammar.sort.HasLinks splits :=
    inventory.of_perm (Relabels.sort grammar).faces rfl
  intro place rule found outside symbol occurs declared
  have member := List.mem_mergeSort.mp (List.mem_of_getElem? found)
  obtain ⟨top, atTop⟩ := List.getElem?_of_mem member
  have before : grammar.chains.isChainSymbol rule.lhs = false := by
    rw [← Bool.not_eq_true, chains, Chains.isChainSymbol_ofRules_iff] at outside ⊢
    rintro ⟨other, inRules, deep, same⟩
    exact outside ⟨other, List.mem_mergeSort.mpr inRules, deep, same⟩
  refine resolved top rule atTop before symbol ?_ declared
  have shallow := isBelowTop_eq_false_of_outside member before
  rwa [inventory.fullRhs_eq_fullRhs sorted atTop found shallow]

omit resolved in
theorem command (coherent : grammar.IsCoherent)
    (before : .precedenceResolved ≤ grammar.stage → grammar.IsResolvedFrom table)
    {command : Command History} (plain : command.histories = [])
    (done : command.perform grammar = .ok next) (late : .precedenceResolved ≤ next.stage) :
    next.IsResolvedFrom table := by
  have labeled {handle : Handle} {change : History → Except GrammarError History}
      (done : grammar.changeHistory handle change = .ok next) : next.IsResolvedFrom table := by
    rw [stage_changeHistory done, (changed_of_changeHistory done).1] at late
    cases late
  rcases cases_of_perform History.holdsOfWritten_isAuthored (by simp [plain]) done with
    grows | ⟨_, rfl⟩ | ⟨_, _, done⟩ | ⟨_, _, _, done⟩ | ⟨_, rfl⟩
  · rcases grows.stage with authored | ⟨rules, _, stage⟩
    · rw [authored] at late
      cases late
    · exact (before (stage ▸ late)).of_rules_eq rules
  · obtain ⟨splits, inventory, _⟩ := coherent.chains
    exact (before late).sort inventory
  · exact labeled done
  · exact labeled done
  · exact (before late).of_rules_eq rfl

section Passes

omit resolved

variable (coherent : grammar.IsCoherent)
  (before : .precedenceResolved ≤ grammar.stage → grammar.IsResolvedFrom table)
include coherent before

theorem expand {limits : Limits} (done : (grammar.expandSequences limits).result = .ok next)
    (late : .precedenceResolved ≤ next.stage) : next.IsResolvedFrom table := by
  rw [stage_expandSequences done] at late
  have earlier : .precedenceResolved ≤ grammar.stage := Stage.le_of_le_max late (by decide)
  obtain ⟨chain, expands⟩ := exists_expandsTo done
  have plain := coherent.meets.expanded (Nat.le_trans (by decide) earlier)
  exact (before earlier).of_rules_eq (expands.eq_of_no_sequences plain).1

theorem eliminate {nullable : SymbolSet} {limits : Limits}
    (done : (grammar.eliminateNullingWith nullable limits).result = .ok next)
    (late : .precedenceResolved ≤ next.stage) : next.IsResolvedFrom table := by
  rw [(stage_eliminateNullingWith done).2] at late
  have earlier : .precedenceResolved ≤ grammar.stage := Stage.le_of_le_max late (by decide)
  obtain ⟨blocks, eliminates⟩ := exists_eliminatesTo done
  refine (before earlier).of_rules_eq (eliminates.rules_eq_of_refuses fun rule member => ?_)
  rw [← Bool.not_eq_true, Rule.admitsElision_iff]
  exact coherent.meets.eliminated (Nat.le_trans (by decide) earlier) rule member

theorem binarize {limits : Limits} (done : (grammar.binarize limits).result = .ok next)
    (late : .precedenceResolved ≤ next.stage) : next.IsResolvedFrom table := by
  rw [(stage_binarize done).2] at late
  have earlier : .precedenceResolved ≤ grammar.stage := Stage.le_of_le_max late (by decide)
  obtain ⟨chain, binarizes⟩ := exists_binarizesTo done
  refine (before earlier).of_rules_eq (binarizes.rules_eq_of_refuses fun rule member => ?_)
  have short := coherent.meets.binarized (Nat.le_trans (by decide) earlier) rule member
  rw [← Bool.not_eq_true]
  intro admits
  have long := Rule.long_of_admitsSplit admits
  omega

theorem pass {pass : Pass} (done : (pass.run grammar).result = .ok next)
    (late : .precedenceResolved ≤ next.stage) :
    next.IsResolvedFrom ((Step.pass pass).resolvedFrom table next) := by
  cases pass with
  | expandSequences limits => exact expand coherent before done late
  | eliminateNulling limits => exact eliminate coherent before done late
  | eliminateNullingWith nullable limits => exact eliminate coherent before done late
  | binarize limits => exact binarize coherent before done late
  | resolvePrecedence => exact of_resolvePrecedence done
  | normalize limits =>
      obtain ⟨_, _, _, resolved, _, _, _, resolution, rfl⟩ := exists_passes_of_normalize done
      have last : resolved.IsResolvedFrom resolved.declared := of_resolvePrecedence resolution
      exact last.of_rules_eq rfl

end Passes

end IsResolvedFrom

/-- What becomes of chains and of their precedence in a run. -/
theorem ResolvedFrom.isCoherent_isResolvedFrom {table : PrecedenceTable}
    (resolved : grammar.ResolvedFrom SparesPieces table) :
    grammar.IsCoherent ∧ (.precedenceResolved ≤ grammar.stage → grammar.IsResolvedFrom table) := by
  obtain ⟨supply, run⟩ := resolved
  generalize reached : (grammar, table) = last at run
  suffices last.1.IsCoherent ∧
      (.precedenceResolved ≤ last.1.stage → last.1.IsResolvedFrom last.2) by rwa [← reached] at this
  clear reached
  induction run with
  | refl => exact ⟨.start supply, fun late => nomatch late⟩
  | tail _ advances induction =>
      obtain ⟨coherent, before⟩ := induction
      obtain ⟨step, permitted, done⟩ := advances
      obtain ⟨next, performed, same⟩ := bind_eq_ok_iff.mp done
      cases same
      cases step with
      | command command =>
          exact ⟨coherent.command permitted performed,
            .command coherent before permitted.histories_eq_nil performed⟩
      | pass pass =>
          exact ⟨keptByPasses_isCoherent.pass coherent performed, .pass coherent before performed⟩

/-- If a rule starts a chain or is not split, and one of the symbols on its full right-hand side is
declared, then it has a precedence, and so has every piece of its chain. -/
def RanksChain (grammar : Grammar History) (top : Nat) : Prop :=
  ∀ rule, grammar.rules[top]? = some rule → rule.isBelowTop = false →
    (∃ symbol ∈ grammar.chains.fullRhs top, grammar.declared.find? symbol ≠ none) →
    rule.hasPrecedence = true ∧ ∀ index ∈ grammar.chains.pieces top,
      ∃ piece, grammar.rules[index]? = some piece ∧ piece.hasPrecedence = true

/-- A rule is left without a precedence although one of its symbols is declared: it defines a symbol
inside a chain, or none of its symbols was declared when precedence was last resolved. -/
structure Overlooks (grammar : Grammar History) (table : PrecedenceTable) (top : Nat)
    (rule : Rule History) : Prop where
  found : grammar.rules[top]? = some rule
  shallow : rule.isBelowTop = false
  missing : rule.hasPrecedence = false
  declared : ∃ symbol ∈ grammar.chains.fullRhs top, grammar.declared.find? symbol ≠ none
  reason : grammar.chains.isChainSymbol rule.lhs = true ∨
    ∀ symbol ∈ grammar.chains.fullRhs top, table.find? symbol = none

theorem ranksChain_iff {table : PrecedenceTable} (coherent : grammar.IsCoherent)
    (resolved : grammar.IsResolvedFrom table) (top : Nat) :
    grammar.RanksChain top ↔ ∀ rule, ¬grammar.Overlooks table top rule := by
  constructor
  · intro ranks rule overlooks
    have has := (ranks rule overlooks.found overlooks.shallow overlooks.declared).1
    rw [overlooks.missing] at has
    cases has
  · intro heeds rule found shallow declared
    have has : rule.hasPrecedence = true := by
      cases has : rule.hasPrecedence with
      | true => rfl
      | false =>
          refine absurd ⟨found, shallow, has, declared, ?_⟩ (heeds rule)
          by_contra reasons
          rw [not_or, Bool.not_eq_true] at reasons
          obtain ⟨outside, early⟩ := reasons
          obtain ⟨symbol, occurs, known⟩ := not_forall₂.mp early
          rw [resolved top rule found outside symbol occurs known] at has
          cases has
    obtain ⟨splits, inventory, shares⟩ := coherent.chains
    exact ⟨has, shares.hasPrecedence_pieces inventory found shallow has⟩

/-- From the stage on at which precedence is resolved, exactly those chains lack a precedence that they
could have whose rule was overlooked. -/
theorem ranksChain_iff_of_resolvedFrom {table : PrecedenceTable}
    (resolved : grammar.ResolvedFrom SparesPieces table)
    (late : .precedenceResolved ≤ grammar.stage) (top : Nat) :
    grammar.RanksChain top ↔ ∀ rule, ¬grammar.Overlooks table top rule := by
  obtain ⟨coherent, isResolved⟩ := resolved.isCoherent_isResolvedFrom
  exact ranksChain_iff coherent (isResolved late) top

/-- Sums are normalized with a precedence for their operator.  Only then a symbol on another rule is
declared. -/
def declareLater : List (Step History) :=
  [.command (.declare ⟨1⟩ ⟨1, .left⟩),
    .command (.rule ⟨0⟩ [⟨0⟩, ⟨1⟩, ⟨0⟩]),
    .command (.rule ⟨3⟩ [⟨2⟩]),
    .pass (.normalize {}),
    .command (.declare ⟨2⟩ ⟨0, .left⟩)]

def declaredFirst : PrecedenceTable :=
  PrecedenceTable.empty.insert ⟨1⟩ ⟨1, .left⟩

def declaredLater : Grammar History :=
  { supply := ⟨5⟩
    rules :=
      [⟨⟨0⟩, [⟨4⟩, ⟨0⟩],
          { origin := some (.rule 0)
            precedence := some ⟨1, .left⟩
            chainPiece := some ⟨.right, 0, 3⟩
            elision := some ⟨.empty, 3, 1⟩ }⟩,
        ⟨⟨4⟩, [⟨0⟩, ⟨1⟩],
          { origin := some (.rule 0)
            precedence := some ⟨1, .left⟩
            chainPiece := some ⟨.left, 1, 3⟩
            elision := some ⟨.empty, 3, 1⟩
            actionSite := false }⟩,
        ⟨⟨3⟩, [⟨2⟩], { origin := some (.rule 1), elision := some ⟨.empty, 1, 1⟩ }⟩]
    declared := declaredFirst.insert ⟨2⟩ ⟨0, .left⟩
    stage := .normalized
    authoredFrom := 3 }

theorem resolvedFrom_declaredLater : declaredLater.ResolvedFrom SparesPieces declaredFirst := by
  have done : declareLater.foldlM Step.resolve ({ supply := ⟨4⟩ }, .empty) =
      .ok (declaredLater, declaredFirst) := by cbv
  refine resolvedFrom_of_foldlM (fun step member grammar => ?_) done
  simp only [declareLater, List.mem_cons, List.not_mem_nil, or_false] at member
  rcases member with rfl | rfl | rfl | rfl | rfl <;> trivial

/-- The chain of the sum has its precedence. -/
theorem declaredLater_ranksChain :
    declaredLater.ResolvedFrom SparesPieces declaredFirst ∧
      .precedenceResolved ≤ declaredLater.stage ∧ declaredLater.RanksChain 0 := by
  have late : .precedenceResolved ≤ declaredLater.stage := by decide
  refine ⟨resolvedFrom_declaredLater, late,
    (ranksChain_iff_of_resolvedFrom resolvedFrom_declaredLater late 0).mpr fun rule overlooks => ?_⟩
  cases overlooks.found
  cases overlooks.missing

/-- The grammar counts as normalized, and its last rule has no precedence though its symbol has. -/
theorem declaredLater_not_ranksChain :
    ¬∀ grammar : Grammar History, grammar.Arises SparesPieces →
      .precedenceResolved ≤ grammar.stage → ∀ top, grammar.RanksChain top := by
  intro always
  have fullRhs : declaredLater.chains.fullRhs 2 = [⟨2⟩] := by cbv
  have ranks := always declaredLater resolvedFrom_declaredLater.arises (by decide) 2 _ rfl rfl
    ⟨⟨2⟩, by rw [fullRhs]; exact List.mem_singleton_self _, by decide⟩
  cases ranks.1

end Grammar

end TracedGrammar
