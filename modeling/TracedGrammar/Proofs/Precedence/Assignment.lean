import TracedGrammar.Proofs.Precedence.Sharing

/-!
# Resolution as a map

When the pieces of every chain still have the histories that they were split with, apart from one
precedence for all of them, precedence is resolved without a conflict.  Every rule on its own takes what
is declared for the right-hand side it was split from, unless it has a precedence already.
-/

namespace TracedGrammar

namespace Rule

variable {rule : Rule History} {table : PrecedenceTable} {word : List Symbol}

def withPrecedence (rule : Rule History) (precedence : Option Precedence) : Rule History :=
  { rule with history := { rule.history with precedence } }

/-- A rule with its precedence, or else with the one of the rightmost declared symbol of a word. -/
def ranked (table : PrecedenceTable) (word : List Symbol) (rule : Rule History) : Rule History :=
  rule.withPrecedence (rule.history.precedence.or (table.rightmost? word))

@[simp]
theorem face_ranked : (rule.ranked table word).face = rule.face :=
  rfl

theorem ranked_of_missing (missing : rule.history.precedence = none) :
    rule.ranked table word = rule.withPrecedence (table.rightmost? word) := by
  rw [ranked, missing, Option.none_or]

theorem ranked_eq_self (settled : rule.history.precedence = none → table.rightmost? word = none) :
    rule.ranked table word = rule := by
  have same : rule.history.precedence.or (table.rightmost? word) = rule.history.precedence := by
    cases precedence : rule.history.precedence with
    | none => rw [settled precedence]; rfl
    | some _ => rfl
  rw [ranked, same]
  rfl

end Rule

namespace Grammar

variable {grammar : Grammar History}

section Between

variable {goal : Rule History → Rule History} {rules next : Array (Rule History)}
  {precedence : Precedence}

/-- Every rule is as it was or as it is meant to become. -/
def Between (grammar : Grammar History) (goal : Rule History → Rule History)
    (rules : Array (Rule History)) : Prop :=
  ∀ index : Nat, rules[index]? = grammar.rules[index]? ∨ rules[index]? = grammar.rules[index]?.map goal

/-- The rule at an index has no precedence and is meant to get one. -/
def Awaits (grammar : Grammar History) (goal : Rule History → Rule History) (precedence : Precedence)
    (index : Nat) : Prop :=
  ∀ rule, grammar.rules[index]? = some rule →
    rule.history.precedence = none ∧ goal rule = rule.withPrecedence (some precedence)

theorem Between.assignAt (between : grammar.Between goal rules) {index : Nat}
    (awaits : grammar.Awaits goal precedence index) :
    ∃ next, Grammar.assignAt precedence rules index = .ok next ∧ grammar.Between goal next := by
  unfold Grammar.assignAt
  cases found : rules[index]? with
  | none => exact ⟨rules, rfl, between⟩
  | some rule =>
      obtain ⟨old, before, free, same⟩ : ∃ old, grammar.rules[index]? = some old ∧
          (∀ existing, rule.history.precedence = some existing → existing = precedence) ∧
          rule.withPrecedence (some precedence) = goal old := by
        rcases between index with kept | reached
        · rw [found] at kept
          obtain ⟨missing, becomes⟩ := awaits rule kept.symm
          exact ⟨rule, kept.symm, by simp [missing], becomes.symm⟩
        · rw [found, eq_comm, Option.map_eq_some_iff] at reached
          obtain ⟨old, before, rfl⟩ := reached
          obtain ⟨_, becomes⟩ := awaits old before
          rw [becomes]
          exact ⟨old, before, fun _ set => (Option.some.inj set).symm, becomes.symm⟩
      have set := History.setPrecedence_eq_ok_iff.mpr ⟨rfl, free⟩
      refine ⟨rules.setIfInBounds index (rule.withPrecedence (some precedence)), ?_, fun other => ?_⟩
      · simp only [set]
        rfl
      · by_cases here : index = other
        · subst here
          refine .inr ?_
          rw [Array.getElem?_setIfInBounds_self_of_lt (Array.getElem?_eq_some_iff.mp found).1, before,
            same]
          rfl
        · rw [Array.getElem?_setIfInBounds_ne here]
          exact between other

theorem Between.foldlM_assignAt (between : grammar.Between goal rules) {indices : List Nat}
    (await : ∀ index ∈ indices, grammar.Awaits goal precedence index) :
    ∃ next, indices.foldlM (Grammar.assignAt precedence) rules = .ok next ∧
      grammar.Between goal next := by
  induction indices generalizing rules with
  | nil => exact ⟨rules, rfl, between⟩
  | cons index indices induction =>
      rw [List.forall_mem_cons] at await
      obtain ⟨middle, first, now⟩ := between.assignAt await.1
      obtain ⟨next, rest, later⟩ := induction now await.2
      exact ⟨next, by rw [List.foldlM_cons, first]; exact rest, later⟩

theorem Between.resolveRule {resolution : Resolution History} {rule : Rule History} {top : Nat}
    (between : grammar.Between goal resolution.rules)
    (await : ∀ precedence, grammar.Inherits grammar.chains rule top precedence →
      ∀ index ∈ grammar.chains.pieces top, grammar.Awaits goal precedence index) :
    ∃ next, (grammar.resolveRule grammar.chains resolution (rule, top)).result = .ok next ∧
      grammar.Between goal next.rules := by
  simp only [Grammar.resolveRule]
  split
  · exact ⟨resolution, rfl, between⟩
  · rename_i considered
    simp only [Bool.or_eq_true, not_or, Bool.not_eq_true, Option.isSome_eq_false_iff,
      Option.isNone_iff_eq_none] at considered
    split
    · exact ⟨resolution, rfl, between⟩
    · rename_i precedence declares
      obtain ⟨rules, assigned, now⟩ :=
        between.foldlM_assignAt (await precedence ⟨considered.1, considered.2, declares⟩)
      refine ⟨⟨rules, resolution.resolved + 1⟩, ?_, now⟩
      simp only [Reported.result_bind, Reported.result_quiet, assigned]
      rfl

theorem Between.fold_resolveRule {resolution : Resolution History} {items : List (Rule History × Nat)}
    (between : grammar.Between goal resolution.rules)
    (await : ∀ item ∈ items, ∀ precedence, grammar.Inherits grammar.chains item.1 item.2 precedence →
      ∀ index ∈ grammar.chains.pieces item.2, grammar.Awaits goal precedence index) :
    ∃ last, (Reported.fold (grammar.resolveRule grammar.chains) resolution items).result = .ok last ∧
      grammar.Between goal last.rules := by
  induction items generalizing resolution with
  | nil => exact ⟨resolution, Reported.fold_nil_eq_ok_iff.mpr rfl, between⟩
  | cons item items induction =>
      rw [List.forall_mem_cons] at await
      obtain ⟨next, first, now⟩ := between.resolveRule await.1
      obtain ⟨last, rest, later⟩ := induction now await.2
      exact ⟨last, Reported.fold_cons_eq_ok_iff.mpr ⟨next, first, rest⟩, later⟩

/-- When all pieces of the chains that inherit a precedence have none, and these are the only rules that
are meant to change, resolution succeeds and takes every rule to where it is meant to be. -/
theorem resolvePrecedence_eq_map
    (await : ∀ (top : Nat) (rule : Rule History) (precedence : Precedence),
      grammar.rules[top]? = some rule → grammar.Inherits grammar.chains rule top precedence →
        ∀ index ∈ grammar.chains.pieces top, grammar.Awaits goal precedence index)
    (spares : ∀ (index : Nat) (piece : Rule History), grammar.rules[index]? = some piece →
      goal piece = piece ∨ ∃ (top : Nat) (rule : Rule History) (precedence : Precedence),
        grammar.rules[top]? = some rule ∧ grammar.Inherits grammar.chains rule top precedence ∧
          index ∈ grammar.chains.pieces top) :
    grammar.resolvePrecedence.result = .ok (grammar.afterPass grammar.supply (grammar.rules.map goal)
      grammar.sequences (if Stage.binarized ≤ grammar.stage then
        max grammar.stage .precedenceResolved else grammar.stage)) := by
  have start : grammar.Between goal grammar.rules.toArray := fun index => .inl List.getElem?_toArray
  obtain ⟨last, folded, between⟩ : ∃ last, (Reported.fold (grammar.resolveRule grammar.chains)
      ⟨grammar.rules.toArray, 0⟩ grammar.rules.zipIdx).result = .ok last ∧
        grammar.Between goal last.rules :=
    start.fold_resolveRule fun item member precedence =>
      await item.2 item.1 precedence (List.mem_zipIdx_iff_getElem?.mp member)
  have done : grammar.resolvePrecedence.result = .ok (grammar.afterPass grammar.supply
      last.rules.toList grammar.sequences (if Stage.binarized ≤ grammar.stage then
        max grammar.stage .precedenceResolved else grammar.stage)) := by
    simp only [resolvePrecedence, Reported.result_bind]
    rw [show (Reported.fold (grammar.resolveRule (Chains.ofRules grammar.rules)) _ _).result = _ from
      folded]
    rfl
  suffices last.rules.toList = grammar.rules.map goal by rw [done, this]
  apply List.ext_getElem?
  intro index
  rw [Array.getElem?_toList, List.getElem?_map]
  rcases between index with kept | reached
  · rw [kept]
    cases found : grammar.rules[index]? with
    | none => rfl
    | some piece =>
        refine congrArg some (Eq.symm ?_)
        rcases spares index piece found with same | ⟨top, rule, precedence, atTop, inherits, inPieces⟩
        · exact same
        · -- A piece that is as it was has no precedence, but resolution leaves none without.
          have settled := isSettled_of_inherits done
            (by rw [afterPass, Array.getElem?_toList, kept, found]) atTop inherits inPieces
          have missing := (await top rule precedence atTop inherits index inPieces piece found).1
          rw [(History.setPrecedence_eq_ok_iff.mp settled).1] at missing
          cases missing
  · exact reached

end Between

end Grammar

/-- The right-hand side that a rule was split from, or its own if it is no piece of a chain. -/
def SplitRule.wordOf {H : Type} [RuleHistory H] (splits : List (SplitRule H)) (rule : Rule H) :
    List Symbol :=
  match rule.link? with
  | none => rule.rhs
  | some link => ((splits.find? fun split => decide (link ∈ split.links)).map (·.rule.rhs)).getD []

namespace Grammar

variable {grammar : Grammar History} {splits : List (SplitRule History)}

theorem wordOf_of_not_link {rule : Rule History} (unrecorded : rule.link? = none) :
    SplitRule.wordOf splits rule = rule.rhs := by
  rw [SplitRule.wordOf, unrecorded]

theorem HasLinks.wordOf_of_link (inventory : grammar.HasLinks splits) {split : SplitRule History}
    (inSplits : split ∈ splits) {link : ChainRule} (isLink : link ∈ split.links) {rule : Rule History}
    (recorded : rule.link? = some link) : SplitRule.wordOf splits rule = split.rule.rhs := by
  have found : splits.find? (fun split => decide (link ∈ split.links)) = some split := by
    have isSome : (splits.find? fun split => decide (link ∈ split.links)).isSome = true :=
      List.find?_isSome.mpr ⟨split, inSplits, decide_eq_true isLink⟩
    obtain ⟨other, found⟩ := Option.isSome_iff_exists.mp isSome
    have isOtherLink : link ∈ other.links := by simpa using List.find?_some found
    rw [found, inventory.eq_of_mem_links inSplits (List.mem_of_find?_eq_some found) isLink isOtherLink]
  rw [SplitRule.wordOf, recorded]
  simp only [found, Option.map_some, Option.getD_some]

/-- The pieces of every chain have the histories that their rule was split with, apart from one
precedence for all of them. -/
def KeepsHistories (grammar : Grammar History) (splits : List (SplitRule History)) : Prop :=
  ∀ split ∈ splits, ∃ precedence, ∀ rule ∈ grammar.rules, ∀ link ∈ split.links,
    rule.link? = some link → rule.history = { split.rule.history.split link.piece with precedence }

/-- What precedence every rule has when it is resolved now. -/
def ranked (grammar : Grammar History) (splits : List (SplitRule History)) (rule : Rule History) :
    Rule History :=
  rule.ranked grammar.declared (SplitRule.wordOf splits rule)

theorem KeepsHistories.precedence_eq (keeps : grammar.KeepsHistories splits)
    {split : SplitRule History} (inSplits : split ∈ splits) {first second : Rule History}
    (inFirst : first ∈ grammar.rules) (inSecond : second ∈ grammar.rules) {former latter : ChainRule}
    (isFormer : former ∈ split.links) (isLatter : latter ∈ split.links)
    (recorded : first.link? = some former) (also : second.link? = some latter) :
    first.history.precedence = second.history.precedence := by
  obtain ⟨precedence, histories⟩ := keeps split inSplits
  rw [histories first inFirst former isFormer recorded, histories second inSecond latter isLatter also]

namespace HasChains

variable (inventory : grammar.HasChains splits) (keeps : grammar.KeepsHistories splits)
include inventory keeps

/-- The whole chain of a rule that inherits a precedence is waiting for it. -/
theorem awaits_of_inherits {top : Nat} {rule : Rule History} {precedence : Precedence}
    (atTop : grammar.rules[top]? = some rule)
    (inherits : grammar.Inherits grammar.chains rule top precedence) :
    ∀ index ∈ grammar.chains.pieces top, grammar.Awaits (grammar.ranked splits) precedence index := by
  have inRules := List.mem_of_getElem? atTop
  have declares := inherits.declares
  intro index inPieces piece found
  suffices piece.history.precedence = none ∧ SplitRule.wordOf splits piece =
      grammar.chains.fullRhs top by
    refine ⟨this.1, ?_⟩
    rw [ranked, Rule.ranked_of_missing this.1, this.2, declares]
  have shallow := isBelowTop_eq_false_of_outside inRules inherits.outside
  rcases inventory.cases_of_mem_pieces atTop shallow inPieces with
    ⟨rfl, unrecorded⟩ | ⟨split, inSplits, recorded, other, also, link, isLink, isPiece⟩
  · obtain rfl := Option.some.inj (atTop.symm.trans found)
    exact ⟨inherits.missing,
      by rw [(pieces_of_not_link atTop unrecorded).2.2, wordOf_of_not_link unrecorded]⟩
  · obtain rfl := Option.some.inj (found.symm.trans also)
    have isTop := SplitRule.top_mem_links (inventory.admits split inSplits)
    refine ⟨?_, ?_⟩
    · rw [keeps.precedence_eq inSplits (List.mem_of_getElem? found) inRules isLink isTop isPiece recorded]
      exact inherits.missing
    · rw [(inventory.pieces_of_top inSplits atTop recorded).2.2,
        inventory.wordOf_of_link inSplits isLink isPiece]

/-- A rule that is meant to get a precedence belongs to a chain that inherits it. -/
theorem exists_inherits_of_ranked_ne {index : Nat} {piece : Rule History}
    (found : grammar.rules[index]? = some piece) (changes : grammar.ranked splits piece ≠ piece) :
    ∃ (top : Nat) (rule : Rule History) (precedence : Precedence), grammar.rules[top]? = some rule ∧
      grammar.Inherits grammar.chains rule top precedence ∧ index ∈ grammar.chains.pieces top := by
  have inRules := List.mem_of_getElem? found
  obtain ⟨missing, precedence, declares⟩ : piece.history.precedence = none ∧
      ∃ precedence, grammar.declared.rightmost? (SplitRule.wordOf splits piece) = some precedence := by
    by_contra none
    refine changes (Rule.ranked_eq_self fun missing => ?_)
    rw [Option.eq_none_iff_forall_ne_some]
    exact fun precedence declares => none ⟨missing, precedence, declares⟩
  cases recorded : piece.link? with
  | none =>
      obtain ⟨_, alone, fullRhs⟩ := pieces_of_not_link found recorded
      refine ⟨index, piece, precedence, found, ⟨?_, missing, ?_⟩, by simp [alone]⟩
      · rw [inventory.isChainSymbol_lhs inRules, Rule.isBelowTop_of_not_link recorded]
      · rw [fullRhs, ← declares, wordOf_of_not_link recorded]
  | some link =>
      obtain ⟨split, inSplits, depth, bound, rfl⟩ := inventory.exists_linkAt inRules recorded
      have isLink : split.linkAt depth ∈ split.links := SplitRule.mem_links.mpr ⟨depth, bound, rfl⟩
      have isTop := SplitRule.top_mem_links (inventory.admits split inSplits)
      obtain ⟨top, rule, atTop, topRecorded⟩ :=
        inventory.exists_rule inSplits (by omega : 0 + 2 ≤ split.rule.rhs.length)
      have inTop := List.mem_of_getElem? atTop
      refine ⟨top, rule, precedence, atTop, ⟨?_, ?_, ?_⟩, ?_⟩
      · rw [inventory.isChainSymbol_lhs inTop, SplitRule.isBelowTop_of_linkAt topRecorded]
        rfl
      · rw [← missing]
        exact keeps.precedence_eq inSplits inTop inRules isTop isLink topRecorded recorded
      · rw [(inventory.pieces_of_top inSplits atTop topRecorded).2.2, ← declares,
          inventory.wordOf_of_link inSplits isLink recorded]
      · exact (inventory.mem_pieces_iff inSplits atTop topRecorded).mpr
          ⟨_, isLink, linkOf?_eq_some_iff.mpr ⟨piece, found, recorded⟩⟩

/-- Resolution never fails here, and what it does to a rule does not depend on the others. -/
theorem resolvePrecedence_eq :
    grammar.resolvePrecedence.result = .ok (grammar.afterPass grammar.supply
      (grammar.rules.map (grammar.ranked splits)) grammar.sequences
      (if Stage.binarized ≤ grammar.stage then max grammar.stage .precedenceResolved
        else grammar.stage)) := by
  refine resolvePrecedence_eq_map
    (fun _ _ _ atTop inherits => inventory.awaits_of_inherits keeps atTop inherits)
    fun index piece found => ?_
  by_cases same : grammar.ranked splits piece = piece
  · exact .inl same
  · exact .inr (inventory.exists_inherits_of_ranked_ne keeps found same)

theorem rules_resolvePrecedence {next : Grammar History}
    (done : grammar.resolvePrecedence.result = .ok next) :
    next.rules = grammar.rules.map (grammar.ranked splits) := by
  rw [inventory.resolvePrecedence_eq keeps] at done
  rw [← Except.ok.inj done]
  rfl

end HasChains

end Grammar

end TracedGrammar
