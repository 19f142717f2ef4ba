import TracedGrammar.Proofs.Run.Decoding
import TracedGrammar.Proofs.Run.Refinement

/-!
# Where the action of a rule is invoked

A rule that is split leaves its action to the top of its chain.  However often passes are run, no action
gets lost in this way and none is invoked twice: of all pieces that one use of a plain rule takes, the
top is the only one to invoke the action.
-/

namespace TracedGrammar

namespace History

/-- As long as no sequence is behind a rule, it invokes its action unless it is below the top of a
chain. -/
def InvokesAtTop (history : History) : Prop :=
  history.unrolling = none →
    history.actionSite = !history.chainPiece.any fun piece => !piece.isTop

theorem holdsOfWritten_invokesAtTop : HoldsOfWritten InvokesAtTop :=
  holdsOfWritten_of_unlabeled (fun _ => rfl) (fun _ _ => rfl) fun _ => .rfl

theorem InvokesAtTop.split {history : History} (invokes : history.InvokesAtTop)
    (absent : history.chainPiece = none) (piece : ChainPiece) : (history.split piece).InvokesAtTop := by
  intro plain
  have site : history.actionSite = true := by
    rw [invokes plain, absent]
    rfl
  simp [History.split, site]

end History

namespace Grammar

variable {owned : Symbol → Prop} {grammar next : Grammar History} {splits : List (SplitRule History)}
  {top index : Nat} {rule : Rule History}

/-- All pieces of the chain of a plain rule are plain, and but for the top they are below the top. -/
theorem HasLinks.exists_plain_piece (inventory : grammar.HasLinks splits)
    (keeps : grammar.KeepsHistories splits) (found : grammar.rules[top]? = some rule)
    (shallow : rule.isBelowTop = false) (plain : rule.IsPlain)
    (inPieces : index ∈ grammar.chains.pieces top) :
    ∃ piece, grammar.rules[index]? = some piece ∧ piece.IsPlain ∧
      (piece.isBelowTop = false → index = top) := by
  rcases inventory.cases_of_mem_pieces found shallow inPieces with
    ⟨rfl, _⟩ | ⟨split, inSplits, recorded, piece, here, link, isLink, isPiece⟩
  · exact ⟨rule, found, plain, fun _ => rfl⟩
  · refine ⟨piece, here, ?plain, fun alsoShallow => ?top⟩
    case plain =>
      obtain ⟨precedence, histories⟩ := keeps split inSplits
      have isTop := SplitRule.top_mem_links (inventory.admits split inSplits)
      rw [Rule.IsPlain, histories rule (List.mem_of_getElem? found) _ isTop recorded] at plain
      rw [Rule.IsPlain, histories piece (List.mem_of_getElem? here) link isLink isPiece]
      exact plain
    case top =>
      obtain ⟨depth, _, rfl⟩ := SplitRule.mem_links.mp isLink
      rw [SplitRule.isBelowTop_of_linkAt isPiece, bne_eq_false_iff_eq] at alsoShallow
      subst alsoShallow
      exact inventory.index_eq_of_link here found isPiece recorded

/-- What holds of a grammar that is never sorted, with sequences as they were written and actions at the
tops of chains. -/
structure IsRegular (owned : Symbol → Prop) (grammar : Grammar History) : Prop
    extends IsFaithful owned grammar where
  waiting : ∀ sequence ∈ grammar.sequences, sequence.history.isAuthored = true
  sites : grammar.Histories History.InvokesAtTop

theorem isAuthored_of_perform {command : Command History} (plain : command.histories = [])
    (done : command.perform grammar = .ok next)
    (waiting : ∀ sequence ∈ grammar.sequences, sequence.history.isAuthored = true) :
    ∀ sequence ∈ next.sequences, sequence.history.isAuthored = true := by
  have written := History.holdsOfWritten_isAuthored
  have labeled {handle : Handle} {change : History → Except GrammarError History}
      (keeps : ∀ history other, history.isAuthored = true → change history = .ok other →
        other.isAuthored = true) (done : grammar.changeHistory handle change = .ok next) :
      ∀ sequence ∈ next.sequences, sequence.history.isAuthored = true := by
    obtain ⟨-, changed⟩ := changed_of_changeHistory done
    cases changed with
    | rule => exact waiting
    | sequence _ found changed =>
        intro sequence member
        rcases List.mem_or_eq_of_mem_set member with old | rfl
        · exact waiting sequence old
        · exact keeps _ _ (waiting _ (List.mem_of_getElem? found)) changed
  rcases cases_of_perform written (by simp [plain]) done with
    grows | ⟨_, rfl⟩ | ⟨_, _, done⟩ | ⟨_, _, _, done⟩ | ⟨_, rfl⟩
  · obtain ⟨added, sequences, authored⟩ := grows.sequences
    rw [sequences, List.forall_mem_append]
    exact ⟨waiting, authored⟩
  · exact waiting
  · exact labeled (fun history other => written.setAction history _ other) done
  · exact labeled (fun history other => written.setPrecedence history _ other) done
  · exact waiting

namespace IsRegular

theorem start (supply : SymbolSupply) : IsRegular (· ∈ supply) { supply } where
  toIsFaithful := .start supply
  waiting := by simp
  sites := ⟨by simp, by simp⟩

variable (regular : grammar.IsRegular owned) {limits : Limits}
include regular

theorem command {command : Command History} (permitted : Unsorted command)
    (done : command.perform grammar = .ok next)
    (uses : grammar.AddsOver (grammar.Gained owned next) next) :
    next.IsRegular (grammar.Gained owned next) where
  toIsFaithful := regular.toIsFaithful.command permitted.1 permitted.2 done uses
  waiting := isAuthored_of_perform permitted.1 done regular.waiting
  sites := by
    have edit : Edit History.InvokesAtTop grammar next :=
      edit_of_perform (by simp [permitted.1]) done
    exact edit.histories History.holdsOfWritten_invokesAtTop (fun _ => id) regular.sites

theorem expand (done : (grammar.expandSequences limits).result = .ok next) : next.IsRegular owned := by
  obtain ⟨chain, expands⟩ := exists_expandsTo done
  refine ⟨regular.toIsFaithful.expand done, by simp [expands.plain], ?_, by simp [expands.plain]⟩
  intro rule member
  rcases expands.mem_rules_iff.mp member with old | ⟨expanded, _, new⟩
  · exact regular.sites.rule rule old
  · obtain ⟨production, _, rfl⟩ := List.mem_map.mp new
    exact fun plain => absurd plain (Option.some_ne_none _)

theorem eliminate {nullable : SymbolSet}
    (done : (grammar.eliminateNullingWith nullable limits).result = .ok next) :
    next.IsRegular owned := by
  obtain ⟨blocks, eliminates⟩ := exists_eliminatesTo done
  refine ⟨regular.toIsFaithful.eliminate done, by simp [eliminates.plain], ?_,
    by simp [eliminates.plain]⟩
  intro other member
  obtain ⟨rule, inRules, _, _, ⟨_, rfl⟩ | ⟨admits, rhs, elision, rfl⟩⟩ := eliminates.exists_thinned member
  · exact regular.sites.rule _ inRules
  · rw [Rule.history_variant admits]
    exact regular.sites.rule rule inRules

theorem binarize (done : (grammar.binarize limits).result = .ok next) : next.IsRegular owned := by
  obtain ⟨splits, inventory, _⟩ := regular.chains
  obtain ⟨chain, binarizes⟩ := exists_binarizesTo done
  refine ⟨regular.toIsFaithful.binarize done, by simp [binarizes.plain], ?_, by simp [binarizes.plain]⟩
  intro piece member
  obtain ⟨split, inChain, inPieces⟩ := binarizes.mem_rules_iff.mp member
  have inRules := binarizes.rule_mem inChain
  rcases SplitRule.eq_or_exists_pieceAt inPieces with ⟨_, rfl⟩ | ⟨admits, depth, _, rfl⟩
  · exact regular.sites.rule _ inRules
  · have unrecorded := inventory.link?_of_admitsSplit inRules admits
    exact (regular.sites.rule _ inRules).split (Option.map_eq_none_iff.mp unrecorded) _

theorem resolve (done : grammar.resolvePrecedence.result = .ok next) : next.IsRegular owned := by
  obtain ⟨splits, inventory, keeps, _⟩ := regular.chains
  have sequences := sequences_resolvePrecedence done
  refine ⟨regular.toIsFaithful.resolve done, ?_, ?_, ?_⟩
  · rw [sequences]
    exact regular.waiting
  · rw [inventory.rules_resolvePrecedence keeps done, List.forall_mem_map]
    exact regular.sites.rule
  · rw [sequences]
    exact regular.sites.sequence

theorem finish (binarized : Stage.binarized ≤ grammar.stage) :
    { grammar with stage := .normalized }.IsRegular owned :=
  ⟨regular.toIsFaithful.finish binarized, regular.waiting, regular.sites.rule, regular.sites.sequence⟩

end IsRegular

theorem isKept_isRegular : IsKept Unsorted (fun owned grammar => grammar.IsRegular owned) where
  start := .start
  command := fun regular _ permitted done uses => regular.command permitted done uses
  expand := fun regular done => regular.expand done
  eliminate := fun regular done => regular.eliminate done
  binarize := fun regular done => regular.binarize done
  resolve := fun regular done => regular.resolve done
  finish := fun regular binarized => regular.finish binarized

/-- Every pass hands on what is recorded in the histories of a regular grammar. -/
theorem keptByPasses_refinesTo (start : Grammar History) (owned : Symbol → Prop) :
    KeptByPasses fun grammar => grammar.IsRegular owned ∧ start.RefinesTo grammar where
  expand := by
    rintro grammar next limits ⟨regular, refines⟩ done
    obtain ⟨chain, expands⟩ := exists_expandsTo done
    refine ⟨regular.expand done, refines.trans (expands.refinesTo fun sequence member => ?_)⟩
    exact History.unrolling_eq_none_of_isAuthored (regular.waiting sequence member)
  eliminate := by
    rintro grammar next nullable limits ⟨regular, refines⟩ done
    obtain ⟨blocks, eliminates⟩ := exists_eliminatesTo done
    have plain := regular.staged.expanded (stage_eliminateNullingWith done).1
    exact ⟨regular.eliminate done, refines.trans (eliminates.refinesTo plain)⟩
  binarize := by
    rintro grammar next limits ⟨regular, refines⟩ done
    obtain ⟨splits, inventory, _⟩ := regular.chains
    obtain ⟨chain, binarizes⟩ := exists_binarizesTo done
    have plain := regular.staged.expanded (Nat.le_trans (by decide) (stage_binarize done).1)
    exact ⟨regular.binarize done, refines.trans (binarizes.refinesTo inventory.toHasLinks plain)⟩
  resolve := by
    rintro grammar next ⟨regular, refines⟩ done
    obtain ⟨splits, inventory, keeps, _⟩ := regular.chains
    exact ⟨regular.resolve done, refines.trans (inventory.refinesTo_of_resolvePrecedence keeps done)⟩
  finish := by
    rintro grammar ⟨regular, refines⟩ binarized
    exact ⟨regular.finish binarized, refines.supply_le, refines.descent⟩

/-- Whether the rule at an index invokes its action. -/
def invokesAt (grammar : Grammar History) (index : Nat) : Bool :=
  grammar.rules[index]?.any fun rule => RuleHistory.invokesAction rule.history

/-- Plain rules invoke their action at the tops of their chains, and nowhere else. -/
structure InvokesOnce (grammar : Grammar History) : Prop where
  site : ∀ rule ∈ grammar.rules, rule.IsPlain →
    RuleHistory.invokesAction rule.history = !rule.isBelowTop
  chain : ∀ (top : Nat) (rule : Rule History), grammar.rules[top]? = some rule →
    rule.isBelowTop = false → rule.IsPlain →
    (grammar.chains.pieces top).filter grammar.invokesAt = [top]

theorem IsRegular.invokesOnce (regular : grammar.IsRegular owned) : grammar.InvokesOnce where
  site := regular.sites.rule
  chain := by
    intro top rule found shallow plain
    obtain ⟨splits, inventory, keeps, _⟩ := regular.chains
    have follows := inventory.hasWholeChains.follows top rule found shallow
    have only : ∀ index ∈ grammar.chains.pieces top, grammar.invokesAt index = (index == top) := by
      intro index inPieces
      obtain ⟨piece, here, alsoPlain, isTop⟩ :=
        inventory.exists_plain_piece keeps found shallow plain inPieces
      have site := regular.sites.rule piece (List.mem_of_getElem? here) alsoPlain
      have invokes : grammar.invokesAt index = !piece.isBelowTop := by
        rw [invokesAt, here]
        exact site
      rw [invokes]
      cases deep : piece.isBelowTop with
      | false => simp [isTop deep]
      | true =>
          refine (beq_eq_false_iff_ne.mpr ?_).symm
          rintro rfl
          rw [Option.some.inj (here.symm.trans found), shallow] at deep
          cases deep
    rw [List.filter_congr only, List.filter_beq,
      List.count_eq_one_of_mem follows.nodup follows.mem_self, List.replicate_one]

/-- A plain rule invokes its action when it was never cut from another, or when it is the first piece of
the rule that it was cut from. -/
def InvokesFirst (grammar : Grammar History) (cuts : List (Option Cut)) : Prop :=
  ∀ (index : Nat) (rule : Rule History) (cut : Option Cut),
    grammar.rules[index]? = some rule → cuts[index]? = some cut → rule.IsPlain →
      RuleHistory.invokesAction rule.history = cut.all fun cut => cut.depth == 0

theorem IsRegular.invokesFirst (regular : grammar.IsRegular owned) {cuts : List (Option Cut)}
    (decodes : grammar.DecodesTo cuts) : grammar.InvokesFirst cuts := by
  intro index rule cut found noted plain
  refine (regular.sites.rule rule (List.mem_of_getElem? found) plain).trans ?_
  cases cut with
  | none =>
      rw [(decodes.whole index rule found noted).1]
      rfl
  | some cut =>
      rw [decodes.piece index rule cut found noted]
      exact Bool.not_not _

/-- Whatever passes are run on a grammar in use, in any order and any number of times, every rule descends
from one rule or sequence, with its origin, its action and all that had been recorded.  Of every chain of
a plain rule only the top invokes the action, and it is the first of the pieces that the rule was cut
into. -/
theorem refinesTo_invokesOnce_of_reached (reached : grammar.Reached Unsorted owned) {passes : List Pass}
    (done : grammar.runPasses passes = .ok next) :
    grammar.RefinesTo next ∧ next.InvokesOnce ∧
      ∀ cuts : List (Option Cut), next.ReachedWith Unsorted owned cuts →
        next.DecodesTo cuts ∧ next.InvokesFirst cuts := by
  have kept := keptByPasses_refinesTo grammar owned
  have last := kept.runPasses ⟨isKept_isRegular.of_reached reached, .refl grammar⟩ done
  refine ⟨last.2, last.1.invokesOnce, fun cuts cut => ?_⟩
  have decodes := cut.decodesTo fun _ permitted => permitted.1
  exact ⟨decodes, last.1.invokesFirst decodes⟩

/-- A long rule with an action and a nullable symbol is normalized, and then a sequence and another long
rule are written. -/
def mixedRun : Except GrammarError (Grammar History) := do
  let start : Grammar History := { supply := ⟨4⟩ }
  let written := ((start.writeRule ⟨0⟩ [⟨1⟩, ⟨2⟩, ⟨3⟩, ⟨2⟩]).2.writeRule ⟨2⟩ []).2
  let labeled ← written.setAction (.rule 0) ⟨5⟩
  let normalized ← (labeled.normalize {}).result
  return ((normalized.writeSequence ⟨1⟩ ⟨⟨3⟩, 1, none, .absent⟩).2.writeRule ⟨0⟩ [⟨3⟩, ⟨2⟩, ⟨3⟩]).2

theorem reached_of_mixedRun (run : mixedRun = .ok grammar) : ∃ owned, grammar.Reached Unsorted owned := by
  obtain ⟨labeled, labels, rest⟩ := bind_eq_ok_iff.mp run
  obtain ⟨normalized, normalization, same⟩ := bind_eq_ok_iff.mp rest
  cases same
  have known : ∀ symbol ∈ ([⟨0⟩, ⟨1⟩, ⟨2⟩, ⟨3⟩] : List Symbol), symbol ∈ (⟨4⟩ : SymbolSupply) := by decide
  have long : ∀ symbol ∈ ([⟨1⟩, ⟨2⟩, ⟨3⟩, ⟨2⟩] : List Symbol), symbol ∈ (⟨4⟩ : SymbolSupply) := by decide
  have other : ∀ symbol ∈ ([⟨3⟩, ⟨2⟩, ⟨3⟩] : List Symbol), symbol ∈ (⟨4⟩ : SymbolSupply) := by decide
  have letters : ∀ letter, (⟨⟨3⟩, 1, none, .absent⟩ : Repetition).IsLetter letter →
      letter ∈ (⟨4⟩ : SymbolSupply) := by
    rintro letter (rfl | impossible)
    · exact known ⟨3⟩ (by simp)
    · cases impossible
  have once : Reached Unsorted _ _ :=
    (Reached.start ⟨4⟩).writeRule ⟨rfl, nofun⟩ (known ⟨0⟩ (by simp)) long
  have twice := once.writeRule ⟨rfl, nofun⟩ (.inl (known ⟨2⟩ (by simp))) (List.forall_mem_nil _)
  have used := (twice.setAction ⟨rfl, nofun⟩ labels).pass (.normalize {}) normalization
  have again := used.writeSequence ⟨rfl, nofun⟩ (.inl (.inl (.inl (known ⟨1⟩ (by simp)))))
    fun letter occurs => .inl (.inl (.inl (letters letter occurs)))
  exact ⟨_, again.writeRule ⟨rfl, nofun⟩ (.inl (.inl (.inl (.inl (known ⟨0⟩ (by simp))))))
    fun symbol member => .inl (.inl (.inl (.inl (other symbol member))))⟩

/-- Old pieces, a rule that is new and the rules of a sequence are normalized together. -/
theorem mixed_refinesTo_invokesOnce : ∃ (grammar next : Grammar History) (owned : Symbol → Prop),
    mixedRun = .ok grammar ∧ grammar.Reached Unsorted owned ∧
      grammar.runPasses [.expandSequences {}, .normalize {}] = .ok next ∧
      grammar.RefinesTo next ∧ next.InvokesOnce ∧
      ∃ cuts, next.ReachedWith Unsorted owned cuts ∧ next.DecodesTo cuts ∧ next.InvokesFirst cuts := by
  obtain ⟨grammar, run⟩ := exists_eq_ok (by cbv : mixedRun.toBool = true)
  obtain ⟨owned, reached⟩ := reached_of_mixedRun run
  have succeeds : (mixedRun >>= fun grammar =>
      grammar.runPasses [.expandSequences {}, .normalize {}]).toBool = true := by cbv
  rw [run] at succeeds
  obtain ⟨next, done⟩ := exists_eq_ok succeeds
  obtain ⟨refines, once, decodes⟩ := refinesTo_invokesOnce_of_reached reached done
  obtain ⟨cuts, cut⟩ := reached_iff_exists_cuts.mp (reached.runPasses done)
  exact ⟨grammar, next, owned, run, reached, done, refines, once, cuts, cut, decodes cuts cut⟩

end Grammar

end TracedGrammar
