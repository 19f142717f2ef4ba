import TracedGrammar.History.Untracked
import TracedGrammar.Proofs.Authoring.Bookkeeping
import TracedGrammar.Proofs.Authoring.Edits

/-!
# Histories that are given in advance

A history that is given in advance is due to one alternative at most, the next one, and when that comes
with a history of its own, it is due to none.  An account in which this is so follows a builder call by
call.  The histories that they write are the same as long as no alternative takes a history that is
still pending but not due.
-/

namespace TracedGrammar

variable {H : Type}

namespace Builder

variable {builder next : Builder H} {account : Account H} {call : Call H}

theorem histories_account (builder : Builder H) :
    builder.account.histories = (Account.ofGrammar builder.grammar).histories := by
  cases builder <;> rfl

/-- An account in which a history is due to one alternative at most follows a builder. -/
structure FollowedBy (builder : Builder H) (account : Account H) : Prop where
  alike : builder.account.Alike account
  due_cases : account.due = none ∨ account.due = builder.account.due
  due_of_tiers : ∀ tiers, builder = .tiers tiers → account.due = builder.account.due

variable [RuleHistory H]

theorem exists_tiers_of_tier {inner : TierBuilder.Call H}
    (done : builder.perform? (.tier inner) = some next) : ∃ tiers, builder = .tiers tiers := by
  cases builder with
  | tiers tiers => exact ⟨tiers, rfl⟩
  | rules | sequences | failed => cases done

/-- Tiers are started, or they are gone on with. -/
theorem cases_of_tiers {tiers : TierBuilder H} (done : builder.perform? call = some (.tiers tiers)) :
    (∃ lhs, call = .startTiers lhs) ∨
      ∃ before inner, builder = .tiers before ∧ call = .tier inner := by
  cases builder with
  | rules builder =>
      cases call with
      | startTiers lhs => exact .inl ⟨lhs, rfl⟩
      | rule | sequence | tier | finalize => cases done
  | sequences builder => cases call <;> cases done
  | tiers before =>
      cases call with
      | tier inner => exact .inr ⟨before, inner, rfl, rfl⟩
      | finalize =>
          simp only [perform?] at done
          split at done <;> cases done
      | rule | sequence | startTiers => cases done
  | failed grammar conflict => cases call <;> cases done

namespace FollowedBy

omit [RuleHistory H] in
theorem start (grammar : Grammar H) (lhs : Symbol) (kind : Kind) :
    (Builder.start grammar lhs kind).FollowedBy (.ofGrammar grammar) := by
  refine ⟨?_, .inl rfl, fun _ _ => ?_⟩
  · rw [account_start]
    exact .refl _
  · rw [account_start]

theorem perform (followed : builder.FollowedBy account) (done : builder.perform? call = some next) :
    next.FollowedBy (account.step Call.due? call) ∧
      (next.account.histories = (account.step Call.due? call).histories ↔
        builder.account.histories = account.histories ∧
          (call.IsPlain → builder.account.due.getD (builder.account.own call) =
            account.due.getD (builder.account.own call))) := by
  obtain ⟨alike, histories_eq_iff⟩ := followed.alike.record call fun inner same => by
    subst same
    obtain ⟨tiers, same⟩ := exists_tiers_of_tier done
    exact (followed.due_of_tiers tiers same).symm
  have refines := account_perform? done
  refine ⟨⟨?alike, ?due_cases, ?due_of_tiers⟩, ?histories⟩
  case alike =>
    rw [refines]
    exact alike.replaceDue _ _
  case due_cases =>
    rw [refines, Account.step, Account.step, Call.pending?]
    split
    · rename_i leaves
      rw [Call.due?_of_leavesPending leaves]
      exact .inl rfl
    · cases call.due? with
      | none => exact followed.due_cases
      | some due => exact .inr rfl
  case due_of_tiers =>
    intro tiers same
    subst same
    rw [refines, Account.step, Account.step]
    -- What was pending is given up when tiers are started, and no call to them leaves it.
    rcases cases_of_tiers done with ⟨lhs, rfl⟩ | ⟨before, inner, same, rfl⟩
    · rfl
    · rw [followed.due_of_tiers before same]
      rfl
  case histories =>
    rw [refines]
    exact histories_eq_iff

end FollowedBy

section Lingering

omit [RuleHistory H]

/-- The history that is pending after calls. -/
def pendingAfter (calls : List (Call H)) : Option H :=
  (calls.filterMap Call.pending?).getLast?.getD none

def dueAfter (calls : List (Call H)) : Option H :=
  (calls.filterMap Call.due?).getLast?.getD none

/-- A history is still pending although an alternative with one of its own has come since it was
given. -/
def Lingers (calls : List (Call H)) (history : H) : Prop :=
  ∃ early overlooked late, calls = early ++ overlooked :: late ∧ overlooked.LeavesPending ∧
    pendingAfter early = some history ∧ ∀ later ∈ late, later.due? = none

variable {calls : List (Call H)} {history : H}

/-- What is due was given in advance, and nothing has used it or given it up since. -/
theorem dueAfter_eq_some_iff : dueAfter calls = some history ↔
    ∃ early given late, calls = early ++ given :: late ∧ given.due? = some (some history) ∧
      ∀ later ∈ late, later.due? = none := by
  rw [dueAfter, Option.getD_eq_iff, ← getLast?_filterMap_eq_some_iff]
  simp only [reduceCtorEq, and_false, or_false]

theorem pendingAfter_append {early late : List (Call H)}
    (keep : ∀ later ∈ late, later.pending? = none) :
    pendingAfter (early ++ late) = pendingAfter early := by
  rw [pendingAfter, List.filterMap_append, List.filterMap_eq_nil_iff.mpr keep, List.append_nil,
    pendingAfter]

theorem Call.pending?_of_due?_eq_none {call : Call H} (keeps : call.due? = none) :
    call.pending? = none := by
  rw [pending?, keeps, ite_self]

theorem lingers_iff :
    Lingers calls history ↔ pendingAfter calls = some history ∧ dueAfter calls = none := by
  constructor
  · rintro ⟨early, overlooked, late, rfl, leaves, pending, keep⟩
    have kept : ∀ later ∈ overlooked :: late, later.pending? = none :=
      List.forall_mem_cons.mpr
        ⟨if_pos leaves, fun later member => Call.pending?_of_due?_eq_none (keep later member)⟩
    rw [pendingAfter_append kept, dueAfter, getLast?_filterMap_eq_some_iff.mpr
      ⟨early, overlooked, late, rfl, Call.due?_of_leavesPending leaves, keep⟩]
    exact ⟨pending, rfl⟩
  · rintro ⟨pending, due⟩
    rw [dueAfter, Option.getD_eq_iff, and_iff_left rfl] at due
    -- The last call that matters to what is due has used it.  It is one that leaves it pending.
    rcases due with used | untouched
    · obtain ⟨early, call, late, rfl, uses, keep⟩ := getLast?_filterMap_eq_some_iff.mp used
      have kept : ∀ later ∈ late, later.pending? = none :=
        fun later member => Call.pending?_of_due?_eq_none (keep later member)
      by_cases leaves : call.LeavesPending
      · rw [pendingAfter_append (List.forall_mem_cons.mpr ⟨if_pos leaves, kept⟩)] at pending
        exact ⟨early, call, late, rfl, leaves, pending, keep⟩
      · rw [pendingAfter, getLast?_filterMap_eq_some_iff.mpr
          ⟨early, call, late, rfl, (if_neg leaves).trans uses, kept⟩] at pending
        cases pending
    · rw [List.getLast?_eq_none_iff, List.filterMap_eq_nil_iff] at untouched
      have kept : ∀ later ∈ calls, later.pending? = none :=
        fun later member => Call.pending?_of_due?_eq_none (untouched later member)
      rw [← List.nil_append calls, pendingAfter_append kept] at pending
      cases pending

theorem getD_pendingAfter_eq_iff
    (cases : dueAfter calls = none ∨ dueAfter calls = pendingAfter calls) (own : H) :
    (pendingAfter calls).getD own = (dueAfter calls).getD own ↔
      ∀ history, Lingers calls history → history = own := by
  simp only [lingers_iff]
  rcases cases with none | same
  · simp only [none, and_true]
    exact getD_eq_default_iff
  · rw [same]
    refine iff_of_true rfl fun history ⟨pending, absent⟩ => ?_
    rw [pending] at absent
    cases absent

end Lingering

/-- For a call to a builder, it does not matter that a history lingers: the call adds no alternative
without a history, or what lingers is the history that the alternative would have anyway. -/
def Unaffected (grammar : Grammar H) (before : List (Call H)) (call : Call H) : Prop :=
  call.IsPlain → ∀ history, Lingers before history →
    history = ((Account.ofGrammar grammar).run Call.due? before).own call

theorem followedBy_run? {grammar : Grammar H} {lhs : Symbol} {kind : Kind} {calls : List (Call H)}
    {last : Builder H} (ran : (start grammar lhs kind).run? calls = some last) :
    last.FollowedBy ((Account.ofGrammar grammar).run Call.due? calls) ∧
      (last.account.histories = ((Account.ofGrammar grammar).run Call.due? calls).histories ↔
        AtEach (Unaffected grammar) calls) := by
  induction calls using List.reverseRecOn generalizing last with
  | nil =>
      cases ran
      refine ⟨.start grammar lhs kind, iff_of_true ?_ atEach_nil⟩
      rw [account_start]
      rfl
  | append_singleton calls call induction =>
      obtain ⟨builder, before, done⟩ := run?_concat_eq_some_iff.mp ran
      obtain ⟨followed, same⟩ := induction before
      obtain ⟨next, histories⟩ := followed.perform done
      rw [Account.run_concat, atEach_concat, histories, same]
      have pending : builder.account.due = pendingAfter calls := by
        rw [account_run? before, account_start, Account.due_run]
        rfl
      have due : ((Account.ofGrammar grammar).run Call.due? calls).due = dueAfter calls :=
        Account.due_run ..
      refine ⟨next, and_congr_right' (forall_congr' fun _ => ?_)⟩
      rw [← getD_pendingAfter_eq_iff (due ▸ pending ▸ followed.due_cases), pending, due,
        followed.alike.own_eq]

end Builder

variable [RuleHistory H]

namespace Account

/-- What is added with nothing given has an origin that depends on the handle it gets. -/
structure OriginatesBy (H : Type) [RuleHistory H] (origin : Handle → Option Handle) : Prop where
  rule : ∀ account : Account H, ∃ own,
    (account.addRule none).rules = account.rules ++ [own] ∧
      RuleHistory.origin own = origin (.rule account.rules.length)
  ranked : ∀ (account : Account H) (precedence : Precedence), ∃ own,
    (account.addRanked (none, precedence)).rules = account.rules ++ [own] ∧
      RuleHistory.origin own = origin (.rule account.rules.length)
  sequence : ∀ account : Account H, ∃ own,
    (account.addSequence none).sequences = account.sequences ++ [own] ∧
      RuleHistory.origin own =
        origin (.sequence (account.sequencesConsumed + account.sequences.length))

theorem OriginatesBy.of_ofOrigin {origin : Handle → Option Handle}
    (made : ∀ handle, RuleHistory.origin (RuleHistory.ofOrigin handle : H) = origin handle)
    (kept : ∀ (history next : H) (precedence : Precedence),
      RuleHistory.setPrecedence history precedence = .ok next →
      RuleHistory.origin next = RuleHistory.origin history) : OriginatesBy H origin where
  rule account := ⟨_, rfl, made _⟩
  ranked account precedence := by
    rw [addRanked, Option.getD_none]
    cases set : RuleHistory.setPrecedence account.ownOfRule precedence with
    | ok assigned => exact ⟨assigned, rfl, (kept _ _ _ set).trans (made _)⟩
    | error conflict => exact ⟨account.ownOfRule, rfl, made _⟩
  sequence account := ⟨_, rfl, made _⟩

end Account

section Pending

/-- Builders write the histories of an account in which a history that is given in advance is due to
one alternative at most, exactly if no plain alternative takes one that lingers. -/
theorem Builder.histories_eq_iff_unaffected :
    (∀ {grammar : Grammar H} {lhs : Symbol} {kind : Kind} {calls : List (Call H)}
      {last : Builder H}, (start grammar lhs kind).run? calls = some last →
      ((Account.ofGrammar last.grammar).histories =
          ((Account.ofGrammar grammar).run Call.due? calls).histories ↔
        AtEach (Unaffected grammar) calls)) ∧
    (∀ (grammar : Grammar H) (calls : List (Call H)) (history : H),
      ((Account.ofGrammar grammar).run Call.due? calls).due = some history ↔
        ∃ early given late, calls = early ++ given :: late ∧ given.due? = some (some history) ∧
          ∀ later ∈ late, later.due? = none) ∧
    Account.OriginatesBy History some ∧ Account.OriginatesBy Untracked fun _ => none := by
  refine ⟨fun ran => ?_, fun grammar calls history => ?_, ?_, ?_⟩
  · rw [← histories_account]
    exact (followedBy_run? ran).2
  · rw [Account.due_run]
    exact dueAfter_eq_some_iff
  · refine .of_ofOrigin (fun _ => rfl) fun _ _ _ set => ?_
    exact (congrArg History.origin (History.unlabeled_of_setPrecedence set)).trans rfl
  · exact .of_ofOrigin (fun _ => rfl) fun _ _ _ _ => rfl

end Pending

/-- An alternative with a history of its own comes before one without. -/
def overlooking : List (Builder.Call History) :=
  [.rule (.history { action := some ⟨1⟩ }), .rule (.alternativeWith [⟨1⟩] { action := some ⟨2⟩ }),
    .rule (.alternative [⟨2⟩])]

/-- The history that was given first goes to the last alternative, which should have its own. -/
theorem overlooking_histories_ne : ∃ last,
    (Builder.start {} ⟨0⟩ .rules).run? overlooking = some last ∧
      last.grammar.rules.map (·.history) = [{ action := some ⟨2⟩ }, { action := some ⟨1⟩ }] ∧
      ((Account.ofGrammar {}).run Builder.Call.due? overlooking).rules =
        [{ action := some ⟨2⟩ }, { origin := some (.rule 1) }] := by
  have shown : ((Builder.start {} ⟨0⟩ .rules).run? overlooking).map
      (·.grammar.rules.map (·.history)) =
        some [{ action := some ⟨2⟩ }, { action := some ⟨1⟩ }] := by decide
  obtain ⟨last, ran, written⟩ := Option.map_eq_some_iff.mp shown
  exact ⟨last, ran, written, by decide⟩

/-- A session that goes on from plain rules to tiers and back.  The history that is given first is used
at once, the next one is dropped for tiers, and the last one for an alternative that has one. -/
def handedOver : List (Builder.Call History) :=
  [.rule (.history { action := some ⟨1⟩ }), .rule (.alternative [⟨1⟩]), .rule (.alternative [⟨2⟩]),
    .rule (.history { action := some ⟨2⟩ }), .startTiers ⟨3⟩, .tier (.alternative [⟨1⟩]),
    .tier (.history { action := some ⟨3⟩ }), .tier (.associate .group),
    .tier (.alternative [⟨3⟩]), .tier (.history { action := some ⟨4⟩ }),
    .tier (.alternativeWith [⟨2⟩] {}), .tier (.alternative [⟨4⟩]), .finalize,
    .rule (.alternative [⟨5⟩])]

theorem handedOver_histories_eq_iff : ∃ last,
    (Builder.start {} ⟨0⟩ .rules).run? handedOver = some last ∧
      (Account.ofGrammar last.grammar).histories =
        ((Account.ofGrammar {}).run Builder.Call.due? handedOver).histories ∧
      AtEach (Builder.Unaffected {}) handedOver := by
  have shown : ((Builder.start {} ⟨0⟩ .rules).run? handedOver).map
      (fun last => (Account.ofGrammar last.grammar).histories) =
        some ((Account.ofGrammar {}).run Builder.Call.due? handedOver).histories := by decide
  obtain ⟨last, ran, same⟩ := Option.map_eq_some_iff.mp shown
  exact ⟨last, ran, same, (Builder.histories_eq_iff_unaffected.1 ran).mp same⟩

end TracedGrammar
