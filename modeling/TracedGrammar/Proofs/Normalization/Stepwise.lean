import Mathlib
import TracedGrammar.Proofs.Authoring.Rows
import TracedGrammar.Proofs.Normalization.Language
import TracedGrammar.Proofs.Normalization.Stability

/-!
# Normalizing in steps

When rules are added to a normalized grammar, some symbols may become nullable.  The next normalization
leaves them out of the added rules, but not out of the rules that the one before has made.  What is left
of a rule without such symbols is a new variant.  Normalizing in steps derives nothing that normalizing
everything at once does not derive, and it derives the same words exactly when what new variants derive
can be derived without them.
-/

namespace TracedGrammar

/-- A step and then symbols of a set are left out of what it leads to. -/
def ThinnedBy (set : SymbolSet) (direct : Symbol → List Symbol → Prop) (symbol : Symbol)
    (word : List Symbol) : Prop :=
  ∃ whole, direct symbol whole ∧ Thinned set whole word

theorem ThinnedBy.derives {direct larger : Symbol → List Symbol → Prop} {set : SymbolSet}
    (steps : ∀ symbol middle, direct symbol middle → larger symbol middle)
    (nullable : ∀ symbol ∈ set, Derives larger [symbol] []) {symbol : Symbol} {word : List Symbol}
    (thinned : ThinnedBy set direct symbol word) : Derives larger [symbol] word := by
  obtain ⟨whole, step, left⟩ := thinned
  exact (Derives.of_direct (steps _ _ step)).trans (left.derives nullable)

theorem ThinnedBy.congr {set other : SymbolSet} {direct : Symbol → List Symbol → Prop} {symbol : Symbol}
    (agree : ∀ whole, direct symbol whole → ∀ inside ∈ whole, inside ∈ set ↔ inside ∈ other)
    {word : List Symbol} : ThinnedBy set direct symbol word ↔ ThinnedBy other direct symbol word :=
  exists_congr fun whole => and_congr_right fun step =>
    ⟨fun thinned => thinned.mono fun inside occurs => (agree whole step inside occurs).mp,
      fun thinned => thinned.mono fun inside occurs => (agree whole step inside occurs).mpr⟩

namespace Grammar

theorem AllocatesRows.mem_of_thinnedBy {H : Type} {grammar : Grammar H}
    {rows : List (Symbol × List Symbol)} (allocated : grammar.AllocatesRows rows) {set : SymbolSet}
    {symbol : Symbol} {word : List Symbol}
    (thinned : ThinnedBy set (fun lhs rhs => (lhs, rhs) ∈ rows) symbol word) :
    symbol ∈ grammar.supply ∧ ∀ other ∈ word, other ∈ grammar.supply := by
  obtain ⟨whole, inRows, left⟩ := thinned
  obtain ⟨lhsOld, rhsOld⟩ := allocated _ inRows
  exact ⟨lhsOld, fun other occurs => rhsOld other (left.sublist.subset occurs)⟩

section Once

variable {grammar result : Grammar History} {limits : Limits}
  (normalizes : grammar.NormalizesTo limits result) (without : grammar.sequences = [])
include normalizes without

namespace NormalizesTo

theorem supply_eliminated : normalizes.eliminated.supply = grammar.supply :=
  normalizes.eliminates.supply_eq.trans (normalizes.expands.eq_of_no_sequences without).2

theorem mem_nullableSymbols_expanded_iff {symbol : Symbol} :
    symbol ∈ normalizes.expanded.nullableSymbols ↔ symbol ∈ grammar.nullableSymbols := by
  rw [mem_nullableSymbols_iff, mem_nullableSymbols_iff,
    (normalizes.expands.eq_of_no_sequences without).1]

theorem mem_supply {symbol : Symbol} (old : symbol ∈ grammar.supply) : symbol ∈ result.supply := by
  rw [normalizes.supply_eq]
  rw [← normalizes.supply_eliminated without] at old
  exact normalizes.binarizes.mem_supply old

omit without in
theorem usesAllocated (uses : grammar.UsesAllocated) : result.UsesAllocated := by
  have later := normalizes.binarizes.usesAllocated (normalizes.usesAllocated_eliminated uses)
  refine .of_directBy normalizes.plain fun symbol word step => ?_
  rw [normalizes.supply_eq]
  exact later.mem_of_directBy (normalizes.directBy_iff.mp step)

/-- The rules after the elimination of nullable symbols, when nothing had been left out before. -/
theorem directBy_eliminated_iff (admits : ∀ rule ∈ grammar.rules, rule.admitsElision = true)
    {symbol : Symbol} {word : List Symbol} :
    DirectBy normalizes.eliminated.rules symbol word ↔
      ThinnedBy grammar.nullableSymbols (DirectBy grammar.rules) symbol word := by
  rw [normalizes.eliminates.directBy_iff, (normalizes.expands.eq_of_no_sequences without).1]
  constructor
  · rintro ⟨rule, member, rfl, rfl | ⟨_, thinned⟩⟩
    · exact ⟨rule.rhs, .rule member, .refl _⟩
    · exact ⟨rule.rhs, .rule member, thinned.mono fun _ _ nullable =>
        (normalizes.mem_nullableSymbols_expanded_iff without).mp nullable⟩
  · rintro ⟨_, ⟨member⟩, thinned⟩
    exact ⟨_, member, rfl, .inr ⟨admits _ member, thinned.mono fun _ _ nullable =>
      (normalizes.mem_nullableSymbols_expanded_iff without).mpr nullable⟩⟩

/-- A normalization changes nothing in what derives together with other steps, apart from leaving
out nullable symbols. -/
theorem derives_beside_iff (admits : ∀ rule ∈ grammar.rules, rule.admitsElision = true)
    (uses : grammar.UsesAllocated) {strict : Prop} {extra : Symbol → List Symbol → Prop}
    (oldExtra : ∀ symbol middle, extra symbol middle →
      symbol ∈ grammar.supply ∧ ∀ other ∈ middle, other ∈ grammar.supply)
    {symbols word : List Symbol} (oldSymbols : ∀ symbol ∈ symbols, symbol ∈ grammar.supply)
    (oldWord : ∀ symbol ∈ word, symbol ∈ grammar.supply) :
    TracedGrammar.Derives (Beside strict result.rules extra) symbols word ↔
      TracedGrammar.Derives (fun symbol middle =>
        ThinnedBy grammar.nullableSymbols (DirectBy grammar.rules) symbol middle ∧
            (strict → middle ≠ []) ∨ extra symbol middle) symbols word := by
  rw [← normalizes.supply_eliminated without] at oldExtra oldSymbols oldWord
  have chains := normalizes.binarizes.derives_beside_iff strict
    (normalizes.usesAllocated_eliminated uses) oldExtra oldSymbols oldWord
  have resolution : TracedGrammar.Derives (Beside strict result.rules extra) symbols word ↔
      TracedGrammar.Derives (Beside strict normalizes.binarized.rules extra) symbols word :=
    TracedGrammar.Derives.congr fun _ _ => by rw [Beside, Beside, normalizes.directBy_iff]
  rw [resolution, chains]
  exact TracedGrammar.Derives.congr fun _ _ => by
    rw [Beside, normalizes.directBy_eliminated_iff without admits]

/-- Without symbols that are left out, the rules derive the same words, apart from the empty one. -/
theorem derives_thinnedBy_iff (admits : ∀ rule ∈ grammar.rules, rule.admitsElision = true)
    {symbol : Symbol} {word : List Symbol} (nonempty : word ≠ []) :
    TracedGrammar.Derives (fun symbol middle =>
        ThinnedBy grammar.nullableSymbols (DirectBy grammar.rules) symbol middle ∧ middle ≠ [])
      [symbol] word ↔ TracedGrammar.Derives (DirectBy grammar.rules) [symbol] word := by
  have same := (normalizes.expands.eq_of_no_sequences without).1
  have steps : TracedGrammar.Derives (fun symbol middle =>
      ThinnedBy grammar.nullableSymbols (DirectBy grammar.rules) symbol middle ∧ middle ≠ [])
        [symbol] word ↔
      TracedGrammar.Derives (DirectBy normalizes.eliminated.nonemptyRules) [symbol] word :=
    TracedGrammar.Derives.congr fun _ _ => by
      rw [Grammar.directBy_nonemptyRules_iff, normalizes.directBy_eliminated_iff without admits]
  rw [steps, normalizes.eliminates.derives_nonemptyRules_iff (by rwa [same])
    (fun _ => mem_nullableSymbols_iff) nonempty, same]

/-- The normal form of a grammar derives what its rules derive. -/
theorem derives_iff (admits : ∀ rule ∈ grammar.rules, rule.admitsElision = true)
    (uses : grammar.UsesAllocated) {symbol : Symbol} (old : symbol ∈ grammar.supply)
    {word : List Symbol} (nonempty : word ≠ []) (terminal : ∀ other ∈ word, grammar.IsTerminal other) :
    TracedGrammar.Derives (DirectBy result.nonemptyRules) [symbol] word ↔
      TracedGrammar.Derives (DirectBy grammar.rules) [symbol] word := by
  have same := (normalizes.expands.eq_of_no_sequences without).1
  rw [normalizes.derives_nonemptyRules_iff uses (by simp [without]) (by rwa [same]) old nonempty
    terminal, derives_iff_directBy without]

end NormalizesTo

end Once

/-- Of rules that refuse to have anything left out and rules that have been added to them, only the
added ones change. -/
theorem NormalizesTo.directBy_eliminated_writeRules_iff {middle result : Grammar History}
    {rows : List (Symbol × List Symbol)} {limits : Limits}
    (normalizes : (middle.writeRules rows).NormalizesTo limits result)
    (without : middle.sequences = []) (refuses : ∀ rule ∈ middle.rules, rule.admitsElision = false)
    {symbol : Symbol} {word : List Symbol} :
    DirectBy normalizes.eliminated.rules symbol word ↔
      DirectBy middle.rules symbol word ∨
        ThinnedBy (middle.writeRules rows).nullableSymbols (fun lhs rhs => (lhs, rhs) ∈ rows) symbol
          word := by
  have none : (middle.writeRules rows).sequences = [] := by rw [sequences_writeRules, without]
  obtain ⟨added, written, shapes, histories⟩ := exists_rules_writeRules middle rows
  rw [normalizes.eliminates.directBy_iff, (normalizes.expands.eq_of_no_sequences none).1, written]
  constructor
  · rintro ⟨rule, member, rfl, left⟩
    rcases List.mem_append.mp member with before | new
    · rcases left with rfl | ⟨admits, _⟩
      · exact .inl (.rule before)
      · rw [refuses rule before] at admits
        cases admits
    · have inRows : (rule.lhs, rule.rhs) ∈ rows := by
        rw [← shapes]
        exact List.mem_map_of_mem new
      rcases left with rfl | ⟨_, thinned⟩
      · exact .inr ⟨rule.rhs, inRows, .refl _⟩
      · exact .inr ⟨rule.rhs, inRows, thinned.mono fun _ _ nullable =>
          (normalizes.mem_nullableSymbols_expanded_iff none).mp nullable⟩
  · rintro (@⟨rule, before⟩ | ⟨whole, inRows, thinned⟩)
    · exact ⟨rule, List.mem_append_left _ before, rfl, .inl rfl⟩
    · rw [← shapes] at inRows
      obtain ⟨rule, new, same⟩ := List.mem_map.mp inRows
      obtain ⟨rfl, rfl⟩ := Prod.mk.inj same
      obtain ⟨handle, fresh⟩ := histories rule new
      have admits : rule.admitsElision = true := by
        rw [Rule.admitsElision_iff, fresh]
        rfl
      exact ⟨rule, List.mem_append_right _ new, rfl, .inr ⟨admits, thinned.mono fun _ _ nullable =>
        (normalizes.mem_nullableSymbols_expanded_iff none).mpr nullable⟩⟩

/-- What is left of a rule without the symbols that are nullable when the rule is normalized for the
first time: the rules of a grammar at once, and other rules when they have been added. -/
def HasVariant (grammar : Grammar History) (rows : List (Symbol × List Symbol)) (symbol : Symbol)
    (word : List Symbol) : Prop :=
  ThinnedBy grammar.nullableSymbols (DirectBy grammar.rules) symbol word ∧ word ≠ [] ∨
    ThinnedBy (grammar.writeRules rows).nullableSymbols (fun lhs rhs => (lhs, rhs) ∈ rows) symbol
      word ∧ word ≠ []

theorem directBy_writeRules_of_directBy {grammar : Grammar History}
    {rows : List (Symbol × List Symbol)} (symbol : Symbol) (word : List Symbol)
    (step : DirectBy grammar.rules symbol word) :
    DirectBy (grammar.writeRules rows).rules symbol word :=
  directBy_writeRules_iff.mpr (.inl step)

/-- Variants are true to the rules and the added rules together. -/
theorem HasVariant.derives {grammar : Grammar History} {rows : List (Symbol × List Symbol)}
    {symbol : Symbol} {word : List Symbol} (variant : grammar.HasVariant rows symbol word) :
    TracedGrammar.Derives (DirectBy (grammar.writeRules rows).rules) [symbol] word := by
  rcases variant with ⟨thinned, _⟩ | ⟨thinned, _⟩
  · exact thinned.derives directBy_writeRules_of_directBy fun nullable member =>
      (mem_nullableSymbols_iff.mp member).mono directBy_writeRules_of_directBy
  · exact thinned.derives (fun _ _ new => directBy_writeRules_iff.mpr (.inr new))
      fun nullable member => mem_nullableSymbols_iff.mp member

theorem HasVariant.ne_nil {grammar : Grammar History} {rows : List (Symbol × List Symbol)}
    (symbol : Symbol) (word : List Symbol) (variant : grammar.HasVariant rows symbol word) :
    word ≠ [] :=
  variant.elim And.right And.right

/-- What is left of a rule without symbols that are nullable now, but that could not be left before. -/
structure IsNewVariant (grammar extended : Grammar History) (rule : Rule History)
    (rest : List Symbol) : Prop where
  nonempty : rest ≠ []
  thinned : Thinned extended.nullableSymbols rule.rhs rest
  isNew : ¬Thinned grammar.nullableSymbols rule.rhs rest

/-- What new variants derive, the left-hand sides of their rules derive without them. -/
def CoversNewVariants (grammar extended : Grammar History)
    (direct : Symbol → List Symbol → Prop) : Prop :=
  ∀ rule ∈ grammar.rules, ∀ rest, IsNewVariant grammar extended rule rest →
    ∀ word : List Symbol, (∀ other ∈ word, extended.IsTerminal other) →
      TracedGrammar.Derives direct rest word → TracedGrammar.Derives direct [rule.lhs] word

/-- Two normal forms of a grammar derive the same words of terminals, apart from the empty one, by
rules that have a right-hand side. -/
def DerivesAlike (grammar first second : Grammar History) : Prop :=
  ∀ symbol ∈ grammar.supply, ∀ word : List Symbol, word ≠ [] →
    (∀ other ∈ word, grammar.IsTerminal other) →
      (TracedGrammar.Derives (DirectBy first.nonemptyRules) [symbol] word ↔
        TracedGrammar.Derives (DirectBy second.nonemptyRules) [symbol] word)

/-- A derivation with all variants can do without the new ones when they are covered. -/
theorem derives_of_coversNewVariants {grammar : Grammar History}
    {rows : List (Symbol × List Symbol)}
    (covers : grammar.CoversNewVariants (grammar.writeRules rows) (grammar.HasVariant rows))
    {symbols word : List Symbol}
    (derives : TracedGrammar.Derives (fun symbol middle =>
      ThinnedBy (grammar.writeRules rows).nullableSymbols (DirectBy (grammar.writeRules rows).rules)
        symbol middle ∧ middle ≠ []) symbols word)
    (terminal : ∀ other ∈ word, (grammar.writeRules rows).IsTerminal other) :
    TracedGrammar.Derives (grammar.HasVariant rows) symbols word := by
  induction derives with
  | nil => exact .nil
  | keep symbol _ induction =>
      exact .keep symbol (induction fun other member => terminal other (List.mem_cons_of_mem _ member))
  | @expand symbol rest first symbols second step _ _ below later =>
      have under := below fun other member => terminal other (List.mem_append_left _ member)
      have others := later fun other member => terminal other (List.mem_append_right _ member)
      obtain ⟨⟨whole, origin, thinned⟩, nonempty⟩ := step
      rcases directBy_writeRules_iff.mp origin with before | new
      · by_cases old : Thinned grammar.nullableSymbols whole rest
        · exact .expand (.inl ⟨⟨whole, before, old⟩, nonempty⟩) under others
        · -- The derivation goes on below a new variant, so the left-hand side takes over from here.
          obtain ⟨member⟩ := before
          have covered := covers _ member rest ⟨nonempty, thinned, old⟩ first
            (fun other occurs => terminal other (List.mem_append_left _ occurs)) under
          exact covered.append others
      · exact .expand (.inr ⟨⟨whole, new, thinned⟩, nonempty⟩) under others

section Twice

variable {grammar middle stepwise atOnce : Grammar History} {first second whole : Limits}
  {rows : List (Symbol × List Symbol)} (normalizes : grammar.NormalizesTo first middle)
  (without : grammar.sequences = []) (admits : ∀ rule ∈ grammar.rules, rule.admitsElision = true)
  (uses : grammar.UsesAllocated) (allocated : grammar.AllocatesRows rows)
include normalizes without admits uses allocated

/-- Added rules make the same symbols nullable before a normalization and after it. -/
theorem mem_nullableSymbols_writeRules_iff {symbol : Symbol} (old : symbol ∈ grammar.supply) :
    symbol ∈ (middle.writeRules rows).nullableSymbols ↔
      symbol ∈ (grammar.writeRules rows).nullableSymbols := by
  let extra (symbol : Symbol) (word : List Symbol) := (symbol, word) ∈ rows
  have beside : TracedGrammar.Derives (DirectBy (middle.writeRules rows).rules) [symbol] [] ↔
      TracedGrammar.Derives (Beside False middle.rules extra) [symbol] [] :=
    TracedGrammar.Derives.congr fun _ _ => by simp [directBy_writeRules_iff, Beside, extra]
  rw [mem_nullableSymbols_iff, mem_nullableSymbols_iff, beside,
    normalizes.derives_beside_iff without admits uses (fun _ _ => allocated _) (by simpa using old)
      (by simp)]
  constructor
  · apply TracedGrammar.Derives.lift
    rintro other word (⟨thinned, _⟩ | new)
    · exact thinned.derives directBy_writeRules_of_directBy fun nullable member =>
        (mem_nullableSymbols_iff.mp member).mono directBy_writeRules_of_directBy
    · exact .of_direct (directBy_writeRules_iff.mpr (.inr new))
  · apply TracedGrammar.Derives.mono
    intro other word step
    rcases directBy_writeRules_iff.mp step with before | new
    · exact .inl ⟨⟨word, before, .refl word⟩, False.elim⟩
    · exact .inr new

/-- Normalizing in steps leaves each rule with the variants from its own step. -/
theorem derives_stepwise_iff (again : (middle.writeRules rows).NormalizesTo second stepwise)
    (refuses : ∀ rule ∈ middle.rules, rule.admitsElision = false) {symbols word : List Symbol}
    (oldSymbols : ∀ symbol ∈ symbols, symbol ∈ grammar.supply)
    (oldWord : ∀ symbol ∈ word, symbol ∈ grammar.supply) :
    TracedGrammar.Derives (DirectBy stepwise.nonemptyRules) symbols word ↔
      TracedGrammar.Derives (grammar.HasVariant rows) symbols word := by
  have none : (middle.writeRules rows).sequences = [] := by
    rw [sequences_writeRules, normalizes.plain]
  have larger (symbol : Symbol) (old : symbol ∈ grammar.supply) : symbol ∈ middle.supply :=
    normalizes.mem_supply without old
  have laterUses : (middle.writeRules rows).UsesAllocated :=
    (normalizes.usesAllocated uses).writeRules normalizes.plain (allocated.mono larger)
  have later (symbol : Symbol) (old : symbol ∈ grammar.supply) :
      symbol ∈ again.eliminated.supply := by
    rw [again.supply_eliminated none, supply_writeRules]
    exact larger symbol old
  -- The added rules are steps beside those of the first normal form, whose chains can be undone.
  let extra (symbol : Symbol) (word : List Symbol) :=
    ThinnedBy (middle.writeRules rows).nullableSymbols (fun lhs rhs => (lhs, rhs) ∈ rows) symbol
      word ∧ word ≠ []
  have steps : TracedGrammar.Derives (DirectBy again.eliminated.nonemptyRules) symbols word ↔
      TracedGrammar.Derives (Beside True middle.rules extra) symbols word :=
    TracedGrammar.Derives.congr fun symbol word => by
      rw [directBy_nonemptyRules_iff,
        again.directBy_eliminated_writeRules_iff normalizes.plain refuses, or_and_right, Beside,
        true_imp_iff]
  rw [again.derives_nonemptyRules_eliminated_iff laterUses
      (fun symbol member => later symbol (oldSymbols symbol member))
      (fun symbol member => later symbol (oldWord symbol member)), steps,
    normalizes.derives_beside_iff without admits uses
      (fun _ _ step => allocated.mem_of_thinnedBy step.1) oldSymbols oldWord]
  refine TracedGrammar.Derives.congr fun symbol word => ?_
  rw [true_imp_iff, HasVariant]
  refine or_congr_right (and_congr_left fun _ => ThinnedBy.congr fun whole inRows other occurs => ?_)
  exact mem_nullableSymbols_writeRules_iff normalizes without admits uses allocated
    ((allocated _ inRows).2 other occurs)

end Twice

section Both

variable {grammar middle stepwise atOnce : Grammar History} {first second whole : Limits}
  {rows : List (Symbol × List Symbol)} (authored : grammar.Authored fun _ => False)
  (without : grammar.sequences = []) (uses : grammar.UsesAllocated)
  (allocated : grammar.AllocatesRows rows)
include authored without uses allocated

theorem derives_atOnce_iff (together : ((grammar.writeRules rows).normalize whole).result = .ok atOnce)
    {symbol : Symbol} (old : symbol ∈ grammar.supply) {word : List Symbol} (nonempty : word ≠ [])
    (terminal : ∀ other ∈ word, (grammar.writeRules rows).IsTerminal other) :
    TracedGrammar.Derives (DirectBy atOnce.nonemptyRules) [symbol] word ↔
      TracedGrammar.Derives (DirectBy (grammar.writeRules rows).rules) [symbol] word := by
  obtain ⟨normalizes⟩ := exists_normalizesTo together
  exact normalizes.derives_iff (by rw [sequences_writeRules, without])
    (admitsElision_writeRules authored.admitsElision) (uses.writeRules without allocated)
    (by rwa [supply_writeRules]) nonempty terminal

variable (normalized : (grammar.normalize first).result = .ok middle)
  (again : ((middle.writeRules rows).normalize second).result = .ok stepwise)
include normalized again

theorem derives_stepwise_iff_of_normalize {symbols word : List Symbol}
    (oldSymbols : ∀ symbol ∈ symbols, symbol ∈ grammar.supply)
    (terminal : ∀ other ∈ word, (grammar.writeRules rows).IsTerminal other) :
    TracedGrammar.Derives (DirectBy stepwise.nonemptyRules) symbols word ↔
      TracedGrammar.Derives (grammar.HasVariant rows) symbols word := by
  obtain ⟨normalizes⟩ := exists_normalizesTo normalized
  obtain ⟨later⟩ := exists_normalizesTo again
  refine derives_stepwise_iff normalizes without authored.admitsElision uses allocated later
    (isNormal_of_normalize normalized).elided oldSymbols fun other member => ?_
  rw [← supply_writeRules grammar rows]
  exact (terminal other member).1

/-- It makes no difference whether new variants are covered by rules or by variants. -/
theorem coversNewVariants_iff :
    grammar.CoversNewVariants (grammar.writeRules rows) (DirectBy stepwise.nonemptyRules) ↔
      grammar.CoversNewVariants (grammar.writeRules rows) (grammar.HasVariant rows) := by
  refine forall₂_congr fun rule member => forall₂_congr fun rest new =>
    forall₂_congr fun word terminal => ?_
  rw [derives_stepwise_iff_of_normalize authored without uses allocated normalized again
      (fun symbol occurs => uses.rhs_mem rule member symbol (new.thinned.sublist.subset occurs))
      terminal,
    derives_stepwise_iff_of_normalize authored without uses allocated normalized again
      (by simpa using uses.lhs_mem rule member) terminal]

variable (together : ((grammar.writeRules rows).normalize whole).result = .ok atOnce)
include together

theorem derives_atOnce_of_stepwise {symbol : Symbol} (old : symbol ∈ grammar.supply)
    {word : List Symbol} (nonempty : word ≠ [])
    (terminal : ∀ other ∈ word, (grammar.writeRules rows).IsTerminal other)
    (derives : TracedGrammar.Derives (DirectBy stepwise.nonemptyRules) [symbol] word) :
    TracedGrammar.Derives (DirectBy atOnce.nonemptyRules) [symbol] word := by
  rw [derives_stepwise_iff_of_normalize authored without uses allocated normalized again
    (by simpa using old) terminal] at derives
  rw [derives_atOnce_iff authored without uses allocated together old nonempty terminal]
  exact derives.lift fun _ _ variant => variant.derives

theorem derives_stepwise_of_atOnce
    (covers : grammar.CoversNewVariants (grammar.writeRules rows) (grammar.HasVariant rows))
    {symbol : Symbol} (old : symbol ∈ grammar.supply) {word : List Symbol} (nonempty : word ≠ [])
    (terminal : ∀ other ∈ word, (grammar.writeRules rows).IsTerminal other)
    (derives : TracedGrammar.Derives (DirectBy atOnce.nonemptyRules) [symbol] word) :
    TracedGrammar.Derives (DirectBy stepwise.nonemptyRules) [symbol] word := by
  obtain ⟨normalizes⟩ := exists_normalizesTo together
  rw [derives_atOnce_iff authored without uses allocated together old nonempty terminal,
    ← normalizes.derives_thinnedBy_iff (by rw [sequences_writeRules, without])
      (admitsElision_writeRules authored.admitsElision) nonempty] at derives
  rw [derives_stepwise_iff_of_normalize authored without uses allocated normalized again
    (by simpa using old) terminal]
  exact derives_of_coversNewVariants covers derives terminal

theorem coversNewVariants_of_derivesAlike
    (alike : (grammar.writeRules rows).DerivesAlike stepwise atOnce) :
    grammar.CoversNewVariants (grammar.writeRules rows) (DirectBy stepwise.nonemptyRules) := by
  intro rule member rest new word terminal derives
  have lhsOld := uses.lhs_mem rule member
  rw [derives_stepwise_iff_of_normalize authored without uses allocated normalized again
    (fun symbol occurs => uses.rhs_mem rule member symbol (new.thinned.sublist.subset occurs))
    terminal] at derives
  have nonempty : word ≠ [] := derives.ne_nil HasVariant.ne_nil new.nonempty
  have variant : ThinnedBy (grammar.writeRules rows).nullableSymbols
      (DirectBy (grammar.writeRules rows).rules) rule.lhs rest :=
    ⟨rule.rhs, directBy_writeRules_of_directBy _ _ (.rule member), new.thinned⟩
  refine (alike rule.lhs (by rwa [supply_writeRules]) word nonempty terminal).mpr ?_
  rw [derives_atOnce_iff authored without uses allocated together lhsOld nonempty terminal]
  exact (variant.derives (fun _ _ step => step) fun _ => mem_nullableSymbols_iff.mp).trans
    (derives.lift fun _ _ step => step.derives)

/-- The two ways to normalize agree exactly when new variants are covered. -/
theorem derivesAlike_iff :
    (grammar.writeRules rows).DerivesAlike stepwise atOnce ↔
      grammar.CoversNewVariants (grammar.writeRules rows) (DirectBy stepwise.nonemptyRules) := by
  constructor
  · exact coversNewVariants_of_derivesAlike authored without uses allocated normalized again together
  · intro covers symbol old word nonempty terminal
    rw [supply_writeRules] at old
    rw [coversNewVariants_iff authored without uses allocated normalized again] at covers
    exact ⟨derives_atOnce_of_stepwise authored without uses allocated normalized again together old
        nonempty terminal,
      derives_stepwise_of_atOnce authored without uses allocated normalized again together covers old
        nonempty terminal⟩

/-- No variant is new when the added rules make no symbol nullable that a rule has on its right-hand
side. -/
theorem derivesAlike_of_no_newly_nullable
    (settled : ∀ rule ∈ grammar.rules, ∀ symbol ∈ rule.rhs,
      symbol ∈ (grammar.writeRules rows).nullableSymbols → symbol ∈ grammar.nullableSymbols) :
    (grammar.writeRules rows).DerivesAlike stepwise atOnce := by
  rw [derivesAlike_iff authored without uses allocated normalized again together]
  intro rule member rest new
  exact absurd (new.thinned.mono (settled rule member)) new.isNew

end Both

/-- When a grammar without sequences is normalized, gets further rules and is normalized again, every
word that derives in the end also derives when the rules are added first and all are normalized at once.
The converse is true exactly when new variants are covered. -/
theorem normalize_stepwise_iff {grammar middle stepwise atOnce : Grammar History}
    {rows : List (Symbol × List Symbol)} {first second whole : Limits}
    (authored : grammar.Authored fun _ => False) (without : grammar.sequences = [])
    (uses : grammar.UsesAllocated) (allocated : grammar.AllocatesRows rows)
    (normalized : (grammar.normalize first).result = .ok middle)
    (again : ((middle.writeRules rows).normalize second).result = .ok stepwise)
    (together : ((grammar.writeRules rows).normalize whole).result = .ok atOnce) :
    (∀ symbol ∈ grammar.supply, ∀ word : List Symbol, word ≠ [] →
      (∀ other ∈ word, (grammar.writeRules rows).IsTerminal other) →
        TracedGrammar.Derives (DirectBy stepwise.nonemptyRules) [symbol] word →
          TracedGrammar.Derives (DirectBy atOnce.nonemptyRules) [symbol] word) ∧
      ((grammar.writeRules rows).DerivesAlike stepwise atOnce ↔
        grammar.CoversNewVariants (grammar.writeRules rows) (DirectBy stepwise.nonemptyRules)) := by
  constructor
  · intro symbol old word nonempty terminal
    exact derives_atOnce_of_stepwise authored without uses allocated normalized again together old
      nonempty terminal
  · exact derivesAlike_iff authored without uses allocated normalized again together

/-- A pair, of which the first symbol may turn out to be nullable later. -/
def startPair : Grammar History :=
  (({ supply := ⟨3⟩ } : Grammar History).writeRule ⟨0⟩ [⟨1⟩, ⟨2⟩]).2

theorem startPair_authored : startPair.Authored fun _ => False :=
  ⟨⟨3⟩, Relation.ReflTransGen.refl.tail (.rule _ ⟨0⟩ [⟨1⟩, ⟨2⟩])⟩

theorem startPair_usesAllocated : startPair.UsesAllocated where
  lhs_mem := by decide
  rhs_mem := by decide
  sequence_mem := by decide
  letter_mem := by rintro _ ⟨⟩

theorem startPair_allocatesRows :
    startPair.AllocatesRows [(⟨1⟩, [])] ∧ startPair.AllocatesRows [(⟨1⟩, []), (⟨0⟩, [⟨2⟩])] := by
  constructor <;> unfold AllocatesRows <;> decide

theorem thinned_pair_cases {set : SymbolSet} {first second : Symbol} {rest : List Symbol}
    (thinned : Thinned set [first, second] rest) (absent : second ∉ set) :
    rest = [first, second] ∨ first ∈ set ∧ rest = [second] := by
  have last {rest : List Symbol} (thinned : Thinned set [second] rest) : rest = [second] := by
    cases thinned with
    | drop member => exact absurd member absent
    | keep _ later =>
        cases later
        rfl
  cases thinned with
  | keep _ later => exact .inl (congrArg _ (last later))
  | drop member later => exact .inr ⟨member, last later⟩

/-- The first symbol becomes nullable, and what is then left of the pair is added as a rule, too. -/
theorem startPair_normalize_stepwise_iff :
    ∃ middle stepwise atOnce, (startPair.normalize {}).result = .ok middle ∧
      ((middle.writeRules [(⟨1⟩, []), (⟨0⟩, [⟨2⟩])]).normalize {}).result = .ok stepwise ∧
      ((startPair.writeRules [(⟨1⟩, []), (⟨0⟩, [⟨2⟩])]).normalize {}).result = .ok atOnce ∧
      (startPair.writeRules [(⟨1⟩, []), (⟨0⟩, [⟨2⟩])]).DerivesAlike stepwise atOnce := by
  obtain ⟨stepwise, inSteps⟩ := exists_eq_ok (by cbv : ((startPair.normalize {}).result >>=
    fun middle => ((middle.writeRules [(⟨1⟩, []), (⟨0⟩, [⟨2⟩])]).normalize {}).result).toBool = true)
  obtain ⟨middle, normalized, again⟩ := bind_eq_ok_iff.mp inSteps
  obtain ⟨atOnce, together⟩ := exists_eq_ok
    (by cbv : ((startPair.writeRules [(⟨1⟩, []), (⟨0⟩, [⟨2⟩])]).normalize {}).result.toBool = true)
  refine ⟨middle, stepwise, atOnce, normalized, again, together, ?_⟩
  refine (normalize_stepwise_iff startPair_authored rfl startPair_usesAllocated
    startPair_allocatesRows.2 normalized again together).2.mpr ?_
  intro rule member rest new word terminal derives
  obtain rfl := List.mem_singleton.mp member
  have absent : ⟨2⟩ ∉ (startPair.writeRules [(⟨1⟩, []), (⟨0⟩, [⟨2⟩])]).nullableSymbols := by
    rw [SymbolSet.mem_iff, Bool.not_eq_true]
    cbv
  have letter : ∀ other ∈ [(⟨2⟩ : Symbol)],
      (startPair.writeRules [(⟨1⟩, []), (⟨0⟩, [⟨2⟩])]).IsTerminal other := by
    simp only [IsTerminal, IsDefined]
    decide
  have added : TracedGrammar.Derives (DirectBy stepwise.nonemptyRules) [⟨0⟩] [⟨2⟩] := by
    rw [derives_stepwise_iff_of_normalize startPair_authored rfl startPair_usesAllocated
      startPair_allocatesRows.2 normalized again (by decide) letter]
    exact .of_direct (.inr ⟨⟨[⟨2⟩], by decide, .refl _⟩, by decide⟩)
  rcases thinned_pair_cases new.thinned absent with rfl | ⟨_, rfl⟩
  · exact absurd (.refl _) new.isNew
  · exact added.trans derives

/-- Without that rule the second symbol derives only when everything is normalized at once. -/
theorem startPair_not_derivesAlike :
    (startPair.Authored fun _ => False) ∧ startPair.sequences = [] ∧ startPair.UsesAllocated ∧
      startPair.AllocatesRows [(⟨1⟩, [])] ∧
      ∃ middle stepwise atOnce, (startPair.normalize {}).result = .ok middle ∧
        ((middle.writeRules [(⟨1⟩, [])]).normalize {}).result = .ok stepwise ∧
        ((startPair.writeRules [(⟨1⟩, [])]).normalize {}).result = .ok atOnce ∧
        ¬(startPair.writeRules [(⟨1⟩, [])]).DerivesAlike stepwise atOnce := by
  obtain ⟨stepwise, inSteps⟩ := exists_eq_ok (by cbv : ((startPair.normalize {}).result >>=
    fun middle => ((middle.writeRules [(⟨1⟩, [])]).normalize {}).result).toBool = true)
  obtain ⟨middle, normalized, again⟩ := bind_eq_ok_iff.mp inSteps
  obtain ⟨atOnce, together⟩ := exists_eq_ok
    (by cbv : ((startPair.writeRules [(⟨1⟩, [])]).normalize {}).result.toBool = true)
  refine ⟨startPair_authored, rfl, startPair_usesAllocated, startPair_allocatesRows.1, middle, stepwise,
    atOnce, normalized, again, together, fun alike => ?_⟩
  have terminal : ∀ other ∈ [(⟨2⟩ : Symbol)],
      (startPair.writeRules [(⟨1⟩, [])]).IsTerminal other := by
    simp only [IsTerminal, IsDefined]
    decide
  have absent : ⟨1⟩ ∉ startPair.nullableSymbols ∧ ⟨2⟩ ∉ startPair.nullableSymbols := by
    simp only [SymbolSet.mem_iff, Bool.not_eq_true]
    constructor <;> cbv
  have onlyPair (symbol : Symbol) (word : List Symbol)
      (variant : startPair.HasVariant [(⟨1⟩, [])] symbol word) :
      symbol = ⟨0⟩ ∧ word = [⟨1⟩, ⟨2⟩] := by
    rcases variant with ⟨⟨_, ⟨member⟩, thinned⟩, _⟩ | ⟨⟨_, new, thinned⟩, nonempty⟩
    · obtain rfl := List.mem_singleton.mp member
      rcases thinned_pair_cases thinned absent.2 with whole | ⟨impossible, _⟩
      · exact ⟨rfl, whole⟩
      · exact absurd impossible absent.1
    · obtain ⟨rfl, rfl⟩ := Prod.mk.inj (List.mem_singleton.mp new)
      cases thinned
      exact absurd rfl nonempty
  have whole : TracedGrammar.Derives (DirectBy atOnce.nonemptyRules) [⟨0⟩] [⟨2⟩] := by
    rw [derives_atOnce_iff startPair_authored rfl startPair_usesAllocated startPair_allocatesRows.1
      together (by decide) (by decide) terminal]
    have pair : DirectBy (startPair.writeRules [(⟨1⟩, [])]).rules ⟨0⟩ [⟨1⟩, ⟨2⟩] :=
      directBy_writeRules_of_directBy _ _ (.rule (List.mem_singleton_self _))
    have none : DirectBy (startPair.writeRules [(⟨1⟩, [])]).rules ⟨1⟩ [] :=
      directBy_writeRules_iff.mpr (.inr (List.mem_singleton_self _))
    exact (TracedGrammar.Derives.of_direct pair).trans
      ((TracedGrammar.Derives.of_direct none).append (.refl [⟨2⟩]))
  have inParts := (alike ⟨0⟩ (by decide) [⟨2⟩] (by decide) terminal).mpr whole
  rw [derives_stepwise_iff_of_normalize startPair_authored rfl startPair_usesAllocated
    startPair_allocatesRows.1 normalized again (by decide) terminal] at inParts
  rcases TracedGrammar.Derives.singleton_iff.mp inParts with impossible | ⟨_, variant, below⟩
  · simp at impossible
  · obtain ⟨_, rfl⟩ := onlyPair _ _ variant
    obtain ⟨left, right, split, former, _⟩ := below.exists_of_cons
    rcases TracedGrammar.Derives.singleton_iff.mp former with rfl | ⟨_, impossible, _⟩
    · simp at split
    · simpa using (onlyPair _ _ impossible).1

end Grammar

end TracedGrammar
