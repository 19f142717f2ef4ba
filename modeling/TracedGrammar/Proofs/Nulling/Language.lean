import TracedGrammar.Proofs.Closure.Nullable
import TracedGrammar.Proofs.Nulling.Pass

/-!
# What derives without nullable symbols

To leave out symbols of a set is as good as to let them derive nothing.  When the set has exactly the
symbols that derive nothing, the rules with an empty right-hand side are not needed afterwards for
words that are not empty.
-/

namespace TracedGrammar

theorem Thinned.derives {direct : Symbol → List Symbol → Prop} {set : SymbolSet}
    (nullable : ∀ symbol ∈ set, Derives direct [symbol] []) {word rest : List Symbol}
    (thinned : Thinned set word rest) : Derives direct word rest := by
  induction thinned with
  | nil => exact .nil
  | keep symbol _ induction => exact .keep symbol induction
  | drop member _ induction => exact (nullable _ member).append induction

theorem Thinned.nil_of_derives {direct : Symbol → List Symbol → Prop} {set : SymbolSet}
    (complete : ∀ symbol, Derives direct [symbol] [] → symbol ∈ set) {word : List Symbol}
    (derives : Derives direct word []) : Thinned set word [] := by
  induction word with
  | nil => exact .nil
  | cons symbol word induction =>
      obtain ⟨left, right, empty, former, latter⟩ := derives.exists_of_cons
      obtain ⟨rfl, rfl⟩ := List.nil_eq_append_iff.mp empty
      exact .drop (complete symbol former) (induction latter)

namespace Grammar

variable {H : Type}

def nonemptyRules (grammar : Grammar H) : List (Rule H) :=
  grammar.rules.filter fun rule => !rule.isEmpty

theorem directBy_nonemptyRules_iff {grammar : Grammar H} {symbol : Symbol} {word : List Symbol} :
    DirectBy grammar.nonemptyRules symbol word ↔
      DirectBy grammar.rules symbol word ∧ word ≠ [] := by
  constructor
  · rintro ⟨member⟩
    obtain ⟨inRules, nonempty⟩ := List.mem_filter.mp member
    exact ⟨.rule inRules, by simpa [Rule.isEmpty] using nonempty⟩
  · rintro ⟨⟨member⟩, nonempty⟩
    exact .rule (List.mem_filter.mpr ⟨member, by simpa [Rule.isEmpty] using nonempty⟩)

/-- Steps by rules, where an empty right-hand side need not count, and other steps beside them. -/
def Beside (strict : Prop) (rules : List (Rule H)) (extra : Symbol → List Symbol → Prop)
    (symbol : Symbol) (word : List Symbol) : Prop :=
  DirectBy rules symbol word ∧ (strict → word ≠ []) ∨ extra symbol word

variable [RuleHistory H]

def emptyRule (symbol : Symbol) : Rule H :=
  ⟨symbol, [], RuleHistory.blank⟩

/-- The grammar in which the symbols of a set may also stand for nothing. -/
def withEmptyRules (grammar : Grammar H) (set : SymbolSet) : Grammar H :=
  { grammar with rules := grammar.rules ++ set.toList.map emptyRule }

theorem directBy_withEmptyRules_iff {grammar : Grammar H} {set : SymbolSet} {symbol : Symbol}
    {word : List Symbol} :
    DirectBy (grammar.withEmptyRules set).rules symbol word ↔
      DirectBy grammar.rules symbol word ∨ symbol ∈ set ∧ word = [] := by
  constructor
  · rintro ⟨member⟩
    rcases List.mem_append.mp member with inRules | added
    · exact .inl (.rule inRules)
    · obtain ⟨other, inSet, rfl⟩ := List.mem_map.mp added
      exact .inr ⟨SymbolSet.mem_toList.mp inSet, rfl⟩
  · rintro (step | ⟨inSet, rfl⟩)
    · obtain ⟨member⟩ := step
      exact .rule (List.mem_append_left _ member)
    · have added := List.mem_map_of_mem (f := emptyRule (H := H)) (SymbolSet.mem_toList.mpr inSet)
      exact DirectBy.rule (List.mem_append_right grammar.rules added)

variable {grammar result : Grammar H} {nullable : SymbolSet}
  {blocks : List (List (Rule H))}

namespace EliminatesTo

variable (eliminates : grammar.EliminatesTo result nullable blocks)
include eliminates

theorem derives_of_derives {direct : Symbol → List Symbol → Prop}
    (steps : ∀ symbol middle, DirectBy grammar.rules symbol middle → direct symbol middle)
    (sound : ∀ symbol ∈ nullable, TracedGrammar.Derives direct [symbol] [])
    {symbols word : List Symbol}
    (derives : TracedGrammar.Derives (DirectBy result.rules) symbols word) :
    TracedGrammar.Derives direct symbols word := by
  apply derives.lift
  rintro symbol middle ⟨member⟩
  obtain ⟨rule, inRules, same, thinned, _⟩ := eliminates.exists_thinned member
  rw [same]
  exact (TracedGrammar.Derives.of_direct (steps _ _ (.rule inRules))).trans (thinned.derives sound)

/-- What could be derived when the symbols of the set also stand for nothing can be derived after some
of them have been left out.  Those that are left do not give way to nothing. -/
theorem exists_thinned_of_derives
    (admits : ∀ rule ∈ grammar.rules, rule.admitsElision = true) {symbols word : List Symbol}
    (derives : TracedGrammar.Derives (DirectBy (grammar.withEmptyRules nullable).rules) symbols
      word) :
    ∃ rest, Thinned nullable symbols rest ∧
      TracedGrammar.Derives (fun symbol middle => DirectBy result.rules symbol middle ∧
        (symbol ∈ nullable → middle ≠ [])) rest word := by
  induction derives with
  | nil => exact ⟨[], .nil, .nil⟩
  | keep symbol _ induction =>
      obtain ⟨rest, thinned, derives⟩ := induction
      exact ⟨symbol :: rest, .keep symbol thinned, .keep symbol derives⟩
  | @expand symbol middle first symbols second step under later below above =>
      obtain ⟨rest, thinned, derives⟩ := above
      by_cases left : symbol ∈ nullable ∧ first = []
      · obtain ⟨member, rfl⟩ := left
        exact ⟨rest, .drop member thinned, derives⟩
      · obtain ⟨inner, thinnedBelow, derivesBelow⟩ := below
        have nonempty (member : symbol ∈ nullable) : inner ≠ [] := by
          rintro rfl
          exact left ⟨member, derivesBelow.eq_nil_of_nil⟩
        rcases directBy_withEmptyRules_iff.mp step with own | ⟨member, rfl⟩
        · obtain ⟨inRules⟩ := own
          obtain ⟨elision, variant⟩ :=
            eliminates.exists_variant inRules (admits _ inRules) thinnedBelow
          have direct := DirectBy.rule variant
          exact ⟨_, .keep _ thinned, .expand ⟨direct, nonempty⟩ derivesBelow derives⟩
        · exact absurd ⟨member, under.eq_nil_of_nil⟩ left

/-- A symbol outside the set stays, and so does one that derives something. -/
theorem derives_of_derives_withEmptyRules
    (admits : ∀ rule ∈ grammar.rules, rule.admitsElision = true) {symbol : Symbol}
    {word : List Symbol} (stays : word = [] → symbol ∉ nullable)
    (derives : TracedGrammar.Derives (DirectBy (grammar.withEmptyRules nullable).rules) [symbol]
      word) :
    TracedGrammar.Derives (fun symbol middle => DirectBy result.rules symbol middle ∧
      (symbol ∈ nullable → middle ≠ [])) [symbol] word := by
  obtain ⟨rest, thinned, derives⟩ := eliminates.exists_thinned_of_derives admits derives
  cases thinned with
  | keep _ later =>
      cases later
      exact derives
  | drop member later =>
      cases later
      exact absurd member (stays derives.eq_nil_of_nil)

/-- Words that are not empty derive as before, and without empty right-hand sides. -/
theorem derives_nonemptyRules_iff
    (admits : ∀ rule ∈ grammar.rules, rule.admitsElision = true)
    (exact : ∀ symbol, symbol ∈ nullable ↔
      TracedGrammar.Derives (DirectBy grammar.rules) [symbol] [])
    {symbol : Symbol} {word : List Symbol} (nonempty : word ≠ []) :
    TracedGrammar.Derives (DirectBy result.nonemptyRules) [symbol] word ↔
      TracedGrammar.Derives (DirectBy grammar.rules) [symbol] word := by
  constructor
  · intro derives
    refine eliminates.derives_of_derives (fun _ _ step => step) (fun other => (exact other).mp)
      (derives.mono ?_)
    intro other middle step
    exact (directBy_nonemptyRules_iff.mp step).1
  · intro derives
    refine (eliminates.derives_of_derives_withEmptyRules admits
      (fun empty => absurd empty nonempty) (derives.mono fun _ _ step =>
        directBy_withEmptyRules_iff.mpr (.inl step))).mono ?_
    rintro other middle ⟨step, keeps⟩
    refine directBy_nonemptyRules_iff.mpr ⟨step, ?_⟩
    rintro rfl
    refine keeps ((exact other).mpr ?_) rfl
    exact eliminates.derives_of_derives (fun _ _ step => step) (fun other => (exact other).mp)
      (.of_direct step)

end EliminatesTo

end Grammar

end TracedGrammar
