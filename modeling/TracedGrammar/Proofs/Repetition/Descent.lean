import TracedGrammar.Proofs.Repetition.Mentions
import TracedGrammar.Proofs.Repetition.Solution

/-!
# What alternatives are made of

Everything that comes up while a repetition is written has the same item and the same separator, and
asks for a number of items that is possible and not zero.  The symbols of an alternative are items
and separators.  A repetition is written with itself in one case only: it is unbounded, starts from
none or one item, and has at most separators between items.  Then one of its alternatives adds an
item to a word that is there.
-/

namespace TracedGrammar

namespace Repetition

/-- One repetition can come up in the expansion of another. -/
structure IsPartOf (part whole : Repetition) : Prop where
  item_eq : part.item = whole.item
  symbol_eq : part.separator.symbol? = whole.separator.symbol?
  positive : part.least ≠ 0
  valid : part.IsValid

@[simp]
theorem symbol?_leading (separator : Separator) :
    separator.leading.symbol? = separator.symbol? := by
  cases separator <;> rfl

theorem symbol?_tight (separator : Separator) :
    separator.tight.symbol? = separator.symbol? := by
  cases separator <;> rfl

theorem isPartOf_exactly (repetition : Repetition) {count : Nat} (enough : count ≠ 0) :
    (repetition.exactly count).IsPartOf repetition :=
  ⟨rfl, rfl, enough, fun _ found => Nat.le_of_eq (Option.some.inj found)⟩

theorem isPartOf_leading_exactly (repetition : Repetition) {count : Nat} (enough : count ≠ 0) :
    (repetition.exactly count).leading.IsPartOf repetition :=
  ⟨rfl, symbol?_leading _, enough, fun _ found => Nat.le_of_eq (Option.some.inj found)⟩

theorem isPartOf_between_one (repetition : Repetition) {most : Option Nat} (enough : most ≠ some 0) :
    (repetition.between 1 most).IsPartOf repetition := by
  refine ⟨rfl, rfl, one_ne_zero, fun greatest found => Nat.one_le_iff_ne_zero.mpr ?_⟩
  rintro rfl
  exact enough found

theorem isPartOf_of_mentions {parent child : Repetition} (valid : parent.IsValid)
    (mentions : parent.Mentions child) : child.IsPartOf parent := by
  have half {count : Nat} (many : 3 ≤ count) : halfPower count ≠ 0 ∧ count - halfPower count ≠ 0 := by
    have positive := halfPower_pos count
    have small := halfPower_lt (Nat.le_of_succ_le many)
    omega
  cases mentions with
  | positive zero some => exact isPartOf_between_one parent some
  | tight positive loose => exact ⟨rfl, symbol?_tight _, positive, valid⟩
  | trailing positive liberal => exact ⟨rfl, by rw [liberal]; rfl, positive, valid⟩
  | either simple one two few => exact isPartOf_exactly parent (by omega)
  | lower simple one bounded many =>
      exact isPartOf_between_one parent (mt Option.some.inj (half many).1)
  | upper simple one bounded many =>
      exact isPartOf_between_one parent (mt Option.some.inj (half many).2)
  | block simple fixed bounded many => exact isPartOf_leading_exactly parent (half many).1
  | rest simple fixed bounded many => exact isPartOf_exactly parent (half many).2
  | start simple several unfixed => exact isPartOf_leading_exactly parent (by omega)
  | span simple several unfixed =>
      apply isPartOf_between_one
      cases parent.most with
      | none => exact nofun
      | some most => exact mt Option.some.inj (Nat.succ_ne_zero _)

theorem isPartOf_of_isChild {repetition child : Repetition} (valid : repetition.IsValid)
    (member : child.IsChild repetition) : child.IsPartOf repetition :=
  isPartOf_of_mentions valid (mentions_of_isChild member)

theorem IsPartOf.trans {part middle whole : Repetition} (first : part.IsPartOf middle)
    (second : middle.IsPartOf whole) : part.IsPartOf whole :=
  ⟨first.item_eq.trans second.item_eq, first.symbol_eq.trans second.symbol_eq, first.positive,
    first.valid⟩

theorem isPartOf_of_isDescendant {repetition other : Repetition} (valid : repetition.IsValid)
    (descends : other.IsDescendant repetition) : other.IsPartOf repetition := by
  induction descends using Relation.TransGen.head_induction_on with
  | single child => exact isPartOf_of_isChild valid child
  | head child _ induction => exact (isPartOf_of_isChild induction.valid child).trans induction

/-- Whether one of the alternatives adds an item to a word of the same repetition. -/
def IsRecursive (repetition : Repetition) : Prop :=
  repetition.most = none ∧
    (repetition.least = 0 ∧ repetition.separator = .absent ∨
      repetition.least = 1 ∧
        (repetition.separator = .absent ∨ ∃ symbol, repetition.separator = .proper symbol))

/-- A row that adds an item to a word of the same repetition, or one without that repetition. -/
def IsStepOrPlain (repetition : Repetition) (row : List Part) : Prop :=
  (repetition.IsRecursive ∧ row = .self :: repetition.step.map .symbol) ∨ .self ∉ row

theorem isStepOrPlain_of_mem_runs {repetition : Repetition}
    (simple : repetition.separator = .absent ∨ ∃ symbol, repetition.separator = .proper symbol)
    {row : List Part} (member : row ∈ repetition.runs repetition.separator.glue) :
    repetition.IsStepOrPlain row := by
  simp only [runs] at member
  split at member
  · rename_i one
    split at member
    · rename_i unbounded
      simp only [List.mem_cons, List.not_mem_nil, or_false] at member
      rcases member with rfl | rfl
      · exact .inr (by simp)
      · exact .inl ⟨⟨unbounded, .inr ⟨one, simple⟩⟩, by simp [step]⟩
    · split at member
      · simp only [List.mem_singleton] at member
        exact .inr (by simp [member])
      · split at member
        · simp only [List.mem_cons, List.not_mem_nil, or_false] at member
          rcases member with rfl | rfl <;> exact .inr (by simp)
        · simp only [List.mem_cons, List.not_mem_nil, or_false] at member
          rcases member with rfl | rfl <;> exact .inr (by simp)
  · split at member
    · split at member
      · simp only [List.mem_singleton] at member
        exact .inr (by simp [member])
      · simp only [List.mem_singleton] at member
        exact .inr (by simp [member])
    · simp only [List.mem_singleton] at member
      exact .inr (by simp [member])

theorem isStepOrPlain_of_mem_alternatives {repetition : Repetition} {row : List Part}
    (member : row ∈ repetition.alternatives) : repetition.IsStepOrPlain row := by
  unfold alternatives at member
  split at member
  · rename_i zero
    split at member
    · simp only [List.mem_singleton] at member
      exact .inr (by simp [member])
    · split at member
      · rename_i star
        simp only [List.mem_cons, List.not_mem_nil, or_false] at member
        rcases member with rfl | rfl
        · exact .inr (by simp)
        · refine .inl ⟨⟨star.1, .inl ⟨zero, star.2⟩⟩, ?_⟩
          simp [step, star.2, Separator.glue, Separator.symbol?]
      · simp only [List.mem_cons, List.not_mem_nil, or_false] at member
        rcases member with rfl | rfl <;> exact .inr (by simp)
  · cases found : repetition.separator with
    | absent =>
        rw [found] at member
        apply isStepOrPlain_of_mem_runs (.inl found)
        rwa [found]
    | proper symbol =>
        rw [found] at member
        apply isStepOrPlain_of_mem_runs (.inr ⟨symbol, found⟩)
        rwa [found]
    | trailing symbol =>
        simp only [found, List.mem_singleton] at member
        exact .inr (by simp [member])
    | liberal symbol =>
        simp only [found, List.mem_cons, List.not_mem_nil, or_false] at member
        rcases member with rfl | rfl <;> exact .inr (by simp)

theorem step_mem_alternatives {repetition : Repetition} (recursive : repetition.IsRecursive) :
    .self :: repetition.step.map .symbol ∈ repetition.alternatives := by
  obtain ⟨unbounded, ⟨zero, absent⟩ | ⟨one, absent | ⟨symbol, proper⟩⟩⟩ := recursive
  · simp [alternatives, zero, unbounded, absent, step, Separator.glue, Separator.symbol?]
  · simp [alternatives, runs, one, unbounded, absent, step, Separator.glue, Separator.symbol?]
  · simp [alternatives, runs, one, unbounded, proper, step, Separator.glue, Separator.symbol?]

theorem append_step_mem {repetition : Repetition} (recursive : repetition.IsRecursive)
    {word : List Symbol} (member : word ∈ repetition) : word ++ repetition.step ∈ repetition := by
  have valid : repetition.IsValid := by
    intro most bounded
    rw [recursive.1] at bounded
    cases bounded
  apply rowReading_le valid (step_mem_alternatives recursive)
  exact Part.mem_rowReading_cons.mpr
    ⟨word, member, repetition.step, Part.mem_rowReading_symbols.mpr rfl, rfl⟩

/-- The symbols of the words of a repetition: its item and its separator. -/
def IsLetter (repetition : Repetition) (symbol : Symbol) : Prop :=
  symbol = repetition.item ∨ repetition.separator.symbol? = some symbol

theorem isLetter_of_mem_step {repetition : Repetition} {symbol : Symbol}
    (member : symbol ∈ repetition.step) : repetition.IsLetter symbol := by
  rcases List.mem_append.mp member with inGlue | isItem
  · exact .inr (Option.mem_toList.mp inGlue)
  · exact .inl (List.mem_singleton.mp isItem)

theorem isLetter_of_mem {repetition : Repetition} {word : List Symbol} (written : word ∈ repetition)
    {symbol : Symbol} (member : symbol ∈ word) : repetition.IsLetter symbol := by
  obtain ⟨_, _, inWords⟩ := written
  exact Separator.mem_of_mem_words inWords member

theorem letter_of_mem_runs {repetition : Repetition} {glue : List Symbol} {row : List Part}
    {letter : Symbol} (member : row ∈ repetition.runs glue) (inside : .symbol letter ∈ row) :
    letter = repetition.item ∨ letter ∈ glue := by
  simp only [runs] at member
  (repeat' split at member) <;> grind

theorem letter_of_mem_alternatives {repetition : Repetition} {row : List Part} {letter : Symbol}
    (member : row ∈ repetition.alternatives) (inside : .symbol letter ∈ row) :
    repetition.IsLetter letter := by
  unfold alternatives at member
  unfold IsLetter
  split at member
  · (repeat' split at member) <;> grind
  · cases found : repetition.separator with
    | absent =>
        rw [found] at member
        exact .inl ((letter_of_mem_runs member inside).resolve_right (by simp))
    | proper symbol =>
        rw [found] at member
        exact (letter_of_mem_runs member inside).imp_right fun glued => by
          rw [List.mem_singleton.mp glued]
          rfl
    | trailing symbol =>
        simp only [found, List.mem_singleton] at member
        simp_all [Separator.symbol?]
    | liberal symbol =>
        simp only [found, List.mem_cons, List.not_mem_nil, or_false] at member
        rcases member with rfl | rfl <;> simp_all

end Repetition

end TracedGrammar
