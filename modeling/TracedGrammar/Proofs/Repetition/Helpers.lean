import TracedGrammar.Proofs.Repetition.Descent
import TracedGrammar.Proofs.Repetition.Solution

/-!
# What helper symbols stand for

A helper symbol stands for the words of its repetition.  Where its productions can be used, it
derives all of them; and its productions are true when it is read that way.
-/

namespace TracedGrammar

namespace Part

variable {symbolOf : Repetition → Symbol} {lhs : Symbol}

theorem word_symbolIn {meaning : Interpretation} {row : List Part}
    (letters : ∀ letter, .symbol letter ∈ row → meaning letter = {[letter]}) :
    meaning.word (row.map (symbolIn symbolOf lhs)) =
      rowReading (meaning lhs) (fun repetition => meaning (symbolOf repetition)) row := by
  induction row with
  | nil => rfl
  | cons part row induction =>
      have rest := induction fun letter inside => letters letter (List.mem_cons_of_mem _ inside)
      rw [List.map_cons, Interpretation.word_cons, rest]
      cases part with
      | symbol letter =>
          rw [symbolIn, letters letter List.mem_cons_self]
          rfl
      | self => rfl
      | nested repetition => rfl

/-- Symbols written for the parts of a row derive what the parts stand for. -/
theorem derives_symbolIn {direct : Symbol → List Symbol → Prop} {whole : Language Symbol}
    {smaller : Repetition → Language Symbol} {row : List Part}
    (self : ∀ word ∈ whole, Derives direct [lhs] word)
    (nested : ∀ repetition ∈ nestedIn row, ∀ word ∈ smaller repetition,
      Derives direct [symbolOf repetition] word)
    {word : List Symbol} (inside : word ∈ rowReading whole smaller row) :
    Derives direct (row.map (symbolIn symbolOf lhs)) word := by
  induction row generalizing word with
  | nil =>
      rw [show word = [] from inside]
      exact .nil
  | cons part row induction =>
      obtain ⟨first, inFirst, second, inSecond, rfl⟩ := mem_rowReading_cons.mp inside
      have later : Derives direct (row.map (symbolIn symbolOf lhs)) second := by
        refine induction (fun repetition member => nested repetition ?_) inSecond
        cases part with
        | symbol letter => exact member
        | self => exact member
        | nested other => exact List.mem_cons_of_mem _ member
      have former : Derives direct [part.symbolIn symbolOf lhs] first := by
        cases part with
        | symbol letter =>
            rw [show first = [letter] from inFirst]
            exact .refl [letter]
        | self => exact self first inFirst
        | nested repetition => exact nested repetition List.mem_cons_self first inFirst
      exact former.append later

end Part

namespace Repetition.Layout

variable {repetition : Repetition} {lhs : Symbol} {supply : SymbolSupply}
  {symbolOf : Repetition → Symbol} {order : List Repetition}

/-- The symbol whose productions write a repetition: the defined one or a helper. -/
inductive Writes (repetition : Repetition) (lhs : Symbol) (symbolOf : Repetition → Symbol)
    (order : List Repetition) : Bool → Symbol → Repetition → Prop
  | top : Writes repetition lhs symbolOf order true lhs repetition
  | helper {other : Repetition} (member : other ∈ order) :
      Writes repetition lhs symbolOf order false (symbolOf other) other

theorem mem_productions_iff (layout : repetition.Layout lhs supply symbolOf order)
    {production : Production} :
    production ∈ (repetition.expand lhs supply).1 ↔
      ∃ top symbol written, Writes repetition lhs symbolOf order top symbol written ∧
        ∃ row ∈ written.alternatives, Production.ofRow symbolOf symbol top row = production := by
  rw [layout.productions_eq]
  simp only [List.mem_append, List.mem_flatMap, List.mem_map]
  constructor
  · rintro (⟨row, member, rfl⟩ | ⟨other, inOrder, row, member, rfl⟩)
    · exact ⟨true, lhs, repetition, .top, row, member, rfl⟩
    · exact ⟨false, symbolOf other, other, .helper inOrder, row, member, rfl⟩
  · rintro ⟨top, symbol, written, writes, row, member, rfl⟩
    cases writes with
    | top => exact .inl ⟨row, member, rfl⟩
    | helper inOrder => exact .inr ⟨written, inOrder, row, member, rfl⟩

theorem mem_order_of_writes (layout : repetition.Layout lhs supply symbolOf order) {top : Bool}
    {symbol : Symbol} {written : Repetition}
    (writes : Writes repetition lhs symbolOf order top symbol written) {row : List Part}
    (member : row ∈ written.alternatives) {child : Repetition}
    (nested : child ∈ Part.nestedIn row) : child ∈ order := by
  refine layout.children_mem written ?_ child (List.mem_flatMap.mpr ⟨row, member, nested⟩)
  cases writes with
  | top => exact .inl rfl
  | helper inOrder => exact .inr inOrder

theorem isLetter_of_writes (layout : repetition.Layout lhs supply symbolOf order)
    (valid : repetition.IsValid) {top : Bool} {symbol : Symbol} {written : Repetition}
    (writes : Writes repetition lhs symbolOf order top symbol written) {row : List Part}
    (member : row ∈ written.alternatives) {letter : Symbol} (inside : .symbol letter ∈ row) :
    repetition.IsLetter letter := by
  have own := letter_of_mem_alternatives member inside
  cases writes with
  | top => exact own
  | helper inOrder =>
      have part := isPartOf_of_isDescendant valid (layout.descends _ inOrder)
      rwa [IsLetter, part.item_eq, part.symbol_eq] at own

theorem helper_id (layout : repetition.Layout lhs supply symbolOf order) {other : Repetition}
    (member : other ∈ order) : supply.allocated ≤ (symbolOf other).id ∧
      (symbolOf other).id < (repetition.expand lhs supply).2.allocated := by
  have inRange := layout.symbols.mem_iff.mp (List.mem_map_of_mem member)
  rw [List.mem_range'_1] at inRange
  rw [layout.allocated_eq]
  exact inRange

theorem helper_not_mem (layout : repetition.Layout lhs supply symbolOf order) {other : Repetition}
    (member : other ∈ order) : symbolOf other ∉ supply := by
  have fresh := (layout.helper_id member).1
  rw [SymbolSupply.mem_iff]
  omega

theorem eq_of_symbolOf_eq (layout : repetition.Layout lhs supply symbolOf order)
    {first second : Repetition} (inFirst : first ∈ order) (inSecond : second ∈ order)
    (same : symbolOf first = symbolOf second) : first = second := by
  have distinct := layout.symbols.nodup_iff.mpr List.nodup_range'
  exact List.inj_on_of_nodup_map distinct inFirst inSecond (congrArg Symbol.id same)

theorem derives_of_mem (layout : repetition.Layout lhs supply symbolOf order)
    {direct : Symbol → List Symbol → Prop}
    (steps : ∀ production ∈ (repetition.expand lhs supply).1,
      direct production.lhs production.rhs) {top : Bool} {symbol : Symbol} {written : Repetition}
    (writes : Writes repetition lhs symbolOf order top symbol written) {word : List Symbol}
    (inside : word ∈ written) : Derives direct [symbol] word := by
  let meaning (other : Repetition) := wordsWhere fun derived => ∀ top symbol,
    Writes repetition lhs symbolOf order top symbol other → Derives direct [symbol] derived
  have closed (other : Repetition) (row : List Part) (member : row ∈ other.alternatives) :
      Part.rowReading (meaning other) meaning row ≤ meaning other := by
    rw [language_le_iff]
    intro derived reading top symbol writes
    have step := steps _ (layout.mem_productions_iff.mpr
      ⟨top, symbol, other, writes, row, member, rfl⟩)
    have below : Derives direct (row.map (Part.symbolIn symbolOf symbol)) derived := by
      refine Part.derives_symbolIn ?_ ?_ reading
      · intro word inWhole
        exact inWhole top symbol writes
      · intro child nested word inChild
        exact inChild false _ (.helper (layout.mem_order_of_writes writes member nested))
    exact (Derives.of_direct step).trans below
  exact language_le_of_closed closed written inside top symbol writes

/-- The productions for a repetition are true when helpers are read as their words and the symbol
whose production it is contains them. -/
theorem word_rhs_le (layout : repetition.Layout lhs supply symbolOf order)
    (valid : repetition.IsValid) {meaning : Interpretation}
    (helpers : ∀ other ∈ order, meaning (symbolOf other) = other.language)
    (letters : ∀ letter, repetition.IsLetter letter → meaning letter = {[letter]})
    {top : Bool} {symbol : Symbol} {written : Repetition}
    (writes : Writes repetition lhs symbolOf order top symbol written) {row : List Part}
    (member : row ∈ written.alternatives)
    (self : .self ∈ row → meaning symbol = written.language) :
    meaning.word (row.map (Part.symbolIn symbolOf symbol)) ≤ written.language := by
  have writtenValid : written.IsValid := by
    cases writes with
    | top => exact valid
    | helper inOrder =>
        exact (isPartOf_of_isDescendant valid (layout.descends _ inOrder)).valid
  rw [Part.word_symbolIn fun letter inside =>
    letters letter (layout.isLetter_of_writes valid writes member inside)]
  refine le_trans (Part.rowReading_mono (fun recursive => (self recursive).le) ?_)
    (rowReading_le writtenValid member)
  intro child nested
  exact (helpers child (layout.mem_order_of_writes writes member nested)).le

end Repetition.Layout

end TracedGrammar
