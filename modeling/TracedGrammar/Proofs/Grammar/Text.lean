import TracedGrammar.Grammar.Text

/-!
# Reading a grammar back

In the text of a grammar, every line is a rule, and the numbers of a line are its runs of digits.  A
reader that takes notice of nothing else gets the shapes of all rules back, in order.  So grammars are
written alike only if their rules have the same shapes.
-/

namespace TracedGrammar

/-- The shape of a rule, without its history. -/
def Rule.shape {H : Type} (rule : Rule H) : Symbol × List Symbol :=
  (rule.lhs, rule.rhs)

/-- What has been read of a text: the shapes on the lines that are complete, the symbols on the line
that is not, and the number of which some digits have been read. -/
structure TextReader where
  shapes : List (Symbol × List Symbol) := []
  line : List Symbol := []
  number : Option Nat := none
deriving DecidableEq, Repr

namespace TextReader

def readDigit (reader : TextReader) (digit : Char) : TextReader :=
  { reader with
    number := some (10 * reader.number.getD 0 + (digit.toNat - '0'.toNat)) }

def endNumber (reader : TextReader) : TextReader :=
  { reader with
    line := reader.line ++ (reader.number.map Symbol.mk).toList
    number := none }

/-- Ends a line, of which the first symbol is the left-hand side. -/
def endLine (reader : TextReader) : TextReader :=
  match reader.line with
  | [] => reader
  | lhs :: rhs => { reader with shapes := reader.shapes ++ [(lhs, rhs)], line := [] }

def readChar (reader : TextReader) (char : Char) : TextReader :=
  if char.isDigit then reader.readDigit char
  else if char = '\n' then reader.endNumber.endLine
  else reader.endNumber

def read (reader : TextReader) (text : List Char) : TextReader :=
  text.foldl readChar reader

/-- A character that only separates numbers. -/
def IsMark (char : Char) : Prop :=
  char.isDigit = false ∧ char ≠ '\n'

instance (char : Char) : Decidable (IsMark char) :=
  inferInstanceAs (Decidable (_ ∧ _))

@[simp]
theorem endNumber_endNumber (reader : TextReader) :
    reader.endNumber.endNumber = reader.endNumber := by
  simp [endNumber]

@[simp]
theorem read_append (reader : TextReader) (first second : List Char) :
    reader.read (first ++ second) = (reader.read first).read second :=
  List.foldl_append

theorem readChar_mark (reader : TextReader) {char : Char} (mark : IsMark char) :
    reader.readChar char = reader.endNumber := by
  rw [readChar, if_neg (by simp [mark.1]), if_neg mark.2]

/-- Any number of marks does what the first one does. -/
theorem read_marks (reader : TextReader) {marks : List Char} (present : marks ≠ [])
    (all : ∀ char ∈ marks, IsMark char) : reader.read marks = reader.endNumber := by
  induction marks generalizing reader with
  | nil => exact absurd rfl present
  | cons mark marks induction =>
      obtain ⟨first, rest⟩ := List.forall_mem_cons.mp all
      change (reader.readChar mark).read marks = _
      rw [readChar_mark reader first]
      cases marks with
      | nil => rfl
      | cons second marks => rw [induction _ (List.cons_ne_nil _ _) rest, endNumber_endNumber]

/-- More digits continue a number. -/
theorem read_digits (reader : TextReader) (value : Nat) {digits : List Char}
    (all : ∀ char ∈ digits, char.isDigit = true) :
    { reader with number := some value }.read digits =
      { reader with number := some (Nat.ofDigitChars 10 digits value) } := by
  induction digits generalizing value with
  | nil => rfl
  | cons digit digits induction =>
      obtain ⟨first, rest⟩ := List.forall_mem_cons.mp all
      change ({ reader with number := some value }.readChar digit).read digits = _
      rw [readChar, if_pos first, Nat.ofDigitChars_cons]
      exact induction _ rest

theorem read_symbol (reader : TextReader) (between : reader.number = none) (symbol : Symbol) :
    reader.read symbol.digits.toList = { reader with number := some symbol.id } := by
  have isDigit (char : Char) (member : char ∈ Nat.toDigits 10 symbol.id) : char.isDigit = true :=
    Nat.isDigit_of_mem_toDigits (by decide) (by decide) member
  have value : Nat.ofDigitChars 10 (Nat.toDigits 10 symbol.id) 0 = symbol.id :=
    Nat.ofDigitChars_ten_toDigits
  have written : symbol.digits.toList = Nat.toDigits 10 symbol.id := Nat.toList_repr
  rw [written]
  cases digits : Nat.toDigits 10 symbol.id with
  | nil => exact absurd digits Nat.toDigits_ne_nil
  | cons digit digits' =>
      rw [digits] at isDigit value
      obtain ⟨first, rest⟩ := List.forall_mem_cons.mp isDigit
      change (reader.readChar digit).read digits' = _
      rw [readChar, if_pos first, readDigit, between, Option.getD_none, read_digits _ _ rest,
        ← Nat.ofDigitChars_cons, value]

/-- Reading a right-hand side adds its symbols to the line. -/
theorem endNumber_read_rhs (reader : TextReader) (between : reader.number = none)
    (rhs : List Symbol) :
    (reader.read (" ~ ".toList.intercalate (rhs.map fun symbol => symbol.digits.toList))).endNumber =
      { reader with line := reader.line ++ rhs } := by
  induction rhs generalizing reader with
  | nil => simp [read, endNumber, between]
  | cons symbol rhs induction =>
      have first : (reader.read symbol.digits.toList).endNumber =
          { reader with line := reader.line ++ [symbol] } := by
        rw [read_symbol reader between]
        simp [endNumber, between]
      cases rhs with
      | nil => simpa using first
      | cons second rhs =>
          have separator (reader : TextReader) : reader.read " ~ ".toList = reader.endNumber :=
            read_marks reader (by decide) (by simp [IsMark])
          have later := induction { reader with line := reader.line ++ [symbol] } between
          rw [List.map_cons] at later
          rw [List.map_cons, List.map_cons, List.intercalate_cons_cons, read_append, read_append,
            separator, first, later, List.append_assoc]
          rfl

/-- A reader at the start of a line. -/
def startLine (shapes : List (Symbol × List Symbol)) : TextReader :=
  { shapes }

/-- The text of a rule is read as a line with its shape. -/
theorem read_rule {H : Type} (shapes : List (Symbol × List Symbol)) (rule : Rule H) :
    (startLine shapes).read rule.text.toList = startLine (shapes ++ [rule.shape]) := by
  have arrow (reader : TextReader) : reader.read " ::= ".toList = reader.endNumber :=
    read_marks reader (by decide) (by simp [IsMark])
  have empty (reader : TextReader) : reader.read "()".toList = reader.endNumber :=
    read_marks reader (by decide) (by simp [IsMark])
  have close (reader : TextReader) : reader.read ";\n".toList = reader.endNumber.endLine := by
    change (reader.endNumber).endNumber.endLine = _
    rw [endNumber_endNumber]
  have lhs : ((startLine shapes).read rule.lhs.digits.toList).endNumber =
      { shapes, line := [rule.lhs] } := by
    rw [read_symbol _ rfl]
    rfl
  have rhs : (TextReader.read { shapes, line := [rule.lhs] } rule.rhsText.toList).endNumber =
      { shapes, line := rule.lhs :: rule.rhs } := by
    unfold Rule.rhsText
    split
    · rename_i isEmpty
      rw [empty, endNumber_endNumber, List.isEmpty_iff.mp isEmpty]
      rfl
    · rw [String.toList_intercalate, List.map_map]
      exact endNumber_read_rhs _ rfl rule.rhs
  rw [Rule.text, String.toList_append, String.toList_append, String.toList_append, read_append,
    read_append, read_append, arrow, lhs, close, rhs]
  rfl

theorem read_rules {H : Type} (shapes : List (Symbol × List Symbol)) (rules : List (Rule H)) :
    (startLine shapes).read (rules.flatMap fun rule => rule.text.toList) =
      startLine (shapes ++ rules.map Rule.shape) := by
  induction rules generalizing shapes with
  | nil => rw [List.map_nil, List.append_nil]; rfl
  | cons rule rules induction =>
      rw [List.flatMap_cons, read_append, read_rule, induction, List.append_assoc]
      rfl

end TextReader

namespace Grammar

/-- The shapes of the rules, in order. -/
def shapes {H : Type} (grammar : Grammar H) : List (Symbol × List Symbol) :=
  grammar.rules.map Rule.shape

/-- The shapes of the rules of which a text is written. -/
def shapesOfText (text : String) : List (Symbol × List Symbol) :=
  (TextReader.read {} text.toList).shapes

variable {H K : Type}

theorem shapesOfText_text (grammar : Grammar H) : shapesOfText grammar.text = grammar.shapes := by
  have read := TextReader.read_rules [] grammar.rules
  rw [shapesOfText, text, String.toList_join, List.flatMap_map]
  exact congrArg TextReader.shapes read

theorem text_eq_join_shapes (grammar : Grammar H) : grammar.text =
    String.join (grammar.shapes.map fun shape => Rule.text ⟨shape.1, shape.2, ()⟩) := by
  rw [text, shapes, List.map_map]
  rfl

/-- The text of a grammar can be read back, and tells grammars apart whose rules have different shapes.
It shows nothing else. -/
theorem text_eq_iff_shapes_eq :
    (∀ grammar : Grammar H, shapesOfText grammar.text = grammar.shapes) ∧
      ∀ (first : Grammar H) (second : Grammar K),
        first.text = second.text ↔ first.shapes = second.shapes := by
  refine ⟨shapesOfText_text, fun first second => ⟨fun same => ?_, fun same => ?_⟩⟩
  · rw [← shapesOfText_text first, same, shapesOfText_text]
  · rw [text_eq_join_shapes, same, ← text_eq_join_shapes]

example : shapesOfText "0 ::= 12 ~ 3;\n3 ::= ();\n" = [(⟨0⟩, [⟨12⟩, ⟨3⟩]), (⟨3⟩, [])] := by cbv

end Grammar

end TracedGrammar
