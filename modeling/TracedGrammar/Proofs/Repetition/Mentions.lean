import TracedGrammar.Proofs.Repetition.Layout

/-!
# What a repetition mentions

The alternatives of a repetition mention others in ten ways.  They count on the guards under which an
alternative is written: in particular, only counts of three or more are halved.
-/

namespace TracedGrammar

namespace Separator

/-- How items are separated when the last one has nothing after it. -/
def tight : Separator → Separator
  | .trailing symbol => .proper symbol
  | .proper symbol => .proper symbol
  | .liberal symbol => .proper symbol
  | .absent => .absent

theorem rank_tight (separator : Separator) : separator.tight.rank = 0 := by
  cases separator <;> rfl

end Separator

namespace Repetition

/-- One repetition is mentioned where another is written.  Counts are halved only from three on. -/
inductive Mentions (parent : Repetition) : Repetition → Prop
  | positive (zero : parent.least = 0) (some : parent.most ≠ some 0) :
      Mentions parent (parent.between 1 parent.most)
  | tight (positive : parent.least ≠ 0) (loose : parent.separator.rank ≠ 0) :
      Mentions parent (parent.separatedBy parent.separator.tight)
  | trailing {symbol : Symbol} (positive : parent.least ≠ 0)
      (liberal : parent.separator = .liberal symbol) :
      Mentions parent (parent.separatedBy (.trailing symbol))
  | either {count : Nat} (simple : parent.separator.rank = 0) (one : parent.least = 1)
      (two : parent.most = some 2) (few : count = 1 ∨ count = 2) :
      Mentions parent (parent.exactly count)
  | lower {most : Nat} (simple : parent.separator.rank = 0) (one : parent.least = 1)
      (bounded : parent.most = some most) (many : 3 ≤ most) :
      Mentions parent (parent.between 1 (some (halfPower most)))
  | upper {most : Nat} (simple : parent.separator.rank = 0) (one : parent.least = 1)
      (bounded : parent.most = some most) (many : 3 ≤ most) :
      Mentions parent (parent.between 1 (some (most - halfPower most)))
  | block {count : Nat} (simple : parent.separator.rank = 0)
      (fixed : parent.least = 1 ∨ parent.least = count) (bounded : parent.most = some count)
      (many : 3 ≤ count) : Mentions parent (parent.exactly (halfPower count)).leading
  | rest {count : Nat} (simple : parent.separator.rank = 0) (fixed : parent.least = count)
      (bounded : parent.most = some count) (many : 3 ≤ count) :
      Mentions parent (parent.exactly (count - halfPower count))
  | start (simple : parent.separator.rank = 0) (several : 2 ≤ parent.least)
      (unfixed : parent.most ≠ some parent.least) :
      Mentions parent (parent.exactly (parent.least - 1)).leading
  | span (simple : parent.separator.rank = 0) (several : 2 ≤ parent.least)
      (unfixed : parent.most ≠ some parent.least) :
      Mentions parent (parent.between 1 (parent.most.map (· - parent.least + 1)))

variable {parent child : Repetition}

theorem mentions_of_mem_runs {glue : List Symbol} (positive : parent.least ≠ 0)
    (simple : parent.separator.rank = 0)
    (member : child ∈ (parent.runs glue).flatMap Part.nestedIn) : parent.Mentions child := by
  simp only [runs] at member
  split at member
  · rename_i one
    split at member
    · simp at member
    · rename_i most bounded
      split at member
      · simp at member
      · split at member
        · rename_i two
          simp only [List.flatMap_cons, List.flatMap_nil, Part.nestedIn_nested_cons,
            Part.nestedIn_nil, List.cons_append, List.nil_append, List.mem_cons,
            List.not_mem_nil, or_false] at member
          rcases member with rfl | rfl
          · exact .either simple one (two ▸ bounded) (.inl rfl)
          · exact .either simple one (two ▸ bounded) (.inr rfl)
        · simp only [List.flatMap_cons, List.flatMap_nil, Part.nestedIn_nested_cons,
            Part.nestedIn_nil, List.cons_append, List.nil_append, List.mem_cons,
            List.not_mem_nil, or_false] at member
          rcases member with rfl | rfl | rfl
          · exact .lower simple one bounded (by omega)
          · exact .block simple (.inl one) bounded (by omega)
          · exact .upper simple one bounded (by omega)
  · split at member
    · rename_i fixed
      split at member
      · simp at member
      · simp only [List.flatMap_cons, List.flatMap_nil, Part.nestedIn_nested_cons,
          Part.nestedIn_nil, List.append_nil, List.mem_cons, List.not_mem_nil, or_false] at member
        rcases member with rfl | rfl
        · exact .block simple (.inr rfl) fixed (by omega)
        · exact .rest simple rfl fixed (by omega)
    · rename_i unfixed
      simp only [List.flatMap_cons, List.flatMap_nil, Part.nestedIn_nested_cons,
        Part.nestedIn_nil, List.append_nil, List.mem_cons, List.not_mem_nil, or_false] at member
      rcases member with rfl | rfl
      · exact .start simple (by omega) unfixed
      · exact .span simple (by omega) unfixed

theorem mentions_of_isChild (member : child.IsChild parent) : parent.Mentions child := by
  unfold IsChild children alternatives at member
  split at member
  · rename_i zero
    split at member
    · simp at member
    · rename_i some
      split at member
      · simp at member
      · simp only [List.flatMap_cons, List.flatMap_nil, Part.nestedIn_nested_cons,
          Part.nestedIn_nil, List.nil_append, List.append_nil, List.mem_singleton] at member
        exact member ▸ .positive zero some
  · rename_i positive
    have tight (loose : parent.separator.rank ≠ 0) := Mentions.tight positive loose
    cases separates : parent.separator with
    | absent =>
        rw [separates] at member
        exact mentions_of_mem_runs positive (by rw [separates]; rfl) member
    | proper symbol =>
        rw [separates] at member
        exact mentions_of_mem_runs positive (by rw [separates]; rfl) member
    | trailing symbol =>
        simp only [separates, List.flatMap_cons, List.flatMap_nil, Part.nestedIn_nested_cons,
          Part.nestedIn_symbol_cons, Part.nestedIn_nil, List.append_nil,
          List.mem_singleton] at member
        rw [separates] at tight
        exact member ▸ tight Nat.one_ne_zero
    | liberal symbol =>
        simp only [separates, List.flatMap_cons, List.flatMap_nil, Part.nestedIn_nested_cons,
          Part.nestedIn_nil, List.cons_append, List.nil_append, List.mem_cons, List.not_mem_nil,
          or_false] at member
        rcases member with rfl | rfl
        · rw [separates] at tight
          exact tight (Nat.succ_ne_zero 1)
        · exact .trailing positive separates

end Repetition

end TracedGrammar
