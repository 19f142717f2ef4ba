import TracedGrammar.Grammar.Authoring

/-!
# Building sequences

A sequence builder adds sequences for one left-hand side after the other.  At first any number of
items is allowed.  A new left-hand side starts without a separator; the numbers of items, and a
history given in advance, stay until they are replaced or used.
-/

namespace TracedGrammar

/-- A builder of sequences, with the grammar it adds them to. -/
structure SequenceBuilder (H : Type) where
  grammar : Grammar H
  lhs : Symbol
  least : Nat := 0
  most : Option Nat := none
  separator : Separator := .absent
  pending : Option H := none

namespace SequenceBuilder

variable {H : Type}

/-- What a sequence builder can be told. -/
inductive Call (H : Type)
  | sequence (lhs : Symbol)
  | separator (separator : Separator)
  | history (history : H)
  | between (least : Nat) (most : Option Nat)
  | within (range : CountRange)
  | item (item : Symbol)
  | itemWithin (item : Symbol) (range : CountRange)
  | itemWith (item : Symbol) (history : H)

/-- Places a symbol between neighbouring items. -/
def Call.intersperse (symbol : Symbol) : Call H :=
  .separator (.proper symbol)

def setRange (builder : SequenceBuilder H) (range : CountRange) : SequenceBuilder H :=
  { builder with least := range.extremes.1, most := range.extremes.2 }

def repetition (builder : SequenceBuilder H) (item : Symbol) : Repetition :=
  { item, least := builder.least, most := builder.most, separator := builder.separator }

def addWith (builder : SequenceBuilder H) (item : Symbol) (history : H) : SequenceBuilder H :=
  { builder with
    grammar := (builder.grammar.addSequence ⟨builder.lhs, builder.repetition item, history⟩).2 }

variable [RuleHistory H]

def add (builder : SequenceBuilder H) (item : Symbol) : SequenceBuilder H :=
  match builder.pending with
  | some history => { builder with pending := none }.addWith item history
  | none =>
      { builder with
        grammar := (builder.grammar.writeSequence builder.lhs (builder.repetition item)).2 }

def perform (builder : SequenceBuilder H) : Call H → SequenceBuilder H
  | .sequence lhs => { builder with lhs, separator := .absent }
  | .separator separator => { builder with separator }
  | .history history => { builder with pending := some history }
  | .between least most => { builder with least, most }
  | .within range => builder.setRange range
  | .item item => builder.add item
  | .itemWithin item range => (builder.setRange range).add item
  | .itemWith item history => builder.addWith item history

def run (builder : SequenceBuilder H) (calls : List (Call H)) : SequenceBuilder H :=
  calls.foldl perform builder

end SequenceBuilder

end TracedGrammar
