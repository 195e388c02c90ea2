import BitAutomata.Label

/-!
# Moves

A move is what an arc does: it either reads a label or is silent (an epsilon move). Moves
are ordered by their keys compared byte by byte; the silent key `ε` comes after every label
key, and the empty label's key `""` before every other. A move keeps its key beside the
label, so that ordering moves compares stored texts instead of writing keys again.
-/

namespace BitAutomata

/-- The key of a move given by the label it reads: the label's key, or `ε` when silent. -/
def Move.keyOf : Option Label → String
  | none => "ε"
  | some l => l.key

/-- What an arc does: read a label, or move silently. -/
structure Move where
  /-- The label read, or `none` for a silent move. -/
  label? : Option Label
  /-- The key of the move, kept beside it. -/
  key : String
  /-- The kept key is the key of the label read. -/
  key_eq : key = Move.keyOf label?
  deriving DecidableEq

namespace Move

/-- The silent move. -/
def epsilon : Move := ⟨none, "ε", rfl⟩

/-- The move that reads a label. -/
def label (l : Label) : Move := ⟨some l, l.key, rfl⟩

instance : Inhabited Move := ⟨epsilon⟩

/-- The display form of a move: the label's text, or `ε` for the silent move. -/
def text (m : Move) : String :=
  match m.label? with
  | none => "ε"
  | some l => l.text

/-- Whether a move is silent. -/
def isEpsilon (m : Move) : Bool :=
  m.label?.isNone

end Move

/-- Moves are ordered by their keys. -/
instance : Ord Move := ⟨compareOn Move.key⟩

instance : Std.TransOrd Move :=
  inferInstanceAs (Std.TransCmp (compareOn Move.key))

end BitAutomata
