/-!
# Bounded writers

A writer collects text, write by write. A writer with a limit refuses a write whose bytes,
added to the bytes it already holds, would exceed the limit; the refused write leaves nothing
behind. A negative limit is no limit. Sizes are counted in bytes of the UTF-8 encoding.
-/

namespace BitAutomata

/-- Why a write was refused. -/
inductive WriteError where
  /-- The write would take the writer past its limit. -/
  | full
  deriving DecidableEq, Inhabited

/-- The text that reports a refused write. -/
def WriteError.message : WriteError → String
  | full => "writer full"

/-- A writer: the text accepted so far and, if it has one, the most bytes it accepts. -/
structure Writer where
  /-- The most bytes the writer accepts, or `none` for no limit. -/
  limit : Option Nat := none
  /-- The text accepted so far. -/
  text : String := ""
  deriving Inhabited

namespace Writer

/-- An empty writer with the given limit, if any; a negative limit sets none. -/
def ofLimit (n : Option Int) : Writer :=
  { limit := n.bind fun k => if k < 0 then none else some k.toNat }

/-- Whether a write of the given text fits under the limit. -/
def fits (w : Writer) (s : String) : Bool :=
  match w.limit with
  | none => true
  | some n => decide (w.text.utf8ByteSize + s.utf8ByteSize ≤ n)

/-- One write: the text is appended whole, or refused whole. -/
def write (w : Writer) (s : String) : Except WriteError Writer :=
  if w.fits s then .ok { w with text := w.text ++ s } else .error .full

/-- Writes the pieces in order and stops at the first refused one. -/
def writeAll (w : Writer) : List String → Writer × Option WriteError
  | [] => (w, none)
  | s :: rest =>
    match w.write s with
    | .ok w' => w'.writeAll rest
    | .error e => (w, some e)

end Writer

end BitAutomata
