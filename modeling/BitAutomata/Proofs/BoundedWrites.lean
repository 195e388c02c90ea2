import Mathlib.Order.Bounds.Defs
import BitAutomata.Render.Dot

/-!
# Writes that a limit refuses

A writer with a limit takes a write whole while it fits and refuses it whole otherwise; a run of
writes stops at the first refusal. From an empty start, a run therefore leaves exactly the
longest leading run of pieces whose bytes fit, whose length `Writer.fitCount` counts
(`Writer.isGreatest_fitCount`, `Writer.writeAll_of_limit_eq_some`), reports the refusal iff some
piece was left out, and never looks at a piece after the refused one
(`Writer.writeAll_take_fitCount_succ`). A writer without a limit takes every piece.

A digraph is written one line per write, so on a bounded writer the drawing leaves exactly the
lines that fit and returns the writer's own refusal when one does not
(`Automaton.writeDot_stops_at_first_refused_line`).
-/

namespace BitAutomata

namespace Writer

variable {w : Writer} {s : String} {N : Nat}

/-- The number of leading pieces whose bytes together fit in `n` bytes. -/
def fitCount : Nat → List String → Nat
  | _, [] => 0
  | n, s :: rest => if s.utf8ByteSize ≤ n then fitCount (n - s.utf8ByteSize) rest + 1 else 0

theorem utf8ByteSize_join_cons (rest : List String) :
    (String.join (s :: rest)).utf8ByteSize = s.utf8ByteSize + (String.join rest).utf8ByteSize := by
  rw [String.join_cons, String.utf8ByteSize_append]

/-- `fitCount n` is the largest number of leading pieces whose bytes fit in `n`. -/
theorem isGreatest_fitCount (n : Nat) (L : List String) :
    IsGreatest {k | k ≤ L.length ∧ (String.join (L.take k)).utf8ByteSize ≤ n} (fitCount n L) := by
  induction L generalizing n with
  | nil => exact ⟨⟨Nat.le_refl 0, by simp⟩, fun k hk => hk.1⟩
  | cons s rest ih =>
    by_cases hs : s.utf8ByteSize ≤ n
    · -- The first piece fits, and the count goes on in the room it leaves.
      rw [fitCount, if_pos hs]
      obtain ⟨⟨hLength, hFit⟩, hMost⟩ := ih (n - s.utf8ByteSize)
      refine ⟨⟨by simpa using hLength, ?_⟩, ?_⟩
      · rw [List.take_succ_cons, utf8ByteSize_join_cons]
        omega
      · rintro (_ | k) ⟨hkLength, hkFit⟩
        · omega
        · rw [List.take_succ_cons, utf8ByteSize_join_cons] at hkFit
          have hk : k ≤ fitCount (n - s.utf8ByteSize) rest :=
            hMost ⟨by simpa using hkLength, by omega⟩
          omega
    · -- The first piece alone is too large, so no leading run but the empty one fits.
      rw [fitCount, if_neg hs]
      refine ⟨⟨Nat.zero_le _, by simp⟩, ?_⟩
      rintro (_ | k) ⟨-, hkFit⟩
      · exact Nat.le_refl 0
      · rw [List.take_succ_cons, utf8ByteSize_join_cons] at hkFit
        omega

/-! ### One write -/

/-- Under a limit, a write fits iff it leaves the writer within the limit. -/
theorem fits_iff_le_room (hLimit : w.limit = some N) (hText : w.text.utf8ByteSize ≤ N) :
    w.fits s = true ↔ s.utf8ByteSize ≤ N - w.text.utf8ByteSize := by
  simp only [fits, hLimit, decide_eq_true_eq]
  omega

theorem not_fits_of_room_lt (hLimit : w.limit = some N) (hText : w.text.utf8ByteSize ≤ N)
    (hs : ¬s.utf8ByteSize ≤ N - w.text.utf8ByteSize) : w.fits s = false := by
  rw [← Bool.not_eq_true, fits_iff_le_room hLimit hText]
  exact hs

/-- A piece that fits leaves the writer within its limit, with that much less room. -/
theorem room_append (hText : w.text.utf8ByteSize ≤ N) (hs : s.utf8ByteSize ≤ N - w.text.utf8ByteSize) :
    (w.text ++ s).utf8ByteSize ≤ N ∧
      N - (w.text ++ s).utf8ByteSize = N - w.text.utf8ByteSize - s.utf8ByteSize := by
  rw [String.utf8ByteSize_append]
  omega

theorem fits_of_limit_eq_none (hLimit : w.limit = none) : w.fits s = true := by
  simp [fits, hLimit]

@[simp]
theorem writeAll_nil : w.writeAll [] = (w, none) := rfl

theorem writeAll_cons_of_fits (h : w.fits s = true) (rest : List String) :
    w.writeAll (s :: rest) = { w with text := w.text ++ s }.writeAll rest := by
  simp [writeAll, write, h]

theorem writeAll_cons_of_not_fits (h : w.fits s = false) (rest : List String) :
    w.writeAll (s :: rest) = (w, some .full) := by
  simp [writeAll, write, h]

/-! ### A run of writes -/

/-- A writer without a limit takes every piece. -/
theorem writeAll_of_limit_eq_none (hLimit : w.limit = none) (L : List String) :
    w.writeAll L = ({ w with text := w.text ++ String.join L }, none) := by
  induction L generalizing w with
  | nil => simp [String.append_empty]
  | cons s rest ih =>
    rw [writeAll_cons_of_fits (fits_of_limit_eq_none hLimit),
      ih (w := { w with text := w.text ++ s }) hLimit, String.join_cons, String.append_assoc]

/-- A writer with a limit takes the longest leading run of pieces that fits in the room it has
left, and reports the refusal iff a piece was left out. -/
theorem writeAll_of_limit_eq_some (hLimit : w.limit = some N) (hText : w.text.utf8ByteSize ≤ N)
    (L : List String) :
    w.writeAll L =
      ({ w with text := w.text ++ String.join (L.take (fitCount (N - w.text.utf8ByteSize) L)) },
        if fitCount (N - w.text.utf8ByteSize) L = L.length then none else some .full) := by
  induction L generalizing w with
  | nil => simp [fitCount, String.append_empty]
  | cons s rest ih =>
    by_cases hs : s.utf8ByteSize ≤ N - w.text.utf8ByteSize
    · -- The writer takes `s`, and the rest is written into the room left after it.
      obtain ⟨hText', hRoom⟩ := room_append hText hs
      rw [writeAll_cons_of_fits ((fits_iff_le_room hLimit hText).mpr hs),
        ih (w := { w with text := w.text ++ s }) hLimit hText']
      simp only [fitCount, if_pos hs, hRoom, List.take_succ_cons, String.join_cons,
        String.append_assoc, List.length_cons, Nat.add_right_cancel_iff]
    · rw [writeAll_cons_of_not_fits (not_fits_of_room_lt hLimit hText hs)]
      simp [fitCount, hs, String.append_empty]

/-- A run of writes never looks past the first refused piece: the pieces that fit and the one
refused after them give the whole run's result. -/
theorem writeAll_take_fitCount_succ (hLimit : w.limit = some N) (hText : w.text.utf8ByteSize ≤ N)
    (L : List String) :
    w.writeAll (L.take (fitCount (N - w.text.utf8ByteSize) L + 1)) = w.writeAll L := by
  induction L generalizing w with
  | nil => rfl
  | cons s rest ih =>
    by_cases hs : s.utf8ByteSize ≤ N - w.text.utf8ByteSize
    · obtain ⟨hText', hRoom⟩ := room_append hText hs
      have hFits := (fits_iff_le_room hLimit hText).mpr hs
      have hRest := ih (w := { w with text := w.text ++ s }) hLimit hText'
      rw [hRoom] at hRest
      rw [fitCount, if_pos hs, List.take_succ_cons, writeAll_cons_of_fits hFits,
        writeAll_cons_of_fits hFits, hRest]
    · -- Both runs stop at `s`.
      have hRefused := not_fits_of_room_lt hLimit hText hs
      rw [fitCount, if_neg hs, List.take_succ_cons, writeAll_cons_of_not_fits hRefused,
        writeAll_cons_of_not_fits hRefused]

end Writer

namespace Automaton

/-- A digraph is written one line per write. A writer that never refuses receives every line,
and the drawing returns no error. A writer that refuses any write taking it past `N` bytes
receives exactly the first `j` lines, for the largest `j` whose lines fit in `N` bytes together;
the drawing returns no error iff that is all of them, and otherwise the writer's own refusal,
made at line `j + 1`, after which no line is looked at. -/
theorem writeDot_stops_at_first_refused_line (a : Automaton) (N : Nat) :
    a.writeDot {} = ({ text := String.join a.dotLines }, none) ∧
      ∃ j, IsGreatest
          {k | k ≤ a.dotLines.length ∧ (String.join (a.dotLines.take k)).utf8ByteSize ≤ N} j ∧
        a.writeDot { limit := some N } =
          ({ limit := some N, text := String.join (a.dotLines.take j) },
            if j = a.dotLines.length then none else some .full) ∧
        a.writeDot { limit := some N } =
          ({ limit := some N } : Writer).writeAll (a.dotLines.take (j + 1)) := by
  have hEmpty : ({ limit := some N } : Writer).text.utf8ByteSize = 0 := rfl
  refine ⟨?_, Writer.fitCount N a.dotLines, Writer.isGreatest_fitCount N a.dotLines, ?_, ?_⟩
  · rw [writeDot, Writer.writeAll_of_limit_eq_none rfl]
    simp [String.empty_append]
  · rw [writeDot, Writer.writeAll_of_limit_eq_some rfl (by omega), hEmpty, Nat.sub_zero]
    simp [String.empty_append]
  · have hStop := Writer.writeAll_take_fitCount_succ (w := { limit := some N }) rfl (by omega)
      a.dotLines
    rw [hEmpty, Nat.sub_zero] at hStop
    rw [writeDot, hStop]

end Automaton

end BitAutomata
