import Mathlib.Algebra.Group.Nat.Defs
import Mathlib.Data.Finset.Card
import BitAutomata.Numbering
import BitAutomata.Proofs.Keys

/-!
# Consistent numberings

Tuples are filed under their keys, and a key names its tuple exactly: each state is written as
an optional minus sign and digits, none of them a comma and never empty, so splitting a key at
its commas gives back the states (`key_injective`), negative states, the empty tuple and tuples of
different lengths included.

A numbering is consistent when its two tables agree: a tuple has number `j` exactly when `j`
is given out and the tuple at position `j` is that tuple. Numbering a new tuple keeps it
consistent, and so do the lookups of `encode`. In a consistent numbering different numbers
stand for different tuples, so a numbering of tuples drawn from a family with at most `B`
distinct members has at most `B` numbers (`size_le_of_forall`).

States are the numbers read as 64-bit integers, so the first `2 ^ 64` numbers give distinct
states (`state_inj`); later ones repeat them. Decoding reads a state back as its tuple, which
works for every number given out while there are at most `2 ^ 63` of them: later numbers stand
for negative states (`decode?_eq_some_iff`).
-/

namespace BitAutomata

namespace Numbering

section Key

/-- An integer in decimal: a minus sign when it is negative, then the digits of its size. -/
theorem toString_int_toList (i : Int) :
    (toString i).toList = (if i < 0 then ['-'] else []) ++ Nat.toDigits 10 i.natAbs := by
  change (Int.repr i).toList = _
  cases i with
  | ofNat n => simp [Int.repr, Nat.toList_repr]
  | negSucc n => simp [Int.repr, Nat.toList_repr, Int.negSucc_lt_zero]

theorem not_mem_toDigits {c : Char} (hc : c.isDigit = false) (n : Nat) : c ∉ Nat.toDigits 10 n :=
  fun hMem => by simp [Nat.isDigit_of_mem_toDigits (by decide) (by decide) hMem] at hc

/-- A state in decimal is not empty and holds no comma. -/
theorem stateText_ok (s : State) :
    ',' ∉ (toString s.toInt).toList ∧ (toString s.toInt).toList ≠ [] := by
  rw [toString_int_toList]
  refine ⟨fun hMem => ?_, by simp [Nat.toDigits_ne_nil]⟩
  rcases List.mem_append.mp hMem with hSign | hDigit
  · split at hSign <;> simp at hSign
  · exact not_mem_toDigits (by decide) _ hDigit

/-- A state in decimal determines the state. -/
theorem stateText_injective {s s' : State} (h : toString s.toInt = toString s'.toInt) : s = s' := by
  have hChars := congrArg String.toList h
  rw [toString_int_toList, toString_int_toList] at hChars
  have hDigits : ∀ d d', Nat.toDigits 10 d = Nat.toDigits 10 d' → d = d' := fun d d' hd => by
    have hRead := congrArg (fun ds => Nat.ofDigitChars 10 ds 0) hd
    simpa [Nat.ofDigitChars_toDigits] using hRead
  -- A minus sign is no digit, so both states have the same sign, and then the same size.
  have hSize : s.toInt.natAbs = s'.toInt.natAbs ∧ (s.toInt < 0 ↔ s'.toInt < 0) := by
    by_cases hs : s.toInt < 0 <;> by_cases hs' : s'.toInt < 0 <;>
      simp only [hs, hs', if_true, if_false, List.singleton_append, List.nil_append] at hChars
    · exact ⟨hDigits _ _ (List.cons.inj hChars).2, iff_of_true hs hs'⟩
    · exact absurd (hChars ▸ List.mem_cons_self) (not_mem_toDigits (by decide) _)
    · exact absurd (hChars.symm ▸ List.mem_cons_self) (not_mem_toDigits (by decide) _)
    · exact ⟨hDigits _ _ hChars, iff_of_false hs hs'⟩
  apply Int64.toInt_inj.mp
  omega

/-- The key of a tuple determines the tuple. -/
theorem key_injective : Function.Injective key := by
  intro t t' hKey
  have hTexts := intercalate_comma_injective (fun e he => by
      obtain ⟨s, -, rfl⟩ := List.mem_map.mp he
      exact stateText_ok s) (fun e he => by
      obtain ⟨s, -, rfl⟩ := List.mem_map.mp he
      exact stateText_ok s) hKey
  exact List.map_injective_iff.mpr (fun _ _ h => stateText_injective h) hTexts

end Key

variable {n : Numbering} {t t' : List State} {i j k : Nat}

/-- The index and the list of tuples agree. -/
def Consistent (n : Numbering) : Prop :=
  ∀ t j, n.find? t = some j ↔ j < n.size ∧ n.tuple j = t

theorem consistent_empty : ({} : Numbering).Consistent := by
  intro t j
  simp [find?, size, tuple]

@[simp]
theorem size_push : (n.push t).size = n.size + 1 := by
  simp [push, size]

theorem tuple_push : (n.push t).tuple j = if j < n.size then n.tuple j else if j = n.size then t
    else [] := by
  simp only [tuple, push, size, Array.getD_eq_getD_getElem?, Array.getElem?_push]
  by_cases hj : j < n.tuples.size
  · have hNe : j ≠ n.tuples.size := by omega
    simp [hj, hNe]
  · by_cases hEq : j = n.tuples.size
    · simp [hEq]
    · simp [hj, hEq]

theorem tuple_push_of_lt (h : j < n.size) : (n.push t).tuple j = n.tuple j := by
  rw [tuple_push, if_pos h]

@[simp]
theorem tuple_push_size : (n.push t).tuple n.size = t := by
  rw [tuple_push]
  simp

theorem find?_push : (n.push t).find? t' = if t = t' then some n.size else n.find? t' := by
  simp only [find?, push, Std.ExtTreeMap.get?_eq_getElem?, Std.ExtTreeMap.getElem?_insert,
    Std.LawfulEqCmp.compare_eq_iff_eq, key_injective.eq_iff]

/-- Giving the next number to a tuple without one keeps a numbering consistent. -/
theorem consistent_push (hn : n.Consistent) (ht : n.find? t = none) : (n.push t).Consistent := by
  intro t' j
  rw [find?_push, size_push, tuple_push]
  by_cases hEq : t = t'
  · subst hEq
    -- The new tuple had no number, so no old position holds it.
    have hOld : ∀ j < n.size, n.tuple j ≠ t := by
      intro j hj hTuple
      have hFound := (hn t j).mpr ⟨hj, hTuple⟩
      rw [ht] at hFound
      cases hFound
    rw [if_pos rfl]
    constructor
    · rintro ⟨⟩
      simp
    · rintro ⟨hj, hTuple⟩
      by_cases hLt : j < n.size
      · rw [if_pos hLt] at hTuple
        exact absurd hTuple (hOld j hLt)
      · have hSize : j = n.size := by omega
        simp [hSize]
  · rw [if_neg hEq, hn t' j]
    constructor
    · rintro ⟨hj, hTuple⟩
      exact ⟨by omega, by rw [if_pos hj]; exact hTuple⟩
    · rintro ⟨hj, hTuple⟩
      by_cases hLt : j < n.size
      · rw [if_pos hLt] at hTuple
        exact ⟨hLt, hTuple⟩
      · rw [if_neg hLt] at hTuple
        by_cases hSize : j = n.size
        · rw [if_pos hSize] at hTuple
          exact absurd hTuple hEq
        · omega

theorem encode_of_find?_eq_some (h : n.find? t = some j) : n.encode t = (j, n) := by
  simp [encode, h]

theorem encode_of_find?_eq_none (h : n.find? t = none) : n.encode t = (n.size, n.push t) := by
  simp [encode, h]

theorem lt_size_of_find?_eq_some (hn : n.Consistent) (h : n.find? t = some j) : j < n.size :=
  ((hn t j).mp h).1

theorem tuple_of_find?_eq_some (hn : n.Consistent) (h : n.find? t = some j) : n.tuple j = t :=
  ((hn t j).mp h).2

theorem find?_tuple (hn : n.Consistent) (hj : j < n.size) : n.find? (n.tuple j) = some j :=
  (hn _ j).mpr ⟨hj, rfl⟩

/-- Different numbers given out stand for different tuples. -/
theorem tuple_inj (hn : n.Consistent) (hj : j < n.size) (hk : k < n.size) :
    n.tuple j = n.tuple k ↔ j = k := by
  constructor
  · intro hTuple
    have hFoundJ := find?_tuple hn hj
    rw [hTuple, find?_tuple hn hk] at hFoundJ
    exact (Option.some.inj hFoundJ).symm
  · rintro rfl
    rfl

/-- A numbered tuple keeps its number when another tuple gets the next one. -/
theorem find?_push_of_find?_eq_some (ht : n.find? t = none) (h : n.find? t' = some k) :
    (n.push t).find? t' = some k := by
  have hNe : t ≠ t' := by
    rintro rfl
    rw [ht] at h
    cases h
  rw [find?_push, if_neg hNe, h]

/-- `n'` is consistent and keeps the number of every tuple numbered in `n`. -/
def Extends (n n' : Numbering) : Prop :=
  n'.Consistent ∧ ∀ t k, n.find? t = some k → n'.find? t = some k

theorem Extends.refl (hn : n.Consistent) : n.Extends n :=
  ⟨hn, fun _ _ h => h⟩

theorem Extends.trans {n' n'' : Numbering} (h : n.Extends n') (h' : n'.Extends n'') :
    n.Extends n'' :=
  ⟨h'.1, fun t k hFind => h'.2 t k (h.2 t k hFind)⟩

/-- A tuple numbered in `n` has the same number in an extension, and no other. -/
theorem Extends.find?_eq_some_iff {n' : Numbering} (h : n.Extends n')
    (ht : ∃ k', n.find? t = some k') : n'.find? t = some k ↔ n.find? t = some k := by
  obtain ⟨k', hk'⟩ := ht
  rw [h.2 t k' hk', hk']

theorem extends_push (hn : n.Consistent) (ht : n.find? t = none) : n.Extends (n.push t) :=
  ⟨consistent_push hn ht, fun _ _ h => find?_push_of_find?_eq_some ht h⟩

/-- A consistent numbering of tuples from a family with at most `B` distinct members has at
most `B` numbers. -/
theorem size_le_of_forall {P : List State → Prop} {B : Nat} (hn : n.Consistent)
    (hBound : ∀ L : List (List State), L.Nodup → (∀ t ∈ L, P t) → L.length ≤ B)
    (hP : ∀ j < n.size, P (n.tuple j)) : n.size ≤ B := by
  have hNodup : ((List.range n.size).map n.tuple).Nodup := by
    refine List.Nodup.map_on ?_ List.nodup_range
    intro j hj k hk hTuple
    exact (tuple_inj hn (List.mem_range.mp hj) (List.mem_range.mp hk)).mp hTuple
  have hAll : ∀ t ∈ (List.range n.size).map n.tuple, P t := by
    intro t ht
    obtain ⟨j, hj, rfl⟩ := List.mem_map.mp ht
    exact hP j (List.mem_range.mp hj)
  simpa using hBound _ hNodup hAll

/-- The first `2 ^ 64` numbers stand for distinct states. -/
theorem state_inj (hj : j < 2 ^ 64) (hk : k < 2 ^ 64) : state j = state k ↔ j = k := by
  constructor
  · intro hState
    have hBits := congrArg (fun s : State => s.toUInt64.toNat) hState
    simp only [state, Int64.toUInt64_ofNat', UInt64.toNat_ofNat'] at hBits
    rwa [Nat.mod_eq_of_lt hj, Nat.mod_eq_of_lt hk] at hBits
  · rintro rfl
    rfl

/-- The first `2 ^ 63` numbers stand for nonnegative states. -/
theorem state_nonneg (hj : j < 2 ^ 63) : 0 ≤ state j := by
  rw [Int64.le_iff_toInt_le, state, Int64.toInt_ofNat_of_lt hj]
  simp

/-- A state decodes to a tuple exactly when it is the state of a number given out, and the tuple
is the one with that number; numbers from `2 ^ 63` on stand for negative states, which decode to
nothing, so all numbers given out are decoded only while there are at most `2 ^ 63`. -/
theorem decode?_eq_some_iff (hSize : n.size ≤ 2 ^ 63) {s : State} :
    n.decode? s = some t ↔ ∃ j < n.size, state j = s ∧ n.tuple j = t := by
  constructor
  · intro h
    unfold decode? at h
    split at h
    · rename_i hs
      obtain ⟨hj, -⟩ := Array.getElem?_eq_some_iff.mp h
      have hState : state s.toInt.toNat = s :=
        Int64.ofNat_toNatClampNeg s (Int64.le_iff_toInt_le.mpr (by simpa using hs))
      refine ⟨s.toInt.toNat, hj, hState, ?_⟩
      rw [tuple, Array.getD_eq_getD_getElem?, h]
      rfl
    · cases h
  · rintro ⟨j, hj, rfl, rfl⟩
    have hInt : (state j).toInt = j := Int64.toInt_ofNat_of_lt (by omega)
    have hj' : j < n.tuples.size := hj
    simp [decode?, hInt, tuple, hj']

theorem decode?_state (hSize : n.size ≤ 2 ^ 63) (hj : j < n.size) :
    n.decode? (state j) = some (n.tuple j) :=
  (decode?_eq_some_iff hSize).mpr ⟨j, hj, rfl, rfl⟩

end Numbering

end BitAutomata
