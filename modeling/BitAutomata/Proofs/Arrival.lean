import BitAutomata.Proofs.Containers
import BitAutomata.Proofs.Numbering

/-!
# Numbers in order of first arrival

A construction hands its numbering one tuple after another (`Numbering.encodeAll`); a set of
states is handed over as its ascending list. A consistent numbering holds its tuples once each,
and encoding a tuple gives its position among them, or appends it and gives the next position
(`encode_of_mem`, `encode_of_not_mem`). So from a fresh numbering the tuples held are the distinct
tuples in the order they first arrived, and every call gets the position of its tuple among them
(`encodeAll_fresh`): the first call with the `k`-th distinct tuple and every later call with an
equal one get `k - 1`, different tuples never get one number, the size is the number of distinct
tuples, and decoding reads a number given out back as its tuple and anything else as nothing
(`encode_numbers_tuples_in_order_of_arrival`).
-/

namespace BitAutomata

namespace Numbering

variable {n : Numbering} {t : List State} {ts : List (List State)} {j : Nat}

/-- Numbers the tuples of a list in turn: the number each gets, in order, and the numbering after
the last. -/
def encodeAll (n : Numbering) (ts : List (List State)) : List Nat × Numbering :=
  ts.foldl (fun r t => (r.1 ++ [(r.2.encode t).1], (r.2.encode t).2)) ([], n)

theorem encodeAll_append_singleton :
    n.encodeAll (ts ++ [t]) =
      ((n.encodeAll ts).1 ++ [((n.encodeAll ts).2.encode t).1], ((n.encodeAll ts).2.encode t).2) := by
  simp [encodeAll, List.foldl_append]

theorem size_eq_length (n : Numbering) : n.size = n.tuples.toList.length :=
  (Array.length_toList).symm

theorem getElem?_tuples (hj : j < n.size) : n.tuples.toList[j]? = some (n.tuple j) := by
  simp only [tuple, Array.getD_eq_getD_getElem?, Array.getElem?_toList,
    Array.getElem?_eq_getElem (by exact hj), Option.getD_some]

/-- A consistent numbering holds each tuple once. -/
theorem nodup_tuples (hn : n.Consistent) : n.tuples.toList.Nodup := by
  refine List.nodup_iff_getElem?_ne_getElem?.mpr fun j k hjk hk hSame => ?_
  rw [← size_eq_length] at hk
  rw [getElem?_tuples (hjk.trans hk), getElem?_tuples hk, Option.some_inj] at hSame
  exact hjk.ne ((tuple_inj hn (hjk.trans hk) hk).mp hSame)

/-- In a consistent numbering a tuple has a number exactly when it is held, and the number is its
position. -/
theorem find?_eq_idxOf (hn : n.Consistent) :
    n.find? t = if t ∈ n.tuples.toList then some (n.tuples.toList.idxOf t) else none := by
  split
  · rename_i hMem
    have hLt : n.tuples.toList.idxOf t < n.size := by
      rw [size_eq_length]
      exact List.idxOf_lt_length_iff.mpr hMem
    refine (hn t _).mpr ⟨hLt, ?_⟩
    have hAt := List.getElem?_idxOf hMem
    rw [getElem?_tuples hLt, Option.some_inj] at hAt
    exact hAt
  · rename_i hMem
    cases hFind : n.find? t with
    | none => rfl
    | some j =>
      obtain ⟨hj, rfl⟩ := (hn t j).mp hFind
      exact absurd (List.mem_of_getElem? (getElem?_tuples hj)) hMem

/-- A tuple held already gets its position and changes nothing. -/
theorem encode_of_mem (hn : n.Consistent) (ht : t ∈ n.tuples.toList) :
    n.encode t = (n.tuples.toList.idxOf t, n) :=
  encode_of_find?_eq_some (by rw [find?_eq_idxOf hn, if_pos ht])

/-- A new tuple gets the next position and is appended. -/
theorem encode_of_not_mem (hn : n.Consistent) (ht : t ∉ n.tuples.toList) :
    n.encode t = (n.size, n.push t) :=
  encode_of_find?_eq_none (by rw [find?_eq_idxOf hn, if_neg ht])

/-- From a fresh numbering, the numbering after a list of tuples is consistent and holds the
distinct tuples in the order they first arrived, and every call got the position of its tuple
among them. -/
theorem encodeAll_fresh (ts : List (List State)) :
    (({} : Numbering).encodeAll ts).2.Consistent ∧
      (({} : Numbering).encodeAll ts).2.tuples.toList = ts.eraseDups ∧
      (({} : Numbering).encodeAll ts).1 = ts.map (ts.eraseDups.idxOf ·) := by
  induction ts using List.reverseRecOn with
  | nil => exact ⟨consistent_empty, rfl, rfl⟩
  | append_singleton ts t ih =>
    obtain ⟨hn, hTuples, hIds⟩ := ih
    rw [encodeAll_append_singleton, List.eraseDups_append]
    generalize ({} : Numbering).encodeAll ts = r at hn hTuples hIds ⊢
    by_cases ht : t ∈ ts
    · -- A tuple met before keeps its number, and the distinct tuples stay as they were.
      have hNew : ([t].removeAll ts).eraseDups = [] := by simp [List.removeAll, ht]
      rw [hNew, List.append_nil, encode_of_mem hn (by rw [hTuples]; exact List.mem_eraseDups.mpr ht)]
      refine ⟨hn, hTuples, ?_⟩
      rw [hIds, hTuples, List.map_append, List.map_singleton]
    · -- A new tuple is appended to the distinct ones and gets its position among them.
      have hNew : ([t].removeAll ts).eraseDups = [t] := by
        simp [List.removeAll, ht, List.eraseDups_cons]
      have hNotMem : t ∉ r.2.tuples.toList := by rw [hTuples, List.mem_eraseDups]; exact ht
      rw [hNew, encode_of_not_mem hn hNotMem]
      refine ⟨consistent_push hn ((find?_eq_idxOf hn).trans (if_neg hNotMem)), ?_, ?_⟩
      · simp [push, hTuples]
      · rw [hIds, List.map_append, List.map_singleton, size_eq_length, hTuples,
          List.idxOf_append, if_neg (by rw [List.mem_eraseDups]; exact ht)]
        refine congrArg₂ (· ++ ·) (List.map_congr_left fun x hx => ?_) (by simp)
        rw [List.idxOf_append_of_mem (List.mem_eraseDups.mpr hx)]

/-- From a fresh numbering, every call gets the position of its tuple among the distinct tuples
in order of first arrival: the first call with the `k`-th distinct tuple gets `k - 1`, and so does
every later call with an equal tuple. Two calls get the same number exactly when their tuples are
equal, whatever their lengths and signs. The size is the number of distinct tuples, and decoding a
state from `0` to below the size gives the tuple at that position, and any other state gives
nothing. A set is handed over as its ascending list, which determines it. -/
theorem encode_numbers_tuples_in_order_of_arrival (ts : List (List State)) :
    (({} : Numbering).encodeAll ts).1 = ts.map (ts.eraseDups.idxOf ·) ∧
      (∀ i j, i < ts.length → j < ts.length →
        ((({} : Numbering).encodeAll ts).1[i]? = (({} : Numbering).encodeAll ts).1[j]? ↔
          ts[i]? = ts[j]?)) ∧
      (({} : Numbering).encodeAll ts).2.size = ts.eraseDups.length ∧
      (∀ s : State, (({} : Numbering).encodeAll ts).2.decode? s =
        if 0 ≤ s.toInt then ts.eraseDups[s.toInt.toNat]? else none) ∧
      ∀ S S' : StateSet, S.toList = S'.toList ↔ S = S' := by
  obtain ⟨-, hTuples, hIds⟩ := encodeAll_fresh ts
  refine ⟨hIds, fun i j hi hj => ?_, by rw [size_eq_length, hTuples], fun s => ?_,
    fun S S' => StateSet.toList_injective.eq_iff⟩
  · -- Different tuples have different positions among the distinct tuples.
    rw [hIds, List.getElem?_map, List.getElem?_map, List.getElem?_eq_getElem hi,
      List.getElem?_eq_getElem hj]
    simp only [Option.map_some, Option.some_inj]
    exact List.idxOf_inj (List.mem_eraseDups.mpr (List.getElem_mem hi))
  · rw [decode?, ← hTuples]
    simp only [Array.getElem?_toList]

end Numbering

end BitAutomata
