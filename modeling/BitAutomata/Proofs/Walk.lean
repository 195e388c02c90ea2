import Mathlib.Logic.Relation
import BitAutomata.Proofs.Closure

/-!
# Runs as walks

A walk follows one arc for each of its moves, in order. The letters it reads are the labels of its
label moves; its silent moves read nothing, wherever they stand. A run reaches exactly the ends of
the walks that start at an initial state and read the word (`mem_reach_iff_walk`): silent moves may
come before the first letter, between letters and after the last, and each letter is read along an
arc filed under that letter's key.

Reading one more letter from the states a run reached gives the run of the longer word
(`step_run`), whatever the shorter word reached, and a run that reaches nothing reaches nothing on
any longer word (`reach_append_eq_empty`), so a simulation may stop at the first empty set of
states. `run_current_eq_walk_ends` collects the three.
-/

namespace BitAutomata

open Relation Std

namespace Move

@[simp]
theorem label?_epsilon : Move.epsilon.label? = none := rfl

@[simp]
theorem label?_label (l : Label) : (Move.label l).label? = some l := rfl

end Move

namespace Table

variable {t : Table}

/-- A walk from `s` to `u` that takes the moves `ms` in order, each along an arc filed under that
move. -/
inductive Walk (t : Table) : State → List Move → State → Prop
  /-- The empty walk stays where it is. -/
  | nil (s : State) : Walk t s [] s
  /-- A walk takes an arc of its first move, then walks on. -/
  | cons {s v u : State} {m : Move} {ms : List Move} :
      v ∈ t.targets s m → Walk t v ms u → Walk t s (m :: ms) u

theorem Walk.append {s v u : State} {ms ms' : List Move} (h : t.Walk s ms v)
    (h' : t.Walk v ms' u) : t.Walk s (ms ++ ms') u := by
  induction h with
  | nil => exact h'
  | cons hv _ ih => exact .cons hv (ih h')

/-- Silent arcs lead from `x` to `y` exactly when a walk that reads no letter does. -/
theorem reflTransGen_silent_iff_walk {x y : State} :
    ReflTransGen t.Silent x y ↔ ∃ ms, ms.filterMap Move.label? = [] ∧ t.Walk x ms y := by
  constructor
  · intro h
    induction h using ReflTransGen.head_induction_on with
    | refl => exact ⟨[], rfl, .nil y⟩
    | head hxz _ ih =>
      obtain ⟨ms, hms, hWalk⟩ := ih
      exact ⟨.epsilon :: ms, by simpa using hms, .cons hxz hWalk⟩
  · rintro ⟨ms, hms, hWalk⟩
    induction hWalk with
    | nil => exact .refl
    | @cons _ _ _ m _ hv _ ih =>
      -- A walk that reads nothing takes silent arcs only.
      rcases Move.eq_epsilon_or_eq_label m with rfl | ⟨l, rfl⟩
      · exact .head hv (ih (by simpa [List.filterMap_cons] using hms))
      · simp at hms

/-- A walk that reads `l :: w` takes silent arcs, then an arc that reads `l`, then a walk that
reads `w`. -/
theorem exists_walk_cons_iff {x y : State} {l : Label} {w : List Label} :
    (∃ ms, ms.filterMap Move.label? = l :: w ∧ t.Walk x ms y) ↔
      ∃ z, ReflTransGen t.Silent x z ∧ ∃ v ∈ t.targets z (.label l),
        ∃ ms, ms.filterMap Move.label? = w ∧ t.Walk v ms y := by
  constructor
  · rintro ⟨ms, hms, hWalk⟩
    induction hWalk with
    | nil => simp at hms
    | @cons _ _ _ m ms hv hRest ih =>
      rcases Move.eq_epsilon_or_eq_label m with rfl | ⟨l', rfl⟩
      · obtain ⟨z, hz, hFrom⟩ := ih (by simpa [List.filterMap_cons] using hms)
        exact ⟨z, .head hv hz, hFrom⟩
      · obtain ⟨rfl, hRead⟩ : l' = l ∧ ms.filterMap Move.label? = w := by
          simpa [List.filterMap_cons] using hms
        exact ⟨_, .refl, _, hv, ms, hRead, hRest⟩
  · rintro ⟨z, hxz, v, hv, ms, hms, hWalk⟩
    obtain ⟨ms₀, hms₀, hWalk₀⟩ := reflTransGen_silent_iff_walk.mp hxz
    refine ⟨ms₀ ++ .label l :: ms, ?_, hWalk₀.append (.cons hv hWalk)⟩
    simp [List.filterMap_append, hms₀, hms]

/-- Reading a word from the closure of a set reaches the ends of the walks from the set that read
the word. -/
theorem mem_foldl_read_iff {S : StateSet} {w : List Label} {y : State} :
    y ∈ w.foldl t.read (t.closure S) ↔
      ∃ x ∈ S, ∃ ms, ms.filterMap Move.label? = w ∧ t.Walk x ms y := by
  induction w generalizing S with
  | nil =>
    rw [List.foldl_nil, mem_closure_iff]
    simp only [reflTransGen_silent_iff_walk]
  | cons l w ih =>
    -- The first letter leads to the closure of its targets, from which the rest is read.
    rw [List.foldl_cons, read, ih]
    simp only [mem_image, mem_closure_iff, exists_walk_cons_iff]
    constructor
    · rintro ⟨v, ⟨z, ⟨x, hx, hxz⟩, hv⟩, hFrom⟩
      exact ⟨x, hx, z, hxz, v, hv, hFrom⟩
    · rintro ⟨x, hx, z, hxz, v, hv, hFrom⟩
      exact ⟨v, ⟨z, ⟨x, hx, hxz⟩, hv⟩, hFrom⟩

@[simp]
theorem read_empty (l : Label) : t.read ∅ l = ∅ := by
  apply ExtTreeSet.ext_mem
  intro y
  simp [mem_read, ExtTreeSet.not_mem_empty]

theorem foldl_read_empty (w : List Label) : w.foldl t.read ∅ = ∅ := by
  induction w with
  | nil => rfl
  | cons l w ih => rw [List.foldl_cons, read_empty, ih]

end Table

namespace Automaton

variable {a : Automaton} {w : List Label}

/-- A run reaches exactly the ends of the walks from an initial state that read the word. -/
theorem mem_reach_iff_walk {y : State} :
    y ∈ a.reach w ↔ ∃ x ∈ a.initial, ∃ ms, ms.filterMap Move.label? = w ∧ a.table.Walk x ms y :=
  Table.mem_foldl_read_iff

/-- Stepping one letter after a run is the run of the word extended by the letter. -/
theorem step_run (l : Label) : (a.run w).step l = a.run (w ++ [l]) := by
  simp only [step, run, reach_append_singleton]

/-- A run that reaches nothing reaches nothing on any longer word. -/
theorem reach_append_eq_empty (h : a.reach w = ∅) (w' : List Label) : a.reach (w ++ w') = ∅ := by
  rw [reach, List.foldl_append]
  change w'.foldl a.table.read (a.reach w) = ∅
  rw [h, Table.foldl_read_empty]

/-- After a run, the current states are the ends of the walks from an initial state that read the
word, whatever silent arcs they take before, between and after its letters; stepping one more
letter is the run of the longer word; and once no state is current, none is on any longer word. -/
theorem run_current_eq_walk_ends (a : Automaton) (w : List Label) :
    (∀ y, y ∈ (a.run w).current ↔
      ∃ x ∈ a.initial, ∃ ms, ms.filterMap Move.label? = w ∧ a.table.Walk x ms y) ∧
      (∀ l, ((a.run w).step l).current = (a.run (w ++ [l])).current) ∧
      ((a.run w).current = ∅ → ∀ w', (a.run (w ++ w')).current = ∅) :=
  ⟨fun _ => mem_reach_iff_walk, fun l => by rw [step_run], fun h w' => reach_append_eq_empty h w'⟩

end Automaton

end BitAutomata
