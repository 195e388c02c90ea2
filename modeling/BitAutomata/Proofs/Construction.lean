import BitAutomata.Explore
import BitAutomata.Proofs.Arcs
import BitAutomata.Proofs.Numbering

/-!
# What a breadth-first construction builds

A construction numbers tuples as it meets them and expands them in order of their numbers.
`Explored` is its invariant while tuple `i` is being expanded: the numbering is consistent,
every numbered tuple lies in a family `P` closed under successors, the states are the numbered
states, the final ones those of final tuples, and the arcs are exactly those owed by the tuples
expanded so far (`Expanded`). The invariant holds of an empty construction and after a start
(`explored_empty`, `explored_start`), is kept by meeting a tuple (`explored_visit`) and by
expanding one (`explored_expand`), and so holds when exploration ends
(`explored_exploreWithin`). There every numbered tuple is expanded, provided the fuel exceeds
the number of distinct tuples of the family.

Read back through decoding, the states of a construction are the numbers given out, and while
there are at most `2 ^ 63` of them decoding is a bijection onto the numbered tuples
(`Explored.bijOn_decode?`); once all are expanded, every tuple reached from a numbered one
through successors is numbered (`Explored.numbered_of_reflTransGen`).
-/

namespace BitAutomata

namespace Construction

open BitAutomata.Numbering

/-- The arcs owed by the tuples numbered below `i`, each to the states of all its successors,
and by tuple `i` to the states of the successors in `done`. -/
def Expanded (next : List State → List (Move × List State)) (n : Numbering) (i : Nat)
    (done : List (Move × List State)) (s : State) (m : Move) (u : State) : Prop :=
  (∃ j < i, state j = s ∧ ∃ t k, (m, t) ∈ next (n.tuple j) ∧ n.find? t = some k ∧ state k = u) ∨
    (state i = s ∧ ∃ t k, (m, t) ∈ done ∧ n.find? t = some k ∧ state k = u)

/-- A construction that has expanded the tuples numbered below `i` and, of tuple `i`, the
successors in `done`; every tuple it numbered lies in the family `P`. -/
structure Explored (isFinal : List State → Bool) (next : List State → List (Move × List State))
    (P : List State → Prop) (c : Construction) (i : Nat) (done : List (Move × List State)) :
    Prop where
  consistent : c.numbering.Consistent
  le_size : i ≤ c.numbering.size
  family : ∀ j < c.numbering.size, P (c.numbering.tuple j)
  mem_states : ∀ s, s ∈ c.auto.states ↔ ∃ j < c.numbering.size, state j = s
  mem_final : ∀ s, s ∈ c.auto.final ↔
    ∃ j < c.numbering.size, state j = s ∧ isFinal (c.numbering.tuple j) = true
  mem_targets : ∀ s m u, u ∈ c.auto.targets s m ↔ Expanded next c.numbering i done s m u
  arcs_nonempty : ∀ s m, m ∈ c.auto.arcs s → ∃ u, u ∈ c.auto.targets s m
  numbered : ∀ j < i, ∀ e ∈ next (c.numbering.tuple j), ∃ k, c.numbering.find? e.2 = some k
  numbered_done : ∀ e ∈ done, ∃ k, c.numbering.find? e.2 = some k

variable {isFinal : List State → Bool} {next : List State → List (Move × List State)}
  {P : List State → Prop} {c : Construction} {n : Numbering} {i : Nat}
  {done : List (Move × List State)} {t : List State}

section Expanded

/-- Numbering a new tuple owes no new arc: every successor owed was numbered already. -/
theorem expanded_push (hi : i ≤ n.size) (ht : n.find? t = none)
    (hNumbered : ∀ j < i, ∀ e ∈ next (n.tuple j), ∃ k, n.find? e.2 = some k)
    (hDone : ∀ e ∈ done, ∃ k, n.find? e.2 = some k) {s : State} {m : Move} {u : State} :
    Expanded next (n.push t) i done s m u ↔ Expanded next n i done s m u := by
  -- A successor that had a number keeps it, and the new tuple has none before.
  have hKeep : ∀ t' k, (∃ k', n.find? t' = some k') →
      ((n.push t).find? t' = some k ↔ n.find? t' = some k) := by
    rintro t' k ⟨k', hk'⟩
    rw [find?_push_of_find?_eq_some ht hk', hk']
  unfold Expanded
  constructor
  · rintro (⟨j, hj, hs, t', k, hMem, hFind, hu⟩ | ⟨hs, t', k, hMem, hFind, hu⟩)
    · rw [tuple_push_of_lt (by omega)] at hMem
      rw [hKeep t' k (hNumbered j hj _ hMem)] at hFind
      exact Or.inl ⟨j, hj, hs, t', k, hMem, hFind, hu⟩
    · rw [hKeep t' k (hDone _ hMem)] at hFind
      exact Or.inr ⟨hs, t', k, hMem, hFind, hu⟩
  · rintro (⟨j, hj, hs, t', k, hMem, hFind, hu⟩ | ⟨hs, t', k, hMem, hFind, hu⟩)
    · rw [← hKeep t' k (hNumbered j hj _ hMem)] at hFind
      have hTuple : (n.push t).tuple j = n.tuple j := tuple_push_of_lt (by omega)
      rw [← hTuple] at hMem
      exact Or.inl ⟨j, hj, hs, t', k, hMem, hFind, hu⟩
    · rw [← hKeep t' k (hDone _ hMem)] at hFind
      exact Or.inr ⟨hs, t', k, hMem, hFind, hu⟩

/-- Expanding one more successor of tuple `i` owes the arc to its state. -/
theorem expanded_append {e : Move × List State} {s : State} {m : Move} {u : State} :
    Expanded next n i (done ++ [e]) s m u ↔ Expanded next n i done s m u ∨
      (state i = s ∧ e.1 = m ∧ ∃ k, n.find? e.2 = some k ∧ state k = u) := by
  unfold Expanded
  constructor
  · rintro (hOld | ⟨hs, t', k, hMem, hFind, hu⟩)
    · exact Or.inl (Or.inl hOld)
    · rcases List.mem_append.mp hMem with hMem | hMem
      · exact Or.inl (Or.inr ⟨hs, t', k, hMem, hFind, hu⟩)
      · obtain rfl := List.mem_singleton.mp hMem
        exact Or.inr ⟨hs, rfl, k, hFind, hu⟩
  · rintro ((hOld | ⟨hs, t', k, hMem, hFind, hu⟩) | ⟨hs, hm, k, hFind, hu⟩)
    · exact Or.inl hOld
    · exact Or.inr ⟨hs, t', k, List.mem_append_left _ hMem, hFind, hu⟩
    · subst hm
      exact Or.inr ⟨hs, e.2, k, List.mem_append_right _ (List.mem_singleton.mpr rfl), hFind, hu⟩

/-- Once all successors of tuple `i` are done, tuple `i` counts among the expanded ones. -/
theorem expanded_succ {s : State} {m : Move} {u : State} :
    Expanded next n i (next (n.tuple i)) s m u ↔ Expanded next n (i + 1) [] s m u := by
  unfold Expanded
  constructor
  · rintro (⟨j, hj, hRest⟩ | ⟨hs, hRest⟩)
    · exact Or.inl ⟨j, by omega, hRest⟩
    · exact Or.inl ⟨i, by omega, hs, hRest⟩
  · rintro (⟨j, hj, hRest⟩ | ⟨-, t', k, hMem, -⟩)
    · by_cases hji : j < i
      · exact Or.inl ⟨j, hji, hRest⟩
      · have hEq : j = i := by omega
        subst hEq
        exact Or.inr hRest
    · exact absurd hMem List.not_mem_nil

end Expanded

section Visit

variable {k j : Nat}

theorem visit_of_find?_eq_some (hn : c.numbering.Consistent) (h : c.numbering.find? t = some k) :
    c.visit isFinal t = (state k, c) := by
  have hk := lt_size_of_find?_eq_some hn h
  simp [visit, encode_of_find?_eq_some h, hk]

/-- A new tuple gets the next number, and its state is added, final when the tuple is. -/
theorem visit_of_find?_eq_none (h : c.numbering.find? t = none) :
    c.visit isFinal t = (state c.numbering.size,
      { numbering := c.numbering.push t
        auto := { c.auto with
          states := c.auto.states.insert (state c.numbering.size)
          final := if isFinal t then c.auto.final.insert (state c.numbering.size)
            else c.auto.final } }) := by
  simp only [visit, encode_of_find?_eq_none h, Nat.lt_irrefl, if_false]
  split <;> rfl

/-- Meeting a tuple changes only the states and the final states. -/
theorem visit_auto :
    ∃ states final, (c.visit isFinal t).2.auto = { c.auto with states := states, final := final } := by
  unfold visit
  split
  split
  · exact ⟨_, _, rfl⟩
  · split
    · exact ⟨_, _, rfl⟩
    · exact ⟨_, _, rfl⟩

theorem tuple_visit (hn : c.numbering.Consistent) (hj : j < c.numbering.size) :
    (c.visit isFinal t).2.numbering.tuple j = c.numbering.tuple j := by
  cases hFind : c.numbering.find? t with
  | none =>
    rw [visit_of_find?_eq_none hFind]
    exact tuple_push_of_lt hj
  | some k => rw [visit_of_find?_eq_some hn hFind]

theorem size_le_size_visit (hn : c.numbering.Consistent) :
    c.numbering.size ≤ (c.visit isFinal t).2.numbering.size := by
  cases hFind : c.numbering.find? t with
  | none =>
    rw [visit_of_find?_eq_none hFind, size_push]
    omega
  | some k => rw [visit_of_find?_eq_some hn hFind]

theorem find?_visit (hn : c.numbering.Consistent) {t' : List State}
    (h : c.numbering.find? t' = some k) : (c.visit isFinal t).2.numbering.find? t' = some k := by
  cases hFind : c.numbering.find? t with
  | none =>
    rw [visit_of_find?_eq_none hFind]
    exact find?_push_of_find?_eq_some hFind h
  | some k' => rw [visit_of_find?_eq_some hn hFind, h]

/-- Meeting a tuple of the family keeps the invariant and numbers the tuple with the state it
returns. -/
theorem explored_visit (h : Explored isFinal next P c i done) (hP : P t) :
    Explored isFinal next P (c.visit isFinal t).2 i done ∧
      ∃ k, (c.visit isFinal t).2.numbering.find? t = some k ∧ (c.visit isFinal t).1 = state k := by
  cases hFind : c.numbering.find? t with
  | some k =>
    rw [visit_of_find?_eq_some h.consistent hFind]
    exact ⟨h, k, hFind, rfl⟩
  | none =>
    rw [visit_of_find?_eq_none hFind]
    refine ⟨⟨consistent_push h.consistent hFind, ?_, ?_, ?_, ?_, ?_, h.arcs_nonempty, ?_, ?_⟩, ?_⟩
    · have := h.le_size
      simp only [size_push]
      omega
    · intro j hj
      rw [size_push] at hj
      rw [tuple_push]
      split
      · exact h.family j (by assumption)
      · rw [if_pos (by omega)]
        exact hP
    · intro s
      simp only [size_push, Std.ExtTreeSet.mem_insert, Std.LawfulEqCmp.compare_eq_iff_eq, h.mem_states]
      constructor
      · rintro (hs | ⟨j, hj, hs⟩)
        · exact ⟨c.numbering.size, by omega, hs⟩
        · exact ⟨j, by omega, hs⟩
      · rintro ⟨j, hj, hs⟩
        by_cases hLt : j < c.numbering.size
        · exact Or.inr ⟨j, hLt, hs⟩
        · left
          rw [← hs, show j = c.numbering.size by omega]
    · intro s
      simp only [size_push]
      constructor
      · intro hs
        -- The new state is final only when the new tuple is.
        by_cases hNew : isFinal t = true
        · simp only [hNew, if_true, Std.ExtTreeSet.mem_insert, Std.LawfulEqCmp.compare_eq_iff_eq] at hs
          rcases hs with hs | hs
          · exact ⟨c.numbering.size, by omega, hs, by simpa using hNew⟩
          · obtain ⟨j, hj, hsj, hFin⟩ := (h.mem_final s).mp hs
            exact ⟨j, by omega, hsj, by rw [tuple_push_of_lt hj]; exact hFin⟩
        · simp only [hNew, Bool.false_eq_true, if_false] at hs
          obtain ⟨j, hj, hsj, hFin⟩ := (h.mem_final s).mp hs
          exact ⟨j, by omega, hsj, by rw [tuple_push_of_lt hj]; exact hFin⟩
      · rintro ⟨j, hj, hsj, hFin⟩
        by_cases hLt : j < c.numbering.size
        · rw [tuple_push_of_lt hLt] at hFin
          have hOld := (h.mem_final s).mpr ⟨j, hLt, hsj, hFin⟩
          split
          · exact Std.ExtTreeSet.mem_insert.mpr (Or.inr hOld)
          · exact hOld
        · have hSize : j = c.numbering.size := by omega
          subst hSize
          simp only [tuple_push_size] at hFin
          simp only [hFin, if_true, ← hsj]
          exact Std.ExtTreeSet.mem_insert_self
    · intro s m u
      show u ∈ c.auto.targets s m ↔ Expanded next (c.numbering.push t) i done s m u
      rw [h.mem_targets, expanded_push h.le_size hFind h.numbered h.numbered_done]
    · intro j hj e he
      change e ∈ next ((c.numbering.push t).tuple j) at he
      rw [tuple_push_of_lt (by have := h.le_size; omega)] at he
      obtain ⟨k, hk⟩ := h.numbered j hj e he
      exact ⟨k, find?_push_of_find?_eq_some hFind hk⟩
    · intro e he
      obtain ⟨k, hk⟩ := h.numbered_done e he
      exact ⟨k, find?_push_of_find?_eq_some hFind hk⟩
    · exact ⟨c.numbering.size, by simp [find?_push], rfl⟩

end Visit

section Explore

/-- The empty construction on an automaton without states, final states or arcs. -/
theorem explored_empty {a : Automaton} (hStates : a.states = ∅) (hFinal : a.final = ∅)
    (hTable : a.table = ∅) : Explored isFinal next P { auto := a } 0 [] := by
  refine ⟨consistent_empty, Nat.zero_le _, ?_, ?_, ?_, ?_, ?_, ?_, ?_⟩
  · intro j hj
    exact absurd hj (Nat.not_lt_zero j)
  · intro s
    simp [hStates, Numbering.size]
  · intro s
    simp [hFinal, Numbering.size]
  · intro s m u
    simp [Automaton.targets, hTable, Expanded]
  · intro s m hm
    simp [Automaton.arcs, hTable] at hm
  · intro j hj
    exact absurd hj (Nat.not_lt_zero j)
  · intro e he
    exact absurd he List.not_mem_nil

/-- Starting from a new tuple numbers it and makes its state initial and current. -/
theorem start_of_find?_eq_none (h : c.numbering.find? t = none) :
    c.start isFinal t =
      { numbering := c.numbering.push t
        auto := ({ c.auto with
          states := c.auto.states.insert (state c.numbering.size)
          final := if isFinal t then c.auto.final.insert (state c.numbering.size)
            else c.auto.final } : Automaton).markInitial (state c.numbering.size) } := by
  simp only [start, visit_of_find?_eq_none h]

/-- Starting from a tuple meets it and makes its state initial and current. -/
theorem explored_start (h : Explored isFinal next P c i done) (hP : P t) :
    Explored isFinal next P (c.start isFinal t) i done ∧
      (c.start isFinal t).numbering = (c.visit isFinal t).2.numbering ∧
      ∃ k, (c.visit isFinal t).2.numbering.find? t = some k ∧
        (c.start isFinal t).auto = (c.visit isFinal t).2.auto.markInitial (state k) := by
  obtain ⟨hVisit, k, hFind, hState⟩ := explored_visit h hP
  rcases hPair : c.visit isFinal t with ⟨s, c'⟩
  rw [hPair] at hVisit hFind hState
  have hStart : c.start isFinal t = { c' with auto := c'.auto.markInitial s } := by
    simp only [start, hPair]
  simp only at hState
  subst hState
  refine ⟨?_, by rw [hStart], k, hFind, by rw [hStart]⟩
  rw [hStart]
  exact ⟨hVisit.consistent, hVisit.le_size, hVisit.family, hVisit.mem_states, hVisit.mem_final,
    hVisit.mem_targets, hVisit.arcs_nonempty, hVisit.numbered, hVisit.numbered_done⟩

/-- Starting from a tuple adds its state to the initial and the current states and changes
neither the alphabet nor the options. -/
theorem start_auto (h : Explored isFinal next P c i done) (hP : P t) :
    ∃ k, (c.start isFinal t).numbering.find? t = some k ∧
      (c.start isFinal t).auto.initial = c.auto.initial.insert (state k) ∧
      (c.start isFinal t).auto.current = c.auto.current.insert (state k) ∧
      (c.start isFinal t).auto.alphabet = c.auto.alphabet ∧
      (c.start isFinal t).auto.options = c.auto.options := by
  obtain ⟨-, hNumbering, k, hFind, hAuto⟩ := explored_start h hP
  obtain ⟨states, final, hVisit⟩ : ∃ states final,
      (c.visit isFinal t).2.auto = { c.auto with states := states, final := final } := visit_auto
  rw [hVisit] at hAuto
  refine ⟨k, hNumbering ▸ hFind, ?_⟩
  rw [hAuto]
  exact ⟨rfl, rfl, rfl, rfl⟩

/-- Expanding tuple `i` keeps the invariant and counts tuple `i` among the expanded ones. -/
theorem explored_expand (hClosed : ∀ t, P t → ∀ e ∈ next t, P e.2)
    (h : Explored isFinal next P c i []) (hi : i < c.numbering.size) :
    Explored isFinal next P (c.expand isFinal next i) (i + 1) [] := by
  have hTuple := h.family i hi
  unfold expand
  set step : Construction → Move × List State → Construction := fun c e =>
    { (c.visit isFinal e.2).2 with
      auto := (c.visit isFinal e.2).2.auto.addArc (state i) e.1 (c.visit isFinal e.2).1 } with hStep
  change Explored isFinal next P ((next (c.numbering.tuple i)).foldl step c) (i + 1) []
  -- One step meets a successor and adds its arc; tuple `i` keeps its place.
  have hOne : ∀ c' done e, e ∈ next (c.numbering.tuple i) → i < c'.numbering.size →
      Explored isFinal next P c' i done →
      i < (step c' e).numbering.size ∧
        (step c' e).numbering.tuple i = c'.numbering.tuple i ∧
        Explored isFinal next P (step c' e) i (done ++ [e]) := by
    intro c' done e he hi' h'
    have hSize : c'.numbering.size ≤ (c'.visit isFinal e.2).2.numbering.size :=
      size_le_size_visit h'.consistent
    have hTup : (c'.visit isFinal e.2).2.numbering.tuple i = c'.numbering.tuple i :=
      tuple_visit h'.consistent hi'
    obtain ⟨hVisit, k, hFind, hState⟩ := explored_visit h' (hClosed _ hTuple e he)
    rcases hPair : c'.visit isFinal e.2 with ⟨s, c''⟩
    rw [hPair] at hVisit hFind hState hSize hTup
    simp only at hState hSize hTup
    have hStepEq : step c' e = { c'' with auto := c''.auto.addArc (state i) e.1 s } := by
      simp only [hStep, hPair]
    rw [hStepEq]
    refine ⟨by show i < c''.numbering.size; omega, hTup, hVisit.consistent, hVisit.le_size, hVisit.family, hVisit.mem_states,
      hVisit.mem_final, ?_, ?_, hVisit.numbered, ?_⟩
    · intro s' m u
      show u ∈ (c''.auto.table.addArc (state i) e.1 s).targets s' m ↔ _
      rw [Table.mem_targets_addArc, expanded_append, ← hVisit.mem_targets s' m u]
      constructor
      · rintro (⟨hs, hm, hu⟩ | hOld)
        · exact Or.inr ⟨hs, hm, k, hFind, by rw [hu, hState]⟩
        · exact Or.inl hOld
      · rintro (hOld | ⟨hs, hm, k', hFind', hu⟩)
        · exact Or.inr hOld
        · rw [hFind] at hFind'
          obtain rfl := Option.some.inj hFind'
          exact Or.inl ⟨hs, hm, by rw [← hu, hState]⟩
    · intro s' m hm
      change m ∈ (c''.auto.table.addArc (state i) e.1 s).arcs s' at hm
      rcases Table.mem_arcs_addArc.mp hm with ⟨hs, hm⟩ | hOld
      · exact ⟨s, Table.mem_targets_addArc.mpr (Or.inl ⟨hs, hm, rfl⟩)⟩
      · obtain ⟨u, hu⟩ := hVisit.arcs_nonempty s' m hOld
        exact ⟨u, Table.mem_targets_addArc.mpr (Or.inr hu)⟩
    · intro e' he'
      rcases List.mem_append.mp he' with he' | he'
      · exact hVisit.numbered_done e' he'
      · obtain rfl := List.mem_singleton.mp he'
        exact ⟨k, hFind⟩
  -- The fold meets every successor in turn.
  have hFold : ∀ rest done c', done ++ rest = next (c.numbering.tuple i) →
      i < c'.numbering.size → c'.numbering.tuple i = c.numbering.tuple i →
      Explored isFinal next P c' i done →
      c.numbering.tuple i = (rest.foldl step c').numbering.tuple i ∧
        i < (rest.foldl step c').numbering.size ∧
        Explored isFinal next P (rest.foldl step c') i (next (c.numbering.tuple i)) := by
    intro rest
    induction rest with
    | nil =>
      intro done c' hDone hi' hTup h'
      rw [List.append_nil] at hDone
      exact ⟨hTup.symm, hi', hDone ▸ h'⟩
    | cons e rest ih =>
      intro done c' hDone hi' hTup h'
      have he : e ∈ next (c.numbering.tuple i) := by
        rw [← hDone]
        exact List.mem_append_right _ List.mem_cons_self
      obtain ⟨hi'', hTup', h''⟩ := hOne c' done e he hi' h'
      exact ih (done ++ [e]) (step c' e) (by rw [← hDone]; simp) hi'' (hTup'.trans hTup) h''
  obtain ⟨hTup, hSize, hEnd⟩ := hFold _ [] c rfl hi rfl h
  generalize (next (c.numbering.tuple i)).foldl step c = c₁ at hTup hSize hEnd ⊢
  rw [hTup] at hEnd
  refine ⟨hEnd.consistent, hSize, hEnd.family, hEnd.mem_states, hEnd.mem_final, ?_,
    hEnd.arcs_nonempty, ?_, ?_⟩
  · intro s m u
    rw [hEnd.mem_targets, expanded_succ]
  · intro j hj e he
    by_cases hji : j < i
    · exact hEnd.numbered j hji e he
    · have hEq : j = i := by omega
      subst hEq
      exact hEnd.numbered_done e he
  · intro e he
    exact absurd he List.not_mem_nil

/-- With fuel beyond the number of distinct tuples of the family, exploration ends with every
numbered tuple expanded. -/
theorem explored_exploreWithin (hClosed : ∀ t, P t → ∀ e ∈ next t, P e.2) {B : Nat}
    (hBound : ∀ L : List (List State), L.Nodup → (∀ t ∈ L, P t) → L.length ≤ B) :
    ∀ fuel c i, B < fuel + i → Explored isFinal next P c i [] →
      Explored isFinal next P (exploreWithin isFinal next fuel c i)
        (exploreWithin isFinal next fuel c i).numbering.size [] := by
  intro fuel
  induction fuel with
  | zero =>
    intro c i hFuel h
    -- Out of fuel, the expanded count would exceed the bound on the numbered count.
    have hSize := size_le_of_forall h.consistent hBound h.family
    have := h.le_size
    omega
  | succ fuel ih =>
    intro c i hFuel h
    rw [exploreWithin]
    split
    · rename_i hi
      exact ih _ _ (by omega) (explored_expand hClosed h hi)
    · rename_i hi
      have hEq : i = c.numbering.size := by
        have := h.le_size
        omega
      subst hEq
      exact h

end Explore

section Complete

variable {j : Nat} {s u : State} {m : Move}

/-- Once every numbered tuple is expanded, the arcs lead from the state of each tuple to the
states of its successors. -/
theorem mem_targets_of_explored (h : Explored isFinal next P c c.numbering.size []) :
    u ∈ c.auto.targets s m ↔ ∃ j < c.numbering.size, state j = s ∧
      ∃ k < c.numbering.size, (m, c.numbering.tuple k) ∈ next (c.numbering.tuple j) ∧
        state k = u := by
  rw [h.mem_targets, Expanded]
  constructor
  · rintro (⟨j, hj, hs, t', k, hMem, hFind, hu⟩ | ⟨-, _, _, hMem, -⟩)
    · refine ⟨j, hj, hs, k, lt_size_of_find?_eq_some h.consistent hFind, ?_, hu⟩
      rw [tuple_of_find?_eq_some h.consistent hFind]
      exact hMem
    · exact absurd hMem List.not_mem_nil
  · rintro ⟨j, hj, hs, k, hk, hMem, hu⟩
    exact Or.inl ⟨j, hj, hs, _, k, hMem, find?_tuple h.consistent hk, hu⟩

/-- Only numbered states have arcs. -/
theorem mem_states_of_mem_targets (h : Explored isFinal next P c c.numbering.size [])
    (hu : u ∈ c.auto.targets s m) : s ∈ c.auto.states := by
  obtain ⟨j, hj, hs, -⟩ := (mem_targets_of_explored h).mp hu
  exact (h.mem_states s).mpr ⟨j, hj, hs⟩

/-- With at most `2 ^ 64` numbers, the state of a tuple is final exactly when the tuple is. -/
theorem state_mem_final (h : Explored isFinal next P c i done) (hCap : c.numbering.size ≤ 2 ^ 64)
    (hj : j < c.numbering.size) :
    state j ∈ c.auto.final ↔ isFinal (c.numbering.tuple j) = true := by
  rw [h.mem_final]
  constructor
  · rintro ⟨j', hj', hState, hFinal⟩
    rw [state_inj (by omega) (by omega)] at hState
    subst hState
    exact hFinal
  · intro hFinal
    exact ⟨j, hj, rfl, hFinal⟩

/-- With at most `2 ^ 64` numbers, the arcs from the state of a tuple lead exactly to the
states of its successors. -/
theorem mem_targets_state (h : Explored isFinal next P c c.numbering.size [])
    (hCap : c.numbering.size ≤ 2 ^ 64) (hj : j < c.numbering.size) :
    u ∈ c.auto.targets (state j) m ↔
      ∃ k < c.numbering.size, (m, c.numbering.tuple k) ∈ next (c.numbering.tuple j) ∧
        state k = u := by
  rw [mem_targets_of_explored h]
  constructor
  · rintro ⟨j', hj', hState, hRest⟩
    rw [state_inj (by omega) (by omega)] at hState
    subst hState
    exact hRest
  · intro hRest
    exact ⟨j, hj, rfl, hRest⟩

end Complete

section Extends

theorem extends_visit (hn : c.numbering.Consistent) :
    c.numbering.Extends (c.visit isFinal t).2.numbering := by
  cases hFind : c.numbering.find? t with
  | none =>
    rw [visit_of_find?_eq_none hFind]
    exact extends_push hn hFind
  | some k =>
    rw [visit_of_find?_eq_some hn hFind]
    exact Extends.refl hn

theorem extends_expand (hn : c.numbering.Consistent) :
    c.numbering.Extends (c.expand isFinal next i).numbering := by
  unfold expand
  generalize next (c.numbering.tuple i) = succs
  induction succs generalizing c with
  | nil => exact Extends.refl hn
  | cons e succs ih =>
    rw [List.foldl_cons]
    rcases hPair : c.visit isFinal e.2 with ⟨s, c'⟩
    have hVisit : c.numbering.Extends (c.visit isFinal e.2).2.numbering := extends_visit hn
    rw [hPair] at hVisit
    exact hVisit.trans (ih hVisit.1)

/-- Exploring keeps the number of every tuple numbered at the start. -/
theorem extends_exploreWithin :
    ∀ (fuel : Nat) (c : Construction) (i : Nat), c.numbering.Consistent →
      c.numbering.Extends (exploreWithin isFinal next fuel c i).numbering := by
  intro fuel
  induction fuel with
  | zero => intro c i hn; exact Extends.refl hn
  | succ fuel ih =>
    intro c i hn
    rw [exploreWithin]
    split
    · have hExpand : c.numbering.Extends (c.expand isFinal next i).numbering := extends_expand hn
      exact hExpand.trans (ih _ _ hExpand.1)
    · exact Extends.refl hn

end Extends

section Start

/-- `c'` is `c` after starting from the tuples of `L`: every listed tuple is numbered, and the
initial and the current states gained exactly the states of the listed tuples. -/
structure StartedFrom (L : List (List State)) (c c' : Construction) : Prop where
  extends_numbering : c.numbering.Extends c'.numbering
  numbered : ∀ t ∈ L, ∃ k, c'.numbering.find? t = some k
  mem_initial : ∀ s, s ∈ c'.auto.initial ↔
    s ∈ c.auto.initial ∨ ∃ t ∈ L, ∃ k, c'.numbering.find? t = some k ∧ state k = s
  mem_current : ∀ s, s ∈ c'.auto.current ↔
    s ∈ c.auto.current ∨ ∃ t ∈ L, ∃ k, c'.numbering.find? t = some k ∧ state k = s
  alphabet : c'.auto.alphabet = c.auto.alphabet
  options : c'.auto.options = c.auto.options

/-- Starting from every tuple of a list keeps the invariant. -/
theorem explored_foldl_start {L : List (List State)} (hP : ∀ t ∈ L, P t) :
    ∀ c, Explored isFinal next P c i done →
      Explored isFinal next P (L.foldl (fun c t => c.start isFinal t) c) i done ∧
        StartedFrom L c (L.foldl (fun c t => c.start isFinal t) c) := by
  induction L with
  | nil =>
    intro c h
    refine ⟨h, Extends.refl h.consistent, by simp, fun s => ?_, fun s => ?_, rfl, rfl⟩ <;> simp
  | cons t L ih =>
    intro c h
    rw [List.foldl_cons]
    have hStart := explored_start h (hP t (List.mem_cons_self ..))
    obtain ⟨k, hFind, hInitial, hCurrent, hAlphabet, hOptions⟩ :=
      start_auto h (hP t (List.mem_cons_self ..))
    obtain ⟨hEnd, hRest⟩ := ih (fun t' ht' => hP t' (List.mem_cons_of_mem _ ht')) _ hStart.1
    -- The started tuple keeps its number through the later starts.
    have hExtStart : c.numbering.Extends (c.start isFinal t).numbering := by
      rw [hStart.2.1]
      exact extends_visit h.consistent
    have hKeep := hRest.extends_numbering.2 t k hFind
    -- A state of a started tuple, read in the final numbering.
    have hNew : ∀ s, s = state k ↔ ∃ k', (List.foldl (fun c t => c.start isFinal t)
        (c.start isFinal t) L).numbering.find? t = some k' ∧ state k' = s := by
      intro s
      constructor
      · rintro rfl
        exact ⟨k, hKeep, rfl⟩
      · rintro ⟨k', hk', rfl⟩
        rw [hKeep] at hk'
        cases hk'
        rfl
    refine ⟨hEnd, hExtStart.trans hRest.extends_numbering, ?_, fun s => ?_, fun s => ?_,
      hRest.alphabet.trans hAlphabet, hRest.options.trans hOptions⟩
    · intro t' ht'
      rcases List.mem_cons.mp ht' with rfl | ht'
      · exact ⟨k, hKeep⟩
      · exact hRest.numbered t' ht'
    · rw [hRest.mem_initial, hInitial, Std.ExtTreeSet.mem_insert, Std.LawfulEqCmp.compare_eq_iff_eq,
        eq_comm, hNew]
      simp only [List.mem_cons, exists_eq_or_imp]
      exact or_assoc.trans or_left_comm
    · rw [hRest.mem_current, hCurrent, Std.ExtTreeSet.mem_insert, Std.LawfulEqCmp.compare_eq_iff_eq,
        eq_comm, hNew]
      simp only [List.mem_cons, exists_eq_or_imp]
      exact or_assoc.trans or_left_comm

end Start

section Frame

/-- What exploring never changes: the initial and current states, the alphabet and the
options. -/
def frame (a : Automaton) : StateSet × StateSet × VarSet × Options :=
  (a.initial, a.current, a.alphabet, a.options)

theorem frame_visit : frame (c.visit isFinal t).2.auto = frame c.auto := by
  obtain ⟨states, final, hAuto⟩ : ∃ states final,
      (c.visit isFinal t).2.auto = { c.auto with states := states, final := final } := visit_auto
  rw [hAuto]
  rfl

theorem frame_expand : frame (c.expand isFinal next i).auto = frame c.auto := by
  unfold expand
  generalize next (c.numbering.tuple i) = succs
  induction succs generalizing c with
  | nil => rfl
  | cons e succs ih =>
    rw [List.foldl_cons, ih]
    rcases hPair : c.visit isFinal e.2 with ⟨s, c'⟩
    have hVisit : frame (c.visit isFinal e.2).2.auto = frame c.auto := frame_visit
    rw [hPair] at hVisit
    exact hVisit

theorem frame_exploreWithin :
    ∀ fuel c i, frame (exploreWithin isFinal next fuel c i).auto = frame c.auto := by
  intro fuel
  induction fuel with
  | zero => intro c i; rfl
  | succ fuel ih =>
    intro c i
    rw [exploreWithin]
    split
    · rw [ih, frame_expand]
    · rfl

variable {fuel : Nat}

theorem initial_exploreWithin :
    (exploreWithin isFinal next fuel c i).auto.initial = c.auto.initial :=
  congrArg (·.1) (frame_exploreWithin fuel c i)

theorem current_exploreWithin :
    (exploreWithin isFinal next fuel c i).auto.current = c.auto.current :=
  congrArg (·.2.1) (frame_exploreWithin fuel c i)

theorem alphabet_exploreWithin :
    (exploreWithin isFinal next fuel c i).auto.alphabet = c.auto.alphabet :=
  congrArg (·.2.2.1) (frame_exploreWithin fuel c i)

theorem options_exploreWithin :
    (exploreWithin isFinal next fuel c i).auto.options = c.auto.options :=
  congrArg (·.2.2.2) (frame_exploreWithin fuel c i)

end Frame

section Decoding

/-! Reading the states of a construction back as the tuples they stand for. -/

/-- The states of a construction are the numbers given out, read as 64-bit integers. -/
theorem Explored.states_eq (h : Explored isFinal next P c i done) :
    c.auto.states = Std.ExtTreeSet.ofList ((List.range c.numbering.size).map Int64.ofNat) := by
  apply Std.ExtTreeSet.ext_mem
  intro s
  rw [h.mem_states, Std.ExtTreeSet.mem_ofList, List.contains_iff_mem, List.mem_map]
  simp only [List.mem_range]
  rfl

/-- While at most `2 ^ 63` tuples are numbered, decoding is a bijection from the states onto the
numbered tuples. -/
theorem Explored.bijOn_decode? (h : Explored isFinal next P c i done)
    (hSize : c.numbering.size ≤ 2 ^ 63) :
    Set.BijOn c.numbering.decode? {s | s ∈ c.auto.states}
      ((fun j => some (c.numbering.tuple j)) '' Set.Iio c.numbering.size) := by
  refine ⟨?_, ?_, ?_⟩
  · intro s hs
    obtain ⟨j, hj, rfl⟩ := (h.mem_states s).mp hs
    exact ⟨j, hj, (decode?_state hSize hj).symm⟩
  · intro s hs s' hs' hDecode
    obtain ⟨j, hj, rfl⟩ := (h.mem_states s).mp hs
    obtain ⟨k, hk, rfl⟩ := (h.mem_states s').mp hs'
    rw [decode?_state hSize hj, decode?_state hSize hk, Option.some_inj,
      tuple_inj h.consistent hj hk] at hDecode
    rw [hDecode]
  · rintro _ ⟨j, hj, rfl⟩
    exact ⟨state j, (h.mem_states _).mpr ⟨j, hj, rfl⟩, decode?_state hSize hj⟩

/-- A state decodes only to a numbered tuple, which is of the family. -/
theorem Explored.family_of_decode? (h : Explored isFinal next P c i done)
    (hSize : c.numbering.size ≤ 2 ^ 63) {s : State} (hs : c.numbering.decode? s = some t) : P t := by
  obtain ⟨j, hj, -, rfl⟩ := (decode?_eq_some_iff hSize).mp hs
  exact h.family j hj

/-- Through decoding, the final states are those of the numbered tuples that are final. -/
theorem Explored.mem_final_iff_decode? (h : Explored isFinal next P c i done)
    (hSize : c.numbering.size ≤ 2 ^ 63) {s : State} :
    s ∈ c.auto.final ↔ ∃ t, c.numbering.decode? s = some t ∧ isFinal t = true := by
  rw [h.mem_final]
  simp only [decode?_eq_some_iff hSize]
  constructor
  · rintro ⟨j, hj, hs, hFinal⟩
    exact ⟨_, ⟨j, hj, hs, rfl⟩, hFinal⟩
  · rintro ⟨_, ⟨j, hj, hs, rfl⟩, hFinal⟩
    exact ⟨j, hj, hs, hFinal⟩

/-- Once every numbered tuple is expanded, through decoding the arcs lead from each numbered
tuple to its successors. -/
theorem Explored.mem_targets_iff_decode? (h : Explored isFinal next P c c.numbering.size [])
    (hSize : c.numbering.size ≤ 2 ^ 63) {s u : State} {m : Move} :
    u ∈ c.auto.targets s m ↔ ∃ t t', c.numbering.decode? s = some t ∧
      c.numbering.decode? u = some t' ∧ (m, t') ∈ next t := by
  rw [mem_targets_of_explored h]
  simp only [decode?_eq_some_iff hSize]
  constructor
  · rintro ⟨j, hj, hs, k, hk, hMove, hu⟩
    exact ⟨_, _, ⟨j, hj, hs, rfl⟩, ⟨k, hk, hu, rfl⟩, hMove⟩
  · rintro ⟨_, _, ⟨j, hj, hs, rfl⟩, ⟨k, hk, hu, rfl⟩, hMove⟩
    exact ⟨j, hj, hs, k, hk, hMove, hu⟩

/-- Once every numbered tuple is expanded, every tuple reached from a numbered one through
successors is numbered. -/
theorem Explored.numbered_of_reflTransGen (h : Explored isFinal next P c c.numbering.size [])
    {t' : List State} (ht : ∃ k, c.numbering.find? t = some k)
    (hReach : Relation.ReflTransGen (fun t t' => ∃ m, (m, t') ∈ next t) t t') :
    ∃ k, c.numbering.find? t' = some k := by
  -- Induction on the path from its end: the tuple before the last step is numbered, so expanded.
  induction hReach with
  | refl => exact ht
  | tail _ hStep ih =>
    obtain ⟨m, hm⟩ := hStep
    obtain ⟨k, hk⟩ := ih
    rw [← tuple_of_find?_eq_some h.consistent hk] at hm
    exact h.numbered k (lt_size_of_find?_eq_some h.consistent hk) _ hm

end Decoding

end Construction

end BitAutomata
