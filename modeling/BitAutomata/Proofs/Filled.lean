import BitAutomata.Render.Listing
import BitAutomata.Proofs.Session

/-!
# Arcs with targets

A table may in principle file a move under a source with an empty set of targets: such an arc is
there for completion, which then adds no arc for its label, yet it leads nowhere. No call makes
one. Adding an arc gives it its target; rewriting arcs (splitting, merging, renaming, removing
silent arcs) never empties a set; and the constructions build arcs only towards states they
number. So in every session, whatever calls lead to it and whatever their preconditions, every
arc of every automaton has a target (`Session.Reachable.arcs_have_targets`). That is the
hypothesis on arcs under which completion was shown to make an automaton complete and
deterministic.

Arcs that all have targets are determined by their targets (`Arcs.Filled.ext`). Hence adding a
variable that no label assigns and projecting it away again gives such an automaton back
exactly (`project_undoes_addVar`): the two halves of each split arc fold into the arc they came
from, and silent arcs are not touched.
-/

namespace BitAutomata

open Std

namespace Arcs

variable {arcs other : Arcs} {m : Move} {u : State}

theorem Filled.add (h : arcs.Filled) : (arcs.add m u).Filled := by
  intro m' hm'
  rcases mem_add.mp hm' with rfl | hOld
  · exact ⟨u, mem_targets_add.mpr (Or.inl ⟨rfl, rfl⟩)⟩
  · obtain ⟨x, hx⟩ := h m' hOld
    exact ⟨x, mem_targets_add.mpr (Or.inr hx)⟩

theorem Filled.erase (h : arcs.Filled) (m : Move) : Arcs.Filled (arcs.erase m) := by
  intro m' hm'
  obtain ⟨hNe, hOld⟩ := mem_erase.mp hm'
  obtain ⟨x, hx⟩ := h m' hOld
  exact ⟨x, mem_targets_erase.mpr ⟨hNe, hx⟩⟩

theorem Filled.join (h : arcs.Filled) (h' : other.Filled) : (arcs.join other).Filled := by
  intro m' hm'
  rcases mem_of_mem_join hm' with hm' | hm'
  · obtain ⟨x, hx⟩ := h m' hm'
    exact ⟨x, mem_targets_join.mpr (Or.inl hx)⟩
  · obtain ⟨x, hx⟩ := h' m' hm'
    exact ⟨x, mem_targets_join.mpr (Or.inr hx)⟩

theorem Filled.image (h : arcs.Filled) (f : State → State) :
    Arcs.Filled (arcs.map fun _ ts => ts.image f) := by
  intro m' hm'
  obtain ⟨x, hx⟩ := h m' (ExtTreeMap.mem_map.mp hm')
  exact ⟨f x, mem_targets_map_image.mpr ⟨x, hx, rfl⟩⟩

/-- Arcs that all have targets are determined by their targets. -/
theorem Filled.ext (h : arcs.Filled) (h' : other.Filled)
    (hTargets : ∀ m, arcs.targets m = other.targets m) : arcs = other := by
  -- On either side a move has an arc exactly when it has a target.
  have hMem : ∀ m, m ∈ arcs ↔ m ∈ other := by
    intro m
    constructor
    · intro hm
      obtain ⟨x, hx⟩ := h m hm
      exact mem_of_mem_targets (hTargets m ▸ hx)
    · intro hm
      obtain ⟨x, hx⟩ := h' m hm
      exact mem_of_mem_targets ((hTargets m).symm ▸ hx)
  apply ExtTreeMap.ext_getElem?
  intro m
  by_cases hm : m ∈ arcs
  · rw [getElem?_eq_some_targets hm, getElem?_eq_some_targets ((hMem m).mp hm), hTargets]
  · rw [ExtTreeMap.getElem?_eq_none hm, ExtTreeMap.getElem?_eq_none (mt (hMem m).mpr hm)]

/-- Splitting every label arc on a variable that no label assigns and then projecting the
variable away gives the arcs back: both halves of a split arc fold into the arc they came from. -/
theorem Filled.forget_extend {v : Var} (h : arcs.Filled)
    (hLabels : ∀ l, Move.label l ∈ arcs → v ∉ l) : (arcs.extend v).forget v = arcs := by
  refine filled_forget.ext h fun m => ExtTreeSet.ext_mem fun u => ?_
  rw [mem_targets_forget]
  constructor
  · rintro ⟨m', rfl, hu⟩
    obtain ⟨m₀, x, rfl, hu₀⟩ := (mem_targets_extend hLabels).mp hu
    rwa [Move.forgetVar_assignVar fun l hl => hLabels l (hl ▸ mem_of_mem_targets hu₀)]
  · intro hu
    have hBack : (m.assignVar v false).forgetVar v = m :=
      Move.forgetVar_assignVar fun l hl => hLabels l (hl ▸ mem_of_mem_targets hu)
    exact ⟨m.assignVar v false, hBack, (mem_targets_extend hLabels).mpr ⟨m, false, rfl, hu⟩⟩

end Arcs

namespace Automaton

variable {a src : Automaton}

/-- Every arc of the automaton has a target. -/
def ArcsFilled (a : Automaton) : Prop :=
  ∀ s, (a.arcs s).Filled

theorem arcsFilled_empty (o : Options) : (empty o).ArcsFilled := by
  intro s
  rw [show (empty o).arcs s = ∅ from Table.arcs_empty]
  exact Arcs.filled_empty

/-- Whether every arc has a target depends on the table alone. -/
theorem ArcsFilled.of_table_eq {b : Automaton} (h : a.ArcsFilled) (hTable : b.table = a.table) :
    b.ArcsFilled := by
  intro s
  change (b.table.arcs s).Filled
  rw [hTable]
  exact h s

theorem ArcsFilled.addArc (h : a.ArcsFilled) (s : State) (m : Move) (u : State) :
    (a.addArc s m u).ArcsFilled := by
  intro s'
  change Arcs.Filled (Table.arcs (a.table.insert s ((a.table.arcs s).add m u)) s')
  rw [Table.arcs_insert]
  split
  · exact (h s).add
  · exact h s'

theorem ArcsFilled.addTransition (h : a.ArcsFilled) (s : State) (l : Label) (u : State) :
    (a.addTransition s l u).ArcsFilled := by
  unfold Automaton.addTransition
  split
  · exact ArcsFilled.addArc (show ({ a with alphabet := l.domain } : Automaton).ArcsFilled from h)
      s _ u
  · exact h.addArc s _ u

/-- A split arc copies the targets of an arc visited, whatever the order of the visit. -/
theorem ArcsFilled.addVarIn (h : a.ArcsFilled) (o : MapOrder) (v : Var) :
    (a.addVarIn o v).ArcsFilled := by
  by_cases hv : v ∈ a.alphabet
  · rwa [addVarIn_of_mem hv]
  · intro s
    rw [arcs_addVarIn hv]
    exact (h s).splitIn (o.arcsOf_perm s _)

theorem ArcsFilled.addVarsOfIn (h : a.ArcsFilled) (b : Automaton) (o : Var → MapOrder) :
    (a.addVarsOfIn b o).ArcsFilled :=
  addVarsOfIn_preserves (fun _ o v h => h.addVarIn o v) h b o

theorem ArcsFilled.project (h : a.ArcsFilled) (v : Var) : (a.project v).ArcsFilled := by
  by_cases hv : v ∈ a.alphabet
  · intro s
    rw [arcs_project hv]
    exact Arcs.filled_forget
  · rwa [project_of_not_mem hv]

/-- The product builds arcs only towards the pairs it numbers. -/
theorem arcsFilled_intersect (recv x y : Automaton) : (recv.intersect x y).ArcsFilled :=
  fun s m hm => (explored_productConstruction recv x y).arcs_nonempty s m hm

/-- The subset construction builds arcs only towards the sets it numbers. -/
theorem arcsFilled_determinize (recv src : Automaton) : (recv.determinize src).ArcsFilled := by
  intro s m hm
  change m ∈ (subsetConstruction recv src.eliminateEpsilon).auto.arcs s at hm
  by_cases hInit : src.eliminateEpsilon.initial = ∅
  · -- Without initial states nothing is built.
    rw [subsetConstruction_of_eq_empty _ hInit] at hm
    simp [Automaton.arcs, Automaton.clear, Automaton.empty] at hm
  · exact (explored_subsetConstruction recv hasEpsilon_eliminateEpsilon hInit).arcs_nonempty s m hm

/-- A move left at a state is one of its silent reach, whose targets the state now has. -/
theorem ArcsFilled.eliminateEpsilon (h : a.ArcsFilled) : a.eliminateEpsilon.ArcsFilled := by
  cases hEps : a.hasEpsilon
  · rwa [eliminateEpsilon_of_hasEpsilon_eq_false hEps]
  · intro s
    by_cases hs : s ∈ a.states
    · intro m hm
      obtain ⟨hSilent, v, hv, hmv⟩ := mem_arcs_eliminateEpsilon hEps hm
      obtain ⟨u, hu⟩ := h v m hmv
      exact ⟨u, (mem_targets_eliminateEpsilon_of_mem hEps hs).mpr ⟨hSilent, v, hv, hu⟩⟩
    · rw [eliminateEpsilon_arcs_of_not_mem hEps hs]
      exact (h s).erase _

/-- Completion sends every arc it adds to the sink. -/
theorem ArcsFilled.complete (h : a.ArcsFilled) : a.complete.ArcsFilled := by
  cases hSink : a.needsSink
  · rwa [complete_of_needsSink_eq_false hSink]
  · intro s m hm
    rcases (mem_arcs_complete hSink).mp hm with hOld | hMissing
    · obtain ⟨u, hu⟩ := h s m hOld
      exact ⟨u, (mem_targets_complete hSink).mpr (Or.inl hu)⟩
    · exact ⟨a.freshState, (mem_targets_complete hSink).mpr (Or.inr ⟨rfl, hMissing⟩)⟩

theorem ArcsFilled.complement (h : src.ArcsFilled) (recv : Automaton) :
    (recv.complement src).ArcsFilled := by
  have hBase : (complementBase recv src).ArcsFilled := by
    unfold complementBase
    split
    · exact h
    · exact arcsFilled_determinize _ src
  exact hBase.complete

/-- A renamed source carries the renamed arcs of one source, whatever the order of the visit. -/
theorem ArcsFilled.renumberIn (h : a.ArcsFilled) (o : MapOrder) (f : State → State) :
    (a.renumberIn o f).ArcsFilled := by
  intro k
  rcases arcs_renumberIn (a := a) (f := f) o k with hNone | ⟨s, -, hArcs⟩
  · rw [hNone]
    exact Arcs.filled_empty
  · rw [hArcs]
    exact (h s).image f

/-- With every arc filled, a move has an arc from a state exactly when it has a target there. -/
theorem ArcsFilled.mem_arcs_iff (h : a.ArcsFilled) {s : State} {m : Move} :
    m ∈ a.arcs s ↔ ∃ u, u ∈ a.targets s m :=
  ⟨h s m, fun ⟨_, hu⟩ => Table.mem_arcs_of_mem_targets hu⟩

/-- With every arc filled, the automaton has a silent target exactly when some state has a silent
arc. -/
theorem ArcsFilled.hasEpsilon_iff (h : a.ArcsFilled) :
    a.hasEpsilon = true ↔ ∃ s, Move.epsilon ∈ a.arcs s := by
  rw [← Bool.not_eq_false, hasEpsilon_eq_false_iff]
  simp only [h.mem_arcs_iff, ExtTreeSet.eq_empty_iff_forall_not_mem, not_forall, not_not]

/-- With every arc filled, completion finds a hole exactly at a state and a total label that has
no targets there. -/
theorem ArcsFilled.mem_holes_iff (h : a.ArcsFilled) {s : State} {l : Label} :
    (s, l) ∈ a.holes ↔
      s ∈ a.states ∧ l.hasDomain a.alphabet = true ∧ a.targets s (.label l) = ∅ := by
  rw [mem_holes, h.mem_arcs_iff, ExtTreeSet.eq_empty_iff_forall_not_mem]
  simp only [not_exists]

section RoundTrip

variable {v : Var}

/-- Splitting every arc on a variable that no label assigns and projecting it away again gives
the table back, when every arc has a target. -/
theorem ArcsFilled.forget_extend_table (h : a.ArcsFilled)
    (hLabels : ∀ s l, Move.label l ∈ a.arcs s → v ∉ l) :
    (a.table.map fun _ arcs => arcs.extend v).map (fun _ arcs => arcs.forget v) = a.table := by
  apply ExtTreeMap.ext_getElem?
  intro s
  rw [ExtTreeMap.map_map, ExtTreeMap.getElem?_map]
  cases hs : a.table[s]? with
  | none => rfl
  | some arcs =>
    have hArcs : a.arcs s = arcs := by
      rw [Automaton.arcs, Table.arcs_eq_getD_getElem?, hs]
      rfl
    rw [Option.map_some, ← hArcs, (h s).forget_extend (hLabels s)]

/-- Adding a variable that neither the alphabet nor any label holds and then projecting it away
gives back the automaton, field by field, so its listing is unchanged too. Every arc is taken to
have a target, as in every automaton that calls build (`Session.Reachable.arcs_have_targets`). -/
theorem project_undoes_addVar (h : a.ArcsFilled) (hv : v ∉ a.alphabet)
    (hLabels : ∀ s l, Move.label l ∈ a.arcs s → v ∉ l) :
    (a.addVar v).project v = a ∧ ((a.addVar v).project v).listing = a.listing := by
  have hIn : v ∈ (a.addVar v).alphabet := by
    rw [alphabet_addVar hv]
    exact ExtTreeSet.mem_insert_self
  have hAlphabet : (a.alphabet.insert v).erase v = a.alphabet := by
    apply ExtTreeSet.ext_mem
    intro u
    simp only [ExtTreeSet.mem_erase, ExtTreeSet.mem_insert, ne_eq, Std.LawfulEqCmp.compare_eq_iff_eq]
    constructor
    · rintro ⟨hu, rfl | hu'⟩
      · exact absurd rfl hu
      · exact hu'
    · intro hu
      refine ⟨?_, Or.inr hu⟩
      rintro rfl
      exact hv hu
  have hRoundTrip : (a.addVar v).project v = a := by
    rw [project_of_mem hIn, alphabet_addVar hv, addVar_of_not_mem hv]
    dsimp only
    rw [h.forget_extend_table hLabels, hAlphabet]
  exact ⟨hRoundTrip, by rw [hRoundTrip]⟩

/-- The theorem at an automaton with two label arcs and a silent arc, and a new variable. -/
theorem project_undoes_addVar_beside_silent_arc :
    let a := (((((Automaton.empty {}).addState 0).addState 1).addTransition 0
      ((∅ : Label).insert 0 true) 1).addTransition 0 ((∅ : Label).insert 0 false) 0).addEpsilon 1 0
      |>.markInitial 0 |>.markFinal 1
    a.ArcsFilled ∧ (2 : Var) ∉ a.alphabet ∧ (∀ s l, Move.label l ∈ a.arcs s → (2 : Var) ∉ l) ∧
      (a.addVar 2).project 2 = a ∧ ((a.addVar 2).project 2).listing = a.listing := by
  intro a
  have h : a.ArcsFilled := by
    have hStates : (((Automaton.empty {}).addState 0).addState 1).ArcsFilled :=
      (arcsFilled_empty {}).of_table_eq rfl
    have hArcs := ((hStates.addTransition 0 ((∅ : Label).insert 0 true) 1).addTransition 0
      ((∅ : Label).insert 0 false) 0).addArc 1 .epsilon 0
    exact hArcs.of_table_eq rfl
  have hv : (2 : Var) ∉ a.alphabet := by decide
  have hLabels := (validate_eq_none_iff.mp (by decide : a.validate = none)).not_mem_label hv
  exact ⟨h, hv, hLabels, project_undoes_addVar h hv hLabels⟩

end RoundTrip

end Automaton

namespace Call

open Automaton

variable {σ : Session} {c : Call} {r : String × Automaton}

/-- Every call writes an automaton whose arcs all have targets when the automata it reads have
them; it needs no precondition for that. -/
theorem arcsFilled_result (hσ : σ.All ArcsFilled) (hr : c.result σ = some r) :
    r.2.ArcsFilled := by
  cases c with
  | new n o =>
    cases hr
    exact arcsFilled_empty o
  | addState n s =>
    obtain ⟨a, ha, rfl⟩ := Session.update_eq_some.mp hr
    exact hσ n a ha
  | addTransition n s l u =>
    obtain ⟨a, ha, rfl⟩ := Session.update_eq_some.mp hr
    exact (hσ n a ha).addTransition s l u
  | addEpsilon n s u =>
    obtain ⟨a, ha, rfl⟩ := Session.update_eq_some.mp hr
    exact (hσ n a ha).addArc s _ u
  | markInitial n s =>
    obtain ⟨a, ha, rfl⟩ := Session.update_eq_some.mp hr
    exact hσ n a ha
  | markFinal n s =>
    obtain ⟨a, ha, rfl⟩ := Session.update_eq_some.mp hr
    exact hσ n a ha
  | clone n n' =>
    obtain ⟨a, ha, rfl⟩ := Option.map_eq_some_iff.mp hr
    exact hσ n a ha
  | addToAlphabet n v o =>
    obtain ⟨a, ha, rfl⟩ := Session.update_eq_some.mp hr
    exact (hσ n a ha).addVarIn o v
  | insertFreeVars n m o =>
    obtain ⟨a, b, ha, -, rfl⟩ := Session.update₂_eq_some.mp hr
    exact (hσ n a ha).addVarsOfIn b o
  | intersect n x y =>
    obtain ⟨b, -, hr⟩ := Option.bind_eq_some_iff.mp hr
    obtain ⟨a, c, -, -, rfl⟩ := Session.update₂_eq_some.mp hr
    exact arcsFilled_intersect a b c
  | eliminateEpsilon n =>
    obtain ⟨a, ha, rfl⟩ := Session.update_eq_some.mp hr
    exact (hσ n a ha).eliminateEpsilon
  | determinize n m =>
    obtain ⟨a, b, -, -, rfl⟩ := Session.update₂_eq_some.mp hr
    exact arcsFilled_determinize a b
  | complete n =>
    obtain ⟨a, ha, rfl⟩ := Session.update_eq_some.mp hr
    exact (hσ n a ha).complete
  | complement n m =>
    obtain ⟨a, b, -, hb, rfl⟩ := Session.update₂_eq_some.mp hr
    exact (hσ m b hb).complement a
  | project n v =>
    obtain ⟨a, ha, rfl⟩ := Session.update_eq_some.mp hr
    exact (hσ n a ha).project v
  | restate n o =>
    obtain ⟨a, ha, rfl⟩ := Session.update_eq_some.mp hr
    exact (hσ n a ha).renumberIn o _
  | run n w =>
    obtain ⟨a, ha, rfl⟩ := Session.update_eq_some.mp hr
    exact hσ n a ha
  | step n l =>
    obtain ⟨a, ha, rfl⟩ := Session.update_eq_some.mp hr
    exact hσ n a ha

end Call

/-- Whatever calls lead to a session, every arc of every automaton it holds has a target. -/
theorem Session.Reachable.arcs_have_targets {P : Session → Call → Prop} {σ : Session}
    (h : σ.Reachable P) :
    ∀ n a, σ n = some a → ∀ s m, m ∈ a.arcs s → ∃ u, u ∈ a.targets s m :=
  h.all fun _ _ hσ _ _ hr => Call.arcsFilled_result hσ hr

/-- Whatever calls lead to a session, every arc of every automaton it holds has a target and is
filed under the key of what it reads: the silent key exactly when it reads no label, the label's
key otherwise. So a move has an arc from a state exactly when it has targets there: the automaton
has a silent target exactly when some state has a silent arc, and completion finds a hole exactly
at a state and a total label without targets. -/
theorem Session.Reachable.arcs_filed_under_their_labels {P : Session → Call → Prop}
    {σ : Session} (h : σ.Reachable P) {n : String} {a : Automaton} (ha : σ n = some a) :
    (∀ s m, m ∈ a.arcs s → (∃ u, u ∈ a.targets s m) ∧ (m.key = "ε" ↔ m.label? = none) ∧
        ∀ l, m.label? = some l → m.key = l.key) ∧
      (∀ s m, m ∈ a.arcs s ↔ ∃ u, u ∈ a.targets s m) ∧
      (a.hasEpsilon = true ↔ ∃ s, Move.epsilon ∈ a.arcs s) ∧
      ∀ s l, (s, l) ∈ a.holes ↔
        s ∈ a.states ∧ l.hasDomain a.alphabet = true ∧ a.targets s (.label l) = ∅ := by
  have hFilled : a.ArcsFilled := h.arcs_have_targets n a ha
  refine ⟨fun s m hm => ⟨hFilled s m hm, m.key_eq_epsilon_iff, ?_⟩, fun _ _ => hFilled.mem_arcs_iff,
    hFilled.hasEpsilon_iff, fun _ _ => hFilled.mem_holes_iff⟩
  exact fun _ hl => Move.key_eq_of_label?_eq_some hl

/-- The theorem after calls without their preconditions: an arc whose label does not match the
alphabet, split on a variable it already assigns so that two arcs split into one move, visited in
descending key order; then a silent arc removed and the states renumbered. -/
theorem arcs_filed_under_their_labels_after_colliding_split :
    let σ := (Call.restate "a" .byKeyDesc).apply <| (Call.eliminateEpsilon "a").apply <|
      (Call.addEpsilon "a" 1 0).apply <| (Call.addToAlphabet "a" 2 .byKeyDesc).apply <|
      (Call.addTransition "a" 0 (((∅ : Label).insert 1 true).insert 2 false) 1).apply <|
      (Call.addTransition "a" 0 ((∅ : Label).insert 1 true) 0).apply <|
      (Call.addState "a" 1).apply <| (Call.addState "a" 0).apply <|
        (Call.new "a" {}).apply Session.empty
    σ.Reachable (fun _ _ => True) ∧ ∃ a, σ "a" = some a ∧
      (∀ s m, m ∈ a.arcs s → (∃ u, u ∈ a.targets s m) ∧ (m.key = "ε" ↔ m.label? = none) ∧
        ∀ l, m.label? = some l → m.key = l.key) ∧
      (∀ s m, m ∈ a.arcs s ↔ ∃ u, u ∈ a.targets s m) ∧
      (a.hasEpsilon = true ↔ ∃ s, Move.epsilon ∈ a.arcs s) ∧
      ∀ s l, (s, l) ∈ a.holes ↔
        s ∈ a.states ∧ l.hasDomain a.alphabet = true ∧ a.targets s (.label l) = ∅ := by
  intro σ
  have hReach : σ.Reachable fun _ _ => True :=
    .call _ (.call _ (.call _ (.call _ (.call _ (.call _ (.call _ (.call _ (.call _ .empty trivial)
      trivial) trivial) trivial) trivial) trivial) trivial) trivial) trivial
  exact ⟨hReach, _, rfl, hReach.arcs_filed_under_their_labels (n := "a") rfl⟩

end BitAutomata
