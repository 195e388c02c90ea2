import BitAutomata.Session
import BitAutomata.Proofs.Alphabet
import BitAutomata.Proofs.Completion
import BitAutomata.Proofs.Product
import BitAutomata.Proofs.Renumber

/-!
# Validity along a session

Every call that changes an automaton keeps it well formed, given what the call needs of the
automata it reads: the states an arc or a mark names are states, and a label assigns the
alphabet. One lemma per call says so (`wellFormed_addTransition` and its neighbours); the calls
that build a new automaton from old ones need nothing beyond the old ones being well formed.
A permitted call therefore writes a well-formed automaton into a session of well-formed automata
(`Call.wellFormed_result`), and every sequence of permitted calls from the empty session leaves
well-formed automata only (`Session.Reachable.wellFormed`), by induction on the calls
(`Session.Reachable.all`).

The documented preconditions are not enough. `addTransition` takes the variables of its label as
the alphabet whenever the alphabet is empty, also when arcs reading the empty label are already
there; those labels then no longer assign the alphabet
(`documented_calls_can_leave_invalid_automaton`). Permitted calls add the missing precondition:
while the alphabet is empty, a label given to `addTransition` is empty or no arc reads a label
yet.
-/

namespace BitAutomata

open Std Relation

namespace Label

variable {l : Label}

theorem hasDomain_domain : l.hasDomain l.domain = true :=
  hasDomain_iff.mpr fun _ => mem_domain.symm

end Label

namespace Automaton

variable {a b : Automaton} {s u : State} {l : Label} {m : Move}

theorem wellFormed_empty (o : Options) : (empty o).WellFormed where
  initial_mem _ h := absurd h ExtTreeSet.not_mem_empty
  final_mem _ h := absurd h ExtTreeSet.not_mem_empty
  current_mem _ h := absurd h ExtTreeSet.not_mem_empty
  source_mem _ _ h := absurd h (by simp [empty, arcs])
  label_domain _ _ h := absurd h (by simp [empty, arcs])
  target_mem _ _ _ h := absurd h (by simp [empty, targets])

theorem wellFormed_addState (hWF : a.WellFormed) (s : State) : (a.addState s).WellFormed := by
  have hGrow : ∀ x ∈ a.states, x ∈ (a.addState s).states :=
    fun _ hx => ExtTreeSet.mem_insert.mpr (Or.inr hx)
  exact ⟨fun x hx => hGrow x (hWF.initial_mem x hx), fun x hx => hGrow x (hWF.final_mem x hx),
    fun x hx => hGrow x (hWF.current_mem x hx), fun x m hm => hGrow x (hWF.source_mem x m hm),
    hWF.label_domain, fun x m y hy => hGrow y (hWF.target_mem x m y hy)⟩

/-- An arc between states keeps an automaton well formed when its label, if it reads one,
assigns the alphabet. -/
theorem wellFormed_addArc (hWF : a.WellFormed) (hs : s ∈ a.states) (hu : u ∈ a.states)
    (hm : ∀ l, m = .label l → l.hasDomain a.alphabet = true) : (a.addArc s m u).WellFormed := by
  refine ⟨hWF.initial_mem, hWF.final_mem, hWF.current_mem, ?_, ?_, ?_⟩
  · intro s' m' hm'
    rcases Table.mem_arcs_addArc.mp hm' with ⟨rfl, -⟩ | hOld
    · exact hs
    · exact hWF.source_mem s' m' hOld
  · intro s' l' hl'
    rcases Table.mem_arcs_addArc.mp hl' with ⟨-, hEq⟩ | hOld
    · exact hm l' hEq
    · exact hWF.label_domain s' l' hOld
  · intro s' m' y hy
    rcases Table.mem_targets_addArc.mp hy with ⟨-, -, rfl⟩ | hOld
    · exact hu
    · exact hWF.target_mem s' m' y hOld

/-- An arc reading a label keeps an automaton well formed when the label assigns the alphabet,
or when the alphabet, still empty, becomes the label's variables and no arc reads a label yet. -/
theorem wellFormed_addTransition (hWF : a.WellFormed) (hs : s ∈ a.states) (hu : u ∈ a.states)
    (hl : l.hasDomain a.alphabet = true ∨ a.alphabet = ∅ ∧ ∀ s' l', Move.label l' ∉ a.arcs s') :
    (a.addTransition s l u).WellFormed := by
  unfold addTransition
  split
  · -- The label's variables become the alphabet; every label already read must assign them.
    have hOld : ∀ s' l', Move.label l' ∈ a.arcs s' → l'.hasDomain l.domain = true := by
      intro s' l' hl'
      rcases hl with hl | ⟨-, hNoLabel⟩
      · refine Label.hasDomain_iff.mpr fun v => ?_
        rw [Label.mem_domain, Label.hasDomain_iff.mp hl v,
          Label.hasDomain_iff.mp (hWF.label_domain s' l' hl') v]
      · exact absurd hl' (hNoLabel s' l')
    have hCaptured : ({ a with alphabet := l.domain } : Automaton).WellFormed :=
      ⟨hWF.initial_mem, hWF.final_mem, hWF.current_mem, hWF.source_mem, hOld, hWF.target_mem⟩
    exact wellFormed_addArc hCaptured hs hu fun l' hEq => Move.label_inj.mp hEq ▸ Label.hasDomain_domain
  · rename_i hNonempty
    have hDom : l.hasDomain a.alphabet = true :=
      hl.resolve_right fun ⟨hNone, _⟩ => hNonempty (ExtTreeSet.isEmpty_iff.mpr hNone)
    exact wellFormed_addArc hWF hs hu fun l' hEq => Move.label_inj.mp hEq ▸ hDom

theorem wellFormed_addEpsilon (hWF : a.WellFormed) (hs : s ∈ a.states) (hu : u ∈ a.states) :
    (a.addEpsilon s u).WellFormed :=
  wellFormed_addArc hWF hs hu fun _ hEq => absurd hEq (Move.epsilon_ne_label _)

theorem forall_mem_insert {S : StateSet} {p : State → Prop} (hs : p s) (hS : ∀ x ∈ S, p x) :
    ∀ x ∈ S.insert s, p x := by
  intro x hx
  rcases ExtTreeSet.mem_insert.mp hx with hEq | hx
  · rw [← Std.compare_eq_iff_eq.mp hEq]
    exact hs
  · exact hS x hx

/-- New marked sets keep an automaton well formed while they hold states only. -/
theorem WellFormed.withMarks (hWF : a.WellFormed) {i f c : StateSet}
    (hi : ∀ x ∈ i, x ∈ a.states) (hf : ∀ x ∈ f, x ∈ a.states) (hc : ∀ x ∈ c, x ∈ a.states) :
    ({ a with initial := i, final := f, current := c } : Automaton).WellFormed :=
  ⟨hi, hf, hc, hWF.source_mem, hWF.label_domain, hWF.target_mem⟩

theorem wellFormed_markInitial (hWF : a.WellFormed) (hs : s ∈ a.states) :
    (a.markInitial s).WellFormed :=
  hWF.withMarks (forall_mem_insert hs hWF.initial_mem) hWF.final_mem
    (forall_mem_insert hs hWF.current_mem)

theorem wellFormed_markFinal (hWF : a.WellFormed) (hs : s ∈ a.states) :
    (a.markFinal s).WellFormed :=
  hWF.withMarks hWF.initial_mem (forall_mem_insert hs hWF.final_mem) hWF.current_mem

theorem wellFormed_addVarsOfIn (hWF : a.WellFormed) (b : Automaton) (o : Var → MapOrder) :
    (a.addVarsOfIn b o).WellFormed :=
  addVarsOfIn_preserves (fun _ _ _ h => wellFormed_addVarIn h) hWF b o

theorem wellFormed_addVarsOf (hWF : a.WellFormed) (b : Automaton) : (a.addVarsOf b).WellFormed :=
  wellFormed_addVarsOfIn hWF b fun _ => .byKey

theorem wellFormed_determinize (hWF : b.WellFormed) (recv : Automaton) :
    (recv.determinize b).WellFormed :=
  wellFormed_subsetConstruction _ hasEpsilon_eliminateEpsilon
    (wellFormed_eliminateEpsilon hWF).label_domain

theorem wellFormed_swapFinal (hWF : a.WellFormed) : a.swapFinal.WellFormed :=
  hWF.withMarks hWF.initial_mem (fun _ hx => (StateSet.mem_filter.mp hx).1) hWF.initial_mem

theorem wellFormed_complement (hWF : b.WellFormed) (recv : Automaton) :
    (recv.complement b).WellFormed := by
  have hBase : (complementBase recv b).WellFormed := by
    unfold complementBase
    split
    · exact ⟨hWF.initial_mem, hWF.final_mem, hWF.current_mem, hWF.source_mem, hWF.label_domain,
        hWF.target_mem⟩
    · exact wellFormed_determinize hWF _
  exact wellFormed_swapFinal (wellFormed_complete hBase)

theorem wellFormed_run (hWF : a.WellFormed) (w : List Label) : (a.run w).WellFormed :=
  hWF.withMarks hWF.initial_mem hWF.final_mem fun _ hx => hWF.mem_states_of_mem_reach hx

/-- A letter read from any set leads to states only: to targets of arcs. -/
theorem WellFormed.mem_states_of_mem_read (hWF : a.WellFormed) {S : StateSet} {y : State}
    (hy : y ∈ a.table.read S l) : y ∈ a.states := by
  obtain ⟨x, -, z, hz, hzy⟩ := Table.mem_read.mp hy
  rcases hzy.cases_tail with rfl | ⟨z', -, hSilent⟩
  · exact hWF.target_mem x _ y hz
  · exact hWF.target_mem z' _ y hSilent

theorem wellFormed_step (hWF : a.WellFormed) (l : Label) : (a.step l).WellFormed :=
  hWF.withMarks hWF.initial_mem hWF.final_mem fun _ hx => hWF.mem_states_of_mem_read hx

end Automaton

namespace Session

variable {σ : Session} {n n' m : String} {a : Automaton} {f : Automaton → Automaton}
  {r : String × Automaton} {p : Automaton → Prop}

/-- Every automaton the session holds has the property. -/
def All (p : Automaton → Prop) (σ : Session) : Prop :=
  ∀ n a, σ n = some a → p a

theorem all_empty (p : Automaton → Prop) : Session.empty.All p :=
  fun _ _ h => by cases h

theorem All.set (hσ : σ.All p) (ha : p a) : (σ.set n a).All p := by
  intro n' b hb
  unfold Session.set at hb
  split at hb
  · exact Option.some.inj hb ▸ ha
  · exact hσ n' b hb

/-- A call keeps a property of every automaton of a session when the automaton it writes, if
any, has the property. -/
theorem All.apply {c : Call} (hσ : σ.All p) (hr : ∀ r, c.result σ = some r → p r.2) :
    (c.apply σ).All p := by
  unfold Call.apply
  split
  · rename_i r hr'
    exact hσ.set (hr r hr')
  · exact hσ

theorem update_eq_some : σ.update n f = some r ↔ ∃ a, σ n = some a ∧ r = (n, f a) := by
  simp [update, eq_comm]

theorem update₂_eq_some {g : Automaton → Automaton → Automaton} :
    σ.update₂ n m g = some r ↔ ∃ a b, σ n = some a ∧ σ m = some b ∧ r = (n, g a b) := by
  simp only [update₂, Option.bind_eq_some_iff, update_eq_some]
  constructor
  · rintro ⟨b, hb, a, ha, rfl⟩
    exact ⟨a, b, ha, hb, rfl⟩
  · rintro ⟨a, b, ha, hb, rfl⟩
    exact ⟨b, hb, a, ha, rfl⟩

/-- The sessions that calls allowed by `P` lead to from the empty session. -/
inductive Reachable (P : Session → Call → Prop) : Session → Prop
  | empty : Reachable P Session.empty
  | call {σ : Session} (c : Call) : Reachable P σ → P σ c → Reachable P (c.apply σ)

/-- A property that every allowed call gives the automaton it writes, when every automaton of the
session has it, holds of every automaton of every session that allowed calls lead to. -/
theorem Reachable.all {P : Session → Call → Prop}
    (hStep : ∀ σ c, σ.All p → P σ c → ∀ r, c.result σ = some r → p r.2)
    (h : σ.Reachable P) : σ.All p := by
  induction h with
  | empty => exact all_empty p
  | call c _ hc ih => exact ih.apply (hStep _ c ih hc)

end Session

namespace Call

open Automaton

/-- What the interface documents of each call: the states an arc or a mark names are added
first; once the alphabet is not empty, a label given to `addTransition` assigns it; the operands
of `intersect` share an alphabet; `complete` is given a deterministic automaton; and the variable
`addToAlphabet` adds occurs in no label. -/
def Documented (σ : Session) : Call → Prop
  | addTransition n s l u => ∀ a, σ n = some a →
      s ∈ a.states ∧ u ∈ a.states ∧ (a.alphabet ≠ ∅ → l.hasDomain a.alphabet = true)
  | addEpsilon n s u => ∀ a, σ n = some a → s ∈ a.states ∧ u ∈ a.states
  | markInitial n s => ∀ a, σ n = some a → s ∈ a.states
  | markFinal n s => ∀ a, σ n = some a → s ∈ a.states
  | addToAlphabet n v _ => ∀ a, σ n = some a → ∀ s l, Move.label l ∈ a.arcs s → v ∉ l
  | intersect _ x y => ∀ a b, σ x = some a → σ y = some b → a.alphabet = b.alphabet
  | complete n => ∀ a, σ n = some a → a.isDeterministic = true
  | _ => True

/-- The precondition the documentation leaves out: while the alphabet is empty, a label given to
`addTransition` is empty or no arc reads a label yet. -/
def KeepsLabels (σ : Session) : Call → Prop
  | addTransition n _ l _ => ∀ a, σ n = some a → a.alphabet = ∅ →
      l.isEmpty = true ∨ ∀ s l', Move.label l' ∉ a.arcs s
  | _ => True

/-- The documented preconditions with the one they leave out. -/
def Permitted (σ : Session) (c : Call) : Prop :=
  c.Documented σ ∧ c.KeepsLabels σ

variable {σ : Session} {c : Call} {r : String × Automaton}

/-- What a permitted call of `addTransition` gives the lemma on one arc: the label assigns the
alphabet, or the alphabet is empty and no arc reads a label yet. -/
theorem Permitted.addTransition {n : String} {s u : State} {l : Label} {a : Automaton}
    (hc : (addTransition n s l u).Permitted σ) (ha : σ n = some a) :
    s ∈ a.states ∧ u ∈ a.states ∧
      (l.hasDomain a.alphabet = true ∨ a.alphabet = ∅ ∧ ∀ s' l', Move.label l' ∉ a.arcs s') := by
  obtain ⟨hs, hu, hDom⟩ := hc.1 a ha
  refine ⟨hs, hu, ?_⟩
  by_cases hNone : a.alphabet = ∅
  · rcases hc.2 a ha hNone with hEmpty | hNoLabel
    · -- The empty label assigns the empty alphabet.
      left
      rw [hNone, ExtTreeMap.isEmpty_iff.mp hEmpty]
      rfl
    · exact Or.inr ⟨hNone, hNoLabel⟩
  · exact Or.inl (hDom hNone)

/-- A permitted call writes a well-formed automaton when every automaton it reads is well
formed. -/
theorem wellFormed_result (hσ : σ.All Automaton.WellFormed) (hc : c.Permitted σ) (hr : c.result σ = some r) :
    r.2.WellFormed := by
  cases c with
  | new n o =>
    cases hr
    exact wellFormed_empty o
  | addState n s =>
    obtain ⟨a, ha, rfl⟩ := Session.update_eq_some.mp hr
    exact wellFormed_addState (hσ n a ha) s
  | addTransition n s l u =>
    obtain ⟨a, ha, rfl⟩ := Session.update_eq_some.mp hr
    obtain ⟨hs, hu, hl⟩ := hc.addTransition ha
    exact wellFormed_addTransition (hσ n a ha) hs hu hl
  | addEpsilon n s u =>
    obtain ⟨a, ha, rfl⟩ := Session.update_eq_some.mp hr
    obtain ⟨hs, hu⟩ := hc.1 a ha
    exact wellFormed_addEpsilon (hσ n a ha) hs hu
  | markInitial n s =>
    obtain ⟨a, ha, rfl⟩ := Session.update_eq_some.mp hr
    exact wellFormed_markInitial (hσ n a ha) (hc.1 a ha)
  | markFinal n s =>
    obtain ⟨a, ha, rfl⟩ := Session.update_eq_some.mp hr
    exact wellFormed_markFinal (hσ n a ha) (hc.1 a ha)
  | clone n n' =>
    obtain ⟨a, ha, rfl⟩ := Option.map_eq_some_iff.mp hr
    exact hσ n a ha
  | addToAlphabet n v o =>
    obtain ⟨a, ha, rfl⟩ := Session.update_eq_some.mp hr
    exact wellFormed_addVarIn (hσ n a ha)
  | insertFreeVars n m o =>
    obtain ⟨a, b, ha, -, rfl⟩ := Session.update₂_eq_some.mp hr
    exact wellFormed_addVarsOfIn (hσ n a ha) b o
  | intersect n x y =>
    obtain ⟨b, hb, hr⟩ := Option.bind_eq_some_iff.mp hr
    obtain ⟨a, c, -, -, rfl⟩ := Session.update₂_eq_some.mp hr
    exact wellFormed_intersect (hσ x b hb).label_domain
  | eliminateEpsilon n =>
    obtain ⟨a, ha, rfl⟩ := Session.update_eq_some.mp hr
    exact wellFormed_eliminateEpsilon (hσ n a ha)
  | determinize n m =>
    obtain ⟨a, b, -, hb, rfl⟩ := Session.update₂_eq_some.mp hr
    exact wellFormed_determinize (hσ m b hb) a
  | complete n =>
    obtain ⟨a, ha, rfl⟩ := Session.update_eq_some.mp hr
    exact wellFormed_complete (hσ n a ha)
  | complement n m =>
    obtain ⟨a, b, -, hb, rfl⟩ := Session.update₂_eq_some.mp hr
    exact wellFormed_complement (hσ m b hb) a
  | project n v =>
    obtain ⟨a, ha, rfl⟩ := Session.update_eq_some.mp hr
    exact wellFormed_project (hσ n a ha)
  | restate n o =>
    obtain ⟨a, ha, rfl⟩ := Session.update_eq_some.mp hr
    exact wellFormed_restateIn o (hσ n a ha)
  | run n w =>
    obtain ⟨a, ha, rfl⟩ := Session.update_eq_some.mp hr
    exact wellFormed_run (hσ n a ha) w
  | step n l =>
    obtain ⟨a, ha, rfl⟩ := Session.update_eq_some.mp hr
    exact wellFormed_step (hσ n a ha) l

end Call

namespace Session

variable {σ : Session}

/-- Every session that permitted calls lead to holds well-formed automata only. -/
theorem Reachable.wellFormed (h : σ.Reachable Call.Permitted) : σ.All Automaton.WellFormed :=
  h.all fun _ _ hσ hc _ hr => Call.wellFormed_result hσ hc hr

/-- After every call of a sequence of permitted calls from the empty session, every automaton
the session holds passes validation. Of the documented preconditions, those on `intersect`,
`complete` and `addToAlphabet` are not needed for this; the one the documentation leaves out
is. -/
theorem permitted_calls_keep_automata_valid (h : σ.Reachable Call.Permitted) :
    ∀ n a, σ n = some a → a.validate = none :=
  fun n a ha => Automaton.validate_eq_none_iff.mpr (h.wellFormed n a ha)

/-- Building an automaton whose alphabet is taken from its first label. -/
theorem permitted_calls_keep_automata_valid_while_building :
    let σ := (Call.markFinal "a" 1).apply <| (Call.markInitial "a" 0).apply <|
      (Call.addTransition "a" 0 ((∅ : Label).insert 0 true) 1).apply <|
      (Call.addState "a" 1).apply <| (Call.addState "a" 0).apply <|
        (Call.new "a" {}).apply Session.empty
    σ.Reachable Call.Permitted ∧ ∃ a, σ "a" = some a ∧ a.validate = none := by
  intro σ
  have hReach : σ.Reachable Call.Permitted := by
    refine .call _ (.call _ (.call _ (.call _ (.call _ (.call _ .empty ⟨trivial, trivial⟩)
      ⟨trivial, trivial⟩) ⟨trivial, trivial⟩) ⟨?_, ?_⟩) ⟨?_, trivial⟩) ⟨?_, trivial⟩
    · intro a ha
      cases ha
      decide
    · -- The alphabet is taken from the first label, while no arc reads a label.
      intro a ha _
      cases ha
      right
      intro s l
      simp [Automaton.arcs, Automaton.addState, Automaton.empty]
    · intro a ha
      cases ha
      decide
    · intro a ha
      cases ha
      decide
  exact ⟨hReach, _, rfl, permitted_calls_keep_automata_valid hReach "a" _ rfl⟩

/-- The documented preconditions alone do not keep automata valid: an arc reading the empty label
leaves the alphabet empty, the next label's variables become the alphabet, and the first label
no longer assigns it. -/
theorem documented_calls_can_leave_invalid_automaton :
    let σ := (Call.addTransition "a" 0 ((∅ : Label).insert 0 true) 0).apply <|
      (Call.addTransition "a" 0 ∅ 0).apply <| (Call.addState "a" 0).apply <|
        (Call.new "a" {}).apply Session.empty
    σ.Reachable Call.Documented ∧ ∃ a, σ "a" = some a ∧
      a.validate.map Violation.message =
        some "label [] from state 0 does not match alphabet [0]" := by
  intro σ
  refine ⟨.call _ (.call _ (.call _ (.call _ .empty trivial) trivial) ?_) ?_, _, rfl, by decide⟩
  · intro a ha
    cases ha
    decide
  · intro a ha
    cases ha
    decide

end Session

end BitAutomata
