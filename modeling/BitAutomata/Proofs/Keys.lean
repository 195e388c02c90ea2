import Mathlib.Data.List.Basic
import BitAutomata.Move

/-!
# Keys name labels exactly

Arcs are stored and looked up by the key of their move. This file shows that the key loses
nothing: a label's key is a comma-separated list of entries `v:1` or `v:0`, none of which holds a
comma, so the entries and then the assignments can be read back. No label has the silent key
`ε`. Hence two moves with the same key are the same move, and the order on moves is a lawful
one: the tree maps of arcs behave as maps keyed by moves. Two labels have the same key exactly
when they assign the same variables the same values (`Label.key_eq_iff_same_assignment`).
-/

namespace BitAutomata

/-- Texts joined by commas can be read back when none of them is empty or holds a comma:
splitting at the commas gives them back. -/
theorem intercalate_comma_injective {es es' : List String}
    (hes : ∀ e ∈ es, ',' ∉ e.toList ∧ e.toList ≠ [])
    (hes' : ∀ e ∈ es', ',' ∉ e.toList ∧ e.toList ≠ [])
    (h : ",".intercalate es = ",".intercalate es') : es = es' := by
  -- Splitting at commas gives back the texts, unless there are none at all.
  have hSplit : ∀ es : List String, (∀ e ∈ es, ',' ∉ e.toList ∧ e.toList ≠ []) →
      (",".intercalate es).toList.splitOn ',' = if es = [] then [[]] else es.map String.toList := by
    intro es hes
    rw [String.toList_intercalate, show ",".toList = [','] by simp]
    cases es with
    | nil => rfl
    | cons e es =>
      rw [if_neg (List.cons_ne_nil e es)]
      apply List.splitOn_intercalate
      · intro cs hcs
        obtain ⟨e', he', rfl⟩ := List.mem_map.mp hcs
        exact (hes e' he').1
      · simp
  have hSame : (",".intercalate es).toList.splitOn ',' = (",".intercalate es').toList.splitOn ',' := by
    rw [h]
  rw [hSplit _ hes, hSplit _ hes'] at hSame
  have hMapInj := List.map_injective_iff.mpr (fun _ _ h => String.toList_inj.mp h)
  split at hSame <;> split at hSame
  · simp_all
  · rename_i hNil hCons
    obtain ⟨e, es, rfl⟩ := List.exists_cons_of_ne_nil hCons
    rw [List.map_cons, List.cons_eq_cons] at hSame
    exact absurd hSame.1.symm (hes' e List.mem_cons_self).2
  · rename_i hCons hNil
    obtain ⟨e, es, rfl⟩ := List.exists_cons_of_ne_nil hCons
    rw [List.map_cons, List.cons_eq_cons] at hSame
    exact absurd hSame.1 (hes e List.mem_cons_self).2
  · exact hMapInj hSame

namespace Label

theorem mem_domain {l : Label} {v : Var} : v ∈ l.domain ↔ v ∈ l := by
  simp [domain, Std.ExtTreeSet.mem_ofList]

/-- The characters of one entry: the variable's decimal digits, a colon, and the bit. -/
theorem entryKey_toList (v : Var) (b : Bool) :
    (entryKey v b).toList = Nat.toDigits 10 v.toNat ++ [':', if b then '1' else '0'] := by
  cases b <;> simp [entryKey, Nat.toString_eq_repr, Nat.toList_repr]

/-- An entry never holds the comma that separates entries. -/
theorem comma_not_mem_entryKey (v : Var) (b : Bool) : ',' ∉ (entryKey v b).toList := by
  rw [entryKey_toList]
  intro hMem
  simp only [List.mem_append, List.mem_cons, List.not_mem_nil] at hMem
  rcases hMem with hDigit | hColon | hBit | hFalse
  · have hIsDigit := Nat.isDigit_of_mem_toDigits (by decide) (by decide) hDigit
    simp at hIsDigit
  · simp at hColon
  · cases b <;> simp at hBit
  · exact hFalse

theorem entryKey_toList_ne_nil (v : Var) (b : Bool) : (entryKey v b).toList ≠ [] := by
  simp [entryKey_toList]

/-- An entry determines its variable and its bit. -/
theorem entryKey_injective {v v' : Var} {b b' : Bool}
    (h : entryKey v b = entryKey v' b') : v = v' ∧ b = b' := by
  have hReversed := congrArg (fun s => s.toList.reverse) h
  simp only [entryKey_toList, List.reverse_append] at hReversed
  simp at hReversed
  obtain ⟨hBit, hDigits⟩ := hReversed
  have hNat : v.toNat = v'.toNat := by
    have hRead := congrArg (fun ds => Nat.ofDigitChars 10 ds 0) hDigits
    simpa using hRead
  refine ⟨UInt64.toNat_inj.mp hNat, ?_⟩
  cases b <;> cases b' <;> simp_all

/-- The key of a label determines the label. -/
theorem key_injective : Function.Injective key := by
  intro l l' hKey
  have hEntries : ∀ k : Label, ∀ e ∈ k.entryKeys, ',' ∉ e.toList ∧ e.toList ≠ [] := by
    intro k e he
    obtain ⟨p, -, rfl⟩ := List.mem_map.mp he
    exact ⟨comma_not_mem_entryKey p.1 p.2, entryKey_toList_ne_nil p.1 p.2⟩
  have hEntryKeys : l.entryKeys = l'.entryKeys :=
    intercalate_comma_injective (hEntries l) (hEntries l') hKey
  have hPairs : l.toList = l'.toList := by
    have hEntryInj : Function.Injective fun e : Var × Bool => entryKey e.1 e.2 := by
      intro e e' h
      obtain ⟨h1, h2⟩ := entryKey_injective h
      exact Prod.ext h1 h2
    exact List.map_injective_iff.mpr hEntryInj hEntryKeys
  exact Std.ExtTreeMap.toList_inj.mp hPairs

/-- No label has the key of the silent move. -/
theorem key_ne_epsilon (l : Label) : l.key ≠ "ε" := by
  intro hKey
  have hChars := congrArg String.toList hKey
  simp only [key, String.toList_intercalate] at hChars
  cases hEntries : l.entryKeys with
  | nil => simp [hEntries] at hChars
  | cons e es =>
    rw [hEntries] at hChars
    have hMem : e ∈ l.entryKeys := by simp [hEntries]
    obtain ⟨p, -, rfl⟩ := List.mem_map.mp hMem
    have hLong : 2 ≤ (entryKey p.1 p.2).toList.length := by
      simp [entryKey_toList]
    cases es with
    | nil => simp at hChars; simp [hChars] at hLong
    | cons e' es' =>
      have hLength := congrArg List.length hChars
      simp [List.intercalate_cons_cons] at hLength
      omega

end Label

namespace Move

/-- The key of a move determines the move. -/
theorem key_injective : Function.Injective Move.key := by
  rintro ⟨lo, k, hk⟩ ⟨lo', k', hk'⟩ hKey
  simp only at hKey
  subst hk hk'
  have hLabel : lo = lo' := by
    cases lo <;> cases lo' <;> simp only [keyOf] at hKey
    · rfl
    · exact absurd hKey.symm (Label.key_ne_epsilon _)
    · exact absurd hKey (Label.key_ne_epsilon _)
    · rw [Label.key_injective hKey]
  subst hLabel
  rfl

theorem compare_eq_iff {m m' : Move} : compare m m' = .eq ↔ m = m' := by
  change compare m.key m'.key = .eq ↔ m = m'
  rw [Std.LawfulEqCmp.compare_eq_iff_eq]
  exact ⟨fun h => key_injective h, fun h => h ▸ rfl⟩

instance : Std.LawfulEqCmp (compare : Move → Move → Ordering) where
  compare_self := compare_eq_iff.mpr rfl
  eq_of_compare := compare_eq_iff.mp

/-- A move is silent or reads a label. -/
theorem eq_epsilon_or_eq_label (m : Move) : m = .epsilon ∨ ∃ l, m = .label l := by
  obtain ⟨lo, k, hk⟩ := m
  subst hk
  cases lo with
  | none => exact Or.inl rfl
  | some l => exact Or.inr ⟨l, rfl⟩

@[simp]
theorem label_ne_epsilon (l : Label) : Move.label l ≠ Move.epsilon := by
  intro h
  exact Label.key_ne_epsilon l (congrArg Move.key h)

@[simp]
theorem label_inj {l l' : Label} : Move.label l = Move.label l' ↔ l = l' := by
  constructor
  · intro h
    exact Label.key_injective (congrArg Move.key h)
  · intro h
    rw [h]

/-- A move is filed under the silent key exactly when it reads no label. -/
theorem key_eq_epsilon_iff (m : Move) : m.key = "ε" ↔ m.label? = none := by
  rw [m.key_eq]
  cases m.label? with
  | none => simp [keyOf]
  | some l => simp [keyOf, Label.key_ne_epsilon]

/-- A move that reads a label is filed under the label's key. -/
theorem key_eq_of_label?_eq_some {m : Move} {l : Label} (h : m.label? = some l) : m.key = l.key := by
  rw [m.key_eq, h]
  rfl

/-- A move that reads a label is the move of that label. -/
theorem eq_label_of_label?_eq_some {m : Move} {l : Label} (h : m.label? = some l) : m = .label l := by
  obtain ⟨lo, k, hk⟩ := m
  simp only at h
  subst h hk
  rfl

end Move

namespace Label

/-- Keys tell labels apart exactly: two labels have the same key iff they assign the same
variables the same values, and no label has the silent key. Arcs are filed and looked up by the
keys of their moves, so looking up the arc of a label finds the arc filed under that label and
under no other move. -/
theorem key_eq_iff_same_assignment (l l' : Label) :
    (l.key = l'.key ↔ l.domain = l'.domain ∧ ∀ v ∈ l.domain, l[v]? = l'[v]?) ∧
      l.key ≠ Move.epsilon.key ∧
      ∀ m : Move, compare m (Move.label l) = .eq ↔ m = Move.label l := by
  refine ⟨⟨fun hKey => ?_, fun ⟨hDomain, hAgree⟩ => ?_⟩, key_ne_epsilon l,
    fun _ => Move.compare_eq_iff⟩
  · obtain rfl := key_injective hKey
    exact ⟨rfl, fun _ _ => rfl⟩
  · -- Outside the common domain neither label assigns a value.
    suffices hSame : l = l' by rw [hSame]
    apply Std.ExtTreeMap.ext_getElem?
    intro v
    by_cases hv : v ∈ l.domain
    · exact hAgree v hv
    · have hl : v ∉ l := fun h => hv (mem_domain.mpr h)
      have hl' : v ∉ l' := fun h => hv (hDomain ▸ mem_domain.mpr h)
      rw [Std.ExtTreeMap.getElem?_eq_none hl, Std.ExtTreeMap.getElem?_eq_none hl']

end Label

end BitAutomata
