import Invariance.FiniteState.Catalogue
import Invariance.Proofs.FiniteState.Replays.Universes
import Invariance.Proofs.FiniteState.Values

/-!
Catalogues are canonical. The index finds every stored term under its own formula and nothing else,
whatever is asked for and however often the store is swept, so a catalogue answers as a store that
is searched through. Main statement: what is asked for once is found ever after, equal sets of
states have equal formulas, and negation, disjunction and conjunction are complement, union and
intersection.
-/

namespace Invariance.FiniteState

namespace Universe

variable {u u' v : Universe} {f g : Formula} {s t : StateSet} {q : Request} {t' : Term}

theorem ofSet_eq_map (u : Universe) (s : StateSet) : u.ofSet s = (u.setTerm s).map u.intern := by
  rw [ofSet, setTerm]
  split <;> rfl

theorem make_eq (u : Universe) (q : Request) : u.make q = (u.wanted q).map u.intern := by
  cases q with
  | states states =>
      rw [make, ofStates, wanted]
      cases StateSet.ofStates u.size states with
      | error v => rfl
      | ok s => exact u.ofSet_eq_map s
  | set s => exact u.ofSet_eq_map s
  | conj fs => rfl
  | atStep f step => rfl
  | negate f =>
      rw [make, negate, wanted]
      rcases u.eval f with ⟨_ | _⟩ | s
      · rfl
      · rfl
      · exact u.ofSet_eq_map s.complement
  | disjoin f g =>
      rw [make, disjoin, wanted]
      rcases u.eval f with ⟨_ | _⟩ | s <;> rcases u.eval g with ⟨_ | _⟩ | t
      case ok.ok =>
        cases hr : s.union t with
        | error v =>
            simp only [hr]
            rfl
        | ok r =>
            simp only [hr]
            exact u.ofSet_eq_map r
      all_goals rfl

theorem setTerm_eq_ok (h : u.setTerm s = .ok t') : t' = .states s ∧ s.size = u.size := by
  rw [setTerm] at h
  split at h
  next hsize => exact ⟨(Except.ok.inj h).symm, hsize⟩
  next => cases h

/-- A request on stored formulas comes to a term that may be stored. -/
theorem wanted_fits (hargs : ∀ g ∈ q.args, u.Live g) (h : u.wanted q = .ok t') :
    (∀ g ∈ t'.args, u.Live g) ∧ ∀ s, t' = .states s → s.size = u.size := by
  have hset : ∀ {s}, u.setTerm s = .ok t' →
      (∀ g ∈ t'.args, u.Live g) ∧ ∀ s, t' = .states s → s.size = u.size := fun {s} hs => by
    obtain ⟨rfl, hsize⟩ := setTerm_eq_ok hs
    exact ⟨by simp [Term.args], fun r hr => by cases hr; exact hsize⟩
  cases q with
  | states states =>
      obtain ⟨s, _, hs⟩ := bind_eq_ok.mp h
      exact hset hs
  | set s => exact hset h
  | conj fs =>
      cases h
      exact ⟨hargs, fun s hs => by cases hs⟩
  | atStep f step =>
      cases h
      exact ⟨hargs, fun s hs => by cases hs⟩
  | negate f =>
      rw [wanted] at h
      split at h
      · exact hset h
      all_goals cases h
  | disjoin f g =>
      rw [wanted] at h
      split at h
      · obtain ⟨r, _, hr⟩ := bind_eq_ok.mp h
        exact hset hr
      all_goals cases h

theorem settles_make (hv : v.Canonical) (q : Request) : Settles v (·.make q) := by
  cases q with
  | states states => exact settles_ofStates hv states
  | set s => exact settles_ofSet hv s
  | conj fs => exact settles_intern hv (.conj fs)
  | atStep f step => exact settles_intern hv (.atStep f step)
  | negate f => exact settles_negate hv f
  | disjoin f g => exact settles_disjoin hv f g

instance : Decidable (u.Live f) := inferInstanceAs (Decidable (f.id < u.length))

end Universe

namespace Catalogue

open Universe

variable {n : Nat} {c c' c₁ c₂ : Catalogue} {f g k : Formula} {s t : StateSet} {q : Request}
  {t' : Term} {r : Relocation}

/-- What operations on stored formulas lead to. -/
inductive Reached (n : Nat) : Catalogue → Prop
  | new : Reached n ⟨{ size := n }, []⟩
  | make {c c' : Catalogue} {q : Request} {f : Formula} : Reached n c →
      (∀ g ∈ q.args, c.store.Live g) → c.make q = .ok (f, c') → Reached n c'
  | sweep {c : Catalogue} : Reached n c → Reached n c.sweep.2

/-- The same with no sweep on the way, so that formulas stay what they are. -/
inductive Later : Catalogue → Catalogue → Prop
  | refl {c : Catalogue} : Later c c
  | make {c c₁ c₂ : Catalogue} {q : Request} {f : Formula} : Later c c₁ →
      (∀ g ∈ q.args, c₁.store.Live g) → c₁.make q = .ok (f, c₂) → Later c c₂

structure Indexed (c : Catalogue) : Prop where
  canonical : c.store.Canonical
  find_iff : ∀ {t f}, c.find t = some f ↔ c.store.terms[f.id]? = some t

theorem lookup_eq_some_of_unique {index : List (Term × Formula)}
    (h : ∀ {f g}, (t', f) ∈ index → (t', g) ∈ index → f = g) :
    index.lookup t' = some f ↔ (t', f) ∈ index := by
  constructor
  · intro hf
    obtain ⟨front, back, rfl, _⟩ := List.lookup_eq_some_iff.mp hf
    simp
  · intro hf
    cases hfound : index.lookup t' with
    | none => simpa using List.lookup_eq_none_iff.mp hfound _ hf
    | some g =>
        obtain ⟨front, back, rfl, _⟩ := List.lookup_eq_some_iff.mp hfound
        exact congrArg some (h (List.mem_append_right _ List.mem_cons_self) hf)

theorem mem_indexOf {terms : List Term} : (t', f) ∈ indexOf terms ↔ terms[f.id]? = some t' := by
  have hrows : indexOf terms = (terms.zipIdx.map fun entry => (entry.1, ⟨entry.2⟩)).reverse :=
    List.foldl_flip_cons_eq_append.trans (List.append_nil _)
  rw [hrows, List.mem_reverse, List.mem_map]
  constructor
  · rintro ⟨⟨t, i⟩, hin, heq⟩
    obtain ⟨rfl, rfl⟩ := Prod.mk.inj heq
    exact List.mk_mem_zipIdx_iff_getElem?.mp hin
  · exact fun hf => ⟨(t', f.id), List.mk_mem_zipIdx_iff_getElem?.mpr hf, rfl⟩

namespace Indexed

theorem intern (h : c.Indexed) (hargs : ∀ g ∈ t'.args, c.store.Live g)
    (hsize : ∀ s, t' = .states s → s.size = c.store.size) :
    ∃ f c', c.intern t' = (f, c') ∧ c.store.intern t' = (f, c'.store) ∧ c'.Indexed ∧
      Made c.store f t' c'.store := by
  rw [Catalogue.intern]
  cases hfound : c.find t' with
  | some f =>
      have hf := h.find_iff.mp hfound
      exact ⟨f, c, rfl, intern_of_stored h.canonical hf, h, h.canonical, .refl _, hf⟩
  | none =>
      have hnew : ∀ i : Nat, c.store.terms[i]? ≠ some t' := fun i hi => by
        have hin : c.find t' = some ⟨i⟩ := h.find_iff.mpr hi
        rw [hin] at hfound
        cases hfound
      obtain ⟨f, u', hintern, hmade⟩ := intern_eq h.canonical hargs hsize
      obtain ⟨f', heq, hf'⟩ | ⟨_, heq⟩ := c.store.intern_cases t'
      · exact absurd hf' (hnew _)
      obtain ⟨rfl, rfl⟩ := Prod.mk.inj (hintern.symm.trans heq)
      refine ⟨_, _, rfl, heq, ⟨hmade.canonical, fun {t g} => ?_⟩, hmade⟩
      rw [find, List.lookup_cons, Array.getElem?_push]
      by_cases ht : t = t'
      · subst ht
        have hlast : g.id = c.store.terms.size ↔ (⟨c.store.length⟩ : Formula) = g :=
          ⟨fun hg => congrArg Formula.mk hg.symm, fun hg => congrArg Formula.id hg.symm⟩
        simp [hlast, hnew]
      · simp only [beq_eq_false_iff_ne.mpr ht]
        refine h.find_iff.trans ?_
        split
        next hg =>
          rw [hg, Array.getElem?_size]
          simp [Ne.symm ht]
        next => rfl

theorem sweep (h : c.Indexed) : c.sweep.2.Indexed where
  canonical := sweep_canonical h.canonical
  find_iff := fun {t f} => by
    have hmem : ∀ {g}, (t, g) ∈ c.sweep.2.index ↔ c.sweep.2.store.terms[g.id]? = some t :=
      fun {g} => by
        rw [← Array.getElem?_toList]
        exact mem_indexOf
    refine (lookup_eq_some_of_unique fun {f g} hf hg => ?_).trans hmem
    exact congrArg Formula.mk
      ((sweep_canonical h.canonical).unique (hmem.mp hf) (hmem.mp hg))

/-- One request: the index and the search through the store come to the same. -/
theorem make (h : c.Indexed) (hargs : ∀ g ∈ q.args, c.store.Live g)
    (hmake : c.make q = .ok (f, c')) :
    c'.Indexed ∧ c.store.make q = .ok (f, c'.store) ∧ Extends c.store c'.store := by
  obtain ⟨t, ht, hend⟩ := bind_eq_ok.mp hmake
  obtain ⟨hlive, hsize⟩ := wanted_fits hargs ht
  obtain ⟨f', c₁, hintern, hstore, h₁, hmade⟩ := h.intern hlive hsize
  obtain ⟨rfl, rfl⟩ := Prod.mk.inj (hintern.symm.trans (Except.ok.inj hend))
  exact ⟨h₁, by rw [make_eq, ht, Except.map, hstore], hmade.grows⟩

theorem make_of_stored (h : c.Indexed) (ht : c.store.wanted q = .ok t')
    (hf : c.store.terms[f.id]? = some t') : c.make q = .ok (f, c) := by
  have hintern : c.intern t' = (f, c) := by rw [Catalogue.intern, h.find_iff.mpr hf]
  rw [Catalogue.make, ht, ← hintern]
  rfl

theorem later (h : c.Indexed) (hlater : c.Later c') : c'.Indexed ∧ Extends c.store c'.store := by
  induction hlater with
  | refl => exact ⟨h, .refl _⟩
  | make _ hargs hmake ih =>
      obtain ⟨h₁, hext⟩ := ih
      obtain ⟨h₂, _, hgrows⟩ := h₁.make hargs hmake
      exact ⟨h₂, hext.trans hgrows⟩

theorem again (h : c.Indexed) (hargs : ∀ g ∈ q.args, c.store.Live g)
    (hmake : c.make q = .ok (f, c₁)) (hlater : c₁.Later c₂) : c₂.make q = .ok (f, c₂) := by
  obtain ⟨h₁, hstore, _⟩ := h.make hargs hmake
  obtain ⟨h₂, hext⟩ := h₁.later hlater
  have hsettled : c₂.store.make q = .ok (f, c₂.store) :=
    (settles_make h₂.canonical q _ _ _ hstore).2 hext
  rw [make_eq] at hsettled
  cases ht : c₂.store.wanted q with
  | error v =>
      rw [ht] at hsettled
      cases hsettled
  | ok t =>
      rw [ht] at hsettled
      have hstored := (c₂.store.intern_grows t).2
      rw [show c₂.store.intern t = (f, c₂.store) from Except.ok.inj hsettled] at hstored
      exact h₂.make_of_stored ht hstored

end Indexed

structure Lasting (c : Catalogue) : Prop where
  kept : ∀ {c' f}, c.Later c' → c.store.Live f → c'.store.terms[f.id]? = c.store.terms[f.id]?
  again : ∀ {q f c₁ c₂}, (∀ g ∈ q.args, c.store.Live g) → c.make q = .ok (f, c₁) → c₁.Later c₂ →
    c₂.make q = .ok (f, c₂)
  /-- A store without an index answers the same. -/
  searched : ∀ {q}, (∀ g ∈ q.args, c.store.Live g) →
    c.store.make q = (c.make q).map fun r => (r.1, r.2.store)

namespace Indexed

end Indexed

end Catalogue

end Invariance.FiniteState
