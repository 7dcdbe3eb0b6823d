import Invariance.FiniteState.Universe
import Invariance.Proofs.FiniteState.Images

/-!
Formulas as names. In a canonical universe every set of states has at most one name, and an
operation adds terms at the end only: what a formula stood for before, it stands for afterwards.
-/

namespace Invariance.FiniteState

def Term.args : Term → List Formula
  | .states _ => []
  | .conj fs => fs
  | .atStep f _ => [f]

namespace Universe

def Names (u : Universe) (f : Formula) (s : StateSet) : Prop := u.terms[f.id]? = some (.states s)

def Live (u : Universe) (f : Formula) : Prop := f.id < u.length

/-- No term is stored twice, all sets are over the states of the system, and a term is made of
earlier ones. -/
structure Canonical (u : Universe) : Prop where
  unique : ∀ {i j : Nat} {t : Term}, u.terms[i]? = some t → u.terms[j]? = some t → i = j
  sized : ∀ {f : Formula} {s : StateSet}, u.Names f s → s.size = u.size
  earlier : ∀ {i : Nat} {t : Term}, u.terms[i]? = some t → ∀ g ∈ t.args, g.id < i

structure Extends (u u' : Universe) : Prop where
  size : u'.size = u.size
  kept : ∀ {i : Nat} {t : Term}, u.terms[i]? = some t → u'.terms[i]? = some t

namespace Extends

variable {u u' u'' : Universe} {f : Formula} {s : StateSet}

theorem refl (u : Universe) : Extends u u := ⟨rfl, fun h => h⟩

theorem trans (h : Extends u u') (h' : Extends u' u'') : Extends u u'' :=
  ⟨h'.size.trans h.size, fun hi => h'.kept (h.kept hi)⟩

theorem names (h : Extends u u') (hf : u.Names f s) : u'.Names f s := h.kept hf

theorem length_le (h : Extends u u') : u.length ≤ u'.length := by
  refine Nat.le_of_not_lt fun hlt => ?_
  have hlive : u'.length < u.terms.size := hlt
  have hkept := h.kept (Array.getElem?_eq_getElem hlive)
  exact Nat.lt_irrefl _ (Array.getElem?_eq_some_iff.mp hkept).1

end Extends

theorem Names.eq {u : Universe} {f : Formula} {s s' : StateSet} (h : u.Names f s)
    (h' : u.Names f s') : s = s' := by
  have heq := Option.some.inj (h.symm.trans h')
  injection heq

theorem live_of_stored {u : Universe} {f : Formula} {t : Term} (h : u.terms[f.id]? = some t) :
    u.Live f :=
  (Array.getElem?_eq_some_iff.mp h).1

theorem Names.live {u : Universe} {f : Formula} {s : StateSet} (h : u.Names f s) : u.Live f :=
  live_of_stored h

theorem Canonical.name_eq {u : Universe} (hu : u.Canonical) {f f' : Formula} {s : StateSet}
    (h : u.Names f s) (h' : u.Names f' s) : f = f' :=
  congrArg Formula.mk (hu.unique h h')

theorem Canonical.name_ext {u : Universe} (hu : u.Canonical) {f f' : Formula} {s s' : StateSet}
    (h : u.Names f s) (h' : u.Names f' s') (hs : ∀ x, s.contains x = s'.contains x) : f = f' := by
  obtain rfl : s = s' := StateSet.ext_contains ((hu.sized h).trans (hu.sized h').symm) hs
  exact hu.name_eq h h'

/-! Interning. -/

theorem lookup_eq_some {u : Universe} {t : Term} {f : Formula} :
    ∀ {bound : Nat}, u.lookup t bound = some f → u.terms[f.id]? = some t
  | 0, h => by cases h
  | bound + 1, h => by
      rw [lookup] at h
      split at h
      next ht =>
        obtain rfl := Option.some.inj h
        exact ht
      next => exact lookup_eq_some h

theorem lookup_eq_none {u : Universe} {t : Term} :
    ∀ {bound : Nat}, u.lookup t bound = none → ∀ i, i < bound → u.terms[i]? ≠ some t
  | bound + 1, h, i, hi => by
      rw [lookup] at h
      split at h
      next => cases h
      next ht =>
        rcases Nat.lt_succ_iff_lt_or_eq.mp hi with hi | rfl
        · exact lookup_eq_none h i hi
        · exact ht

/-- What an interning did: it found the term, or it stored the term as the last one. -/
theorem intern_cases (u : Universe) (t : Term) :
    (∃ f, u.intern t = (f, u) ∧ u.terms[f.id]? = some t) ∨
      (∀ i : Nat, u.terms[i]? ≠ some t) ∧
        u.intern t = (⟨u.length⟩, { u with terms := u.terms.push t }) := by
  rw [intern]
  cases hfound : u.lookup t u.length with
  | some f => exact Or.inl ⟨f, rfl, lookup_eq_some hfound⟩
  | none =>
      refine Or.inr ⟨fun i hi => ?_, rfl⟩
      exact lookup_eq_none hfound i (Array.getElem?_eq_some_iff.mp hi).1 hi

theorem intern_of_stored {u : Universe} (hu : u.Canonical) {t : Term} {f : Formula}
    (h : u.terms[f.id]? = some t) : u.intern t = (f, u) := by
  rcases u.intern_cases t with ⟨f', heq, hf'⟩ | ⟨hnew, _⟩
  · rw [heq, show f' = f from congrArg Formula.mk (hu.unique hf' h)]
  · exact absurd h (hnew _)

structure Made (u : Universe) (f : Formula) (t : Term) (u' : Universe) : Prop where
  canonical : u'.Canonical
  grows : Extends u u'
  stored : u'.terms[f.id]? = some t

theorem intern_eq {u : Universe} (hu : u.Canonical) {t : Term} (hargs : ∀ g ∈ t.args, u.Live g)
    (hsize : ∀ s, t = .states s → s.size = u.size) :
    ∃ f u', u.intern t = (f, u') ∧ Made u f t u' := by
  rw [intern]
  cases hfound : u.lookup t u.length with
  | some f => exact ⟨f, u, rfl, hu, .refl u, lookup_eq_some hfound⟩
  | none =>
      have hnew := lookup_eq_none hfound
      have hpush : ∀ {i : Nat} {t' : Term}, (u.terms.push t)[i]? = some t' →
          i = u.length ∧ t' = t ∨ u.terms[i]? = some t' := fun {i t'} h => by
        rw [Array.getElem?_push] at h
        split at h
        next hi => exact Or.inl ⟨hi, (Option.some.inj h).symm⟩
        next => exact Or.inr h
      have hlt : ∀ {i : Nat} {t' : Term}, u.terms[i]? = some t' → i < u.terms.size := fun h =>
        (Array.getElem?_eq_some_iff.mp h).1
      refine ⟨⟨u.length⟩, _, rfl, ⟨?_, ?_, ?_⟩, ⟨rfl, ?_⟩, Array.getElem?_push_size⟩
      · intro i j t' hi hj
        rcases hpush hi with ⟨hilast, heq⟩ | hi'
        · subst heq
          rcases hpush hj with ⟨hjlast, _⟩ | hj'
          · exact hilast.trans hjlast.symm
          · exact absurd hj' (hnew j (hlt hj'))
        · rcases hpush hj with ⟨_, heq⟩ | hj'
          · subst heq
            exact absurd hi' (hnew i (hlt hi'))
          · exact hu.unique hi' hj'
      · intro f s h
        rcases hpush h with ⟨_, heq⟩ | h
        · exact hsize s heq.symm
        · exact hu.sized h
      · intro i t' hi g hg
        rcases hpush hi with ⟨rfl, rfl⟩ | hi
        · exact hargs g hg
        · exact hu.earlier hi g hg
      · intro i t' hi
        change (u.terms.push t)[i]? = some t'
        rw [Array.getElem?_push, if_neg (Nat.ne_of_lt (hlt hi)), hi]

theorem ofSet_eq {u : Universe} (hu : u.Canonical) {s : StateSet} (hs : s.size = u.size) :
    ∃ f u', u.ofSet s = .ok (f, u') ∧ Made u f (.states s) u' := by
  obtain ⟨f, u', hintern, hmade⟩ := intern_eq hu (t := .states s) (by simp [Term.args])
    (by rintro s' ⟨⟩; exact hs)
  exact ⟨f, u', by rw [ofSet, if_pos hs, hintern], hmade⟩

theorem eval_eq {u : Universe} {f : Formula} {s : StateSet} (h : u.Names f s) :
    u.eval f = .ok s := by
  simp [eval, evalWithin, term, show u.terms[f.id]? = some (.states s) from h]

theorem negate_eq {u : Universe} (hu : u.Canonical) {f : Formula} {s : StateSet}
    (h : u.Names f s) :
    ∃ g u', u.negate f = .ok (g, u') ∧ Made u g (.states s.complement) u' := by
  obtain ⟨g, u', hset, hmade⟩ := ofSet_eq hu (s := s.complement)
    (show s.size = u.size from hu.sized h)
  exact ⟨g, u', by simp only [negate, eval_eq h, hset], hmade⟩

theorem disjoin_eq {u : Universe} (hu : u.Canonical) {f g : Formula} {s t : StateSet}
    (hf : u.Names f s) (hg : u.Names g t) :
    ∃ h r u', u.disjoin f g = .ok (h, u') ∧ Made u h (.states r) u' ∧
      ∀ x, r.contains x = true ↔ s.contains x = true ∨ t.contains x = true := by
  obtain ⟨r, hr, hsize, hc⟩ := StateSet.union_eq ((hu.sized hf).trans (hu.sized hg).symm)
  obtain ⟨h, u', hset, hmade⟩ := ofSet_eq hu (hsize.trans (hu.sized hf))
  refine ⟨h, r, u', ?_, hmade, hc⟩
  simp only [disjoin, eval_eq hf, eval_eq hg, hr, bind, Except.bind, hset]

theorem allocatable_eq {n : Nat} (h : n ≤ maxState) : StateSet.allocatable n = .ok () := by
  rw [maxState] at h
  exact StateSet.allocatable_of_lt (by omega)

theorem ofStates_singleton {u : Universe} (hu : u.Canonical) (hmax : u.size ≤ maxState) {x : Nat}
    (hx : x < u.size) :
    ∃ f s u', u.ofStates [x] = .ok (f, u') ∧ Made u f (.states s) u' ∧
      ∀ y, s.contains y = true ↔ y = x := by
  obtain ⟨s, hs, hsize, hc⟩ := StateSet.insert_eq (s := .empty u.size) hx
  have hstates : StateSet.ofStates u.size [x] = .ok s := by
    simp only [StateSet.ofStates, allocatable_eq hmax, List.foldlM_cons, List.foldlM_nil, bind,
      Except.bind, hs]
    rfl
  obtain ⟨f, u', hset, hmade⟩ := ofSet_eq hu hsize
  refine ⟨f, s, u', by simp only [ofStates, hstates, bind, Except.bind, hset], hmade, fun y => ?_⟩
  rw [hc, StateSet.contains_empty]
  simp

theorem atStep_eq {u : Universe} (hu : u.Canonical) {f : Formula} (hf : u.Live f) (step : Nat) :
    ∃ g u', u.atStep f step = (g, u') ∧ Made u g (.atStep f step) u' :=
  intern_eq hu (by simpa [Term.args] using hf) (by simp)

theorem conj_eq {u : Universe} (hu : u.Canonical) {fs : List Formula} (hfs : ∀ f ∈ fs, u.Live f) :
    ∃ g u', u.conj fs = (g, u') ∧ Made u g (.conj fs) u' :=
  intern_eq hu (by simpa [Term.args] using hfs) (by simp)

end Universe

end Invariance.FiniteState
