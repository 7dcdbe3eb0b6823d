import Invariance.Proofs.FiniteState.Paths
import Invariance.Proofs.FiniteState.Sweep
import Invariance.Proofs.Twins.Maps

/-!
Two universes side by side. They match when the same sets of states have names in both, in the same
order; twins are names of one set. Interning on both sides keeps a match, whatever else is stored
on either side, and so does a sweep of one side alone.
-/

namespace Invariance.FiniteState.Universe

variable {u v u' v' : Universe} {f g f' g' : Formula} {s : StateSet} {k : Nat}

def Twin (u v : Universe) (f g : Formula) : Prop := ∃ s, u.Names f s ∧ v.Names g s

/-- Step terms that demand one set at one step. -/
def StepTwin (u v : Universe) (f g : Formula) : Prop := ∃ s k, u.Demands f s k ∧ v.Demands g s k

theorem Twin.extend (h : Twin u v f g) (hu : Extends u u') (hv : Extends v v') :
    Twin u' v' f g := by
  obtain ⟨s, hf, hg⟩ := h
  exact ⟨s, hu.names hf, hv.names hg⟩

theorem StepTwin.extend (h : StepTwin u v f g) (hu : Extends u u') (hv : Extends v v') :
    StepTwin u' v' f g := by
  obtain ⟨s, k, hf, hg⟩ := h
  exact ⟨s, k, hf.extend hu, hg.extend hv⟩

structure Matched (u v : Universe) : Prop where
  left : u.Canonical
  right : v.Canonical
  size : u.size = v.size
  named : ∀ s, (∃ f, u.Names f s) ↔ ∃ g, v.Names g s
  order : ∀ {f g f' g'}, Twin u v f g → Twin u v f' g' → f.id < f'.id → g.id < g'.id

namespace Matched

theorem refl (h : u.Canonical) : Matched u u where
  left := h
  right := h
  size := rfl
  named := fun _ => Iff.rfl
  order := by
    rintro f g f' g' ⟨s, hf, hg⟩ ⟨s', hf', hg'⟩ hlt
    rwa [← h.name_eq hf hg, ← h.name_eq hf' hg']

theorem matching (h : Matched u v) : Matching (Twin u v) := by
  intro f f' g g' hfg hfg'
  refine ⟨h.order hfg hfg', fun hlt => ?_⟩
  have hgt : g.id < g'.id := hlt
  rcases Nat.lt_trichotomy f.id f'.id with hf | hf | hf
  · exact hf
  · obtain rfl : f = f' := congrArg Formula.mk hf
    obtain ⟨s, hs, hg⟩ := hfg
    obtain ⟨s', hs', hg'⟩ := hfg'
    obtain rfl := hs.eq hs'
    rw [h.right.name_eq hg hg'] at hgt
    exact absurd hgt (Nat.lt_irrefl _)
  · exact absurd (h.order hfg' hfg hf) (Nat.lt_asymm hgt)

theorem symm (h : Matched u v) : Matched v u where
  left := h.right
  right := h.left
  size := h.size.symm
  named := fun s => (h.named s).symm
  order := by
    rintro f g f' g' ⟨s, hf, hg⟩ ⟨s', hf', hg'⟩ hlt
    have hfg : Twin u v g f := ⟨s, hg, hf⟩
    have hfg' : Twin u v g' f' := ⟨s', hg', hf'⟩
    exact (h.matching hfg hfg').mpr hlt

end Matched

/-! Interning. -/

theorem names_of_push {t : Term} (h : ({ u with terms := u.terms.push t } : Universe).Names f s) :
    u.Names f s ∨ f.id = u.length ∧ t = .states s := by
  rw [Names, Array.getElem?_push] at h
  split at h
  next hf => exact Or.inr ⟨hf, Option.some.inj h⟩
  next => exact Or.inl h

theorem intern_names {t : Term} (ht : t ≠ .states s) (h : (u.intern t).2.Names f s) :
    u.Names f s := by
  rcases u.intern_cases t with ⟨f', heq, _⟩ | ⟨_, heq⟩
  · rwa [heq] at h
  · rw [heq] at h
    exact (names_of_push h).resolve_right fun hlast => ht hlast.2

theorem ofSet_of_names (hu : u.Canonical) (h : u.Names f s) : u.ofSet s = .ok (f, u) := by
  rw [Universe.ofSet, if_pos (hu.sized h), intern_of_stored hu h]

namespace Matched

/-- A change of one side that stores no further set. -/
theorem keepLeft (h : Matched u v) (hu' : u'.Canonical) (hext : Extends u u')
    (hold : ∀ {f s}, u'.Names f s → u.Names f s) : Matched u' v where
  left := hu'
  right := h.right
  size := hext.size.trans h.size
  named := fun s => ⟨fun ⟨f, hf⟩ => (h.named s).mp ⟨f, hold hf⟩, fun hg => by
    obtain ⟨f, hf⟩ := (h.named s).mpr hg
    exact ⟨f, hext.names hf⟩⟩
  order := by
    rintro f g f' g' ⟨s, hf, hg⟩ ⟨s', hf', hg'⟩ hlt
    exact h.order ⟨s, hold hf, hg⟩ ⟨s', hold hf', hg'⟩ hlt

theorem atStep (h : Matched u v) (hfg : Twin u v f g) (k : Nat) :
    Matched (u.atStep f k).2 (v.atStep g k).2 ∧ Extends u (u.atStep f k).2 ∧
      Extends v (v.atStep g k).2 ∧
      StepTwin (u.atStep f k).2 (v.atStep g k).2 (u.atStep f k).1 (v.atStep g k).1 := by
  obtain ⟨s, hf, hg⟩ := hfg
  obtain ⟨f', u', hu', hmade⟩ := atStep_eq h.left hf.live k
  obtain ⟨g', v', hv', hmade'⟩ := atStep_eq h.right hg.live k
  have hold : ∀ {f s}, u'.Names f s → u.Names f s := fun hn =>
    intern_names (t := .atStep f k) (by simp) (by rw [← Universe.atStep, hu']; exact hn)
  have hold' : ∀ {f s}, v'.Names f s → v.Names f s := fun hn =>
    intern_names (t := .atStep g k) (by simp) (by rw [← Universe.atStep, hv']; exact hn)
  rw [hu', hv']
  refine ⟨?_, hmade.grows, hmade'.grows, s, k, ⟨f, hmade.stored, hmade.grows.names hf⟩,
    ⟨g, hmade'.stored, hmade'.grows.names hg⟩⟩
  exact ((h.keepLeft hmade.canonical hmade.grows hold).symm.keepLeft hmade'.canonical
    hmade'.grows hold').symm

theorem append (h : Matched u v) (hs : s.size = u.size)
    (hu : ∀ i : Nat, u.terms[i]? ≠ some (.states s))
    (hv : ∀ i : Nat, v.terms[i]? ≠ some (.states s)) :
    Matched { u with terms := u.terms.push (.states s) }
      { v with terms := v.terms.push (.states s) } := by
  have hpushed : ∀ {u : Universe}, u.Canonical → s.size = u.size →
      (∀ i : Nat, u.terms[i]? ≠ some (.states s)) →
      ({ u with terms := u.terms.push (.states s) } : Universe).Canonical := by
    intro u hcan hs hnew
    obtain ⟨f, u', hintern, hmade⟩ := intern_eq hcan (t := .states s) (by simp [Term.args])
      (by rintro s' ⟨⟩; exact hs)
    rcases u.intern_cases (.states s) with ⟨f', _, hf'⟩ | ⟨_, heq⟩
    · exact absurd hf' (hnew _)
    · rw [hintern] at heq
      obtain rfl := (Prod.mk.inj heq).2
      exact hmade.canonical
  have hlast : ∀ {u : Universe}, ({ u with terms := u.terms.push (.states s) } : Universe).Names
      ⟨u.length⟩ s := Array.getElem?_push_size
  have hkept : ∀ {u : Universe} {f : Formula} {s' : StateSet}, u.Names f s' →
      ({ u with terms := u.terms.push (.states s) } : Universe).Names f s' := fun {u f s'} hf => by
    have hlt : f.id < u.terms.size := hf.live
    rw [Names, Array.getElem?_push, if_neg (Nat.ne_of_lt hlt)]
    exact hf
  refine ⟨hpushed h.left hs hu, hpushed h.right (hs.trans h.size) hv, h.size, fun s' => ?_, ?_⟩
  · constructor
    · rintro ⟨f, hf⟩
      rcases names_of_push hf with hf | ⟨_, heq⟩
      · obtain ⟨g, hg⟩ := (h.named s').mp ⟨f, hf⟩
        exact ⟨g, hkept hg⟩
      · obtain rfl := Term.states.inj heq
        exact ⟨_, hlast⟩
    · rintro ⟨g, hg⟩
      rcases names_of_push hg with hg | ⟨_, heq⟩
      · obtain ⟨f, hf⟩ := (h.named s').mpr ⟨g, hg⟩
        exact ⟨f, hkept hf⟩
      · obtain rfl := Term.states.inj heq
        exact ⟨_, hlast⟩
  · -- a twin of an old formula is old, and the new twins are the last ones
    have hcase : ∀ {f g : Formula}, Twin { u with terms := u.terms.push (.states s) }
        { v with terms := v.terms.push (.states s) } f g →
        Twin u v f g ∨ f.id = u.length ∧ g.id = v.length := by
      rintro f g ⟨s', hf, hg⟩
      rcases names_of_push hf with hf | ⟨hf, heq⟩
      · rcases names_of_push hg with hg | ⟨_, heq⟩
        · exact Or.inl ⟨s', hf, hg⟩
        · exact absurd (heq ▸ hf) (hu f.id)
      · rcases names_of_push hg with hg | ⟨hg, _⟩
        · exact absurd (heq ▸ hg) (hv g.id)
        · exact Or.inr ⟨hf, hg⟩
    intro f g f' g' hfg hfg' hlt
    rcases hcase hfg with ⟨s₁, hf, hg⟩ | ⟨hf, hg⟩
    · rcases hcase hfg' with hfg' | ⟨_, hg'⟩
      · exact h.order ⟨s₁, hf, hg⟩ hfg' hlt
      · exact hg' ▸ hg.live
    · rcases hcase hfg' with ⟨s₂, hf', _⟩ | ⟨hf', _⟩
      · have hlive : f'.id < u.length := hf'.live
        omega
      · omega

theorem ofSet (h : Matched u v) {r : Formula × Universe} (hset : u.ofSet s = .ok r) :
    ∃ r', v.ofSet s = .ok r' ∧ Matched r.2 r'.2 ∧ Extends u r.2 ∧ Extends v r'.2 ∧
      Twin r.2 r'.2 r.1 r'.1 := by
  have hs : s.size = u.size := by
    by_contra hne
    rw [Universe.ofSet, if_neg hne] at hset
    cases hset
  obtain ⟨f, u', hset₀, hmade⟩ := ofSet_eq h.left hs
  obtain rfl := Except.ok.inj (hset.symm.trans hset₀)
  obtain ⟨g, v', hset', hmade'⟩ := ofSet_eq h.right (hs.trans h.size)
  refine ⟨_, hset', ?_, hmade.grows, hmade'.grows, s, hmade.stored, hmade'.stored⟩
  have hintern : u.intern (.states s) = (f, u') := by
    rw [Universe.ofSet, if_pos hs] at hset₀
    exact Except.ok.inj hset₀
  have hintern' : v.intern (.states s) = (g, v') := by
    rw [Universe.ofSet, if_pos (hs.trans h.size)] at hset'
    exact Except.ok.inj hset'
  rcases u.intern_cases (.states s) with ⟨f₀, heq, hf₀⟩ | ⟨hnew, heq⟩
  · -- found on one side, found on the other
    obtain ⟨g₀, hg₀⟩ := (h.named s).mp ⟨f₀, hf₀⟩
    rcases v.intern_cases (.states s) with ⟨_, heq', _⟩ | ⟨hnew', _⟩
    · obtain rfl := (Prod.mk.inj (hintern.symm.trans heq)).2
      obtain rfl := (Prod.mk.inj (hintern'.symm.trans heq')).2
      exact h
    · exact absurd hg₀ (hnew' _)
  · rcases v.intern_cases (.states s) with ⟨g₀, _, hg₀⟩ | ⟨hnew', heq'⟩
    · obtain ⟨f₀, hf₀⟩ := (h.named s).mpr ⟨g₀, hg₀⟩
      exact absurd hf₀ (hnew _)
    · obtain rfl := (Prod.mk.inj (hintern.symm.trans heq)).2
      obtain rfl := (Prod.mk.inj (hintern'.symm.trans heq')).2
      exact h.append hs hnew hnew'

/-- A sweep of one side renames every formula that has a twin. -/
theorem sweep (h : Matched u v) : Matched u.sweep.2 v ∧
    ∀ {f g}, Twin u v f g → ∃ f', u.sweep.1.apply f = some f' ∧ Twin u.sweep.2 v f' g := by
  have hswept := sweep_swept h.left
  have hback : ∀ {f' s}, u.sweep.2.Names f' s →
      ∃ f, u.Names f s ∧ u.sweep.1.apply f = some f' := fun {f' s} hf' => by
    obtain ⟨f, t, _, ht, hmove, hsurvive⟩ := hswept.onto hf'
    cases t with
    | states s' =>
        obtain ⟨⟩ := hsurvive
        exact ⟨f, ht, hmove⟩
    | conj fs =>
        obtain ⟨_, _, heq⟩ := Option.map_eq_some_iff.mp hsurvive
        cases heq
    | atStep _ _ => cases hsurvive
  refine ⟨⟨sweep_canonical h.left, h.right, h.size, fun s => ?_, ?_⟩, ?_⟩
  · rw [← h.named]
    constructor
    · rintro ⟨f', hf'⟩
      obtain ⟨f, hf, _⟩ := hback hf'
      exact ⟨f, hf⟩
    · rintro ⟨f, hf⟩
      obtain ⟨f', _, hf'⟩ := sweep_names h.left hf
      exact ⟨f', hf'⟩
  · rintro f₁ g f₁' g' ⟨s, hf₁, hg⟩ ⟨s', hf₁', hg'⟩ hlt
    obtain ⟨f, hf, hmove⟩ := hback hf₁
    obtain ⟨f', hf', hmove'⟩ := hback hf₁'
    refine h.order ⟨s, hf, hg⟩ ⟨s', hf', hg'⟩ ?_
    -- the sweep keeps the order, so it cannot have turned these two around
    rcases Nat.lt_trichotomy f.id f'.id with hlt' | heq | hgt
    · exact hlt'
    · obtain rfl : f = f' := congrArg Formula.mk heq
      obtain rfl := Option.some.inj (hmove.symm.trans hmove')
      exact absurd hlt (Nat.lt_irrefl _)
    · exact absurd (hswept.mono hgt hf.live hmove' hmove) (Nat.lt_asymm hlt)
  · rintro f g ⟨s, hf, hg⟩
    obtain ⟨f', hmove, hf'⟩ := sweep_names h.left hf
    exact ⟨f', hmove, s, hf', hg⟩

end Matched

end Invariance.FiniteState.Universe
