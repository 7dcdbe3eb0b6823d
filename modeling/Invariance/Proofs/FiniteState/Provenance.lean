import Invariance.Proofs.FiniteState.Descent
import Invariance.Proofs.FiniteState.Twins.Universes
import Invariance.Proofs.Twins.Containers

/-!
Where learnt formulas come from. The lineage is a forest whose roots are the registered properties,
and each of its links stands for a piece of a path of the system. A sweep renames it as a whole.
-/

namespace Invariance.FiniteState

open Universe

variable {sys : TransitionSystem} {u u' : Universe} {l l' : Lineage} {f f' : Formula}
  {o o' : Origin}

/-- The formula leaves out the single state that the origin names, and a path with as many
transitions as its depth says leads from there to a state outside the parent. -/
def Segment (sys : TransitionSystem) (u : Universe) (f : Formula) (o : Origin) : Prop :=
  ∃ (c p : StateSet) (a : Nat) (path : List Nat),
    u.Names o.refutes c ∧ (∀ x, c.contains x = true ↔ x = a) ∧ u.Names f c.complement ∧
      path.length = o.depth ∧ (a :: path).IsChain sys.Edge ∧
      u.Names o.parent p ∧ p.contains ((a :: path).getLast (List.cons_ne_nil a path)) = false

/-- From every learnt formula the parents lead to a property, which has none, and every link is a
segment. -/
structure Provenance (sys : TransitionSystem) (u : Universe) (l : Lineage) : Prop where
  rooted : ∀ f o, l.origin? f = some o → ∃ n, Rooted l n f
  unparented : ∀ p, l.isProperty p = true → l.origin? p = none
  segments : ∀ f o, l.origin? f = some o → Segment sys u f o

theorem provenance_of_unlearnt (h : l.origins = .empty) : Provenance sys u l := by
  have hnone : ∀ f, l.origin? f = none := fun f => by
    rw [Lineage.origin?, h]
    rfl
  have hnever : ∀ {P : Prop} {f o}, l.origin? f = some o → P := fun {_ f _} ho => by
    rw [hnone f] at ho
    cases ho
  exact ⟨fun _ _ => hnever, fun p _ => hnone p, fun _ _ => hnever⟩

/-- A property stands for a set of states, so it does not get lost when the universe is swept. -/
structure Grounded (sys : TransitionSystem) (u : Universe) (l : Lineage) : Prop
    extends Provenance sys u l where
  named : ∀ p, l.isProperty p = true → ∃ r, u.Names p r

namespace Segment

theorem extend (h : Segment sys u f o) (hext : Extends u u') : Segment sys u' f o := by
  obtain ⟨c, p, a, path, hc, ha, hf, hlength, hchain, hp, hout⟩ := h
  exact ⟨c, p, a, path, hext.names hc, ha, hext.names hf, hlength, hchain, hext.names hp, hout⟩

theorem of_edge {c p : StateSet} {a y : Nat} (hc : u.Names o.refutes c)
    (ha : ∀ x, c.contains x = true ↔ x = a) (hf : u.Names f c.complement) (hdepth : o.depth = 1)
    (hedge : sys.Edge a y) (hp : u.Names o.parent p) (hout : p.contains y = false) :
    Segment sys u f o :=
  ⟨c, p, a, [y], hc, ha, hf, hdepth.symm, List.isChain_pair.mpr hedge, hp, hout⟩

theorem twin (h : Segment sys u f o) (hf : Twin u' u f' f) (ho : o'.Alike (Twin u' u) o) :
    Segment sys u' f' o' := by
  obtain ⟨c, p, a, path, hc, ha, hcf, hlength, hchain, hp, hout⟩ := h
  obtain ⟨_, hf', hcf₁⟩ := hf
  obtain rfl := hcf₁.eq hcf
  obtain ⟨_, hc', hc₁⟩ := ho.refutes
  obtain rfl := hc₁.eq hc
  obtain ⟨_, hp', hp₁⟩ := ho.parent
  obtain rfl := hp₁.eq hp
  exact ⟨_, _, a, path, hc', ha, hf', hlength.trans ho.depth.symm, hchain, hp', hout⟩

theorem alike_self (h : Segment sys u f o) : Twin u u f f ∧ o.Alike (Twin u u) o := by
  obtain ⟨c, p, _, _, hc, _, hf, _, _, hp, _⟩ := h
  exact ⟨⟨_, hf, hf⟩, ⟨p, hp, hp⟩, ⟨c, hc, hc⟩, rfl⟩

end Segment

namespace Grounded

theorem congr (h : Grounded sys u l) (horigins : l'.origins = l.origins)
    (hproperties : l'.properties = l.properties) (hext : Extends u u') : Grounded sys u' l' := by
  have ho : ∀ {f}, l'.origin? f = l.origin? f := fun {f} => by
    rw [Lineage.origin?, horigins, Lineage.origin?]
  have hp : ∀ {p}, l'.isProperty p = l.isProperty p := fun {p} => by
    rw [Lineage.isProperty, hproperties, Lineage.isProperty]
  refine { rooted := ?_, unparented := ?_, segments := ?_, named := ?_ }
  · intro f o hf
    obtain ⟨n, hn⟩ := h.rooted f o (ho ▸ hf)
    exact ⟨n, hn.congr horigins hproperties⟩
  · exact fun p hin => ho.trans (h.unparented p (hp ▸ hin))
  · exact fun f o hf => (h.segments f o (ho ▸ hf)).extend hext
  · intro p hin
    obtain ⟨r, hr⟩ := h.named p (hp ▸ hin)
    exact ⟨r, hext.names hr⟩

theorem learn (h : Grounded sys u l) (hnew : l.origin? f = none)
    (hproperty : ∀ p, l.isProperty p = true → p ≠ f) {n : Nat} (hparent : Rooted l n o.parent)
    (hsegment : Segment sys u f o) : Grounded sys u (l.addOrigin f o) := by
  have hkept : ∀ {n g}, Rooted l n g → Rooted (l.addOrigin f o) n g := fun hg =>
    hg.addOrigin hnew hproperty
  refine { rooted := ?_, unparented := ?_, segments := ?_, named := h.named }
  · intro g o' hg
    rw [origin?_addOrigin] at hg
    split at hg
    next heq =>
      subst heq
      exact ⟨n + 1, .learnt (by rw [origin?_addOrigin, if_pos rfl]) (hkept hparent)⟩
    next =>
      obtain ⟨k, hk⟩ := h.rooted g o' hg
      exact ⟨k, hkept hk⟩
  · intro p hp
    rw [origin?_addOrigin, if_neg (hproperty p hp)]
    exact h.unparented p hp
  · intro g o' hg
    rw [origin?_addOrigin] at hg
    split at hg
    next heq =>
      obtain rfl := Option.some.inj hg
      exact heq ▸ hsegment
    next => exact h.segments g o' hg

end Grounded

/-! Sweeps. -/

theorem Universe.Twin.apply_sweep (hu : u.Canonical) (h : Twin u.sweep.2 u f' f) :
    u.sweep.1.apply f = some f' := by
  obtain ⟨s, hf', hf⟩ := h
  obtain ⟨g, hmove, hg⟩ := sweep_names hu hf
  rw [hmove, (sweep_canonical hu).name_eq hg hf']

theorem relocate_eq_of_twin (hu : u.Canonical) (h : o'.Alike (Twin u.sweep.2 u) o) :
    o.relocate u.sweep.1 = some o' := by
  simp only [Origin.relocate, h.refutes.apply_sweep hu, h.parent.apply_sweep hu, h.depth.symm]
  rfl

namespace Grounded

/-- The marks may name what is gone; nothing else does. -/
theorem alike_sweep (h : Grounded sys u l) (hu : u.Canonical) :
    ({ l with invalid := .empty }.relocate u.sweep.1).Alike (Twin u.sweep.2 u)
      { l with invalid := .empty } := by
  have hself : Lineage.Alike (Twin u u) { l with invalid := .empty }
      { l with invalid := .empty } := by
    refine ⟨List.forall₂_same.mpr fun x hx => ?_, .empty, List.forall₂_same.mpr fun x hx => ?_,
      rfl⟩
    · exact (h.segments x.1 x.2 (FormulaMap.mem_entries.mp hx)).alike_self
    · have hin := FormulaMap.contains_iff.mpr ⟨_, FormulaMap.mem_entries.mp hx⟩
      obtain ⟨r, hr⟩ := h.named x.1 hin
      exact ⟨⟨r, hr, hr⟩, trivial⟩
  obtain ⟨hmatched, hmoves⟩ := (Matched.refl hu).sweep
  exact hself.relocate hmatched.matching hmoves

theorem origin?_sweep (h : Grounded sys u l) (hu : u.Canonical) (hf : Twin u.sweep.2 u f' f) :
    Option.Rel (Origin.Alike (Twin u.sweep.2 u)) ((l.relocate u.sweep.1).origin? f')
      (l.origin? f) := by
  have hmatching : Matching (Twin u.sweep.2 u) := (Matched.refl hu).sweep.1.matching
  exact (h.alike_sweep hu).origins.get? hmatching hf

theorem origin?_sweep_none (h : Grounded sys u l) (hu : u.Canonical)
    (hf : Twin u.sweep.2 u f' f) (ho : l.origin? f = none) :
    (l.relocate u.sweep.1).origin? f' = none := by
  have hrel := h.origin?_sweep hu hf
  rw [ho] at hrel
  generalize (l.relocate u.sweep.1).origin? f' = origin at hrel
  cases hrel
  rfl

theorem rooted_sweep (h : Grounded sys u l) (hu : u.Canonical) {n : Nat} (hn : Rooted l n f)
    (hf : Twin u.sweep.2 u f' f) : Rooted (l.relocate u.sweep.1) n f' := by
  induction hn generalizing f' with
  | property ho hp =>
      have hmatching : Matching (Twin u.sweep.2 u) := (Matched.refl hu).sweep.1.matching
      exact .property (h.origin?_sweep_none hu hf ho)
        (((h.alike_sweep hu).isProperty_eq hmatching hf).trans hp)
  | learnt ho _ ih =>
      have hrel := h.origin?_sweep hu hf
      rw [ho] at hrel
      generalize ho' : (l.relocate u.sweep.1).origin? f' = origin at hrel
      cases hrel with
      | some halike => exact .learnt ho' (ih halike.parent)

theorem sweep (h : Grounded sys u l) (hu : u.Canonical) :
    Grounded sys u.sweep.2 (l.relocate u.sweep.1) := by
  have halike := h.alike_sweep hu
  have hlearnt : ∀ f' o', (l.relocate u.sweep.1).origin? f' = some o' → ∃ f o,
      Twin u.sweep.2 u f' f ∧ l.origin? f = some o ∧ o'.Alike (Twin u.sweep.2 u) o :=
    fun f' o' ho' => halike.origins.exists_right ho'
  have hproperty : ∀ p', (l.relocate u.sweep.1).isProperty p' = true →
      ∃ p, Twin u.sweep.2 u p' p ∧ l.isProperty p = true := fun p' hp' => by
    obtain ⟨_, hget⟩ := FormulaMap.contains_iff.mp hp'
    obtain ⟨p, _, hp, hin, _⟩ := halike.properties.exists_right hget
    exact ⟨p, hp, FormulaMap.contains_iff.mpr ⟨_, hin⟩⟩
  refine { rooted := ?_, unparented := ?_, segments := ?_, named := ?_ }
  · intro f' o' ho'
    obtain ⟨f, o, hf, ho, _⟩ := hlearnt f' o' ho'
    obtain ⟨n, hn⟩ := h.rooted f o ho
    exact ⟨n, h.rooted_sweep hu hn hf⟩
  · intro p' hp'
    obtain ⟨p, hp, hin⟩ := hproperty p' hp'
    exact h.origin?_sweep_none hu hp (h.unparented p hin)
  · intro f' o' ho'
    obtain ⟨f, o, hf, ho, halike⟩ := hlearnt f' o' ho'
    exact (h.segments f o ho).twin hf halike
  · intro p' hp'
    obtain ⟨p, ⟨r, hr, _⟩, _⟩ := hproperty p' hp'
    exact ⟨r, hr⟩

theorem renamed (h : Grounded sys u l) (hu : u.Canonical) (ho : l.origin? f = some o) :
    ∃ f' o', u.sweep.1.apply f = some f' ∧ o.relocate u.sweep.1 = some o' ∧
      (l.relocate u.sweep.1).origin? f' = some o' := by
  obtain ⟨f', o', hf, ho', halike⟩ := (h.alike_sweep hu).origins.exists_left ho
  exact ⟨f', o', hf.apply_sweep hu, relocate_eq_of_twin hu halike, ho'⟩

end Grounded

end Invariance.FiniteState
