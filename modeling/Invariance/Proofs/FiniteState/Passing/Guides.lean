import Invariance.Proofs.FiniteState.Opening
import Invariance.Proofs.FiniteState.Passing.Holding
import Invariance.Proofs.FiniteState.Relocating
import Invariance.Proofs.Trails

/-!
What a search needs to be followed. Most moves of a search are calm; what is left is to say what
happens where an obligation is staged or refined, where the frame is rebuilt and where the universe
is swept.
-/

namespace Invariance.FiniteState

open Universe Session

/-- The oracle's answer to a refutation that is not inductive: a clear state, which has a step to a
state outside the refutation. -/
structure Challenged (sys : TransitionSystem) (u : Universe) (obs : List Obligation)
    (refutation counter : Formula) (a : Nat) : Prop where
  clear : Clear u obs a
  single : ∃ t, u.Names counter t ∧ ∀ y, t.contains y = true ↔ y = a
  leaves : ∃ b r, u.Names refutation r ∧ sys.Edge a b ∧ r.contains b = false

theorem Challenged.extend {sys : TransitionSystem} {u u' : Universe} {mode : ForwardLearning}
    {obs : List Obligation} {f g : Formula} {a : Nat} (h : Challenged sys u obs f g a)
    (hduties : Duties sys mode u obs) (hext : Extends u u') : Challenged sys u' obs f g a := by
  obtain ⟨t, ht, ha⟩ := h.single
  obtain ⟨b, r, hr, hleaves⟩ := h.leaves
  exact ⟨(hduties.clear_iff hext).mpr h.clear, ⟨t, hext.names ht, ha⟩, b, r, hext.names hr,
    hleaves⟩

/-- What has to be shown of the search, so that all its states are as `I` says and every move leads
to one that `R` relates. -/
structure Guided (M : Machine) (sys : TransitionSystem) (I : Search × Session → Prop)
    (R : Search × Session → Search × Session → Prop) : Prop where
  calm : Course.Respects Calm I R
  stage : ∀ {x f} {ob : Obligation}, I x → x.2.terms.Ample sys ob.forward →
    (Search.stageCourse (backend M) ob f).Follows I R x fun _ _ => True
  refine : ∀ {w₀ P n s w f g a} {ob : Obligation}, I (s, w) →
    Opening sys w₀ P [ob.bare] n s w → Refutes w.terms f ob.bare →
    Challenged sys w.terms (owed [ob.bare] s) f g a → ¬ sys.Initial a →
    (Search.refineCourse (backend M) ob f g).Follows I R (s, w) fun _ _ => True
  rebuild : ∀ {s w}, I (s, w) → Sound sys w → Stalled sys w.terms s.staged →
    (Search.rebuildCourse (backend M)).Follows I R (s, w) fun _ _ => True
  relocated : ∀ {s w s' w'}, I (s, w) → w.terms.Canonical → Relocated s w s' w' →
    w'.system = sys → I (s', w') ∧ R (s, w) (s', w')

end Invariance.FiniteState
