import Invariance.Proofs.FiniteState.Opening
import Invariance.Proofs.FiniteState.Stalled

/-!
The end of the first round. When nothing waits any more, every candidate is settled, so the clear
states are closed under steps and the property holds in all of them. If the frame is then as large
as the list of staged obligations, it describes the clear states; if not, the search has stalled.
-/

namespace Invariance.FiniteState

open Universe Session TransitionSystem

variable {sys : TransitionSystem} {w₀ : Session} {P : Formula → Prop} {n : Nat} {s : Search}
  {w : Session}

structure Certifies (sys : TransitionSystem) (u : Universe) (P : Formula → Prop)
    (fs : List Formula) : Prop where
  named : u.Named fs
  initial : ∀ x, sys.Initial x → u.Within fs x
  closed : ∀ x y, u.Within fs x → sys.Edge x y → u.Within fs y
  below : ∀ p r x, P p → u.Names p r → x < sys.size → u.Within fs x → r.contains x = true

namespace Opening

theorem owed_eq (hempty : s.agenda.waiting = []) : owed [] s = s.staged := by
  rw [owed, hempty, List.nil_append, List.nil_append]

theorem clear_of_edge (h : Opening sys w₀ P [] n s w) (hempty : s.agenda.waiting = []) {x y : Nat}
    (hx : Clear w.terms s.staged x) (hedge : sys.Edge x y) : Clear w.terms s.staged y := by
  have hduties := h.duties
  have hsettled := h.assumes.settled
  rw [owed_eq hempty] at hduties hsettled
  exact hduties.clear_of_edge h.sound.canonical h.sound.size hsettled hx hedge

theorem clear_of_initial (h : Opening sys w₀ P [] n s w) (hempty : s.agenda.waiting = []) {x : Nat}
    (hx : sys.Initial x) : Clear w.terms s.staged x := by
  have hclear := h.duties.clear_of_initial hx
  rwa [owed_eq hempty] at hclear

theorem clear_of_reachable (h : Opening sys w₀ P [] n s w) (hempty : s.agenda.waiting = [])
    {x : Nat} (hx : sys.Reachable x) : Clear w.terms s.staged x := by
  induction hx with
  | initial hx => exact h.clear_of_initial hempty hx
  | step _ hedge ih => exact h.clear_of_edge hempty ih hedge

theorem property_of_clear (h : Opening sys w₀ P [] n s w) (hempty : s.agenda.waiting = [])
    {x : Nat} (hlt : x < sys.size) (hx : Clear w.terms s.staged x) {p : Formula} {r : StateSet}
    (hp : P p) (hr : w.terms.Names p r) : r.contains x = true := by
  obtain ⟨ob, hob, hf⟩ := h.descends.literal p ((h.properties p).mpr hp)
  rw [← owed_eq hempty] at hx
  exact h.duties.refutation_of_clear h.sound.canonical h.sound.size hob hf hr hlt hx

theorem certifies (h : Opening sys w₀ P [] n s w) (hempty : s.agenda.waiting = [])
    (hsize : s.frame.size = s.staged.length) : Certifies sys w.terms P s.frame.toList := by
  have hmembers : ∀ f, f ∈ s.frame.toList → ∃ ob ∈ owed [] s, Refutes w.terms f ob := by
    rcases h.covers.size_cases h.sound.canonical h.duties with ⟨_, hall⟩ | ⟨hne, _⟩
    · exact fun f hf => hall f (FormulaSet.mem_toList.mp hf)
    · rw [owed_eq hempty] at hne
      exact absurd hsize hne
  have hwithin : ∀ x, x < sys.size → Clear w.terms s.staged x →
      w.terms.Within s.frame.toList x := fun x hlt hx f hf r hr => by
    obtain ⟨ob, hob, href⟩ := hmembers f hf
    rw [← owed_eq hempty] at hx
    exact h.duties.refutation_of_clear h.sound.canonical h.sound.size hob href hr hlt hx
  have hrefuted : ∀ ob ∈ s.staged, ∃ f, Refutes w.terms f ob ∧ f ∈ s.frame.toList :=
    fun ob hob => by
      obtain ⟨f, hf, hin⟩ := h.covers.refuted ob (by rwa [owed_eq hempty])
      exact ⟨f, hf, FormulaSet.mem_toList.mpr hin⟩
  refine ⟨fun f hf => ?_, fun x hx => ?_, fun x y hx hedge => ?_, fun p r x hp hr hlt hx => ?_⟩
  · obtain ⟨_, _, hr⟩ := hmembers f hf
    exact hr.named
  · exact hwithin x hx.lt (h.clear_of_initial hempty hx)
  · exact hwithin y hedge.lt_right (h.clear_of_edge hempty (clear_of_within hrefuted hx) hedge)
  · exact h.property_of_clear hempty hlt (clear_of_within hrefuted hx) hp hr

theorem stalled (h : Opening sys w₀ P [] n s w) (hempty : s.agenda.waiting = [])
    (hsize : s.frame.size ≠ s.staged.length) :
    w.forward = .reachable ∧ Stalled sys w.terms s.staged := by
  have hduties := h.duties
  have hcovers := h.covers
  have hsettled := h.assumes.settled
  rw [owed_eq hempty] at hduties hcovers hsettled
  rcases hcovers.size_cases h.sound.canonical hduties with ⟨heq, _⟩ | ⟨_, hmode, ob, hob, hrest⟩
  · exact absurd heq hsize
  · exact ⟨hmode, hmode ▸ hduties, hsettled ob hob sys.init hrest.1, ob, hob, hrest⟩

end Opening

end Invariance.FiniteState
