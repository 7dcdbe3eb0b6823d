import Invariance.Proofs.Agenda.Waiting
import Invariance.Proofs.FiniteState.Ledger

/-!
Obligations that are carried from round to round for ever. Every step from a clear state leads into
the initial states, so at any depth all refutations are inductive; and one candidate refutes
nothing, so the frame stays larger than the list of obligations.
-/

namespace Invariance.FiniteState

open Universe

variable {sys : TransitionSystem} {u u' : Universe} {obs obs' : List Obligation} {frame : Frame}

structure Stalled (sys : TransitionSystem) (u : Universe) (obs : List Obligation) : Prop where
  duties : Duties sys .reachable u obs
  shut : ∀ x y, Clear u obs x → sys.Edge x y → sys.Initial y
  spare : ∃ ob ∈ obs, u.Names ob.forward sys.init ∧ ∀ o ∈ obs, ¬ Refutes u ob.forward o

structure Moved (u u' : Universe) (ob ob' : Obligation) : Prop where
  counter : ∀ {s}, u.Names ob.counter s → u'.Names ob'.counter s
  forward : ∀ {s}, u.Names ob.forward s → u'.Names ob'.forward s
  depth : ob'.depth = ob.depth

theorem Moved.refutes {ob ob' : Obligation} (h : Moved u u' ob ob') {f g : Formula}
    (hf : Refutes u f ob) (hg : ∀ {s}, u.Names f s → u'.Names g s) : Refutes u' g ob' := by
  obtain ⟨r, hr, hfr⟩ := hf
  exact ⟨r, h.counter hr, hg hfr⟩

theorem Moved.extend (ob : Obligation) (hext : Extends u u') : Moved u u' ob ob :=
  ⟨hext.names, hext.names, rfl⟩

theorem Moved.bare (u : Universe) (ob : Obligation) : Moved u u ob ob.bare :=
  ⟨fun h => h, fun h => h, rfl⟩

namespace Stalled

theorem perm (h : Stalled sys u obs) (hperm : obs.Perm obs') : Stalled sys u obs' where
  duties := h.duties.perm hperm
  shut x y hx := h.shut x y (hx.of_subset fun _ => hperm.mem_iff.mp)
  spare := by
    obtain ⟨ob, hob, hinit, hfree⟩ := h.spare
    exact ⟨ob, hperm.mem_iff.mp hob, hinit, fun o ho => hfree o (hperm.mem_iff.mpr ho)⟩

theorem rename (h : Stalled sys u obs) (hu : u.Canonical) {mv : Obligation → Obligation}
    (hmv : ∀ ob ∈ obs, Moved u u' ob (mv ob)) : Stalled sys u' (obs.map mv) := by
  have hback : ∀ ob ∈ obs, ∀ s, u'.Names (mv ob).counter s → u.Names ob.counter s :=
    fun ob hob s hs => by
      obtain ⟨r, hr, _⟩ := h.duties.named ob hob
      obtain rfl := hs.eq ((hmv ob hob).counter hr)
      exact hr
  have hclear : ∀ x, Clear u' (obs.map mv) x → Clear u obs x := fun x hx ob hob r hr =>
    hx (mv ob) (List.mem_map.mpr ⟨ob, hob, rfl⟩) r ((hmv ob hob).counter hr)
  refine ⟨⟨?_, ?_, ?_, ?_⟩, fun x y hx => h.shut x y (hclear x hx), ?_⟩
  · rw [List.map_map]
    refine List.Nodup.map_on (fun ob hob ob' hob' heq => ?_) (nodup_of_counters h.duties.distinct)
    obtain ⟨r, hr, _⟩ := h.duties.named ob hob
    have hcounter : (mv ob).counter = (mv ob').counter := heq
    have hr' := hback ob' hob' r (hcounter ▸ (hmv ob hob).counter hr)
    exact h.duties.mem_eq hob hob' (hu.name_eq hr hr')
  · refine List.forall_mem_map.mpr fun ob hob => ?_
    obtain ⟨r, hr, hinit⟩ := h.duties.named ob hob
    exact ⟨r, (hmv ob hob).counter hr, hinit⟩
  · refine List.forall_mem_map.mpr fun ob hob => ?_
    rcases h.duties.forward ob hob with hr | ⟨hmode, hinit, hdepth⟩
    · exact Or.inl ((hmv ob hob).refutes hr (hmv ob hob).forward)
    · exact Or.inr ⟨hmode, (hmv ob hob).forward hinit, (hmv ob hob).depth ▸ hdepth⟩
  · refine List.forall_mem_map.mpr fun ob hob hdepth => ?_
    obtain ⟨a, ha⟩ := h.duties.single ob hob ((hmv ob hob).depth ▸ hdepth)
    exact ⟨a, fun r hr => ha r (hback ob hob r hr)⟩
  · obtain ⟨ob, hob, hinit, hfree⟩ := h.spare
    refine ⟨mv ob, List.mem_map.mpr ⟨ob, hob, rfl⟩, (hmv ob hob).forward hinit,
      List.forall_mem_map.mpr fun o ho hr => ?_⟩
    obtain ⟨c, hc, hf⟩ := hr
    have heq : sys.init = c.complement := ((hmv ob hob).forward hinit).eq hf
    exact hfree o ho ⟨c, hback o ho c hc, heq ▸ hinit⟩

theorem extend (h : Stalled sys u obs) (hu : u.Canonical) (hext : Extends u u') :
    Stalled sys u' obs := by
  have hrename := h.rename hu fun ob _ => Moved.extend ob hext
  rwa [List.map_id'] at hrename

theorem initial_of_chain (h : Stalled sys u obs) {x : Nat} {ys : List Nat} (hx : Clear u obs x)
    (hchain : (x :: ys).IsChain sys.Edge) : ∀ y ∈ ys, sys.Initial y := by
  induction ys generalizing x with
  | nil => simp
  | cons y ys ih =>
      obtain ⟨hedge, hrest⟩ := List.isChain_cons_cons.mp hchain
      have hy := h.shut x y hx hedge
      exact List.forall_mem_cons.mpr ⟨hy, ih (h.duties.clear_of_initial hy) hrest⟩

theorem lt_size (h : Stalled sys u obs) (hu : u.Canonical)
    (hrefuted : ∀ ob ∈ obs, ∃ f, Refutes u f ob ∧ frame.contains f = true)
    (hforward : ∀ ob ∈ obs, frame.contains ob.forward = true) : obs.length < frame.size := by
  obtain ⟨fs, hlen, hnodup, hmem, hin⟩ := exists_refutations hu h.duties.distinct hrefuted
  obtain ⟨ob, hob, _, hfree⟩ := h.spare
  have hnot : ob.forward ∉ fs := fun hf => by
    obtain ⟨o, ho, hr⟩ := (hmem _).mp hf
    exact hfree o ho hr
  have hsub : (ob.forward :: fs).Subperm frame.toList := by
    refine (List.nodup_cons.mpr ⟨hnot, hnodup⟩).subperm fun f hf => FormulaSet.mem_toList.mpr ?_
    rcases List.mem_cons.mp hf with rfl | hf
    · exact hforward ob hob
    · exact hin f hf
  have hle := hsub.length_le
  have hkeys : frame.toList.length = frame.size := FormulaMap.length_keys frame.members
  rw [List.length_cons, hlen, hkeys] at hle
  omega

end Stalled

end Invariance.FiniteState
