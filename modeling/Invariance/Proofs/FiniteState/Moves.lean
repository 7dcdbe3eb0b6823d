import Invariance.Proofs.Agenda.Waiting
import Invariance.Proofs.FiniteState.Ledger
import Invariance.Proofs.FiniteState.Session

/-!
The moves of a search on a sound session: queueing, popping and bumping obligations, and the check
that none of them has lost its refutation.
-/

namespace Invariance.FiniteState

open Universe Session

variable {M : Machine} {sys : TransitionSystem} {s : Search} {w : Session} {E : Fault → Prop}

theorem ends_refutation (hw : Sound sys w) {ob : Obligation} {f : Formula}
    (hf : Refutes w.terms f ob) {Q : Formula → Search × Session → Prop}
    (h : ∀ w', Grows w w' → Q f (s, w')) :
    Action.Ends (Search.negate (backend M) ob.counter) (s, w) E Q := by
  obtain ⟨c, hc, hfc⟩ := hf
  refine ends_negate hw hc fun g w' hgrow hg => ?_
  obtain rfl := hgrow.canonical.name_eq hg (hgrow.terms.names hfc)
  exact h w' hgrow

theorem ends_enqueue (hw : Sound sys w) (hq : s.agenda.Valid) {ob : Obligation} {f : Formula}
    (hf : Refutes w.terms f ob) (hin : s.frame.contains f = true)
    (hfresh : ∀ o ∈ s.agenda.waiting, o.counter ≠ ob.counter)
    {Q : Unit → Search × Session → Prop}
    (h : ∀ agenda w', Grows w w' → agenda.Valid →
      agenda.waiting.Perm (ob.bare :: s.agenda.waiting) →
      Q () ({ s with agenda, stats.queueSize := agenda.size }, w')) :
    Action.Ends (Search.enqueue (backend M) ob) (s, w) E Q := by
  obtain ⟨slot, agenda, hpush, hagenda, hperm⟩ := Agenda.push_waiting hq hfresh
  rw [Search.enqueue, Action.ends_bind]
  refine ends_refutation hw hf fun w' hgrow => ?_
  simp only [Action.ends_bind, Search.ends_state, hin, if_true, hpush, Action.ends_ofExcept_ok,
    Search.ends_change]
  exact h agenda w' hgrow hagenda hperm

theorem ends_admit (hw : Sound sys w) (hq : s.agenda.Valid) {ob : Obligation} {f : Formula}
    (hf : Refutes w.terms f ob) (hout : s.frame.contains f = false)
    (hunnoted : s.frame.intermediate.contains f = false)
    (hfresh : ∀ o ∈ s.agenda.waiting, o.counter ≠ ob.counter)
    {Q : Unit → Search × Session → Prop}
    (h : ∀ agenda (stats : Statistics) w',
      Grows { w with induction := (w.induction.enter f .first).enter f .intermediate } w' →
      agenda.Valid → agenda.waiting.Perm (ob.bare :: s.agenda.waiting) →
      stats.rounds = s.stats.rounds →
      Q () ({ s with
        frame.members := s.frame.members.insert f
        frame.intermediate := s.frame.intermediate.insert f, agenda, stats }, w')) :
    Action.Ends (Search.addToFrame (backend M) f .first) (s, w) E fun _ t =>
      Action.Ends (Search.addToFrame (backend M) f .intermediate) t E fun _ t' =>
        Action.Ends (Search.enqueue (backend M) ob) t' E Q := by
  obtain ⟨r, hr⟩ := hf.named
  have henter : s.frame.enter f .first = .ok (s.frame.insert f) := by
    rw [Frame.enter, hout]
    rfl
  have hunnoted' : (s.frame.insert f).intermediate.contains f = false := hunnoted
  have hnote : (s.frame.insert f).enter f .intermediate = .ok { s.frame.insert f with
      intermediate := s.frame.intermediate.insert f } := by
    rw [Frame.enter, hunnoted']
    rfl
  have hw' : Sound sys
      { w with induction := (w.induction.enter f .first).enter f .intermediate } :=
    hw.congr rfl rfl
  have hmember : (s.frame.insert f).contains f = true := by
    simp [Frame.contains, Frame.insert, FormulaSet.contains_insert]
  refine ends_addToFrame hr henter ?_
  refine ends_addToFrame (by exact hr) (by exact hnote) ?_
  exact ends_enqueue hw' (by exact hq) (by exact hf) (by exact hmember) (by exact hfresh)
    fun agenda w' hgrow hagenda hperm => h agenda _ w' hgrow hagenda hperm rfl

theorem ends_pop (hq : s.agenda.Valid) (hne : s.agenda.isEmpty = false)
    {Q : Obligation → Search × Session → Prop}
    (h : ∀ ob agenda, agenda.Valid → s.agenda.waiting.Perm (ob.bare :: agenda.waiting) →
      (∀ o ∈ agenda.waiting, ob.depth ≤ o.depth) →
      Q ob ({ s with agenda, stats.queueSize := agenda.size }, w)) :
    Action.Ends Search.pop (s, w) E Q := by
  obtain ⟨ob, agenda, hpop, hagenda, hperm, hmin⟩ := Agenda.pop_waiting hq hne
  simp only [Search.pop, Action.ends_bind, Search.ends_state, hpop, Action.ends_ofExcept_ok,
    Search.ends_change, Action.ends_pure]
  exact h ob agenda hagenda hperm hmin

theorem ends_bump (hq : s.agenda.Valid) {counter : Formula} {Q : Unit → Search × Session → Prop}
    (h : ∀ agenda, agenda.Valid → agenda.waiting.Perm s.agenda.waiting →
      Q () ({ s with agenda }, w)) :
    Action.Ends (Search.bump counter) (s, w) E Q := by
  obtain ⟨found, agenda, hbump, hagenda, hperm⟩ := Agenda.bump_waiting hq counter .one
  simp only [Search.bump, Action.ends_bind, Search.ends_state, hbump, Action.ends_ofExcept_ok,
    Search.ends_change]
  exact h agenda hagenda hperm

theorem ends_checkRefutations (hw : Sound sys w) (hq : s.agenda.Valid)
    (hall : ∀ o ∈ s.agenda.waiting, ∃ f, Refutes w.terms f o ∧ s.frame.contains f = true)
    {Q : Unit → Search × Session → Prop} (h : ∀ w', Grows w w' → Q () (s, w')) :
    Action.Ends (Search.checkRefutations (backend M)) (s, w) E Q := by
  obtain ⟨obs, hobs, _, _, hmem⟩ := hq.toList_eq
  simp only [Search.checkRefutations, Action.ends_bind, Search.ends_state, hobs,
    Action.ends_ofExcept_ok]
  have hstep : ∀ ob ∈ obs, ∀ t : Search × Session, t.1 = s ∧ Grows w t.2 →
      Action.Ends (do
        let refutation ← Search.negate (backend M) ob.counter
        unless (← Search.state).frame.contains refutation do
          Action.violate (.refutationLost ob.counter)) t E fun _ t' => t'.1 = s ∧ Grows w t'.2 := by
    rintro ob hob ⟨s', w'⟩ ⟨rfl, hgrow⟩
    have hob' : ob.bare ∈ s'.agenda.waiting :=
      List.mem_map.mpr ⟨ob, hq.mem_bySlot_iff.mpr (hmem.mp hob), rfl⟩
    obtain ⟨f, hf, hin⟩ := hall _ hob'
    have hf' : Refutes w'.terms f ob := hf.extend hgrow.terms
    rw [Action.ends_bind]
    refine ends_refutation (hgrow.sound hw) hf' fun w'' hgrow' => ?_
    simp only [Action.ends_bind, Search.ends_state, hin, if_true, Action.ends_pure]
    exact ⟨trivial, hgrow.trans hgrow'⟩
  refine (Action.ends_forM hstep ⟨rfl, .refl hw.canonical⟩).imp fun _ t ht => ?_
  obtain ⟨s', w'⟩ := t
  obtain ⟨rfl, hgrow⟩ := ht
  exact h w' hgrow

theorem ends_checkedAdd {a b : Nat} (h : M.add a b = .ok (a + b))
    {Q : Nat → Search × Session → Prop} (hQ : Q (a + b) (s, w)) :
    Action.Ends (Search.checkedAdd (backend M) a b) (s, w) E Q := by
  have hadd : (backend M).machine.add a b = .ok (a + b) := h
  rw [Search.checkedAdd, hadd]
  exact hQ

theorem ends_carry {ob : Obligation} {f : Formula} {r : StateSet} (hf : w.terms.Names f r)
    {Q : Search.Push → Search × Session → Prop}
    (h : ∀ stats : Statistics, stats.rounds = s.stats.rounds →
      Q .staged ({ s with staged := s.staged ++ [{ ob.bare with forward := f }], stats },
        { w with induction := (w.induction.enter f .first).enter f .intermediate })) :
    Action.Ends (Search.carry (backend M) ob f) (s, w) E Q := by
  rw [Search.carry, Action.ends_bind, Search.ends_change, Action.ends_bind, Search.ends_act]
  refine ends_register hf ?_
  rw [Action.ends_bind, Search.ends_act]
  refine ends_register (by exact hf) ?_
  exact h _ rfl

end Invariance.FiniteState
