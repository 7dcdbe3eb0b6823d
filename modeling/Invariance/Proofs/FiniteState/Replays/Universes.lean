import Invariance.Proofs.FiniteState.Passing.Idle
import Invariance.Proofs.FiniteState.Twins.Universes

/-!
The same question to a universe that has grown. What had a value has it still, and an operation
whose result is stored by now finds it and adds nothing.
-/

namespace Invariance.FiniteState

/-- Whatever the first comes to, the second comes to as well. -/
def Confirms {ε α : Type} (x y : Except ε α) : Prop := ∀ a, x = .ok a → y = .ok a

namespace Confirms

variable {ε α β : Type} {x y : Except ε α}

theorem refl (x : Except ε α) : Confirms x x := fun _ h => h

theorem bind {f g : α → Except ε β} (h : Confirms x y) (hf : ∀ a, Confirms (f a) (g a)) :
    Confirms (x >>= f) (y >>= g) := fun b hb => by
  cases x with
  | error e => cases hb
  | ok a =>
      rw [h a rfl]
      exact hf a b hb

theorem foldlM {f g : β → α → Except ε β} (h : ∀ acc a, Confirms (f acc a) (g acc a)) :
    ∀ (l : List α) (acc : β), Confirms (l.foldlM f acc) (l.foldlM g acc)
  | [], _ => refl _
  | a :: l, acc => (h acc a).bind fun _ => foldlM h l _

end Confirms

namespace Universe

variable {u v : Universe}

theorem confirms_term (h : Extends u v) (f : Formula) : Confirms (u.term f) (v.term f) := by
  intro t ht
  rw [term] at ht ⊢
  cases hf : u.terms[f.id]? with
  | none =>
      rw [hf] at ht
      cases ht
  | some t' =>
      rw [hf] at ht
      obtain rfl := Except.ok.inj ht
      rw [h.kept hf]

theorem confirms_evalWithin (h : Extends u v) : ∀ {bound bound' : Nat}, bound ≤ bound' →
    ∀ f, Confirms (u.evalWithin bound f) (v.evalWithin bound' f)
  | 0, _, _, _ => nofun
  | bound + 1, bound' + 1, hle, f => by
      intro s hs
      rw [evalWithin] at hs ⊢
      cases hf : u.term f with
      | error e =>
          rw [hf] at hs
          cases hs
      | ok t =>
          rw [hf] at hs
          rw [confirms_term h f t hf]
          cases t with
          | states s' => exact hs
          | atStep g k => cases hs
          | conj fs =>
              simp only at hs ⊢
              rw [h.size]
              refine Confirms.bind (.refl _) (fun _ => Confirms.foldlM (fun acc g => ?_) fs _) s hs
              exact (confirms_evalWithin h (Nat.le_of_succ_le_succ hle) g).bind fun _ => .refl _

theorem confirms_eval (h : Extends u v) (f : Formula) : Confirms (u.eval f) (v.eval f) :=
  confirms_evalWithin h (Nat.succ_le_succ h.length_le) f

theorem confirms_stepFormula (h : Extends u v) (f : Formula) :
    Confirms (u.stepFormula f) (v.stepFormula f) := by
  intro r hr
  rw [stepFormula] at hr ⊢
  cases hf : u.term f with
  | error e =>
      rw [hf] at hr
      cases hr
  | ok t =>
      rw [hf] at hr
      rw [confirms_term h f t hf]
      cases t with
      | states s => cases hr
      | conj fs => cases hr
      | atStep g k => exact (confirms_eval h g).bind (fun _ => .refl _) r hr

/-- An operation that adds terms at most, and nothing to a universe that has them all. -/
def Settles {ε α : Type} (v : Universe) (op : Universe → Except ε (α × Universe)) : Prop :=
  ∀ u a u', op u = .ok (a, u') → Extends u u' ∧ (Extends u' v → op v = .ok (a, v))

section Settles

variable {ε α β : Type} {op : Universe → Except ε (α × Universe)} {f g : Formula}

theorem settles_ok (a : α) : Settles v fun u => (.ok (a, u) : Except ε (α × Universe)) := by
  intro u a' u' hrun
  obtain ⟨rfl, rfl⟩ := Prod.mk.inj (Except.ok.inj hrun)
  exact ⟨.refl _, fun _ => rfl⟩

theorem Settles.bind {next : α → Universe → Except ε (β × Universe)} (h : Settles v op)
    (hnext : ∀ a, Settles v (next a)) : Settles v fun u => op u >>= fun r => next r.1 r.2 := by
  intro u b u'' hrun
  cases hop : op u with
  | error e =>
      simp only [hop, Bind.bind, Except.bind] at hrun
      cases hrun
  | ok r =>
      obtain ⟨a, u'⟩ := r
      simp only [hop, Bind.bind, Except.bind] at hrun
      obtain ⟨hext, hfound⟩ := h u a u' hop
      obtain ⟨hext', hfound'⟩ := hnext a u' b u'' hrun
      refine ⟨hext.trans hext', fun hv => ?_⟩
      simp only [hfound (hext'.trans hv), Bind.bind, Except.bind]
      exact hfound' hv

/-- A question first, then an operation that depends on the answer. -/
theorem Settles.ask {m : Universe → Except ε β} {k : β → Universe → Except ε (α × Universe)}
    (hm : ∀ {u}, Extends u v → Confirms (m u) (m v)) (hk : ∀ b, Settles v (k b)) :
    Settles v fun u => m u >>= fun b => k b u := by
  intro u a u' hrun
  cases hb : m u with
  | error e =>
      simp only [hb, Bind.bind, Except.bind] at hrun
      cases hrun
  | ok b =>
      simp only [hb, Bind.bind, Except.bind] at hrun
      obtain ⟨hext, hfound⟩ := hk b u a u' hrun
      refine ⟨hext, fun hv => ?_⟩
      simp only [hm (hext.trans hv) b hb, Bind.bind, Except.bind]
      exact hfound hv

theorem settles_ofExcept {op : Universe → Except Violation (α × Universe)} (h : Settles v op) :
    Settles v fun u => Checked.ofExcept (op u) := by
  intro u a u' hrun
  cases hop : op u with
  | error e =>
      simp only [hop] at hrun
      cases hrun
  | ok r =>
      simp only [hop] at hrun
      obtain rfl := Except.ok.inj hrun
      obtain ⟨hext, hfound⟩ := h u a u' hop
      exact ⟨hext, fun hv => by simp only [hfound hv]; rfl⟩

theorem settles_ofSet (hv : v.Canonical) (s : StateSet) : Settles v (·.ofSet s) :=
  fun _ _ _ hset =>
    ⟨(ofSet_grows hset).1, fun hext => ofSet_of_names hv (hext.names (ofSet_grows hset).2)⟩

theorem settles_ofStates (hv : v.Canonical) (states : List Nat) :
    Settles v (·.ofStates states) :=
  Settles.ask (m := fun u => StateSet.ofStates u.size states)
    (fun hext => by rw [hext.size]; exact .refl _) (settles_ofSet hv)

theorem settles_negate (hv : v.Canonical) (f : Formula) : Settles v (·.negate f) := by
  intro u g u' hrun
  refine ⟨(negate_grows hrun).1, fun hext => ?_⟩
  have heval := confirms_eval ((negate_grows hrun).1.trans hext) f
  simp only [negate] at hrun ⊢
  cases hf : u.eval f with
  | ok s =>
      rw [hf] at hrun
      rw [heval s hf]
      exact (settles_ofSet hv _ u g u' hrun).2 hext
  | error flaw =>
      rw [hf] at hrun
      cases flaw <;> cases hrun

theorem settles_disjoin (hv : v.Canonical) (f g : Formula) : Settles v (·.disjoin f g) := by
  intro u d u' hrun
  refine ⟨(disjoin_grows hrun).1, fun hext => ?_⟩
  have hall := (disjoin_grows hrun).1.trans hext
  simp only [disjoin] at hrun ⊢
  split at hrun
  next s t hs ht =>
    rw [confirms_eval hall f s hs, confirms_eval hall g t ht]
    exact (Settles.ask (m := fun _ => s.union t) (fun _ => .refl _) (settles_ofSet hv)
      u d u' hrun).2 hext
  all_goals cases hrun

theorem settles_intern (hv : v.Canonical) (t : Term) :
    Settles v fun u => (.ok (u.intern t) : Except Violation _) := by
  intro u g u' hrun
  have hgrows := u.intern_grows t
  rw [show u.intern t = (g, u') from Except.ok.inj hrun] at hgrows
  exact ⟨hgrows.1, fun hext => congrArg _ (intern_of_stored hv (hext.kept hgrows.2))⟩

theorem settles_learnForward (hv : v.Canonical) (mode : ForwardLearning) (sys : TransitionSystem)
    (n : Nat) (g : Formula) : Settles v fun u => learnForward mode sys u n g := by
  have hnegate : Settles v fun u => Checked.ofExcept (u.negate g) :=
    settles_ofExcept (settles_negate hv g)
  refine Settles.ask (fun hext => confirms_eval hext g) fun counter => ?_
  cases mode with
  | negation => exact hnegate
  | reachable =>
      refine Settles.ask (m := fun _ => Checked.ofExcept (reachableWithin sys n))
        (fun _ => .refl _) fun reached => ?_
      refine Settles.ask (m := fun _ => Checked.ofExcept (reached.inter counter))
        (fun _ => .refl _) fun common => ?_
      cases common.isEmpty with
      | true => exact settles_ofExcept (settles_ofSet hv reached)
      | false => exact hnegate

theorem settles_pathFormulas (hv : v.Canonical) : ∀ path : List Nat,
    Settles v fun u => Reachability.pathFormulas u path
  | [] => settles_ok []
  | x :: path => (settles_ofStates hv [x]).bind fun f =>
      (settles_pathFormulas hv path).bind fun fs => settles_ok (f :: fs)

end Settles

end Universe

/-! The solvers. -/

section Solvers

open Universe

variable {M : Machine} {u v : Universe} {sys : TransitionSystem} {n : Nat}

theorem InductionSolver.confirms_register (h : Extends u v) (solver : InductionSolver)
    (f : Formula) (role : Role) :
    Confirms (solver.register u f role) (solver.register v f role) :=
  (confirms_eval h f).bind fun _ => .refl _

theorem InductionSolver.confirms_conjunction (h : Extends u v) (fs : List Formula) :
    Confirms (conjunction n u fs) (conjunction n v fs) :=
  Confirms.foldlM (fun _ f => (confirms_eval h f).bind fun _ => .refl _) fs _

theorem InductionSolver.confirms_check (h : Extends u v) (solver : InductionSolver)
    (f : Formula) : Confirms (solver.check M sys u f) (solver.check M sys v f) :=
  .bind (.refl _) fun _ => .bind (.refl _) fun _ =>
    (confirms_conjunction h _).bind fun _ => (confirms_conjunction h _).bind fun _ =>
      (confirms_eval h f).bind fun _ => .refl _

theorem PathSolver.confirms_assert (h : Extends u v) (solver : PathSolver) (f : Formula) :
    Confirms (solver.assert u f) (solver.assert v f) :=
  (confirms_stepFormula h f).bind fun _ => .refl _

theorem PathSolver.confirms_check (h : Extends u v) (solver : PathSolver) :
    Confirms (solver.check M sys u) (solver.check M sys v) := by
  have hsets : Confirms (constraints M u sys.size solver.asserted)
      (constraints M v sys.size solver.asserted) :=
    (Confirms.foldlM (fun _ f => (confirms_stepFormula h f).bind fun _ => .refl _) _ _).bind
      fun _ => .refl _
  exact hsets.bind fun _ => .refl _

theorem Reachability.confirms_find (h : Extends u v) (reach : Reachability) (first last : Nat)
    (g : Formula) : Confirms (reach.find sys u first last g) (reach.find sys v first last g) :=
  (confirms_eval h g).bind fun _ => .refl _

end Solvers

end Invariance.FiniteState
