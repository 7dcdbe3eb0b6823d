import Invariance.Proofs.FiniteState.Induction

/-!
What a formula is evaluated to. Terms are made of earlier ones, so a bound on the nesting that is
past the formula is as good as any other; a conjunction has a value exactly if the formulas in it
do, as far as sets of that many states can be had at all.
-/

namespace Invariance.FiniteState.Universe

variable {u : Universe} {f g : Formula} {fs : List Formula} {s : StateSet}

theorem evalWithin_past (hu : u.Canonical) : ∀ {bound bound' : Nat} {f : Formula}, f.id < bound →
    f.id < bound' → u.evalWithin bound f = u.evalWithin bound' f
  | bound + 1, bound' + 1, f, hlt, hlt' => by
      rw [evalWithin, evalWithin, term]
      cases hf : u.terms[f.id]? with
      | none => rfl
      | some t =>
          cases t with
          | states s => rfl
          | atStep g step => rfl
          | conj fs =>
              refine bind_congr fun _ => meet_congr (List.forall₂_same.mpr fun g hg => ?_) _
              have hlt₁ : g.id < f.id := hu.earlier hf g hg
              exact evalWithin_past hu (by omega) (by omega)

theorem eval_past (hu : u.Canonical) (hf : u.Live f) {bound : Nat} (hlt : f.id < bound) :
    u.evalWithin bound f = u.eval f :=
  evalWithin_past hu hlt (Nat.lt_succ_of_lt hf)

/-- The unfolding of a conjunction, with no bound in sight. -/
theorem eval_conj (hu : u.Canonical) (hg : u.terms[g.id]? = some (.conj fs)) :
    u.eval g = Checked.ofExcept (StateSet.allocatable u.size) >>= fun _ =>
      InductionSolver.conjunction u.size u fs := by
  have hlive : g.id < u.length := live_of_stored hg
  have hterm : u.term g = .ok (.conj fs) := by rw [term, hg]
  rw [eval, evalWithin, hterm]
  refine bind_congr fun _ => meet_congr (List.forall₂_same.mpr fun f hf => ?_) _
  have hlt : f.id < g.id := hu.earlier hg f hf
  exact eval_past hu (Nat.lt_trans hlt hlive) (Nat.lt_trans hlt hlive)

theorem eval_atStep {step : Nat} (hg : u.terms[g.id]? = some (.atStep f step)) :
    u.eval g = .refuse (.notAStateFormula g) := by
  rw [eval, evalWithin, term, hg]

/-- Of values that are sets of one size or refused, the first that is refused decides. -/
theorem meet_cases {n : Nat} {value : Formula → Checked StateSet} :
    ∀ {fs : List Formula} {acc : StateSet}, acc.size = n →
    (∀ g ∈ fs, (∃ t, value g = .ok t ∧ t.size = n) ∨ ∃ e, value g = .refuse e) →
    (∃ s, fs.foldlM (fun acc g => do Checked.ofExcept (acc.inter (← value g))) acc = .ok s) ∨
      ∃ e, fs.foldlM (fun acc g => do Checked.ofExcept (acc.inter (← value g))) acc = .refuse e
  | [], _, _, _ => Or.inl ⟨_, rfl⟩
  | g :: fs, acc, hacc, hfs => by
      rw [List.foldlM_cons]
      rcases hfs g List.mem_cons_self with ⟨t, ht, htsize⟩ | ⟨e, he⟩
      · obtain ⟨r, hr, hrsize, _⟩ := StateSet.inter_eq (hacc.trans htsize.symm)
        simp only [ht, bind, Except.bind, hr]
        exact meet_cases (hrsize.trans hacc) fun g' hg' => hfs g' (List.mem_cons_of_mem _ hg')
      · exact Or.inr ⟨e, by rw [he]; rfl⟩

theorem eval_cases (hu : u.Canonical) (hsize : StateSet.allocatable u.size = .ok ())
    (f : Formula) : u.Accepts f ∨ ∃ e, u.eval f = .refuse e := by
  cases hf : u.terms[f.id]? with
  | none => exact Or.inr ⟨.unknownFormula f, by rw [eval, evalWithin, term, hf]⟩
  | some t =>
      cases t with
      | states s => exact Or.inl ⟨s, eval_eq hf⟩
      | atStep g step => exact Or.inr ⟨_, eval_atStep hf⟩
      | conj fs =>
          rw [Accepts, eval_conj hu hf, hsize]
          refine meet_cases (n := u.size) rfl fun g hg => ?_
          have hlt : g.id < f.id := hu.earlier hf g hg
          rcases eval_cases hu hsize g with ⟨s, hs⟩ | he
          · exact Or.inl ⟨s, hs, size_of_eval hu hs⟩
          · exact Or.inr he
termination_by f.id

end Invariance.FiniteState.Universe
