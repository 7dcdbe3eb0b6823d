import Invariance.Proofs.Transcripts.Notes

/-!
Taking notes changes nothing else: with the notes left out, a query on a noted backend is the query
on the backend itself. It is shown for any backend that lies over another, so that it holds as well
of one that takes other notes.
-/

namespace Invariance

namespace Action

variable {σ τ σ' τ' ε α β : Type} {π : τ → σ}

/-- Seen through `π`, the first effect is the second. -/
structure Under (π : τ → σ) (act : EStateM ε τ α) (act' : EStateM ε σ α) : Prop where
  run_eq : ∀ t, act' (π t) = match act t with
    | .ok a t' => .ok a (π t')
    | .error fault t' => .error fault (π t')

namespace Under

variable {act : EStateM ε τ α} {act' : EStateM ε σ α}

theorem ok (h : Under π act act') {t : τ} {a : α} {s : σ} (hrun : act' (π t) = .ok a s) :
    ∃ t', act t = .ok a t' ∧ π t' = s := by
  rw [h.run_eq] at hrun
  cases hact : act t with
  | ok b t' =>
      rw [hact] at hrun
      obtain ⟨rfl, rfl⟩ := EStateM.Result.ok.inj hrun
      exact ⟨t', rfl, rfl⟩
  | error fault t' =>
      rw [hact] at hrun
      cases hrun

theorem error (h : Under π act act') {t : τ} {fault : ε} {s : σ}
    (hrun : act' (π t) = .error fault s) : ∃ t', act t = .error fault t' ∧ π t' = s := by
  rw [h.run_eq] at hrun
  cases hact : act t with
  | ok b t' =>
      rw [hact] at hrun
      cases hrun
  | error fault' t' =>
      rw [hact] at hrun
      obtain ⟨rfl, rfl⟩ := EStateM.Result.error.inj hrun
      exact ⟨t', rfl, rfl⟩

theorem bind {next : α → EStateM ε τ β} {next' : α → EStateM ε σ β} (h : Under π act act')
    (hnext : ∀ a, Under π (next a) (next' a)) : Under π (act >>= next) (act' >>= next') := by
  refine ⟨fun t => ?_⟩
  change EStateM.bind act' next' (π t) = match EStateM.bind act next t with
    | .ok b t' => .ok b (π t')
    | .error fault t' => .error fault (π t')
  rw [EStateM.bind, EStateM.bind, h.run_eq]
  cases act t with
  | ok a t' => exact (hnext a).run_eq t'
  | error fault t' => rfl

theorem ite {c : Prop} [Decidable c] {other : EStateM ε τ α} {other' : EStateM ε σ α}
    (h : Under π act act') (hother : Under π other other') :
    Under π (if c then act else other) (if c then act' else other') := by
  split
  · exact h
  · exact hother

theorem guard {c : Prop} [Decidable c] {b : EStateM ε τ β} {b' : EStateM ε σ β}
    (hb : Under π b b') (h : Under π act act') :
    Under π (if c then act else b >>= fun _ => act) (if c then act' else b' >>= fun _ => act') :=
  .ite h (hb.bind fun _ => h)

theorem refuse {c : Prop} [Decidable c] {b : EStateM ε τ β} {b' : EStateM ε σ β}
    (hb : Under π b b') (h : Under π act act') :
    Under π (if c then b >>= fun _ => act else act) (if c then b' >>= fun _ => act' else act') :=
  .ite (hb.bind fun _ => h) h

end Under

theorem under_pure (a : α) : Under π (pure a : EStateM ε τ α) (pure a) := ⟨fun _ => rfl⟩

theorem under_throw (fault : ε) : Under π (throw fault : EStateM ε τ α) (throw fault) :=
  ⟨fun _ => rfl⟩

theorem under_fail (e : CheckError) : Under π (fail e : Action τ α) (fail e) := ⟨fun _ => rfl⟩

theorem under_violate (v : Violation) : Under π (violate v : Action τ α) (violate v) :=
  ⟨fun _ => rfl⟩

theorem under_ofExcept (x : Except Violation α) : Under π (ofExcept x) (ofExcept x) := by
  cases x with
  | ok a => exact under_pure a
  | error v => exact under_violate v

theorem under_ofAttempt (x : Except CheckError α) : Under π (ofAttempt x) (ofAttempt x) := by
  cases x with
  | ok a => exact under_pure a
  | error e => exact under_fail e

theorem Under.ofStep {act : Step τ α} {act' : Step σ α} (h : Under π act act') :
    Under π (ofStep act) (ofStep act') := by
  refine ⟨fun t => ?_⟩
  rw [Action.ofStep, Action.ofStep, h.run_eq]
  cases act t <;> rfl

theorem Under.attempt {act : Action τ α} {act' : Action σ α} (h : Under π act act') :
    Under π act.attempt act'.attempt := by
  refine ⟨fun t => ?_⟩
  rw [Action.attempt, Action.attempt, h.run_eq]
  cases act t with
  | ok a t' => rfl
  | error fault t' => cases fault <;> rfl

theorem Under.within {act : Action τ α} {act' : Action σ α} {ρ : τ' → σ'} {part : τ' → τ}
    {part' : σ' → σ} {replace : τ → τ' → τ'} {replace' : σ → σ' → σ'} (h : Under π act act')
    (hpart : ∀ t, part' (ρ t) = π (part t))
    (hreplace : ∀ x t, replace' (π x) (ρ t) = ρ (replace x t)) :
    Under ρ (within part replace act) (within part' replace' act') := by
  refine ⟨fun t => ?_⟩
  rw [Action.within, Action.within, hpart, h.run_eq]
  cases act (part t) with
  | ok a x => exact congrArg _ (hreplace x t)
  | error fault x => exact congrArg _ (hreplace x t)

theorem under_forM {act : α → Action τ PUnit} {act' : α → Action σ PUnit}
    (h : ∀ a, Under π (act a) (act' a)) : ∀ l : List α, Under π (l.forM act) (l.forM act')
  | [] => under_pure _
  | a :: l => (h a).bind fun _ => under_forM h l

theorem under_allM {act : α → Action τ Bool} {act' : α → Action σ Bool}
    (h : ∀ a, Under π (act a) (act' a)) : ∀ l : List α, Under π (l.allM act) (l.allM act')
  | [] => under_pure _
  | a :: l => (h a).bind fun
      | true => under_allM h l
      | false => under_pure _

theorem under_filterM {act : α → Action τ Bool} {act' : α → Action σ Bool}
    (h : ∀ a, Under π (act a) (act' a)) (l : List α) :
    Under π (l.filterM act) (l.filterM act') := by
  have key : ∀ l acc, Under π (List.filterAuxM act l acc) (List.filterAuxM act' l acc) := by
    intro l
    induction l with
    | nil => exact fun acc => under_pure _
    | cons a l ih => exact fun acc => (h a).bind fun _ => ih _
  exact (key l []).bind fun _ => under_pure _

theorem under_noting {ν : Type} (fault : ε → Fault) (note : Except Fault α → σ → ν)
    (act : EStateM ε σ α) : Under Prod.fst (noting fault note act) act := by
  refine ⟨fun t => ?_⟩
  rw [noting]
  cases act t.1 <;> rfl

end Action

open Action in
/-- Seen through `π`, whatever the first backend does is what the second one does. -/
structure Backend.Over {S σ τ μ : Type} (π : τ → σ) (B' : Backend S τ μ) (B : Backend S σ μ) :
    Prop where
  machine : B'.machine = B.machine
  negate : ∀ f, Under π (B'.terms.negate f) (B.terms.negate f)
  disjoin : ∀ f g, Under π (B'.terms.disjoin f g) (B.terms.disjoin f g)
  conjuncts : ∀ w f, B'.terms.conjuncts w f = B.terms.conjuncts (π w) f
  validate : ∀ f, Under π (B'.terms.validate f) (B.terms.validate f)
  display : ∀ w, B'.terms.display w = B.terms.display (π w)
  register : ∀ f role, Under π (B'.oracle.register f role) (B.oracle.register f role)
  reset : ∀ depth, Under π (B'.oracle.reset depth) (B.oracle.reset depth)
  checkInductive : ∀ f, Under π (B'.oracle.checkInductive f) (B.oracle.checkInductive f)
  learnForward : ∀ frame g, Under π (B'.oracle.learnForward frame g) (B.oracle.learnForward frame g)
  interpolate : ∀ f, Under π (B'.oracle.interpolate f) (B.oracle.interpolate f)
  queryInit : ∀ f, Under π (B'.oracle.queryInit f) (B.oracle.queryInit f)
  sweep : Under π B'.oracle.sweep B.oracle.sweep
  relocateOracle : ∀ r w, π (B'.oracle.relocate r w) = B.oracle.relocate r (π w)
  ensureDepth : ∀ k w, π (B'.solver.ensureDepth k w) = B.solver.ensureDepth k (π w)
  depth : ∀ w, B'.solver.depth w = B.solver.depth (π w)
  push : ∀ w, π (B'.solver.push w) = B.solver.push (π w)
  pop : Under π B'.solver.pop B.solver.pop
  assert : ∀ f, Under π (B'.solver.assert f) (B.solver.assert f)
  check : Under π B'.solver.check B.solver.check
  model : Under π B'.solver.model B.solver.model
  init : Under π B'.reachability.init B.reachability.init
  search : ∀ first last g model, Under π (B'.reachability.check first last g model)
    (B.reachability.check first last g model)
  counterTrace : ∀ w, B'.reachability.counterTrace w = B.reachability.counterTrace (π w)
  clear : ∀ w, π (B'.reachability.clear w) = B.reachability.clear (π w)
  relocateReachability : ∀ r w, π (B'.reachability.relocate r w) = B.reachability.relocate r (π w)
  atStep : ∀ f k, Under π (B'.recorder.atStep f k) (B.recorder.atStep f k)
  record : ∀ model w, π (B'.recorder.record model w) = B.recorder.record model (π w)
  report : ∀ event w, π (B'.reports.report event w) = B.reports.report event (π w)
  saveGraph : ∀ name lines, Under π (B'.reports.saveGraph name lines)
    (B.reports.saveGraph name lines)
  load : ∀ system, Under π (B'.load system) (B.load system)

open Action in
theorem Backend.noted_over {S σ μ : Type} (B : Backend S σ μ) : B.noted.Over Prod.fst B where
  machine := rfl
  negate _ := under_noting ..
  disjoin _ _ := under_noting ..
  conjuncts _ _ := rfl
  validate _ := under_noting ..
  display _ := rfl
  register _ _ := under_noting ..
  reset _ := under_noting ..
  checkInductive _ := under_noting ..
  learnForward _ _ := under_noting ..
  interpolate _ := under_noting ..
  queryInit _ := under_noting ..
  sweep := under_noting ..
  relocateOracle _ _ := rfl
  ensureDepth _ _ := rfl
  depth _ := rfl
  push _ := rfl
  pop := under_noting ..
  assert _ := under_noting ..
  check := under_noting ..
  model := under_noting ..
  init := under_noting ..
  search _ _ _ _ := under_noting ..
  counterTrace _ := rfl
  clear _ := rfl
  relocateReachability _ _ := rfl
  atStep _ _ := under_noting ..
  record _ _ := rfl
  report _ _ := rfl
  saveGraph _ _ := under_noting ..
  load _ := under_noting ..

namespace Search

open Action

variable {S σ τ μ α : Type} {π : τ → σ} {B' : Backend S τ μ} {B : Backend S σ μ} (h : B'.Over π B)
  (config : Config)

def through {γ : Type} (π : τ → σ) (t : γ × τ) : γ × σ := (t.1, π t.2)

theorem under_state : Under (through π) state state := ⟨fun _ => rfl⟩

theorem under_change (f : Search → Search) : Under (through π) (change f) (change f) :=
  ⟨fun _ => rfl⟩

theorem under_ask {f' : τ → α} {f : σ → α} (h : ∀ w, f' w = f (π w)) :
    Under (through π) (ask f') (ask f) :=
  ⟨fun t => congrArg (EStateM.Result.ok · (through π t)) (h t.2).symm⟩

theorem under_update {f' : τ → τ} {f : σ → σ} (h : ∀ w, π (f' w) = f (π w)) :
    Under (through π) (update f') (update f) :=
  ⟨fun t => congrArg (fun w => EStateM.Result.ok () (t.1, w)) (h t.2).symm⟩

theorem under_act {action : Action τ α} {action' : Action σ α} (h : Under π action action') :
    Under (through π) (act action) (act action') :=
  h.within (fun _ => rfl) fun _ _ => rfl

theorem under_step {action : Step τ α} {action' : Step σ α} (h : Under π action action') :
    Under (through π) (step action) (step action') :=
  under_act h.ofStep

theorem under_onFrame {action : Action (Frame × τ) Unit} {action' : Action (Frame × σ) Unit}
    (h : Under (through π) action action') :
    Under (through π) (onFrame action) (onFrame action') := by
  refine .bind ?_ fun _ => under_change _
  exact h.within (fun _ => rfl) fun _ _ => rfl

theorem under_pop : Under (through π) pop pop :=
  under_state.bind fun _ => (under_ofExcept _).bind fun ⟨_, _⟩ =>
    (under_change _).bind fun _ => under_pure _

theorem under_bump (counter : Formula) : Under (through π) (bump counter) (bump counter) :=
  under_state.bind fun _ => (under_ofExcept _).bind fun ⟨_, _⟩ => under_change _

theorem under_markInvalid (f : Formula) (frame : Nat) :
    Under (through π) (markInvalid f frame) (markInvalid f frame) :=
  under_state.bind fun _ =>
    .guard (under_violate _) ((under_ofExcept _).bind fun _ => under_change _)

theorem under_conclude (outcome : Outcome) :
    Under (through π) (conclude outcome) (conclude outcome) :=
  (under_change _).bind fun _ => under_pure _

include h

theorem under_report (level : Level) (message : String)
    (fields : Search → (Formula → String) → List (String × Field)) :
    Under (through π) (report B' level message fields) (report B level message fields) := by
  refine ⟨fun (s, w) => ?_⟩
  rw [report, report]
  simp only [through, h.report, h.display]

theorem under_negate (f : Formula) : Under (through π) (negate B' f) (negate B f) :=
  under_step (h.negate f)

theorem under_checkedAdd (a b : Nat) :
    Under (through π) (checkedAdd B' a b) (checkedAdd B a b) := by
  rw [checkedAdd, h.machine]
  exact under_ofExcept _

theorem under_addToFrame (f : Formula) (role : Role) :
    Under (through π) (addToFrame B' f role) (addToFrame B f role) := by
  have hrest : ∀ frame : Frame, Under (through π)
      (do
        let frame ← Action.ofExcept (frame.enter f role)
        modify fun s => (frame, s.2)
        within Prod.snd (fun w s => (s.1, w)) (B'.oracle.register f role))
      (do
        let frame ← Action.ofExcept (frame.enter f role)
        modify fun s => (frame, s.2)
        within Prod.snd (fun w s => (s.1, w)) (B.oracle.register f role)) := fun frame =>
    (under_ofExcept _).bind fun _ => .bind ⟨fun _ => rfl⟩ fun _ =>
      (h.register f role).within (fun _ => rfl) fun _ _ => rfl
  exact under_onFrame ⟨fun t => (hrest t.1).run_eq t⟩

theorem under_clearFrame (depth : Nat) :
    Under (through π) (clearFrame B' depth) (clearFrame B depth) := by
  refine under_onFrame (.bind ⟨fun _ => rfl⟩ fun _ => ?_)
  exact (h.reset depth).within (fun _ => rfl) fun _ _ => rfl

theorem under_enqueue (ob : Obligation) :
    Under (through π) (enqueue B' ob) (enqueue B ob) :=
  (under_negate h ..).bind fun _ => under_state.bind fun _ =>
    .guard (under_violate _) ((under_ofExcept _).bind fun ⟨_, _⟩ => under_change _)

theorem under_checkRefutations :
    Under (through π) (checkRefutations B') (checkRefutations B) :=
  under_state.bind fun _ => (under_ofExcept _).bind fun _ => under_forM (fun _ =>
    (under_negate h ..).bind fun _ => under_state.bind fun _ =>
      .ite (under_pure _) (under_violate _)) _

/-! Counterexamples. -/

theorem under_assertFalseAt (f : Formula) (k : Nat) :
    Under (through π) (assertFalseAt B' f k) (assertFalseAt B f k) :=
  (under_update (h.ensureDepth k)).bind fun _ => (under_negate h ..).bind fun _ =>
    (under_step (h.atStep ..)).bind fun _ => under_act (h.assert _)

theorem under_assertTrace : ∀ (k : Nat) (trace : List Formula),
    Under (through π) (assertTrace B' k trace) (assertTrace B k trace)
  | _, [] => under_pure _
  | k, _ :: rest => (under_step (h.atStep ..)).bind fun _ =>
      (under_act (h.assert _)).bind fun _ => under_assertTrace (k + 1) rest

theorem under_recordModel : Under (through π) (recordModel B') (recordModel B) :=
  (under_act h.model).bind fun _ => under_update (h.record _)

theorem under_climb : ∀ (bound : Nat) (f : Formula) (k : Nat),
    Under (through π) (climb B' bound f k) (climb B bound f k)
  | 0, _, _ => under_throw _
  | bound + 1, f, k => by
      refine (under_change _).bind fun _ => (under_negate h ..).bind fun _ =>
        (under_bump _).bind fun _ => under_state.bind fun s => ?_
      cases s.lineage.origin? f with
      | none =>
          exact .ite ((under_ask h.depth).bind fun _ => under_report h ..) (under_pure _)
      | some origin =>
          refine (under_checkedAdd h ..).bind fun _ => .ite (under_pure _) ?_
          refine (under_assertFalseAt h ..).bind fun _ =>
            (under_act h.check).bind fun _ => .ite ?_ (under_report h ..)
          exact (under_markInvalid ..).bind fun _ => (under_recordModel h).bind fun _ =>
            (under_report h ..).bind fun _ => under_climb bound _ _

theorem under_lastFrame (trace : List Formula) :
    Under (through π) (lastFrame B' trace) (lastFrame B trace) :=
  under_state.bind fun _ => under_checkedAdd h ..

theorem under_extendInScope (f : Formula) (trace : List Formula) :
    Under (through π) (extendInScope B' config f trace) (extendInScope B config f trace) :=
  (under_assertTrace h ..).bind fun _ => (under_lastFrame h ..).bind fun _ =>
    (under_assertFalseAt h ..).bind fun _ => (under_act h.check).bind fun _ =>
      .guard (under_violate _) <| (under_recordModel h).bind fun _ =>
        .ite (under_state.bind fun _ => under_climb h ..) (under_pure _)

theorem under_extendFailure (f : Formula) :
    Under (through π) (extendFailure B' config f) (extendFailure B config f) :=
  (under_ask h.counterTrace).bind fun _ => .refuse (under_violate _) <| under_state.bind fun _ =>
    (under_lastFrame h ..).bind fun _ => .guard (under_violate _) <|
      (under_checkedAdd h ..).bind fun _ => (under_update (h.ensureDepth _)).bind fun _ =>
        (under_update h.push).bind fun _ => (under_extendInScope h ..).attempt.bind fun _ =>
          (under_step h.pop).bind fun _ => under_ofAttempt _

theorem under_failInduction (refutation : Formula) :
    Under (through π) (failInduction B' config refutation) (failInduction B config refutation) :=
  (under_ask h.counterTrace).bind fun _ => .refuse (under_violate _) <|
    (under_lastFrame h ..).bind fun _ => (under_report h ..).bind fun _ =>
      (under_markInvalid ..).bind fun _ => (under_change _).bind fun _ =>
        under_extendFailure h ..

/-! Obligations. -/

theorem under_carry (ob : Obligation) (forward : Formula) :
    Under (through π) (carry B' ob forward) (carry B ob forward) :=
  (under_change _).bind fun _ => (under_act (h.register ..)).bind fun _ =>
    (under_act (h.register ..)).bind fun _ => (under_change _).bind fun _ => under_pure _

theorem under_weaken (ob : Obligation) (refutation : Formula) :
    Under (through π) (weaken B' ob refutation) (weaken B ob refutation) :=
  (under_act (h.interpolate _)).bind fun _ => (under_change _).bind fun _ =>
    (under_step (h.disjoin ..)).bind fun _ => (under_change _).bind fun _ =>
      (under_change _).bind fun _ => (under_checkRefutations h).bind fun _ =>
        (under_report h ..).bind fun _ => under_pure _

theorem under_stage (ob : Obligation) (refutation : Formula) :
    Under (through π) (stage B' ob refutation) (stage B ob refutation) :=
  (under_report h ..).bind fun _ => (under_act (h.checkInductive _)).bind fun
    | .unsat => under_carry h ..
    | .unknown => under_fail _
    | .sat _ _ => (under_weaken h ..).bind fun _ => under_carry h ..

theorem under_refine (ob : Obligation) (refutation counter : Formula) :
    Under (through π) (refine B' ob refutation counter) (refine B ob refutation counter) :=
  (under_negate h ..).bind fun _ => (under_report h ..).bind fun _ => under_state.bind fun _ =>
    (under_act (h.learnForward ..)).bind fun _ => (under_report h ..).bind fun _ =>
      (under_addToFrame h ..).bind fun _ => (under_change _).bind fun _ =>
        (under_change _).bind fun _ => under_state.bind fun _ => (under_change _).bind fun _ =>
          (under_checkedAdd h ..).bind fun _ => (under_report h ..).bind fun _ =>
            (under_enqueue h ..).bind fun _ => under_pure _

theorem under_window (index depth : Nat) :
    Under (through (γ := Search) π) (Action.ofExcept (window B'.machine index depth))
      (Action.ofExcept (window B.machine index depth)) := by
  rw [h.machine]
  exact under_ofExcept _

theorem under_answerCounter (ob : Obligation) (refutation counter : Formula) (model : μ) :
    Under (through π) (answerCounter B' config ob refutation counter model)
      (answerCounter B config ob refutation counter model) :=
  (under_report h ..).bind fun _ => under_state.bind fun _ => (under_window h ..).bind fun ⟨_, _⟩ =>
    (under_act (h.search ..)).bind fun _ => (under_report h ..).bind fun _ =>
      .ite ((under_failInduction h ..).bind fun _ => under_pure _) (under_refine h ..)

theorem under_push (ob : Obligation) :
    Under (through π) (push B' config ob) (push B config ob) :=
  (under_report h ..).bind fun _ => (under_negate h ..).bind fun _ =>
    (under_act (h.checkInductive _)).bind fun
      | .unsat => under_stage h ..
      | .unknown => under_fail _
      | .sat none _ => under_fail _
      | .sat (some _) none => under_fail _
      | .sat (some _) (some _) => under_answerCounter h ..

/-! Rounds. -/

theorem under_drain : ∀ fuel : Nat, Under (through π) (drain B' config fuel) (drain B config fuel)
  | 0 => under_throw _
  | fuel + 1 => under_state.bind fun _ => .ite (under_pure _) <| under_pop.bind fun _ =>
      (under_push h ..).bind fun _ => .ite
        ((under_enqueue h ..).bind fun _ => under_drain fuel) (under_drain fuel)

theorem under_saveGraph : Under (through π) (saveGraph B') (saveGraph B) :=
  under_state.bind fun _ => (under_act (h.saveGraph ..)).bind fun _ => under_report h ..

theorem under_drainFrame (fuel : Nat) :
    Under (through π) (drainFrame B' config fuel) (drainFrame B config fuel) :=
  (under_drain h ..).bind fun _ =>
    .ite ((under_saveGraph h).bind fun _ => under_pure _) (under_pure _)

theorem under_relocate (r : Relocation) :
    Under (through π) (relocate B' r) (relocate B r) :=
  under_state.bind fun _ => .guard (under_violate _) <| (under_change _).bind fun _ =>
    under_state.bind fun _ => (under_ofExcept _).bind fun ⟨_, _⟩ =>
      (under_filterM (fun _ => under_state.bind fun _ => (under_negate h ..).bind fun _ =>
        under_pure _) _).bind fun _ =>
        (under_ofExcept _).bind fun _ => (under_change _).bind fun _ =>
          (under_checkRefutations h).bind fun _ => (under_change _).bind fun _ =>
            (under_update (h.relocateOracle r)).bind fun _ =>
              (under_update (h.relocateReachability r)).bind fun _ =>
                (under_change _).bind fun _ => (under_change _).bind fun _ => under_report h ..

theorem under_restore (ob : Obligation) : Under (through π) (restore B' ob) (restore B ob) :=
  (under_negate h ..).bind fun _ => (under_addToFrame h ..).bind fun _ =>
    (under_addToFrame h ..).bind fun _ => under_enqueue h ..

theorem under_rebuild : Under (through π) (rebuild B') (rebuild B) :=
  under_state.bind fun _ => (under_change _).bind fun _ => (under_forM (under_restore h) _).bind
    fun _ => (under_change _).bind fun _ => (under_change _).bind fun _ =>
      (under_change _).bind fun _ => (under_checkRefutations h).bind fun _ =>
        under_state.bind fun _ => under_state.bind fun _ => (under_checkedAdd h ..).bind fun _ =>
          under_change _

theorem under_deepen : Under (through π) (deepen B') (deepen B) :=
  (under_change _).bind fun _ => under_state.bind fun _ => under_state.bind fun _ =>
    (under_checkedAdd h ..).bind fun _ => (under_change _).bind fun _ =>
      (under_clearFrame h ..).bind fun _ => (under_change _).bind fun _ => under_report h ..

theorem under_showInvariant :
    Under (through π) (showInvariant B' config) (showInvariant B config) :=
  .ite (under_state.bind fun _ => under_forM (fun _ => under_report h ..) _) (under_pure _)

theorem under_advance : Under (through π) (advance B' config) (advance B config) :=
  (under_deepen h).bind fun _ => under_state.bind fun _ => .ite
    ((under_report h ..).bind fun _ => under_pure _)
    ((under_rebuild h).bind fun _ => (under_act h.sweep).bind fun
      | none => under_pure _
      | some _ => (under_relocate h ..).bind fun _ => under_pure _)

theorem under_rounds : ∀ bound fuel : Nat,
    Under (through π) (rounds B' config bound fuel) (rounds B config bound fuel)
  | 0, _ => under_throw _
  | bound + 1, _ => (under_drainFrame h ..).bind fun _ => (under_change _).bind fun _ =>
      under_state.bind fun _ => .ite (under_pure _) <| .ite
        ((under_showInvariant h ..).bind fun _ => under_pure _)
        ((under_advance h ..).bind fun _ => .ite (under_rounds bound _) (under_pure _))

theorem under_addProperty : ∀ (fuel : Nat) (p : Formula),
    Under (through π) (addProperty B' fuel p) (addProperty B fuel p)
  | 0, _ => under_throw _
  | fuel + 1, p => by
      refine (under_ask fun w => h.conjuncts w p).bind fun conjuncts => ?_
      cases conjuncts with
      | some conjuncts => exact under_allM (under_addProperty fuel) conjuncts
      | none =>
          refine (under_negate h ..).bind fun negation =>
            (under_act (h.queryInit _)).bind fun answer => ?_
          cases answer with
          | unsat =>
              have hrest : Under (through π) _ _ :=
                (under_bump negation).bind fun _ =>
                  (under_change fun s => { s with lineage := s.lineage.addProperty p }).bind
                    fun _ => under_pure true
              refine under_state.bind fun s => .ite hrest ?_
              exact (under_addToFrame h ..).bind fun _ => (under_addToFrame h ..).bind fun _ =>
                (under_enqueue h ..).bind fun _ => hrest
          | unknown => exact under_fail _
          | sat model =>
              cases model with
              | none => exact under_fail _
              | some model =>
                  exact (under_report h ..).bind fun _ => (under_update (h.record _)).bind fun _ =>
                    (under_change _).bind fun _ => under_pure _

theorem under_run (fuel : Nat) (property : Formula) :
    Under (through π) (run B' config fuel property) (run B config fuel property) :=
  (under_act (h.validate _)).bind fun _ => (under_act h.init).bind fun _ =>
    (under_change _).bind fun _ => (under_clearFrame h ..).bind fun _ =>
      (under_addProperty h ..).bind fun _ => .ite
        ((under_report h ..).bind fun _ => (under_rounds h ..).attempt.bind fun _ =>
          (under_change _).bind fun _ => (under_ofAttempt _).bind fun _ =>
            (under_report h ..).bind fun _ => under_conclude _)
        ((under_report h ..).bind fun _ => under_conclude _)

end Search

namespace Engine

open Action

variable {S σ τ μ : Type}

def through (π : τ → σ) (e : Engine τ) : Engine σ := { search := e.search, world := π e.world }

section

variable {π : τ → σ} {B' : Backend S τ μ} {B : Backend S σ μ} (h : B'.Over π B) (config : Config)
include h

theorem through_reset (e : Engine τ) : (reset B' e).through π = reset B (e.through π) := by
  obtain ⟨search, w⟩ := e
  cases search with
  | none => rfl
  | some _ => exact congrArg (Engine.mk none) (h.clear w)

theorem under_query (fuel : Nat) (system : S) (property : Formula) :
    Under (through π) (query B' config fuel system property)
      (query B config fuel system property) := by
  refine .bind ⟨fun e => ?_⟩ fun _ => .bind ?_ fun _ => ?_
  · exact congrArg (EStateM.Result.ok PUnit.unit) (through_reset h e).symm
  · exact (h.load system).within (fun _ => rfl) fun _ _ => rfl
  · exact (Search.under_run h ..).within (fun _ => rfl) fun _ _ => rfl

theorem under_relocate (r : Relocation) : Under (through π) (relocate B' r) (relocate B r) := by
  refine ⟨fun e => ?_⟩
  obtain ⟨search, w⟩ := e
  cases search with
  | none => rfl
  | some s =>
      have hsearch : Under (through π) (onSearch s (Search.relocate B' r))
          (onSearch s (Search.relocate B r)) :=
        (Search.under_relocate h r).within (fun _ => rfl) fun _ _ => rfl
      exact hsearch.run_eq ⟨some s, w⟩

end

variable {B : Backend S σ μ} {config : Config} {fuel : Nat} {system : S} {property : Formula}
  {e : Engine σ}

theorem reset_noted (B : Backend S σ μ) (e : Engine σ) :
    reset B.noted e.noted = (reset B e).noted := by
  obtain ⟨search, _⟩ := e
  cases search <;> rfl

theorem query_noted_of_ok {o : Outcome} {e' : Engine σ}
    (h : query B config fuel system property e = .ok o e') :
    query B.noted config fuel system property e.noted = .ok o
      { search := e'.search, world := (e'.world, transcript B config fuel system property e) } := by
  obtain ⟨t, hrun, rfl⟩ := (under_query B.noted_over config fuel system property).ok
    (t := e.noted) h
  rw [transcript, final, hrun]
  rfl

theorem query_noted_of_error {fault : Fault} {e' : Engine σ}
    (h : query B config fuel system property e = .error fault e') :
    query B.noted config fuel system property e.noted = .error fault
      { search := e'.search, world := (e'.world, transcript B config fuel system property e) } := by
  obtain ⟨t, hrun, rfl⟩ := (under_query B.noted_over config fuel system property).error
    (t := e.noted) h
  rw [transcript, final, hrun]
  rfl

end Engine

end Invariance
