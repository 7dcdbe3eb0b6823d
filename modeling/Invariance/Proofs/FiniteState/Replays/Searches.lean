import Invariance.Proofs.FiniteState.Replays.Sessions
import Invariance.Proofs.Search.Courses

/-!
The search once more. It sees no more of the universe than the answers that it gets, so it goes the
same way when these are the same.
-/

namespace Invariance.FiniteState

open Universe Session

variable {M : Machine} {config : Config} {v : Universe} {X α β : Type} {f : Formula}

/-- An effect that goes the same way again if the universe has all the terms that it ends with. -/
def Replays (v : Universe) (act : Action (X × Session) α) : Prop :=
  v.Canonical → ∀ x w t, w.threshold = 0 → Upon v w t → ∀ a x' w', act (x, w) = .ok a (x', w') →
    Onto w w' ∧ (Extends w'.terms v → ∃ t', act (x, t) = .ok a (x', t') ∧ Upon v w' t')

/-- An effect without an answer. -/
def Stops {σ : Type} (act : Action σ α) : Prop := ∀ s a s', act s ≠ .ok a s'

theorem Stops.first {σ : Type} {act : Action σ α} {next : α → Action σ β} (h : Stops act) :
    Stops (act >>= next) := by
  intro s b s' hrun
  change EStateM.bind act next s = .ok b s' at hrun
  rw [EStateM.bind] at hrun
  cases hact : act s with
  | ok a t => exact h s a t hact
  | error fault t =>
      rw [hact] at hrun
      cases hrun

theorem Stops.next {σ : Type} {act : Action σ α} {next : α → Action σ β}
    (h : ∀ a, Stops (next a)) : Stops (act >>= next) := by
  intro s b s' hrun
  change EStateM.bind act next s = .ok b s' at hrun
  rw [EStateM.bind] at hrun
  cases hact : act s with
  | ok a t =>
      rw [hact] at hrun
      exact h a t b s' hrun
  | error fault t =>
      rw [hact] at hrun
      cases hrun

theorem stops_fail {σ : Type} {e : CheckError} : Stops (Action.fail e : Action σ α) :=
  fun _ _ _ hrun => nomatch hrun

section Rules

variable {act : Action (X × Session) α} {next : α → Action (X × Session) β}

theorem Replays.bind (h : Replays v act) (hnext : ∀ a, Replays v (next a)) :
    Replays v (act >>= next) := by
  intro hv x w t hstill ht b x'' w'' hrun
  change EStateM.bind act next (x, w) = .ok b (x'', w'') at hrun
  rw [EStateM.bind] at hrun
  cases hact : act (x, w) with
  | error fault s' =>
      rw [hact] at hrun
      cases hrun
  | ok a s' =>
      obtain ⟨x', w'⟩ := s'
      rw [hact] at hrun
      obtain ⟨hw', hagain⟩ := h hv x w t hstill ht a x' w' hact
      have hrest := fun t' ht' =>
        hnext a hv x' w' t' (hw'.threshold.trans hstill) ht' b x'' w'' hrun
      obtain ⟨hw'', _⟩ := hrest _ (upon_self v w')
      refine ⟨hw'.trans hw'', fun hlast => ?_⟩
      obtain ⟨t', hrun', ht'⟩ := hagain (hw''.terms.trans hlast)
      obtain ⟨t'', hrun'', ht''⟩ := (hrest t' ht').2 hlast
      refine ⟨t'', ?_, ht''⟩
      change EStateM.bind act next (x, t) = _
      rw [EStateM.bind, hrun']
      exact hrun''

theorem replays_throw {fault : Fault} : Replays v (throw fault : Action (X × Session) α) :=
  fun _ _ _ _ _ _ _ _ _ hrun => nomatch hrun

theorem replays_pure {a : α} : Replays v (pure a : Action (X × Session) α) := by
  intro _ x w t _ ht b x' w' hrun
  cases hrun
  exact ⟨.refl _, fun _ => ⟨t, rfl, ht⟩⟩

theorem replays_ofExcept {x : Except Violation α} :
    Replays v (Action.ofExcept x : Action (X × Session) α) := by
  cases x with
  | ok a => exact replays_pure
  | error violation => exact replays_throw

theorem replays_branch {c : Prop} [Decidable c] {other : Action (X × Session) α}
    (h : Replays v act) (h' : Replays v other) : Replays v (if c then act else other) := by
  split
  · exact h
  · exact h'

theorem replays_unless {c : Prop} [Decidable c] {other : Action (X × Session) β}
    (h : Replays v act) (hother : Replays v other) :
    Replays v (if c then act else other >>= fun _ => act) :=
  replays_branch h (hother.bind fun _ => h)

theorem replays_when {c : Prop} [Decidable c] {other : Action (X × Session) β}
    (h : Replays v act) (hother : Replays v other) :
    Replays v (if c then other >>= fun _ => act else act) :=
  replays_branch (hother.bind fun _ => h) h

/-- An error is passed on, so there is an answer only if the guarded effect has one. -/
theorem Replays.attempt {next : Except CheckError α → Action (X × Session) β}
    (h : Replays v act) (hok : ∀ a, Replays v (next (.ok a)))
    (herror : ∀ e, Stops (next (.error e))) : Replays v (act.attempt >>= next) := by
  have hattempt : ∀ {s : X × Session} {b : β} {s' : X × Session},
      (act.attempt >>= next) s = .ok b s' ↔ (act >>= fun a => next (.ok a)) s = .ok b s' := by
    intro s b s'
    change EStateM.bind act.attempt next s = _ ↔ EStateM.bind act _ s = _
    rw [EStateM.bind, EStateM.bind, Action.attempt]
    cases act s with
    | ok a t => exact Iff.rfl
    | error fault t =>
        cases fault with
        | error e => exact iff_of_false (herror e t b s') fun h => by cases h
        | violation violation => exact iff_of_false (fun h => by cases h) fun h => by cases h
        | outOfFuel => exact iff_of_false (fun h => by cases h) fun h => by cases h
  intro hv x w t hstill ht b x' w' hrun
  obtain ⟨hw', hagain⟩ := h.bind hok hv x w t hstill ht b x' w' (hattempt.mp hrun)
  refine ⟨hw', fun hlast => ?_⟩
  obtain ⟨t', hrun', ht'⟩ := hagain hlast
  exact ⟨t', hattempt.mpr hrun', ht'⟩

theorem replays_within {action : Action Session α} (h : Repeats v action) :
    Replays v (Action.within Prod.snd (fun w (s : X × Session) => (s.1, w)) action) := by
  intro hv x w t hstill ht a x' w' hrun
  simp only [Action.within] at hrun ⊢
  cases haction : action w with
  | error fault w₁ =>
      rw [haction] at hrun
      cases hrun
  | ok b w₁ =>
      rw [haction] at hrun
      cases hrun
      obtain ⟨hw', hagain⟩ := h hv w t hstill ht a w' haction
      refine ⟨hw', fun hlast => ?_⟩
      obtain ⟨t', hrun', ht'⟩ := hagain hlast
      exact ⟨t', by rw [hrun'], ht'⟩

theorem replays_modify {g : X → X} :
    Replays v (modify fun s => (g s.1, s.2) : Action (X × Session) PUnit) := by
  intro _ x w t _ ht a x' w' hrun
  cases hrun
  exact ⟨.refl _, fun _ => ⟨t, rfl, ht⟩⟩

theorem replays_forM {each : α → Action (X × Session) PUnit} (h : ∀ a, Replays v (each a)) :
    ∀ l : List α, Replays v (l.forM each)
  | [] => replays_pure
  | a :: l => (h a).bind fun _ => replays_forM h l

end Rules

/-! Moves. -/

theorem replays_state : Replays v (Search.state : SearchM Session Search) := by
  intro _ x w t _ ht a x' w' hrun
  cases hrun
  exact ⟨.refl _, fun _ => ⟨t, rfl, ht⟩⟩

theorem replays_change {g : Search → Search} :
    Replays v (Search.change g : SearchM Session Unit) := by
  intro _ x w t _ ht a x' w' hrun
  cases hrun
  exact ⟨.refl _, fun _ => ⟨t, rfl, ht⟩⟩

theorem replays_ask {m : Session → α} (hm : ∀ {w t}, Upon v w t → m t = m w) :
    Replays v (Search.ask m) := by
  intro _ x w t _ ht a x' w' hrun
  cases hrun
  exact ⟨.refl _, fun _ => ⟨t, congrArg (fun b => EStateM.Result.ok b (x, t)) (hm ht), ht⟩⟩

theorem replays_update {m : Session → Session} (hm : Beside m) :
    Replays v (Search.update m) := by
  intro _ x w t _ ht a x' w' hrun
  cases hrun
  exact ⟨hm.onto w, fun _ => ⟨m t, rfl, ht.beside hm⟩⟩

theorem replays_act {action : Action Session α} (h : Repeats v action) :
    Replays v (Search.act action) :=
  replays_within h

theorem replays_report {level : Level} {message : String}
    {fields : Search → (Formula → String) → List (String × Field)} :
    Replays v (Search.report (backend M) level message fields) := by
  intro _ x w t _ ht a x' w' hrun
  cases hrun
  exact ⟨.note w _, fun _ => ⟨_, rfl, ht.note _ _⟩⟩

theorem replays_making {op : Universe → Except Violation (Formula × Universe)}
    (h : v.Canonical → Settles v op) : Replays v (Search.step (making op)) :=
  replays_act fun hv _ _ _ ht => retraces_making (h hv) ht

theorem replays_negate : Replays v (Search.negate (backend M) f) :=
  replays_making (settles_negate · f)

theorem replays_atStep {k : Nat} : Replays v (Search.step ((backend M).recorder.atStep f k)) :=
  replays_making (settles_intern · (.atStep f k))

theorem replays_checkedAdd {a b : Nat} :
    Replays v (Search.checkedAdd (σ := Session) (backend M) a b) :=
  replays_ofExcept

theorem replays_onFrame {action : Action (Frame × Session) Unit} (h : Replays v action) :
    Replays v (Search.onFrame action) := by
  refine Replays.bind ?_ fun _ => replays_change
  intro hv s w t hstill ht a s' w' hrun
  simp only [Action.within] at hrun ⊢
  cases haction : action (s.frame, w) with
  | error fault x =>
      rw [haction] at hrun
      cases hrun
  | ok b x =>
      rw [haction] at hrun
      cases hrun
      obtain ⟨hw', hagain⟩ := h hv s.frame w t hstill ht a x.1 x.2 haction
      refine ⟨hw', fun hlast => ?_⟩
      obtain ⟨t', hrun', ht'⟩ := hagain hlast
      exact ⟨t', by rw [hrun'], ht'⟩

theorem replays_addToFrame {role : Role} : Replays v (Search.addToFrame (backend M) f role) := by
  refine replays_onFrame ?_
  intro hv frame w t hstill ht a frame' w' hrun
  exact ((replays_ofExcept (x := frame.enter f role)).bind fun entered =>
    (replays_modify (g := fun _ => entered)).bind fun _ =>
      replays_within (repeats_register f role)) hv frame w t hstill ht a frame' w' hrun

theorem replays_clearFrame {depth : Nat} : Replays v (Search.clearFrame (backend M) depth) :=
  replays_onFrame ((replays_modify (g := fun _ => Frame.empty)).bind fun _ =>
    replays_within (repeats_reset depth))

theorem replays_enqueue {ob : Obligation} : Replays v (Search.enqueue (backend M) ob) :=
  replays_negate.bind fun _ => replays_state.bind fun _ =>
    replays_unless (replays_ofExcept.bind fun (_, _) => replays_change) replays_throw

theorem replays_pop : Replays v (Search.pop : SearchM Session Obligation) :=
  replays_state.bind fun _ => replays_ofExcept.bind fun (_, _) =>
    replays_change.bind fun _ => replays_pure

theorem replays_bump : Replays v (Search.bump f : SearchM Session Unit) :=
  replays_state.bind fun _ => replays_ofExcept.bind fun (_, _) => replays_change

theorem replays_checkRefutations : Replays v (Search.checkRefutations (backend M)) :=
  replays_state.bind fun _ => replays_ofExcept.bind fun _ => replays_forM (fun _ =>
    replays_negate.bind fun _ => replays_state.bind fun _ =>
      replays_branch replays_pure replays_throw) _

theorem replays_markInvalid {frame : Nat} :
    Replays v (Search.markInvalid f frame : SearchM Session Unit) :=
  replays_state.bind fun _ => replays_unless
    (replays_ofExcept.bind fun _ => replays_change) replays_throw

/-! Counterexamples. -/

theorem replays_ensureDepth {k : Nat} :
    Replays v (Search.update ((backend M).solver.ensureDepth k)) :=
  replays_update {}

theorem replays_constrain {k : Nat} :
    Replays v (do
      Search.act ((backend M).solver.assert (← Search.step ((backend M).recorder.atStep f k)))) :=
  replays_atStep.bind fun _ => replays_act (repeats_assert _)

theorem replays_assertFalseAt {k : Nat} : Replays v (Search.assertFalseAt (backend M) f k) :=
  replays_ensureDepth.bind fun _ => replays_negate.bind fun _ => replays_constrain

theorem replays_assertTrace : ∀ {k : Nat} (trace : List Formula),
    Replays v (Search.assertTrace (backend M) k trace)
  | _, [] => replays_pure
  | _, _ :: trace => replays_atStep.bind fun _ => (replays_act (repeats_assert _)).bind fun _ =>
      replays_assertTrace trace

theorem replays_record {path : List Nat} :
    Replays v (Search.update ((backend M).recorder.record path)) :=
  replays_update {}

theorem replays_recordModel : Replays v (Search.recordModel (backend M)) :=
  (replays_act repeats_model).bind fun _ => replays_record

theorem replays_climb : ∀ (bound : Nat) (f : Formula) (k : Nat),
    Replays v (Search.climb (backend M) bound f k)
  | 0, _, _ => replays_throw
  | bound + 1, f, k => by
      refine replays_change.bind fun _ => replays_negate.bind fun _ => replays_bump.bind fun _ =>
        replays_state.bind fun s => ?_
      cases s.lineage.origin? f with
      | none =>
          refine replays_branch ((replays_ask fun ht => ?_).bind fun _ => replays_report)
            replays_pure
          obtain ⟨_, _, rfl⟩ := ht
          rfl
      | some origin =>
          refine replays_checkedAdd.bind fun k => replays_branch replays_pure ?_
          refine replays_assertFalseAt.bind fun _ => (replays_act repeats_check).bind fun _ =>
            replays_branch ?_ replays_report
          exact replays_markInvalid.bind fun _ => replays_recordModel.bind fun _ =>
            replays_report.bind fun _ => replays_climb bound _ _

theorem replays_lastFrame {trace : List Formula} :
    Replays v (Search.lastFrame (backend M) trace) :=
  replays_state.bind fun _ => replays_checkedAdd

theorem replays_extendInScope {trace : List Formula} :
    Replays v (Search.extendInScope (backend M) config f trace) :=
  (replays_assertTrace trace).bind fun _ => replays_lastFrame.bind fun _ =>
    replays_assertFalseAt.bind fun _ => (replays_act repeats_check).bind fun _ =>
      replays_unless (replays_recordModel.bind fun _ => replays_branch
        (replays_state.bind fun _ => replays_climb _ _ _) replays_pure) replays_throw

theorem replays_counterTrace : Replays v (Search.ask (backend M).reachability.counterTrace) :=
  replays_ask fun ht => by
    obtain ⟨_, _, rfl⟩ := ht
    rfl

theorem replays_extendFailure : Replays v (Search.extendFailure (backend M) config f) :=
  replays_counterTrace.bind fun _ => replays_when (replays_state.bind fun _ =>
    replays_lastFrame.bind fun _ => replays_unless (replays_checkedAdd.bind fun _ =>
      replays_ensureDepth.bind fun _ => (replays_update {}).bind fun _ =>
        replays_extendInScope.attempt
          (fun _ => (replays_act repeats_pop).bind fun _ => replays_pure)
          fun _ => .next fun _ => stops_fail) replays_throw) replays_throw

theorem replays_failInduction : Replays v (Search.failInduction (backend M) config f) :=
  replays_counterTrace.bind fun _ => replays_when (replays_lastFrame.bind fun _ =>
    replays_report.bind fun _ => replays_markInvalid.bind fun _ => replays_change.bind fun _ =>
      replays_extendFailure) replays_throw

/-! Obligations. -/

theorem replays_carry {ob : Obligation} : Replays v (Search.carry (backend M) ob f) :=
  replays_change.bind fun _ => (replays_act (repeats_register _ _)).bind fun _ =>
    (replays_act (repeats_register _ _)).bind fun _ => replays_change.bind fun _ => replays_pure

theorem replays_weaken {ob : Obligation} : Replays v (Search.weaken (backend M) ob f) :=
  Replays.bind replays_pure fun _ => replays_change.bind fun _ =>
    (replays_making (settles_disjoin · _ _)).bind fun _ => replays_change.bind fun _ =>
      replays_change.bind fun _ => replays_checkRefutations.bind fun _ =>
        replays_report.bind fun _ => replays_pure

theorem replays_stage {ob : Obligation} : Replays v (Search.stage (backend M) ob f) := by
  refine replays_report.bind fun _ => (replays_act (repeats_checkInductive _)).bind fun answer => ?_
  cases answer with
  | unsat => exact replays_carry
  | unknown => exact replays_throw
  | sat g path => exact replays_weaken.bind fun _ => replays_carry

theorem replays_refine {ob : Obligation} {counter : Formula} :
    Replays v (Search.refine (backend M) ob f counter) :=
  replays_negate.bind fun _ => replays_report.bind fun _ => replays_state.bind fun _ =>
    (replays_act (repeats_learnForward _ _)).bind fun _ => replays_report.bind fun _ =>
      replays_addToFrame.bind fun _ => replays_change.bind fun _ => replays_change.bind fun _ =>
        replays_state.bind fun _ => replays_change.bind fun _ => replays_checkedAdd.bind fun _ =>
          replays_report.bind fun _ => replays_enqueue.bind fun _ => replays_pure

theorem replays_answerCounter {ob : Obligation} {counter : Formula} {model : List Nat} :
    Replays v (Search.answerCounter (backend M) config ob f counter model) :=
  replays_report.bind fun _ => replays_state.bind fun _ => replays_ofExcept.bind fun (_, _) =>
    (replays_act (repeats_checkReachable _ _ _)).bind fun _ => replays_report.bind fun _ =>
      replays_branch (replays_failInduction.bind fun _ => replays_pure) replays_refine

theorem replays_push {ob : Obligation} : Replays v (Search.push (backend M) config ob) := by
  refine replays_report.bind fun _ => replays_negate.bind fun _ =>
    (replays_act (repeats_checkInductive _)).bind fun answer => ?_
  rcases answer with _ | ⟨_ | g, model⟩ | _
  · exact replays_stage
  · exact replays_throw
  · cases model with
    | none => exact replays_throw
    | some model => exact replays_answerCounter
  · exact replays_throw

/-! Rounds. -/

theorem replays_drain : ∀ fuel : Nat, Replays v (Search.drain (backend M) config fuel)
  | 0 => replays_throw
  | fuel + 1 => replays_state.bind fun _ => replays_branch replays_pure
      (replays_pop.bind fun _ => replays_push.bind fun _ => replays_branch
        (replays_enqueue.bind fun _ => replays_drain fuel) (replays_drain fuel))

theorem replays_drainFrame {fuel : Nat} :
    Replays v (Search.drainFrame (backend M) config fuel) :=
  (replays_drain fuel).bind fun _ => replays_branch
    ((replays_state.bind fun _ => (replays_act (repeats_saveGraph _ _)).bind fun _ =>
      replays_report).bind fun _ => replays_pure) replays_pure

theorem replays_restore {ob : Obligation} : Replays v (Search.restore (backend M) ob) :=
  replays_negate.bind fun _ => replays_addToFrame.bind fun _ => replays_addToFrame.bind fun _ =>
    replays_enqueue

theorem replays_rebuild : Replays v (Search.rebuild (backend M)) :=
  replays_state.bind fun _ => replays_change.bind fun _ =>
    (replays_forM (fun _ => replays_restore) _).bind fun _ => replays_change.bind fun _ =>
      replays_change.bind fun _ => replays_change.bind fun _ =>
        replays_checkRefutations.bind fun _ => replays_state.bind fun _ =>
          replays_state.bind fun _ => replays_checkedAdd.bind fun _ => replays_change

theorem replays_deepen : Replays v (Search.deepen (backend M)) :=
  replays_change.bind fun _ => replays_state.bind fun _ => replays_state.bind fun _ =>
    replays_checkedAdd.bind fun _ => replays_change.bind fun _ => replays_clearFrame.bind fun _ =>
      replays_change.bind fun _ => replays_report

theorem replays_showInvariant : Replays v (Search.showInvariant (backend M) config) :=
  replays_branch (replays_state.bind fun _ => replays_forM (fun _ => replays_report) _)
    replays_pure

theorem replays_sweep {next : Option Relocation → SearchM Session α}
    (h : Replays v (next none)) :
    Replays v (Search.act (backend M).oracle.sweep >>= next) := by
  have hnext : ∀ x w, w.threshold = 0 →
      (Search.act (backend M).oracle.sweep >>= next) (x, w) = next none (x, w) := by
    intro x w hstill
    change EStateM.bind (Search.act (backend M).oracle.sweep) next (x, w) = _
    simp only [EStateM.bind, Search.act, Action.within, sweep_of_still hstill]
  intro hv x w t hstill ht a x' w' hrun
  have hstill' : t.threshold = 0 := by
    obtain ⟨_, _, rfl⟩ := ht
    exact hstill
  rw [hnext x w hstill] at hrun
  rw [hnext x t hstill']
  exact h hv x w t hstill ht a x' w' hrun

theorem replays_advance : Replays v (Search.advance (backend M) config) :=
  replays_deepen.bind fun _ => replays_state.bind fun _ => replays_branch
    (replays_report.bind fun _ => replays_pure)
    (replays_rebuild.bind fun _ => replays_sweep replays_pure)

theorem replays_rounds : ∀ bound fuel : Nat,
    Replays v (Search.rounds (backend M) config bound fuel)
  | 0, _ => replays_throw
  | bound + 1, _ => replays_drainFrame.bind fun fuel => replays_change.bind fun _ =>
      replays_state.bind fun _ => replays_branch replays_pure (replays_branch
        (replays_showInvariant.bind fun _ => replays_pure)
        (replays_advance.bind fun _ => replays_branch (replays_rounds bound fuel) replays_pure))

end Invariance.FiniteState
