import Invariance.FiniteState.Session
import Invariance.Proofs.Effects
import Invariance.Proofs.FiniteState.Paths
import Invariance.Search.Round

/-!
What each operation of the backend leads to, on a session whose universe is canonical and fits its
system. Most operations only add terms and events.
-/

namespace Invariance.FiniteState

theorem Reachability.find_initial {sys : TransitionSystem} {reach : Reachability} {u : Universe}
    (hu : u.Canonical) (hn : u.size = sys.size) (hlayers : reach.layers = #[sys.init])
    {g : Formula} {r : StateSet} (hg : u.Names g r) {a : Nat}
    (hr : ∀ y, r.contains y = true ↔ y = a) :
    (sys.Initial a ∧ reach.find sys u 0 0 g = .ok (some (0, [a]), reach)) ∨
      (¬ sys.Initial a ∧ reach.find sys u 0 0 g = .ok (none, reach)) := by
  obtain ⟨common, hcommon, _, hc⟩ :=
    StateSet.inter_eq (sys.init_size.trans (hn.symm.trans (hu.sized hg).symm))
  obtain ⟨layers, cex⟩ := reach
  obtain rfl : layers = #[sys.init] := hlayers
  have hto : layersTo ⟨#[sys.init], cex⟩ sys 0 = .ok #[sys.init] := rfl
  have hhit : firstHit #[sys.init] r 0 (0 + 1 - 0) =
      .ok (common.first.map fun x => (0, x)) := by
    simp only [firstHit, Nat.sub_zero, Nat.zero_add, List.getElem?_toArray, List.getElem?_cons_zero,
      hcommon, bind, Except.bind]
    cases common.first <;> rfl
  simp only [find, Universe.eval_eq hg, hto, hhit, bind, Except.bind, Checked.ofExcept,
    Except.mapError]
  cases hfirst : common.first with
  | none =>
      refine Or.inr ⟨fun ha => ?_, rfl⟩
      have hnot := StateSet.first_eq_none.mp hfirst a
      rw [(hc a).mpr ⟨ha, (hr a).mpr rfl⟩] at hnot
      cases hnot
  | some x =>
      obtain ⟨hinit, hx⟩ := (hc x).mp (StateSet.first_eq_some hfirst)
      obtain rfl := (hr x).mp hx
      exact Or.inl ⟨hinit, rfl⟩

namespace Session

open Universe

structure Sound (sys : TransitionSystem) (w : Session) : Prop where
  system : w.system = sys
  canonical : w.terms.Canonical
  size : w.terms.size = sys.size

theorem Sound.sized {sys : TransitionSystem} {w : Session} (hw : Sound sys w) {f : Formula}
    {r : StateSet} (hf : w.terms.Names f r) : r.size = sys.size :=
  (hw.canonical.sized hf).trans hw.size

/-- It reads the system and the terms of a session only. -/
theorem Sound.congr {sys : TransitionSystem} {w w' : Session} (hw : Sound sys w)
    (hsystem : w'.system = w.system) (hterms : w'.terms = w.terms) : Sound sys w' where
  system := hsystem.trans hw.system
  canonical := hterms ▸ hw.canonical
  size := hterms ▸ hw.size

theorem Sound.sweep {sys : TransitionSystem} {w w' : Session} (hw : Sound sys w)
    (hsystem : w'.system = w.system) (hterms : w'.terms = w.terms.sweep.2) : Sound sys w' where
  system := hsystem.trans hw.system
  canonical := hterms ▸ sweep_canonical hw.canonical
  size := by
    rw [hterms, sweep_size]
    exact hw.size

structure Grows (w w' : Session) : Prop where
  terms : Extends w.terms w'.terms
  canonical : w'.terms.Canonical
  same : w' = { w with terms := w'.terms, journal := w'.journal }

namespace Grows

variable {w w' w'' : Session}

theorem refl (h : w.terms.Canonical) : Grows w w := ⟨.refl _, h, rfl⟩

theorem trans (h : Grows w w') (h' : Grows w' w'') : Grows w w'' := by
  refine ⟨h.terms.trans h'.terms, h'.canonical, ?_⟩
  rw [h'.same, h.same]

theorem system (h : Grows w w') : w'.system = w.system := by
  rw [h.same]

theorem sound {sys : TransitionSystem} (h : Grows w w') (hw : Sound sys w) : Sound sys w' :=
  ⟨h.system.trans hw.system, h.canonical, h.terms.size.trans hw.size⟩

theorem forward (h : Grows w w') : w'.forward = w.forward := by
  rw [h.same]

theorem induction (h : Grows w w') : w'.induction = w.induction := by
  rw [h.same]

theorem paths (h : Grows w w') : w'.paths = w.paths := by
  rw [h.same]

theorem reach (h : Grows w w') : w'.reach = w.reach := by
  rw [h.same]

theorem trace (h : Grows w w') : w'.trace = w.trace := by
  rw [h.same]

end Grows

variable {M : Machine} {sys : TransitionSystem} {s : Search} {w : Session} {E : Fault → Prop}

theorem ends_ofChecked_ok {α : Type} {a : α} {Q : α → Session → Prop} :
    Action.Ends (ofChecked (.ok a)) w E Q ↔ Q a w := Iff.rfl

theorem ends_ofChecked_error {α : Type} {flaw : Flaw} {Q : α → Session → Prop} :
    Action.Ends (ofChecked (.error flaw)) w E Q ↔ E flaw.toFault := Iff.rfl

theorem ends_report (hw : Sound sys w) {level : Level} {message : String}
    {fields : Search → (Formula → String) → List (String × Field)}
    {Q : Unit → Search × Session → Prop} (h : ∀ w', Grows w w' → Q () (s, w')) :
    Action.Ends (Search.report (backend M) level message fields) (s, w) E Q :=
  h _ ⟨.refl _, hw.canonical, rfl⟩

theorem ends_making {op : Universe → Except Violation (Formula × Universe)} {f : Formula}
    {u : Universe} {t : Term} (hop : op w.terms = .ok (f, u)) (hmade : Made w.terms f t u)
    {Q : Formula → Session → Prop}
    (h : ∀ w', Grows w w' → w'.terms.terms[f.id]? = some t → Q f w') :
    Action.Ends (Action.ofStep (making op)) w E Q := by
  have hrun : Action.ofStep (making op) w = .ok f { w with terms := u } := by
    simp only [Action.ofStep, making, hop]
  rw [Action.Ends, hrun]
  exact h _ ⟨hmade.grows, hmade.canonical, rfl⟩ hmade.stored

theorem ends_negate (hw : Sound sys w) {f : Formula} {x : StateSet} (hf : w.terms.Names f x)
    {Q : Formula → Search × Session → Prop}
    (h : ∀ g w', Grows w w' → w'.terms.Names g x.complement → Q g (s, w')) :
    Action.Ends (Search.negate (backend M) f) (s, w) E Q := by
  obtain ⟨g, u, hnegate, hmade⟩ := negate_eq hw.canonical hf
  change Action.Ends (Search.act (Action.ofStep (making (·.negate f)))) (s, w) E Q
  rw [Search.ends_act]
  exact ends_making hnegate hmade (h g)

theorem ends_disjoin (hw : Sound sys w) {f g : Formula} {x y : StateSet}
    (hf : w.terms.Names f x) (hg : w.terms.Names g y) {Q : Formula → Search × Session → Prop}
    (h : ∀ d r w', Grows w w' → w'.terms.Names d r →
      (∀ z, r.contains z = true ↔ x.contains z = true ∨ y.contains z = true) → Q d (s, w')) :
    Action.Ends (Search.step ((backend M).terms.disjoin f g)) (s, w) E Q := by
  obtain ⟨d, r, u, hdisjoin, hmade, hc⟩ := disjoin_eq hw.canonical hf hg
  change Action.Ends (Search.act (Action.ofStep (making (·.disjoin f g)))) (s, w) E Q
  rw [Search.ends_act]
  exact ends_making hdisjoin hmade fun w' hgrow hd => h d r w' hgrow hd hc

theorem ends_atStep (hw : Sound sys w) {f : Formula} {x : StateSet} (hf : w.terms.Names f x)
    {k : Nat} {Q : Formula → Search × Session → Prop}
    (h : ∀ g w', Grows w w' → w'.terms.Demands g x k → Q g (s, w')) :
    Action.Ends (Search.step ((backend M).recorder.atStep f k)) (s, w) E Q := by
  obtain ⟨g, u, hstep, hmade⟩ := atStep_eq hw.canonical hf.live k
  have hop : (.ok (w.terms.atStep f k) : Except Violation _) = .ok (g, u) :=
    congrArg Except.ok hstep
  change Action.Ends (Search.act (Action.ofStep (making fun u => .ok (u.atStep f k)))) (s, w) E Q
  rw [Search.ends_act]
  exact ends_making hop hmade fun w' hgrow hg => h g w' hgrow ⟨f, hg, hgrow.terms.names hf⟩

theorem ends_register {f : Formula} {x : StateSet} (hf : w.terms.Names f x) {role : Role}
    {Q : Unit → Session → Prop} (h : Q () { w with induction := w.induction.enter f role }) :
    Action.Ends ((oracle M).register f role) w E Q := by
  change Action.Ends (do
    let s ← get
    let induction ← ofChecked (s.induction.register s.terms f role)
    set { s with induction }) w E Q
  simp only [Action.ends_bind, Action.ends_get, InductionSolver.register_eq hf,
    ends_ofChecked_ok, Action.ends_set]
  exact h

theorem ends_addToFrame {f : Formula} {x : StateSet} (hf : w.terms.Names f x) {role : Role}
    {frame : Frame} (hframe : s.frame.enter f role = .ok frame)
    {Q : Unit → Search × Session → Prop}
    (h : Q () ({ s with frame, stats.frameSize := frame.size },
      { w with induction := w.induction.enter f role })) :
    Action.Ends (Search.addToFrame (backend M) f role) (s, w) E Q := by
  rw [Search.addToFrame, Search.ends_onFrame, Frame.add]
  simp only [Action.ends_bind, Action.ends_get, hframe, Action.ends_ofExcept_ok,
    Action.ends_modify, Action.ends_within]
  exact ends_register hf h

theorem ends_clearFrame {depth : Nat} (hdepth : 0 < depth) {Q : Unit → Search × Session → Prop}
    (h : Q () ({ s with frame := {}, stats.frameSize := 0 }, { w with induction := { depth } })) :
    Action.Ends (Search.clearFrame (backend M) depth) (s, w) E Q := by
  rw [Search.clearFrame, Search.ends_onFrame, Frame.clear]
  simp only [Action.ends_bind, Action.ends_modify, Action.ends_within]
  change Action.Ends (do
    if depth = 0 then
      Action.fail (.solver "induction depth must be positive")
    modify fun s : Session => { s with induction := { depth } }) w E _
  rw [if_neg (Nat.ne_of_gt hdepth)]
  exact h

theorem ends_checkAccepted (hw : Sound sys w) (hdepth : 0 < w.induction.depth)
    (hfirst : ∀ g ∈ w.induction.first, w.terms.Accepts g)
    (hbetween : ∀ g ∈ w.induction.intermediate, w.terms.Accepts g) {f : Formula}
    (hf : w.terms.Accepts f)
    (hcount : M.counts (w.induction.depth + 1) = false → E (.violation .overflow))
    (hrow : M.counts (w.induction.depth + 1) = true → M.lists (w.induction.depth + 1) = false →
      E (.violation .capacity))
    {Q : InductionAnswer (List Nat) → Session → Prop}
    (hunsat : ∀ w', Grows w w' → (∀ a mid b, ¬ w.induction.Evades sys w.terms f a mid b) →
      Q .unsat w')
    (hsat : ∀ g r w' a mid b, Grows w w' → w.induction.Evades sys w.terms f a mid b →
      w'.terms.Names g r → (∀ y, r.contains y = true ↔ y = a) →
      Q (.sat (some g) (some (a :: mid ++ [b]))) w') :
    Action.Ends (checkInductive M f) w E Q := by
  simp only [checkInductive, Action.ends_bind, Action.ends_get, hw.system]
  cases hc : M.counts (w.induction.depth + 1) with
  | false =>
      rw [InductionSolver.check_overflow hc, ends_ofChecked_error]
      exact hcount hc
  | true =>
      cases hl : M.lists (w.induction.depth + 1) with
      | false =>
          rw [InductionSolver.check_capacity hc hl, ends_ofChecked_error]
          exact hrow hc hl
      | true =>
          rcases InductionSolver.check_eq hw.canonical hw.size hdepth hfirst hbetween hf hc hl with
            ⟨a, mid, b, hcheck, hevades⟩ | ⟨hcheck, hnone⟩
          · rw [hcheck, ends_ofChecked_ok]
            have halt : a < w.terms.size := by
              have hedge := List.isChain_iff_getElem.mp hevades.chain 0 (by simp)
              exact hw.size ▸ hedge.lt_left
            obtain ⟨g, r, u, hstates, hmade, hr⟩ :=
              ofStates_singleton hw.canonical (hw.size ▸ sys.size_le) halt
            simp only [Action.ends_bind]
            exact ends_making hstates hmade fun w' hgrow hg =>
              hsat g r _ a mid b (hgrow.trans ⟨.refl _, hgrow.canonical, rfl⟩) hevades hg hr
          · rw [hcheck, ends_ofChecked_ok]
            exact hunsat _ ⟨.refl _, hw.canonical, rfl⟩ hnone

theorem ends_checkInductive (hw : Sound sys w) (hdepth : 0 < w.induction.depth)
    (hfirst : w.terms.Named w.induction.first) (hbetween : w.terms.Named w.induction.intermediate)
    {f : Formula} {x : StateSet} (hf : w.terms.Names f x)
    (hcount : M.counts (w.induction.depth + 1) = false → E (.violation .overflow))
    (hrow : M.lists (w.induction.depth + 1) = false → E (.violation .capacity))
    {Q : InductionAnswer (List Nat) → Search × Session → Prop}
    (hunsat : ∀ w', Grows w w' →
      (∀ a mid b, ¬ w.induction.Counters sys w.terms x a mid b) → Q .unsat (s, w'))
    (hsat : ∀ g r w' a mid b, Grows w w' → w.induction.Counters sys w.terms x a mid b →
      w'.terms.Names g r → (∀ y, r.contains y = true ↔ y = a) →
      Q (.sat (some g) (some (a :: mid ++ [b]))) (s, w')) :
    Action.Ends (Search.act ((backend M).oracle.checkInductive f)) (s, w) E Q := by
  have hiff : ∀ {a mid b}, w.induction.Counters sys w.terms x a mid b ↔
      w.induction.Evades sys w.terms f a mid b := InductionSolver.counters_iff hfirst hbetween hf
  rw [Search.ends_act]
  refine ends_checkAccepted hw hdepth hfirst.accepts hbetween.accepts ⟨x, eval_eq hf⟩ hcount
    (fun _ => hrow) (fun w' hgrow hnone => hunsat w' hgrow fun a mid b h => ?_)
    fun g r w' a mid b hgrow hevades => hsat g r w' a mid b hgrow (hiff.mpr hevades)
  exact hnone a mid b (hiff.mp h)

theorem ends_learnForward (hw : Sound sys w) {g : Formula} {r : StateSet}
    (hg : w.terms.Names g r) (hdisjoint : ∀ x, sys.Initial x → r.contains x = false)
    {Q : Formula → Search × Session → Prop}
    (h : ∀ f w', Grows w w' →
      (w.forward = .negation ∧ w'.terms.Names f r.complement ∨
        w.forward = .reachable ∧ w'.terms.Names f sys.init) → Q f (s, w')) :
    Action.Ends (Search.act ((backend M).oracle.learnForward 0 g)) (s, w) E Q := by
  obtain rfl := hw.system
  rw [Search.ends_act]
  simp only [backend, oracle, Action.ends_bind, Action.ends_get]
  have hmodes : w.forward = .negation ∨ w.forward = .reachable := by
    cases w.forward <;> simp
  rcases hmodes with hmode | hmode
  · obtain ⟨f, u, hnegate, hmade⟩ := negate_eq hw.canonical hg
    have hlearn : FiniteState.learnForward w.forward w.system w.terms 0 g = .ok (f, u) := by
      simp only [FiniteState.learnForward, hmode, eval_eq hg, bind, Except.bind, hnegate]
      rfl
    rw [hlearn, ends_ofChecked_ok]
    exact h f _ ⟨hmade.grows, hmade.canonical, rfl⟩ (Or.inl ⟨hmode, hmade.stored⟩)
  · obtain ⟨common, hcommon, _, hc⟩ := StateSet.inter_eq
      (w.system.init_size.trans (hw.sized hg).symm)
    have hempty : common.isEmpty = true := StateSet.isEmpty_iff.mpr fun x =>
      Bool.eq_false_iff.mpr fun hx => by
        obtain ⟨hinit, hr⟩ := (hc x).mp hx
        rw [hdisjoint x hinit] at hr
        cases hr
    obtain ⟨f, u, hset, hmade⟩ := ofSet_eq hw.canonical (w.system.init_size.trans hw.size.symm)
    have hreached : reachableWithin w.system 0 = .ok w.system.init := rfl
    have hlearn : FiniteState.learnForward w.forward w.system w.terms 0 g = .ok (f, u) := by
      simp only [FiniteState.learnForward, hmode, eval_eq hg, bind, Except.bind, hreached,
        Checked.ofExcept, Except.mapError, hcommon, hempty, if_true, hset]
    rw [hlearn, ends_ofChecked_ok]
    exact h f _ ⟨hmade.grows, hmade.canonical, rfl⟩ (Or.inr ⟨hmode, hmade.stored⟩)

theorem ends_queryInit (hw : Sound sys w) {f : Formula} {r : StateSet} (hf : w.terms.Names f r)
    {Q : InitAnswer (List Nat) → Search × Session → Prop}
    (hunsat : (∀ x, sys.Initial x → r.contains x = false) → Q .unsat (s, w))
    (hsat : ∀ x, sys.Initial x → r.contains x = true → Q (.sat (some [x])) (s, w)) :
    Action.Ends (Search.act ((backend M).oracle.queryInit f)) (s, w) E Q := by
  rw [Search.ends_act]
  change Action.Ends (queryInit f) w E _
  obtain ⟨common, hcommon, _, hc⟩ :=
    StateSet.inter_eq (sys.init_size.trans (hw.sized hf).symm)
  simp only [queryInit, Action.ends_bind, Action.ends_get, hw.system, eval_eq hf,
    ends_ofChecked_ok, hcommon, Action.ends_ofExcept_ok]
  cases hfirst : common.first with
  | none =>
      refine hunsat fun x hx => Bool.eq_false_iff.mpr fun hr => ?_
      have hnot := StateSet.first_eq_none.mp hfirst x
      rw [(hc x).mpr ⟨hx, hr⟩] at hnot
      cases hnot
  | some x =>
      obtain ⟨hx, hr⟩ := (hc x).mp (StateSet.first_eq_some hfirst)
      exact hsat x hx hr

theorem ends_sweep {Q : Option Relocation → Search × Session → Prop} (hnone : Q none (s, w))
    (hsome : ∀ journal, Q (some w.terms.sweep.1)
      (s, { w with terms := w.terms.sweep.2, journal })) :
    Action.Ends (Search.act (backend M).oracle.sweep) (s, w) E Q := by
  rw [Search.ends_act]
  simp only [backend, oracle, Action.ends_bind, Action.ends_get]
  split
  · exact hnone
  · exact hsome _

theorem ends_assert {f : Formula} {x : StateSet} {k : Nat} (hf : w.terms.Demands f x k)
    {Q : Unit → Search × Session → Prop}
    (h : ∀ paths : PathSolver, paths.asserted = w.paths.asserted ++ [f] →
      paths.opened.length = w.paths.opened.length → Q () (s, { w with paths })) :
    Action.Ends (Search.act ((backend M).solver.assert f)) (s, w) E Q := by
  rw [Search.ends_act]
  change Action.Ends (do
    let s ← get
    let paths ← ofChecked (s.paths.assert s.terms f)
    set { s with paths }) w E _
  obtain ⟨paths, hpaths, hasserted, hopened⟩ := PathSolver.assert_eq hf w.paths
  simp only [Action.ends_bind, Action.ends_get, hpaths, ends_ofChecked_ok, Action.ends_set]
  exact h paths hasserted hopened

theorem ends_check (hw : Sound sys w) {K : Nat} (hM : M.Fits (K + 1))
    (hall : ∀ f ∈ w.paths.asserted, ∃ x k, w.terms.Demands f x k ∧ k ≤ K)
    (hlast : ∃ f ∈ w.paths.asserted, ∃ x, w.terms.Demands f x K)
    (hpath : ∃ path, path.length = K + 1 ∧
      PathSolver.Models sys w.terms w.paths.asserted path)
    {Q : Verdict → Search × Session → Prop}
    (h : ∀ path journal, path.length = K + 1 →
      PathSolver.Models sys w.terms w.paths.asserted path →
      Q .sat (s, { w with paths.model := some path, journal })) :
    Action.Ends (Search.act (backend M).solver.check) (s, w) E Q := by
  obtain rfl := hw.system
  rw [Search.ends_act]
  simp only [backend, solver, Action.ends_bind, Action.ends_get]
  rcases PathSolver.check_eq hw.canonical hw.size hM hall hlast with
    ⟨path, hcheck, hlength, hmodels⟩ | ⟨_, hnone⟩
  · rw [hcheck, ends_ofChecked_ok]
    exact h path _ hlength hmodels
  · obtain ⟨path, hlength, hmodels⟩ := hpath
    exact absurd hmodels (hnone path hlength)

theorem ends_recordModel {path : List Nat} (hmodel : w.paths.model = some path)
    {Q : Unit → Search × Session → Prop} (h : Q () (s, { w with trace := path })) :
    Action.Ends (Search.recordModel (backend M)) (s, w) E Q := by
  rw [Search.recordModel, Action.ends_bind, Search.ends_act]
  simp only [backend, solver, Action.ends_bind, Action.ends_get, hmodel]
  exact h

theorem ends_popScope (hopened : 0 < w.paths.opened.length) {Q : Unit → Search × Session → Prop}
    (h : ∀ paths, Q () (s, { w with paths })) :
    Action.Ends (Search.step (backend M).solver.pop) (s, w) E Q := by
  rw [Search.step, Search.ends_act]
  cases hscopes : w.paths.opened with
  | nil =>
      rw [hscopes] at hopened
      exact absurd hopened (Nat.lt_irrefl 0)
  | cons scope rest =>
      have hpop : w.paths.pop = .ok { w.paths with opened := rest, model := none } := by
        rw [PathSolver.pop, hscopes]
      have hrun : Action.ofStep (backend M).solver.pop w =
          .ok () { w with paths := { w.paths with opened := rest, model := none } } := by
        simp only [Action.ofStep, backend, solver, hpop]
      rw [Action.Ends, hrun]
      exact h _

theorem ends_checkReachable (hw : Sound sys w) (hlayers : w.reach.layers = #[sys.init])
    {g : Formula} {r : StateSet} (hg : w.terms.Names g r) {a : Nat}
    (hr : ∀ y, r.contains y = true ↔ y = a) {model : List Nat}
    {Q : Bool → Search × Session → Prop} (hno : ¬ sys.Initial a → Q false (s, w))
    (hyes : sys.Initial a → ∀ terms journal, Extends w.terms terms → terms.Canonical →
      Q true (s, { w with terms, journal, reach.cex := [g] })) :
    Action.Ends (Search.act ((backend M).reachability.check 0 0 g model)) (s, w) E Q := by
  rw [Search.ends_act]
  change Action.Ends (checkReachable 0 0 g) w E _
  simp only [checkReachable, Action.ends_bind, Action.ends_get]
  obtain rfl := hw.system
  rcases Reachability.find_initial hw.canonical hw.size hlayers hg hr with
    ⟨ha, hfind⟩ | ⟨ha, hfind⟩
  · obtain ⟨f, r', u, hstates, hmade, hr'⟩ := ofStates_singleton hw.canonical
      (hw.size ▸ w.system.size_le) (hw.size ▸ w.system.init_size ▸ w.system.init.lt_size a ha)
    obtain rfl : g = f := hmade.canonical.name_ext (hmade.grows.names hg) hmade.stored fun y => by
      rw [Bool.eq_iff_iff, hr, hr']
    have hpath : Reachability.pathFormulas w.terms [a] = .ok ([g], u) := by
      simp only [Reachability.pathFormulas, hstates, bind, Except.bind]
      rfl
    rw [hfind, ends_ofChecked_ok]
    simp only [Action.ends_bind, Action.ends_set, Action.ends_modify, note, hpath,
      Action.ends_ofExcept_ok, Action.ends_pure]
    exact hyes ha u _ hmade.grows hmade.canonical
  · rw [hfind, ends_ofChecked_ok]
    exact hno ha

theorem ends_validate {f : Formula} (hf : w.terms.Accepts f)
    {Q : Unit → Search × Session → Prop} (h : Q () (s, w)) :
    Action.Ends (Search.act ((backend M).terms.validate f)) (s, w) E Q := by
  obtain ⟨r, hr⟩ := hf
  rw [Search.ends_act]
  change Action.Ends (do let _ ← ofChecked ((← get).terms.eval f)) w E _
  simp only [Action.ends_bind, Action.ends_get, hr, ends_ofChecked_ok]
  exact h

theorem ends_saveGraph (hw : Sound sys w) {name : String} {lines : List String}
    (hfail : ∀ reason, E (.error (.output reason))) {Q : Unit → Search × Session → Prop}
    (h : ∀ w', Grows w w' → Q () (s, w')) :
    Action.Ends (Search.act ((backend M).reports.saveGraph name lines)) (s, w) E Q := by
  rw [Search.ends_act, Action.Ends]
  simp only [backend, Journal.reports]
  cases w.journal.save name lines with
  | ok journal => exact h _ ⟨.refl _, hw.canonical, rfl⟩
  | error reason => exact hfail reason

theorem ends_interpolate {f : Formula} {Q : Formula → Search × Session → Prop} (h : Q f (s, w)) :
    Action.Ends (Search.act ((backend M).oracle.interpolate f)) (s, w) E Q := h

end Session

end Invariance.FiniteState
