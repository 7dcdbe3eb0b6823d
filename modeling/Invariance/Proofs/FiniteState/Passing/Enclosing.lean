import Invariance.Proofs.FiniteState.Passing.Guides

/-!
Frames that enclose the initial states. A formula that is learnt or weakened contains them as soon
as what it is made of does, so a frame goes on enclosing them while obligations are staged, refined
and restored. The index leaves zero only when the search has stalled, and then every reachable state
is an initial one.
-/

namespace Invariance.FiniteState

open Universe Session TransitionSystem

variable {M : Machine} {sys : TransitionSystem} {x y : Search × Session} {α β : Type}
  {f g : Formula} {s : Search} {w : Session}

/-- All members of the frame and all registered formulas contain the initial states, and beyond
index zero these are all the reachable ones. -/
structure Encloses (sys : TransitionSystem) (x : Search × Session) : Prop where
  system : x.2.system = sys
  members : ∀ f, x.1.frame.contains f = true → x.2.terms.Ample sys f
  first : ∀ f ∈ x.2.induction.first, x.2.terms.Ample sys f
  between : ∀ f ∈ x.2.induction.intermediate, x.2.terms.Ample sys f
  closed : x.1.index = 0 ∨ ∀ y, sys.Reachable y → sys.Initial y

theorem Encloses.adds {P : Formula → Prop} (h : Encloses sys x) (hadds : Adds P x y)
    (hnew : ∀ f, P f → x.2.terms.Ample sys f) : Encloses sys y where
  system := hadds.system.trans h.system
  members f hf := ((hadds.members f hf).elim (hnew f) (h.members f)).extend hadds.terms
  first f hf := ((hadds.first f hf).elim (hnew f) (h.first f)).extend hadds.terms
  between f hf := ((hadds.between f hf).elim (hnew f) (h.between f)).extend hadds.terms
  closed := hadds.index ▸ h.closed

namespace Adding

variable {act : SearchM Session α} {next : α → SearchM Session β} {P : Formula → Prop}
  {c : Course act} {d : ∀ a, Course (next a)} {Q : α → Search × Session → Prop}
  {Q' : β → Search × Session → Prop}

theorem encloses (hc : Adding P c) (hx : Encloses sys x)
    (hnew : ∀ f, P f → x.2.terms.Ample sys f) :
    c.Keeps (Encloses sys) x fun _ y => Extends x.2.terms y.2.terms :=
  (Course.Stays.keeps hc fun _ hadds => hx.adds hadds hnew).imp fun _ _ _ hadds => hadds.terms

/-- The rule for a part of a course that brings in formulas which contain the initial states. -/
theorem step (hc : Adding P c) (hx : Encloses sys x)
    (hnew : ∀ f, P f → x.2.terms.Ample sys f)
    (hd : ∀ a s w, Extends x.2.terms w.terms → Encloses sys (s, w) →
      (d a).Keeps (Encloses sys) (s, w) Q') : (c.bind d).Keeps (Encloses sys) x Q' :=
  .bind ((hc.encloses hx hnew).imp fun a y hy hext => hd a y.1 y.2 hext hy)

theorem skip (hc : Adding (fun _ => False) c) (hx : Encloses sys x)
    (hd : ∀ a s w, Extends x.2.terms w.terms → Encloses sys (s, w) →
      (d a).Keeps (Encloses sys) (s, w) Q') : (c.bind d).Keeps (Encloses sys) x Q' :=
  hc.step hx (fun _ h => h.elim) hd

/-- The rule for a part that brings in nothing and whose answer is known. -/
theorem after (hc : Adding (fun _ => False) c) (hx : Encloses sys x)
    (hends : act.Ends x (fun _ => True) fun a y => Extends x.2.terms y.2.terms →
      Encloses sys y → (d a).Keeps (Encloses sys) y Q') : (c.bind d).Keeps (Encloses sys) x Q' :=
  .bind (((hc.encloses hx fun _ h => h.elim).and hends).imp fun _ _ hy h => h.2 h.1 hy)

end Adding

/-! Staging. -/

theorem ends_making_eq (op : Universe → Except Violation (Formula × Universe)) (w : Session) :
    Action.Ends (Action.ofStep (making op)) w (fun _ => True) fun f w' =>
      op w.terms = .ok (f, w'.terms) := by
  simp only [Action.Ends, Action.ofStep, making]
  cases op w.terms <;> trivial

theorem ends_disjoin_ample (hf : x.2.terms.Ample sys f) :
    Action.Ends (Search.step ((backend M).terms.disjoin f g)) x (fun _ => True) fun d y =>
      y.2.terms.Ample sys d := by
  obtain ⟨r, hr, hinit⟩ := hf
  refine Search.ends_act.mpr ((ends_making_eq (·.disjoin f g) x.2).imp fun d w hd => ?_)
  obtain ⟨r', hr', hsub⟩ := (disjoin_grows hd).2 r hr
  exact ⟨r', hr', fun x hx => hsub x (hinit x hx)⟩

theorem keeps_carry {ob : Obligation} (hx : Encloses sys x) (hf : x.2.terms.Ample sys f) :
    (Search.carryCourse (backend M) ob f).Keeps (Encloses sys) x fun _ _ => True :=
  ((adding_carry (P := (· = f)) rfl).encloses hx fun _ heq => heq ▸ hf).imp
    fun _ _ _ _ => trivial

theorem keeps_weaken {ob : Obligation} (hx : Encloses sys x)
    (hf : x.2.terms.Ample sys ob.forward) :
    (Search.weakenCourse (backend M) ob f).Keeps (Encloses sys) x fun g y =>
      y.2.terms.Ample sys g := by
  refine adding_interpolate.skip hx fun g s₁ w₁ hext₁ hx₁ => ?_
  refine Adding.skip (adding_erase (f := ob.forward) fun _ => ⟨rfl, rfl⟩) hx₁
    fun _ s₂ w₂ hext₂ hx₂ => ?_
  have hf₂ := (hf.extend hext₁).extend hext₂
  refine adding_disjoin.after hx₂ ((ends_disjoin_ample hf₂).imp fun d y hd hext₃ hx₃ => ?_)
  refine Adding.step (adding_insert (f := d) (P := (· = d)) rfl fun _ => ⟨rfl, rfl⟩) hx₃
    (fun _ heq => heq ▸ hd) fun _ s₄ w₄ hext₄ hx₄ => ?_
  refine adding_countFrame.skip hx₄ fun _ s₅ w₅ hext₅ hx₅ => ?_
  refine adding_checkRefutations.skip hx₅ fun _ s₆ w₆ hext₆ hx₆ => ?_
  refine adding_report.skip hx₆ fun _ s₇ w₇ hext₇ hx₇ => ?_
  exact Course.keeps_ok rfl hx₇ ((((hd.extend hext₄).extend hext₅).extend hext₆).extend hext₇)

theorem keeps_stage {ob : Obligation} (hx : Encloses sys x)
    (hf : x.2.terms.Ample sys ob.forward) :
    (Search.stageCourse (backend M) ob f).Keeps (Encloses sys) x fun _ _ => True := by
  refine adding_report.skip hx fun _ s₁ w₁ hext₁ hx₁ => ?_
  refine adding_checkInductive.skip hx₁ fun answer s₂ w₂ hext₂ hx₂ => ?_
  have hf₂ := (hf.extend hext₁).extend hext₂
  cases answer with
  | unsat => exact keeps_carry hx₂ hf₂
  | unknown => exact Course.keeps_error rfl hx₂
  | sat g model => exact .bind ((keeps_weaken hx₂ hf₂).imp fun d y hy hd => keeps_carry hy hd)

/-! Learning. -/

/-- The formula stands for a set without initial states. -/
def Universe.Late (u : Universe) (sys : TransitionSystem) (f : Formula) : Prop :=
  ∃ c, u.Names f c ∧ c.size = sys.size ∧ ∀ x, sys.Initial x → c.contains x = false

theorem Universe.Late.extend {u u' : Universe} (h : u.Late sys f) (hext : Extends u u') :
    u'.Late sys f := by
  obtain ⟨c, hc, hrest⟩ := h
  exact ⟨c, hext.names hc, hrest⟩

theorem Duties.counter_late {mode : ForwardLearning} {u : Universe} {obs : List Obligation}
    (h : Duties sys mode u obs) (hu : u.Canonical) (hn : u.size = sys.size) {ob : Obligation}
    (hob : ob ∈ obs) : u.Late sys ob.counter := by
  obtain ⟨c, hc, hinit⟩ := h.named ob hob
  exact ⟨c, hc, (hu.sized hc).trans hn, hinit⟩

theorem contains_complement_initial {c : StateSet} (hsize : c.size = sys.size)
    (hout : ∀ x, sys.Initial x → c.contains x = false) {x : Nat} (hx : sys.Initial x) :
    c.complement.contains x = true :=
  StateSet.contains_complement_iff.mpr ⟨hsize ▸ hx.lt, hout x hx⟩

theorem ends_negate_ample (hf : x.2.terms.Late sys f) :
    Action.Ends (Search.negate (backend M) f) x (fun _ => True) fun g y =>
      y.2.terms.Ample sys g := by
  obtain ⟨c, hc, hsize, hout⟩ := hf
  refine Search.ends_act.mpr ((ends_making_eq (·.negate f) x.2).imp fun d w hd => ?_)
  exact ⟨_, (negate_grows hd).2 c hc, fun x => contains_complement_initial hsize hout⟩

theorem ends_learnForward_ample {n : Nat} (hx : Encloses sys x) (hf : x.2.terms.Late sys f) :
    Action.Ends (Search.act ((backend M).oracle.learnForward n f)) x (fun _ => True) fun g y =>
      y.2.terms.Ample sys g := by
  obtain ⟨c, hc, hsize, hout⟩ := hf
  obtain rfl := hx.system
  rw [Search.ends_act]
  simp only [backend, oracle, Action.ends_bind, Action.ends_get]
  cases hlearn : learnForward x.2.forward x.2.system x.2.terms n f with
  | error flaw => trivial
  | ok r =>
      rcases (learnForward_grows hlearn).2 c hc with hname | hample
      · exact ⟨_, hname, fun x => contains_complement_initial hsize hout⟩
      · exact hample

theorem keeps_refine {ob : Obligation} {refutation counter : Formula} (hx : Encloses sys x)
    (hcounter : x.2.terms.Late sys counter) :
    (Search.refineCourse (backend M) ob refutation counter).Keeps (Encloses sys) x
      fun _ _ => True := by
  refine adding_negate.after hx ((ends_negate_ample hcounter).imp fun backward y hb hext hy => ?_)
  refine adding_report.skip hy fun _ s₁ w₁ hext₁ hx₁ => ?_
  refine adding_state.skip hx₁ fun s s₂ w₂ hext₂ hx₂ => ?_
  have hcounter₂ := ((hcounter.extend hext).extend hext₁).extend hext₂
  refine adding_learnForward.after hx₂
    ((ends_learnForward_ample hx₂ hcounter₂).imp fun forward z hf hext₃ hz => ?_)
  have hb₃ := ((hb.extend hext₁).extend hext₂).extend hext₃
  -- from here on exactly the two formulas come in
  let learnt (f : Formula) : Prop := f = backward ∨ f = forward
  refine (Adding.encloses (P := learnt) ?_ hz ?_).imp fun _ _ _ _ => trivial
  · refine .bind adding_report fun _ => .bind (adding_addToFrame (Or.inl rfl) .first) fun _ => ?_
    refine .bind (adding_insert (f := forward) (Or.inr rfl) fun _ => ⟨rfl, rfl⟩) fun _ => ?_
    exact .bind adding_countFrame fun _ => .bind adding_state fun _ =>
      .bind (adding_change fun _ => ⟨rfl, rfl⟩) fun _ => .bind adding_checkedAdd fun _ =>
        .bind adding_report fun _ => .bind (adding_enqueue _) fun _ => adding_pure
  · rintro f (rfl | rfl)
    · exact hb₃
    · exact hf

/-! Rebuilding. -/

theorem Stalled.initial_of_reachable {u : Universe} {obs : List Obligation}
    (h : Stalled sys u obs) {y : Nat} (hy : sys.Reachable y) : sys.Initial y := by
  induction hy with
  | initial hx => exact hx
  | step _ hedge ih => exact h.shut _ _ (h.duties.clear_of_initial ih) hedge

theorem keeps_restore {ob : Obligation} (hx : Encloses sys x)
    (hcounter : x.2.terms.Late sys ob.counter) :
    (Search.restoreCourse (backend M) ob).Keeps (Encloses sys) x fun _ y =>
      Extends x.2.terms y.2.terms := by
  refine adding_negate.after hx ((ends_negate_ample hcounter).imp fun refutation y hr hext hy => ?_)
  refine (Adding.encloses (P := (· = refutation)) ?_ hy fun f heq => heq ▸ hr).imp
    fun _ _ _ hext' => hext.trans hext'
  exact .bind (adding_addToFrame (P := (· = refutation)) rfl .first) fun _ =>
    .bind (adding_addToFrame (P := (· = refutation)) rfl .intermediate) fun _ => adding_enqueue ob

theorem keeps_restoreAll : ∀ {obs : List Obligation} {x : Search × Session}, Encloses sys x →
    (∀ ob ∈ obs, x.2.terms.Late sys ob.counter) →
    (Search.forMCourse (Search.restoreCourse (backend M)) obs).Keeps (Encloses sys) x fun _ y =>
      Extends x.2.terms y.2.terms
  | [], _, hx, _ => Course.keeps_ok rfl hx (.refl _)
  | ob :: obs, x, hx, hobs => by
      obtain ⟨hob, hrest⟩ := List.forall_mem_cons.mp hobs
      refine .bind ((keeps_restore hx hob).imp fun _ y hy hext => ?_)
      refine (keeps_restoreAll hy fun o ho => (hrest o ho).extend hext).imp fun _ _ _ hext' => ?_
      exact hext.trans hext'

theorem adding_candidates {obs : List Obligation} :
    Adding (fun f => ∃ ob ∈ obs, ob.forward = f) (.move (Search.change fun s =>
      { s with frame := obs.foldl (fun frame ob => frame.insert ob.forward) s.frame } :
        SearchM Session Unit)) :=
  Course.stays_move fun _ => ⟨fun _ => Frame.contains_foldl_insert.mp, fun _ => Or.inr,
    fun _ => Or.inr, rfl, rfl, .refl _⟩

theorem keeps_rebuild (hx : Encloses sys (s, w)) (hw : Sound sys w)
    (hstalled : Stalled sys w.terms s.staged) :
    (Search.rebuildCourse (backend M)).Keeps (Encloses sys) (s, w) fun _ _ => True := by
  have hduties := hstalled.duties
  refine .bind (Course.keeps_ok rfl hx ?_)
  refine Adding.skip (adding_change fun _ => ⟨rfl, rfl⟩) hx fun _ s₁ w₁ hext₁ hx₁ => ?_
  refine .bind ((keeps_restoreAll hx₁ fun ob hob => ?_).imp fun _ y hy hext₂ => ?_)
  · exact (hduties.counter_late hw.canonical hw.size hob).extend hext₁
  refine adding_candidates.step hy ?_ fun _ s₃ w₃ hext₃ hx₃ => ?_
  · rintro f ⟨ob, hob, rfl⟩
    exact ((hduties.forward_ample hw.canonical hw.size hob).extend hext₁).extend hext₂
  refine adding_countFrame.skip hx₃ fun _ s₄ w₄ _ hx₄ => ?_
  refine Adding.skip (adding_change fun _ => ⟨rfl, rfl⟩) hx₄ fun _ s₅ w₅ _ hx₅ => ?_
  refine adding_checkRefutations.skip hx₅ fun _ s₆ w₆ _ hx₆ => ?_
  refine adding_state.skip hx₆ fun _ s₇ w₇ _ hx₇ => ?_
  refine adding_state.skip hx₇ fun _ s₈ w₈ _ hx₈ => ?_
  refine adding_checkedAdd.skip hx₈ fun index s₉ w₉ _ hx₉ => ?_
  exact Course.keeps_ok rfl ⟨hx₉.system, hx₉.members, hx₉.first, hx₉.between,
    Or.inr fun _ => hstalled.initial_of_reachable⟩ trivial

/-! Relocation. -/

theorem sweep_ample {u : Universe} (hu : u.Canonical) (hf : u.Ample sys f)
    (hg : u.sweep.1.apply f = some g) : u.sweep.2.Ample sys g := by
  obtain ⟨r, hr, hinit⟩ := hf
  obtain ⟨g', hg', hname⟩ := sweep_names hu hr
  obtain rfl := Option.some.inj (hg'.symm.trans hg)
  exact ⟨r, hname, hinit⟩

theorem Encloses.relocated {s' : Search} {w' : Session} (h : Encloses sys (s, w))
    (hu : w.terms.Canonical) (hmoved : Relocated s w s' w') (hsystem : w'.system = sys) :
    Encloses sys (s', w') := by
  have hrenamed : ∀ fs : List Formula, (∀ f ∈ fs, w.terms.Ample sys f) →
      ∀ g ∈ fs.filterMap w.terms.sweep.1.apply, w'.terms.Ample sys g := fun fs hfs g hg => by
    obtain ⟨f, hf, hfg⟩ := List.mem_filterMap.mp hg
    exact (sweep_ample hu (hfs f hf) hfg).extend hmoved.terms
  refine ⟨hsystem, fun g hg => ?_, fun g hg => ?_, fun g hg => ?_, hmoved.index ▸ h.closed⟩
  · change s'.frame.contains g = true at hg
    rw [hmoved.frame] at hg
    obtain ⟨f, hf, hfg⟩ := FormulaSet.contains_relocate.mp hg
    exact (sweep_ample hu (h.members f hf) hfg).extend hmoved.terms
  · change g ∈ w'.induction.first at hg
    rw [hmoved.induction] at hg
    exact hrenamed _ h.first g hg
  · change g ∈ w'.induction.intermediate at hg
    rw [hmoved.induction] at hg
    exact hrenamed _ h.between g hg

theorem guided_encloses : Guided M sys (Encloses sys) fun _ _ => True where
  calm := ⟨.refl, fun h hx => hx.adds h.adds fun _ h => h.elim, fun _ _ => trivial⟩
  stage hx hf := (keeps_stage hx hf).follows
  refine hx h _ hc hno := by
    obtain ⟨t, ht, ha⟩ := hc.single
    refine (keeps_refine hx ⟨t, ht, h.sound.sized ht, fun y hy => ?_⟩).follows
    exact Bool.eq_false_iff.mpr fun hin => hno ((ha y).mp hin ▸ hy)
  rebuild hx hw hstalled := (keeps_rebuild hx hw hstalled).follows
  relocated hx hu hmoved hsystem := ⟨hx.relocated hu hmoved hsystem, trivial⟩

end Invariance.FiniteState
