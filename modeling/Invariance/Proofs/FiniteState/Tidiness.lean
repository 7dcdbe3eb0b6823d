import Invariance.Proofs.FiniteState.Passing.Idle
import Invariance.Proofs.FiniteState.Twins.Rounds
import Invariance.Proofs.Search.Courses
import Invariance.Proofs.Transcripts.Moves

/-!
A tidy search: the refutation of every obligation that waits is a member of the frame, and the
figures count the frame. The search is not always so, a candidate that is weakened leaves the frame
before the refutations are checked again. But it is tidy whenever an operation ends, with an answer
or because a graph could not be written.
-/

namespace Invariance.FiniteState

open Universe Session

variable {M : Machine} {config : Config} {α β : Type} {f g : Formula} {ob : Obligation}
  {x y : Search × Session}

/-- Of a counter-state that names no set nothing is said. -/
def Guarded (u : Universe) (frame : Frame) (counter : Formula) : Prop :=
  u.Live counter ∧ ∀ r, u.Names counter r → ∃ f, u.Names f r.complement ∧ frame.contains f = true

theorem Universe.Extends.live_names {u u' : Universe} (h : Extends u u') (hf : u.Live f) :
    u'.Live f ∧ ∀ r, u'.Names f r → u.Names f r := by
  have hterm : u.terms[f.id]? = some u.terms[f.id] := Array.getElem?_eq_getElem hf
  have hkept := h.kept hterm
  refine ⟨(Array.getElem?_eq_some_iff.mp hkept).1, fun r hr => ?_⟩
  rw [Names, hterm, ← hkept, hr]

theorem Guarded.extend {u u' : Universe} {frame frame' : Frame} (h : Guarded u frame f)
    (hext : Extends u u') (hframe : ∀ g, frame.contains g = true → frame'.contains g = true) :
    Guarded u' frame' f := by
  obtain ⟨hlive, hold⟩ := hext.live_names h.1
  refine ⟨hlive, fun r hr => ?_⟩
  obtain ⟨g, hg, hin⟩ := h.2 r (hold r hr)
  exact ⟨g, hext.names hg, hframe g hin⟩

structure Tidy (x : Search × Session) : Prop where
  valid : x.1.agenda.Valid
  guarded : ∀ ob ∈ x.1.agenda.waiting, Guarded x.2.terms x.1.frame ob.counter
  counted : x.1.Counted

namespace Tidy

theorem blank {w : Session} : Tidy (.blank, w) where
  valid := Agenda.empty_valid
  guarded _ hob := absurd hob List.not_mem_nil
  counted := rfl

theorem extend (h : Tidy x) {s : Search} {w : Session} (hagenda : s.agenda = x.1.agenda)
    (hframe : s.frame = x.1.frame) (hsize : s.stats.frameSize = x.1.stats.frameSize)
    (hext : Extends x.2.terms w.terms) : Tidy (s, w) where
  valid := hagenda ▸ h.valid
  guarded ob hob := (h.guarded ob (hagenda ▸ hob)).extend hext fun _ hin => hframe ▸ hin
  counted := hsize.trans (h.counted.trans (congrArg Frame.size hframe.symm))

/-- A frame that only grows, counted anew. -/
theorem widen (h : Tidy x) {s : Search} {w : Session} (hagenda : s.agenda = x.1.agenda)
    (hframe : ∀ g, x.1.frame.contains g = true → s.frame.contains g = true) (hcounted : s.Counted)
    (hext : Extends x.2.terms w.terms) : Tidy (s, w) where
  valid := hagenda ▸ h.valid
  guarded ob hob := (h.guarded ob (hagenda ▸ hob)).extend hext hframe
  counted := hcounted

theorem narrow (h : Tidy x) {agenda : Agenda} {size : Nat} (hagenda : agenda.Valid)
    (hsub : ∀ ob ∈ agenda.waiting, ob ∈ x.1.agenda.waiting) :
    Tidy ({ x.1 with agenda, stats.queueSize := size }, x.2) where
  valid := hagenda
  guarded ob hob := h.guarded ob (hsub ob hob)
  counted := h.counted

end Tidy

/-- A fault after which the search may be asked for what it knows. -/
def Writing (fault : Fault) : Prop := ∃ reason, fault = .error (.output reason)

theorem not_writing_violation {v : Violation} : ¬ Writing (.violation v) := by
  rintro ⟨_, ⟨⟩⟩

theorem not_writing_toFault {flaw : Flaw} : ¬ Writing flaw.toFault := by
  rintro ⟨_, h⟩
  cases flaw <;> cases h

/-- What ends tidily from here. -/
def Tidies (act : SearchM Session α) (x : Search × Session)
    (Q : α → Search × Session → Prop) : Prop :=
  act.Yields x (fun fault y => Writing fault → Tidy y) Q

/-- What keeps a tidy search tidy. -/
def Neat (act : SearchM Session α) : Prop := ∀ x, Tidy x → Tidies act x fun _ y => Tidy y

section Rules

variable {act other : SearchM Session α} {next : α → SearchM Session β}

theorem Neat.bind (h : Neat act) (hnext : ∀ a, Neat (next a)) : Neat (act >>= next) :=
  fun x hx => .bind ((h x hx).imp fun a y hy => hnext a y hy)

theorem neat_ite {c : Prop} [Decidable c] (h : Neat act) (hother : Neat other) :
    Neat (if c then act else other) :=
  fun x hx => .ite (fun _ => h x hx) fun _ => hother x hx

theorem neat_unless {c : Prop} [Decidable c] {guard : SearchM Session β} (h : Neat act)
    (hguard : Neat guard) : Neat (if c then act else guard >>= fun _ => act) :=
  neat_ite h (.bind hguard fun _ => h)

theorem neat_when {c : Prop} [Decidable c] {guard : SearchM Session β} (h : Neat act)
    (hguard : Neat guard) : Neat (if c then guard >>= fun _ => act else act) :=
  neat_ite (.bind hguard fun _ => h) h

theorem neat_of_same (h : ∀ x, act.final x = x) : Neat act := fun x hx => by
  have hsame := h x
  rw [Action.final] at hsame
  rw [Tidies, Action.Yields]
  cases hrun : act x with
  | ok a y =>
      obtain rfl : y = x := by rwa [hrun] at hsame
      exact hx
  | error fault y =>
      obtain rfl : y = x := by rwa [hrun] at hsame
      exact fun _ => hx

theorem neat_pure {a : α} : Neat (pure a : SearchM Session α) := neat_of_same fun _ => rfl

theorem neat_throw {fault : Fault} : Neat (throw fault : SearchM Session α) :=
  neat_of_same fun _ => rfl

theorem neat_state : Neat (Search.state : SearchM Session Search) := neat_of_same fun _ => rfl

theorem neat_ask {m : Session → α} : Neat (Search.ask m) := neat_of_same fun _ => rfl

theorem neat_ofExcept {e : Except Violation α} : Neat (Action.ofExcept e : SearchM Session α) :=
  neat_of_same fun _ => by cases e <;> rfl

theorem neat_forM {each : α → SearchM Session PUnit} (h : ∀ a, Neat (each a)) :
    ∀ l : List α, Neat (l.forM each)
  | [] => neat_pure
  | a :: l => .bind (h a) fun _ => neat_forM h l

theorem neat_allM {each : α → SearchM Session Bool} (h : ∀ a, Neat (each a)) :
    ∀ l : List α, Neat (l.allM each)
  | [] => neat_pure
  | a :: l => .bind (h a) fun
      | true => neat_allM h l
      | false => neat_pure

theorem tidies_change {m : Search → Search} {Q : Unit → Search × Session → Prop}
    (h : Q () (m x.1, x.2)) : Tidies (Search.change m) x Q := h

theorem tidies_update {m : Session → Session} {Q : Unit → Search × Session → Prop}
    (h : Q () (x.1, m x.2)) : Tidies (Search.update m) x Q := h

theorem neat_change {m : Search → Search} (h : ∀ s, (m s).agenda = s.agenda ∧
    (m s).frame = s.frame ∧ (m s).stats.frameSize = s.stats.frameSize) :
    Neat (Search.change m : SearchM Session Unit) :=
  fun x hx => hx.extend (h x.1).1 (h x.1).2.1 (h x.1).2.2 (.refl _)

theorem neat_update {m : Session → Session} (h : ∀ w, (m w).terms = w.terms) :
    Neat (Search.update m) :=
  fun x hx => hx.extend rfl rfl rfl (h x.2 ▸ .refl _)

theorem neat_act {action : Action Session α} (h : Idles action) : Neat (Search.act action) :=
  fun x hx => by
    have hfinal := (h x.2).terms
    rw [Action.final] at hfinal
    refine Action.Yields.within ?_
    rw [Action.Yields]
    cases hrun : action x.2 with
    | ok a w =>
        rw [hrun] at hfinal
        exact hx.extend rfl rfl rfl hfinal
    | error fault w =>
        rw [hrun] at hfinal
        exact fun _ => hx.extend rfl rfl rfl hfinal

theorem neat_report {level : Level} {message : String}
    {fields : Search → (Formula → String) → List (String × Field)} :
    Neat (Search.report (backend M) level message fields) :=
  fun _ hx => hx.extend rfl rfl rfl (.refl _)

theorem neat_negate : Neat (Search.negate (backend M) f) :=
  neat_act (idles_making fun h => (negate_grows h).1)

end Rules

theorem tidies_step {op : Step Session α} {Q : α → Search × Session → Prop}
    (h : ∀ a w, op x.2 = .ok a w → Q a (x.1, w)) : Tidies (Search.step op) x Q := by
  refine Action.Yields.within ?_
  rw [Action.Yields, Action.ofStep]
  cases hop : op x.2 with
  | ok a w => exact h a w hop
  | error v w => exact fun h => absurd h not_writing_violation

/-! Obligations. -/

theorem negate_live {u u' : Universe} (h : u.negate f = .ok (g, u')) : u.Live f := by
  rw [negate, eval, evalWithin, term] at h
  cases hf : u.terms[f.id]? with
  | none =>
      rw [hf] at h
      cases h
  | some t => exact (Array.getElem?_eq_some_iff.mp hf).1

theorem tidies_negate : Tidies (Search.negate (backend M) f) x fun g y => y.1 = x.1 ∧
    Extends x.2.terms y.2.terms ∧ (x.1.frame.contains g = true →
      Guarded y.2.terms x.1.frame f) := by
  refine tidies_step fun g w hop => ?_
  change making (·.negate f) x.2 = .ok g w at hop
  rw [making] at hop
  split at hop
  next g' terms hnegate =>
    obtain ⟨rfl, rfl⟩ := EStateM.Result.ok.inj hop
    obtain ⟨hext, hnames⟩ := negate_grows hnegate
    obtain ⟨hlive, hold⟩ := hext.live_names (negate_live hnegate)
    exact ⟨rfl, hext, fun hin => ⟨hlive, fun s hs => ⟨g', hnames s (hold s hs), hin⟩⟩⟩
  next => cases hop

theorem tidies_push (hq : x.1.agenda.Valid) :
    Tidies (Action.ofExcept (x.1.agenda.push ob)) x fun r y => y = x ∧ r.2.Valid ∧
      r.2.waiting.Perm (ob.bare :: x.1.agenda.waiting) := by
  rcases Agenda.push_cases hq ob with hpush | ⟨_, slot, agenda, hpush, hagenda, hperm⟩
  · rw [hpush]
    exact fun h => absurd h not_writing_violation
  · rw [hpush]
    exact ⟨rfl, hagenda, hperm⟩

theorem neat_enqueue : Neat (Search.enqueue (backend M) ob) := fun x hx => by
  refine .bind (tidies_negate.imp fun g y hy => .bind (.ite (fun hin => ?_) fun _ =>
    .bind fun h => absurd h not_writing_violation))
  obtain ⟨s, w⟩ := y
  obtain ⟨rfl, hext, hguarded⟩ := hy
  have hx₁ : Tidy (x.1, w) := hx.extend rfl rfl rfl hext
  refine .bind ((tidies_push hx₁.valid).imp fun r y hr => ?_)
  obtain ⟨rfl, hagenda, hperm⟩ := hr
  refine ⟨hagenda, fun o ho => ?_, hx₁.counted⟩
  rcases List.mem_cons.mp (hperm.mem_iff.mp ho) with rfl | ho
  · exact hguarded hin
  · exact hx₁.guarded o ho

theorem neat_pop : Neat (Search.pop (σ := Session)) := fun x hx => by
  refine .bind ?_
  change Action.Yields (Action.ofExcept x.1.agenda.pop >>= _) x _ _
  cases hempty : x.1.agenda.isEmpty with
  | true =>
      rw [Agenda.pop, hempty]
      exact fun h => absurd h not_writing_violation
  | false =>
      obtain ⟨ob, agenda, hpop, hagenda, hperm, _⟩ := Agenda.pop_waiting hx.valid hempty
      rw [hpop]
      exact hx.narrow hagenda fun o ho => hperm.mem_iff.mpr (List.mem_cons_of_mem _ ho)

theorem neat_bump : Neat (Search.bump (σ := Session) f) := fun x hx => by
  obtain ⟨found, agenda, hbump, hagenda, hperm⟩ := Agenda.bump_waiting hx.valid f .one
  refine .bind ?_
  change Action.Yields (Action.ofExcept (x.1.agenda.bump f .one) >>= _) x _ _
  rw [hbump]
  exact hx.narrow hagenda fun o ho => hperm.mem_iff.mp ho

/-- Whatever was known before, afterwards the refutations are there. -/
theorem tidies_checkRefutations (hq : x.1.agenda.Valid) :
    Tidies (Search.checkRefutations (backend M)) x fun _ y => y.1 = x.1 ∧
      ∀ ob ∈ x.1.agenda.waiting, Guarded y.2.terms x.1.frame ob.counter := by
  obtain ⟨obs, hobs, _, _, hmem⟩ := hq.toList_eq
  have hloop : ∀ (obs : List Obligation) (x : Search × Session), Tidies (obs.forM fun ob => do
      let refutation ← Search.negate (backend M) ob.counter
      unless (← Search.state).frame.contains refutation do
        Action.violate (.refutationLost ob.counter)) x fun _ y => y.1 = x.1 ∧
          Extends x.2.terms y.2.terms ∧ ∀ ob ∈ obs, Guarded y.2.terms x.1.frame ob.counter := by
    intro obs
    induction obs with
    | nil => exact fun x => ⟨rfl, .refl _, nofun⟩
    | cons ob obs ih =>
        refine fun x => .bind (.bind (tidies_negate.imp fun g y hy => .bind (.ite
          (fun hin => ?_) fun _ h => absurd h not_writing_violation)))
        obtain ⟨s, w⟩ := y
        obtain ⟨rfl, hext, hguarded⟩ := hy
        refine (ih (x.1, w)).imp fun _ z hz => ⟨hz.1, hext.trans hz.2.1, ?_⟩
        refine List.forall_mem_cons.mpr ⟨?_, hz.2.2⟩
        exact (hguarded hin).extend hz.2.1 fun _ h => h
  refine .bind ?_
  change Action.Yields (Action.ofExcept x.1.agenda.toList >>= _) x _ _
  rw [hobs]
  refine (hloop obs x).imp fun _ y hy => ⟨hy.1, fun ob hob => ?_⟩
  obtain ⟨o, ho, rfl⟩ := List.mem_map.mp hob
  exact hy.2.2 o (hmem.mpr (hq.mem_bySlot_iff.mp ho))

theorem neat_checkedAdd {a b : Nat} : Neat (Search.checkedAdd (backend M) a b) := neat_ofExcept

theorem neat_markInvalid {k : Nat} : Neat (Search.markInvalid (σ := Session) f k) :=
  .bind neat_state fun _ => neat_unless (.bind neat_ofExcept fun _ =>
    neat_change fun _ => ⟨rfl, rfl, rfl⟩) neat_throw

/-! Counterexamples. -/

theorem neat_atStep {k : Nat} : Neat (Search.step ((backend M).recorder.atStep f k)) :=
  have hidles : Idles (Action.ofStep (making fun u => .ok (u.atStep f k))) :=
    idles_making fun {u _ _} h => by
      obtain ⟨rfl, rfl⟩ := Prod.mk.inj (Except.ok.inj h)
      exact (u.intern_grows _).1
  neat_act hidles

theorem neat_assertFalseAt {k : Nat} : Neat (Search.assertFalseAt (backend M) f k) :=
  .bind (neat_update fun _ => rfl) fun _ => .bind neat_negate fun _ => .bind neat_atStep fun _ =>
    neat_act (idles_assert _)

theorem neat_assertTrace : ∀ (k : Nat) (trace : List Formula),
    Neat (Search.assertTrace (backend M) k trace)
  | _, [] => neat_pure
  | _, _ :: _ => .bind neat_atStep fun _ => .bind (neat_act (idles_assert _)) fun _ =>
      neat_assertTrace _ _

theorem neat_recordModel : Neat (Search.recordModel (backend M)) :=
  .bind (neat_act idles_model) fun _ => neat_update fun _ => rfl

theorem neat_climb : ∀ (bound : Nat) (f : Formula) (k : Nat),
    Neat (Search.climb (backend M) bound f k)
  | 0, _, _ => neat_throw
  | bound + 1, f, k =>
      .bind (neat_change fun _ => ⟨rfl, rfl, rfl⟩) fun _ => .bind neat_negate fun _ =>
        .bind neat_bump fun _ => .bind neat_state fun s => by
          cases s.lineage.origin? f with
          | none => exact neat_ite (.bind neat_ask fun _ => neat_report) neat_pure
          | some origin =>
              refine .bind neat_checkedAdd fun _ => neat_ite neat_pure ?_
              refine .bind neat_assertFalseAt fun _ => .bind (neat_act idles_check) fun _ => ?_
              refine neat_ite ?_ neat_report
              exact .bind neat_markInvalid fun _ => .bind neat_recordModel fun _ =>
                .bind neat_report fun _ => neat_climb bound _ _

theorem neat_lastFrame {trace : List Formula} : Neat (Search.lastFrame (backend M) trace) :=
  .bind neat_state fun _ => neat_checkedAdd

theorem neat_extendInScope {trace : List Formula} :
    Neat (Search.extendInScope (backend M) config f trace) :=
  .bind (neat_assertTrace _ _) fun _ => .bind neat_lastFrame fun _ =>
    .bind neat_assertFalseAt fun _ => .bind (neat_act idles_check) fun _ =>
      neat_unless (.bind neat_recordModel fun _ =>
        neat_ite (.bind neat_state fun _ => neat_climb _ _ _) neat_pure) neat_throw

/-- An error that was caught is passed on after moves that keep what it left. -/
theorem neat_attempt {act : SearchM Session α} {next : Except CheckError α → SearchM Session β}
    (h : Neat act) (hnext : ∀ result, Neat (next result))
    (hloud : ∀ e x, ¬ Writing (.error e) → Tidies (next (.error e)) x fun _ y => Tidy y) :
    Neat (act.attempt >>= next) := fun x hx => by
  refine .bind ((h x hx).attempt.imp fun result y hy => ?_)
  rcases hy with ⟨a, rfl, hy⟩ | ⟨e, rfl, hy⟩
  · exact hnext _ y hy
  · by_cases hwriting : Writing (.error e)
    · exact hnext _ y (hy hwriting)
    · exact hloud e y hwriting

theorem neat_ofAttempt {r : Except CheckError α} :
    Neat (Action.ofAttempt r : SearchM Session α) :=
  neat_of_same fun _ => by cases r <;> rfl

theorem neat_extendFailure : Neat (Search.extendFailure (backend M) config f) :=
  .bind neat_ask fun _ => neat_when (.bind neat_state fun _ => .bind neat_lastFrame fun _ =>
    neat_unless (.bind neat_checkedAdd fun _ => .bind (neat_update fun _ => rfl) fun _ =>
      .bind (neat_update fun _ => rfl) fun _ => neat_attempt neat_extendInScope
        (fun _ => .bind (neat_act idles_pop) fun _ => neat_ofAttempt) fun _ _ he =>
          .bind (tidies_step fun _ _ _ h => absurd h he)) neat_throw) neat_throw

theorem neat_failInduction : Neat (Search.failInduction (backend M) config f) :=
  .bind neat_ask fun _ => neat_when (.bind neat_lastFrame fun _ => .bind neat_report fun _ =>
    .bind neat_markInvalid fun _ => .bind (neat_change fun _ => ⟨rfl, rfl, rfl⟩) fun _ =>
      neat_extendFailure) neat_throw

/-! Pushing. -/

theorem tidies_register {role : Role} {w : Session} :
    Action.Yields ((backend M).oracle.register f role) w (fun fault _ => ¬ Writing fault)
      fun _ w' => w'.terms = w.terms := by
  refine .bind (.bind ?_)
  cases w.induction.register w.terms f role with
  | error flaw => exact not_writing_toFault
  | ok induction => rfl

theorem neat_register {role : Role} :
    Neat (Search.act ((backend M).oracle.register f role)) := fun _ hx =>
  .within (tidies_register.mono (fun _ _ h hwriting => absurd hwriting h)
    fun _ _ h => hx.extend rfl rfl rfl (h ▸ .refl _))

theorem neat_addToFrame {role : Role} : Neat (Search.addToFrame (backend M) f role) :=
  fun x hx => by
    refine .bind (.within (.bind (.bind ?_)))
    cases henter : x.1.frame.enter f role with
    | error v => exact fun h => absurd h not_writing_violation
    | ok frame =>
        refine .bind (.within (tidies_register.mono (fun _ _ h hwriting => absurd hwriting h)
          fun _ w h => hx.widen rfl (fun g hin => ?_) rfl (h ▸ .refl _)))
        exact (Frame.contains_enter henter).mpr (Or.inr hin)

theorem neat_carry : Neat (Search.carry (backend M) ob f) :=
  .bind (neat_change fun _ => ⟨rfl, rfl, rfl⟩) fun _ => .bind neat_register fun _ =>
    .bind neat_register fun _ => .bind (neat_change fun _ => ⟨rfl, rfl, rfl⟩) fun _ => neat_pure

/-- The candidate may be a refutation that is needed; it is out of the frame only until the
refutations are checked. -/
theorem neat_weaken : Neat (Search.weaken (backend M) ob f) := fun x hx => by
  refine .bind (.bind (.bind (tidies_step fun weaker w _ => .bind (.bind (.bind ?_)))))
  refine Action.Yields.imp (tidies_checkRefutations hx.valid) fun _ y hy => ?_
  obtain ⟨s, w'⟩ := y
  obtain ⟨rfl, hguarded⟩ := hy
  exact .bind (neat_report _ ⟨hx.valid, hguarded, rfl⟩)

theorem neat_stage : Neat (Search.stage (backend M) ob f) :=
  .bind neat_report fun _ => .bind (neat_act (idles_checkInductive _)) fun answer =>
    match answer with
    | .unsat => neat_carry
    | .unknown => neat_throw
    | .sat _ _ => .bind neat_weaken fun _ => neat_carry

/-- New members of the frame, counted afterwards. -/
theorem neat_insert {m : Frame → Frame} {next : Unit → SearchM Session α}
    (hm : ∀ frame g, frame.contains g = true → (m frame).contains g = true)
    (hnext : ∀ u, Neat (next u)) : Neat (Search.change (fun s => { s with frame := m s.frame }) >>=
      fun _ => Search.countFrame >>= next) := fun x hx =>
  .bind (.bind (hnext () _ (hx.widen rfl (hm x.1.frame) rfl (.refl _))))

theorem neat_refine {counter : Formula} : Neat (Search.refine (backend M) ob f counter) :=
  .bind neat_negate fun _ => .bind neat_report fun _ => .bind neat_state fun _ =>
    .bind (neat_act (idles_learnForward _ _)) fun forward => .bind neat_report fun _ =>
      .bind neat_addToFrame fun _ => neat_insert (m := fun frame => frame.insert forward)
        (fun _ _ hin => Frame.contains_insert.mpr (Or.inr hin)) fun _ => .bind neat_state fun _ =>
          .bind (neat_change fun _ => ⟨rfl, rfl, rfl⟩) fun _ => .bind neat_checkedAdd fun _ =>
            .bind neat_report fun _ => .bind neat_enqueue fun _ => neat_pure

theorem neat_answerCounter {counter : Formula} {model : List Nat} :
    Neat (Search.answerCounter (backend M) config ob f counter model) :=
  .bind neat_report fun _ => .bind neat_state fun _ => .bind neat_ofExcept fun _ =>
    .bind (neat_act (idles_checkReachable _ _ _)) fun _ => .bind neat_report fun _ =>
      neat_ite (.bind neat_failInduction fun _ => neat_pure) neat_refine

theorem neat_push : Neat (Search.push (backend M) config ob) :=
  .bind neat_report fun _ => .bind neat_negate fun _ =>
    .bind (neat_act (idles_checkInductive _)) fun answer =>
      match answer with
      | .unsat => neat_stage
      | .unknown => neat_throw
      | .sat none _ => neat_throw
      | .sat (some _) none => neat_throw
      | .sat (some _) (some _) => neat_answerCounter

/-! Rounds. -/

theorem neat_drain : ∀ fuel : Nat, Neat (Search.drain (backend M) config fuel)
  | 0 => neat_throw
  | fuel + 1 => .bind neat_state fun _ => neat_ite neat_pure (.bind neat_pop fun _ =>
      .bind neat_push fun _ => neat_ite (.bind neat_enqueue fun _ => neat_drain fuel)
        (neat_drain fuel))

theorem neat_drainFrame {fuel : Nat} : Neat (Search.drainFrame (backend M) config fuel) :=
  .bind (neat_drain fuel) fun _ => neat_ite (.bind (.bind neat_state fun _ =>
    .bind (neat_act (idles_saveGraph _ _)) fun _ => neat_report) fun _ => neat_pure) neat_pure

theorem tidies_clearFrame {depth : Nat} (hagenda : x.1.agenda = .empty) :
    Tidies (Search.clearFrame (backend M) depth) x fun _ y => Tidy y := by
  have hreset : Action.Yields ((backend M).oracle.reset depth) x.2
      (fun fault _ => ¬ Writing fault) fun _ _ => True := by
    change Action.Yields (if depth = 0 then _ else _) _ _ _
    refine .ite (fun _ => ?_) fun _ => trivial
    rintro ⟨_, ⟨⟩⟩
  refine .bind (.within (.bind (.within (hreset.mono (fun _ _ h hwriting => absurd hwriting h)
    fun _ w _ => ?_))))
  obtain ⟨⟨frame, agenda⟩, w₀⟩ := x
  obtain rfl : agenda = .empty := hagenda
  exact ⟨Agenda.empty_valid, nofun, rfl⟩

theorem neat_deepen : Neat (Search.deepen (backend M)) := fun x hx => by
  refine .bind (.bind (.bind (.bind ?_)))
  rw [Search.checkedAdd]
  cases (backend M).machine.add x.1.index 1 with
  | error v => exact fun h => absurd h not_writing_violation
  | ok depth =>
      exact .bind (.bind (Action.Yields.imp (tidies_clearFrame rfl) fun _ _ hy =>
        .bind (hy.extend rfl rfl rfl (.refl _))))

theorem neat_restore : Neat (Search.restore (backend M) ob) :=
  .bind neat_negate fun _ => .bind neat_addToFrame fun _ => .bind neat_addToFrame fun _ =>
    neat_enqueue

theorem neat_checkRefutations : Neat (Search.checkRefutations (backend M)) := fun x hx =>
  (tidies_checkRefutations hx.valid).imp fun _ y hy => by
    obtain ⟨s, w⟩ := y
    obtain ⟨rfl, hguarded⟩ := hy
    exact ⟨hx.valid, hguarded, hx.counted⟩

theorem neat_rebuild : Neat (Search.rebuild (backend M)) := by
  refine .bind neat_state fun s => .bind (neat_change fun _ => ⟨rfl, rfl, rfl⟩) fun _ =>
    .bind (neat_forM (fun _ => neat_restore) _) fun _ => ?_
  refine neat_insert (m := fun frame => s.staged.foldl (fun frame ob => frame.insert ob.forward)
    frame) (fun _ _ hin => Frame.contains_foldl_insert.mpr (Or.inr hin)) fun _ => ?_
  exact .bind (neat_change fun _ => ⟨rfl, rfl, rfl⟩) fun _ => .bind neat_checkRefutations fun _ =>
    .bind neat_state fun _ => .bind neat_state fun _ => .bind neat_checkedAdd fun _ =>
      neat_change fun _ => ⟨rfl, rfl, rfl⟩

theorem tidies_keep {obs : List Obligation} : Tidies (obs.filterM fun ob => do
    return (← Search.state).frame.contains (← Search.negate (backend M) ob.counter)) x
      fun kept y => kept.Sublist obs ∧ y.1 = x.1 := by
  have hask : ∀ (ob : Obligation) (y : Search × Session), y.1 = x.1 → Tidies (do
      return (← Search.state).frame.contains (← Search.negate (backend M) ob.counter)) y
        fun _ z => z.1 = x.1 := fun ob y hy =>
    .bind (.bind (tidies_negate.imp fun _ _ hz => hz.1.trans hy))
  exact Action.yields_filterM hask rfl

/-- A relocation tidies up, whatever it finds. -/
theorem tidies_relocate {r : Relocation} :
    Tidies (Search.relocate (backend M) r) x fun _ y => Tidy y := by
  obtain ⟨lost, agenda, hrelocate, hagenda, _, _⟩ := Agenda.relocate_eq x.1.agenda r
  refine .bind (.ite (fun _ => .bind (.bind ?_)) fun _ => .bind fun h =>
    absurd h not_writing_violation)
  change Action.Yields (Action.ofExcept (x.1.agenda.relocate r) >>= _) _ _ _
  rw [hrelocate]
  refine .bind (.bind (Action.Yields.imp tidies_keep fun kept y hy => ?_))
  obtain ⟨hsub, hsame⟩ := hy
  obtain ⟨agenda', hlist, hagenda', _, _⟩ :=
    Agenda.ofList_eq ((hsub.map _).nodup hagenda.nodup_bySlot)
  refine .bind ?_
  rw [hlist]
  refine .bind (.bind (Action.Yields.imp (tidies_checkRefutations hagenda') fun _ z hz => ?_))
  obtain ⟨s, w⟩ := z
  obtain ⟨rfl, hguarded⟩ := hz
  exact .bind (tidies_change (.bind (tidies_update (.bind (tidies_update (.bind (tidies_change
    (.bind (tidies_change (neat_report _ ⟨hagenda', hguarded, rfl⟩))))))))))

theorem neat_showInvariant : Neat (Search.showInvariant (backend M) config) :=
  neat_ite (.bind neat_state fun _ => neat_forM (fun _ => neat_report) _) neat_pure

theorem neat_advance : Neat (Search.advance (backend M) config) := by
  refine .bind neat_deepen fun _ => .bind neat_state fun _ => neat_ite
    (.bind neat_report fun _ => neat_pure) (.bind neat_rebuild fun _ x hx => ?_)
  refine .bind (Action.Yields.within ?_)
  rw [Action.Yields]
  rcases sweep_cases (M := M) x.2 with hrun | ⟨journal, _, hrun⟩
  · rw [hrun]
    exact hx
  · rw [hrun]
    exact .bind tidies_relocate

theorem neat_rounds : ∀ bound fuel : Nat, Neat (Search.rounds (backend M) config bound fuel)
  | 0, _ => neat_throw
  | bound + 1, _ => .bind neat_drainFrame fun _ => .bind (neat_change fun _ => ⟨rfl, rfl, rfl⟩)
      fun _ => .bind neat_state fun _ => neat_ite neat_pure (neat_ite
        (.bind neat_showInvariant fun _ => neat_pure) (.bind neat_advance fun _ =>
          neat_ite (neat_rounds bound _) neat_pure))

theorem idles_queryInit : Idles (queryInit f) :=
  .bind (idles_of_same fun _ => rfl) fun _ => .bind (idles_ofChecked _) fun _ =>
    .bind (idles_of_same fun _ => by cases StateSet.inter _ _ <;> rfl) fun common => by
      cases common.first <;> exact idles_of_same fun _ => rfl

theorem neat_addProperty : ∀ (fuel : Nat) (p : Formula),
    Neat (Search.addProperty (backend M) fuel p)
  | 0, _ => neat_throw
  | fuel + 1, p => .bind neat_ask fun conjuncts =>
      match conjuncts with
      | some fs => neat_allM (neat_addProperty fuel) fs
      | none => .bind neat_negate fun negation => .bind (neat_act idles_queryInit) fun answer =>
          match answer with
          | .unknown => neat_throw
          | .sat none => neat_throw
          | .sat (some _) => .bind neat_report fun _ => .bind (neat_update fun _ => rfl) fun _ =>
              .bind (neat_change fun _ => ⟨rfl, rfl, rfl⟩) fun _ => neat_pure
          | .unsat => .bind neat_state fun _ =>
              have hlast : Neat (do
                  Search.bump (σ := Session) negation
                  Search.change fun s => { s with lineage := s.lineage.addProperty p }
                  return true) :=
                .bind neat_bump fun _ => .bind (neat_change fun _ => ⟨rfl, rfl, rfl⟩) fun _ =>
                  neat_pure
              neat_ite hlast (.bind neat_addToFrame fun _ => .bind neat_addToFrame fun _ =>
                .bind neat_enqueue fun _ => hlast)

theorem neat_conclude {outcome : Outcome} : Neat (Search.conclude (σ := Session) outcome) :=
  .bind (neat_change fun _ => ⟨rfl, rfl, rfl⟩) fun _ => neat_pure

theorem neat_loop {fuel : Nat} : Neat (Search.loop (backend M) config fuel) :=
  .bind neat_report fun _ => neat_attempt (neat_rounds fuel fuel)
    (fun _ => .bind (neat_change fun _ => ⟨rfl, rfl, rfl⟩) fun _ => .bind neat_ofAttempt fun _ =>
      .bind neat_report fun _ => neat_conclude)
    fun _ _ he => .bind (tidies_change (.bind fun hwriting => absurd hwriting he))

theorem tidies_run {fuel : Nat} {p : Formula} {w : Session} :
    Tidies (Search.run (backend M) config fuel p) (.blank, w) fun _ y => Tidy y := by
  rw [Search.run_eq, Search.enter]
  refine .bind (.bind (.within ?_))
  rw [Action.Yields]
  cases (backend M).terms.validate p w with
  | error fault w => exact fun _ => .blank
  | ok _ w =>
      refine .bind (.bind (Action.Yields.bind ?_))
      refine Action.Yields.imp (tidies_clearFrame rfl) fun _ x hx => ?_
      refine (neat_addProperty fuel p x hx).imp fun answer y hy => ?_
      exact neat_ite neat_loop (.bind neat_report fun _ => neat_conclude) y hy

end Invariance.FiniteState
