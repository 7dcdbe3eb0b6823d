import Invariance.Proofs.FiniteState.Ledger
import Invariance.Proofs.FiniteState.Twins.Sessions

/-!
Two searches side by side, on sessions that are abreast. Each move of the first is a move of the
second, with the same answer up to twins.
-/

namespace Invariance.FiniteState

open Universe Session

variable {M : Machine} {k : Nat} {α β γ δ : Type} {x y x' y' x'' y'' : Search × Session}
  {f g : Formula}

structure Alongside (k : Nat) (x y : Search × Session) : Prop where
  search : x.1.Alike (Twin x.2.terms y.2.terms) y.1
  session : Abreast k x.2 y.2

structure Further (k : Nat) (x y x' y' : Search × Session) : Prop where
  alongside : Alongside k x' y'
  left : Extends x.2.terms x'.2.terms
  right : Extends y.2.terms y'.2.terms

/-- Where a fault leaves the two: an error closes the scopes that it finds open, a broken contract
does not. -/
def Parted (k : Nat) (fault : Fault) (x y : Search × Session) : Prop :=
  ∃ j, (∀ e, fault = .error e → j = k) ∧ Alongside j x y

def Attends (k : Nat) (V : α → β → Session → Session → Prop) (act : SearchM Session α)
    (act' : SearchM Session β) (x y : Search × Session) : Prop :=
  act.Tracks act' x y (Parted k) fun a b x' y' => Further k x y x' y' ∧ V a b x'.2 y'.2

namespace Alongside

theorem matching (h : Alongside k x y) : Matching (Twin x.2.terms y.2.terms) := h.session.matching

theorem further (h : Alongside k x y) : Further k x y x y := ⟨h, .refl _, .refl _⟩

theorem parted (h : Alongside k x y) (fault : Fault) : Parted k fault x y := ⟨k, fun _ _ => rfl, h⟩

theorem onward (h : Alongside k x y) {w w' : Session} (hw : Onward k x.2 y.2 w w') :
    Further k x y (x.1, w) (y.1, w') :=
  ⟨⟨h.search.mono hw.twin, hw.abreast⟩, hw.left, hw.right⟩

theorem change (h : Alongside k x y) {s s' : Search} (hs : s.Alike (Twin x.2.terms y.2.terms) s') :
    Further k x y (s, x.2) (s', y.2) :=
  ⟨⟨hs, h.session⟩, .refl _, .refl _⟩

end Alongside

namespace Further

theorem trans (h : Further k x y x' y') (h' : Further k x' y' x'' y'') : Further k x y x'' y'' :=
  ⟨h'.alongside, h.left.trans h'.left, h.right.trans h'.right⟩

theorem twin (h : Further k x y x' y') (hfg : Twin x.2.terms y.2.terms f g) :
    Twin x'.2.terms y'.2.terms f g :=
  hfg.extend h.left h.right

theorem obligation (h : Further k x y x' y') {a b : Obligation}
    (hab : a.Alike (Twin x.2.terms y.2.terms) b) : a.Alike (Twin x'.2.terms y'.2.terms) b :=
  hab.mono h.twin

end Further

variable {V : α → β → Session → Session → Prop} {W : γ → δ → Session → Session → Prop}

theorem Attends.bind {act : SearchM Session α} {act' : SearchM Session β}
    {next : α → SearchM Session γ} {next' : β → SearchM Session δ} (h : Attends k V act act' x y)
    (hnext : ∀ a b x' y', Further k x y x' y' → V a b x'.2 y'.2 →
      Attends k W (next a) (next' b) x' y') :
    Attends k W (act >>= next) (act' >>= next') x y :=
  Action.Tracks.bind (h.imp fun a b x' y' hab => (hnext a b x' y' hab.1 hab.2).imp
    fun _ _ _ _ hcd => ⟨hab.1.trans hcd.1, hcd.2⟩)

theorem attends_pure {a : α} {b : β} (h : Alongside k x y) (hab : V a b x.2 y.2) :
    Attends k V (pure a) (pure b) x y :=
  Action.tracks_pure ⟨h.further, hab⟩

theorem attends_throw {fault : Fault} (h : Alongside k x y) :
    Attends k V (throw fault) (throw fault) x y :=
  Action.tracks_throw (h.parted fault)

theorem attends_state {next : Search → SearchM Session α} {next' : Search → SearchM Session β}
    (h : Attends k V (next x.1) (next' y.1) x y) :
    Attends k V (Search.state >>= next) (Search.state >>= next') x y :=
  Action.Tracks.bind (Search.tracks_state h)

theorem attends_ask {a : Session → γ} {b : Session → δ} {next : γ → SearchM Session α}
    {next' : δ → SearchM Session β} (h : Attends k V (next (a x.2)) (next' (b y.2)) x y) :
    Attends k V (Search.ask a >>= next) (Search.ask b >>= next') x y :=
  Action.Tracks.bind (Search.tracks_ask h)

theorem attends_change {s s' : Search → Search} (h : Alongside k x y)
    (hs : (s x.1).Alike (Twin x.2.terms y.2.terms) (s' y.1)) :
    Attends k Same (Search.change s) (Search.change s') x y :=
  Search.tracks_change ⟨h.change hs, rfl⟩

theorem attends_update {m m' : Session → Session} (h : Alongside k x y)
    (hw : Onward k x.2 y.2 (m x.2) (m' y.2)) :
    Attends k Same (Search.update m) (Search.update m') x y :=
  Search.tracks_update ⟨h.onward hw, rfl⟩

theorem attends_act {act : Action Session α} {act' : Action Session β} (h : Alongside k x y)
    (hact : Mirrors k V act act' x.2 y.2) : Attends k V (Search.act act) (Search.act act') x y :=
  Search.tracks_act (hact.mono (fun fault _ _ hw => (h.onward hw).alongside.parted fault)
    fun _ _ _ _ hab => ⟨h.onward hab.1, hab.2⟩)

theorem attends_ofExcept {e : Except Violation γ} {e' : Except Violation δ}
    {next : γ → SearchM Session α} {next' : δ → SearchM Session β} (h : Alongside k x y)
    (hok : ∀ a, e = .ok a → ∃ b, e' = .ok b ∧ Attends k V (next a) (next' b) x y)
    (herror : ∀ v, e = .error v → (Fault.violation v).Shared → e' = .error v) :
    Attends k V (Action.ofExcept e >>= next) (Action.ofExcept e' >>= next') x y :=
  Action.Tracks.bind (Action.tracks_ofExcept h.parted hok herror)

/-- A contract that names formulas: where the first one meets it, so does the second. -/
theorem attends_unless {c c' : Prop} [Decidable c] [Decidable c'] {v : Violation}
    {next : γ → SearchM Session α} {act : SearchM Session α} {act' other : SearchM Session β}
    (hv : ¬ (Fault.violation v).Shared) (hc : c → c') (hact : Attends k V act act' x y) :
    Attends k V (if c then act else Action.violate v >>= next) (if c' then act' else other)
      x y := by
  by_cases h : c
  · rw [if_pos h, if_pos (hc h)]
    exact hact
  · rw [if_neg h]
    exact fun hshared => absurd hshared hv

theorem attends_when {c c' : Prop} [Decidable c] [Decidable c'] {v : Violation}
    {next : γ → SearchM Session α} {act : SearchM Session α} {act' other : SearchM Session β}
    (hv : ¬ (Fault.violation v).Shared) (hc : c' → c) (hact : Attends k V act act' x y) :
    Attends k V (if c then Action.violate v >>= next else act) (if c' then other else act')
      x y := by
  by_cases h : c
  · rw [if_pos h]
    exact fun hshared => absurd hshared hv
  · rw [if_neg h, if_neg fun h' => h (hc h')]
    exact hact

theorem attends_checkedAdd (h : Alongside k x y) (a b : Nat) :
    Attends k Same (Search.checkedAdd (backend M) a b) (Search.checkedAdd (backend M) a b) x y :=
  Action.tracks_ofExcept h.parted (fun n hn => ⟨n, hn, h.further, rfl⟩) fun _ hv _ => hv

theorem attends_report (h : Alongside k x y) {level : Level} {message : String}
    {fields fields' : Search → (Formula → String) → List (String × Field)} :
    Attends k Same (Search.report (backend M) level message fields)
      (Search.report (backend M) level message fields') x y :=
  ⟨(), _, rfl, h.onward (h.session.note _ _), rfl⟩

theorem attends_negate (h : Alongside k x y) (hfg : Twin x.2.terms y.2.terms f g) :
    Attends k Twins (Search.negate (backend M) f) (Search.negate (backend M) g) x y :=
  attends_act h (mirrors_making (·.negate f) (·.negate g) h.session
    (h.session.matched.echoes_negate hfg))

theorem attends_atStep (h : Alongside k x y) (hfg : Twin x.2.terms y.2.terms f g) (j : Nat) :
    Attends k (fun f g w w' => StepTwin w.terms w'.terms f g)
      (Search.step ((backend M).recorder.atStep f j))
      (Search.step ((backend M).recorder.atStep g j)) x y := by
  obtain ⟨hmatched, hleft, hright, htwin⟩ := h.session.matched.atStep hfg j
  refine attends_act h ?_
  exact ⟨_, _, rfl, h.session.grow hmatched hleft hright rfl rfl, htwin⟩

theorem attends_countFrame (h : Alongside k x y) :
    Attends k Same Search.countFrame Search.countFrame x y :=
  attends_change h { h.search with
    stats := by simp only [h.search.stats, h.search.frame.size_eq] }

theorem attends_onFrame {action action' : Action (Frame × Session) Unit} (h : Alongside k x y)
    (hact : action.Tracks action' (x.1.frame, x.2) (y.1.frame, y.2)
      (fun _ a b => Onward k x.2 y.2 a.2 b.2 ∧ a.1.Alike (Twin a.2.terms b.2.terms) b.1)
      fun _ _ a b => Onward k x.2 y.2 a.2 b.2 ∧ a.1.Alike (Twin a.2.terms b.2.terms) b.1) :
    Attends k Same (Search.onFrame action) (Search.onFrame action') x y := by
  refine Search.tracks_onFrame (hact.mono (fun fault a b hab => ?_) fun _ _ a b hab => ?_)
  · refine Alongside.parted ⟨?_, hab.1.abreast⟩ fault
    exact { h.search.mono hab.1.twin with frame := hab.2 }
  · refine ⟨⟨⟨?_, hab.1.abreast⟩, hab.1.left, hab.1.right⟩, rfl⟩
    exact { h.search.mono hab.1.twin with
      frame := hab.2, stats := by simp only [h.search.stats, hab.2.size_eq] }

theorem attends_addToFrame (h : Alongside k x y) (hfg : Twin x.2.terms y.2.terms f g)
    (role : Role) :
    Attends k Same (Search.addToFrame (backend M) f role) (Search.addToFrame (backend M) g role)
      x y := by
  refine attends_onFrame h (Action.Tracks.bind (Action.tracks_get (Action.Tracks.bind
    (Action.tracks_ofExcept (fun _ => ⟨.refl h.session, h.search.frame⟩) (fun frame hframe => ?_)
      fun v hv hshared => ?_))))
  · obtain ⟨frame', hframe', halike⟩ := h.search.frame.enter h.matching hfg hframe
    refine ⟨frame', hframe', Action.Tracks.bind (Action.tracks_modify (Action.tracks_within ?_))⟩
    refine (mirrors_register h.session hfg role).mono (fun _ w w' hw => ?_) fun _ _ w w' hw => ?_
    · exact ⟨hw, halike.mono hw.twin⟩
    · exact ⟨hw.1, halike.mono hw.1.twin⟩
  · cases role with
    | first =>
        rw [Frame.enter] at hv
        split at hv
        next => cases hv; exact hshared.elim
        next => cases hv
    | intermediate =>
        rw [Frame.enter] at hv
        split at hv
        next => cases hv; exact hshared.elim
        next => cases hv

theorem attends_clearFrame (h : Alongside k x y) (depth : Nat) :
    Attends k Same (Search.clearFrame (backend M) depth) (Search.clearFrame (backend M) depth)
      x y := by
  refine attends_onFrame h (Action.Tracks.bind (Action.tracks_modify (Action.tracks_within ?_)))
  exact (mirrors_reset h.session depth).mono (fun _ _ _ hw => ⟨hw, .empty⟩)
    fun _ _ _ _ hw => ⟨hw.1, .empty⟩

theorem attends_enqueue (h : Alongside k x y) {a b : Obligation}
    (hab : a.Alike (Twin x.2.terms y.2.terms) b) :
    Attends k Same (Search.enqueue (backend M) a) (Search.enqueue (backend M) b) x y := by
  rw [Search.enqueue, Search.enqueue]
  refine (attends_negate h hab.counter).bind fun f g x₁ y₁ hx₁ hfg => ?_
  have h₁ := hx₁.alongside
  refine attends_state (attends_unless id (fun hin => ?_) (attends_ofExcept h₁
    (fun r hpush => ?_) fun v hv hshared => ?_))
  · rwa [← h₁.search.frame.contains_eq h₁.matching hfg]
  · obtain ⟨slot, agenda⟩ := r
    obtain ⟨slot', agenda', hpush', halike⟩ :=
      h₁.search.agenda.push h₁.matching (hx₁.obligation hab) hpush
    refine ⟨_, hpush',
      attends_change h₁ { h₁.search with agenda := halike, stats := ?_, counted := rfl }⟩
    simp only [h₁.search.stats, halike.size_eq]
  · by_cases hin : x₁.1.agenda.contains a.counter
    · rw [Agenda.push, if_pos hin] at hv
      cases hv
      exact hshared.elim
    · obtain ⟨_, _, hpush, _⟩ :=
        h₁.search.agenda.valid.1.refines_table.push (Bool.eq_false_iff.mpr hin)
      rw [hpush] at hv
      cases hv

theorem attends_pop (h : Alongside k x y) (hne : x.1.agenda.isEmpty = false) :
    Attends k (fun a b w w' => a.Alike (Twin w.terms w'.terms) b) Search.pop Search.pop x y := by
  obtain ⟨a, agenda, b, agenda', hpop, hpop', hab, halike⟩ := h.search.agenda.pop h.matching hne
  rw [Search.pop]
  refine attends_state (attends_ofExcept h (fun r hr => ?_) fun v hv => ?_)
  · obtain rfl := Except.ok.inj (hpop.symm.trans hr)
    have hstats : { x.1.stats with queueSize := agenda.size } =
        { y.1.stats with queueSize := agenda'.size } := by rw [h.search.stats, halike.size_eq]
    exact ⟨_, hpop', (attends_change h { h.search with
      agenda := halike, stats := hstats, counted := rfl }).bind fun _ _ x₁ y₁ hx₁ _ =>
        attends_pure hx₁.alongside (hx₁.obligation hab)⟩
  · rw [hpop] at hv
    cases hv

theorem attends_bump (h : Alongside k x y) (hfg : Twin x.2.terms y.2.terms f g) :
    Attends k Same (Search.bump f) (Search.bump g) x y := by
  obtain ⟨found, agenda, agenda', hbump, hbump', halike⟩ :=
    h.search.agenda.bump h.matching hfg .one
  rw [Search.bump, Search.bump]
  refine attends_state (attends_ofExcept h (fun r hr => ?_) fun v hv => ?_)
  · obtain rfl := Except.ok.inj (hbump.symm.trans hr)
    obtain ⟨_, hbump'', _, hsize, _⟩ := Agenda.bump_eq h.search.agenda.valid.2 g .one
    obtain ⟨-, rfl⟩ := Prod.mk.inj (Except.ok.inj (hbump'.symm.trans hbump''))
    exact ⟨_, hbump', attends_change h { h.search with
      agenda := halike, counted := h.search.counted.trans hsize.symm }⟩
  · rw [hbump] at hv
    cases hv

theorem attends_markInvalid (h : Alongside k x y) (hfg : Twin x.2.terms y.2.terms f g)
    (frame : Nat) :
    Attends k Same (Search.markInvalid f frame) (Search.markInvalid g frame) x y := by
  rw [Search.markInvalid, Search.markInvalid]
  refine attends_state (attends_unless id (fun hle => by rwa [← h.search.index])
    (attends_ofExcept h (fun l hl => ?_) fun v hv hshared => ?_))
  · obtain ⟨l', hl', halike⟩ := h.search.lineage.markInvalid h.matching hfg hl
    exact ⟨l', hl', attends_change h { h.search with lineage := halike }⟩
  · rw [Lineage.markInvalid] at hv
    split at hv
    next =>
      cases hv
      exact hshared.elim
    next => cases hv

/-! Refutations. -/

/-- The refutation of every obligation is a member of the frame. -/
def Backs (u : Universe) (obs : List Obligation) (frame : Frame) : Prop :=
  ∀ ob ∈ obs, ∃ f, Refutes u f ob ∧ frame.contains f = true

def Backed (x : Search × Session) : Prop := Backs x.2.terms x.1.agenda.bySlot x.1.frame

section

variable {u v : Universe} {a b : Obligation} {q q' : Agenda} {frame frame' : Frame}

theorem Refutes.right (hm : Matched u v) (hab : a.Alike (Twin u v) b) (hf : Refutes u f a) :
    ∃ g, Refutes v g b ∧ Twin u v f g := by
  obtain ⟨c, hc, hf⟩ := hf
  obtain ⟨g, hg⟩ := (hm.named _).mp ⟨f, hf⟩
  obtain ⟨s, hs, hs'⟩ := hab.counter
  obtain rfl := hs.eq hc
  exact ⟨g, ⟨s, hs', hg⟩, _, hf, hg⟩

theorem Refutes.left (hm : Matched u v) (hab : a.Alike (Twin u v) b) (hg : Refutes v g b) :
    ∃ f, Refutes u f a ∧ Twin u v f g := by
  obtain ⟨c, hc, hg⟩ := hg
  obtain ⟨f, hf⟩ := (hm.named _).mpr ⟨g, hg⟩
  obtain ⟨s, hs, hs'⟩ := hab.counter
  obtain rfl := hs'.eq hc
  exact ⟨f, ⟨s, hs, hf⟩, _, hf, hg⟩

theorem Backs.right (h : Backs u q.bySlot frame) (hm : Matched u v)
    (hq : q.Alike (Twin u v) q') (hframe : frame.Alike (Twin u v) frame') :
    Backs v q'.bySlot frame' := by
  intro b hb
  obtain ⟨a, ha, hab⟩ := hq.exists_left hb
  obtain ⟨f, hf, hin⟩ := h a ha
  obtain ⟨g, hg, hfg⟩ := hf.right hm hab
  exact ⟨g, hg, (hframe.contains_eq hm.matching hfg).symm.trans hin⟩

theorem Backs.left (h : Backs v q'.bySlot frame') (hm : Matched u v)
    (hq : q.Alike (Twin u v) q') (hframe : frame.Alike (Twin u v) frame') :
    Backs u q.bySlot frame := by
  intro a ha
  obtain ⟨b, hb, hab⟩ := hq.exists_right ha
  obtain ⟨g, hg, hin⟩ := h b hb
  obtain ⟨f, hf, hfg⟩ := hg.left hm hab
  exact ⟨f, hf, (hframe.contains_eq hm.matching hfg).trans hin⟩

end

theorem run_negate (hu : x.2.terms.Canonical) {ob : Obligation} (hf : Refutes x.2.terms f ob) :
    Search.negate (backend M) ob.counter x = .ok f x := by
  obtain ⟨c, hc, hfc⟩ := hf
  have hnegate : x.2.terms.negate ob.counter = .ok (f, x.2.terms) := by
    rw [negate, Universe.eval_eq hc]
    exact ofSet_of_names hu hfc
  obtain ⟨s, w⟩ := x
  change Action.within Prod.snd (fun w s => (s.1, w)) (Action.ofStep (making (·.negate ob.counter)))
    (s, w) = _
  simp only [Action.within, Action.ofStep, making]
  rw [hnegate]

namespace Alongside

theorem named_frame (h : Alongside k x y) (hf : x.1.frame.contains f = true) :
    ∃ s, x.2.terms.Names f s := by
  obtain ⟨_, hget⟩ := FormulaMap.contains_iff.mp hf
  obtain ⟨g, _, ⟨s, hs, _⟩, _, _⟩ := h.search.frame.members.exists_right hget
  exact ⟨s, hs⟩

theorem named_counter (h : Alongside k x y) {ob : Obligation} (hob : ob ∈ x.1.agenda.bySlot) :
    ∃ s, x.2.terms.Names ob.counter s := by
  obtain ⟨b, _, hab⟩ := h.search.agenda.exists_right hob
  obtain ⟨s, hs, _⟩ := hab.counter
  exact ⟨s, hs⟩

theorem backed (h : Alongside k x y) (hx : Backed x) : Backed y :=
  Backs.right hx h.session.matched h.search.agenda h.search.frame

end Alongside

def recheck (M : Machine) (ob : Obligation) : SearchM Session PUnit := do
  let refutation ← Search.negate (backend M) ob.counter
  unless (← Search.state).frame.contains refutation do
    Action.violate (.refutationLost ob.counter)

theorem recheck_eq (hu : x.2.terms.Canonical) {ob : Obligation} (hf : Refutes x.2.terms f ob)
    (hin : x.1.frame.contains f = true) : recheck M ob x = .ok ⟨⟩ x := by
  have hrun := run_negate (M := M) hu hf
  simp only [recheck, bind, EStateM.bind, hrun, Search.state, hin, if_true]
  rfl

/-- Only a refutation that is a member already passes, so the check leaves everything as it is. -/
theorem ends_recheckAll (h : Alongside k x y) : ∀ {obs : List Obligation},
    (∀ ob ∈ obs, ∃ c, x.2.terms.Names ob.counter c) →
    Action.Ends (obs.forM (recheck M)) x (fun fault => ¬ fault.Shared) fun _ x' =>
      x' = x ∧ Backs x.2.terms obs x.1.frame
  | [], _ => ⟨rfl, nofun⟩
  | ob :: obs, hnamed => by
      obtain ⟨⟨c, hc⟩, hrest⟩ := List.forall_mem_cons.mp hnamed
      change Action.Ends (recheck M ob >>= fun _ => obs.forM (recheck M)) x _ _
      rw [Action.ends_bind]
      by_cases hbacked : ∃ f, Refutes x.2.terms f ob ∧ x.1.frame.contains f = true
      · obtain ⟨f, hf, hin⟩ := hbacked
        rw [Action.Ends, recheck_eq h.session.matched.left hf hin]
        refine (ends_recheckAll h hrest).imp fun _ x' hx' => ⟨hx'.1, ?_⟩
        exact List.forall_mem_cons.mpr ⟨⟨f, hf, hin⟩, hx'.2⟩
      · obtain ⟨g, u, hnegate, hmade⟩ := negate_eq h.session.matched.left hc
        have hout : x.1.frame.contains g = false := Bool.eq_false_iff.mpr fun hin => by
          obtain ⟨s, hs⟩ := h.named_frame hin
          obtain rfl : c.complement = s := Names.eq hmade.stored (hmade.grows.names hs)
          exact hbacked ⟨g, ⟨c, hc, hs⟩, hin⟩
        have hrun : Search.negate (backend M) ob.counter x =
            .ok g (x.1, { x.2 with terms := u }) := by
          change Action.within Prod.snd (fun w s => (s.1, w))
            (Action.ofStep (making (·.negate ob.counter))) x = _
          simp only [Action.within, Action.ofStep, making, hnegate]
        rw [recheck, Action.ends_bind, Action.Ends, hrun]
        simp only [Action.ends_bind, Search.ends_state, hout, Bool.false_eq_true, if_false,
          Action.ends_violate]
        exact id

theorem forM_recheck_eq (hu : x.2.terms.Canonical) {obs : List Obligation}
    (hobs : Backs x.2.terms obs x.1.frame) : obs.forM (recheck M) x = .ok ⟨⟩ x := by
  induction obs with
  | nil => rfl
  | cons ob obs ih =>
      obtain ⟨⟨f, hf, hin⟩, hrest⟩ := List.forall_mem_cons.mp hobs
      change EStateM.bind (recheck M ob) (fun _ => obs.forM (recheck M)) x = _
      rw [EStateM.bind, recheck_eq hu hf hin]
      exact ih hrest

theorem checkRefutations_eq (hq : x.1.agenda.Valid) : ∃ obs : List Obligation,
    (∀ ob, ob ∈ obs ↔ ob ∈ x.1.agenda.bySlot) ∧
      Search.checkRefutations (backend M) x = obs.forM (recheck M) x := by
  obtain ⟨obs, hobs, _, _, hmem⟩ := hq.toList_eq
  refine ⟨obs, fun ob => hmem.trans hq.mem_bySlot_iff.symm, ?_⟩
  change EStateM.bind Search.state (fun s => do
    let waiting ← Action.ofExcept s.agenda.toList
    waiting.forM (recheck M)) x = _
  simp only [EStateM.bind, Search.state, hobs]
  rfl

theorem checkRefutations_of_backed (hu : x.2.terms.Canonical) (hq : x.1.agenda.Valid)
    (hx : Backed x) : Search.checkRefutations (backend M) x = .ok () x := by
  obtain ⟨obs, hmem, hrun⟩ := checkRefutations_eq (M := M) hq
  rw [hrun]
  exact forM_recheck_eq hu fun ob hob => hx ob ((hmem ob).mp hob)

theorem tracks_checkRefutations (h : Alongside k x y) :
    (Search.checkRefutations (backend M)).Tracks (Search.checkRefutations (backend M)) x y
      (Parted k) fun _ _ x' y' => x' = x ∧ y' = y ∧ Backed x := by
  obtain ⟨obs, hmem, hrun⟩ := checkRefutations_eq (M := M) h.search.agenda.valid.1
  have hends : Action.Ends (obs.forM (recheck M)) x _ _ :=
    ends_recheckAll h fun ob hob => h.named_counter ((hmem ob).mp hob)
  rw [Action.Tracks, hrun]
  cases hobs : obs.forM (recheck M) x with
  | ok a x' =>
      obtain ⟨rfl, hbacked⟩ := hends.of_ok hobs
      have hx : Backed x' := fun ob hob => hbacked ob ((hmem ob).mpr hob)
      exact ⟨(), y, checkRefutations_of_backed h.session.matched.right h.search.agenda.valid.2
        (h.backed hx), rfl, rfl, hx⟩
  | error fault x' =>
      rw [Action.Ends, hobs] at hends
      exact fun hshared => absurd hshared hends

theorem attends_checkRefutations (h : Alongside k x y) :
    Attends k Same (Search.checkRefutations (backend M)) (Search.checkRefutations (backend M))
      x y :=
  (tracks_checkRefutations h).imp fun _ _ _ _ hx => by
    obtain ⟨rfl, rfl, _⟩ := hx
    exact ⟨h.further, rfl⟩

end Invariance.FiniteState
