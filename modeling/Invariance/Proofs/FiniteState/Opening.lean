import Invariance.Proofs.FiniteState.Extension

/-!
The first frame, move by move. Pushing an obligation stages it, or learns an obligation more and
leaves one clear state less, or disproves the property; what is known of frame, solver and lineage
is known again afterwards.
-/

namespace Invariance.FiniteState

open Universe Session TransitionSystem

variable {M : Machine} {sys : TransitionSystem} {w₀ : Session} {P : Formula → Prop}
  {held : List Obligation} {n : Nat} {s : Search} {w : Session} {E : Fault → Prop}

def owed (held : List Obligation) (s : Search) : List Obligation :=
  held ++ (s.agenda.waiting ++ s.staged)

theorem owed_carry (ob : Obligation) (s : Search) (stats : Statistics) :
    (owed [ob] s).Perm (owed [] { s with staged := s.staged ++ [ob], stats }) := by
  simp only [owed, List.nil_append, List.singleton_append, ← List.append_assoc]
  exact (List.perm_append_singleton ob _).symm

/-- What holds while the first frame is worked on with some obligations in hand: at most `n` states
are clear, and `P` says which formulas are registered as properties. -/
structure Opening (sys : TransitionSystem) (w₀ : Session) (P : Formula → Prop)
    (held : List Obligation) (n : Nat) (s : Search) (w : Session) : Prop where
  sound : Sound sys w
  base : Extends w₀.terms w.terms
  mode : w.forward = w₀.forward
  layers : w.reach.layers = #[sys.init]
  asserted : w.paths.asserted = []
  deep : w.induction.depth = 1
  between : w.terms.Named w.induction.intermediate
  index : s.index = 0
  depth : s.depth = 1
  agenda : s.agenda.Valid
  duties : Duties sys w.forward w.terms (owed held s)
  covers : Covers sys w.terms (owed held s) s.frame
  assumes : Assumes sys w.terms (owed held s) s.staged w.induction.first
  descends : Descends sys w.terms (owed held s) s.lineage
  room : Room sys w.terms (owed held s) n
  bounded : s.lineage.size + n ≤ sys.size
  counted : (owed held s).length + n ≤ w₀.terms.length + sys.size
  unmarked : s.lineage.invalid = .empty
  undecided : s.lineage.propertyInvalid = false
  properties : ∀ p, s.lineage.isProperty p = true ↔ P p

/-- The property is disproved although it holds initially: the recorded trace is an initial path,
and it ends outside a property if it was followed; in any case a reachable state is outside one. -/
structure Disproved (sys : TransitionSystem) (w₀ : Session) (P : Formula → Prop)
    (extend : Bool) (s : Search) (w : Session) : Prop where
  sound : Sound sys w
  base : Extends w₀.terms w.terms
  flagged : s.lineage.propertyInvalid = true
  properties : ∀ p, s.lineage.isProperty p = true ↔ P p
  initially : ∀ p r x, P p → w₀.terms.Names p r → sys.Initial x → r.contains x = true
  run : Run sys w.trace
  exposed : extend = true → Exposed w.terms s.lineage w.trace
  violated : ∃ p r y, P p ∧ w.terms.Names p r ∧ sys.Reachable y ∧ r.contains y = false

theorem Exposed.extend {u u' : Universe} {l : Lineage} {trace : List Nat} (h : Exposed u l trace)
    (hext : Extends u u') : Exposed u' l trace := by
  obtain ⟨q, r, hq, hr, hout⟩ := h
  exact ⟨q, r, hq, hext.names hr, hout⟩

theorem Disproved.grow {extend : Bool} {w' : Session} (h : Disproved sys w₀ P extend s w)
    (hgrow : Grows w w') : Disproved sys w₀ P extend s w' where
  sound := hgrow.sound h.sound
  base := h.base.trans hgrow.terms
  flagged := h.flagged
  properties := h.properties
  initially := h.initially
  run := hgrow.trace ▸ h.run
  exposed he := hgrow.trace ▸ (h.exposed he).extend hgrow.terms
  violated := by
    obtain ⟨p, r, y, hp, hr, hy⟩ := h.violated
    exact ⟨p, r, y, hp, hgrow.terms.names hr, hy⟩

namespace Opening

theorem named (h : Opening sys w₀ P held n s w) : w.terms.Named w.induction.first :=
  h.assumes.first_named h.duties

theorem initially (h : Opening sys w₀ P held n s w) {p : Formula} {r : StateSet} {x : Nat}
    (hp : P p) (hr : w₀.terms.Names p r) (hx : sys.Initial x) : r.contains x = true := by
  obtain ⟨ob, hob, hf⟩ := h.descends.literal p ((h.properties p).mpr hp)
  exact h.duties.refutation_of_initial h.sound.canonical h.sound.size hob hf (h.base.names hr) hx

theorem grow {w' : Session} (h : Opening sys w₀ P held n s w) (hgrow : Grows w w') :
    Opening sys w₀ P held n s w' where
  sound := hgrow.sound h.sound
  base := h.base.trans hgrow.terms
  mode := hgrow.forward.trans h.mode
  layers := hgrow.reach ▸ h.layers
  asserted := hgrow.paths ▸ h.asserted
  deep := hgrow.induction ▸ h.deep
  between := hgrow.induction ▸ h.between.extend hgrow.terms
  index := h.index
  depth := h.depth
  agenda := h.agenda
  duties := hgrow.forward ▸ h.duties.extend hgrow.terms
  covers := h.covers.extend h.duties hgrow.terms
  assumes := hgrow.induction ▸ h.assumes.extend h.duties hgrow.terms
  descends := h.descends.extend hgrow.canonical (fun ob hob => by
    obtain ⟨f, hf, _⟩ := h.covers.refuted ob hob
    exact ⟨f, hf⟩) hgrow.terms
  room := h.room.of_clear fun _ => (h.duties.clear_iff hgrow.terms).mp
  bounded := h.bounded
  counted := h.counted
  unmarked := h.unmarked
  undecided := h.undecided
  properties := h.properties

theorem regroup {held' : List Obligation} {agenda : Agenda} {stats : Statistics}
    (h : Opening sys w₀ P held n s w) (hagenda : agenda.Valid)
    (hperm : (held ++ s.agenda.waiting).Perm (held' ++ agenda.waiting)) :
    Opening sys w₀ P held' n { s with agenda, stats } w := by
  have hall : (owed held s).Perm (owed held' { s with agenda, stats }) := by
    rw [owed, owed, ← List.append_assoc, ← List.append_assoc]
    exact hperm.append_right s.staged
  exact { h with
    agenda := hagenda
    duties := h.duties.perm hall
    covers := h.covers.perm hall
    assumes := h.assumes.perm hall
    descends := h.descends.perm hall
    room := h.room.of_clear fun x hx => hx.of_subset fun ob hob => hall.mem_iff.mp hob
    counted := hall.length_eq ▸ h.counted }

theorem weaken {ob : Obligation} {f : Formula} (h : Opening sys w₀ P [ob] n s w)
    (stats : Statistics) (hmin : ∀ o ∈ s.agenda.waiting, ob.depth ≤ o.depth)
    (hf : Refutes w.terms f ob) (hs : Settled sys w.terms (owed [ob] s) f)
    (hnot : ¬ Settled sys w.terms (owed [ob] s) ob.forward) :
    Opening sys w₀ P [{ ob with forward := f }] n
      { s with frame := (s.frame.erase ob.forward).insert f, stats } w := by
  have hd : Duties sys w.forward w.terms (ob :: (s.agenda.waiting ++ s.staged)) := h.duties
  have ha : Assumes sys w.terms (ob :: (s.agenda.waiting ++ s.staged)) s.staged
    w.induction.first := h.assumes
  have hfree : ∀ o ∈ ob :: (s.agenda.waiting ++ s.staged), ¬ Refutes w.terms ob.forward o :=
    fun o ho => not_refutes_of_unsettled h.sound.canonical hd ha
      (fun o ho hout => hmin o ((List.mem_append.mp ho).resolve_right hout)) hf hs hnot ho
  exact { h with
    duties := hd.weaken hf
    covers := h.covers.weaken hf hnot hfree
    assumes := ha.weaken fun o ho => List.mem_append_right _ ho
    descends := h.descends.weaken
    room := h.room.of_clear fun _ => clear_weaken.mp }

theorem learn {ob new : Obligation} {refutation backward : Formula} {a b : Nat} {r : StateSet}
    (h : Opening sys w₀ P [ob] n s w) (stats : Statistics)
    (hl : Learnt sys w.forward w.terms (owed [ob] s) new backward a)
    (hf : Refutes w.terms refutation ob) (hr : w.terms.Names refutation r) (hedge : sys.Edge a b)
    (hb : r.contains b = false) (hdepth : new.depth = ob.depth + 1) :
    ∃ m, n = m + 1 ∧ Opening sys w₀ P [new, ob] m
      { s with
        frame := (s.frame.insert backward).insert new.forward
        lineage := s.lineage.addOrigin backward
          { parent := refutation, refutes := new.counter, depth := s.depth }
        stats }
      { w with induction := w.induction.enter backward .first } := by
  obtain ⟨m, rfl, hroom⟩ := h.room.learn hl hedge.lt_left
  obtain ⟨hnew, hdescends⟩ := h.descends.learn h.sound.canonical h.sound.size hl
    List.mem_cons_self hf hdepth hr hedge hb (o := ⟨refutation, new.counter, s.depth⟩) rfl h.depth
  have hbounded := h.bounded
  have hcounted := h.counted
  exact ⟨m, rfl, { h with
    sound := h.sound.congr rfl rfl
    duties := hl.duties h.duties
    covers := hl.covers h.sound.canonical h.duties h.covers
    assumes := hl.assumes h.assumes
    descends := hdescends
    room := hroom
    bounded := by
      rw [size_addOrigin hnew]
      omega
    counted := by
      change (owed [ob] s).length + 1 + m ≤ _
      omega }⟩

theorem carry {ob : Obligation} {stats : Statistics} (h : Opening sys w₀ P [ob] n s w)
    (hs : Settled sys w.terms (owed [ob] s) ob.forward) :
    Opening sys w₀ P [] n { s with staged := s.staged ++ [ob], stats }
      { w with
        induction := (w.induction.enter ob.forward .first).enter ob.forward .intermediate } := by
  have hin : ob ∈ owed [ob] s := List.mem_cons_self
  have hperm := owed_carry ob s stats
  have hbetween : w.terms.Named (w.induction.intermediate ++ [ob.forward]) :=
    List.forall_mem_append.mpr ⟨h.between, by simpa using h.duties.forward_named hin⟩
  exact { h with
    sound := h.sound.congr rfl rfl
    between := hbetween
    duties := h.duties.perm hperm
    covers := h.covers.perm hperm
    assumes := (h.assumes.stage hin hs).perm hperm
    descends := h.descends.perm hperm
    room := h.room.of_clear fun x hx => hx.of_subset fun o ho => hperm.mem_iff.mp ho
    counted := hperm.length_eq ▸ h.counted }

end Opening

theorem ends_checkStep (hw : Sound sys w) (hdeep : w.induction.depth = 1)
    (hfirst : w.terms.Named w.induction.first) (hbetween : w.terms.Named w.induction.intermediate)
    (hM : M.Fits 2) {f : Formula} {r : StateSet} (hf : w.terms.Names f r)
    {Q : InductionAnswer (List Nat) → Search × Session → Prop}
    (hunsat : ∀ w', Grows w w' →
      (∀ x y, w.terms.Within w.induction.first x → sys.Edge x y → r.contains y = true) →
      Q .unsat (s, w'))
    (hsat : ∀ g t w' a b, Grows w w' → w.terms.Within w.induction.first a → sys.Edge a b →
      r.contains b = false → w'.terms.Names g t → (∀ y, t.contains y = true ↔ y = a) →
      Q (.sat (some g) (some [a, b])) (s, w')) :
    Action.Ends (Search.act ((backend M).oracle.checkInductive f)) (s, w) E Q := by
  have hfits := hM 2 (Nat.le_refl 2)
  refine ends_checkInductive hw (by omega) hfirst hbetween hf (fun hc => ?_) (fun hl => ?_)
    (fun w' hgrow hnone => ?_) fun g t w' a mid b hgrow hc hg ht => ?_
  · rw [hdeep, hfits.1] at hc
    cases hc
  · rw [hdeep, hfits.2] at hl
    cases hl
  · refine hunsat w' hgrow fun x y hx hedge => Bool.not_eq_false _ ▸ fun hout => ?_
    exact hnone x [] y ⟨by simpa using hedge, hdeep.symm, hx, by simp, hout⟩
  · obtain rfl : mid = [] := List.length_eq_zero_iff.mp (by have := hc.length; omega)
    exact hsat g t w' a b hgrow hc.first (by simpa using hc.chain) hc.outside hg ht

theorem ends_weaken {ob : Obligation} {refutation : Formula}
    (h : Opening sys w₀ P [ob.bare] n s w) (hmin : ∀ o ∈ s.agenda.waiting, ob.depth ≤ o.depth)
    (hf : Refutes w.terms refutation ob.bare)
    (hs : Settled sys w.terms (owed [ob.bare] s) refutation)
    (hnot : ¬ Settled sys w.terms (owed [ob.bare] s) ob.forward)
    {Q : Formula → Search × Session → Prop}
    (hQ : ∀ frame stats w', stats.rounds = s.stats.rounds → Refutes w'.terms refutation ob.bare →
      Opening sys w₀ P [{ ob.bare with forward := refutation }] n { s with frame, stats } w' →
      Settled sys w'.terms (owed [{ ob.bare with forward := refutation }] s) refutation →
      Q refutation ({ s with frame, stats }, w')) :
    Action.Ends (Search.weaken (backend M) ob refutation) (s, w) E Q := by
  have hin : ob.bare ∈ owed [ob.bare] s := List.mem_cons_self
  obtain ⟨r, c, hr, hc, _, hout⟩ := h.duties.forward_spec h.sound.canonical h.sound.size hin
  obtain ⟨t, ht⟩ := hf.named
  rw [Search.weaken, Action.ends_bind]
  refine ends_interpolate ?_
  rw [Action.ends_bind, Search.ends_change, Action.ends_bind]
  refine ends_disjoin h.sound hr ht fun d t' w₁ hgrow₁ hd ht' => ?_
  have h₁ := h.grow hgrow₁
  have hf₁ := hf.extend hgrow₁.terms
  -- the candidate leaves out the counter-state, so the refutation takes it up
  obtain rfl : d = refutation := by
    refine h₁.sound.canonical.name_ext hd (hgrow₁.terms.names ht) fun x => ?_
    rw [Bool.eq_iff_iff, ht', or_iff_right_of_imp fun hx => ?_]
    refine (hf.contains_iff ht hc x).mpr ⟨?_, hout x hx⟩
    rw [h.sound.sized hc, ← h.sound.sized hr]
    exact r.lt_size x hx
  have hs₁ := (h.duties.settled_iff hgrow₁.terms ht).mpr hs
  have hnot₁ := mt (h.duties.settled_iff hgrow₁.terms hr).mp hnot
  rw [Action.ends_bind, Search.ends_change, Action.ends_bind, Search.countFrame,
    Search.ends_change, Action.ends_bind]
  have h₂ := h₁.weaken { s.stats with
    frameSize := ((s.frame.erase ob.forward).insert d).size } hmin hf₁ hs₁ hnot₁
  refine ends_checkRefutations h₂.sound h₂.agenda (fun o ho => ?_) fun w₃ hgrow₃ => ?_
  · exact h₂.covers.refuted o (List.mem_append_right _ (List.mem_append_left _ ho))
  have h₃ := h₂.grow hgrow₃
  rw [Action.ends_bind]
  refine ends_report h₃.sound fun w₄ hgrow₄ => ?_
  rw [Action.ends_pure]
  refine hQ _ _ w₄ rfl (hf₁.extend (hgrow₃.trans hgrow₄).terms) (h₃.grow hgrow₄) ?_
  exact (h₂.duties.settled_iff (hgrow₃.trans hgrow₄).terms hd).mpr (settled_weaken.mpr hs₁)

theorem ends_stage {ob : Obligation} {refutation : Formula}
    (h : Opening sys w₀ P [ob.bare] n s w) (hmin : ∀ o ∈ s.agenda.waiting, ob.depth ≤ o.depth)
    (hM : M.Fits 2) (hf : Refutes w.terms refutation ob.bare)
    (hs : Settled sys w.terms (owed [ob.bare] s) refutation)
    {Q : Search.Push → Search × Session → Prop}
    (hQ : ∀ s' w', Opening sys w₀ P [] n s' w' → s'.agenda = s.agenda → s'.lineage = s.lineage →
      s'.stats.rounds = s.stats.rounds → Q .staged (s', w')) :
    Action.Ends (Search.stage (backend M) ob refutation) (s, w) E Q := by
  obtain ⟨t, ht⟩ := hf.named
  rw [Search.stage, Action.ends_bind]
  refine ends_report h.sound fun w₁ hgrow₁ => ?_
  have h₁ := h.grow hgrow₁
  have hs₁ := (h.duties.settled_iff hgrow₁.terms ht).mpr hs
  have hin : ob.bare ∈ owed [ob.bare] s := List.mem_cons_self
  obtain ⟨r, _, hr, _, hinit, _⟩ := h₁.duties.forward_spec h₁.sound.canonical h₁.sound.size hin
  rw [Action.ends_bind]
  refine ends_checkStep h₁.sound h₁.deep h₁.named h₁.between hM hr (fun w₂ hgrow₂ hcheck => ?_)
    fun g t' w₂ a b hgrow₂ ha hedge hb _ _ => ?_
  · have hsettled := h₁.assumes.settled_of_check h₁.duties h₁.sound.canonical h₁.sound.size hr hinit
      hcheck
    have hsettled₂ := (h₁.duties.settled_iff hgrow₂.terms hr).mpr hsettled
    refine ends_carry (hgrow₂.terms.names hr) ?_
    exact fun stats hrounds => hQ _ _ ((h₁.grow hgrow₂).carry hsettled₂) rfl rfl hrounds
  · have hnot : ¬ Settled sys w₁.terms (owed [ob.bare] s) ob.forward := fun hsettled => by
      rw [hsettled r hr a b (clear_of_within h₁.assumes.refuted ha) hedge] at hb
      cases hb
    have hs₂ := (h₁.duties.settled_iff hgrow₂.terms (hgrow₁.terms.names ht)).mpr hs₁
    have hnot₂ := mt (h₁.duties.settled_iff hgrow₂.terms hr).mp hnot
    rw [Action.ends_bind]
    refine ends_weaken (h₁.grow hgrow₂) hmin (hf.extend (hgrow₁.trans hgrow₂).terms) hs₂ hnot₂
      fun frame stats w₃ hrounds hf₃ h₃ hs₃ => ?_
    obtain ⟨t₃, ht₃⟩ := hf₃.named
    refine ends_carry ht₃ fun stats' hrounds' => ?_
    exact hQ _ _ (h₃.carry hs₃) rfl rfl (hrounds'.trans hrounds)

theorem ends_refine {ob : Obligation} {refutation g : Formula} {r t : StateSet} {a b : Nat}
    (h : Opening sys w₀ P [ob.bare] n s w) (hM : M.Fits (sys.size + 2))
    (hf : Refutes w.terms refutation ob.bare) (hr : w.terms.Names refutation r)
    (ha : Clear w.terms (owed [ob.bare] s) a) (hlate : ¬ sys.Initial a) (hedge : sys.Edge a b)
    (hb : r.contains b = false) (hg : w.terms.Names g t) (ht : ∀ y, t.contains y = true ↔ y = a)
    {Q : Search.Push → Search × Session → Prop}
    (hQ : ∀ m s' w', n = m + 1 → Opening sys w₀ P [ob.bare] m s' w' →
      (∃ a, Learns sys w'.terms s.lineage s'.lineage a) →
      s'.agenda.waiting.length = s.agenda.waiting.length + 1 → s'.stats.rounds = s.stats.rounds →
      Q .refined (s', w')) :
    Action.Ends (Search.refine (backend M) ob refutation g) (s, w) E Q := by
  rw [Search.refine, Action.ends_bind]
  refine ends_negate h.sound hg fun backward w₁ hgrow₁ hbackward => ?_
  rw [Action.ends_bind]
  refine ends_report (hgrow₁.sound h.sound) fun w₂ hgrow₂ => ?_
  have hgrow := hgrow₁.trans hgrow₂
  have hdisjoint : ∀ x, sys.Initial x → t.contains x = false := fun x hx =>
    Bool.eq_false_iff.mpr fun hin => hlate ((ht x).mp hin ▸ hx)
  rw [Action.ends_bind, Search.ends_state, Action.ends_bind, h.index]
  refine ends_learnForward (hgrow.sound h.sound) (hgrow.terms.names hg) hdisjoint
    fun forward w₃ hgrow₃ hforward => ?_
  rw [Action.ends_bind]
  refine ends_report (hgrow₃.sound (hgrow.sound h.sound)) fun w₄ hgrow₄ => ?_
  have hterms := hgrow₃.terms.trans hgrow₄.terms
  have h₄ := h.grow (hgrow.trans (hgrow₃.trans hgrow₄))
  have hext := (hgrow.trans (hgrow₃.trans hgrow₄)).terms
  let new : Obligation := { forward, counter := g, depth := ob.depth + s.depth, score := .zero }
  have hdepth : new.depth = ob.depth + 1 := congrArg (ob.depth + ·) h.depth
  have hl : Learnt sys w₄.forward w₄.terms (owed [ob.bare] s) new backward a := by
    refine ⟨(h.duties.clear_iff hext).mpr ha, hlate, ⟨t, hext.names hg, ?_, ht⟩, ?_,
      hdepth ▸ Nat.succ_pos _⟩
    · exact hterms.names (hgrow₂.terms.names hbackward)
    · rw [hgrow₄.forward, hgrow₃.forward]
      refine hforward.imp (fun hn => ⟨hn.1, ?_⟩) fun hn => ⟨hn.1, hgrow₄.terms.names hn.2⟩
      exact hgrow₃.canonical.name_eq hn.2 (hgrow₃.terms.names (hgrow₂.terms.names hbackward))
  have henter : s.frame.enter backward .first = .ok (s.frame.insert backward) := by
    rw [Frame.enter, hl.not_mem h₄.sound.canonical h₄.duties h₄.covers]
    rfl
  rw [Action.ends_bind]
  refine ends_addToFrame (hterms.names (hgrow₂.terms.names hbackward)) henter ?_
  have hnear : ob.depth ≤ s.lineage.size := h.descends.depth_le ob.bare List.mem_cons_self
  have hbounded := h.bounded
  have hadd : M.add ob.depth s.depth = .ok (ob.depth + s.depth) :=
    hM.add_eq (by rw [h.depth]; omega)
  rw [Action.ends_bind, Search.ends_change, Action.ends_bind, Search.countFrame,
    Search.ends_change, Action.ends_bind, Search.ends_state, Action.ends_bind, Search.ends_change,
    Action.ends_bind]
  refine ends_checkedAdd hadd ?_
  obtain ⟨m, hm, h₅⟩ := h₄.learn { s.stats with
    frameSize := ((s.frame.insert backward).insert forward).size } hl (hf.extend hext)
    (hext.names hr) hedge hb hdepth
  rw [Action.ends_bind]
  refine ends_report h₅.sound fun w₆ hgrow₆ => ?_
  have h₆ := h₅.grow hgrow₆
  rw [Action.ends_bind]
  have hcovers : ((s.frame.insert backward).insert forward).contains backward = true := by
    simp [Frame.contains, Frame.insert, FormulaSet.contains_insert]
  have hfresh : ∀ o ∈ s.agenda.waiting, o.counter ≠ g := fun o ho =>
    hl.counter_ne o (List.mem_append_right _ (List.mem_append_left _ ho))
  refine ends_enqueue h₆.sound (by exact h₆.agenda) (hl.refutes.extend hgrow₆.terms)
    (by exact hcovers) (by exact hfresh) fun agenda w₇ hgrow₇ hagenda hperm => ?_
  have hlearns := hl.learns (o := ⟨refutation, g, s.depth⟩)
    (h₄.descends.unlearnt h₄.sound.canonical hl) rfl hedge.lt_left (hgrow₆.trans hgrow₇).terms
  rw [Action.ends_pure]
  refine hQ m _ w₇ hm ((h₆.grow hgrow₇).regroup hagenda ?_) ⟨a, hlearns⟩
    (by simpa using hperm.length_eq) rfl
  exact (List.Perm.swap ob.bare new s.agenda.waiting).trans (hperm.symm.cons ob.bare)

theorem ends_answerCounter {config : Config} {ob : Obligation} {refutation g : Formula}
    {r t : StateSet} {a b : Nat} {model : List Nat} (h : Opening sys w₀ P [ob.bare] n s w)
    (hM : M.Fits (sys.size + 2)) (hf : Refutes w.terms refutation ob.bare)
    (hr : w.terms.Names refutation r) (ha : Clear w.terms (owed [ob.bare] s) a)
    (hedge : sys.Edge a b) (hb : r.contains b = false) (hg : w.terms.Names g t)
    (ht : ∀ y, t.contains y = true ↔ y = a) {Q : Search.Push → Search × Session → Prop}
    (hrefined : ∀ m s' w', n = m + 1 → Opening sys w₀ P [ob.bare] m s' w' →
      (∃ a, Learns sys w'.terms s.lineage s'.lineage a) →
      s'.agenda.waiting.length = s.agenda.waiting.length + 1 → s'.stats.rounds = s.stats.rounds →
      Q .refined (s', w'))
    (hfailed : ∀ s' w', Disproved sys w₀ P config.extend s' w' →
      s'.stats.rounds = s.stats.rounds → Q .failed (s', w')) :
    Action.Ends (Search.answerCounter (backend M) config ob refutation g model) (s, w) E Q := by
  rw [Search.answerCounter, Action.ends_bind]
  refine ends_report h.sound fun w₁ hgrow₁ => ?_
  have h₁ := h.grow hgrow₁
  have hg₁ := hgrow₁.terms.names hg
  have hwindow : Search.window M s.index s.depth = .ok (0, 0) := by
    rw [h.index, h.depth, Search.window, hM.add_eq (by omega)]
    rfl
  rw [Action.ends_bind, Search.ends_state, Action.ends_bind]
  change Action.Ends (Action.ofExcept (Search.window M s.index s.depth)) _ _ _
  rw [hwindow, Action.ends_ofExcept_ok, Action.ends_bind]
  refine ends_checkReachable h₁.sound h₁.layers hg₁ ht (fun hno => ?_)
    fun hyes terms journal hext hu => ?_
  · rw [Action.ends_bind]
    refine ends_report h₁.sound fun w₂ hgrow₂ => ?_
    have hgrow := hgrow₁.trans hgrow₂
    simp only [Bool.false_eq_true, if_false]
    exact ends_refine (h.grow hgrow) hM (hf.extend hgrow.terms) (hgrow.terms.names hr)
      ((h.duties.clear_iff hgrow.terms).mpr ha) hno hedge hb (hgrow.terms.names hg) ht hrefined
  · have hw₂ : Sound sys { w₁ with terms, journal, reach.cex := [g] } :=
      ⟨h₁.sound.system, hu, hext.size.trans h₁.sound.size⟩
    rw [Action.ends_bind]
    refine ends_report hw₂ fun w₃ hgrow₃ => ?_
    have hterms : Extends w₁.terms w₃.terms := hext.trans hgrow₃.terms
    have hr₃ := hterms.names (hgrow₁.terms.names hr)
    have hrooted := h₁.descends.rooted ob.bare List.mem_cons_self refutation
      (hf.extend hgrow₁.terms)
    have htraced : ∀ f o, s.lineage.origin? f = some o → Traced sys w₃.terms f o :=
      fun f o ho => (h₁.descends.traced f o ho).extend hterms
    have hnear := h.descends.depth_le ob.bare List.mem_cons_self
    have hbounded := h.bounded
    have hfits : ob.depth ≤ sys.size := by
      have hle : ob.depth ≤ s.lineage.size := hnear
      omega
    obtain ⟨q, t', y, hq, ht', hy, hout⟩ :=
      hrooted.violated htraced hr₃ (.step (.initial hyes) hedge) hb
    simp only [if_true]
    rw [Action.ends_bind]
    refine ends_failInduction (hgrow₃.sound hw₂) h.index h.depth h.agenda
      (by rw [hgrow₃.paths]; exact h₁.asserted) hyes hedge
      ⟨g, t, by rw [hgrow₃.reach], hterms.names hg₁, (ht a).mpr rfl⟩ ⟨r, hr₃, hb⟩ htraced hrooted
      h.unmarked hnear (hM.mono (Nat.add_le_add_right hfits 2))
      fun s' w' hfollows hflag hrun hexposed => ?_
    rw [Action.ends_pure]
    refine hfailed s' w' ⟨hfollows.sound, ?_, hflag, fun p => ?_,
      fun p r x => h.initially, hrun, hexposed, ?_⟩ hfollows.rounds
    · exact h.base.trans (hgrow₁.terms.trans (hterms.trans hfollows.terms))
    · rw [Lineage.isProperty, hfollows.properties]
      exact h.properties p
    · exact ⟨q, t', y, (h.properties q).mp hq, hfollows.terms.names ht', hy, hout⟩

theorem ends_push {config : Config} {ob : Obligation} (h : Opening sys w₀ P [ob.bare] n s w)
    (hmin : ∀ o ∈ s.agenda.waiting, ob.depth ≤ o.depth) (hM : M.Fits (sys.size + 2))
    {Q : Search.Push → Search × Session → Prop}
    (hstaged : ∀ s' w', Opening sys w₀ P [] n s' w' → s'.agenda = s.agenda →
      s'.lineage = s.lineage → s'.stats.rounds = s.stats.rounds → Q .staged (s', w'))
    (hrefined : ∀ m s' w', n = m + 1 → Opening sys w₀ P [ob.bare] m s' w' →
      (∃ a, Learns sys w'.terms s.lineage s'.lineage a) →
      s'.agenda.waiting.length = s.agenda.waiting.length + 1 → s'.stats.rounds = s.stats.rounds →
      Q .refined (s', w'))
    (hfailed : ∀ s' w', Disproved sys w₀ P config.extend s' w' →
      s'.stats.rounds = s.stats.rounds → Q .failed (s', w')) :
    Action.Ends (Search.push (backend M) config ob) (s, w) E Q := by
  have hin : ob.bare ∈ owed [ob.bare] s := List.mem_cons_self
  rw [Search.push, Action.ends_bind]
  refine ends_report h.sound fun w₁ hgrow₁ => ?_
  have h₁ := h.grow hgrow₁
  obtain ⟨f, hf, _⟩ := h₁.covers.refuted ob.bare hin
  rw [Action.ends_bind]
  refine ends_refutation h₁.sound (by exact hf) fun w₂ hgrow₂ => ?_
  have h₂ := h₁.grow hgrow₂
  have hf₂ := hf.extend hgrow₂.terms
  have hM₂ : M.Fits 2 := hM.mono (by omega)
  obtain ⟨r, hr⟩ := hf₂.named
  rw [Action.ends_bind]
  refine ends_checkStep h₂.sound h₂.deep h₂.named h₂.between hM₂ hr (fun w₃ hgrow₃ hcheck => ?_)
    fun g t w₃ a b hgrow₃ ha hedge hb hg ht => ?_
  · have hs := h₂.assumes.settled_of_check h₂.duties h₂.sound.canonical h₂.sound.size hr
      (fun x => h₂.duties.refutation_of_initial h₂.sound.canonical h₂.sound.size hin hf₂ hr) hcheck
    exact ends_stage (h₂.grow hgrow₃) hmin hM₂ (hf₂.extend hgrow₃.terms)
      ((h₂.duties.settled_iff hgrow₃.terms hr).mpr hs) hstaged
  · have hclear := clear_of_within h₂.assumes.refuted ha
    exact ends_answerCounter (h₂.grow hgrow₃) hM (hf₂.extend hgrow₃.terms) (hgrow₃.terms.names hr)
      ((h₂.duties.clear_iff hgrow₃.terms).mpr hclear) hedge hb hg ht hrefined hfailed

end Invariance.FiniteState
