import Invariance.Proofs.FiniteState.Replays.Searches
import Invariance.Proofs.FiniteState.Twins.Queries

/-!
A query once more. With a formula that stands for the same as the property did, it has the same
outcome and shows the same, whatever the first time has left behind in the universe.
-/

namespace Invariance.FiniteState

open Universe Session

variable {M : Machine} {config : Config} {v : Universe} {α : Type} {fuel : Nat} {p q : Formula}

namespace Universe

variable {u t : Universe}

theorem negate_unknown {e : SystemError} (h : u.term p = .error e) :
    ∃ violation, u.negate p = .error violation := by
  have heval : u.eval p = .error (.error e) := by
    rw [eval, evalWithin, h]
    rfl
  exact ⟨_, by rw [negate, heval]⟩

theorem Kin.turn (hext : Extends u t) :
    ∀ {n : Nat} {f g : Formula}, Kin u v n f g → Kin v t n g f
  | _ + 1, _, _, Or.inl ⟨s, hf, hg⟩ => Or.inl ⟨s, hg, hext.names hf⟩
  | _ + 1, _, _, Or.inr ⟨fs, gs, hf, hg, hfs⟩ =>
      Or.inr ⟨gs, fs, hg, hext.kept hf, (hfs.imp fun _ _ => Kin.turn hext).flip⟩

/-- The nesting is no deeper than the numbers of the two formulas, which bound every evaluation. -/
theorem Kin.evalWithin_eq (hu : u.Canonical) (hv : v.Canonical) (hsize : u.size = v.size) :
    ∀ {n bound bound' : Nat} {f g : Formula}, Kin u v n f g → f.id < bound → g.id < bound' →
      u.evalWithin bound f = v.evalWithin bound' g
  | n + 1, bound + 1, bound' + 1, f, g, hfg, hf, hg => by
      rcases hfg with ⟨s, hfs, hgs⟩ | ⟨fs, gs, hfs, hgs, hall⟩
      · rw [evalWithin, evalWithin, term, term, show u.terms[f.id]? = _ from hfs,
          show v.terms[g.id]? = _ from hgs]
      · rw [evalWithin, evalWithin, term, term, hfs, hgs]
        simp only
        rw [hsize]
        refine bind_congr fun _ => meet_congr ?_ _
        obtain ⟨hlength, hkin⟩ := List.forall₂_iff_zip.mp hall
        refine List.forall₂_iff_zip.mpr ⟨hlength, fun {f' g'} hmem => ?_⟩
        obtain ⟨hf', hg'⟩ := List.of_mem_zip hmem
        exact Kin.evalWithin_eq hu hv hsize (hkin hmem)
          (Nat.lt_of_lt_of_le (hu.earlier hfs f' hf') (Nat.le_of_lt_succ hf))
          (Nat.lt_of_lt_of_le (hv.earlier hgs g' hg') (Nat.le_of_lt_succ hg))

theorem Kin.live {n : Nat} (h : Kin u v n p q) : u.Live p ∧ v.Live q := by
  cases n with
  | zero => exact h.elim
  | succ n =>
      rcases h with ⟨s, hp, hq⟩ | ⟨fs, gs, hp, hq, _⟩
      · exact ⟨hp.live, hq.live⟩
      · exact ⟨(Array.getElem?_eq_some_iff.mp hp).1, (Array.getElem?_eq_some_iff.mp hq).1⟩

theorem Kin.accepts {n : Nat} (h : Kin u v n p q) (hu : u.Canonical) (hv : v.Canonical)
    (hsize : u.size = v.size) (hp : u.Accepts p) : v.Accepts q := by
  obtain ⟨s, hs⟩ := hp
  refine ⟨s, ?_⟩
  rw [← hs]
  exact (h.evalWithin_eq hu hv hsize (Nat.lt_succ_of_lt h.live.1)
    (Nat.lt_succ_of_lt h.live.2)).symm

end Universe

theorem replays_allM {each : α → SearchM Session Bool} (h : ∀ a, Replays v (each a)) :
    ∀ l : List α, Replays v (l.allM each)
  | [] => replays_pure
  | a :: l => (h a).bind fun holds =>
      match holds with
      | true => replays_allM h l
      | false => replays_pure

/-- A formula that is not stored has no conjuncts, but it may have some when another formula is
stored under its number. It cannot be negated then. -/
theorem replays_conjuncts {next : Option (List Formula) → SearchM Session α}
    (h : ∀ conjuncts, Replays v (next conjuncts))
    (hunknown : ∀ {s w e}, w.terms.term p = .error e → ∀ a s', next none (s, w) ≠ .ok a s') :
    Replays v (Search.ask (fun w => (backend M).terms.conjuncts w p) >>= next) := by
  intro hv s w t hstill ht a s' w' hrun
  change next (w.terms.conjuncts p) (s, w) = .ok a (s', w') at hrun
  obtain ⟨hw', hagain⟩ := h _ hv s w t hstill ht a s' w' hrun
  refine ⟨hw', fun hlast => ?_⟩
  obtain ⟨t', hrun', ht'⟩ := hagain hlast
  refine ⟨t', ?_, ht'⟩
  obtain ⟨journal, hshelf, rfl⟩ := ht
  change next (v.conjuncts p) _ = _
  cases hterm : w.terms.term p with
  | ok term =>
      have hsame : v.conjuncts p = w.terms.conjuncts p := by
        rw [conjuncts, conjuncts, hterm, confirms_term (hw'.terms.trans hlast) p term hterm]
      rwa [hsame]
  | error e =>
      have hnone : w.terms.conjuncts p = none := by rw [conjuncts, hterm]
      rw [hnone] at hrun
      exact absurd hrun (hunknown hterm _ _)

theorem replays_addProperty : ∀ (fuel : Nat) (p : Formula),
    Replays v (Search.addProperty (backend M) fuel p)
  | 0, _ => replays_throw
  | fuel + 1, p => by
      have hrest : ∀ n, Replays v (do
          Search.bump n
          Search.change fun s => { s with lineage := s.lineage.addProperty p }
          return true : SearchM Session Bool) := fun n =>
        replays_bump.bind fun _ => replays_change.bind fun _ => replays_pure
      refine replays_conjuncts (fun conjuncts => ?_) fun {s w e} hterm a s' hrun => ?_
      · cases conjuncts with
        | some conjuncts => exact replays_allM (replays_addProperty fuel) conjuncts
        | none =>
            refine replays_negate.bind fun n => (replays_act (repeats_queryInit n)).bind
              fun answer => ?_
            rcases answer with _ | (_ | model) | _
            · exact replays_state.bind fun _ => replays_branch (hrest n)
                (replays_addToFrame.bind fun _ => replays_addToFrame.bind fun _ =>
                  replays_enqueue.bind fun _ => hrest n)
            · exact replays_throw
            · exact replays_report.bind fun _ => replays_record.bind fun _ =>
                replays_change.bind fun _ => replays_pure
            · exact replays_throw
      · obtain ⟨violation, hnegate⟩ := negate_unknown hterm
        have hstop : Search.negate (backend M) p (s, w) = .error (.violation violation) (s, w) := by
          simp only [Search.negate, Search.step, Search.act, Action.within, Action.ofStep, backend,
            vocabulary, making, hnegate]
        change EStateM.bind (Search.negate (backend M) p) _ (s, w) = _ at hrun
        rw [EStateM.bind, hstop] at hrun
        cases hrun

theorem replays_conclude {outcome : Outcome} :
    Replays v (Search.conclude outcome : SearchM Session Outcome) :=
  replays_change.bind fun _ => replays_pure

theorem replays_run : Replays v (Search.run (backend M) config fuel p) :=
  (replays_act (repeats_validate p)).bind fun _ => (replays_act repeats_init).bind fun _ =>
    replays_change.bind fun _ => replays_clearFrame.bind fun _ =>
      (replays_addProperty fuel p).bind fun _ => replays_branch
        (replays_report.bind fun _ => (replays_rounds fuel fuel).attempt
          (fun _ => replays_change.bind fun _ => Replays.bind replays_pure fun _ =>
            replays_report.bind fun _ => replays_conclude)
          fun _ => .next fun _ => .first stops_fail)
        (replays_report.bind fun _ => replays_conclude)

/-! The engine. -/

variable {e e' e'' : Engine Session} {sys : TransitionSystem} {outcome : Outcome}

theorem reset_reset (e : Engine Session) :
    Engine.reset (backend M) (Engine.reset (backend M) e) = Engine.reset (backend M) e := by
  obtain ⟨search, w⟩ := e
  cases search <;> rfl

theorem query_reset : Engine.query (backend M) config fuel sys p (Engine.reset (backend M) e) =
    Engine.query (backend M) config fuel sys p e := by
  simp only [Engine.query, bind, EStateM.bind, Action.run_modify, reset_reset]

theorem size_of_answered (hrun : Engine.query (backend M) config fuel sys p e = .ok outcome e') :
    sys.size = e.world.terms.size := by
  by_contra hsize
  rw [query_of_size_ne hsize] at hrun
  cases hrun

theorem accepts_of_answered
    (hrun : Engine.query (backend M) config fuel sys p e = .ok outcome e') :
    e.world.terms.Accepts p := by
  cases heval : e.world.terms.eval p with
  | ok s => exact ⟨s, heval⟩
  | error flaw =>
      rw [query_of_size (size_of_answered hrun), Engine.onSearch, Action.within,
        run_of_refused (w := opened sys e.world) heval] at hrun
      cases hrun

theorem Session.Onto.opened {w w' : Session} (h : Onto w w') (sys : TransitionSystem) :
    Upon w'.terms (opened sys w) (opened sys w') := by
  obtain ⟨terms, system, forward, threshold, _, _, _, _, journal⟩ := w'
  obtain ⟨_, rfl, rfl, hshelf⟩ := h
  exact ⟨journal, hshelf, rfl⟩

/-- Without a sweep the same query goes the same way again. -/
theorem query_again (hstill : e.world.threshold = 0)
    (hrun : Engine.query (backend M) config fuel sys p e = .ok outcome e')
    (hcanonical : e'.world.terms.Canonical) :
    Onto e.world e'.world ∧ ∃ journal,
      Engine.query (backend M) config fuel sys p e' =
        .ok outcome { e' with world := { e'.world with journal } } := by
  have hsize := size_of_answered hrun
  rw [query_of_size hsize, Engine.onSearch, Action.within] at hrun
  cases hsearch : Search.run (backend M) config fuel p (.blank, opened sys e.world) with
  | error fault x =>
      rw [hsearch] at hrun
      cases hrun
  | ok answer x =>
      rw [hsearch] at hrun
      cases hrun
      obtain ⟨s, w⟩ := x
      have hreplay := fun t ht =>
        replays_run hcanonical .blank (opened sys e.world) t hstill ht outcome s w hsearch
      obtain ⟨hopened, _⟩ := hreplay _ (upon_self w.terms _)
      have honto : Onto e.world w :=
        ⟨hopened.terms, hopened.forward, hopened.threshold, hopened.shelf⟩
      refine ⟨honto, ?_⟩
      obtain ⟨t, hagain, journal, _, rfl⟩ := (hreplay _ (honto.opened sys)).2 (.refl _)
      refine ⟨journal, ?_⟩
      rw [query_of_size (hsize.trans honto.terms.size.symm), Engine.onSearch, Action.within, hagain]

theorem Denotes.symm {u v : Universe} {f g : Formula} (h : Denotes u v f g) : Denotes v u g f := by
  obtain ⟨s, hf, hg⟩ := h
  exact ⟨s, hg, hf⟩

theorem Denotes.trans {u v w : Universe} {f g h : Formula} (hfg : Denotes u v f g)
    (hgh : Denotes v w g h) : Denotes u w f h := by
  obtain ⟨s, hf, hg⟩ := hfg
  obtain ⟨s', hg', hh⟩ := hgh
  obtain rfl := Except.ok.inj (hg.symm.trans hg')
  exact ⟨s, hf, hh⟩

theorem denote_symm {u v : Universe} {fs gs : List Formula}
    (h : List.Forall₂ (Denotes u v) fs gs) : List.Forall₂ (Denotes v u) gs fs :=
  (h.imp fun _ _ => Denotes.symm).flip

theorem denote_trans {u v w : Universe} {fs gs hs : List Formula}
    (h : List.Forall₂ (Denotes u v) fs gs) (h' : List.Forall₂ (Denotes v w) gs hs) :
    List.Forall₂ (Denotes u w) fs hs := by
  induction h generalizing hs with
  | nil =>
      cases h'
      exact .nil
  | cons hfg _ ih =>
      cases h' with
      | cons hgh hrest => exact .cons (hfg.trans hgh) (ih hrest)

namespace Resembles

theorem symm (h : Resembles e e') : Resembles e' e where
  stats := h.stats.symm
  trace := h.trace.symm
  frame := denote_symm h.frame
  invariant := by
    have hinvariant := h.invariant
    revert hinvariant
    generalize e.invariant = i
    generalize e'.invariant = i'
    rintro (⟨hfs⟩ | _)
    · exact .some (denote_symm hfs)
    · exact .none

theorem trans (h : Resembles e e') (h' : Resembles e' e'') : Resembles e e'' where
  stats := h.stats.trans h'.stats
  trace := h.trace.trans h'.trace
  frame := denote_trans h.frame h'.frame
  invariant := by
    have hinvariant := h.invariant
    have hinvariant' := h'.invariant
    revert hinvariant hinvariant'
    generalize e.invariant = i
    generalize e'.invariant = i'
    generalize e''.invariant = i''
    rintro (⟨hfs⟩ | _) hinvariant'
    · cases hinvariant' with
      | some hgs => exact .some (denote_trans hfs hgs)
    · cases hinvariant'
      exact .none

end Resembles

theorem Paired.comparable (h : Paired e e') : Comparable e.world e'.world := by
  obtain ⟨k, x, y, h, rfl, rfl⟩ := h
  exact ⟨h.session.matched, h.session.forward, h.session.shelf, h.session.still⟩

/-- Where nothing is ever swept, the property itself may be given again. Only the journal can tell
the second time from the first. -/
theorem query_repeats_unswept (hu : e.world.terms.Canonical) (hstill : e.world.threshold = 0)
    (hrun : Engine.query (backend M) config fuel sys p e = .ok outcome e') :
    ∃ journal, Engine.query (backend M) config fuel sys p (Engine.reset (backend M) e') =
      .ok outcome { e' with world := { e'.world with journal } } := by
  have hp := accepts_of_answered hrun
  have hstart : Comparable e.world e.world := ⟨.refl hu, rfl, rfl, hstill⟩
  obtain ⟨_, d, hrun', rfl, hpaired⟩ :=
    (tracks_query hstart (size_of_answered hrun) (hp.proper hu).kin hp hp).of_ok hrun
  cases hrun.symm.trans hrun'
  obtain ⟨_, journal, hagain⟩ := query_again hstill hrun hpaired.comparable.matched.right
  exact ⟨journal, query_reset.trans hagain⟩

/-- After a reset a query has the same outcome as before and shows the same, if the formula that it
is given stands for what the property stood for. A sweep may have given that formula another
number. -/
theorem query_repeats {n k : Nat} (hbuilt : e.world.terms.Built n)
    (hrun : Engine.query backend config fuel sys p e = .ok outcome e')
    (hpq : Kin e.world.terms e'.world.terms k p q) :
    ∃ e'', Engine.query backend config fuel sys q (Engine.reset backend e') = .ok outcome e'' ∧
      Resembles e' e'' := by
  obtain ⟨hu, -⟩ := hbuilt.canonical
  have hsize := size_of_answered hrun
  have hp := accepts_of_answered hrun
  -- the same query without a sweep, and that query once more
  have hstart : Comparable e.world (withThreshold 0 e).world := ⟨.refl hu, rfl, rfl, rfl⟩
  obtain ⟨_, d, hrun₀, rfl, hpaired⟩ :=
    (tracks_query hstart hsize (hp.proper hu).kin hp hp).of_ok hrun
  have hcompare := hpaired.comparable
  obtain ⟨honto, journal, hagain⟩ := query_again rfl hrun₀ hcompare.matched.right
  -- the second query goes along with that one
  have hsize' : sys.size = e'.world.terms.size :=
    hsize.trans (honto.terms.size.symm.trans hcompare.matched.size.symm)
  have hq : e'.world.terms.Accepts q :=
    hpq.accepts hu hcompare.matched.left (hsize.symm.trans hsize') hp
  obtain ⟨s, hs⟩ := hp
  obtain ⟨_, e'', hrun', rfl, hpaired'⟩ :=
    (tracks_query hcompare hsize' (hpq.turn honto.terms) hq
      ⟨s, confirms_eval honto.terms p s hs⟩).of_right
      (shared_query hcompare.matched.left hsize'.symm hq) hagain
  have hd : Resembles d e'' := by
    obtain ⟨hstats, htrace, hframe, hinvariant⟩ := hpaired'.resembles.symm
    exact ⟨hstats, htrace, hframe, hinvariant⟩
  exact ⟨e'', query_reset.trans hrun', hpaired.resembles.trans hd⟩

def startState : Universe where
  size := 3
  terms := #[.states (.add (.empty 3) 0 (Fin.isLt (0 : Fin 3)))]

/-- A step term stands before the property, which is formula 2. -/
def crowded : Engine Session where
  world :=
    { Session.ofUniverse
        { size := 3
          terms := (startState.atStep ⟨0⟩ 1).2.terms.push
            (.states (StateSet.add (.empty 3) 2 (Fin.isLt (2 : Fin 3))).complement) } with
      forward := .reachable }

theorem built_crowded : crowded.world.terms.Built dangling.size := by
  have hstart : startState.Built dangling.size :=
    .ofSet (s := .add (.empty 3) 0 (by decide)) (f := ⟨0⟩) .new rfl
  have hstep : (startState.atStep ⟨0⟩ 1).2.Built dangling.size := .atStep hstart Nat.zero_lt_one
  exact .ofSet (s := (StateSet.add (.empty 3) 2 (by decide)).complement) (f := ⟨2⟩) hstep rfl

/-- The engine after a first query. -/
def afterCrowded : Engine Session :=
  (Engine.query backend { maxFrames := 3 } 34 dangling ⟨2⟩).final crowded

theorem crowded_answered : Engine.query backend { maxFrames := 3 } 34 dangling ⟨2⟩ crowded =
    .ok .interrupted afterCrowded := by
  have hinterrupted : answer? (Engine.query backend { maxFrames := 3 } 34 dangling ⟨2⟩ crowded) =
      some .interrupted := by decide +kernel
  obtain ⟨e', hrun⟩ := eq_ok_of_answer? hinterrupted
  rw [afterCrowded, Action.final, hrun]

theorem crowded_repeated : ∃ e' e'',
    Engine.query backend { maxFrames := 3 } 34 dangling ⟨2⟩ crowded = .ok .interrupted e' ∧
      Kin crowded.world.terms e'.world.terms 1 ⟨2⟩ ⟨1⟩ ∧
      Engine.query backend { maxFrames := 3 } 34 dangling ⟨1⟩ (Engine.reset backend e') =
        .ok .interrupted e'' ∧
      Resembles e' e'' := by
  have hname : afterCrowded.world.terms.terms[1]? =
      some (.states (StateSet.add (.empty 3) 2 (by decide)).complement) := by decide +kernel
  have hkin : Kin crowded.world.terms afterCrowded.world.terms 1 ⟨2⟩ ⟨1⟩ :=
    Or.inl ⟨_, rfl, hname⟩
  obtain ⟨e'', hrun', hsame⟩ := query_repeats built_crowded crowded_answered hkin
  exact ⟨_, e'', crowded_answered, hkin, hrun', hsame⟩

/-- The sweep during the first query makes the property formula 1. Given formula 2 once more, the
second query asks about another set. -/
theorem crowded_misled : ∃ e' e'',
    Engine.query backend { maxFrames := 3 } 34 dangling ⟨2⟩ crowded = .ok .interrupted e' ∧
      Engine.query backend { maxFrames := 3 } 34 dangling ⟨2⟩ (Engine.reset backend e') =
        .ok .invalid e'' := by
  have hinvalid : answer? (Engine.query backend { maxFrames := 3 } 34 dangling ⟨2⟩
      (Engine.reset backend afterCrowded)) = some .invalid := by decide +kernel
  obtain ⟨e'', hrun'⟩ := eq_ok_of_answer? hinvalid
  exact ⟨_, e'', crowded_answered, hrun'⟩

end Invariance.FiniteState
