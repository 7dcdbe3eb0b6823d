import Invariance.Proofs.FiniteState.Tidiness
import Invariance.Proofs.FiniteState.Twins.Queries
import Invariance.Proofs.Search.Endings
import Invariance.Proofs.Twins.Joining

/-!
A collection between two queries. Whatever a query returned, the search it leaves is at rest, and
it may be swept together with all that was stored in the meantime: every formula is replaced by the
name of the same set of states, nothing is dropped, and nothing changes its place.
-/

namespace Invariance

variable {σ α : Type}

/-- An answer was given or an error reported; a broken contract has no state to go on from. -/
inductive Returned : EStateM.Result Fault σ α → σ → Prop
  | ok {a : α} {s : σ} : Returned (.ok a s) s
  | error {e : CheckError} {s : σ} : Returned (.error (.error e) s) s

theorem Returned.of_ok {r : EStateM.Result Fault σ α} {a : α} {s : σ} (h : r = .ok a s) :
    Returned r s :=
  h ▸ .ok

namespace Action

variable {τ β : Type} {act : Action σ α} {act' : Action τ β} {s s' : σ} {t : τ}

/-- It holds of every state in which the effect returns. -/
def Leaves (act : Action σ α) (s : σ) (P : σ → Prop) : Prop :=
  act.Yields s (fun fault s' => (∃ e, fault = .error e) → P s') fun _ s' => P s'

theorem Leaves.of_returned {P : σ → Prop} (h : act.Leaves s P) (hreturned : Returned (act s) s') :
    P s' := by
  rw [Leaves, Yields] at h
  generalize act s = result at h hreturned
  cases hreturned with
  | ok => exact h
  | error => exact h ⟨_, rfl⟩

theorem Ends.yields {E : Fault → Prop} {Q : α → σ → Prop} (h : act.Ends s E Q) :
    act.Yields s (fun fault _ => E fault) Q := by
  rw [Ends] at h
  rw [Yields]
  cases hrun : act s <;> rwa [hrun] at h

theorem Tracks.yields {F : Fault → σ → τ → Prop} {Q : α → β → σ → τ → Prop}
    (h : act.Tracks act' s t F Q) :
    act.Yields s (fun fault s' => fault.Shared → ∃ t', F fault s' t')
      fun a s' => ∃ b t', Q a b s' t' := by
  rw [Tracks] at h
  rw [Yields]
  cases hrun : act s with
  | ok a s' =>
      rw [hrun] at h
      obtain ⟨b, t', _, hQ⟩ := h
      exact ⟨b, t', hQ⟩
  | error fault s' =>
      rw [hrun] at h
      intro hshared
      obtain ⟨t', _, hF⟩ := h hshared
      exact ⟨t', hF⟩

end Action

namespace FiniteState

open Universe Session

variable {config : Config} {fuel : Nat} {sys : TransitionSystem} {p : Formula}
  {x y : Search × Session} {w : Session} {e e₁ : Engine Session} {u v : Universe}

/-! A search at rest. -/

def still (x : Search × Session) : Search × Session := (x.1, { x.2 with threshold := 0 })

theorem comparable_still (hu : w.terms.Canonical) : Comparable w { w with threshold := 0 } :=
  ⟨.refl hu, rfl, rfl, rfl⟩

/-- A search is alike to itself if every formula in it has a name and its agenda is in order. -/
structure AtRest (x : Search × Session) : Prop where
  alike : Alongside 0 x (still x)
  tidy : Tidy x
  unstaged : x.1.staged = []

theorem Alongside.reflect (h : Alongside 0 x y) : Alongside 0 x (still x) := by
  have hself : ∀ {f g}, Joined (Twin x.2.terms y.2.terms) (Twin x.2.terms y.2.terms) f g →
      Twin x.2.terms x.2.terms f g := fun ⟨_, ⟨s, hf, hc⟩, s', hg, hc'⟩ => by
    obtain rfl := hc.eq hc'
    exact ⟨s, hf, hg⟩
  have hlist : ∀ {fs gs : List Formula}, List.Forall₂ (Twin x.2.terms y.2.terms) fs gs →
      List.Forall₂ (Twin x.2.terms x.2.terms) fs fs := fun hfs =>
    (forall₂_joined hfs hfs).imp fun _ _ => hself
  have hopened : x.2.paths.opened = [] := List.length_eq_zero_iff.mp h.session.paths.scopes
  refine ⟨(h.search.join h.search).mono hself, ?_⟩
  exact
    { matched := .refl h.session.matched.left, system := rfl, forward := rfl
      induction := ⟨rfl, hlist h.session.induction.first, hlist h.session.induction.intermediate⟩
      paths := ⟨h.session.paths.base, h.session.paths.base, by
        change List.Forall₂ _ x.2.paths.opened x.2.paths.opened
        rw [hopened]
        exact .nil, h.session.paths.scopes, rfl, rfl⟩
      reach := ⟨rfl, hlist h.session.reach.cex⟩, trace := rfl, shelf := rfl, still := rfl }

namespace AtRest

theorem canonical (h : AtRest x) : x.2.terms.Canonical := h.alike.session.matched.left

theorem backed (h : AtRest x) : Backed x := fun ob hob => by
  obtain ⟨c, hc⟩ := h.alike.named_counter hob
  have hin : ob.bare ∈ x.1.agenda.waiting := List.mem_map.mpr ⟨ob, hob, rfl⟩
  obtain ⟨f, hf, hmember⟩ := (h.tidy.guarded ob.bare hin).2 c hc
  exact ⟨f, ⟨c, hc, hf⟩, hmember⟩

theorem grow (h : AtRest x) (hu : u.Canonical) (hext : Extends x.2.terms u) :
    AtRest (x.1, { x.2 with terms := u }) where
  alike := (h.alike.onward (h.alike.session.grow (.refl hu) hext hext rfl rfl)).alongside
  tidy := h.tidy.extend rfl rfl rfl hext
  unstaged := h.unstaged

theorem blank (hu : w.terms.Canonical) : AtRest (.blank, opened sys w) where
  alike := (comparable_still hu).opened sys
  tidy := .blank
  unstaged := rfl

end AtRest

theorem excuses_writing {M : Machine} :
    Excuses M fun fault => (∃ e, fault = .error e) → Writing fault where
  overflow := by rintro _ _ ⟨_, ⟨⟩⟩
  capacity := by rintro _ _ ⟨_, ⟨⟩⟩

/-- The only errors of an accepted query are those of writing a graph. -/
theorem run_leaves_atRest (hu : w.terms.Canonical) (hn : w.terms.size = sys.size) :
    (Search.run backend config fuel p).Leaves (.blank, opened sys w) AtRest := by
  cases heval : w.terms.eval p with
  | error flaw =>
      rw [Action.Leaves, Action.Yields, run_of_refused (w := opened sys w) heval]
      exact fun _ => .blank hu
  | ok s =>
      have hp : w.terms.Accepts p := ⟨s, heval⟩
      have hends : Action.Ends (Search.run backend config fuel p) (.blank, opened sys w)
          (fun fault => (∃ e, fault = .error e) → Writing fault) fun _ _ => True :=
        ends_run (fun _ => excuses_writing) (fun _ reason _ => ⟨reason, rfl⟩) (fits_word64 sys)
          (loaded_opened hu hn) hp (by rintro _ ⟨_, ⟨⟩⟩) fun _ _ _ _ _ => trivial
      have hkin := (hp.proper hu).kin
      have hstart := (comparable_still hu).opened sys
      refine ((((tracks_run hstart hkin hp hp).yields.and tidies_run).and hends.yields).and
        (Search.run_ending rfl rfl)).mono (fun fault x h hsome => ?_) fun outcome x h => ?_
      · obtain ⟨⟨⟨hpaired, htidy⟩, hwriting⟩, hhalted⟩ := h
        obtain ⟨err, rfl⟩ := hsome
        obtain ⟨y, j, hj, halike⟩ := hpaired trivial
        obtain rfl := hj err rfl
        exact ⟨halike.reflect, htidy (hwriting ⟨err, rfl⟩), hhalted.2 err rfl⟩
      · obtain ⟨⟨⟨⟨_, y, _, halike⟩, htidy⟩, _⟩, hconcluded⟩ := h
        exact ⟨halike.reflect, htidy, hconcluded.2⟩

theorem query_leaves_atRest (hu : e.world.terms.Canonical) :
    (Engine.query backend config fuel sys p).Leaves e fun e₁ =>
      ∀ s, e₁.search = some s → AtRest (s, e₁.world) := by
  by_cases hsize : sys.size = e.world.terms.size
  · rw [Action.Leaves, Action.Yields, query_of_size hsize]
    have hrun : (Search.run backend config fuel p).Leaves (.blank, opened sys e.world) AtRest :=
      run_leaves_atRest hu hsize.symm
    refine Action.Yields.within (hrun.mono (fun fault x h hsome s hs => ?_) fun _ x h s hs => ?_)
    · obtain rfl := Option.some.inj hs
      exact h hsome
    · obtain rfl := Option.some.inj hs
      exact h
  · rw [Action.Leaves, Action.Yields, query_of_size_ne hsize]
    intro _ s hs
    cases (Engine.reset_search backend e).symm.trans hs

/-! Collecting. -/

def withTerms (u : Universe) (e : Engine Session) : Engine Session :=
  { e with world := { e.world with terms := u } }

/-- The universes that operations on handed-out formulas lead to before the next sweep. -/
inductive Universe.Grown (u : Universe) : Universe → Prop
  | refl : Grown u u
  | ofSet {v v' : Universe} {s : StateSet} {f : Formula} :
      Grown u v → v.ofSet s = .ok (f, v') → Grown u v'
  | conj {v : Universe} {fs : List Formula} :
      Grown u v → (∀ f ∈ fs, v.Live f) → Grown u (v.conj fs).2
  | atStep {v : Universe} {f : Formula} {step : Nat} :
      Grown u v → v.Live f → Grown u (v.atStep f step).2

theorem Universe.Grown.extends (hu : u.Canonical) (h : Grown u v) :
    v.Canonical ∧ Extends u v := by
  induction h with
  | refl => exact ⟨hu, .refl u⟩
  | ofSet _ hset ih =>
      have hmade := ofSet_made ih.1 hset
      exact ⟨hmade.canonical, ih.2.trans hmade.grows⟩
  | conj _ hfs ih =>
      obtain ⟨g, u', heq, hmade⟩ := conj_eq ih.1 hfs
      rw [heq]
      exact ⟨hmade.canonical, ih.2.trans hmade.grows⟩
  | atStep _ hf ih =>
      obtain ⟨g, u', heq, hmade⟩ := atStep_eq ih.1 hf _
      rw [heq]
      exact ⟨hmade.canonical, ih.2.trans hmade.grows⟩

/-- The universe is collected, and the engine told of it. -/
def collect : Action (Engine Session) Unit := fun e =>
  let (r, world) := Session.sweep.run e.world
  Engine.relocate backend r { e with world }

/-- What a collection replaced a formula by, for the same set of states. -/
def Replaces (u u' : Universe) (f f' : Formula) : Prop :=
  u.sweep.1.apply f = some f' ∧ Denotes u u' f f'

/-- What a collection leaves of an engine. Alike searches have alike frames, agendas and lineages,
entry by entry. -/
structure Collected (e e' : Engine Session) : Prop where
  terms : e'.world.terms = e.world.terms.sweep.2
  outcome : e'.outcome = e.outcome
  stats : e'.stats = e.stats
  trace : e'.world.trace = e.world.trace
  frame : List.Forall₂ (Replaces e.world.terms e'.world.terms) e.frame e'.frame
  invariant : Option.Rel (List.Forall₂ (Replaces e.world.terms e'.world.terms)) e.invariant
    e'.invariant
  search : Option.Rel (Search.Alike (Replaces e.world.terms e'.world.terms)) e.search e'.search
  pops : Option.Rel (fun s s' => ∃ obs obs', s.agenda.Pops obs ∧ s'.agenda.Pops obs' ∧
    List.Forall₂ (Obligation.Alike (Replaces e.world.terms e'.world.terms)) obs obs') e.search
    e'.search

theorem Universe.Twin.replaces (hu : u.Canonical) {f f' : Formula}
    (h : Twin u u.sweep.2 f f') : Replaces u u.sweep.2 f f' := by
  obtain ⟨s, hf, hf'⟩ := h
  obtain ⟨g, hmove, hg⟩ := sweep_names hu hf
  obtain rfl := (sweep_canonical hu).name_eq hg hf'
  exact ⟨hmove, s, Universe.eval_eq hf, Universe.eval_eq hf'⟩

theorem AtRest.exists_collected {s : Search} (h : AtRest (s, w)) :
    ∃ s' w', collect { search := some s, world := w } = .ok () { search := some s', world := w' } ∧
      w'.terms = w.terms.sweep.2 ∧ w'.trace = w.trace ∧
        s.Alike (Twin w.terms w.terms.sweep.2) s' := by
  have hshelf : (Session.sweep.run w).2.journal.shelf = w.journal.shelf := shelf_record _ _
  obtain ⟨_, x, hrun, halike, hterms⟩ := Action.Ends.exists_ok
    (ends_sweepAlong (M := .word64) h.alike h.unstaged h.backed h.tidy.counted hshelf)
  refine ⟨x.1, x.2, ?_, hterms, halike.session.trace, ?_⟩
  · have hrun' : Search.relocate backend w.terms.sweep.1 (s, (Session.sweep.run w).2) =
        .ok () x := hrun
    change Engine.onSearch s (Search.relocate backend w.terms.sweep.1)
      { search := some s, world := (Session.sweep.run w).2 } = _
    rw [Engine.onSearch, Action.within, hrun']
  · have hjoin := h.alike.search.join halike.search
    refine hjoin.mono fun hjoined => ?_
    obtain ⟨_, ⟨r, hf, hc⟩, r', hf', hc'⟩ := hjoined
    obtain rfl := hc.eq hc'
    exact ⟨r, hf, hterms ▸ hf'⟩

theorem AtRest.collected {s s' : Search} {w' : Session} (h : AtRest (s, w))
    (hterms : w'.terms = w.terms.sweep.2) (htrace : w'.trace = w.trace)
    (halike : s.Alike (Twin w.terms w.terms.sweep.2) s') :
    Collected { search := some s, world := w } { search := some s', world := w' } := by
  have hmatching : Matching (Twin w.terms w.terms.sweep.2) :=
    (Matched.refl h.canonical).sweep.1.symm.matching
  have hreplaces : ∀ {f f'}, Twin w.terms w.terms.sweep.2 f f' →
      Replaces w.terms w'.terms f f' := fun hff' => hterms ▸ hff'.replaces h.canonical
  have hsearch := halike.mono hreplaces
  obtain ⟨obs, obs', hpops, hpops', hobs⟩ := halike.agenda.pops hmatching rfl
  exact
    { terms := hterms, outcome := halike.outcome.symm, stats := halike.stats.symm, trace := htrace
      frame := hsearch.frame.members.keys, invariant := invariant_alike hsearch
      search := .some hsearch
      pops := .some ⟨obs, obs', hpops, hpops', hobs.imp fun _ _ hab => hab.mono hreplaces⟩ }

/-- A query that has returned leaves an engine that a collection does no harm to. -/
theorem query_collected {n : Nat} (hbuilt : e.world.terms.Built n)
    (hreturned : Returned (Engine.query backend config fuel sys p e) e₁)
    (hgrown : e₁.world.terms.Grown u) :
    ∃ e₂, collect (withTerms u e₁) = .ok () e₂ ∧ Collected (withTerms u e₁) e₂ := by
  have hleft := (query_leaves_atRest hbuilt.canonical.1).of_returned hreturned
  obtain ⟨search, w⟩ := e₁
  cases search with
  | none => exact ⟨_, rfl, ⟨rfl, rfl, rfl, rfl, .nil, .none, .none, .none⟩⟩
  | some s =>
      have hrest : AtRest (s, w) := hleft s rfl
      obtain ⟨hu, hext⟩ := hgrown.extends hrest.canonical
      have hrest' := hrest.grow hu hext
      obtain ⟨s', w', hrun, hterms, htrace, halike⟩ := hrest'.exists_collected
      exact ⟨_, hrun, hrest'.collected hterms htrace halike⟩

/-- Two sets of states that are both asked for, and one of them is left. -/
def conjoined : Engine Session where
  world := Session.ofUniverse (words.conj [⟨0⟩, ⟨1⟩]).2

theorem built_conjoined : conjoined.world.terms.Built forked.size :=
  .conj built_words (by simp [Live, Universe.length, words])

def leftovers (e : Engine Session) : Option Nat × Nat :=
  (e.search.map (·.agenda.size), e.world.terms.stepTerms)

/-- The query is lost with an obligation waiting and step terms in between the formulas. -/
theorem conjoined_collected : ∃ e₁ e₂,
    Engine.query backend {} 34 forked ⟨2⟩ conjoined = .ok .invalid e₁ ∧
      leftovers e₁ = (some 1, 2) ∧ collect e₁ = .ok () e₂ ∧ Collected e₁ e₂ := by
  have hrun : answer? (Engine.query backend {} 34 forked ⟨2⟩ conjoined) = some .invalid := by
    decide +kernel
  have hleft : leftovers ((Engine.query backend {} 34 forked ⟨2⟩).final conjoined) =
      (some 1, 2) := by decide +kernel
  obtain ⟨e₁, hquery⟩ := eq_ok_of_answer? hrun
  rw [Action.final, hquery] at hleft
  obtain ⟨e₂, hcollect, hcollected⟩ :=
    query_collected built_conjoined (.of_ok hquery) (.refl : e₁.world.terms.Grown _)
  exact ⟨e₁, e₂, hquery, hleft, hcollect, hcollected⟩

end FiniteState

end Invariance
