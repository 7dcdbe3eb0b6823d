import Invariance.Proofs.FiniteState.Twins.Rounds
import Invariance.Proofs.FiniteState.Verdicts

/-!
Queries side by side. What a query shows does not depend on when the universe is swept, or whether
it is swept at all.
-/

namespace Invariance.FiniteState

open Universe Session

variable {M : Machine} {config : Config} {k fuel : Nat} {x y : Search × Session} {p q : Formula}

namespace Universe

variable {u v u' v' : Universe}

/-- Conjunctions of the same shape over twins, nested less than `n` deep. -/
def Kin (u v : Universe) : Nat → Formula → Formula → Prop
  | 0, _, _ => False
  | n + 1, f, g => Twin u v f g ∨ ∃ fs gs, u.terms[f.id]? = some (.conj fs) ∧
      v.terms[g.id]? = some (.conj gs) ∧ List.Forall₂ (Kin u v n) fs gs

theorem Kin.extend (hu : Extends u u') (hv : Extends v v') :
    ∀ {n : Nat} {f g : Formula}, Kin u v n f g → Kin u' v' n f g
  | _ + 1, _, _, Or.inl h => Or.inl (h.extend hu hv)
  | _ + 1, _, _, Or.inr ⟨fs, gs, hf, hg, hfs⟩ =>
      Or.inr ⟨fs, gs, hu.kept hf, hv.kept hg, hfs.imp fun _ _ => Kin.extend hu hv⟩

theorem Proper.kin {n : Nat} (h : u.Proper n p) : Kin u u n p p := by
  induction h with
  | states hp => exact Or.inl ⟨_, hp, hp⟩
  | conj hp _ ih => exact Or.inr ⟨_, _, hp, hp, List.forall₂_same.mpr ih⟩

end Universe

theorem attends_allM {V : Formula → Formula → Session → Session → Prop}
    {act act' : Formula → SearchM Session Bool} {fs gs : List Formula}
    (hV : ∀ {f g x y x' y'}, Further k x y x' y' → V f g x.2 y.2 → V f g x'.2 y'.2)
    (hact : ∀ {f g x y}, Alongside k x y → V f g x.2 y.2 → Attends k Same (act f) (act' g) x y)
    (h : Alongside k x y) (hfs : List.Forall₂ (fun f g => V f g x.2 y.2) fs gs) :
    Attends k Same (fs.allM act) (gs.allM act') x y := by
  induction fs generalizing gs x y with
  | nil =>
      cases hfs
      exact attends_pure h rfl
  | cons f fs ih =>
      cases hfs with
      | cons hfg hfs =>
          refine (hact h hfg).bind fun b _ x₁ y₁ hx₁ hb => ?_
          obtain rfl : b = _ := hb
          cases b with
          | true => exact ih hx₁.alongside (hfs.imp fun _ _ => hV hx₁)
          | false => exact attends_pure hx₁.alongside rfl

theorem attends_addLiteral (h : Alongside k x y) (hpq : Twin x.2.terms y.2.terms p q) :
    Attends k Same (Search.addProperty (backend M) (fuel + 1) p)
      (Search.addProperty (backend M) (fuel + 1) q) x y := by
  obtain ⟨s, hp, hq⟩ := id hpq
  have hconjuncts : (backend M).terms.conjuncts x.2 p = none := conjuncts_of_names hp
  have hconjuncts' : (backend M).terms.conjuncts y.2 q = none := conjuncts_of_names hq
  rw [Search.addProperty, Search.addProperty]
  refine attends_ask ?_
  rw [hconjuncts, hconjuncts']
  refine (attends_negate h hpq).bind fun n n' x₁ y₁ hx₁ hn => ?_
  refine (attends_act hx₁.alongside (mirrors_queryInit hx₁.alongside.session hn)).bind
    fun answer _ x₂ y₂ hx₂ hanswer => ?_
  obtain rfl : answer = _ := hanswer
  have h₂ := hx₂.alongside
  have hpq₂ := (hx₁.trans hx₂).twin hpq
  have hn₂ := hx₂.twin hn
  cases answer with
  | unknown => exact attends_throw h₂
  | sat model =>
      cases model with
      | none => exact attends_throw h₂
      | some model =>
          refine (attends_report h₂).bind fun _ _ x₃ y₃ hx₃ _ => ?_
          have h₃ := hx₃.alongside
          have hrecord : Onward k x₃.2 y₃.2 { x₃.2 with trace := model }
              { y₃.2 with trace := model } :=
            ⟨{ h₃.session with trace := rfl }, .refl _, .refl _⟩
          refine (attends_update h₃ hrecord).bind fun _ _ x₄ y₄ hx₄ _ => ?_
          have h₄ := hx₄.alongside
          have hpq₄ := (hx₃.trans hx₄).twin hpq₂
          exact (attends_change h₄ { h₄.search with
            lineage := (h₄.search.lineage.addProperty h₄.matching hpq₄).markPropertyInvalid }).bind
              fun _ _ x₅ y₅ hx₅ _ => attends_pure hx₅.alongside rfl
  | unsat =>
      have hrest : ∀ {x y}, Alongside k x y → Twin x.2.terms y.2.terms p q →
          Twin x.2.terms y.2.terms n n' →
          Attends k Same (do
            Search.bump n
            Search.change fun s => { s with lineage := s.lineage.addProperty p }
            return true) (do
            Search.bump n'
            Search.change fun s => { s with lineage := s.lineage.addProperty q }
            return true) x y := fun h hpq hn => by
        refine (attends_bump h hn).bind fun _ _ x₁ y₁ hx₁ _ => ?_
        have h₁ := hx₁.alongside
        exact (attends_change h₁ { h₁.search with
          lineage := h₁.search.lineage.addProperty h₁.matching (hx₁.twin hpq) }).bind
            fun _ _ x₂ y₂ hx₂ _ => attends_pure hx₂.alongside rfl
      refine attends_state ?_
      rw [h₂.search.frame.contains_eq h₂.matching hpq₂]
      split
      · exact hrest h₂ hpq₂ hn₂
      · refine (attends_addToFrame h₂ hpq₂ .first).bind fun _ _ x₃ y₃ hx₃ _ => ?_
        refine (attends_addToFrame hx₃.alongside (hx₃.twin hpq₂) .intermediate).bind
          fun _ _ x₄ y₄ hx₄ _ => ?_
        have hx := hx₃.trans hx₄
        refine (attends_enqueue hx₄.alongside (a := ⟨p, n, 0, .zero⟩) (b := ⟨q, n', 0, .zero⟩)
          ⟨hx.twin hpq₂, hx.twin hn₂, rfl, rfl⟩).bind fun _ _ x₅ y₅ hx₅ _ => ?_
        exact hrest hx₅.alongside ((hx.trans hx₅).twin hpq₂) ((hx.trans hx₅).twin hn₂)

theorem attends_addProperty {n : Nat} (h : Alongside k x y)
    (hpq : Kin x.2.terms y.2.terms n p q) :
    Attends k Same (Search.addProperty (backend M) fuel p)
      (Search.addProperty (backend M) fuel q) x y := by
  induction fuel generalizing n p q x y with
  | zero => exact attends_throw h
  | succ fuel ih =>
      cases n with
      | zero => exact hpq.elim
      | succ n =>
          rcases hpq with hpq | ⟨fs, gs, hp, hq, hfs⟩
          · exact attends_addLiteral h hpq
          · have hconjuncts : (backend M).terms.conjuncts x.2 p = some fs := conjuncts_of_conj hp
            have hconjuncts' : (backend M).terms.conjuncts y.2 q = some gs := conjuncts_of_conj hq
            rw [Search.addProperty, Search.addProperty]
            refine attends_ask ?_
            rw [hconjuncts, hconjuncts']
            exact attends_allM (V := fun f g w w' => Kin w.terms w'.terms n f g)
              (fun hx => Kin.extend hx.left hx.right) (fun h hfg => ih h hfg) h hfs

theorem validate_eq {w : Session} (hp : w.terms.Accepts p) :
    (backend M).terms.validate p w = .ok () w := by
  obtain ⟨s, hs⟩ := hp
  simp only [backend, vocabulary, bind, EStateM.bind, Action.run_get,
    hs]
  rfl

theorem tracks_validate (h : Alongside k x y) (hp : x.2.terms.Accepts p)
    (hq : y.2.terms.Accepts q) :
    Attends k Same (Search.act ((backend M).terms.validate p))
      (Search.act ((backend M).terms.validate q)) x y :=
  attends_act h (Action.tracks_of_ok (validate_eq hp) (validate_eq hq) ⟨.refl h.session, rfl⟩)

theorem attends_init (h : Alongside k x y) :
    Attends k Same (Search.act (backend M).reachability.init)
      (Search.act (backend M).reachability.init) x y := by
  refine attends_act h (Action.tracks_modify ⟨⟨{ h.session with reach := ⟨?_, .nil⟩ }, .refl _,
    .refl _⟩, rfl⟩)
  rw [h.session.system]

theorem tracks_conclude (h : Alongside k x y) (outcome : Outcome) :
    (Search.conclude outcome).Tracks (Search.conclude outcome) x y (Parted k)
      fun a b x' y' => a = b ∧ Alongside k x' y' := by
  rw [Search.conclude]
  exact Action.Tracks.bind ((attends_change h { h.search with outcome := rfl }).imp
    fun _ _ x₁ y₁ hx₁ => Action.tracks_pure ⟨rfl, hx₁.1.alongside⟩)

theorem tracks_run {n : Nat} (h : Alongside 0 x y) (hpq : Kin x.2.terms y.2.terms n p q)
    (hp : x.2.terms.Accepts p) (hq : y.2.terms.Accepts q) :
    (Search.run (backend M) config fuel p).Tracks (Search.run (backend M) config fuel q) x y
      (Parted 0) fun a b x' y' => a = b ∧ Alongside 0 x' y' := by
  rw [Search.run, Search.run]
  refine Action.Tracks.bind ((tracks_validate h hp hq).imp fun _ _ x₁ y₁ hx₁ => ?_)
  refine Action.Tracks.bind ((attends_init hx₁.1.alongside).imp fun _ _ x₂ y₂ hx₂ => ?_)
  have h₂ := hx₂.1.alongside
  refine Action.Tracks.bind ((attends_change h₂ { h₂.search with index := rfl, depth := rfl }).imp
    fun _ _ x₃ y₃ hx₃ => ?_)
  refine Action.Tracks.bind ((attends_clearFrame hx₃.1.alongside 1).imp fun _ _ x₄ y₄ hx₄ => ?_)
  have hx := hx₁.1.trans (hx₂.1.trans (hx₃.1.trans hx₄.1))
  refine Action.Tracks.bind ((attends_addProperty hx.alongside
    (hpq.extend hx.left hx.right)).imp fun initially _ x₅ y₅ hx₅ => ?_)
  obtain ⟨hx₅, rfl⟩ := hx₅
  have h₅ := hx₅.alongside
  cases initially with
  | false =>
      exact Action.Tracks.bind ((attends_report h₅).imp fun _ _ x₆ y₆ hx₆ =>
        tracks_conclude hx₆.1.alongside .invalid)
  | true =>
      refine Action.Tracks.bind ((attends_report h₅).imp fun _ _ x₆ y₆ hx₆ => ?_)
      refine Action.Tracks.bind (((tracks_rounds hx₆.1.alongside).attempt
        fun _ _ _ _ hfault => hfault).imp fun result result' x₇ y₇ hx₇ => ?_)
      have hunstage : ∀ {x y}, Alongside 0 x y → Alongside 0 ({ x.1 with staged := [] }, x.2)
          ({ y.1 with staged := [] }, y.2) := fun h =>
        ⟨{ h.search with staged := .nil }, h.session⟩
      rcases hx₇ with ⟨outcome, _, rfl, rfl, rfl, h₇⟩ | ⟨e, rfl, rfl, j, hj, h₇⟩
      · refine Action.Tracks.bind (Search.tracks_change (Action.Tracks.bind ?_))
        refine Action.tracks_pure (Action.Tracks.bind ?_)
        exact (attends_report (hunstage h₇)).imp fun _ _ x₈ y₈ hx₈ =>
          tracks_conclude hx₈.1.alongside outcome
      · obtain rfl := hj e rfl
        refine Action.Tracks.bind (Search.tracks_change (Action.Tracks.bind ?_))
        exact Action.tracks_throw ((hunstage h₇).parted _)

/-! The engine. -/

/-- Two names of one set of states. -/
def Denotes (u v : Universe) (f g : Formula) : Prop := ∃ s, u.eval f = .ok s ∧ v.eval g = .ok s

/-- Two engines that show the same. -/
structure Resembles (e e' : Engine Session) : Prop where
  stats : e.stats = e'.stats
  trace : e.world.trace = e'.world.trace
  frame : List.Forall₂ (Denotes e.world.terms e'.world.terms) e.frame e'.frame
  invariant : Option.Rel (List.Forall₂ (Denotes e.world.terms e'.world.terms)) e.invariant
    e'.invariant

/-- The same outcome or the same fault, after which the engines show the same. -/
inductive Indistinct : EStateM.Result Fault (Engine Session) Outcome →
    EStateM.Result Fault (Engine Session) Outcome → Prop
  | ok {outcome : Outcome} {e e' : Engine Session} :
      Resembles e e' → Indistinct (.ok outcome e) (.ok outcome e')
  | error {fault : Fault} {e e' : Engine Session} :
      Resembles e e' → Indistinct (.error fault e) (.error fault e')

theorem invariant_alike {R : Formula → Formula → Prop} {s s' : Search} {w w' : Session}
    (h : s.Alike R s') : Option.Rel (List.Forall₂ R)
      (Engine.invariant { search := some s, world := w })
      (Engine.invariant { search := some s', world := w' }) := by
  change Option.Rel _ (if s.outcome = some .valid then some s.frame.toList else none)
    (if s'.outcome = some .valid then some s'.frame.toList else none)
  rw [h.outcome]
  by_cases hvalid : s'.outcome = some .valid
  · rw [if_pos hvalid, if_pos hvalid]
    exact .some h.frame.members.keys
  · rw [if_neg hvalid, if_neg hvalid]
    exact .none

theorem Alongside.resembles (h : Alongside k x y) :
    Resembles { search := some x.1, world := x.2 } { search := some y.1, world := y.2 } := by
  have hsearch : x.1.Alike (Denotes x.2.terms y.2.terms) y.1 := h.search.mono fun hfg => by
    obtain ⟨s, hf, hg⟩ := hfg
    exact ⟨s, eval_eq hf, eval_eq hg⟩
  exact ⟨h.search.stats, h.session.trace, hsearch.frame.members.keys,
    invariant_alike hsearch⟩

/-- What two sessions have to share for a query to go the same way in both. -/
structure Comparable (w w' : Session) : Prop where
  matched : Matched w.terms w'.terms
  forward : w.forward = w'.forward
  shelf : w.journal.shelf = w'.journal.shelf
  still : w'.threshold = 0

theorem Comparable.opened {w w' : Session} (h : Comparable w w') (sys : TransitionSystem) :
    Alongside 0 (.blank, opened sys w) (.blank, opened sys w') where
  search := .blank
  session :=
    { matched := h.matched, system := rfl, forward := h.forward, induction := ⟨rfl, .nil, .nil⟩
      paths := ⟨rfl, rfl, .nil, rfl, rfl, rfl⟩, reach := ⟨rfl, .nil⟩, trace := rfl
      shelf := h.shelf, still := h.still }

variable {e e' : Engine Session} {sys : TransitionSystem}

/-- The engines of two searches that are alongside, whatever scopes a fault left open. -/
def Paired (e e' : Engine Session) : Prop :=
  ∃ k x y, Alongside k x y ∧ e = { search := some x.1, world := x.2 } ∧
    e' = { search := some y.1, world := y.2 }

theorem Paired.resembles (h : Paired e e') : Resembles e e' := by
  obtain ⟨k, x, y, h, rfl, rfl⟩ := h
  exact h.resembles

theorem tracks_query {n : Nat} (h : Comparable e.world e'.world)
    (hsize : sys.size = e.world.terms.size) (hpq : Kin e.world.terms e'.world.terms n p q)
    (hp : e.world.terms.Accepts p) (hq : e'.world.terms.Accepts q) :
    (Engine.query (backend M) config fuel sys p).Tracks
      (Engine.query (backend M) config fuel sys q) e e' (fun _ => Paired)
      fun a b e e' => a = b ∧ Paired e e' := by
  rw [Action.Tracks, query_of_size hsize, query_of_size (hsize.trans h.matched.size)]
  refine Action.tracks_within ((tracks_run (h.opened sys) hpq hp hq).mono
    (fun _ x y hxy => ?_) fun _ _ x y hxy => ?_)
  · obtain ⟨j, _, hxy⟩ := hxy
    exact ⟨j, x, y, hxy, rfl, rfl⟩
  · exact ⟨hxy.1, 0, x, y, hxy.2, rfl, rfl⟩

theorem indistinct_of_tracks {act act' : Action (Engine Session) Outcome}
    (h : act.Tracks act' e e' (fun _ => Paired) fun a b e e' => a = b ∧ Paired e e')
    (hends : act.Ends e Fault.Shared fun _ _ => True) : Indistinct (act e) (act' e') := by
  rw [Action.Tracks] at h
  rw [Action.Ends] at hends
  cases hrun : act e with
  | ok outcome e₁ =>
      rw [hrun] at h
      obtain ⟨_, e₁', hrun', rfl, hpaired⟩ := h
      rw [hrun']
      exact .ok hpaired.resembles
  | error fault e₁ =>
      rw [hrun] at h hends
      obtain ⟨e₁', hrun', hpaired⟩ := h hends
      rw [hrun']
      exact .error hpaired.resembles

theorem shared_query (hu : e.world.terms.Canonical) (hn : e.world.terms.size = sys.size)
    (hp : e.world.terms.Accepts p) :
    Action.Ends (Engine.query backend config fuel sys p) e Fault.Shared fun _ _ => True :=
  (ends_query_of_canonical (E := Fault.Shared) (fun _ => ⟨fun _ _ => trivial, fun _ _ => trivial⟩)
    (fun _ _ => trivial) (fits_word64 sys) hu hn hp fun _ => trivial).imp fun _ _ _ => trivial

def withThreshold (threshold : Nat) (e : Engine Session) : Engine Session :=
  { e with world := { e.world with threshold } }

theorem indistinct_of_size_ne (hsize : sys.size ≠ e.world.terms.size) (threshold : Nat) :
    Indistinct (Engine.query (backend M) config fuel sys p (withThreshold threshold e))
      (Engine.query (backend M) config fuel sys p (withThreshold 0 e)) := by
  rw [query_of_size_ne (e := withThreshold threshold e) hsize,
    query_of_size_ne (e := withThreshold 0 e) hsize]
  obtain ⟨cex, hreset⟩ := reset_eq (M := M) (withThreshold threshold e)
  obtain ⟨cex', hreset'⟩ := reset_eq (M := M) (withThreshold 0 e)
  rw [hreset, hreset']
  exact .error ⟨rfl, rfl, .nil, .none⟩

theorem indistinct_of_refused (h : Comparable e.world e'.world)
    (hsize : sys.size = e.world.terms.size) {flaw : Flaw} (hp : e.world.terms.eval p = .error flaw)
    (hq : e'.world.terms.eval q = .error flaw) :
    Indistinct (Engine.query (backend M) config fuel sys p e)
      (Engine.query (backend M) config fuel sys q e') := by
  rw [query_of_size hsize, query_of_size (hsize.trans h.matched.size)]
  simp only [Engine.onSearch, Action.within, run_of_refused (w := opened sys _) hp,
    run_of_refused (w := opened sys _) hq]
  exact .error (h.opened sys).resembles

/-- Sweeping the universe during a query is not seen from outside. -/
theorem query_sweep_unseen {n : Nat} (hbuilt : e.world.terms.Built n) (threshold : Nat) :
    Indistinct (Engine.query backend config fuel sys p (withThreshold threshold e))
      (Engine.query backend config fuel sys p (withThreshold 0 e)) := by
  obtain ⟨hu, -⟩ := hbuilt.canonical
  by_cases hsize : sys.size = e.world.terms.size
  · have hstart : Comparable (withThreshold threshold e).world (withThreshold 0 e).world :=
      ⟨.refl hu, rfl, rfl, rfl⟩
    cases heval : e.world.terms.eval p with
    | error flaw => exact indistinct_of_refused hstart hsize heval heval
    | ok s =>
        have hp : e.world.terms.Accepts p := ⟨s, heval⟩
        exact indistinct_of_tracks (tracks_query hstart hsize (hp.proper hu).kin hp hp)
          (shared_query (e := withThreshold threshold e) hu hsize.symm hp)
  · exact indistinct_of_size_ne hsize threshold

def stepTerms? : EStateM.Result Fault (Engine Session) Outcome → Option Nat
  | .ok _ e => some e.world.terms.stepTerms
  | .error _ _ => none

theorem littered_unseen :
    stepTerms? (Engine.query backend { maxFrames := 3 } 34 dangling ⟨0⟩
        (withThreshold 1 littered)) = some 0 ∧
      stepTerms? (Engine.query backend { maxFrames := 3 } 34 dangling ⟨0⟩
        (withThreshold 0 littered)) = some 1 ∧
      Indistinct
        (Engine.query backend { maxFrames := 3 } 34 dangling ⟨0⟩ (withThreshold 1 littered))
        (Engine.query backend { maxFrames := 3 } 34 dangling ⟨0⟩ (withThreshold 0 littered)) :=
  ⟨by decide +kernel, by decide +kernel, query_sweep_unseen (e := littered) built_littered 1⟩

end Invariance.FiniteState
