import Invariance.Proofs.FiniteState.Twins.Pushing

/-!
Rounds side by side. The first search may sweep its universe between two rounds while the second
one goes on with all its terms: every formula that the first one keeps is renamed to a twin of what
it was a twin of before, so the two stay alongside.
-/

namespace Invariance.FiniteState

open Universe Session

variable {M : Machine} {config : Config} {k : Nat} {α β : Type} {x y : Search × Session}
  {a b : Obligation}

theorem attends_forM {V : α → β → Session → Session → Prop} {act : α → SearchM Session PUnit}
    {act' : β → SearchM Session PUnit} {l : List α} {l' : List β}
    (hV : ∀ {a b x y x' y'}, Further k x y x' y' → V a b x.2 y.2 → V a b x'.2 y'.2)
    (hact : ∀ {a b x y}, Alongside k x y → V a b x.2 y.2 → Attends k Same (act a) (act' b) x y)
    (h : Alongside k x y) (hl : List.Forall₂ (fun a b => V a b x.2 y.2) l l') :
    Attends k Same (l.forM act) (l'.forM act') x y := by
  induction l generalizing l' x y with
  | nil =>
      cases hl
      exact attends_pure h rfl
  | cons a l ih =>
      cases hl with
      | cons hab hl =>
          exact (hact h hab).bind fun _ _ x₁ y₁ hx₁ _ =>
            ih hx₁.alongside (hl.imp fun _ _ => hV hx₁)

theorem attends_deepen (h : Alongside k x y) :
    Attends k Same (Search.deepen (backend M)) (Search.deepen (backend M)) x y := by
  rw [Search.deepen]
  refine (attends_change h { h.search with
    agenda := .empty, stats := by simp only [h.search.stats], counted := rfl }).bind
      fun _ _ x₁ y₁ hx₁ _ => attends_state (attends_state ?_)
  have h₁ := hx₁.alongside
  rw [h₁.search.index]
  refine (attends_checkedAdd h₁ _ _).bind fun depth _ x₂ y₂ hx₂ hdepth => ?_
  obtain rfl : depth = _ := hdepth
  have h₂ := hx₂.alongside
  refine (attends_change h₂ { h₂.search with depth := rfl }).bind fun _ _ x₃ y₃ hx₃ _ => ?_
  refine (attends_clearFrame hx₃.alongside depth).bind fun _ _ x₄ y₄ hx₄ _ => ?_
  have h₄ := hx₄.alongside
  exact (attends_change h₄ { h₄.search with stats := by simp only [h₄.search.stats] }).bind
    fun _ _ x₅ y₅ hx₅ _ => attends_report hx₅.alongside

theorem attends_restore (h : Alongside k x y) (hab : a.Alike (Twin x.2.terms y.2.terms) b) :
    Attends k Same (Search.restore (backend M) a) (Search.restore (backend M) b) x y := by
  rw [Search.restore, Search.restore]
  refine (attends_negate h hab.counter).bind fun n n' x₁ y₁ hx₁ hn => ?_
  refine (attends_addToFrame hx₁.alongside hn .first).bind fun _ _ x₂ y₂ hx₂ _ => ?_
  refine (attends_addToFrame hx₂.alongside (hx₂.twin hn) .intermediate).bind
    fun _ _ x₃ y₃ hx₃ _ => ?_
  exact attends_enqueue hx₃.alongside ((hx₁.trans (hx₂.trans hx₃)).obligation hab)

/-- A change that is described by what it establishes. -/
theorem tracks_establish {s s' : Search → Search} (P : Search → Prop) (h : Alongside k x y)
    (hs : (s x.1).Alike (Twin x.2.terms y.2.terms) (s' y.1)) (hP : P (s' y.1)) :
    (Search.change s).Tracks (Search.change s') x y (Parted k) fun _ _ x' y' =>
      Further k x y x' y' ∧ P y'.1 :=
  Search.tracks_change ⟨h.change hs, hP⟩

theorem tracks_rebuild (h : Alongside k x y) :
    (Search.rebuild (backend M)).Tracks (Search.rebuild (backend M)) x y (Parted k)
      fun _ _ x' y' => Alongside k x' y' ∧ Backed x' ∧ Search.Counted y'.1 := by
  rw [Search.rebuild]
  refine Action.Tracks.bind (Search.tracks_state (Action.Tracks.bind ?_))
  refine (attends_change h { h.search with staged := .nil }).imp fun _ _ x₁ y₁ hx₁ => ?_
  replace hx₁ := hx₁.1
  have hobs : List.Forall₂ (Obligation.Alike (Twin x₁.2.terms y₁.2.terms)) x.1.staged y.1.staged :=
    h.search.staged.imp fun _ _ => hx₁.obligation
  refine Action.Tracks.bind ((attends_forM
    (V := fun a b w w' => a.Alike (Twin w.terms w'.terms) b) (fun hx => hx.obligation)
    attends_restore hx₁.alongside hobs).imp fun _ _ x₂ y₂ hx₂ => ?_)
  replace hx₂ := hx₂.1
  have h₂ := hx₂.alongside
  have hframe := h₂.search.frame.foldl_insert h₂.matching
    (hobs.imp fun _ _ => hx₂.obligation)
  refine Action.Tracks.bind ((attends_change h₂ { h₂.search with frame := hframe }).imp
    fun _ _ x₃ y₃ hx₃ => ?_)
  have h₃ := hx₃.1.alongside
  refine Action.Tracks.bind ((tracks_establish Search.Counted h₃ { h₃.search with
    stats := by simp only [h₃.search.stats, h₃.search.frame.size_eq] } (by exact rfl)).imp
      fun _ _ x₄ y₄ hx₄ => ?_)
  obtain ⟨hx₄, hcounted⟩ := hx₄
  have h₄ := hx₄.alongside
  refine Action.Tracks.bind ((tracks_establish Search.Counted h₄ { h₄.search with
    stats := by simp only [h₄.search.stats] } hcounted).imp fun _ _ x₅ y₅ hx₅ => ?_)
  obtain ⟨hx₅, hcounted₅⟩ := hx₅
  have h₅ := hx₅.alongside
  refine Action.Tracks.bind ((tracks_checkRefutations h₅).imp fun _ _ x₆ y₆ hx₆ => ?_)
  obtain ⟨rfl, rfl, hbacked⟩ := hx₆
  refine Action.Tracks.bind (Search.tracks_state (Action.Tracks.bind (Search.tracks_state ?_)))
  rw [h₅.search.index, h₅.search.depth]
  refine Action.Tracks.bind (Action.tracks_ofExcept h₅.parted (fun index hindex =>
    ⟨index, hindex, Search.tracks_change ⟨⟨?_, h₅.session⟩, hbacked, hcounted₅⟩⟩) fun _ hv _ => hv)
  exact { h₅.search with index := rfl, stats := by simp only [h₅.search.stats] }

theorem ends_checkRefutations_of_backed {E : Fault → Prop} {Q : Unit → Search × Session → Prop}
    (hu : x.2.terms.Canonical) (hq : x.1.agenda.Valid) (hx : Backed x) (h : Q () x) :
    Action.Ends (Search.checkRefutations (backend M)) x E Q := by
  rw [Action.Ends, checkRefutations_of_backed hu hq hx]
  exact h

/-- A sweep of the first universe, with the relocation that follows it. -/
theorem ends_sweepAlong (h : Alongside 0 x y) (hstaged : x.1.staged = []) (hbacked : Backed x)
    (hcounted : Search.Counted y.1) {journal : Journal}
    (hshelf : journal.shelf = x.2.journal.shelf) :
    Action.Ends (Search.relocate (backend M) x.2.terms.sweep.1)
      (x.1, { x.2 with terms := x.2.terms.sweep.2, journal }) (fun _ => False)
      fun _ x' => Alongside 0 x' y ∧ x'.2.terms = x.2.terms.sweep.2 := by
  obtain ⟨s, w⟩ := x
  replace hstaged : s.staged = [] := hstaged
  obtain ⟨hmatched, hmoves⟩ := h.session.matched.sweep
  have hr : w.terms.sweep.1.Moves (Twin w.terms y.2.terms) (Twin w.terms.sweep.2 y.2.terms) :=
    hmoves
  have hframe := h.search.frame.relocate hmatched.matching hr
  obtain ⟨lost, q₁, hq₁, halike₁⟩ := h.search.agenda.relocate h.matching hmatched.matching hr
  obtain ⟨q₂, hq₂, halike₂⟩ := halike₁.ofList
  have hbacks : ∀ {q : Agenda}, q.Alike (Twin w.terms.sweep.2 y.2.terms) y.1.agenda →
      Backs w.terms.sweep.2 q.bySlot (s.frame.relocate w.terms.sweep.1) := fun hq =>
    Backs.left (h.backed hbacked) hmatched hq hframe
  rw [Search.relocate, Action.ends_bind, Search.ends_state]
  simp only [hstaged, List.isEmpty_nil, if_true]
  rw [Action.ends_bind, Search.ends_change, Action.ends_bind, Search.ends_state, Action.ends_bind]
  change Action.Ends (Action.ofExcept (s.agenda.relocate w.terms.sweep.1)) _ _ _
  rw [hq₁, Action.ends_ofExcept_ok, Action.ends_bind]
  refine (Action.ends_filterM (I := (· = _)) (fun ob hob t ht => ?_) rfl).imp fun kept t ht => ?_
  · subst ht
    obtain ⟨f, hf, hin⟩ := hbacks halike₁ ob hob
    rw [Action.ends_bind, Search.ends_state, Action.ends_bind, Action.Ends,
      run_negate hmatched.left hf]
    exact ⟨hin, rfl⟩
  obtain ⟨rfl, rfl⟩ := ht
  rw [Action.ends_bind, hq₂, Action.ends_ofExcept_ok, Action.ends_bind, Search.ends_change,
    Action.ends_bind]
  refine ends_checkRefutations_of_backed hmatched.left halike₂.valid.1 (hbacks halike₂) ?_
  rw [Action.ends_bind, Search.ends_change, Action.ends_bind, Search.ends_update, Action.ends_bind,
    Search.ends_update, Action.ends_bind, Search.countFrame, Search.ends_change, Action.ends_bind,
    Search.ends_change]
  refine ⟨⟨h.search.relocate hmatched.matching hr hstaged hcounted halike₂, ?_⟩, rfl⟩
  exact h.session.relocate ((shelf_record _ _).trans ((shelf_record _ _).trans hshelf))

theorem sweep_cases (w : Session) :
    (backend M).oracle.sweep w = .ok none w ∨
      ∃ journal, journal.shelf = w.journal.shelf ∧ (backend M).oracle.sweep w =
        .ok (some w.terms.sweep.1) { w with terms := w.terms.sweep.2, journal } := by
  simp only [backend, oracle, bind, EStateM.bind, Action.run_get]
  split
  · exact Or.inl rfl
  · exact Or.inr ⟨_, shelf_record _ _, rfl⟩

theorem tracks_sweep (h : Alongside k x y) :
    (Search.act (backend M).oracle.sweep).Tracks (Search.act (backend M).oracle.sweep) x y
      (Parted k) fun r r' x' y' => r' = none ∧ y' = y ∧ (r = none ∧ x' = x ∨
        ∃ journal, journal.shelf = x.2.journal.shelf ∧ r = some x.2.terms.sweep.1 ∧
          x' = (x.1, { x.2 with terms := x.2.terms.sweep.2, journal })) := by
  refine Search.tracks_act ?_
  rcases sweep_cases (M := M) x.2 with hrun | ⟨journal, hshelf, hrun⟩
  · exact Action.tracks_of_ok hrun (sweep_of_still h.session.still) ⟨rfl, rfl, Or.inl ⟨rfl, rfl⟩⟩
  · exact Action.tracks_of_ok hrun (sweep_of_still h.session.still)
      ⟨rfl, rfl, Or.inr ⟨journal, hshelf, rfl, rfl⟩⟩

theorem tracks_advance (h : Alongside 0 x y) :
    (Search.advance (backend M) config).Tracks (Search.advance (backend M) config) x y (Parted 0)
      fun a b x' y' => a = b ∧ Alongside 0 x' y' := by
  rw [Search.advance]
  refine Action.Tracks.bind ((attends_deepen h).imp fun _ _ x₁ y₁ hx₁ => ?_)
  have h₁ := hx₁.1.alongside
  refine Action.Tracks.bind (Search.tracks_state ?_)
  rw [Search.atBound, Search.atBound, h₁.search.stats]
  split
  · exact Action.Tracks.bind ((attends_report h₁).imp fun _ _ x₂ y₂ hx₂ =>
      Action.tracks_pure ⟨rfl, hx₂.1.alongside⟩)
  · refine Action.Tracks.bind ((tracks_rebuild h₁).imp fun _ _ x₂ y₂ hx₂ => ?_)
    obtain ⟨h₂, hbacked, hcounted⟩ := hx₂
    refine Action.Tracks.bind ((tracks_sweep h₂).imp fun r r' x₃ y₃ hr => ?_)
    obtain ⟨rfl, rfl, ⟨rfl, rfl⟩ | ⟨journal, hshelf, rfl, rfl⟩⟩ := hr
    · exact Action.tracks_pure ⟨rfl, h₂⟩
    · by_cases hstaged : x₂.1.staged = []
      · refine Action.Ends.tracks_pure ?_
        rw [Action.ends_bind]
        exact (ends_sweepAlong h₂ hstaged hbacked hcounted hshelf).imp fun _ x₃ hx₃ =>
          ⟨rfl, hx₃.1⟩
      · -- a sweep must not find anything staged
        have hempty : x₂.1.staged.isEmpty = false := by simpa using hstaged
        simp only [Action.Tracks, bind, EStateM.bind, Search.relocate, Search.state, hempty]
        exact False.elim

theorem attends_showInvariant (h : Alongside k x y) :
    Attends k Same (Search.showInvariant (backend M) config)
      (Search.showInvariant (backend M) config) x y := by
  rw [Search.showInvariant]
  cases config.showInvariant with
  | false => exact attends_pure h rfl
  | true =>
      refine attends_state (attends_forM (V := fun _ _ _ _ => True) (fun _ _ => trivial)
        (fun hx _ => attends_report hx) h ?_)
      exact h.search.frame.members.keys.imp fun _ _ _ => trivial

theorem tracks_rounds : ∀ {bound fuel : Nat} {x y : Search × Session}, Alongside 0 x y →
    (Search.rounds (backend M) config bound fuel).Tracks
      (Search.rounds (backend M) config bound fuel) x y (Parted 0)
      fun a b x' y' => a = b ∧ Alongside 0 x' y'
  | 0, _, _, _, h => Action.tracks_throw (h.parted _)
  | bound + 1, fuel, x, y, h => by
      rw [Search.rounds]
      refine Action.Tracks.bind ((attends_drainFrame h).imp fun rest _ x₁ y₁ hx₁ => ?_)
      obtain ⟨hx₁, rfl⟩ := hx₁
      have h₁ := hx₁.alongside
      refine Action.Tracks.bind ((attends_change h₁ { h₁.search with
        stats := by simp only [h₁.search.stats] }).imp fun _ _ x₂ y₂ hx₂ => ?_)
      have h₂ := hx₂.1.alongside
      refine Action.Tracks.bind (Search.tracks_state ?_)
      rw [h₂.search.lineage.propertyInvalid, h₂.search.frame.size_eq, h₂.search.staged.length_eq]
      split
      · exact Action.tracks_pure ⟨rfl, h₂⟩
      split
      · exact Action.Tracks.bind ((attends_showInvariant h₂).imp fun _ _ x₃ y₃ hx₃ =>
          Action.tracks_pure ⟨rfl, hx₃.1.alongside⟩)
      · refine Action.Tracks.bind ((tracks_advance h₂).imp fun more _ x₃ y₃ hx₃ => ?_)
        obtain ⟨rfl, h₃⟩ := hx₃
        cases more with
        | true => exact tracks_rounds h₃
        | false => exact Action.tracks_pure ⟨rfl, h₃⟩

end Invariance.FiniteState
