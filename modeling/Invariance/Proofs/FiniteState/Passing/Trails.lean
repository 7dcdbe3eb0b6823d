import Invariance.Proofs.FiniteState.Passing.Queries
import Invariance.Proofs.FiniteState.Passing.Tracing

/-!
The provenance along the trail of a query, from its first state to its last: there is none until the
loop is entered, and from then on it is a forest of segments, from which nothing gets lost.
-/

namespace Invariance.FiniteState

open Universe Session

variable {config : Config} {fuel : Nat} {sys : TransitionSystem} {p : Formula}
  {e : Engine Session} {x y : Search × Session} {w : Session}

/-- The states that a query passes through once the system is loaded. -/
def trail (config : Config) (fuel : Nat) (sys : TransitionSystem) (p : Formula)
    (e : Engine Session) : List (Search × Session) :=
  match (backend).load sys (Engine.reset backend e).world with
  | .error _ _ => []
  | .ok _ w => (.blank, w) :: (Search.runCourse backend config fuel p).visited (.blank, w)

theorem trail_of_size (h : sys.size = e.world.terms.size) :
    trail config fuel sys p e = (.blank, opened sys e.world) ::
      (Search.runCourse backend config fuel p).visited (.blank, opened sys e.world) := by
  obtain ⟨cex, hreset⟩ := reset_eq (M := .word64) e
  rw [trail, hreset, load_eq, if_pos h]
  rfl

theorem trail_of_mismatch (h : sys.size ≠ e.world.terms.size) :
    trail config fuel sys p e = [] := by
  obtain ⟨cex, hreset⟩ := reset_eq (M := .word64) e
  rw [trail, hreset, load_eq, if_neg h]

/-- The engine that the query leaves holds the last of these states. -/
theorem final_trail (h : sys.size = e.world.terms.size) :
    ∃ x ∈ trail config fuel sys p e, (Engine.query backend config fuel sys p).final e =
      { search := some x.1, world := x.2 } := by
  rw [trail_of_size h]
  refine ⟨_, List.mem_cons_of_mem _ (Course.final_mem _ _), ?_⟩
  rw [← Search.run_eq, Action.final, query_of_size h]
  change (Engine.onSearch .blank _).final _ = _
  rw [Engine.onSearch, Action.final_within]

/-! Before the loop. -/

/-- Nothing has been learnt yet. -/
def Unlearnt (x : Search × Session) : Prop := x.1.lineage.origins = .empty

def unlearning (x y : Search × Session) : Prop := y.1.lineage.origins = x.1.lineage.origins

theorem respects_unlearning : Course.Respects unlearning Unlearnt Carried where
  refl _ := rfl
  stays h hx := h.trans hx
  relates h h' := .kept fun f o ho => by
    rw [Lineage.origin?, h'.trans h.symm]
    exact ho

theorem Unlearnt.provenance (h : Unlearnt x) : Provenance sys x.2.terms x.1.lineage :=
  provenance_of_unlearnt h

namespace Enters

theorem traceable {n : Nat} (hbuilt : e.world.terms.Built n) (h : Enters fuel sys p e x)
    (hx : Unlearnt x) : Traceable sys x where
  toProvenance := hx.provenance
  named q hq := by
    obtain ⟨ob, _, c, _, hc⟩ := (h.opening hbuilt).descends.literal q hq
    exact ⟨_, hc⟩

end Enters

/-! The query. -/

theorem enters_of_ok (hsize : sys.size = e.world.terms.size)
    (h : Search.enter backend fuel p (.blank, opened sys e.world) = .ok true x) :
    Enters fuel sys p e x := by
  obtain ⟨cex, hreset⟩ := reset_eq (M := .word64) e
  refine ⟨opened sys e.world, ?_, h⟩
  rw [hreset, load_eq, if_pos hsize]
  rfl

theorem follows_run {n : Nat} (hbuilt : e.world.terms.Built n)
    (hsize : sys.size = e.world.terms.size) :
    (Search.runCourse backend config fuel p).Follows
      (fun x => Provenance sys x.2.terms x.1.lineage) Carried (.blank, opened sys e.world)
      fun _ _ => True := by
  have henter : (Search.enterCourse backend fuel p).Stays unlearning :=
    Search.fixed_enter (v := fun s => s.lineage.origins) (fun _ _ _ _ _ _ _ _ => rfl)
      (fun _ _ => rfl) fuel p
  have hrefused : (Course.bind (.move (Search.report backend .info
      "property fails in an initial state")) fun _ => .move (Search.conclude .invalid)).Stays
      unlearning :=
    Search.Fixed.bind (v := fun s => s.lineage.origins) (Search.fixed_report _ _ _) fun _ =>
      Course.stays_move fun _ => rfl
  have hblank : Unlearnt (.blank, opened sys e.world) := rfl
  refine .bind ((((henter.follows respects_unlearning hblank).and Action.ends_self).mono
    fun _ => Unlearnt.provenance).imp fun answer x _ hx => ?_)
  obtain ⟨hunlearnt, hrun⟩ := hx
  refine Course.follows_branch (fun hyes => ?_) fun _ => ?_
  · subst hyes
    have h := enters_of_ok hsize hrun
    exact (follows_loop guided_traceable (fits_word64 sys) (h.traceable hbuilt hunlearnt)
      (h.opening hbuilt)).mono fun _ hx => hx.toProvenance
  · exact (hrefused.last respects_unlearning hunlearnt).mono fun _ => Unlearnt.provenance

theorem query_provenance {n : Nat} (hbuilt : e.world.terms.Built n) :
    (∀ x ∈ trail config fuel sys p e, Provenance sys x.2.terms x.1.lineage) ∧
      (trail config fuel sys p e).IsChain Carried := by
  by_cases hsize : sys.size = e.world.terms.size
  · rw [trail_of_size hsize]
    have hstart : Provenance sys (opened sys e.world).terms Search.blank.lineage :=
      provenance_of_unlearnt rfl
    exact ⟨List.forall_mem_cons.mpr ⟨hstart, (follows_run hbuilt hsize).keeps.1⟩,
      (follows_run hbuilt hsize).chain⟩
  · rw [trail_of_mismatch hsize]
    exact ⟨List.forall_mem_nil _, .nil⟩

/-- On this trail, one formula is learnt before the universe is swept. -/
def sweptTrail : List (Search × Session) := trail { maxFrames := 3 } 34 dangling ⟨0⟩ littered

/-- The sweep takes one from the numbers of what is learnt and of what it refutes. -/
theorem dangling_origins :
    (∃ x ∈ sweptTrail,
      x.1.lineage.origin? ⟨4⟩ = some { parent := ⟨0⟩, refutes := ⟨3⟩, depth := 1 } ∧
        Provenance dangling x.2.terms x.1.lineage) ∧
    (∃ x ∈ sweptTrail,
      x.1.lineage.origin? ⟨3⟩ = some { parent := ⟨0⟩, refutes := ⟨2⟩, depth := 1 } ∧
        Provenance dangling x.2.terms x.1.lineage) ∧ sweptTrail.IsChain Carried := by
  obtain ⟨hall, hchain⟩ : (∀ x ∈ sweptTrail, Provenance dangling x.2.terms x.1.lineage) ∧
      sweptTrail.IsChain Carried := query_provenance built_littered
  have hbefore : sweptTrail.any (fun x =>
      x.1.lineage.origin? ⟨4⟩ = some { parent := ⟨0⟩, refutes := ⟨3⟩, depth := 1 }) = true := by
    decide +kernel
  have hafter : sweptTrail.any (fun x =>
      x.1.lineage.origin? ⟨3⟩ = some { parent := ⟨0⟩, refutes := ⟨2⟩, depth := 1 }) = true := by
    decide +kernel
  obtain ⟨x, hx, horigin⟩ := List.any_eq_true.mp hbefore
  obtain ⟨y, hy, hrenamed⟩ := List.any_eq_true.mp hafter
  exact ⟨⟨x, hx, of_decide_eq_true horigin, hall x hx⟩,
    ⟨y, hy, of_decide_eq_true hrenamed, hall y hy⟩, hchain⟩

end Invariance.FiniteState
