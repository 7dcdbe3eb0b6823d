import Invariance.Proofs.Agenda.Rebuild
import Invariance.Proofs.Search.Endings
import Invariance.Proofs.Transcripts.Failures
import Invariance.Scripted.Player

/-!
After an error. A query whose backend fails it ends with the first failure, and it leaves the engine
fit for use: there is no outcome, no scope is open that was not open before, and a relocation goes
through.
-/

namespace Invariance

open Action Call

variable {S σ μ : Type} {B : Backend S σ μ} {config : Config} {fuel : Nat} {s : Search} {w : σ}
  {ℓ ℓ' : List (Call μ)} {r : Relocation}

namespace Call

/-- Whenever a formula is negated, its negation is the same. -/
def Consistent (ℓ : List (Call μ)) : Prop := ∀ f g g', .negated f (.ok g) ∈ ℓ →
  .negated f (.ok g') ∈ ℓ → g = g'

end Call

namespace Search

theorem owns_run (property : Formula) : Owns (run B.logged config fuel property) := by
  refine (owns_act (fun _ _ => ⟨rfl, rfl⟩) _).bind fun _ =>
    (owns_act (fun _ _ => ⟨rfl, rfl⟩) _).bind fun _ => (owns_change _).bind fun _ =>
      (owns_clearFrame _).bind fun _ => (owns_addProperty _ _).bind fun _ => .ite ?_
        ((owns_report _ _ _).bind fun _ => (owns_change _).bind fun _ => owns_pure _)
  refine (owns_report _ _ _).bind fun _ t ht => Action.Yields.bind
    ((owns_rounds fuel fuel t ht).caught.mono (fun _ _ h => h.1) fun result t' h => ?_)
  rcases h with ⟨outcome, rfl, hnone, hkept⟩ | ⟨e, rfl, howned⟩
  · refine OwnsFrom.after hkept (Owns.start ?_ hnone)
    exact (owns_change _).bind fun _ => (owns_pure outcome).bind fun _ =>
      (owns_report _ _ _).bind fun _ => (owns_change _).bind fun _ => owns_pure _
  · exact howned

/-! Relocation. -/

/-- Only a call can bring about this fault, or negations that contradict one another. -/
def Excused (fault : Fault) (t : Search × σ × List (Call μ)) : Prop :=
  Consistent t.2.2 → Faulted t.2.2 fault

theorem excused_negate (f : Formula) :
    (negate B.logged f).Yields (s, w, ℓ) Excused
      fun g t => t.1 = s ∧ t.2.2 = .negated f (.ok g) :: ℓ :=
  .within (Action.yields_ofStep_noting (fun answer _ => Call.negated f answer)
    (fun _ _ _ => ⟨_, List.mem_cons_self, rfl⟩) fun _ _ => ⟨rfl, rfl⟩)

/-- The refutation of each of these was looked up and found in the frame. -/
def Refuted (ℓ : List (Call μ)) (frame : Frame) (obs : List Obligation) : Prop :=
  ∀ ob ∈ obs, ∃ g, .negated ob.counter (.ok g) ∈ ℓ ∧ frame.contains g = true

theorem excused_keep (obs : List Obligation) :
    Action.Yields (obs.filterM fun ob => do
      return (← state).frame.contains (← negate B.logged ob.counter)) (s, w, ℓ) Excused
        fun kept t => t.1 = s ∧ kept.Sublist obs ∧ Refuted t.2.2 s.frame kept := by
  have key : ∀ (obs acc : List Obligation) (w : σ) (ℓ : List (Call μ)), Refuted ℓ s.frame acc →
      Action.Yields (List.filterAuxM (fun ob => do
        return (← state).frame.contains (← negate B.logged ob.counter)) obs acc) (s, w, ℓ)
        Excused fun found t => t.1 = s ∧ Refuted t.2.2 s.frame found ∧
          ∃ kept : List Obligation, found = kept.reverse ++ acc ∧ kept.Sublist obs := by
    intro obs
    induction obs with
    | nil => exact fun acc w ℓ hacc => ⟨rfl, hacc, [], rfl, .slnil⟩
    | cons ob obs ih =>
        intro acc w ℓ hacc
        refine Action.Yields.bind (Action.Yields.bind (Action.Yields.bind
          ((excused_negate ob.counter).imp fun g t ht => ?_)))
        obtain ⟨s', w', ℓ'⟩ := t
        obtain ⟨rfl, rfl⟩ := ht
        have hlater : Refuted (.negated ob.counter (.ok g) :: ℓ) s'.frame acc := fun o ho => by
          obtain ⟨g', hg', hin⟩ := hacc o ho
          exact ⟨g', List.mem_cons_of_mem _ hg', hin⟩
        refine Action.yields_pure ?_
        change Action.Yields (List.filterAuxM _ obs (bif s'.frame.contains g then _ else _)) _ _ _
        cases hin : s'.frame.contains g with
        | false =>
            refine (ih acc w' _ hlater).imp fun found t hrest => ?_
            obtain ⟨hs, hfound, kept, rfl, hkept⟩ := hrest
            exact ⟨hs, hfound, kept, rfl, hkept.cons ob⟩
        | true =>
            have hfirst : Refuted (.negated ob.counter (.ok g) :: ℓ) s'.frame (ob :: acc) :=
              List.forall_mem_cons.mpr ⟨⟨g, List.mem_cons_self, hin⟩, hlater⟩
            refine (ih (ob :: acc) w' _ hfirst).imp fun found t hrest => ?_
            obtain ⟨hs, hfound, kept, rfl, hkept⟩ := hrest
            exact ⟨hs, hfound, ob :: kept, by simp, hkept.cons_cons ob⟩
  refine Action.Yields.bind ((key obs [] w ℓ nofun).imp fun found t h => ?_)
  obtain ⟨hs, hfound, kept, rfl, hkept⟩ := h
  rw [List.append_nil] at hfound ⊢
  rw [List.reverse_reverse]
  exact ⟨hs, hkept, fun ob hob => hfound ob (List.mem_reverse.mpr hob)⟩

theorem excused_refutations {obs : List Obligation} (h : Refuted ℓ s.frame obs) :
    Action.Yields (obs.forM fun ob => do
      let refutation ← negate B.logged ob.counter
      unless (← state).frame.contains refutation do
        Action.violate (.refutationLost ob.counter)) (s, w, ℓ) Excused fun _ _ => True := by
  induction obs generalizing w ℓ with
  | nil => trivial
  | cons ob obs ih =>
      obtain ⟨⟨g, hg, hin⟩, hrest⟩ := List.forall_mem_cons.mp h
      refine Action.Yields.bind (Action.Yields.bind ((excused_negate ob.counter).imp
        fun g' t ht => Action.Yields.bind ?_))
      obtain ⟨s', w', ℓ'⟩ := t
      obtain ⟨rfl, rfl⟩ := ht
      refine Action.Yields.ite (fun _ => ih fun o ho => ?_) fun hout hconsistent => ?_
      · obtain ⟨g₁, hg₁, hin₁⟩ := hrest o ho
        exact ⟨g₁, List.mem_cons_of_mem _ hg₁, hin₁⟩
      · obtain rfl := hconsistent _ _ _ (List.mem_cons_of_mem _ hg) List.mem_cons_self
        exact absurd hin hout

/-- What is left of the agenda is what passed the very test that it is put to. -/
theorem excused_relocate (r : Relocation) (hstaged : s.staged = []) :
    (relocate B.logged r).Yields (s, w, ℓ) Excused fun _ _ => True := by
  obtain ⟨lost, agenda, hrelocate, hagenda, _, _⟩ := Agenda.relocate_eq s.agenda r
  refine Action.Yields.bind (Action.Yields.ite (fun _ => ?_) fun hnot => ?_)
  · refine Action.Yields.bind (Action.Yields.bind (Action.Yields.bind ?_))
    change Action.Yields (Action.ofExcept (s.agenda.relocate r)) _ _ _
    rw [hrelocate]
    refine Action.Yields.bind ((excused_keep agenda.bySlot).imp fun kept t h => ?_)
    obtain ⟨s', w', ℓ'⟩ := t
    obtain ⟨rfl, hsub, hkept⟩ := h
    obtain ⟨agenda', hlist, hagenda', _, hmem⟩ :=
      Agenda.ofList_eq ((hsub.map _).nodup hagenda.nodup_bySlot)
    obtain ⟨obs, hobs, _, _, hmem'⟩ := hagenda'.toList_eq
    refine Action.Yields.bind ?_
    rw [hlist]
    refine Action.Yields.bind (Action.Yields.bind (Action.Yields.bind (Action.Yields.bind ?_)))
    change Action.Yields (Action.ofExcept agenda'.toList) _ _ _
    rw [hobs]
    refine Action.yields_pure ((excused_refutations fun ob hob => ?_).imp fun _ _ _ => trivial)
    exact hkept ob (hmem.mp (hmem'.mp hob))
  · exact absurd (List.isEmpty_iff.mpr hstaged) hnot

end Search

namespace Engine

variable {system : S} {property : Formula} {e e' : Engine σ}

theorem reset_logged (B : Backend S σ μ) (e : Engine σ) :
    reset B.logged e.logged = (reset B e).logged := by
  obtain ⟨search, _⟩ := e
  cases search <;> rfl

theorem owned_query : (query B.logged config fuel system property).Yields e.logged
    (fun fault t => Search.Owned [] fault (t.search, t.world))
    fun _ t => blame t.world.2 = none ∧ scopes t.world.2 = 0 := by
  refine Action.Yields.bind ?_
  change Yields _ (reset B.logged e.logged) _ _
  rw [reset_logged]
  have hfrank : Search.Frank (fun answer (_ : σ) => Call.loaded (μ := μ) answer) :=
    fun _ _ => ⟨rfl, rfl⟩
  refine Action.Yields.bind (Action.Yields.within (Action.yields_noting
    (fun answer _ => Call.loaded answer) (fun fault w => ?_) fun _ w => ?_))
  · exact hfrank.plain.owned rfl fault w _
  · have hrun : Search.OwnsFrom (Search.run B.logged config fuel property)
        (.blank, w, [.loaded (.ok ())]) := Search.owns_run property _ rfl
    refine Action.Yields.within (hrun.mono (fun fault t h => ?_) fun _ _ h => h)
    cases fault with
    | error e => exact h
    | violation v => trivial
    | outOfFuel => exact h

theorem relocate_excused (hstaged : ∀ s, e.search = some s → s.staged = []) {fault : Fault}
    (hconsistent : Consistent (relocateCalls B r e)) (h : relocate B r e = .error fault e') :
    Faulted (relocateCalls B r e) fault := by
  have hyields : (relocate B.logged r).Yields e.logged
      (fun fault t => Consistent t.world.2 → Faulted t.world.2 fault) fun _ _ => True := by
    refine Action.Yields.bind ?_
    obtain ⟨search, w⟩ := e
    cases search with
    | none => trivial
    | some s => exact .within (Search.excused_relocate (w := w) r (hstaged s rfl))
  obtain ⟨t, hrun, rfl⟩ := (under_relocate B.logged_over r).error (t := e.logged) h
  have hcalls : relocateCalls B r e = t.world.2 := by
    rw [relocateCalls, final, hrun]
  rw [hcalls] at hconsistent ⊢
  exact hyields.of_error hrun hconsistent

theorem query_logged_of_error {fault : Fault} (h : query B config fuel system property e =
    .error fault e') : Search.Owned [] fault
      (e'.search, e'.world, queryCalls B config fuel system property e) := by
  obtain ⟨t, hrun, rfl⟩ := (under_query B.logged_over config fuel system property).error
    (t := e.logged) h
  have hcalls : queryCalls B config fuel system property e = t.world.2 := by
    rw [queryCalls, final, hrun]
  rw [hcalls]
  have howned := owned_query.of_error hrun
  cases fault <;> exact howned

theorem query_logged_of_ok {outcome : Outcome} (h : query B config fuel system property e =
    .ok outcome e') : blame (queryCalls B config fuel system property e) = none := by
  obtain ⟨t, hrun, rfl⟩ := (under_query B.logged_over config fuel system property).ok
    (t := e.logged) h
  rw [queryCalls, final, hrun]
  exact (owned_query.of_ok hrun).1

/-- Unless a contract is broken first, the first call that fails ends the query with its error, and
what the engine is left with can be relocated and asked for nothing that it did not find out. -/
theorem query_fails {err : CheckError}
    (h : blame (queryCalls B config fuel system property e) = some err)
    (hkept : ∀ v e', query B config fuel system property e ≠ .error (.violation v) e') :
    ∃ e', query B config fuel system property e = .error (.error err) e' ∧
      e'.outcome = none ∧ e'.invariant = none ∧
      scopes (queryCalls B config fuel system property e) = 0 ∧
      (∀ s, e'.search = some s → s.staged = []) ∧
      ∀ r fault e'', Consistent (relocateCalls B r e') → relocate B r e' = .error fault e'' →
        Faulted (relocateCalls B r e') fault := by
  cases hrun : query B config fuel system property e with
  | ok outcome e' =>
      rw [query_logged_of_ok hrun] at h
      cases h
  | error fault e' =>
      have howned := query_logged_of_error hrun
      have hending := query_ending.of_error hrun
      cases fault with
      | violation v => exact absurd hrun (hkept v e')
      | outOfFuel =>
          rw [howned] at h
          cases h
      | error err' =>
          obtain ⟨hblame, hscopes⟩ := howned
          obtain rfl := Option.some.inj (hblame.symm.trans h)
          have hstaged : ∀ s, e'.search = some s → s.staged = [] := fun s hs =>
            (hending s hs).2 err' rfl
          have houtcome : e'.outcome = none := by
            cases hs : e'.search with
            | none => rw [outcome, hs, Option.bind_none]
            | some s => rw [outcome, hs, Option.bind_some, (hending s hs).1]
          refine ⟨e', rfl, houtcome, ?_, hscopes, hstaged, fun r fault e'' =>
            relocate_excused hstaged⟩
          rw [invariant, houtcome]
          rfl

open Scripted

/-- The trace solver loses its model in the middle of an extension. -/
def stumbling : Engine Player where
  world :=
    { sentences.terms := #[.atom "P", .atom "g"]
      script.inductions := [(⟨0⟩, [.sat (some ⟨1⟩) (some [⟨1⟩])])]
      script.reachable := [(⟨1⟩, [⟨1⟩])]
      script.failures := [("model", 0, .solver "no model")] }

theorem stumbling_fails :
    ∃ e', query Player.backend {} 20 () ⟨0⟩ stumbling = .error (.error (.solver "no model")) e' ∧
      e'.outcome = none ∧ e'.invariant = none ∧
      scopes (queryCalls Player.backend {} 20 () ⟨0⟩ stumbling) = 0 ∧
      (∀ s, e'.search = some s → s.staged = []) ∧
      ∀ r fault e'', Consistent (relocateCalls Player.backend r e') →
        relocate Player.backend r e' = .error fault e'' →
        Faulted (relocateCalls Player.backend r e') fault := by
  have hfault : fault? (query Player.backend {} 20 () ⟨0⟩ stumbling) =
      some (.error (.solver "no model")) := by decide +kernel
  refine query_fails (by decide +kernel) fun v e' h => ?_
  rw [h] at hfault
  cases hfault

/-- The candidate is found not to be inductive, and no counter-state comes with the answer. -/
def unwitnessed : Engine Player where
  world :=
    { sentences.terms := #[.atom "P"]
      script.inductions := [(⟨0⟩, [.unsat, .sat none (some [])])] }

/-- A counter-state to a candidate is not looked at. -/
theorem unwitnessed_answered :
    ∃ e', query Player.backend {} 20 () ⟨0⟩ unwitnessed = .ok .valid e' ∧
      ∃ c ∈ queryCalls Player.backend {} 20 () ⟨0⟩ unwitnessed,
        c.error? true = some (.missingWitness "a generalization") := by
  obtain ⟨e', h⟩ := eq_ok_of_answer? (a := .valid)
    (r := query Player.backend {} 20 () ⟨0⟩ unwitnessed) (by decide +kernel)
  exact ⟨e', h, by decide +kernel⟩

end Engine

end Invariance
