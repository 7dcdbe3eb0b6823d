import Invariance.Proofs.Search.Courses
import Invariance.Proofs.Transcripts.Rules

/-!
The figures of a search and what they are figures of. Three of them are tallies, which are brought
up to date wherever the frame, the agenda or the index has changed. Most of a search leaves all the
others alone, whatever its backend does; what is said here of an effect is said of the state that it
leaves with an answer.
-/

namespace Invariance

namespace Action

variable {σ α : Type} {s : σ} {Q : α → σ → Prop}

/-- If there is an answer, it and the state afterwards are like this. -/
abbrev Answers (act : Action σ α) (s : σ) (Q : α → σ → Prop) : Prop :=
  act.Yields s (fun _ _ => True) Q

theorem answers_of_forall {act : Action σ α} (h : ∀ a t, Q a t) : act.Answers s Q :=
  .of_forall (fun _ _ => trivial) h

theorem Answers.and_run {act : Action σ α} (h : act.Answers s Q) :
    act.Answers s fun a t => act s = .ok a t ∧ Q a t := by
  rw [Answers, Yields] at h ⊢
  cases hrun : act s with
  | ok a t =>
      rw [hrun] at h
      exact ⟨rfl, h⟩
  | error _ _ => trivial

theorem answers_ofExcept {x : Except Violation α} (h : ∀ a, x = .ok a → Q a s) :
    (ofExcept x).Answers s Q := by
  cases x with
  | ok a => exact h a rfl
  | error v => trivial

end Action

namespace Agenda

variable {q q' : Agenda} {i j bound : Nat}

theorem size_store {α : Type} {row row' : Array α} {a : α} (h : store row i a = .ok row') :
    row'.size = row.size := by
  rw [store] at h
  split at h
  · obtain rfl := Except.ok.inj h
    exact Array.size_set ..
  · cases h

theorem size_swap (h : q.swap i j = .ok q') : q'.size = q.size := by
  obtain ⟨a, _, h⟩ := bind_eq_ok.mp h
  obtain ⟨b, _, h⟩ := bind_eq_ok.mp h
  obtain ⟨heap, hheap, h⟩ := bind_eq_ok.mp h
  obtain ⟨heap', hheap', h⟩ := bind_eq_ok.mp h
  obtain ⟨place, _, h⟩ := bind_eq_ok.mp h
  obtain ⟨place', _, h⟩ := bind_eq_ok.mp h
  obtain rfl := Except.ok.inj h
  exact (size_store hheap').trans (size_store hheap)

theorem size_siftUp (h : siftUp bound q i = .ok q') : q'.size = q.size := by
  induction bound generalizing q i with
  | zero =>
      obtain rfl := Except.ok.inj h
      rfl
  | succ bound ih =>
      rw [siftUp] at h
      split at h
      · obtain rfl := Except.ok.inj h
        rfl
      · obtain ⟨higher, _, h⟩ := bind_eq_ok.mp h
        cases higher with
        | false =>
            obtain rfl := Except.ok.inj h
            rfl
        | true =>
            obtain ⟨q₁, hswap, h⟩ := bind_eq_ok.mp h
            exact (ih h).trans (size_swap hswap)

theorem size_siftDown (h : siftDown bound q i = .ok q') : q'.size = q.size := by
  induction bound generalizing q i with
  | zero =>
      obtain rfl := Except.ok.inj h
      rfl
  | succ bound ih =>
      rw [siftDown] at h
      obtain ⟨left, _, h⟩ := bind_eq_ok.mp h
      obtain ⟨best, _, h⟩ := bind_eq_ok.mp h
      split at h
      · obtain rfl := Except.ok.inj h
        rfl
      · obtain ⟨q₁, hswap, h⟩ := bind_eq_ok.mp h
        exact (ih h).trans (size_swap hswap)

theorem size_bump {counter : Formula} {amount : Score} {found : Bool}
    (h : q.bump counter amount = .ok (found, q')) : q'.size = q.size := by
  rw [bump] at h
  split at h
  · cases h
    rfl
  · obtain ⟨ob, _, h⟩ := bind_eq_ok.mp h
    obtain ⟨slots, _, h⟩ := bind_eq_ok.mp h
    obtain ⟨q₂, hreorder, h⟩ := bind_eq_ok.mp h
    cases h
    obtain ⟨i, _, hreorder⟩ := bind_eq_ok.mp hreorder
    obtain ⟨q₁, hup, hreorder⟩ := bind_eq_ok.mp hreorder
    obtain ⟨k, _, hdown⟩ := bind_eq_ok.mp hreorder
    have hsifted : q₁.size = ({ q with slots } : Agenda).size := size_siftUp hup
    exact (size_siftDown hdown).trans hsifted

end Agenda

namespace Search

open Action

variable {S σ μ α β : Type} {B : Backend S σ μ} {config : Config} {s s' s'' : Search}

structure Tallied (s : Search) : Prop where
  frameIndex : s.stats.frameIndex = s.index
  frameSize : s.stats.frameSize = s.frame.size
  queueSize : s.stats.queueSize = s.agenda.size

/-- What the loop of a search counts with. -/
structure Clock where
  index : Nat
  depth : Nat
  staged : List Obligation
  frameIndex : Nat
  inductionDepth : Nat
  framePushed : Nat
  rounds : Nat

def clock (s : Search) : Clock where
  index := s.index
  depth := s.depth
  staged := s.staged
  frameIndex := s.stats.frameIndex
  inductionDepth := s.stats.inductionDepth
  framePushed := s.stats.framePushed
  rounds := s.stats.rounds

structure Paced (s s' : Search) : Prop where
  clock : s'.clock = s.clock
  tallied : s.Tallied → s'.Tallied

structure Kept (s s' : Search) : Prop extends Paced s s' where
  invalid : s'.lineage.invalid = s.lineage.invalid
  maxCexDepth : s'.stats.maxCexDepth = s.stats.maxCexDepth

theorem Paced.trans (h : Paced s s') (h' : Paced s' s'') : Paced s s'' where
  clock := h'.clock.trans h.clock
  tallied hs := h'.tallied (h.tallied hs)

theorem Kept.refl (s : Search) : Kept s s := ⟨⟨rfl, id⟩, rfl, rfl⟩

theorem Kept.trans (h : Kept s s') (h' : Kept s' s'') : Kept s s'' where
  toPaced := h.toPaced.trans h'.toPaced
  invalid := h'.invalid.trans h.invalid
  maxCexDepth := h'.maxCexDepth.trans h.maxCexDepth

/-- An effect that keeps the figures but for the tallies, and the marks as well. -/
def Keeping (effect : SearchM σ α) : Prop := ∀ x, effect.Answers x fun _ y => Kept x.1 y.1

section Rules

variable {effect other : SearchM σ α} {next : α → SearchM σ β}

theorem Keeping.bind (h : Keeping effect) (hnext : ∀ a, Keeping (next a)) :
    Keeping (effect >>= next) := fun x =>
  .bind ((h x).imp fun a y hy => (hnext a y).imp fun _ _ hz => hy.trans hz)

theorem Keeping.ite {c : Prop} [Decidable c] (h : Keeping effect) (hother : Keeping other) :
    Keeping (if c then effect else other) := fun x => .ite (fun _ => h x) fun _ => hother x

theorem keeping_pure (a : α) : Keeping (pure a : SearchM σ α) := fun x => yields_pure (.refl x.1)

theorem keeping_throw (fault : Fault) : Keeping (throw fault : SearchM σ α) := fun _ =>
  yields_throw trivial

theorem keeping_ofExcept (x : Except Violation α) : Keeping (ofExcept x : SearchM σ α) :=
  fun y => answers_ofExcept fun _ _ => .refl y.1

theorem keeping_state : Keeping (state : SearchM σ Search) := fun x => Kept.refl x.1

theorem keeping_change {f : Search → Search} (h : ∀ s, Kept s (f s)) :
    Keeping (change f : SearchM σ Unit) := fun x => h x.1

theorem keeping_ask (f : σ → α) : Keeping (ask f) := fun x => Kept.refl x.1

theorem keeping_update (f : σ → σ) : Keeping (update f) := fun x => Kept.refl x.1

theorem keeping_report {level : Level} {message : String}
    {fields : Search → (Formula → String) → List (String × Field)} :
    Keeping (report B level message fields) := fun x => Kept.refl x.1

theorem answers_act {action : Action σ α} {x : Search × σ} {Q : α → Search × σ → Prop}
    (h : ∀ a w, Q a (x.1, w)) : (act action).Answers x Q :=
  .within (answers_of_forall h)

theorem keeping_act (action : Action σ α) : Keeping (act action) := fun x =>
  answers_act fun _ _ => .refl x.1

theorem keeping_negate (f : Formula) : Keeping (negate B f) := keeping_act _

theorem keeping_checkedAdd (a b : Nat) : Keeping (checkedAdd B a b) := keeping_ofExcept _

theorem keeping_forM {each : α → SearchM σ PUnit} (h : ∀ a, Keeping (each a)) :
    ∀ l : List α, Keeping (l.forM each)
  | [] => keeping_pure _
  | a :: l => (h a).bind fun _ => keeping_forM h l

theorem keeping_allM {each : α → SearchM σ Bool} (h : ∀ a, Keeping (each a)) :
    ∀ l : List α, Keeping (l.allM each)
  | [] => keeping_pure _
  | a :: l => (h a).bind fun
      | true => keeping_allM h l
      | false => keeping_pure _

theorem keeping_filterM {each : α → SearchM σ Bool} (h : ∀ a, Keeping (each a)) (l : List α) :
    Keeping (l.filterM each) := by
  have key : ∀ l kept : List α, Keeping (List.filterAuxM each l kept) := by
    intro l
    induction l with
    | nil => exact fun kept => keeping_pure _
    | cons a l ih => exact fun kept => (h a).bind fun _ => ih _
  exact (key l []).bind fun _ => keeping_pure _

/-- An effect that keeps the figures and has only one answer. -/
def Answering (a : α) (effect : SearchM σ α) : Prop :=
  ∀ x, effect.Answers x fun answer y => answer = a ∧ Kept x.1 y.1

theorem Answering.bind {b : β} (h : Keeping effect) (hnext : ∀ a, Answering b (next a)) :
    Answering b (effect >>= next) := fun x =>
  .bind ((h x).imp fun a y hy => (hnext a y).imp fun _ _ hz => ⟨hz.1, hy.trans hz.2⟩)

theorem answering_pure (a : α) : Answering a (pure a : SearchM σ α) := fun x =>
  yields_pure ⟨rfl, .refl x.1⟩

end Rules

/-! Frame and agenda. -/

theorem Kept.frame (s : Search) (frame : Frame) :
    Kept s { s with frame, stats.frameSize := frame.size } :=
  ⟨⟨rfl, fun h => ⟨h.frameIndex, rfl, h.queueSize⟩⟩, rfl, rfl⟩

theorem Kept.agenda (s : Search) (agenda : Agenda) :
    Kept s { s with agenda, stats.queueSize := agenda.size } :=
  ⟨⟨rfl, fun h => ⟨h.frameIndex, h.frameSize, rfl⟩⟩, rfl, rfl⟩

theorem Kept.lineage {s : Search} {lineage : Lineage}
    (h : lineage.invalid = s.lineage.invalid) : Kept s { s with lineage } :=
  ⟨⟨rfl, fun hs => ⟨hs.frameIndex, hs.frameSize, hs.queueSize⟩⟩, h, rfl⟩

theorem keeping_lineage {f : Search → Lineage} (h : ∀ s, (f s).invalid = s.lineage.invalid) :
    Keeping (change fun s => { s with lineage := f s } : SearchM σ Unit) :=
  keeping_change fun s => .lineage (h s)

theorem keeping_onFrame (action : Action (Frame × σ) Unit) : Keeping (onFrame action) := fun x =>
  .bind (.within (answers_of_forall fun _ t => Kept.frame x.1 t.1))

theorem keeping_addToFrame (f : Formula) (role : Role) : Keeping (addToFrame B f role) :=
  keeping_onFrame _

theorem keeping_clearFrame (depth : Nat) : Keeping (clearFrame B depth) := keeping_onFrame _

theorem keeping_enqueue (ob : Obligation) : Keeping (enqueue B ob) :=
  (keeping_negate _).bind fun _ => keeping_state.bind fun _ =>
    .ite ((keeping_ofExcept _).bind fun (_, agenda) => keeping_change (Kept.agenda · agenda))
      ((keeping_throw _).bind fun _ => (keeping_ofExcept _).bind fun (_, agenda) =>
        keeping_change (Kept.agenda · agenda))

theorem keeping_pop : Keeping (pop : SearchM σ Obligation) :=
  keeping_state.bind fun _ => (keeping_ofExcept _).bind fun (_, agenda) =>
    (keeping_change (Kept.agenda · agenda)).bind fun _ => keeping_pure _

theorem keeping_bump (counter : Formula) : Keeping (bump counter : SearchM σ Unit) := fun _ =>
  .bind (.bind (answers_ofExcept fun (_, _) hbump =>
    ⟨⟨rfl, fun h => ⟨h.frameIndex, h.frameSize, h.queueSize.trans (Agenda.size_bump hbump).symm⟩⟩,
      rfl, rfl⟩))

theorem keeping_checkRefutations : Keeping (checkRefutations B) :=
  keeping_state.bind fun _ => (keeping_ofExcept _).bind fun _ => keeping_forM (fun _ =>
    (keeping_negate _).bind fun _ => keeping_state.bind fun _ =>
      .ite (keeping_pure _) (keeping_throw _)) _

/-! Counterexamples. -/

theorem keeping_assertFalseAt (f : Formula) (k : Nat) : Keeping (assertFalseAt B f k) :=
  (keeping_update _).bind fun _ => (keeping_negate _).bind fun _ => (keeping_act _).bind fun _ =>
    keeping_act _

theorem keeping_assertTrace : ∀ (k : Nat) (trace : List Formula), Keeping (assertTrace B k trace)
  | _, [] => keeping_pure _
  | _, _ :: _ => (keeping_act _).bind fun _ => (keeping_act _).bind fun _ =>
      keeping_assertTrace _ _

theorem keeping_recordModel : Keeping (recordModel B) :=
  (keeping_act _).bind fun _ => keeping_update _

/-! Obligations. -/

theorem keeping_weaken (ob : Obligation) (refutation : Formula) :
    Keeping (weaken B ob refutation) := fun x => by
  refine .bind (answers_act fun _ _ => .bind (.bind (answers_act fun weaker _ => .bind (.bind ?_))))
  have hrest : Keeping (do
      checkRefutations B
      report B .trace "weakened by interpolant" fun _ text => [("f_fwd", .text (text weaker))]
      return weaker) :=
    keeping_checkRefutations.bind fun _ => keeping_report.bind fun _ => keeping_pure weaker
  exact (hrest _).imp fun _ _ h => (Kept.frame x.1 _).trans h

/-- A change of the frame with the count after it. -/
theorem answering_recount {a : α} {f : Frame → Frame} {rest : SearchM σ α}
    (h : Answering a rest) : Answering a (do
      change fun s => { s with frame := f s.frame }
      countFrame
      rest) := fun x =>
  .bind (.bind ((h _).imp fun _ _ h => ⟨h.1, (Kept.frame x.1 (f x.1.frame)).trans h.2⟩))

theorem answering_refine (ob : Obligation) (refutation counter : Formula) :
    Answering .refined (refine B ob refutation counter) := by
  rw [refine]
  refine .bind (keeping_negate _) fun backward => .bind keeping_report fun _ => ?_
  refine .bind keeping_state fun _ => .bind (keeping_act _) fun forward => ?_
  refine .bind keeping_report fun _ => .bind (keeping_addToFrame _ _) fun _ => ?_
  refine answering_recount (f := fun frame => frame.insert forward) ?_
  refine .bind keeping_state fun s => .bind (keeping_lineage fun _ => rfl) fun _ => ?_
  refine .bind (keeping_checkedAdd _ _) fun depth => .bind keeping_report fun _ => ?_
  exact .bind (keeping_enqueue _) fun _ => answering_pure _

/-! The loop. -/

theorem keeping_saveGraph : Keeping (saveGraph B) :=
  keeping_state.bind fun _ => (keeping_act _).bind fun _ => keeping_report

theorem keeping_showInvariant : Keeping (showInvariant B config) :=
  .ite (keeping_state.bind fun _ => keeping_forM (fun _ => keeping_report) _) (keeping_pure _)

theorem keeping_restore (ob : Obligation) : Keeping (restore B ob) :=
  (keeping_negate _).bind fun _ => (keeping_addToFrame _ _).bind fun _ =>
    (keeping_addToFrame _ _).bind fun _ => keeping_enqueue ob

theorem keeping_addProperty : ∀ (fuel : Nat) (p : Formula), Keeping (addProperty B fuel p)
  | 0, _ => keeping_throw _
  | fuel + 1, p => (keeping_ask _).bind fun
      | some conjuncts => keeping_allM (keeping_addProperty fuel) conjuncts
      | none => (keeping_negate _).bind fun negation => (keeping_act _).bind fun
          | .unsat => by
              have hlast : Keeping (do
                  bump negation
                  change fun s => { s with lineage := s.lineage.addProperty p }
                  return true : SearchM σ Bool) :=
                (keeping_bump _).bind fun _ => .bind (keeping_lineage fun _ => rfl) fun _ =>
                  keeping_pure _
              exact keeping_state.bind fun _ => .ite hlast <|
                (keeping_addToFrame _ _).bind fun _ => (keeping_addToFrame _ _).bind fun _ =>
                  (keeping_enqueue _).bind fun _ => hlast
          | .sat none => keeping_throw _
          | .sat (some _) => keeping_report.bind fun _ => (keeping_update _).bind fun _ =>
              .bind (keeping_lineage fun _ => rfl) fun _ => keeping_pure _
          | .unknown => keeping_throw _

end Search

end Invariance
