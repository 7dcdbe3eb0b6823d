import Invariance.Search

/-!
What an effect leads to. `Ends` says of one start that the answer and the state afterwards are as
wanted, or that the fault is one of those allowed. The rules take an effect apart along its text.
-/

namespace Invariance

def answer? {σ α : Type} : EStateM.Result Fault σ α → Option α
  | .ok a _ => some a
  | .error _ _ => none

theorem eq_ok_of_answer? {σ α : Type} {r : EStateM.Result Fault σ α} {a : α}
    (h : answer? r = some a) : ∃ t, r = .ok a t := by
  cases r with
  | ok b t =>
      obtain rfl := Option.some.inj h
      exact ⟨t, rfl⟩
  | error _ _ => cases h

def fault? {σ α : Type} : EStateM.Result Fault σ α → Option Fault
  | .ok _ _ => none
  | .error fault _ => some fault

theorem eq_error_of_fault? {σ α : Type} {r : EStateM.Result Fault σ α} {fault : Fault}
    (h : fault? r = some fault) : ∃ t, r = .error fault t := by
  cases r with
  | ok _ _ => cases h
  | error e t =>
      obtain rfl := Option.some.inj h
      exact ⟨t, rfl⟩

namespace Action

variable {σ τ α β : Type} {E E' : Fault → Prop} {s : σ}

theorem run_get : (get : Action σ σ) s = .ok s s := rfl

theorem run_modify {f : σ → σ} : (modify f : Action σ PUnit) s = .ok ⟨⟩ (f s) := rfl

def Ends (act : Action σ α) (s : σ) (E : Fault → Prop) (Q : α → σ → Prop) : Prop :=
  match act s with
  | .ok a t => Q a t
  | .error fault _ => E fault

theorem Ends.mono {act : Action σ α} {Q Q' : α → σ → Prop} (h : act.Ends s E Q)
    (hE : ∀ fault, E fault → E' fault) (hQ : ∀ a t, Q a t → Q' a t) : act.Ends s E' Q' := by
  rw [Ends] at h ⊢
  cases hrun : act s with
  | ok a t => exact hQ a t (by rwa [hrun] at h)
  | error fault t => exact hE fault (by rwa [hrun] at h)

theorem Ends.imp {act : Action σ α} {Q Q' : α → σ → Prop} (h : act.Ends s E Q)
    (hQ : ∀ a t, Q a t → Q' a t) : act.Ends s E Q' :=
  h.mono (fun _ hE => hE) hQ

theorem Ends.exists_ok {act : Action σ α} {Q : α → σ → Prop} (h : act.Ends s (fun _ => False) Q) :
    ∃ a t, act s = .ok a t ∧ Q a t := by
  rw [Ends] at h
  cases hrun : act s with
  | ok a t =>
      rw [hrun] at h
      exact ⟨a, t, rfl, h⟩
  | error fault t =>
      rw [hrun] at h
      exact h.elim

theorem Ends.of_ok {act : Action σ α} {Q : α → σ → Prop} {a : α} {t : σ} (h : act.Ends s E Q)
    (hrun : act s = .ok a t) : Q a t := by
  rwa [Ends, hrun] at h

theorem Ends.and_run {act : Action σ α} {Q : α → σ → Prop} (h : act.Ends s E Q) :
    act.Ends s E fun a t => act s = .ok a t ∧ Q a t := by
  rw [Ends] at h ⊢
  cases hrun : act s with
  | ok a t =>
      rw [hrun] at h
      exact ⟨rfl, h⟩
  | error fault t => rwa [hrun] at h

@[simp] theorem ends_pure {a : α} {Q : α → σ → Prop} :
    Ends (pure a : Action σ α) s E Q ↔ Q a s := Iff.rfl

@[simp] theorem ends_bind {act : Action σ α} {next : α → Action σ β} {Q : β → σ → Prop} :
    Ends (act >>= next) s E Q ↔ act.Ends s E fun a t => (next a).Ends t E Q := by
  change (match EStateM.bind act next s with | .ok b t => Q b t | .error fault _ => E fault) ↔ _
  rw [Ends, EStateM.bind]
  cases act s <;> rfl

@[simp] theorem ends_throw {fault : Fault} {Q : α → σ → Prop} :
    Ends (throw fault : Action σ α) s E Q ↔ E fault := Iff.rfl

@[simp] theorem ends_fail {e : CheckError} {Q : α → σ → Prop} :
    Ends (fail e : Action σ α) s E Q ↔ E (.error e) := Iff.rfl

@[simp] theorem ends_violate {v : Violation} {Q : α → σ → Prop} :
    Ends (violate v : Action σ α) s E Q ↔ E (.violation v) := Iff.rfl

@[simp] theorem ends_get {Q : σ → σ → Prop} : Ends (get : Action σ σ) s E Q ↔ Q s s := Iff.rfl

@[simp] theorem ends_set {t : σ} {Q : PUnit → σ → Prop} :
    Ends (set t : Action σ PUnit) s E Q ↔ Q ⟨⟩ t := Iff.rfl

@[simp] theorem ends_modify {f : σ → σ} {Q : PUnit → σ → Prop} :
    Ends (modify f : Action σ PUnit) s E Q ↔ Q ⟨⟩ (f s) := Iff.rfl

@[simp] theorem ends_ofExcept_ok {a : α} {Q : α → σ → Prop} :
    Ends (ofExcept (.ok a)) s E Q ↔ Q a s := Iff.rfl

@[simp] theorem ends_ofExcept_error {v : Violation} {Q : α → σ → Prop} :
    Ends (ofExcept (.error v)) s E Q ↔ E (.violation v) := Iff.rfl

@[simp] theorem ends_ofAttempt_ok {a : α} {Q : α → σ → Prop} :
    Ends (ofAttempt (.ok a)) s E Q ↔ Q a s := Iff.rfl

@[simp] theorem ends_within {part : τ → σ} {replace : σ → τ → τ} {act : Action σ α} {t : τ}
    {Q : α → τ → Prop} :
    Ends (within part replace act) t E Q ↔
      act.Ends (part t) E fun a s => Q a (replace s t) := by
  rw [Ends, Ends, within]
  cases act (part t) <;> rfl

theorem Ends.attempt {act : Action σ α} {Q : α → σ → Prop} (h : act.Ends s E Q) :
    act.attempt.Ends s E fun result t =>
      (∃ a, result = .ok a ∧ Q a t) ∨ ∃ e, result = .error e ∧ E (.error e) := by
  rw [Ends] at h ⊢
  rw [Action.attempt]
  cases hrun : act s with
  | ok a t =>
      rw [hrun] at h
      exact Or.inl ⟨a, rfl, h⟩
  | error fault t =>
      rw [hrun] at h
      cases fault with
      | error e => exact Or.inr ⟨e, rfl, h⟩
      | violation v => exact h
      | outOfFuel => exact h

theorem ends_forM {I : σ → Prop} {act : α → Action σ PUnit} {l : List α}
    (hact : ∀ a ∈ l, ∀ t, I t → (act a).Ends t E fun _ t' => I t') (hs : I s) :
    Ends (l.forM act) s E fun _ t => I t := by
  induction l generalizing s with
  | nil => exact hs
  | cons a l ih =>
      change Ends (act a >>= fun _ => l.forM act) s E _
      rw [ends_bind]
      refine (hact a List.mem_cons_self s hs).imp fun _ t ht => ?_
      exact ih (fun b hb => hact b (List.mem_cons_of_mem _ hb)) ht

theorem ends_filterM {I : σ → Prop} {act : α → Action σ Bool} {l : List α}
    (hact : ∀ a ∈ l, ∀ t, I t → (act a).Ends t E fun b t' => b = true ∧ I t') (hs : I s) :
    Ends (l.filterM act) s E fun kept t => kept = l ∧ I t := by
  have key : ∀ (l acc : List α) (s : σ),
      (∀ a ∈ l, ∀ t, I t → (act a).Ends t E fun b t' => b = true ∧ I t') → I s →
      Ends (List.filterAuxM act l acc) s E fun kept t => kept = l.reverse ++ acc ∧ I t := by
    intro l
    induction l with
    | nil => exact fun acc s _ hs => ⟨rfl, hs⟩
    | cons a l ih =>
        intro acc s hact hs
        rw [List.filterAuxM, ends_bind]
        refine (hact a List.mem_cons_self s hs).imp fun b t hb => ?_
        obtain ⟨rfl, ht⟩ := hb
        refine (ih (a :: acc) t (fun b hb => hact b (List.mem_cons_of_mem _ hb)) ht).imp
          fun kept t' hkept => ?_
        simpa using hkept
  rw [List.filterM, ends_bind]
  refine (key l [] s hact hs).imp fun kept t hkept => ?_
  rw [ends_pure, hkept.1]
  exact ⟨by simp, hkept.2⟩

end Action

namespace Search

variable {S σ μ α : Type} {B : Backend S σ μ} {E : Fault → Prop} {t : Search × σ}

@[simp] theorem ends_state {Q : Search → Search × σ → Prop} :
    Action.Ends state t E Q ↔ Q t.1 t := Iff.rfl

@[simp] theorem ends_change {f : Search → Search} {Q : Unit → Search × σ → Prop} :
    Action.Ends (change f) t E Q ↔ Q () (f t.1, t.2) := Iff.rfl

@[simp] theorem ends_ask {f : σ → α} {Q : α → Search × σ → Prop} :
    Action.Ends (ask f) t E Q ↔ Q (f t.2) t := Iff.rfl

@[simp] theorem ends_update {f : σ → σ} {Q : Unit → Search × σ → Prop} :
    Action.Ends (update f) t E Q ↔ Q () (t.1, f t.2) := Iff.rfl

@[simp] theorem ends_act {action : Action σ α} {Q : α → Search × σ → Prop} :
    Action.Ends (act action) t E Q ↔ action.Ends t.2 E fun a w => Q a (t.1, w) :=
  Action.ends_within

@[simp] theorem ends_onFrame {action : Action (Frame × σ) Unit} {Q : Unit → Search × σ → Prop} :
    Action.Ends (onFrame action) t E Q ↔
      action.Ends (t.1.frame, t.2) E fun _ f =>
        Q () ({ t.1 with frame := f.1, stats.frameSize := f.1.size }, f.2) := by
  rw [onFrame, Action.ends_bind, Action.ends_within]
  rfl

end Search

end Invariance
