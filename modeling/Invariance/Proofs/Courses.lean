import Invariance.Proofs.Effects

/-!
The course of an effect. `Ends` speaks of the state in which an effect ends; a course takes the
effect apart into moves and speaks of every state that it passes through on the way.
-/

namespace Invariance

/-- A way to take an effect apart. A move is not taken apart any further. -/
inductive Course : {σ α : Type} → Action σ α → Type 1
  | move {σ α : Type} (act : Action σ α) : Course act
  | bind {σ α β : Type} {act : Action σ α} {next : α → Action σ β} :
      Course act → (∀ a, Course (next a)) → Course (act >>= next)
  | branch {σ α : Type} {c : Prop} [Decidable c] {act other : Action σ α} :
      Course act → Course other → Course (if c then act else other)
  | within {σ τ α : Type} (part : τ → σ) (replace : σ → τ → τ) {act : Action σ α} :
      Course act → Course (Action.within part replace act)
  | attempt {σ α : Type} {act : Action σ α} : Course act → Course act.attempt

def Action.final {σ α : Type} (act : Action σ α) (s : σ) : σ :=
  match act s with
  | .ok _ t => t
  | .error _ t => t

theorem Action.final_bind {σ α β : Type} (act : Action σ α) (next : α → Action σ β) (s : σ) :
    (act >>= next).final s =
      match act s with
      | .ok a t => (next a).final t
      | .error _ t => t := by
  change (match EStateM.bind act next s with | .ok _ t => t | .error _ t => t) = _
  rw [EStateM.bind]
  cases act s <;> rfl

theorem Action.final_within {σ τ α : Type} (part : τ → σ) (replace : σ → τ → τ)
    (act : Action σ α) (t : τ) :
    (Action.within part replace act).final t = replace (act.final (part t)) t := by
  rw [Action.final, Action.final, Action.within]
  cases act (part t) <;> rfl

theorem Action.ends_trivial {σ α : Type} {act : Action σ α} {s : σ} :
    act.Ends s (fun _ => True) fun _ _ => True := by
  rw [Ends]
  split <;> trivial

theorem Action.ends_self {σ α : Type} {act : Action σ α} {s : σ} :
    act.Ends s (fun _ => True) fun a t => act s = .ok a t := by
  rw [Ends]
  split
  next h => exact h
  next => trivial

namespace Course

/-- The states after each move, in order, up to a fault. -/
def visited : {σ α : Type} → {act : Action σ α} → Course act → σ → List σ
  | _, _, _, .move act, s => [act.final s]
  | _, _, _, @bind _ _ _ act _ c d, s =>
      c.visited s ++
        match act s with
        | .ok a t => (d a).visited t
        | .error _ _ => []
  | _, _, _, @branch _ _ p _ _ _ c d, s => if p then c.visited s else d.visited s
  | _, _, _, within part replace c, s => (c.visited (part s)).map fun x => replace x s
  | _, _, _, attempt c, s => c.visited s

variable {σ τ α β : Type} {act other : Action σ α} {next : α → Action σ β} {s t : σ}

theorem final_mem (c : Course act) : ∀ s, act.final s ∈ c.visited s := by
  induction c with
  | move act => exact fun s => List.mem_singleton.mpr rfl
  | @bind _ _ _ act next c d hc hd =>
      intro s
      have hs := hc s
      rw [Action.final] at hs
      rw [Action.final_bind, visited]
      cases hrun : act s with
      | ok a t => exact List.mem_append_right _ (hd a t)
      | error fault t =>
          rw [hrun] at hs
          exact List.mem_append_left _ hs
  | @branch _ _ p _ act other c d hc hd =>
      intro s
      rw [visited]
      by_cases h : p
      · rw [if_pos h, if_pos h]
        exact hc s
      · rw [if_neg h, if_neg h]
        exact hd s
  | @within _ _ _ part replace act c hc =>
      intro s
      exact List.mem_map.mpr ⟨_, hc (part s), (Action.final_within part replace act s).symm⟩
  | @attempt _ _ act c hc =>
      intro s
      have hs := hc s
      rw [Action.final] at hs
      rw [Action.final, Action.attempt, visited]
      cases hrun : act s with
      | ok a t => rwa [hrun] at hs
      | error fault t =>
          rw [hrun] at hs
          cases fault <;> exact hs

/-- On this course every state is as `I` says, and the answer, if there is one, as `Q` says. -/
def Keeps (c : Course act) (I : σ → Prop) (s : σ) (Q : α → σ → Prop) : Prop :=
  (∀ t ∈ c.visited s, I t) ∧ act.Ends s (fun _ => True) Q

variable {c : Course act} {I : σ → Prop} {Q Q' : α → σ → Prop} {E : Fault → Prop}

namespace Keeps

theorem imp (h : c.Keeps I s Q) (hQ : ∀ a t, I t → Q a t → Q' a t) : c.Keeps I s Q' := by
  obtain ⟨hI, hends⟩ := h
  refine ⟨hI, ?_⟩
  have hfinal := hI _ (c.final_mem s)
  rw [Action.Ends] at hends ⊢
  rw [Action.final] at hfinal
  cases hrun : act s with
  | ok a t =>
      rw [hrun] at hends hfinal
      exact hQ a t hfinal hends
  | error _ _ => trivial

theorem mono {I' : σ → Prop} (h : c.Keeps I s Q) (hI : ∀ t, I t → I' t) : c.Keeps I' s Q :=
  ⟨fun t ht => hI t (h.1 t ht), h.2⟩

theorem and (h : c.Keeps I s Q) (hends : act.Ends s E Q') :
    c.Keeps I s fun a t => Q a t ∧ Q' a t := by
  refine ⟨h.1, ?_⟩
  have hQ := h.2
  rw [Action.Ends] at hQ hends ⊢
  cases hrun : act s with
  | ok a t =>
      rw [hrun] at hQ hends
      exact ⟨hQ, hends⟩
  | error _ _ => trivial

theorem bind {d : ∀ a, Course (next a)} {Q : β → σ → Prop}
    (h : c.Keeps I s fun a t => (d a).Keeps I t Q) : (c.bind d).Keeps I s Q := by
  obtain ⟨hI, hends⟩ := h
  constructor
  · intro t ht
    rw [visited] at ht
    rcases List.mem_append.mp ht with ht | ht
    · exact hI t ht
    · rw [Action.Ends] at hends
      cases hrun : act s with
      | ok a s' =>
          rw [hrun] at hends ht
          exact hends.1 t ht
      | error _ _ =>
          rw [hrun] at ht
          cases ht
  · rw [Action.ends_bind]
    exact hends.imp fun a t hat => hat.2

theorem attempt (h : c.Keeps I s Q) : c.attempt.Keeps I s fun _ _ => True :=
  ⟨h.1, Action.ends_trivial⟩

/-- What a part answers may be shown apart from what its states are like. -/
theorem andThen {d : ∀ a, Course (next a)} {Q : β → σ → Prop} (h : c.Keeps I s fun _ _ => True)
    (hends : act.Ends s (fun _ => True) fun a t => I t → (d a).Keeps I t Q) :
    (c.bind d).Keeps I s Q :=
  .bind ((h.and hends).imp fun _ _ ht h => h.2 ht)

end Keeps

theorem keeps_move (hI : I (act.final s)) (hQ : act.Ends s E Q) : (move act).Keeps I s Q :=
  ⟨fun _ ht => List.mem_singleton.mp ht ▸ hI, hQ.mono (fun _ _ => trivial) fun _ _ h => h⟩

theorem keeps_ok {a : α} (h : act s = .ok a t) (hI : I t) (hQ : Q a t) :
    (move act).Keeps I s Q :=
  keeps_move (E := fun _ => True) (by rwa [Action.final, h]) (by rwa [Action.Ends, h])

theorem keeps_error {fault : Fault} (h : act s = .error fault t) (hI : I t) :
    (move act).Keeps I s Q :=
  keeps_move (E := fun _ => True) (by rwa [Action.final, h]) (by rw [Action.Ends, h]; trivial)

theorem keeps_branch {p : Prop} [Decidable p] {d : Course other} (hc : p → c.Keeps I s Q)
    (hd : ¬ p → d.Keeps I s Q) : (branch (c := p) c d).Keeps I s Q := by
  rw [Keeps, visited]
  by_cases h : p
  · rw [if_pos h, if_pos h]
    exact hc h
  · rw [if_neg h, if_neg h]
    exact hd h

theorem keeps_within {part : τ → σ} {replace : σ → τ → τ} {t : τ} {I : τ → Prop}
    {Q : α → τ → Prop}
    (h : c.Keeps (fun x => I (replace x t)) (part t) fun a x => Q a (replace x t)) :
    (within part replace c).Keeps I t Q :=
  ⟨fun x hx => by
    obtain ⟨y, hy, rfl⟩ := List.mem_map.mp hx
    exact h.1 y hy, Action.ends_within.mpr h.2⟩

/-- Every state on the course is related to the one that it starts from. -/
def Stays (c : Course act) (R : σ → σ → Prop) : Prop := ∀ s, ∀ t ∈ c.visited s, R s t

variable {R : σ → σ → Prop}

theorem stays_move (h : ∀ s, R s (act.final s)) : (move act).Stays R := fun s _ ht =>
  List.mem_singleton.mp ht ▸ h s

theorem stays_branch {p : Prop} [Decidable p] {d : Course other} (hc : c.Stays R)
    (hd : d.Stays R) : (branch (c := p) c d).Stays R := fun s t ht => by
  rw [visited] at ht
  split at ht
  · exact hc s t ht
  · exact hd s t ht

theorem stays_within {part : τ → σ} {replace : σ → τ → τ} {R' : τ → τ → Prop}
    (h : c.Stays R) (hR : ∀ t x, R (part t) x → R' t (replace x t)) :
    (within part replace c).Stays R' := fun t x hx => by
  obtain ⟨y, hy, rfl⟩ := List.mem_map.mp hx
  exact hR t y (h (part t) y hy)

namespace Stays

theorem bind (hR : ∀ {s t r}, R s t → R t r → R s r) (h : c.Stays R) {d : ∀ a, Course (next a)}
    (hd : ∀ a, (d a).Stays R) : (c.bind d).Stays R := fun s t ht => by
  rw [visited] at ht
  rcases List.mem_append.mp ht with ht | ht
  · exact h s t ht
  · have hfinal := h s _ (c.final_mem s)
    rw [Action.final] at hfinal
    cases hrun : act s with
    | ok a s' =>
        rw [hrun] at ht hfinal
        exact hR hfinal (hd a s' t ht)
    | error _ _ =>
        rw [hrun] at ht
        cases ht

theorem of_keeps (h : ∀ s, c.Keeps (R s) s fun _ _ => True) : c.Stays R := fun s => (h s).1

theorem attempt (h : c.Stays R) : c.attempt.Stays R := h

theorem keeps (h : c.Stays R) (hI : ∀ t, R s t → I t) : c.Keeps I s fun _ t => R s t := by
  refine ⟨fun t ht => hI t (h s t ht), ?_⟩
  have hfinal := h s _ (c.final_mem s)
  rw [Action.final] at hfinal
  rw [Action.Ends]
  cases hrun : act s with
  | ok a t => rwa [hrun] at hfinal
  | error _ _ => trivial

end Stays

end Course

end Invariance
