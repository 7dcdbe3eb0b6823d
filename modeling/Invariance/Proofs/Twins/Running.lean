import Invariance.Proofs.Effects
import Mathlib.Data.List.Forall2

/-!
Two effects side by side. The second tracks the first when it succeeds where the first succeeds,
with answers and states as wanted, and ends in the same fault where the first does; nothing is said
where the first breaks a contract that names formulas, because the second knows them by other
numbers. The rules take both effects apart along their texts.
-/

namespace Invariance

/-- The faults that do not name a formula: errors, the limits of the machine and of the fuel. -/
def Fault.Shared : Fault → Prop
  | .error _ => True
  | .violation .overflow => True
  | .violation .capacity => True
  | .violation _ => False
  | .outOfFuel => True

/-- Two results of which the second repeats the first: the same error, or answers as wanted. -/
def Echoes {ε α β : Type} (V : α → β → Prop) : Except ε α → Except ε β → Prop
  | .ok a, .ok b => V a b
  | .error e, .error e' => e = e'
  | _, _ => False

namespace Echoes

variable {ε ε' α β γ δ : Type} {V : α → β → Prop} {x : Except ε α} {y : Except ε β}

theorem of_eq {x y : Except ε α} (h : x = y) : Echoes Eq x y := by
  subst h
  cases x <;> exact rfl

theorem bind {W : γ → δ → Prop} {f : α → Except ε γ} {g : β → Except ε δ} (h : Echoes V x y)
    (hf : ∀ a b, V a b → Echoes W (f a) (g b)) : Echoes W (x >>= f) (y >>= g) := by
  cases x with
  | ok a =>
      cases y with
      | ok b => exact hf a b h
      | error e => exact h.elim
  | error e =>
      cases y with
      | ok b => exact h.elim
      | error e' => exact h

theorem mapError (h : Echoes V x y) (f : ε → ε') : Echoes V (x.mapError f) (y.mapError f) := by
  cases x with
  | ok a =>
      cases y with
      | ok b => exact h
      | error e => exact h.elim
  | error e =>
      cases y with
      | ok b => exact h.elim
      | error e' => exact congrArg f h

theorem of_ok (h : Echoes V x y) {a : α} (hx : x = .ok a) : ∃ b, y = .ok b ∧ V a b := by
  subst hx
  cases y with
  | ok b => exact ⟨b, rfl, h⟩
  | error e => exact h.elim

theorem of_right (h : Echoes V x y) {b : β} (hy : y = .ok b) : ∃ a, x = .ok a ∧ V a b := by
  subst hy
  cases x with
  | ok a => exact ⟨a, rfl, h⟩
  | error e => exact h.elim

theorem of_error (h : Echoes V x y) {e : ε} (hx : x = .error e) : y = .error e := by
  subst hx
  cases y with
  | ok b => exact h.elim
  | error e' => exact congrArg Except.error (Eq.symm h)

end Echoes

namespace Action

variable {σ τ σ' τ' α β α' β' γ δ : Type} {s : σ} {t : τ} {F : Fault → σ → τ → Prop}

def Tracks (act : Action σ α) (act' : Action τ β) (s : σ) (t : τ) (F : Fault → σ → τ → Prop)
    (Q : α → β → σ → τ → Prop) : Prop :=
  match act s with
  | .ok a s' => ∃ b t', act' t = .ok b t' ∧ Q a b s' t'
  | .error fault s' => fault.Shared → ∃ t', act' t = .error fault t' ∧ F fault s' t'

variable {act : Action σ α} {act' : Action τ β} {Q Q' : α → β → σ → τ → Prop}

theorem Tracks.mono {G : Fault → σ → τ → Prop} (h : act.Tracks act' s t F Q)
    (hF : ∀ fault s' t', F fault s' t' → G fault s' t')
    (hQ : ∀ a b s' t', Q a b s' t' → Q' a b s' t') : act.Tracks act' s t G Q' := by
  rw [Tracks] at h ⊢
  cases hrun : act s with
  | ok a s' =>
      rw [hrun] at h
      obtain ⟨b, t', hrun', h⟩ := h
      exact ⟨b, t', hrun', hQ a b s' t' h⟩
  | error fault s' =>
      rw [hrun] at h
      intro hshared
      obtain ⟨t', hrun', h⟩ := h hshared
      exact ⟨t', hrun', hF fault s' t' h⟩

theorem Tracks.imp (h : act.Tracks act' s t F Q) (hQ : ∀ a b s' t', Q a b s' t' → Q' a b s' t') :
    act.Tracks act' s t F Q' :=
  h.mono (fun _ _ _ hF => hF) hQ

theorem tracks_of_ok {a : α} {b : β} {s' : σ} {t' : τ} (hrun : act s = .ok a s')
    (hrun' : act' t = .ok b t') (h : Q a b s' t') : act.Tracks act' s t F Q := by
  rw [Tracks, hrun]
  exact ⟨b, t', hrun', h⟩

theorem Tracks.of_ok (h : act.Tracks act' s t F Q) {a : α} {s' : σ} (hrun : act s = .ok a s') :
    ∃ b t', act' t = .ok b t' ∧ Q a b s' t' := by
  rwa [Tracks, hrun] at h

/-- An effect that can only end in faults that are passed on has an answer if the other has one. -/
theorem Tracks.of_right (h : act.Tracks act' s t F Q)
    (hends : act.Ends s Fault.Shared fun _ _ => True) {b : β} {t' : τ} (hrun' : act' t = .ok b t') :
    ∃ a s', act s = .ok a s' ∧ Q a b s' t' := by
  rw [Tracks] at h
  rw [Ends] at hends
  cases hrun : act s with
  | ok a s' =>
      rw [hrun] at h
      obtain ⟨b', t'', hrun'', hQ⟩ := h
      cases hrun'.symm.trans hrun''
      exact ⟨a, s', rfl, hQ⟩
  | error fault s' =>
      rw [hrun] at h hends
      obtain ⟨t'', hrun'', _⟩ := h hends
      cases hrun'.symm.trans hrun''

theorem Tracks.bind {next : α → Action σ γ} {next' : β → Action τ δ} {P : γ → δ → σ → τ → Prop}
    (h : act.Tracks act' s t F fun a b s' t' => (next a).Tracks (next' b) s' t' F P) :
    (act >>= next).Tracks (act' >>= next') s t F P := by
  change (match EStateM.bind act next s with
    | .ok c s' => ∃ d t', EStateM.bind act' next' t = .ok d t' ∧ P c d s' t'
    | .error fault s' => fault.Shared → ∃ t', EStateM.bind act' next' t = .error fault t' ∧
        F fault s' t')
  rw [Tracks] at h
  rw [EStateM.bind]
  cases hrun : act s with
  | ok a s' =>
      rw [hrun] at h
      obtain ⟨b, t', hrun', h⟩ := h
      simp only [EStateM.bind, hrun']
      exact h
  | error fault s' =>
      rw [hrun] at h
      intro hshared
      obtain ⟨t', hrun', hF⟩ := h hshared
      exact ⟨t', by simp only [EStateM.bind, hrun'], hF⟩

theorem tracks_pure {a : α} {b : β} (h : Q a b s t) :
    Tracks (pure a : Action σ α) (pure b : Action τ β) s t F Q :=
  ⟨b, t, rfl, h⟩

/-- The second effect stays where it is while the first one goes its way. -/
theorem Ends.tracks_pure {b : β} (h : act.Ends s (fun _ => False) fun a s' => Q a b s' t) :
    act.Tracks (pure b : Action τ β) s t F Q := by
  obtain ⟨a, s', hrun, hQ⟩ := h.exists_ok
  exact tracks_of_ok hrun rfl hQ

theorem tracks_throw {fault : Fault} (h : F fault s t) :
    Tracks (throw fault : Action σ α) (throw fault : Action τ β) s t F Q :=
  fun _ => ⟨t, rfl, h⟩

theorem tracks_fail {e : CheckError} (h : F (.error e) s t) :
    Tracks (fail e : Action σ α) (fail e : Action τ β) s t F Q :=
  tracks_throw h

theorem tracks_ofExcept {x : Except Violation α} {y : Except Violation β}
    (hF : ∀ fault, F fault s t)
    (h : ∀ a, x = .ok a → ∃ b, y = .ok b ∧ Q a b s t)
    (hviolation : ∀ v, x = .error v → (Fault.violation v).Shared → y = .error v) :
    Tracks (ofExcept x) (ofExcept y) s t F Q := by
  cases x with
  | ok a =>
      obtain ⟨b, rfl, hb⟩ := h a rfl
      exact tracks_pure hb
  | error v =>
      intro hshared
      rw [hviolation v rfl hshared]
      exact ⟨t, rfl, hF _⟩

theorem tracks_get {Q : σ → τ → σ → τ → Prop} (h : Q s t s t) :
    Tracks (get : Action σ σ) (get : Action τ τ) s t F Q :=
  ⟨_, _, rfl, h⟩

theorem tracks_set {s' : σ} {t' : τ} {Q : PUnit → PUnit → σ → τ → Prop} (h : Q ⟨⟩ ⟨⟩ s' t') :
    Tracks (set s' : Action σ PUnit) (set t' : Action τ PUnit) s t F Q :=
  ⟨_, _, rfl, h⟩

theorem tracks_modify {f : σ → σ} {g : τ → τ} {Q : PUnit → PUnit → σ → τ → Prop}
    (h : Q ⟨⟩ ⟨⟩ (f s) (g t)) :
    Tracks (modify f : Action σ PUnit) (modify g : Action τ PUnit) s t F Q :=
  ⟨_, _, rfl, h⟩

theorem tracks_within {part : σ' → σ} {replace : σ → σ' → σ'} {part' : τ' → τ}
    {replace' : τ → τ' → τ'} {s : σ'} {t : τ'} {F : Fault → σ' → τ' → Prop}
    {Q : α → β → σ' → τ' → Prop}
    (h : act.Tracks act' (part s) (part' t) (fun e x y => F e (replace x s) (replace' y t))
      fun a b x y => Q a b (replace x s) (replace' y t)) :
    Tracks (within part replace act) (within part' replace' act') s t F Q := by
  rw [Tracks] at h
  rw [Tracks, within]
  cases hrun : act (part s) with
  | ok a x =>
      rw [hrun] at h
      obtain ⟨b, y, hrun', h⟩ := h
      exact ⟨b, replace' y t, by simp only [within, hrun'], h⟩
  | error fault x =>
      rw [hrun] at h
      intro hshared
      obtain ⟨y, hrun', hF⟩ := h hshared
      exact ⟨replace' y t, by simp only [within, hrun'], hF⟩

theorem Tracks.attempt {G : Fault → σ → τ → Prop} (h : act.Tracks act' s t F Q)
    (hG : ∀ fault s' t', (∀ e, fault ≠ .error e) → F fault s' t' → G fault s' t') :
    act.attempt.Tracks act'.attempt s t G fun r r' s' t' =>
      (∃ a b, r = .ok a ∧ r' = .ok b ∧ Q a b s' t') ∨
        ∃ e, r = .error e ∧ r' = .error e ∧ F (.error e) s' t' := by
  rw [Tracks] at h ⊢
  rw [Action.attempt]
  cases hrun : act s with
  | ok a s' =>
      rw [hrun] at h
      obtain ⟨b, t', hrun', h⟩ := h
      exact ⟨.ok b, t', by simp only [Action.attempt, hrun'], Or.inl ⟨a, b, rfl, rfl, h⟩⟩
  | error fault s' =>
      rw [hrun] at h
      cases fault with
      | error e =>
          obtain ⟨t', hrun', hF⟩ := h trivial
          exact ⟨.error e, t', by simp only [Action.attempt, hrun'], Or.inr ⟨e, rfl, rfl, hF⟩⟩
      | violation v =>
          intro hshared
          obtain ⟨t', hrun', hF⟩ := h hshared
          exact ⟨t', by simp only [Action.attempt, hrun'], hG _ _ _ (fun _ h => by cases h) hF⟩
      | outOfFuel =>
          intro hshared
          obtain ⟨t', hrun', hF⟩ := h hshared
          exact ⟨t', by simp only [Action.attempt, hrun'], hG _ _ _ (fun _ h => by cases h) hF⟩

end Action

namespace Search

variable {σ τ α β : Type} {F : Fault → Search × σ → Search × τ → Prop} {x : Search × σ}
  {y : Search × τ}

theorem tracks_state {Q : Search → Search → Search × σ → Search × τ → Prop} (h : Q x.1 y.1 x y) :
    Action.Tracks state state x y F Q :=
  ⟨_, _, rfl, h⟩

theorem tracks_change {f g : Search → Search} {Q : Unit → Unit → Search × σ → Search × τ → Prop}
    (h : Q () () (f x.1, x.2) (g y.1, y.2)) : Action.Tracks (change f) (change g) x y F Q :=
  ⟨_, _, rfl, h⟩

theorem tracks_ask {f : σ → α} {g : τ → β} {Q : α → β → Search × σ → Search × τ → Prop}
    (h : Q (f x.2) (g y.2) x y) : Action.Tracks (ask f) (ask g) x y F Q :=
  ⟨_, _, rfl, h⟩

theorem tracks_update {f : σ → σ} {g : τ → τ} {Q : Unit → Unit → Search × σ → Search × τ → Prop}
    (h : Q () () (x.1, f x.2) (y.1, g y.2)) : Action.Tracks (update f) (update g) x y F Q :=
  ⟨_, _, rfl, h⟩

theorem tracks_act {action : Action σ α} {action' : Action τ β}
    {Q : α → β → Search × σ → Search × τ → Prop}
    (h : action.Tracks action' x.2 y.2 (fun e w w' => F e (x.1, w) (y.1, w'))
      fun a b w w' => Q a b (x.1, w) (y.1, w')) :
    Action.Tracks (act action) (act action') x y F Q :=
  Action.tracks_within h

theorem tracks_onFrame {action : Action (Frame × σ) Unit} {action' : Action (Frame × τ) Unit}
    {Q : Unit → Unit → Search × σ → Search × τ → Prop}
    (h : action.Tracks action' (x.1.frame, x.2) (y.1.frame, y.2)
      (fun e f g => F e ({ x.1 with frame := f.1 }, f.2) ({ y.1 with frame := g.1 }, g.2))
      fun _ _ f g => Q () () ({ x.1 with frame := f.1, stats.frameSize := f.1.size }, f.2)
        ({ y.1 with frame := g.1, stats.frameSize := g.1.size }, g.2)) :
    Action.Tracks (onFrame action) (onFrame action') x y F Q := by
  rw [onFrame]
  refine Action.Tracks.bind (Action.tracks_within (h.imp fun _ _ f g hQ => ?_))
  exact tracks_change hQ

end Search

end Invariance
