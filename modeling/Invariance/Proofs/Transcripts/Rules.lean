import Invariance.Proofs.Effects
import Invariance.Proofs.Transcripts.Notes

/-!
What an effect leads to when it takes notes. `Yields` speaks of the fault and of the state that it
leaves as well; `Leads` does so for the search, where a fault is judged by the notes alone.
-/

namespace Invariance

namespace Action

variable {σ τ α β : Type} {s : σ} {F F' : Fault → σ → Prop} {Q Q' : α → σ → Prop}

def Yields (act : Action σ α) (s : σ) (F : Fault → σ → Prop) (Q : α → σ → Prop) : Prop :=
  match act s with
  | .ok a t => Q a t
  | .error fault t => F fault t

namespace Yields

variable {act : Action σ α}

theorem mono (h : act.Yields s F Q) (hF : ∀ fault t, F fault t → F' fault t)
    (hQ : ∀ a t, Q a t → Q' a t) : act.Yields s F' Q' := by
  rw [Yields] at h ⊢
  cases hrun : act s with
  | ok a t => exact hQ a t (by rwa [hrun] at h)
  | error fault t => exact hF fault t (by rwa [hrun] at h)

theorem imp (h : act.Yields s F Q) (hQ : ∀ a t, Q a t → Q' a t) : act.Yields s F Q' :=
  h.mono (fun _ _ hF => hF) hQ

theorem of_forall (hF : ∀ fault t, F fault t) (hQ : ∀ a t, Q a t) : act.Yields s F Q := by
  rw [Yields]
  cases act s with
  | ok a t => exact hQ a t
  | error fault t => exact hF fault t

theorem of_ok {a : α} {t : σ} (h : act.Yields s F Q) (hrun : act s = .ok a t) : Q a t := by
  rwa [Yields, hrun] at h

theorem of_error {fault : Fault} {t : σ} (h : act.Yields s F Q) (hrun : act s = .error fault t) :
    F fault t := by
  rwa [Yields, hrun] at h

theorem bind {next : α → Action σ β} {Q : β → σ → Prop}
    (h : act.Yields s F fun a t => (next a).Yields t F Q) : (act >>= next).Yields s F Q := by
  change (match EStateM.bind act next s with | .ok b t => Q b t | .error fault t => F fault t)
  rw [Yields] at h
  rw [EStateM.bind]
  cases hrun : act s with
  | ok a t => rwa [hrun] at h
  | error fault t => rwa [hrun] at h

theorem ite {c : Prop} [Decidable c] {other : Action σ α} (h : c → act.Yields s F Q)
    (hother : ¬ c → other.Yields s F Q) : Yields (if c then act else other) s F Q := by
  by_cases hc : c
  · rw [if_pos hc]
    exact h hc
  · rw [if_neg hc]
    exact hother hc

theorem within {part : τ → σ} {replace : σ → τ → τ} {t : τ} {F : Fault → τ → Prop}
    {Q : α → τ → Prop}
    (h : act.Yields (part t) (fun fault x => F fault (replace x t)) fun a x => Q a (replace x t)) :
    (within part replace act).Yields t F Q := by
  rw [Yields] at h
  rw [Yields, Action.within]
  cases hrun : act (part t) <;> rwa [hrun] at h

/-- No error comes through. -/
theorem caught (h : act.Yields s F Q) :
    act.attempt.Yields s (fun fault t => F fault t ∧ ∀ e, fault ≠ .error e) fun result t =>
      (∃ a, result = .ok a ∧ Q a t) ∨ ∃ e, result = .error e ∧ F (.error e) t := by
  rw [Yields] at h
  rw [Yields, Action.attempt]
  cases hrun : act s with
  | ok a t =>
      rw [hrun] at h
      exact Or.inl ⟨a, rfl, h⟩
  | error fault t =>
      rw [hrun] at h
      cases fault with
      | error e => exact Or.inr ⟨e, rfl, h⟩
      | violation v => exact ⟨h, fun _ heq => by cases heq⟩
      | outOfFuel => exact ⟨h, fun _ heq => by cases heq⟩

theorem attempt (h : act.Yields s F Q) :
    act.attempt.Yields s F fun result t =>
      (∃ a, result = .ok a ∧ Q a t) ∨ ∃ e, result = .error e ∧ F (.error e) t :=
  h.caught.mono (fun _ _ hF => hF.1) fun _ _ hQ => hQ

theorem and (h : act.Yields s F Q) (h' : act.Yields s F' Q') :
    act.Yields s (fun fault t => F fault t ∧ F' fault t) fun a t => Q a t ∧ Q' a t := by
  rw [Yields] at h h' ⊢
  cases hrun : act s with
  | ok a t =>
      rw [hrun] at h h'
      exact ⟨h, h'⟩
  | error fault t =>
      rw [hrun] at h h'
      exact ⟨h, h'⟩

end Yields

theorem yields_pure {a : α} (h : Q a s) : Yields (pure a) s F Q := h

theorem yields_throw {fault : Fault} (h : F fault s) : Yields (throw fault) s F Q := h

theorem yields_filterM {I : σ → Prop} {act : α → Action σ Bool} {l : List α}
    (hact : ∀ a s, I s → (act a).Yields s F fun _ => I) (hs : I s) :
    (l.filterM act).Yields s F fun kept t => kept.Sublist l ∧ I t := by
  have key : ∀ (l acc : List α) (s : σ), I s → Yields (List.filterAuxM act l acc) s F
      fun found t => (∃ kept : List α, found = kept.reverse ++ acc ∧ kept.Sublist l) ∧ I t := by
    intro l
    induction l with
    | nil => exact fun acc s hs => ⟨⟨[], rfl, .slnil⟩, hs⟩
    | cons a l ih =>
        refine fun acc s hs => Yields.bind ((hact a s hs).imp fun b t ht => ?_)
        refine (ih _ t ht).imp fun found t' hfound => ?_
        obtain ⟨⟨kept, rfl, hkept⟩, ht'⟩ := hfound
        refine ⟨?_, ht'⟩
        cases b with
        | false => exact ⟨kept, rfl, hkept.cons a⟩
        | true => exact ⟨a :: kept, by simp, hkept.cons_cons a⟩
  refine Yields.bind ((key l [] s hs).imp fun found t hfound => ?_)
  obtain ⟨⟨kept, rfl, hkept⟩, ht⟩ := hfound
  exact ⟨by simpa using hkept, ht⟩

theorem yields_noting {ν : Type} (note : Except Fault α → σ → ν) {act : Action σ α} {ℓ : List ν}
    {F : Fault → σ × List ν → Prop} {Q : α → σ × List ν → Prop}
    (hF : ∀ fault t, F fault (t, note (.error fault) t :: ℓ))
    (hQ : ∀ a t, Q a (t, note (.ok a) t :: ℓ)) : Yields (noting id note act) (s, ℓ) F Q := by
  rw [Yields, noting]
  cases act s with
  | ok a t => exact hQ a t
  | error fault t => exact hF fault t

theorem yields_ofStep_noting {ν : Type} (note : Except Fault α → σ → ν) {act : Step σ α}
    {ℓ : List ν} {F : Fault → σ × List ν → Prop} {Q : α → σ × List ν → Prop}
    (hF : ∀ v t, F (.violation v) (t, note (.error (.violation v)) t :: ℓ))
    (hQ : ∀ a t, Q a (t, note (.ok a) t :: ℓ)) :
    (ofStep (noting .violation note act)).Yields (s, ℓ) F Q := by
  rw [Yields, ofStep, noting]
  cases act s with
  | ok a t => exact hQ a t
  | error v t => exact hF v t

end Action

def Fault.grave : Fault → Bool
  | .violation (.alreadyInFrame _) => true
  | .violation .overflow => true
  | .violation (.markedBeforeFrame ..) => true
  | .violation .traceBeforeFrame => true
  | _ => false

/-- Allows every fault that a call of the backend came back with, and all but the grave ones. -/
structure Lenient {μ : Type} (F : Fault → List (Note μ) → Prop) : Prop where
  noted : ∀ {e n ℓ}, n.fault? = some e → F e (n :: ℓ)
  mild : ∀ {e ℓ}, e.grave = false → F e ℓ
  grow : ∀ {e n ℓ}, F e ℓ → F e (n :: ℓ)

theorem Lenient.append {μ : Type} {F : Fault → List (Note μ) → Prop} (hF : Lenient F) {e : Fault}
    {ℓ : List (Note μ)} (h : F e ℓ) : ∀ new, F e (new ++ ℓ)
  | [] => h
  | _ :: new => hF.grow (hF.append h new)

namespace Search

variable {S σ μ α β : Type} {B : Backend S σ μ} {s : Search} {w : σ} {ℓ : List (Note μ)}
  {F : Fault → List (Note μ) → Prop}

def Leads (act : SearchM (σ × List (Note μ)) α) (s : Search) (w : σ) (ℓ : List (Note μ))
    (F : Fault → List (Note μ) → Prop) (Q : α → Search → σ → List (Note μ) → Prop) : Prop :=
  act.Yields (s, w, ℓ) (fun fault t => F fault t.2.2) fun a t => Q a t.1 t.2.1 t.2.2

namespace Leads

variable {act : SearchM (σ × List (Note μ)) α} {Q Q' : α → Search → σ → List (Note μ) → Prop}

theorem imp (h : Leads act s w ℓ F Q) (hQ : ∀ a s w ℓ, Q a s w ℓ → Q' a s w ℓ) :
    Leads act s w ℓ F Q' :=
  Action.Yields.imp h fun a t => hQ a t.1 t.2.1 t.2.2

theorem bind {next : α → SearchM (σ × List (Note μ)) β}
    {Q : β → Search → σ → List (Note μ) → Prop}
    (h : Leads act s w ℓ F fun a s w ℓ => Leads (next a) s w ℓ F Q) :
    Leads (act >>= next) s w ℓ F Q :=
  Action.Yields.bind h

theorem ite {c : Prop} [Decidable c] {other : SearchM (σ × List (Note μ)) α}
    (h : c → Leads act s w ℓ F Q) (hother : ¬ c → Leads other s w ℓ F Q) :
    Leads (if c then act else other) s w ℓ F Q :=
  Action.Yields.ite h hother

theorem attempt (h : Leads act s w ℓ F Q) :
    Leads act.attempt s w ℓ F fun result s w ℓ =>
      (∃ a, result = .ok a ∧ Q a s w ℓ) ∨ ∃ e, result = .error e ∧ F (.error e) ℓ :=
  Action.Yields.attempt h

end Leads

variable {Q : α → Search → σ → List (Note μ) → Prop}

theorem leads_pure {a : α} (h : Q a s w ℓ) : Leads (pure a) s w ℓ F Q := Action.yields_pure h

theorem leads_throw {fault : Fault} (h : F fault ℓ) : Leads (throw fault) s w ℓ F Q :=
  Action.yields_throw h

theorem leads_fail (hF : Lenient F) {e : CheckError} : Leads (Action.fail e) s w ℓ F Q :=
  hF.mild (e := .error e) rfl

theorem leads_violate {v : Violation} (h : F (.violation v) ℓ) :
    Leads (Action.violate v) s w ℓ F Q := h

theorem leads_ofExcept {x : Except Violation α} (herror : ∀ v, x = .error v → F (.violation v) ℓ)
    (hok : ∀ a, x = .ok a → Q a s w ℓ) : Leads (Action.ofExcept x) s w ℓ F Q := by
  cases x with
  | ok a => exact hok a rfl
  | error v => exact herror v rfl

theorem leads_state {Q : Search → Search → σ → List (Note μ) → Prop} (h : Q s s w ℓ) :
    Leads state s w ℓ F Q := h

theorem leads_change {f : Search → Search} {Q : Unit → Search → σ → List (Note μ) → Prop}
    (h : Q () (f s) w ℓ) : Leads (change f) s w ℓ F Q := h

theorem leads_ask {f : σ × List (Note μ) → α} (h : Q (f (w, ℓ)) s w ℓ) :
    Leads (ask f) s w ℓ F Q := h

theorem leads_update {f : σ → σ} {Q : Unit → Search → σ → List (Note μ) → Prop}
    (h : Q () s (f w) ℓ) : Leads (update fun w => (f w.1, w.2)) s w ℓ F Q := h

theorem yields_report {level : Level} {message : String}
    {fields : Search → (Formula → String) → List (String × Field)}
    {F : Fault → Search × σ × List (Note μ) → Prop} {Q : Unit → Search × σ × List (Note μ) → Prop}
    (h : ∀ event, Q () (s, B.reports.report event w, ℓ)) :
    (report B.noted level message fields).Yields (s, w, ℓ) F Q :=
  h _

theorem leads_report {level : Level} {message : String}
    {fields : Search → (Formula → String) → List (String × Field)}
    {Q : Unit → Search → σ → List (Note μ) → Prop}
    (h : ∀ event, Q () s (B.reports.report event w) ℓ) :
    Leads (report B.noted level message fields) s w ℓ F Q :=
  yields_report h

theorem leads_act {note : Except Fault α → σ → Note μ} {action : Action σ α} (hF : Lenient F)
    (hnote : ∀ fault w, (note (.error fault) w).fault? = some fault)
    (h : ∀ a w, Q a s w (note (.ok a) w :: ℓ)) :
    Leads (act (noting id note action)) s w ℓ F Q :=
  .within (Action.yields_noting note (fun fault w => hF.noted (hnote fault w)) fun a w => h a w)

theorem leads_step {note : Except Fault α → σ → Note μ} {action : Step σ α} (hF : Lenient F)
    (hnote : ∀ fault w, (note (.error fault) w).fault? = some fault)
    (h : ∀ a w, Q a s w (note (.ok a) w :: ℓ)) :
    Leads (step (noting .violation note action)) s w ℓ F Q :=
  .within (Action.yields_ofStep_noting note (fun v w => hF.noted (hnote (.violation v) w))
    fun a w => h a w)

theorem leads_forM {I : Search → σ → List (Note μ) → Prop}
    {action : β → SearchM (σ × List (Note μ)) PUnit} : ∀ {l : List β} {s : Search} {w : σ}
    {ℓ : List (Note μ)}, (∀ b ∈ l, ∀ s w ℓ, I s w ℓ → Leads (action b) s w ℓ F fun _ => I) →
    I s w ℓ → Leads (l.forM action) s w ℓ F fun _ => I
  | [], _, _, _, _, h => h
  | b :: l, s, w, ℓ, haction, h => by
      refine Leads.bind ((haction b List.mem_cons_self s w ℓ h).imp fun _ s w ℓ h => ?_)
      exact leads_forM (fun b hb => haction b (List.mem_cons_of_mem _ hb)) h

theorem leads_allM {I : Search → σ → List (Note μ) → Prop}
    {action : β → SearchM (σ × List (Note μ)) Bool} : ∀ {l : List β} {s : Search} {w : σ}
    {ℓ : List (Note μ)}, (∀ b ∈ l, ∀ s w ℓ, I s w ℓ →
      Leads (action b) s w ℓ F fun answer s w ℓ => answer = true → I s w ℓ) → I s w ℓ →
    Leads (l.allM action) s w ℓ F fun answer s w ℓ => answer = true → I s w ℓ
  | [], _, _, _, _, h => fun _ => h
  | b :: l, s, w, ℓ, haction, h => by
      refine Leads.bind ((haction b List.mem_cons_self s w ℓ h).imp fun answer s w ℓ h => ?_)
      cases answer with
      | true => exact leads_allM (fun b hb => haction b (List.mem_cons_of_mem _ hb)) (h rfl)
      | false => exact leads_pure nofun

end Search

end Invariance
