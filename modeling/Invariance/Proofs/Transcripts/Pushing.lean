import Invariance.Proofs.Transcripts.Accounts
import Invariance.Proofs.Transcripts.Extensions

/-!
What the moves that push an obligation lead to, whatever the backend answers.
-/

namespace Invariance.Search

variable {S σ μ : Type} {B : Backend S σ μ} {config : Config} {s : Search} {w : σ}
  {ℓ : List (Note μ)} {ob : Obligation} {F : Fault → List (Note μ) → Prop}

theorem leads_carry {forward : Formula} {Q : Push → Search → σ → List (Note μ) → Prop}
    (hF : Lenient F)
    (h : ∀ size w, Q .staged { s with
        staged := s.staged ++ [{ ob with forward, score := .zero }], stats.framePushed := size } w
      (.registered forward .intermediate (.ok ()) :: .registered forward .first (.ok ()) :: ℓ)) :
    Leads (carry B.noted ob forward) s w ℓ F Q :=
  .bind (leads_change (.bind (leads_act hF (fun _ _ => rfl) fun _ _ =>
    .bind (leads_act hF (fun _ _ => rfl) fun _ _ => .bind (leads_change (leads_pure (h _ _)))))))

theorem leads_weaken {refutation : Formula} (hF : Lenient F)
    (hq : s.agenda.Valid) {Q : Formula → Search → σ → List (Note μ) → Prop}
    (h : ∀ weaker size w ℓ', Within ℓ ℓ' → weaker ∈ guesses ℓ' →
      (∀ o ∈ s.agenda.waiting, ∃ g, Opposed ℓ' o.counter g ∧
        ((s.frame.erase ob.forward).insert weaker).contains g = true) →
      Q weaker { s with
        frame := (s.frame.erase ob.forward).insert weaker, stats.frameSize := size } w ℓ') :
    Leads (weaken B.noted ob refutation) s w ℓ F Q := by
  refine .bind (leads_act hF (fun _ _ => rfl) fun _ _ => .bind (leads_change (.bind
    (leads_step hF (fun _ _ => rfl) fun weaker _ => .bind (leads_change (.bind (leads_change (.bind
      (leads_checkRefutations hF hq fun new w' hnew hall => .bind (leads_report fun _ =>
        leads_pure (h weaker _ _ _ ?_ ?_ fun o ho => ?_)))))))))))
  · exact (((Within.refl ℓ).cons rfl).cons rfl).append hnew
  · exact List.mem_filterMap.mpr ⟨_, List.mem_append_right _ List.mem_cons_self, rfl⟩
  · obtain ⟨g, hg, hin⟩ := hall o ho
    exact ⟨g, .of_mem (List.mem_append_left _ hg), hin⟩

theorem leads_refine {refutation counter : Formula} {Q : Push → Search → σ → List (Note μ) → Prop}
    (hF : Lenient F) (hq : s.agenda.Valid)
    (hclash : ∀ backward forward, s.frame.contains backward = true →
      F (.violation (.alreadyInFrame backward)) (.learned s.index counter (.ok forward) ::
        .negated counter (.ok backward) :: ℓ))
    (hover : ∀ backward forward, B.machine.counts (ob.depth + s.depth) = false →
      F (.violation .overflow) (.registered backward .first (.ok ()) ::
        .learned s.index counter (.ok forward) :: .negated counter (.ok backward) :: ℓ))
    (h : ∀ backward forward g stats agenda w, s.frame.contains backward = false → agenda.Valid →
      agenda.waiting.Perm (⟨forward, counter, ob.depth + s.depth, .zero⟩ :: s.agenda.waiting) →
      Q .refined { s with
        frame := (s.frame.insert backward).insert forward
        lineage := s.lineage.addOrigin backward ⟨refutation, counter, s.depth⟩, agenda, stats } w
      (.negated counter (.ok g) :: .registered backward .first (.ok ()) ::
        .learned s.index counter (.ok forward) :: .negated counter (.ok backward) :: ℓ)) :
    Leads (refine B.noted ob refutation counter) s w ℓ F Q := by
  refine .bind (leads_negate hF fun backward w₁ => .bind (leads_report fun _ =>
    .bind (leads_state (.bind ?_))))
  refine leads_act hF (fun _ _ => rfl) fun forward w₂ => .bind (leads_report fun _ => .bind ?_)
  refine leads_addFirst hF (hclash backward forward) fun hout w₃ => .bind (leads_change (.bind
    (leads_change (.bind (leads_state (.bind (leads_change (.bind ?_))))))))
  refine leads_checkedAdd (hover backward forward) fun _ => .bind (leads_report fun _ => .bind ?_)
  exact leads_enqueue hF hq fun g w₄ agenda _ _ hagenda hperm =>
    leads_pure (h backward forward g _ agenda w₄ hout hagenda hperm)

theorem window_eq (M : Machine) (index depth : Nat) : window M index depth =
    if M.counts (index + 1) = true then .ok (index + 1 - depth, index) else .error .overflow := by
  rw [window, Machine.add]
  split <;> rfl

theorem leads_window {index depth : Nat}
    {Q : Nat × Nat → Search → σ → List (Note μ) → Prop}
    (hover : B.machine.counts (index + 1) = false → F (.violation .overflow) ℓ)
    (h : B.machine.counts (index + 1) = true → Q (index + 1 - depth, index) s w ℓ) :
    Leads (Action.ofExcept (window B.noted.machine index depth)) s w ℓ F Q := by
  have hwindow : window B.noted.machine index depth = window B.machine index depth := rfl
  rw [hwindow, window_eq]
  split
  next hcounts => exact h hcounts
  next hcounts => exact hover (Bool.not_eq_true _ ▸ hcounts)

theorem leads_drain_of_invalid (hF : Lenient F) {fuel : Nat}
    (h : s.lineage.propertyInvalid = true) :
    Leads (drain B.noted config fuel) s w ℓ F fun _ s' _ _ =>
      s'.lineage.propertyInvalid = true := by
  cases fuel with
  | zero => exact leads_throw (hF.mild rfl)
  | succ fuel =>
      exact .bind (leads_state (.ite (fun _ => leads_pure h) fun hgo => by simp [h] at hgo))

/-- What is left of an obligation that was pushed. The first argument of `I` are the obligations
that the search holds besides its own. -/
def Pushed (I : List Obligation → Search → List (Note μ) → Prop) (ob : Obligation) (p : Push)
    (s : Search) (ℓ : List (Note μ)) : Prop :=
  match p with
  | .staged => I [] s ℓ
  | .refined => I [ob.bare] s ℓ
  | .failed => s.lineage.propertyInvalid = true

def Drained (I : List Obligation → Search → List (Note μ) → Prop) (s : Search)
    (ℓ : List (Note μ)) : Prop :=
  s.lineage.propertyInvalid = true ∨ s.agenda.waiting = [] ∧ I [] s ℓ

theorem leads_drain {I : List Obligation → Search → List (Note μ) → Prop} (hF : Lenient F)
    (hq : ∀ held s ℓ, I held s ℓ → s.agenda.Valid)
    (hpop : ∀ s {ℓ agenda} {ob : Obligation}, I [] s ℓ → agenda.Valid →
      s.agenda.waiting.Perm (ob.bare :: agenda.waiting) →
      I [ob.bare] { s with agenda, stats.queueSize := agenda.size } ℓ)
    (hpush : ∀ s w ℓ ob, I [ob.bare] s ℓ →
      Leads (push B.noted config ob) s w ℓ F fun p s' _ => Pushed I ob p s')
    (hback : ∀ s {ℓ g agenda} {ob : Obligation}, I [ob.bare] s ℓ → agenda.Valid →
      agenda.waiting.Perm (ob.bare :: s.agenda.waiting) →
      I [] { s with agenda, stats.queueSize := agenda.size } (.negated ob.counter (.ok g) :: ℓ)) :
    ∀ {fuel : Nat} {s : Search} {w : σ} {ℓ : List (Note μ)}, I [] s ℓ →
      Leads (drain B.noted config fuel) s w ℓ F fun _ s' _ => Drained I s'
  | 0, _, _, _, _ => leads_throw (hF.mild rfl)
  | fuel + 1, s, w, ℓ, h => by
      refine .bind (leads_state (.ite (fun hstop => leads_pure ?_) fun hgo => ?_))
      · rcases Bool.or_eq_true_iff.mp hstop with hempty | hinvalid
        · exact Or.inr ⟨(hq _ s ℓ h).isEmpty_iff_waiting.mp hempty, h⟩
        · exact Or.inl hinvalid
      have hne : s.agenda.isEmpty = false := by
        cases hempty : s.agenda.isEmpty with
        | false => rfl
        | true => simp [hempty] at hgo
      refine .bind (leads_pop (hq _ s ℓ h) hne fun ob agenda hagenda hperm => .bind ?_)
      refine Leads.imp (hpush _ w ℓ ob (hpop s h hagenda hperm)) fun p s₁ w₁ ℓ₁ hpushed => ?_
      cases p with
      | staged => exact .ite nofun fun _ => leads_drain hF hq hpop hpush hback hpushed
      | failed => exact .ite nofun fun _ =>
          (leads_drain_of_invalid hF hpushed).imp fun _ _ _ _ => Or.inl
      | refined =>
          refine .ite (fun _ => .bind (leads_enqueue hF (hq _ s₁ ℓ₁ hpushed)
            fun g w₂ agenda₂ _ _ hagenda₂ hperm₂ => ?_)) fun hne => absurd rfl hne
          exact leads_drain hF hq hpop hpush hback (hback s₁ hpushed hagenda₂ hperm₂)

theorem leads_drainFrame {I : List Obligation → Search → List (Note μ) → Prop} {fuel : Nat}
    (hF : Lenient F) (hnote : ∀ s ℓ, I [] s ℓ → I [] s (.other none :: ℓ))
    (h : Leads (drain B.noted config fuel) s w ℓ F fun _ s' _ => Drained I s') :
    Leads (drainFrame B.noted config fuel) s w ℓ F fun _ s' _ => Drained I s' := by
  refine .bind (h.imp fun left s₁ w₁ ℓ₁ h₁ => .ite (fun _ => .bind ?_) fun _ => leads_pure h₁)
  refine .bind (leads_state (.bind (leads_act hF (fun _ _ => rfl) fun _ _ =>
    leads_report fun _ => leads_pure ?_)))
  exact h₁.imp_right fun ⟨hwaiting, hI⟩ => ⟨hwaiting, hnote s₁ ℓ₁ hI⟩

end Invariance.Search
