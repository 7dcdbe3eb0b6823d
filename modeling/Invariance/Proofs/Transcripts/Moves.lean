import Invariance.Proofs.Agenda.Waiting
import Invariance.Proofs.Transcripts.Rules

/-!
What the single moves of the search lead to, whatever the backend answers: each of them either ends
with a fault that its backend noted or with one that is not grave, or it goes on as stated.
-/

namespace Invariance.Search

variable {S σ μ α : Type} {B : Backend S σ μ} {s : Search} {w : σ} {ℓ : List (Note μ)}
  {F : Fault → List (Note μ) → Prop} {f : Formula}

theorem leads_negate (hF : Lenient F) {Q : Formula → Search → σ → List (Note μ) → Prop}
    (h : ∀ g w, Q g s w (.negated f (.ok g) :: ℓ)) : Leads (negate B.noted f) s w ℓ F Q :=
  leads_step hF (fun _ _ => rfl) h

theorem leads_checkedAdd {a b : Nat} {Q : Nat → Search → σ → List (Note μ) → Prop}
    (hF : B.machine.counts (a + b) = false → F (.violation .overflow) ℓ)
    (h : B.machine.counts (a + b) = true → Q (a + b) s w ℓ) :
    Leads (checkedAdd B.noted a b) s w ℓ F Q := by
  have hadd : B.noted.machine.add a b = B.machine.add a b := rfl
  rw [checkedAdd, hadd, Machine.add]
  cases hcounts : B.machine.counts (a + b) with
  | true => exact h hcounts
  | false => exact hF hcounts

/-! The frame. -/

theorem leads_onFrame_add {role : Role} {Q : Unit → Search → σ → List (Note μ) → Prop}
    (hF : Lenient F) (hnot : ∀ v, s.frame.enter f role = .error v → F (.violation v) ℓ)
    (h : ∀ frame, s.frame.enter f role = .ok frame → ∀ w,
      Q () { s with frame, stats.frameSize := frame.size } w (.registered f role (.ok ()) :: ℓ)) :
    Leads (addToFrame B.noted f role) s w ℓ F Q := by
  have hadd : Action.Yields (Frame.add B.noted.oracle.toRegistry f role) (s.frame, w, ℓ)
      (fun fault t => F fault t.2.2) fun _ t => s.frame.enter f role = .ok t.1 ∧
        t.2.2 = .registered f role (.ok ()) :: ℓ := by
    change Action.Yields (do
      let frame ← Action.ofExcept (s.frame.enter f role)
      modify fun t => (frame, t.2)
      Action.within Prod.snd (fun w t => (t.1, w)) (B.noted.oracle.register f role)) _ _ _
    refine .bind ?_
    cases henter : s.frame.enter f role with
    | error v => exact hnot v henter
    | ok frame =>
        refine Action.Yields.bind (Action.Yields.within ?_)
        exact Action.yields_noting (fun answer _ => Note.registered f role answer)
          (fun _ _ => hF.noted rfl) fun _ _ => ⟨rfl, rfl⟩
  refine Action.Yields.bind (Action.Yields.within (hadd.imp fun _ t ht => ?_))
  obtain ⟨frame, w', ℓ'⟩ := t
  obtain ⟨henter, rfl⟩ := ht
  exact h frame henter w'

theorem leads_addFirst {Q : Unit → Search → σ → List (Note μ) → Prop} (hF : Lenient F)
    (hin : s.frame.contains f = true → F (.violation (.alreadyInFrame f)) ℓ)
    (h : s.frame.contains f = false → ∀ w, Q ()
      { s with frame := s.frame.insert f, stats.frameSize := (s.frame.insert f).size } w
      (.registered f .first (.ok ()) :: ℓ)) :
    Leads (addToFrame B.noted f .first) s w ℓ F Q := by
  refine leads_onFrame_add hF (fun v hv => ?_) fun frame hframe => ?_
  · rw [Frame.enter] at hv
    split at hv
    next hcontains =>
      obtain rfl := Except.error.inj hv
      exact hin hcontains
    next => cases hv
  · rw [Frame.enter] at hframe
    split at hframe
    next => cases hframe
    next hcontains =>
      obtain rfl := Except.ok.inj hframe
      exact h (Bool.not_eq_true _ ▸ hcontains)

theorem leads_addIntermediate {Q : Unit → Search → σ → List (Note μ) → Prop} (hF : Lenient F)
    (h : ∀ intermediate w, Q ()
      { s with frame.intermediate := intermediate, stats.frameSize := s.frame.size } w
      (.registered f .intermediate (.ok ()) :: ℓ)) :
    Leads (addToFrame B.noted f .intermediate) s w ℓ F Q := by
  refine leads_onFrame_add hF (fun v hv => ?_) fun frame hframe => ?_
  · rw [Frame.enter] at hv
    split at hv
    next =>
      obtain rfl := Except.error.inj hv
      exact hF.mild rfl
    next => cases hv
  · rw [Frame.enter] at hframe
    split at hframe
    next => cases hframe
    next =>
      obtain rfl := Except.ok.inj hframe
      exact h _

theorem leads_clearFrame {depth : Nat} {Q : Unit → Search → σ → List (Note μ) → Prop}
    (hF : ∀ {e n ℓ}, n.fault? = some e → F e (n :: ℓ))
    (h : ∀ w, Q () { s with frame := .empty, stats.frameSize := 0 } w
      (.reset depth (.ok ()) :: ℓ)) :
    Leads (clearFrame B.noted depth) s w ℓ F Q := by
  refine Action.Yields.bind (Action.Yields.within (Action.Yields.bind (Action.Yields.within ?_)))
  exact Action.yields_noting (fun answer _ => Note.reset depth answer)
    (fun _ _ => hF rfl) fun _ w => h w

/-! Obligations. -/

theorem leads_push {ob : Obligation} {Q : Nat × Agenda → Search → σ → List (Note μ) → Prop}
    (hF : Lenient F) (hq : s.agenda.Valid)
    (h : (∀ o ∈ s.agenda.waiting, o.counter ≠ ob.counter) → ∀ slot agenda, agenda.Valid →
      agenda.waiting.Perm (ob.bare :: s.agenda.waiting) → Q (slot, agenda) s w ℓ) :
    Leads (Action.ofExcept (s.agenda.push ob)) s w ℓ F Q := by
  rcases Agenda.push_cases hq ob with
    hpush | ⟨hfresh, slot, agenda, hpush, hagenda, hperm⟩
  · rw [hpush]
    exact hF.mild (e := .violation _) rfl
  · rw [hpush]
    exact h hfresh slot agenda hagenda hperm

theorem leads_enqueue {ob : Obligation} {Q : Unit → Search → σ → List (Note μ) → Prop}
    (hF : Lenient F) (hq : s.agenda.Valid)
    (h : ∀ g w agenda, s.frame.contains g = true →
      (∀ o ∈ s.agenda.waiting, o.counter ≠ ob.counter) → agenda.Valid →
      agenda.waiting.Perm (ob.bare :: s.agenda.waiting) →
      Q () { s with agenda, stats.queueSize := agenda.size } w
        (.negated ob.counter (.ok g) :: ℓ)) :
    Leads (enqueue B.noted ob) s w ℓ F Q := by
  refine .bind (leads_negate hF fun g w₁ => .bind (leads_state (.ite (fun hin => ?_) fun _ => ?_)))
  · exact .bind (leads_push hF hq fun hfresh slot agenda hagenda hperm =>
      leads_change (h g w₁ agenda hin hfresh hagenda hperm))
  · exact .bind (leads_violate (hF.mild rfl))

theorem leads_pop {Q : Obligation → Search → σ → List (Note μ) → Prop} (hq : s.agenda.Valid)
    (hne : s.agenda.isEmpty = false)
    (h : ∀ ob agenda, agenda.Valid → s.agenda.waiting.Perm (ob.bare :: agenda.waiting) →
      Q ob { s with agenda, stats.queueSize := agenda.size } w ℓ) :
    Leads pop s w ℓ F Q := by
  obtain ⟨ob, agenda, hpop, hagenda, hperm, _⟩ := Agenda.pop_waiting hq hne
  refine .bind (leads_state (.bind ?_))
  rw [hpop]
  exact h ob agenda hagenda hperm

theorem leads_bump {counter : Formula} {Q : Unit → Search → σ → List (Note μ) → Prop}
    (hq : s.agenda.Valid)
    (h : ∀ agenda, agenda.Valid → agenda.waiting.Perm s.agenda.waiting →
      Q () { s with agenda } w ℓ) :
    Leads (bump counter) s w ℓ F Q := by
  obtain ⟨found, agenda, hbump, hagenda, hperm⟩ := Agenda.bump_waiting hq counter .one
  refine .bind (leads_state (.bind ?_))
  rw [hbump]
  exact h agenda hagenda hperm

def Negations (new : List (Note μ)) : Prop := ∀ n ∈ new, ∃ f g, n = .negated f (.ok g)

theorem leads_checkRefutations {Q : Unit → Search → σ → List (Note μ) → Prop} (hF : Lenient F)
    (hq : s.agenda.Valid)
    (h : ∀ new w, Negations new → (∀ o ∈ s.agenda.waiting, ∃ g,
      .negated o.counter (.ok g) ∈ new ∧ s.frame.contains g = true) → Q () s w (new ++ ℓ)) :
    Leads (checkRefutations B.noted) s w ℓ F Q := by
  obtain ⟨obs, hobs, _, _, hmem⟩ := hq.toList_eq
  have hloop : ∀ (obs : List Obligation) (w : σ) (old : List (Note μ)),
      Leads (obs.forM fun ob => do
        let refutation ← negate B.noted ob.counter
        unless (← state).frame.contains refutation do
          Action.violate (.refutationLost ob.counter)) s w old F fun _ s' _ ℓ' => s' = s ∧
        ∃ new, ℓ' = new ++ old ∧ Negations new ∧ ∀ ob ∈ obs, ∃ g,
          .negated ob.counter (.ok g) ∈ new ∧ s.frame.contains g = true := by
    intro obs
    induction obs with
    | nil => exact fun w old => leads_pure ⟨rfl, [], rfl, nofun, nofun⟩
    | cons ob obs ih =>
        intro w old
        refine .bind (.bind (leads_negate hF fun g w₁ => .bind (leads_state (.ite
          (fun hin => leads_pure ?_) fun _ => leads_violate (hF.mild rfl)))))
        refine (ih w₁ _).imp fun _ s' w' ℓ' hrest => ?_
        obtain ⟨rfl, new, rfl, hnew, hall⟩ := hrest
        refine ⟨rfl, new ++ [.negated ob.counter (.ok g)], by simp, ?_, fun o ho => ?_⟩
        · intro n hn
          rcases List.mem_append.mp hn with hn | hn
          · exact hnew n hn
          · exact ⟨_, _, List.mem_singleton.mp hn⟩
        · rcases List.mem_cons.mp ho with rfl | ho
          · exact ⟨g, List.mem_append_right _ (List.mem_singleton.mpr rfl), hin⟩
          · obtain ⟨g', hg', hin'⟩ := hall o ho
            exact ⟨g', List.mem_append_left _ hg', hin'⟩
  refine .bind (leads_state (.bind ?_))
  rw [hobs]
  refine (hloop obs w ℓ).imp fun _ s' w' ℓ' hrest => ?_
  obtain ⟨rfl, new, rfl, hnew, hall⟩ := hrest
  refine h new w' hnew fun o ho => ?_
  obtain ⟨o', ho', rfl⟩ := List.mem_map.mp ho
  exact hall o' (hmem.mpr (hq.mem_bySlot_iff.mp ho'))

/-! From one round to the next. -/

theorem leads_restore {ob : Obligation} {Q : Unit → Search → σ → List (Note μ) → Prop}
    (hF : Lenient F) (hq : s.agenda.Valid)
    (hclash : ∀ r, s.frame.contains r = true →
      F (.violation (.alreadyInFrame r)) (.negated ob.counter (.ok r) :: ℓ))
    (h : ∀ r g intermediate stats agenda w, agenda.Valid →
      agenda.waiting.Perm (ob.bare :: s.agenda.waiting) →
      Q () { s with
        frame.members := s.frame.members.insert r
        frame.intermediate := intermediate, agenda, stats } w
      (.negated ob.counter (.ok g) :: .registered r .intermediate (.ok ()) ::
        .registered r .first (.ok ()) :: .negated ob.counter (.ok r) :: ℓ)) :
    Leads (restore B.noted ob) s w ℓ F Q :=
  .bind (leads_negate hF fun r _ => .bind (leads_addFirst hF (hclash r) fun _ _ =>
    .bind (leads_addIntermediate hF fun intermediate _ => leads_enqueue hF hq
      fun g w agenda _ _ hagenda hperm => h r g intermediate _ agenda w hagenda hperm)))

theorem leads_deepen {Q : Unit → Search → σ → List (Note μ) → Prop}
    (hF : ∀ {e n ℓ}, n.fault? = some e → F e (n :: ℓ))
    (hover : B.machine.counts (s.index + 1) = false → F (.violation .overflow) ℓ)
    (h : ∀ stats w, stats.rounds = s.stats.rounds → Q ()
      { s with frame := .empty, agenda := .empty, depth := s.index + 1, stats } w
      (.reset (s.index + 1) (.ok ()) :: ℓ)) :
    Leads (deepen B.noted) s w ℓ F Q := by
  refine .bind (leads_change (.bind (leads_state (.bind (leads_state (.bind ?_))))))
  refine leads_checkedAdd hover fun _ => .bind (leads_change (.bind (leads_clearFrame hF
    fun w => .bind (leads_change (leads_report fun _ => ?_)))))
  exact h _ _ rfl

structure Moved (r : Relocation) (s s' : Search) : Prop where
  valid : s'.agenda.Valid
  waiting : ∀ o' ∈ s'.agenda.waiting, ∃ o ∈ s.agenda.waiting, o'.depth = o.depth
  unstaged : s'.staged = []
  lineage : s'.lineage = s.lineage.relocate r
  index : s'.index = s.index
  depth : s'.depth = s.depth

theorem leads_keep (hF : Lenient F) (obs : List Obligation) :
    Leads (obs.filterM fun ob => do
      return (← state).frame.contains (← negate B.noted ob.counter)) s w ℓ F fun kept s' _ ℓ' =>
        kept.Sublist obs ∧ s' = s ∧ ∃ new, ℓ' = new ++ ℓ ∧ Negations new := by
  refine Action.Yields.imp (Action.yields_filterM (I := fun t => t.1 = s ∧
    ∃ new, t.2.2 = new ++ ℓ ∧ Negations new) (fun ob t ht => ?_) ⟨rfl, [], rfl, nofun⟩)
      fun _ _ h => h
  obtain ⟨s', w', ℓ'⟩ := t
  obtain ⟨rfl, new, rfl, hnew⟩ := ht
  have hasked : Leads (do
      return (← state).frame.contains (← negate B.noted ob.counter)) s' w' (new ++ ℓ) F
      fun _ s _ ℓ' => s = s' ∧ ∃ new, ℓ' = new ++ ℓ ∧ Negations new := by
    refine .bind (leads_state (.bind (leads_negate hF fun g w₁ => leads_pure ⟨rfl, ?_⟩)))
    exact ⟨_ :: new, rfl, List.forall_mem_cons.mpr ⟨⟨_, _, rfl⟩, hnew⟩⟩
  exact hasked

theorem leads_relocate {r : Relocation} {Q : Unit → Search → σ → List (Note μ) → Prop}
    (hF : Lenient F) (h : ∀ s' w new, Moved r s s' → Negations new → Q () s' w (new ++ ℓ)) :
    Leads (relocate B.noted r) s w ℓ F Q := by
  obtain ⟨lost, agenda, hrelocate, hagenda, _, hfind⟩ := Agenda.relocate_eq s.agenda r
  have hfrom : ∀ o' ∈ agenda.bySlot, ∃ o ∈ s.agenda.bySlot, o'.depth = o.depth := fun o' ho' => by
    have hfound := hagenda.mem_bySlot_iff.mp ho'
    rw [hfind] at hfound
    obtain ⟨o, ho, hmove⟩ := List.mem_filterMap.mp (List.mem_of_find?_eq_some hfound)
    simp only [Obligation.relocate, Option.bind_eq_bind, Option.bind_eq_some_iff] at hmove
    obtain ⟨forward, _, counter, _, heq⟩ := hmove
    exact ⟨o, ho, by rw [← Option.some.inj heq]⟩
  refine .bind (leads_state (.ite (fun hstaged => ?_) fun _ =>
    .bind (leads_violate (hF.mild rfl))))
  refine .bind (leads_change (.bind (leads_state (.bind ?_))))
  rw [hrelocate]
  refine .bind (Leads.imp (leads_keep hF agenda.bySlot) fun kept s₁ w₁ ℓ₁ hkept => ?_)
  obtain ⟨hsub, rfl, new₁, rfl, hnew₁⟩ := hkept
  obtain ⟨agenda', hlist, hagenda', _, hmem⟩ :=
    Agenda.ofList_eq ((hsub.map _).nodup hagenda.nodup_bySlot)
  refine .bind ?_
  rw [hlist]
  refine .bind (leads_change (.bind ?_))
  refine leads_checkRefutations hF hagenda' fun new₂ w₂ hnew₂ _ => .bind (leads_change ?_)
  refine .bind (leads_update (.bind (leads_update (.bind (leads_change (.bind (leads_change
    (leads_report fun _ => ?_))))))))
  rw [← List.append_assoc]
  refine h _ _ _ ⟨hagenda', fun o' ho' => ?_, List.isEmpty_iff.mp hstaged, rfl, rfl, rfl⟩
    fun n hn => (List.mem_append.mp hn).elim (hnew₂ n) (hnew₁ n)
  obtain ⟨o₁, ho₁, rfl⟩ := List.mem_map.mp ho'
  obtain ⟨o, ho, hdepth⟩ := hfrom o₁ (hsub.mem (hmem.mp (hagenda'.mem_bySlot_iff.mp ho₁)))
  exact ⟨o.bare, List.mem_map.mpr ⟨o, ho, rfl⟩, hdepth⟩

/-- Whatever each new literal keeps, and each literal that is in the frame already, a property keeps
until one of its literals is refuted. -/
theorem leads_addProperty {I : Search → List (Note μ) → Prop} (hF : Lenient F)
    (hq : ∀ s {ℓ}, I s ℓ → s.agenda.Valid)
    (hold : ∀ s {ℓ p negation agenda}, I s ℓ → s.frame.contains p = true → agenda.Valid →
      agenda.waiting.Perm s.agenda.waiting →
      I { s with agenda, lineage := s.lineage.addProperty p }
        (.other none :: .negated p (.ok negation) :: ℓ))
    (hnew : ∀ s {ℓ p negation g intermediate stats agenda}, I s ℓ →
      (∀ o ∈ s.agenda.waiting, o.counter ≠ negation) → agenda.Valid →
      agenda.waiting.Perm (⟨p, negation, 0, .zero⟩ :: s.agenda.waiting) →
      I { s with
          frame := { s.frame.insert p with intermediate }
          lineage := s.lineage.addProperty p, agenda, stats }
        (.negated negation (.ok g) :: .registered p .intermediate (.ok ()) ::
          .registered p .first (.ok ()) :: .other none :: .negated p (.ok negation) :: ℓ)) :
    ∀ {fuel : Nat} {p : Formula} {s : Search} {w : σ} {ℓ : List (Note μ)}, I s ℓ →
      Leads (addProperty B.noted fuel p) s w ℓ F fun answer s' _ ℓ' => answer = true → I s' ℓ'
  | 0, _, _, _, _, _ => leads_throw (hF.mild rfl)
  | fuel + 1, p, s, w, ℓ, h => by
      refine .bind (leads_ask ?_)
      cases B.noted.terms.conjuncts (w, ℓ) p with
      | some conjuncts =>
          exact leads_allM (I := fun s _ ℓ => I s ℓ)
            (fun q _ _ _ _ h => leads_addProperty hF hq hold hnew h) h
      | none =>
          refine .bind (leads_negate hF fun negation w₁ => .bind (leads_act hF (fun _ _ => rfl)
            fun answer w₂ => ?_))
          match answer with
          | .unknown => exact leads_fail hF
          | .sat none => exact leads_fail hF
          | .sat (some _) =>
              exact .bind (leads_report fun _ => .bind (leads_update (.bind (leads_change
                (leads_pure nofun)))))
          | .unsat =>
              refine .bind (leads_state (.ite (fun hin => ?_) fun hout => .bind ?_))
              · exact .bind (leads_bump (hq s h) fun agenda hagenda hperm => .bind (leads_change
                  (leads_pure fun _ => hold s h hin hagenda hperm)))
              · exact leads_addFirst hF (fun hin => absurd hin hout) fun _ w₃ => .bind
                  (leads_addIntermediate hF fun intermediate w₄ => .bind (leads_enqueue hF (hq s h)
                    fun g w₅ agenda _ hfresh hagenda hperm => .bind (leads_bump hagenda
                      fun agenda₁ hagenda₁ hperm₁ => .bind (leads_change (leads_pure
                        fun _ => hnew s h hfresh hagenda₁ (hperm₁.trans hperm))))))

theorem leads_showInvariant {config : Config} :
    Leads (showInvariant B.noted config) s w ℓ F fun _ s' _ ℓ' => s' = s ∧ ℓ' = ℓ := by
  refine .ite (fun _ => .bind (leads_state ?_)) fun _ => leads_pure ⟨rfl, rfl⟩
  refine leads_forM (I := fun s' _ ℓ' => s' = s ∧ ℓ' = ℓ) (fun _ _ s' w' ℓ' h => ?_) ⟨rfl, rfl⟩
  exact leads_report fun _ => h

end Invariance.Search
