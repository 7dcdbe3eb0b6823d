import Invariance.Proofs.Transcripts.Moves

/-!
What a reachable counter-state leads to. The property counts as disproved from then on, and the
search fails by itself only where a trace is too short or the machine has no number for a frame.
-/

namespace Invariance

theorem Machine.counts_mono {M : Machine} {a b : Nat} (h : a ≤ b) (hb : M.counts b = true) :
    M.counts a = true := by
  rw [counts] at hb ⊢
  cases hwords : M.words with
  | none => rfl
  | some limit =>
      rw [hwords] at hb
      have hlt : b < limit := of_decide_eq_true hb
      exact decide_eq_true (Nat.lt_of_le_of_lt h hlt)

theorem Lenient.suffix {μ : Type} {F : Fault → List (Note μ) → Prop} (hF : Lenient F) {e : Fault}
    {ℓ ℓ' : List (Note μ)} (h : ℓ <:+ ℓ') (he : F e ℓ) : F e ℓ' := by
  obtain ⟨new, rfl⟩ := h
  exact hF.append he new

namespace Search

variable {S σ μ α : Type} {B : Backend S σ μ} {config : Config} {s : Search} {w : σ}
  {ℓ : List (Note μ)} {F : Fault → List (Note μ) → Prop}

theorem leads_markInvalid {f : Formula} {k : Nat} {Q : Unit → Search → σ → List (Note μ) → Prop}
    (hF : Lenient F) (hbefore : ¬ s.index ≤ k → F (.violation (.markedBeforeFrame f k s.index)) ℓ)
    (h : ∀ invalid flag, (s.lineage.propertyInvalid = true → flag = true) →
      Q () { s with lineage.invalid := invalid, lineage.propertyInvalid := flag } w ℓ) :
    Leads (markInvalid f k) s w ℓ F Q := by
  refine .bind (leads_state (.ite (fun _ => .bind (leads_ofExcept (fun v hv => ?_)
    fun lineage hlineage => ?_)) fun hk => .bind (leads_violate (hbefore hk))))
  · rw [Lineage.markInvalid] at hv
    split at hv
    next =>
      obtain rfl := Except.error.inj hv
      exact hF.mild rfl
    next => cases hv
  · rw [Lineage.markInvalid] at hlineage
    split at hlineage
    next => cases hlineage
    next =>
      obtain rfl := Except.ok.inj hlineage
      exact leads_change (h _ _ fun hinvalid => by rw [hinvalid]; rfl)

theorem leads_assertFalseAt {f : Formula} {k : Nat} (hF : Lenient F) :
    Leads (assertFalseAt B.noted f k) s w ℓ F fun _ s' _ ℓ' => s' = s ∧ ℓ <:+ ℓ' :=
  .bind (leads_update (.bind (leads_negate hF fun _ _ => .bind (leads_step hF (fun _ _ => rfl)
    fun _ _ => leads_act hF (fun _ _ => rfl) fun _ _ => ⟨rfl, [_, _, _], rfl⟩))))

theorem leads_assertTrace (hF : Lenient F) : ∀ {trace : List Formula} {k : Nat} {w : σ}
    {ℓ : List (Note μ)}, Leads (assertTrace B.noted k trace) s w ℓ F fun _ s' _ ℓ' =>
      s' = s ∧ ℓ <:+ ℓ'
  | [], _, _, _ => leads_pure ⟨rfl, List.suffix_rfl⟩
  | _ :: _, _, _, _ => .bind (leads_step hF (fun _ _ => rfl) fun _ _ =>
      .bind (leads_act hF (fun _ _ => rfl) fun _ _ => (leads_assertTrace hF).imp
        fun _ _ _ _ h => ⟨h.1, .trans ⟨[_, _], rfl⟩ h.2⟩))

theorem leads_recordModel (hF : Lenient F) :
    Leads (recordModel B.noted) s w ℓ F fun _ s' _ ℓ' => s' = s ∧ ℓ <:+ ℓ' :=
  .bind (leads_act hF (fun _ _ => rfl) fun _ _ => leads_update ⟨rfl, [_], rfl⟩)

def Shallow (s : Search) : Prop := ∀ f o, s.lineage.origin? f = some o → o.depth ≤ s.depth

theorem leads_climb (hF : Lenient F) : ∀ {bound : Nat} {f : Formula} {k : Nat} {s : Search} {w : σ}
    {ℓ : List (Note μ)}, s.agenda.Valid → s.index ≤ k → s.lineage.propertyInvalid = true →
    F (.violation .overflow) ℓ ∨
      Shallow s ∧ B.machine.counts (k + bound * s.depth) = true →
    Leads (climb B.noted bound f k) s w ℓ F fun _ s' _ _ => s'.lineage.propertyInvalid = true
  | 0, _, _, _, _, _, _, _, _, _ => leads_throw (hF.mild rfl)
  | bound + 1, f, k, s, w, ℓ, hq, hk, hinvalid, hroom => by
      refine .bind (leads_change (.bind (leads_negate hF fun g w₁ => .bind (leads_bump hq
        fun agenda hagenda _ => .bind (leads_state ?_)))))
      cases horigin : s.lineage.origin? f with
      | none =>
          exact .ite (fun _ => .bind (leads_ask (leads_report fun _ => hinvalid)))
            fun _ => leads_pure hinvalid
      | some origin =>
          have hnext : F (.violation .overflow) ℓ ∨ Shallow s ∧
              B.machine.counts (k + origin.depth + bound * s.depth) = true := by
            refine hroom.imp_right fun ⟨hshallow, hcounts⟩ =>
              ⟨hshallow, Machine.counts_mono ?_ hcounts⟩
            have hdepth : origin.depth ≤ s.depth := hshallow f origin horigin
            rw [Nat.succ_mul]
            omega
          refine .bind (leads_checkedAdd (fun hno => ?_) fun _ => .ite
            (fun _ => leads_pure hinvalid) fun _ => ?_)
          · rcases hnext with hover | ⟨_, hcounts⟩
            · exact hF.grow hover
            · rw [Machine.counts_mono (Nat.le_add_right _ _) hcounts] at hno
              cases hno
          refine .bind ((leads_assertFalseAt hF).imp fun _ s₁ w₂ ℓ₂ h₁ => ?_)
          obtain ⟨rfl, hsuffix₂⟩ := h₁
          refine .bind (leads_act hF (fun _ _ => rfl) fun _ w₃ => .ite (fun _ => ?_)
            fun _ => leads_report fun _ => hinvalid)
          refine .bind (leads_markInvalid hF (fun hno => absurd ?_ hno)
            fun invalid flag hflag => ?_)
          · exact Nat.le_trans hk (Nat.le_add_right _ _)
          refine .bind ((leads_recordModel hF).imp fun _ s₂ w₄ ℓ₄ h₂ => ?_)
          obtain ⟨rfl, hsuffix₄⟩ := h₂
          have hsuffix : ℓ <:+ ℓ₄ :=
            .trans (.trans ⟨[_], rfl⟩ hsuffix₂) (.trans ⟨[_], rfl⟩ hsuffix₄)
          refine .bind (leads_report fun _ => leads_climb hF hagenda ?_ (hflag hinvalid)
            (hnext.imp_left (hF.suffix hsuffix)))
          exact Nat.le_trans hk (Nat.le_add_right _ _)

/-- So the world goes on while nothing is done but to report. -/
inductive Reported (B : Backend S σ μ) : σ → σ → Prop
  | refl (w : σ) : Reported B w w
  | step (event : Event) {w w' : σ} : Reported B (B.reports.report event w) w' → Reported B w w'

/-- There are numbers for all frames that an extension from here comes to. -/
structure Roomy (B : Backend S σ μ) (s : Search) (w : σ) : Prop where
  shallow : Shallow s
  index : B.machine.counts (s.index + 1) = true
  frames : ∀ {w'}, Reported B w w' → B.machine.counts
    ((B.reachability.counterTrace w').length + (s.lineage.size + 2) * s.depth) = true

structure Allows (B : Backend S σ μ) (F : Fault → List (Note μ) → Prop) (s : Search) (w : σ)
    (ℓ : List (Note μ)) : Prop where
  room : F (.violation .overflow) ℓ ∨ Roomy B s w
  marked : ∀ {w'}, Reported B w w' → ¬ s.index < (B.reachability.counterTrace w').length - 1 +
    s.depth → ∀ f k, F (.violation (.markedBeforeFrame f k s.index)) ℓ
  short : ∀ {w'}, Reported B w w' → ¬ s.index < (B.reachability.counterTrace w').length - 1 +
    s.depth → F (.violation .traceBeforeFrame) ℓ

theorem Allows.report {event : Event} (h : Allows B F s w ℓ) :
    Allows B F s (B.reports.report event w) ℓ where
  room := h.room.imp_right fun hroom =>
    ⟨hroom.shallow, hroom.index, fun hw => hroom.frames (.step event hw)⟩
  marked hw := h.marked (.step event hw)
  short hw := h.short (.step event hw)

theorem Allows.lastFrame (h : Allows B F s w ℓ) (hno : B.machine.counts
    ((B.reachability.counterTrace w).length - 1 + s.depth) = false) :
    F (.violation .overflow) ℓ := by
  rcases h.room with hover | hroom
  · exact hover
  · have hle : (B.reachability.counterTrace w).length - 1 + s.depth ≤
        (B.reachability.counterTrace w).length + (s.lineage.size + 2) * s.depth := by
      rw [Nat.succ_mul]
      omega
    rw [Machine.counts_mono hle (hroom.frames (.refl w))] at hno
    cases hno

theorem leads_lastFrame {trace : List Formula} {Q : Nat → Search → σ → List (Note μ) → Prop}
    (hover : B.machine.counts (trace.length - 1 + s.depth) = false → F (.violation .overflow) ℓ)
    (h : Q (trace.length - 1 + s.depth) s w ℓ) : Leads (lastFrame B.noted trace) s w ℓ F Q :=
  .bind (leads_state (leads_checkedAdd hover fun _ => h))

theorem leads_extendInScope {f : Formula} {trace : List Formula} (hF : Lenient F)
    (hq : s.agenda.Valid) (hinvalid : s.lineage.propertyInvalid = true)
    (hlong : s.index < trace.length - 1 + s.depth)
    (hroom : F (.violation .overflow) ℓ ∨ Shallow s ∧
      B.machine.counts (trace.length + (s.lineage.size + 2) * s.depth) = true) :
    Leads (extendInScope B.noted config f trace) s w ℓ F fun _ s' _ _ =>
      s'.lineage.propertyInvalid = true := by
  have hclimb : F (.violation .overflow) ℓ ∨ Shallow s ∧ B.machine.counts
      (trace.length - 1 + s.depth + (s.lineage.size + 1) * s.depth) = true := by
    refine hroom.imp_right fun ⟨hshallow, hcounts⟩ => ⟨hshallow, Machine.counts_mono ?_ hcounts⟩
    rw [Nat.succ_mul (s.lineage.size + 1)]
    omega
  refine .bind ((leads_assertTrace hF).imp fun _ s₁ w₁ ℓ₁ h₁ => ?_)
  obtain ⟨rfl, hsuffix₁⟩ := h₁
  refine .bind (leads_lastFrame (fun hno => ?_) ?_)
  · rcases hclimb with hover | ⟨_, hcounts⟩
    · exact hF.suffix hsuffix₁ hover
    · rw [Machine.counts_mono (Nat.le_add_right _ _) hcounts] at hno
      cases hno
  refine .bind ((leads_assertFalseAt hF).imp fun _ s₂ w₂ ℓ₂ h₂ => ?_)
  obtain ⟨rfl, hsuffix₂⟩ := h₂
  refine .bind (leads_act hF (fun _ _ => rfl) fun _ w₃ => .ite (fun _ => ?_) fun _ =>
    .bind (leads_violate (hF.mild rfl)))
  refine .bind ((leads_recordModel hF).imp fun _ s₃ w₃ ℓ₃ h₃ => ?_)
  obtain ⟨rfl, hsuffix₃⟩ := h₃
  have hsuffix : ℓ <:+ ℓ₃ := .trans (.trans hsuffix₁ hsuffix₂) (.trans ⟨[_], rfl⟩ hsuffix₃)
  exact .ite (fun _ => .bind (leads_state (leads_climb hF hq (Nat.le_of_lt hlong) hinvalid
    (hclimb.imp_left (hF.suffix hsuffix))))) fun _ => leads_pure hinvalid

theorem leads_extendFailure {f : Formula} (hF : Lenient F) (hq : s.agenda.Valid)
    (hinvalid : s.lineage.propertyInvalid = true) (hallow : Allows B F s w ℓ) :
    Leads (extendFailure B.noted config f) s w ℓ F fun _ s' _ _ =>
      s'.lineage.propertyInvalid = true := by
  refine .bind (leads_ask (.ite (fun _ => .bind (leads_violate (hF.mild rfl))) fun _ =>
    .bind (leads_state (.bind (leads_lastFrame hallow.lastFrame (.ite (fun hlong => ?_)
      fun hshort => .bind (leads_violate (hallow.short (.refl w) hshort))))))))
  refine .bind (leads_checkedAdd (fun hno => ?_) fun _ => .bind (leads_update
    (.bind (leads_update (.bind ?_)))))
  · rcases hallow.room with hover | hroom
    · exact hover
    · rw [hroom.index] at hno
      cases hno
  · refine (leads_extendInScope hF hq hinvalid hlong (hallow.room.imp_right fun hroom =>
      ⟨hroom.shallow, hroom.frames (.refl w)⟩)).attempt.imp
      fun result s₁ w₁ ℓ₁ h₁ => .bind (leads_step hF (fun _ _ => rfl) fun _ w₂ => ?_)
    rcases h₁ with ⟨_, rfl, hinvalid₁⟩ | ⟨e, rfl, hfault⟩
    · exact leads_pure hinvalid₁
    · exact leads_throw (hF.grow hfault)

theorem leads_failInduction {f : Formula} (hF : Lenient F) (hq : s.agenda.Valid)
    (hallow : Allows B F s w ℓ) :
    Leads (failInduction B.noted config f) s w ℓ F fun _ s' _ _ =>
      s'.lineage.propertyInvalid = true := by
  refine .bind (leads_ask (.ite (fun _ => .bind (leads_violate (hF.mild rfl))) fun _ =>
    .bind (leads_lastFrame hallow.lastFrame (.bind (leads_report fun event =>
      .bind (leads_markInvalid hF (fun hno => ?_) fun invalid flag _ =>
        .bind (leads_change ?_)))))))
  · exact hallow.marked (.refl w) (fun hlt => hno (Nat.le_of_lt hlt)) _ _
  · have hafter : Allows B F s (B.reports.report event w) ℓ := hallow.report
    exact leads_extendFailure hF hq rfl ⟨hafter.room.imp_right fun hroom =>
      ⟨hroom.shallow, hroom.index, hroom.frames⟩, hafter.marked, hafter.short⟩

end Search

end Invariance
