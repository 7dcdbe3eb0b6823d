import Invariance.Proofs.FiniteState.Literals
import Invariance.Proofs.FiniteState.Relocating

/-!
A whole query. The first round disproves the property, proves it or stalls; a search that has
stalled repeats itself round after round until the bound on rounds stops it.
-/

namespace Invariance.FiniteState

open Universe Session TransitionSystem

variable {M : Machine} {sys : TransitionSystem} {w₀ : Session} {P : Formula → Prop} {N : Nat}
  {s : Search} {w : Session} {E : Fault → Prop} {config : Config}

theorem ends_showInvariant (hw : Sound sys w) {Q : Unit → Search × Session → Prop}
    (hQ : ∀ w', Grows w w' → Q () (s, w')) :
    Action.Ends (Search.showInvariant (backend M) config) (s, w) E Q := by
  rw [Search.showInvariant]
  cases config.showInvariant with
  | false => exact hQ w (.refl hw.canonical)
  | true =>
      rw [if_pos rfl, Action.ends_bind, Search.ends_state]
      have hstep : ∀ f ∈ s.frame.toList, ∀ t : Search × Session, t.1 = s ∧ Grows w t.2 →
          Action.Ends (Search.report (backend M) .info "invariant" fun _ text =>
            [("formula", .text (text f))]) t E fun _ t' => t'.1 = s ∧ Grows w t'.2 := by
        rintro f _ ⟨s', w'⟩ ⟨rfl, hgrow⟩
        exact ends_report (hgrow.sound hw) fun w'' hgrow' => ⟨rfl, hgrow.trans hgrow'⟩
      refine (Action.ends_forM hstep ⟨rfl, .refl hw.canonical⟩).imp fun _ t ht => ?_
      obtain ⟨s', w'⟩ := t
      obtain ⟨rfl, hgrow⟩ := ht
      exact hQ w' hgrow

theorem ends_drainFrame {fuel : Nat} {t : Search × Session}
    (hsave : config.saveGraphs = true → ∀ reason, E (.error (.output reason)))
    {Q : Nat → Search × Session → Prop}
    (h : Action.Ends (Search.drain (backend M) config fuel) t E fun rest t' =>
      Sound sys t'.2 ∧ ∀ w', Grows t'.2 w' → Q rest (t'.1, w')) :
    Action.Ends (Search.drainFrame (backend M) config fuel) t E Q := by
  rw [Search.drainFrame, Action.ends_bind]
  refine h.imp fun rest t' ht => ?_
  obtain ⟨s', w'⟩ := t'
  obtain ⟨hw', hrest⟩ := ht
  cases hgraphs : config.saveGraphs with
  | false =>
      rw [if_neg Bool.false_ne_true]
      exact hrest w' (.refl hw'.canonical)
  | true =>
      rw [if_pos rfl, Action.ends_bind, Search.saveGraph, Action.ends_bind, Search.ends_state,
        Action.ends_bind]
      refine ends_saveGraph hw' (hsave hgraphs) fun w₁ hgrow₁ => ?_
      exact ends_report (hgrow₁.sound hw') fun w₂ hgrow₂ => hrest w₂ (hgrow₁.trans hgrow₂)

theorem ends_advance (hE : Excuses M E) (hw : Sound sys w) (hstalled : Stalled sys w.terms s.staged)
    (hundecided : s.lineage.propertyInvalid = false) {Q : Bool → Search × Session → Prop}
    (hstop : ∀ s' w', 0 < config.maxFrames → config.maxFrames ≤ s.stats.rounds → Sound sys w' →
      s'.stats.rounds = s.stats.rounds → Q false (s', w'))
    (hgo : ∀ s' w', (0 < config.maxFrames → s.stats.rounds < config.maxFrames) →
      Repeating sys s.staged.length [] s' w' → s'.staged = [] → s'.stats.rounds = s.stats.rounds →
      Q true (s', w')) :
    Action.Ends (Search.advance (backend M) config) (s, w) E Q := by
  rw [Search.advance, Action.ends_bind]
  refine ends_deepen hE hw fun stats w₁ hrounds hgrow₁ => ?_
  have hw₁ : Sound sys w₁ :=
    hgrow₁.sound (w := { w with induction := { depth := s.index + 1 } }) (hw.congr rfl rfl)
  rw [Action.ends_bind, Search.ends_state]
  cases hbound : Search.atBound config
      { s with agenda := .empty, frame := {}, depth := s.index + 1, stats } with
  | true =>
      simp only [Search.atBound, Bool.and_eq_true, decide_eq_true_eq, hrounds] at hbound
      rw [if_pos rfl, Action.ends_bind]
      exact ends_report hw₁ fun w₂ hgrow₂ =>
        hstop _ w₂ hbound.1 hbound.2 (hgrow₂.sound hw₁) hrounds
  | false =>
      have hopen : 0 < config.maxFrames → s.stats.rounds < config.maxFrames := fun hpos => by
        simp only [Search.atBound, Bool.and_eq_false_iff, decide_eq_false_iff_not,
          hrounds] at hbound
        omega
      have hstalled₁ : Stalled sys w₁.terms s.staged := hstalled.extend hw.canonical hgrow₁.terms
      rw [if_neg Bool.false_ne_true, Action.ends_bind]
      refine ends_rebuild hE hw₁ (by exact hstalled₁) rfl rfl (by rw [hgrow₁.induction])
        (by exact hundecided) fun s₂ w₂ h₂ hnil hrounds₂ => ?_
      rw [Action.ends_bind]
      refine ends_sweep ?_ fun journal => ?_
      · exact hgo s₂ w₂ hopen h₂ hnil (hrounds₂.trans hrounds)
      · rw [Action.ends_bind]
        refine ends_relocate h₂ hnil fun s₃ w₃ h₃ hnil₃ hrounds₃ _ => ?_
        exact hgo s₃ w₃ hopen h₃ hnil₃ (hrounds₃.trans (hrounds₂.trans hrounds))

/-- Enough rounds and pops for a search that has stalled to come from `k` rounds to the bound. -/
def Suffices (config : Config) (N k bound fuel : Nat) : Prop :=
  0 < config.maxFrames ∧ config.maxFrames ≤ k + bound ∧ (config.maxFrames - k) * N < fuel

theorem Suffices.lt_fuel {k bound fuel : Nat} (h : Suffices config N k bound fuel)
    (hk : k < config.maxFrames) : N < fuel :=
  Nat.lt_of_le_of_lt (Nat.le_mul_of_pos_left N (Nat.sub_pos_of_lt hk)) h.2.2

theorem Suffices.next {k bound fuel rest : Nat} (h : Suffices config N k (bound + 1) fuel)
    (hk : k + 1 < config.maxFrames) (hrest : fuel ≤ rest + N) :
    Suffices config N (k + 1) bound rest := by
  obtain ⟨hpos, hbound, hfuel⟩ := h
  refine ⟨hpos, by omega, ?_⟩
  obtain ⟨d, hd⟩ : ∃ d, config.maxFrames - k = d + 1 := ⟨config.maxFrames - k - 1, by omega⟩
  rw [hd, Nat.succ_mul] at hfuel
  rw [show config.maxFrames - (k + 1) = d by omega]
  omega

theorem ends_laterRounds (hE : Excuses M E)
    (hsave : config.saveGraphs = true → ∀ reason, E (.error (.output reason))) :
    ∀ {bound fuel : Nat} {s : Search} {w : Session}, Repeating sys N [] s w → s.staged = [] →
    (0 < config.maxFrames → s.stats.rounds < config.maxFrames) →
    (¬ Suffices config N s.stats.rounds bound fuel → E .outOfFuel) →
    {Q : Outcome → Search × Session → Prop} →
    (∀ s' w', Sound sys w' → 0 < config.maxFrames → s'.stats.rounds = config.maxFrames →
      Q .interrupted (s', w')) →
    Action.Ends (Search.rounds (backend M) config bound fuel) (s, w) E Q
  | 0, _, _, _, _, _, hopen, hfuel, _, _ => hfuel fun hsuffices => by
      have hlt := hopen hsuffices.1
      have hle := hsuffices.2.1
      omega
  | bound + 1, fuel, s, w, h, hnil, hopen, hfuel, Q, hQ => by
      have hlen : s.agenda.waiting.length = N := by
        have hcounted := h.counted
        rwa [Repeating.owed_eq hnil] at hcounted
      rw [Search.rounds, Action.ends_bind]
      refine ends_drainFrame hsave (ends_redrain hE h (fun hle => hfuel fun hsuffices => ?_)
        fun rest s₁ w₁ hrest h₁ hempty hrounds₁ => ⟨h₁.sound, fun w₂ hgrow₂ => ?_⟩)
      · have hlt := hsuffices.lt_fuel (hopen hsuffices.1)
        omega
      · have h₂ := h₁.grow hgrow₂
        have howed : owed [] s₁ = s₁.staged := Opening.owed_eq hempty
        have hstalled := h₂.stalled
        -- the candidates keep the frame larger than the list, so no later round finds an invariant
        have hlarge := h₂.stalled.lt_size h₂.sound.canonical h₂.refuted h₂.forward
        have hcounted := h₂.counted
        rw [howed] at hstalled hlarge hcounted
        rw [Action.ends_bind, Search.ends_change, Action.ends_bind, Search.ends_state,
          if_neg (by rw [h₂.undecided]; exact Bool.false_ne_true),
          if_neg (Nat.ne_of_gt hlarge), Action.ends_bind]
        refine ends_advance hE h₂.sound (by exact hstalled) (by exact h₂.undecided)
          (fun s' w' hpos hle hw' hr => ?_) fun s' w' hgo h' hnil' hr => ?_
        · have hlt := hopen hpos
          have hlast : config.maxFrames ≤ s₁.stats.rounds + 1 := hle
          refine hQ s' w' hw' hpos (hr.trans ?_)
          change s₁.stats.rounds + 1 = config.maxFrames
          omega
        · have hr' : s'.stats.rounds = s.stats.rounds + 1 := hr.trans (congrArg (· + 1) hrounds₁)
          have hgo' : 0 < config.maxFrames → s.stats.rounds + 1 < config.maxFrames := fun hpos =>
            hrounds₁ ▸ hgo hpos
          rw [if_pos rfl]
          refine ends_laterRounds hE hsave (hcounted ▸ h') hnil' (fun hpos => hr' ▸ hgo' hpos)
            (fun hnot => hfuel fun hsuffices => hnot ?_) hQ
          rw [hr']
          exact hsuffices.next (hgo' hsuffices.1) (by omega)

theorem Suffices.mono {N' k bound fuel : Nat} (h : Suffices config N' k bound fuel) (hN : N ≤ N') :
    Suffices config N k bound fuel :=
  ⟨h.1, h.2.1, Nat.lt_of_le_of_lt (Nat.mul_le_mul_left _ hN) h.2.2⟩

def Safe (sys : TransitionSystem) (u : Universe) (P : Formula → Prop) : Prop :=
  ∀ p r x, P p → u.Names p r → sys.Reachable x → r.contains x = true

inductive Answers (sys : TransitionSystem) (w₀ : Session) (p : Formula) (config : Config) :
    Outcome → Search → Session → Prop
  | falsified {s : Search} {w : Session} : Falsified sys w₀ p w → s.stats.rounds = 0 →
      Answers sys w₀ p config .invalid s w
  | disproved {s : Search} {w : Session} :
      Disproved sys w₀ (w₀.terms.Leaf p) config.extend s w → s.stats.rounds = 1 →
      Answers sys w₀ p config .invalid s w
  | proved {s : Search} {w : Session} : Sound sys w → Extends w₀.terms w.terms →
      Certifies sys w.terms (w₀.terms.Leaf p) s.frame.toList → s.stats.rounds = 1 →
      Answers sys w₀ p config .valid s w
  | interrupted {s : Search} {w : Session} : Sound sys w → w₀.forward = .reachable →
      Safe sys w₀.terms (w₀.terms.Leaf p) → 0 < config.maxFrames →
      s.stats.rounds = config.maxFrames → Answers sys w₀ p config .interrupted s w

theorem Certifies.extend {u u' : Universe} {fs : List Formula} (h : Certifies sys u P fs)
    (hP : ∀ p, P p → ∃ r, u.Names p r) (hext : Extends u u') : Certifies sys u' P fs where
  named := h.named.extend hext
  initial x hx := (h.named.within_iff hext).mpr (h.initial x hx)
  closed x y hx hedge := (h.named.within_iff hext).mpr
    (h.closed x y ((h.named.within_iff hext).mp hx) hedge)
  below p r x hp hr hlt hx := by
    obtain ⟨t, ht⟩ := hP p hp
    obtain rfl := hr.eq (hext.names ht)
    exact h.below p r x hp ht hlt ((h.named.within_iff hext).mp hx)

namespace Answers

variable {p : Formula} {outcome : Outcome}

theorem sound (h : Answers sys w₀ p config outcome s w) : Sound sys w := by
  cases h with
  | falsified h _ => exact h.sound
  | disproved h _ => exact h.sound
  | proved h _ _ _ => exact h
  | interrupted h _ _ _ _ => exact h

theorem settle (h : Answers sys w₀ p config outcome s w) {b : Nat} (hp : w₀.terms.Proper b p)
    {w' : Session} (hgrow : Grows w w') (staged : List Obligation) (final : Option Outcome) :
    Answers sys w₀ p config outcome { s with staged, outcome := final } w' := by
  cases h with
  | falsified h hrounds =>
      obtain ⟨q, r, x, hq, hr, hx, hout, htrace⟩ := h.fails
      exact .falsified ⟨hgrow.sound h.sound, h.base.trans hgrow.terms, q, r, x, hq, hr, hx, hout,
        hgrow.trace ▸ htrace⟩ hrounds
  | disproved h hrounds => exact .disproved { h.grow hgrow with } hrounds
  | proved hw hext h hrounds =>
      refine .proved (hgrow.sound hw) (hext.trans hgrow.terms)
        (h.extend (fun q hq => ?_) hgrow.terms) hrounds
      obtain ⟨r, hr⟩ := hp.leaf_names hq
      exact ⟨r, hext.names hr⟩
  | interrupted hw hmode hsafe hpos hrounds =>
      exact .interrupted (hgrow.sound hw) hmode hsafe hpos hrounds

end Answers

/-- So many pops empty the agenda of the first round, and that of a later round. -/
def capacity (sys : TransitionSystem) (w₀ : Session) : Nat := 2 * sys.size + w₀.terms.length

theorem ends_rounds (hE : w₀.forward = .reachable → Excuses M E)
    (hsave : config.saveGraphs = true → ∀ reason, E (.error (.output reason)))
    (hM : M.Fits (sys.size + 2)) {p : Formula} {n : Nat}
    (h : Opening sys w₀ (w₀.terms.Leaf p) [] n s w) (hzero : s.stats.rounds = 0)
    {bound fuel : Nat} (hburden : burden n s ≤ capacity sys w₀)
    (hfuel : ¬ (0 < bound ∧ capacity sys w₀ < fuel ∧
      (w₀.forward = .reachable → Suffices config (capacity sys w₀) 0 bound fuel)) → E .outOfFuel)
    {Q : Outcome → Search × Session → Prop}
    (hQ : ∀ outcome s' w', Answers sys w₀ p config outcome s' w' → Q outcome (s', w')) :
    Action.Ends (Search.rounds (backend M) config bound fuel) (s, w) E Q := by
  cases bound with
  | zero => exact hfuel fun henough => absurd henough.1 (Nat.lt_irrefl 0)
  | succ bound =>
      rw [Search.rounds, Action.ends_bind]
      refine ends_drainFrame hsave (ends_drain hM h (fun hle => hfuel fun henough => ?_)
        (fun rest m s₁ w₁ hrest h₁ hempty hrounds₁ => ⟨h₁.sound, fun w₂ hgrow₂ => ?_⟩)
        fun rest s₁ w₁ hrest h₁ hrounds₁ => ⟨h₁.sound, fun w₂ hgrow₂ => ?_⟩)
      · have hlt := henough.2.1
        omega
      · have h₂ := h₁.grow hgrow₂
        have hone : s₁.stats.rounds + 1 = 1 := by rw [hrounds₁, hzero]
        rw [Action.ends_bind, Search.ends_change, Action.ends_bind, Search.ends_state,
          if_neg (by rw [h₂.undecided]; exact Bool.false_ne_true)]
        by_cases hsize : s₁.frame.size = s₁.staged.length
        -- the frame holds the refutations alone, or some candidate keeps the search from an answer
        · rw [if_pos hsize, Action.ends_bind]
          refine ends_showInvariant h₂.sound fun w₃ hgrow₃ => ?_
          have h₃ := h₂.grow hgrow₃
          exact hQ _ _ w₃ (.proved h₃.sound h₃.base (h₃.certifies hempty hsize) hone)
        · obtain ⟨hmode, hstalled⟩ := h₂.stalled hempty hsize
          have hreachable : w₀.forward = .reachable := h₂.mode.symm.trans hmode
          have hsafe : Safe sys w₀.terms (w₀.terms.Leaf p) := fun q r x hq hr hx =>
            h₂.property_of_clear hempty hx.lt (h₂.clear_of_reachable hempty hx) hq
              (h₂.base.names hr)
          have hcounted := h₂.counted
          rw [Opening.owed_eq hempty] at hcounted
          have hmany : s₁.staged.length ≤ capacity sys w₀ := by
            rw [capacity]
            omega
          rw [if_neg hsize, Action.ends_bind]
          refine ends_advance (hE hreachable) h₂.sound (by exact hstalled) (by exact h₂.undecided)
            (fun s' w' hpos hle hw' hr => ?_) fun s' w' hgo h' hnil' hr => ?_
          · have hlast : config.maxFrames ≤ s₁.stats.rounds + 1 := hle
            refine hQ _ s' w' (.interrupted hw' hreachable hsafe hpos (hr.trans ?_))
            change s₁.stats.rounds + 1 = config.maxFrames
            omega
          · have hr' : s'.stats.rounds = 1 := hr.trans hone
            have hgo' : 0 < config.maxFrames → 1 < config.maxFrames := fun hpos => hone ▸ hgo hpos
            rw [if_pos rfl]
            refine ends_laterRounds (hE hreachable) hsave (by exact h') hnil'
              (fun hpos => hr' ▸ hgo' hpos)
              (fun hnot => hfuel fun henough => hnot ?_) fun s'' w'' hw'' hpos hr'' =>
              hQ _ s'' w'' (.interrupted hw'' hreachable hsafe hpos hr'')
            rw [hr']
            have hfirst := henough.2.2 hreachable
            exact (hfirst.next (hgo' hfirst.1) (by omega)).mono hmany
      · rw [Action.ends_bind, Search.ends_change, Action.ends_bind, Search.ends_state,
          if_pos h₁.flagged, Action.ends_pure]
        refine hQ _ _ w₂ (.disproved { h₁.grow hgrow₂ with } ?_)
        change s₁.stats.rounds + 1 = 1
        rw [hrounds₁, hzero]

end Invariance.FiniteState
