import Invariance.Proofs.Transcripts.Depths
import Invariance.Proofs.Transcripts.Queries
import Invariance.Proofs.Transcripts.Windows

/-!
How far a query gets. Here the moves of a round are put together with where its window lies, and
from this comes what the frame bound promises and which of its own assertions a query keeps.
-/

namespace Invariance

open Action

variable {S σ μ α : Type} {B : Backend S σ μ} {config : Config} {bound : Option Nat} {r : Nat}
  {s : Search} {w : σ} {ℓ : List (Note μ)} {t : Search × σ × List (Note μ)}

theorem Course.Keeps.yields {τ : Type} {act : Action τ α} {c : Course act} {I : τ → Prop} {x : τ}
    {Q : α → τ → Prop} (h : c.Keeps I x Q) :
    act.Yields x (fun _ y => I y) fun a y => I y ∧ Q a y := by
  obtain ⟨hI, hends⟩ := h
  have hfinal := hI _ (c.final_mem x)
  rw [Action.Ends] at hends
  rw [Action.final] at hfinal
  rw [Yields]
  cases hrun : act x with
  | ok a y =>
      rw [hrun] at hends hfinal
      exact ⟨hfinal, hends⟩
  | error fault y => rwa [hrun] at hfinal

/-- A bound on the induction depth is the one that comes of the bound on the rounds. -/
structure Bounded (B : Backend S σ μ) (config : Config) (bound : Option Nat) : Prop where
  frames : ∀ D ∈ bound, 0 < config.maxFrames
  index : ∀ D ∈ bound, B.machine.counts (2 ^ (config.maxFrames - 1)) = true
  depth : ∀ D ∈ bound, 2 ^ (config.maxFrames - 2) ≤ D

theorem bounded_none : Bounded B config none := ⟨nofun, nofun, nofun⟩

theorem InRound.succ_index (h : InRound r t) : t.1.index + 1 = 2 ^ r := by
  rw [h.index]
  exact tile_snd r

theorem InRound.depth_le (h : InRound r t) : t.1.depth ≤ 2 ^ (r - 1) := by
  have hdepth := h.depth
  cases r with
  | zero =>
      have hone : 0 + t.1.depth = 0 + 1 := hdepth
      exact Nat.le_of_eq (by omega)
  | succ r =>
      have hlast := tile_snd r
      have hsum : (tile r).2 + 1 + t.1.depth = 2 * (tile r).2 + 1 + 1 := hdepth
      exact Nat.le_of_eq (show t.1.depth = 2 ^ r by omega)

theorem Bounded.fits (hb : Bounded B config bound) (hround : InRound r (s, w, ℓ))
    (hr : 0 < config.maxFrames → r < config.maxFrames) {obs : List Obligation}
    (h : Fits B none s ℓ obs) : Fits B bound s ℓ obs where
  start := h.start
  limit D hD := by
    have hlt := hr (hb.frames D hD)
    have hindex : s.index + 1 = 2 ^ r := hround.succ_index
    have hdepth : s.depth ≤ 2 ^ (r - 1) := hround.depth_le
    constructor
    · calc s.depth ≤ 2 ^ (r - 1) := hdepth
        _ ≤ 2 ^ (config.maxFrames - 2) := Nat.pow_le_pow_right (by decide) (by omega)
        _ ≤ D := hb.depth D hD
    · rw [hindex]
      refine Machine.counts_mono (Nat.pow_le_pow_right (by decide) ?_) (hb.index D hD)
      omega
  shallow := h.shallow
  size := h.size
  depths := h.depths

/-- What a search that stops with a fault has done: with the last round behind it, it can only have
been stopped by someone else. -/
structure Stopped (B : Backend S σ μ) (config : Config) (bound : Option Nat) (e : Fault)
    (t : Search × σ × List (Note μ)) : Prop where
  spare : Spare B bound e t.2.2
  rounds : 0 < config.maxFrames → t.1.stats.rounds ≤ config.maxFrames
  last : ∀ D ∈ bound, t.1.stats.rounds = config.maxFrames → Noted e t.2.2

theorem Bounded.stopped (hb : Bounded B config bound) {e : Fault} (hspare : Spare B bound e t.2.2)
    (hrounds : 0 < config.maxFrames → t.1.stats.rounds < config.maxFrames) :
    Stopped B config bound e t :=
  ⟨hspare, fun hm => Nat.le_of_lt (hrounds hm), fun D hD hlast =>
    absurd hlast (Nat.ne_of_lt (hrounds (hb.frames D hD)))⟩

namespace Search

theorem atBound_iff : atBound config s = true ↔
    0 < config.maxFrames ∧ config.maxFrames ≤ s.stats.rounds := by
  rw [atBound, Bool.and_eq_true, decide_eq_true_eq, decide_eq_true_eq]

theorem yields_deepen (hround : InRound r (s, w, ℓ)) (hclear : Clear (s, w, ℓ))
    (hrounds : 0 < config.maxFrames → s.stats.rounds ≤ config.maxFrames)
    (h : Fits B bound s ℓ s.staged) :
    (deepen B.noted).Yields (s, w, ℓ) (Stopped B config bound) fun _ t =>
      t.1.agenda = .empty ∧ Fits B none t.1 t.2.2 t.1.staged ∧ Between r t ∧
        t.1.stats.rounds = s.stats.rounds := by
  have hdeepen : Leads (deepen B.noted) s w ℓ
      (fun e ℓ' => Spare B bound e ℓ' ∧ ∀ D ∈ bound, Noted e ℓ') fun _ s' _ ℓ' =>
        s'.agenda = .empty ∧ Fits B none s' ℓ' s'.staged := by
    refine leads_deepen (fun hn => ?_) (fun hover => ?_) fun stats w₁ _ => ⟨rfl, ?_⟩
    · exact ⟨lenient_spare.noted hn, fun _ _ => ⟨_, List.mem_cons_self, hn⟩⟩
    · have hnone : ∀ D ∈ bound, False := fun D hD => by
        rw [(h.limit D hD).2] at hover
        cases hover
      exact ⟨spare_overflow fun _ ⟨D, hD, _⟩ => (hnone D hD).elim, fun D hD => (hnone D hD).elim⟩
    · exact h.deepen rfl rfl rfl (List.suffix_cons ..) fun ob hob => hob
  refine (hdeepen.and (keeps_deepen hround hclear).yields).mono (fun e t ht => ?_) fun _ t ht => ?_
  · obtain ⟨⟨hspare, hnoted⟩, hended⟩ := ht
    exact ⟨hspare, fun hm => hended.rounds ▸ hrounds hm, fun D hD _ => hnoted D hD⟩
  · obtain ⟨⟨hagenda, hfits⟩, _, hbetween, hended⟩ := ht
    exact ⟨hagenda, hfits, hbetween, hended⟩

theorem yields_rebuild (hb : Bounded B config bound) (hbetween : Between r (s, w, ℓ))
    (hrounds : s.stats.rounds = r + 1) (hlt : 0 < config.maxFrames → r + 1 < config.maxFrames)
    (hagenda : s.agenda = .empty) (h : Fits B none s ℓ s.staged) :
    (rebuild B.noted).Yields (s, w, ℓ) (Stopped B config bound) fun _ t =>
      InRound (r + 1) t ∧ Ended (r + 1) t ∧ Measured B none [] t.1 t.2.2 := by
  have hindex : s.index + s.depth ≤ 2 ^ (r + 1) := by
    have hlast := tile_snd r
    have hi : s.index = (tile r).2 := hbetween.index
    have hd : s.depth = (tile r).2 + 1 := hbetween.depth
    rw [Nat.pow_succ]
    omega
  have hcounts : ∀ D ∈ bound, B.machine.counts (s.index + s.depth) = true := fun D hD => by
    have hm := hlt (hb.frames D hD)
    have hle : 2 ^ (r + 1) ≤ 2 ^ (config.maxFrames - 1) :=
      Nat.pow_le_pow_right (by decide) (by omega)
    exact Machine.counts_mono (Nat.le_trans hindex hle) (hb.index D hD)
  have hvalid : s.agenda.Valid := hagenda ▸ Agenda.empty_valid
  have hwaiting : s.agenda.waiting = [] := by
    rw [hagenda]
    rfl
  refine ((fits_rebuild bound hvalid hwaiting hcounts h).and
    (keeps_rebuild hbetween hrounds).yields).mono (fun e t ht => ?_) fun _ t ht => ?_
  · exact hb.stopped ht.1 fun hm => ht.2.rounds ▸ hlt hm
  · exact ⟨ht.2.2.1, ht.2.2.2, ht.1⟩

theorem yields_sweep (hb : Bounded B config bound) (hround : InRound r (s, w, ℓ))
    (hended : Ended r (s, w, ℓ)) (hlt : 0 < config.maxFrames → r < config.maxFrames)
    (h : Measured B none [] s ℓ) :
    Action.Yields (Search.act B.noted.oracle.sweep >>= fun
      | none => pure true
      | some r => relocate B.noted r >>= fun _ => pure true) (s, w, ℓ)
      (Stopped B config bound) fun more t =>
        more = true ∧ InRound r t ∧ Ended r t ∧ Measured B none [] t.1 t.2.2 := by
  have hkeeps := calm_sweep (B := B).keeps (I := Ended r) (s := (s, w, ℓ)) fun t' h' =>
    ⟨(h'.steady.round hround hended.clear).2, h'.rounds.trans hended.rounds⟩
  refine ((fits_sweep bound h).and hkeeps.yields).mono (fun e t ht => ?_) fun more t ht => ?_
  · exact hb.stopped ht.1 fun hm => ht.2.rounds ▸ hlt hm
  · obtain ⟨⟨hmore, hfits⟩, hended', hstill⟩ := ht
    exact ⟨hmore, (hstill.steady.round hround hended.clear).1, hended', hfits⟩

/-- An advance either comes to the bound or makes ready for another round. -/
theorem yields_advance (hb : Bounded B config bound) (hround : InRound r (s, w, ℓ))
    (hended : Ended (r + 1) (s, w, ℓ)) (hr : 0 < config.maxFrames → r < config.maxFrames)
    (h : Fits B bound s ℓ s.staged) :
    (advance B.noted config).Yields (s, w, ℓ) (Stopped B config bound) fun more t =>
      t.1.stats.rounds = r + 1 ∧ (more = false → r + 1 = config.maxFrames) ∧
        (more = true → InRound (r + 1) t ∧ Clear t ∧
          (0 < config.maxFrames → r + 1 < config.maxFrames) ∧ Measured B none [] t.1 t.2.2) := by
  have hrounds : s.stats.rounds = r + 1 := hended.rounds
  refine .bind ((yields_deepen hround hended.clear (fun hm => hrounds ▸ hr hm) h).imp
    fun _ (s₁, w₁, ℓ₁) h₁ => ?_)
  obtain ⟨hagenda, hfits, hbetween, hsame⟩ := h₁
  have hrounds₁ : s₁.stats.rounds = r + 1 := hsame.trans hrounds
  refine .bind (Yields.ite (s := (s₁, w₁, ℓ₁)) (fun hbound => .bind ?_) fun hgo => .bind ?_)
  · obtain ⟨hm, hle⟩ := atBound_iff.mp hbound
    rw [hrounds₁] at hle
    exact ⟨hrounds₁, fun _ => Nat.le_antisymm (hr hm) hle, nofun⟩
  have hlt : 0 < config.maxFrames → r + 1 < config.maxFrames := fun hm =>
    Nat.lt_of_not_le fun hle => hgo (atBound_iff.mpr ⟨hm, hrounds₁ ▸ hle⟩)
  refine (yields_rebuild hb hbetween hrounds₁ hlt hagenda hfits).imp fun _ (s₂, w₂, ℓ₂) h₂ => ?_
  obtain ⟨hround₂, hended₂, hmeasured₂⟩ := h₂
  refine (yields_sweep hb hround₂ hended₂ hlt hmeasured₂).imp fun more t h₃ => ?_
  obtain ⟨rfl, hround₃, hended₃, hmeasured₃⟩ := h₃
  exact ⟨hended₃.rounds, nofun, fun _ => ⟨hround₃, hended₃.clear, hlt, hmeasured₃⟩⟩

def Answered (config : Config) (o : Outcome) (s : Search) : Prop :=
  (0 < config.maxFrames → s.stats.rounds ≤ config.maxFrames) ∧
    (o = .interrupted → s.stats.rounds = config.maxFrames)

theorem yields_rounds (hb : Bounded B config bound) :
    ∀ {n fuel r : Nat} {s : Search} {w : σ} {ℓ : List (Note μ)}, InRound r (s, w, ℓ) →
    Ended r (s, w, ℓ) → (0 < config.maxFrames → r < config.maxFrames) → Measured B none [] s ℓ →
    (rounds B.noted config n fuel).Yields (s, w, ℓ) (Stopped B config bound) fun o t =>
      Answered config o t.1
  | 0, _, _, _, _, _, _, hended, hr, _ =>
      hb.stopped (lenient_spare.mild rfl) fun hm => hended.rounds ▸ hr hm
  | n + 1, fuel, r, s, w, ℓ, hround, hended, hr, h => by
      have hdrain : Leads (drainFrame B.noted config fuel) s w ℓ (Spare B bound)
          fun _ s' _ => Drained (Measured B bound) s' :=
        fits_drainFrame ⟨h.1, hb.fits hround hr h.2⟩
      refine .bind ((hdrain.and ((steady_drainFrame fuel).keeps fun _ h' => h').yields).mono
        (fun e t ht => hb.stopped ht.1 fun hm => ?_) fun left (s₁, w₁, ℓ₁) h₁ => ?_)
      · rw [ht.2.rounds, hended.rounds]
        exact hr hm
      obtain ⟨hdrained, _, hsteady⟩ := h₁
      obtain ⟨hround₁, hclear₁⟩ := hsteady.round hround hended.clear
      have hrounds₁ : s₁.stats.rounds + 1 = r + 1 := by rw [hsteady.rounds, hended.rounds]
      have hanswered : ∀ o, o ≠ .interrupted → Answered config o
          { s₁ with stats.rounds := s₁.stats.rounds + 1 } := fun o ho =>
        ⟨fun hm => Nat.le_trans (Nat.le_of_eq hrounds₁) (hr hm), fun heq => absurd heq ho⟩
      refine .bind (Yields.bind (Yields.ite (s := (_, w₁, ℓ₁)) (fun _ => hanswered _ nofun)
        fun hgo => .ite (fun _ => .bind ?_) fun _ => .bind ?_))
      · have hshow : Leads (showInvariant B.noted config)
            { s₁ with stats.rounds := s₁.stats.rounds + 1 } w₁ ℓ₁ (fun _ _ => False)
            fun _ s' _ ℓ' => s' = { s₁ with stats.rounds := s₁.stats.rounds + 1 } ∧ ℓ' = ℓ₁ :=
          leads_showInvariant
        refine hshow.mono (fun _ _ hfalse => hfalse.elim) fun _ (s₂, w₂, ℓ₂) h₂ => ?_
        obtain ⟨rfl, -⟩ := h₂
        exact hanswered _ nofun
      obtain ⟨_, _, hfits₁⟩ := hdrained.resolve_left hgo
      have hround₂ : InRound r ({ s₁ with stats.rounds := s₁.stats.rounds + 1 }, w₁, ℓ₁) :=
        hround₁.congr rfl rfl
      have hfits₂ : Fits B bound { s₁ with stats.rounds := s₁.stats.rounds + 1 } ℓ₁ s₁.staged :=
        hfits₁.step rfl rfl rfl List.suffix_rfl fun ob hob =>
          ⟨ob, List.mem_append_right _ (List.mem_append_right _ hob), rfl⟩
      refine (yields_advance hb hround₂ ⟨hclear₁.congr rfl, hrounds₁⟩ hr hfits₂).imp
        fun more (s₂, w₂, ℓ₂) h₂ => ?_
      obtain ⟨hrounds₂, hlast, hnext⟩ := h₂
      refine .ite (fun hmore => ?_) fun hmore => ?_
      · obtain ⟨hround₃, hclear₃, hr₃, h₃⟩ := hnext hmore
        exact yields_rounds hb hround₃ ⟨hclear₃, hrounds₂⟩ hr₃ h₃
      · have heq := hrounds₂.trans (hlast (Bool.not_eq_true _ ▸ hmore))
        exact ⟨fun _ => Nat.le_of_eq heq, fun _ => heq⟩

theorem yields_loop (hb : Bounded B config bound) {fuel : Nat} (hround : InRound 0 (s, w, ℓ))
    (hended : Ended 0 (s, w, ℓ)) (h : Measured B none [] s ℓ) :
    (loop B.noted config fuel).Yields (s, w, ℓ) (Stopped B config bound) fun o t =>
      Answered config o t.1 := by
  refine .bind (yields_report fun event => .bind ?_)
  have hrun : (rounds B.noted config fuel fuel).Yields (s, B.reports.report event w, ℓ)
      (Stopped B config bound) fun o t => Answered config o t.1 :=
    yields_rounds hb (hround.congr rfl rfl) ⟨hended.clear.congr rfl, hended.rounds⟩ (fun hm => hm) h
  refine hrun.attempt.imp fun result (s₁, w₁, ℓ₁) h₁ => .bind (.bind ?_)
  rcases h₁ with ⟨o, rfl, hanswered⟩ | ⟨e, rfl, hstopped⟩
  · have hlast : Answered config o { s₁ with staged := [], outcome := some o } := hanswered
    exact yields_pure (.bind (yields_report fun _ => hlast))
  · have hlast : Stopped B config bound (.error e) ({ s₁ with staged := [] }, w₁, ℓ₁) :=
      ⟨hstopped.spare, hstopped.rounds, hstopped.last⟩
    exact yields_throw hlast

theorem yields_enter {fuel : Nat} {property : Formula} (hl : Early ℓ) :
    (enter B.noted fuel property).Yields (.blank, w, ℓ)
      (fun e t => Spare B bound e t.2.2 ∧ t.1.stats.rounds = 0) fun answer t => Ended 0 t ∧
        (answer = true → InRound 0 t ∧ Measured B none [] t.1 t.2.2) := by
  have hF : Lenient (Spare B bound) := lenient_spare
  have hleads : Leads (enter B.noted fuel property) .blank w ℓ (Spare B bound)
      fun answer s' _ ℓ' => answer = true → Measured B none [] s' ℓ' := by
    refine .bind (leads_act hF (fun _ _ => rfl) fun _ w₁ => .bind (leads_act hF (fun _ _ => rfl)
      fun _ w₂ => .bind (leads_change (.bind (leads_clearFrame hF.noted fun w₃ => ?_)))))
    exact fits_addProperty ⟨Agenda.empty_valid, Nat.le_refl 1, nofun, nofun, Nat.zero_le _, nofun⟩
  exact (hleads.and (keeps_enter hl).yields).mono (fun e t ht => ⟨ht.1, ht.2.rounds⟩)
    fun answer t ht => ⟨ht.2.1, fun hanswer => ⟨ht.2.2 hanswer, ht.1 hanswer⟩⟩

theorem yields_run (hb : Bounded B config bound) {fuel : Nat}
    {property : Formula} (hl : Early ℓ) :
    (run B.noted config fuel property).Yields (.blank, w, ℓ) (Stopped B config bound) fun o t =>
      Answered config o t.1 := by
  rw [run_eq]
  refine .bind ((yields_enter hl).mono (fun e t ht => hb.stopped ht.1 fun hm => ?_)
    fun answer (s₁, w₁, ℓ₁) h₁ => .ite (fun hanswer => ?_) fun _ => ?_)
  · rw [ht.2]
    exact hm
  · obtain ⟨hended, hready⟩ := h₁
    exact yields_loop hb (hready hanswer).1 hended (hready hanswer).2
  · have hrounds : s₁.stats.rounds = 0 := h₁.1.rounds
    have hlast : Answered config .invalid { s₁ with outcome := some .invalid } :=
      ⟨fun _ => hrounds ▸ Nat.zero_le _, nofun⟩
    refine .bind (yields_report fun _ => ?_)
    exact hlast

end Search

namespace Engine

variable {fuel : Nat} {system : S} {property : Formula} {e e' : Engine σ}

theorem yields_bounded (hb : Bounded B config bound) :
    (query B.noted config fuel system property).Yields e.noted
      (fun fault t => Spare B bound fault t.world.2 ∧
        (0 < config.maxFrames → t.stats.rounds ≤ config.maxFrames) ∧
        ∀ D ∈ bound, t.stats.rounds = config.maxFrames → Noted fault t.world.2)
      fun o t => (0 < config.maxFrames → t.stats.rounds ≤ config.maxFrames) ∧
        (o = .interrupted → t.stats.rounds = config.maxFrames) := by
  refine yields_query (fun fault w => ?_) fun w => (Search.yields_run hb early_loaded).mono
    (fun fault t ht => ⟨ht.spare, ht.rounds, ht.last⟩) fun o t ht => ht
  have hnoted : Noted fault [.other (μ := μ) (some fault)] := ⟨_, List.mem_cons_self, rfl⟩
  exact ⟨spare_noted hnoted, fun _ => Nat.zero_le _, fun _ _ _ => hnoted⟩

/-- An answer is a verdict, or the bound on the rounds came first. -/
theorem query_answers {o : Outcome}
    (h : query B config fuel system property e = .ok o e') :
    o = .valid ∨ o = .invalid ∨ o = .interrupted ∧ e'.stats.rounds = config.maxFrames := by
  cases o with
  | valid => exact Or.inl rfl
  | invalid => exact Or.inr (Or.inl rfl)
  | interrupted =>
      have hanswered := (yields_bounded bounded_none).of_ok (query_noted_of_ok h)
      exact Or.inr (Or.inr ⟨rfl, hanswered.2 rfl⟩)
  | unknown => exact absurd rfl (query_decided h)

theorem query_bounded (hm : 0 < config.maxFrames) :
    ((query B config fuel system property).final e).stats.rounds ≤ config.maxFrames ∧
      (∀ e', query B config fuel system property e = .ok .interrupted e' →
        e'.stats.rounds = config.maxFrames) ∧
      (B.Discreet → B.machine.counts (2 ^ (config.maxFrames - 1)) = true →
        B.machine.counts (longest (transcript B config fuel system property e) +
          (learnt (transcript B config fuel system property e) + 2) *
            2 ^ (config.maxFrames - 2)) = true →
        (∀ n ∈ transcript B config fuel system property e, n.fault? = none) →
        ∀ fault e', query B config fuel system property e = .error fault e' →
          fault ≠ .violation .overflow ∧ e'.stats.rounds < config.maxFrames) := by
  refine ⟨?_, fun e' h => ((yields_bounded bounded_none).of_ok (query_noted_of_ok h)).2 rfl,
    fun hdiscreet hindex hroom hquiet fault e' h => ?_⟩
  · rw [Action.final]
    cases h : query B config fuel system property e with
    | ok o e' => exact ((yields_bounded bounded_none).of_ok (query_noted_of_ok h)).1 hm
    | error fault e' =>
        exact ((yields_bounded bounded_none).of_error (query_noted_of_error h)).2.1 hm
  · have hunnoted : ¬ Noted fault (transcript B config fuel system property e) := by
      rintro ⟨n, hn, hfault⟩
      rw [hquiet n hn] at hfault
      cases hfault
    have hb : Bounded B config (some (2 ^ (config.maxFrames - 2))) :=
      ⟨fun _ _ => hm, fun _ _ => hindex, fun _ hD => Nat.le_of_eq (Option.mem_some.mp hD)⟩
    obtain ⟨hspare, hle, hlast⟩ := (yields_bounded hb).of_error (query_noted_of_error h)
    refine ⟨fun heq => hunnoted (hspare.overflow heq hdiscreet ⟨_, rfl, hroom⟩), ?_⟩
    exact Nat.lt_of_le_of_ne (hle hm) fun heq => hunnoted (hlast _ rfl heq)

open Scripted

/-- Learnt forward is a formula that no obligation answers for, in no round. -/
def doubling : Engine Player where
  world :=
    { sentences.terms := #[.atom "P", .atom "g", .atom "L"]
      script.inductions := [(⟨0⟩, [.sat (some ⟨1⟩) (some [⟨1⟩])])]
      script.learn := [(⟨1⟩, ⟨2⟩)] }

theorem doubling_bounded :
    ∃ e', query Player.backend { maxFrames := 3 } 30 () ⟨0⟩ doubling = .ok .interrupted e' ∧
      e'.stats.rounds = 3 ∧
      ∀ fault e'', query Player.backend { maxFrames := 3 } 30 () ⟨0⟩ doubling = .error fault e'' →
        fault ≠ .violation .overflow ∧ e''.stats.rounds < 3 := by
  obtain ⟨e', h⟩ := eq_ok_of_answer? (a := .interrupted)
    (r := query Player.backend { maxFrames := 3 } 30 () ⟨0⟩ doubling) (by decide +kernel)
  have hrounds : e'.stats.rounds = 3 := (query_bounded (by decide)).2.1 e' h
  exact ⟨e', h, hrounds, (query_bounded (by decide)).2.2 (fun _ _ => rfl) (by decide)
    (by decide +kernel) (by decide +kernel)⟩

/-- Round 65 ends at the last number there is. -/
theorem doubling_overflows :
    ∃ e', query Player.backend { maxFrames := 65 } 300 () ⟨0⟩ doubling =
        .error (.violation .overflow) e' ∧ e'.stats.rounds = 65 ∧
      ∀ n ∈ transcript Player.backend { maxFrames := 65 } 300 () ⟨0⟩ doubling,
        n.fault? = none := by
  have hfault : fault? (query Player.backend { maxFrames := 65 } 300 () ⟨0⟩ doubling) =
      some (.violation .overflow) := by decide +kernel
  obtain ⟨e', h⟩ := eq_error_of_fault? hfault
  have hrounds : ((query Player.backend { maxFrames := 65 } 300 () ⟨0⟩).final
      doubling).stats.rounds = 65 := by decide +kernel
  rw [Action.final, h] at hrounds
  exact ⟨e', h, hrounds, by decide +kernel⟩

theorem tiled_transcript : Tiled (transcript B config fuel system property e) := by
  have htiled : (query B.noted config fuel system property).Yields e.noted
      (fun _ t => Tiled t.world.2) fun _ t => Tiled t.world.2 := by
    refine yields_query (fun _ _ => early_loaded.tiled) fun w => ?_
    rw [Search.run_eq]
    exact (Search.keeps_run early_loaded).yields.mono (fun _ _ h => h.tiled) fun _ _ h => h.1.tiled
  rw [transcript, Action.final]
  cases h : query B.noted config fuel system property e.noted with
  | ok o t => exact htiled.of_ok h
  | error fault t => exact htiled.of_error h

/-- Unless a counter-trace ends elsewhere than it was looked for, the search does not speak of a
frame before the active one. -/
theorem query_windows : Tiled (transcript B config fuel system property e) ∧
    (∀ t ∈ passed B.noted config fuel system property e.noted, Tiled t.2.2 ∧
      ∀ n ∈ sinceReset t.2.2, ∀ W ∈ n.window?, W.2 = t.1.index ∧ ∃ r, resets t.2.2 = r + 1 ∧
        W = tile r ∧ ∀ k, k ≤ t.1.index ↔ ∃! q, q ≤ r ∧ InTile k q) ∧
    (B.Discreet → Inside (transcript B config fuel system property e) →
      ∀ v : Violation, (Fault.violation v).early = true →
        (∀ n ∈ transcript B config fuel system property e, n.fault? ≠ some (.violation v)) →
        ∀ e', query B config fuel system property e ≠ .error (.violation v) e') := by
  refine ⟨tiled_transcript, fun t ht => ?_, fun hdiscreet hinside v hearly hnot e' h => ?_⟩
  · obtain ⟨htiled, hcurrent⟩ := clear_passed ht
    refine ⟨htiled, fun n hn W hW => ?_⟩
    have hlast : W.2 = t.1.index := hcurrent n hn W hW
    obtain ⟨ℓ', hs, hresets⟩ := exists_older hn
    obtain ⟨r, d, hr, rfl, _⟩ := htiled n ℓ' hs W hW
    refine ⟨hlast, r, hresets.symm.trans hr, rfl, fun k => ?_⟩
    rw [← hlast]
    exact existsUnique_inTile
  · have hspare := ((yields_bounded bounded_none).of_error (query_noted_of_error h)).1
    obtain ⟨n, hn, hfault⟩ := hspare.early hearly hdiscreet hinside
    exact hnot n hn hfault

/-- The counter-state of the second round is reachable. -/
def overtaken : Engine Player where
  world :=
    { sentences.terms := #[.atom "P", .atom "g", .atom "h", .atom "L"]
      script.inductions := [(⟨0⟩, [.sat (some ⟨1⟩) (some [⟨1⟩]), .unsat, .unsat,
        .sat (some ⟨2⟩) (some [⟨2⟩])])]
      script.learn := [(⟨1⟩, ⟨3⟩)]
      script.reachable := [(⟨2⟩, [⟨1⟩, ⟨2⟩])] }

theorem overtaken_windows : (transcript Player.backend {} 40 () ⟨0⟩ overtaken).filterMap
      Note.window? = [tile 1, tile 0] ∧
    Tiled (transcript Player.backend {} 40 () ⟨0⟩ overtaken) ∧
    ∀ e', query Player.backend {} 40 () ⟨0⟩ overtaken ≠
      .error (.violation .traceBeforeFrame) e' := by
  have hquiet : ∀ n ∈ transcript Player.backend {} 40 () ⟨0⟩ overtaken, n.fault? = none := by
    decide +kernel
  have hinside : Inside (transcript Player.backend {} 40 () ⟨0⟩ overtaken) := by
    unfold Inside
    decide +kernel
  refine ⟨by decide +kernel, query_windows.1,
    query_windows.2.2 (fun _ _ => rfl) hinside _ rfl fun n hn hfault => ?_⟩
  rw [hquiet n hn] at hfault
  cases hfault

end Engine

end Invariance
