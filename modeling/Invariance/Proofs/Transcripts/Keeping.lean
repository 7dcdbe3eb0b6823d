import Invariance.Proofs.Transcripts.Books
import Invariance.Proofs.Transcripts.Pushing

/-!
How a round keeps the books. What is shown of a state holds as long as the backend was fair up to
then: whether it was can be said of the notes alone, and what was fair later was fair before.
-/

namespace Invariance

variable {μ : Type} {ℓ ℓ' : List (Note μ)}

/-- Negation was an involution and no formula got a new number. In each round the induction solver
stood by what it had found inductive, or else it gave no counter-state that contradicts what it had
been told to assume. -/
structure Fair (ℓ : List (Note μ)) : Prop where
  involutive : Involutive ℓ
  unswept : Unswept ℓ
  steady : Stable ℓ ∨ Fresh ℓ

theorem Fair.suffix (h : Fair ℓ') (hs : ℓ <:+ ℓ') : Fair ℓ :=
  ⟨h.involutive.suffix hs, h.unswept.suffix hs, h.steady.imp (·.suffix hs) (·.suffix hs)⟩

theorem Fair.tail {n : Note μ} (h : Fair (n :: ℓ)) : Fair ℓ := h.suffix (List.suffix_cons n ℓ)

theorem perm_enlist {waiting waiting' staged held : List Obligation} {ob : Obligation}
    (h : waiting'.Perm (ob :: waiting)) :
    (ob :: (held ++ (waiting ++ staged))).Perm (held ++ (waiting' ++ staged)) :=
  List.perm_middle.symm.trans ((h.append_right staged).append_left held).symm

/-- The books of a search that holds these obligations besides its own. -/
structure Books (ℓ : List (Note μ)) (s : Search) (held : List Obligation) : Prop where
  accounts : Accounts ℓ s.lineage (held ++ (s.agenda.waiting ++ s.staged))
  standing : Standing ℓ s.frame s.staged (held ++ (s.agenda.waiting ++ s.staged))

theorem Books.within {s : Search} {held : List Obligation} (h : Books ℓ s held)
    (hw : Within ℓ ℓ') : Books ℓ' s held :=
  ⟨h.accounts.suffix hw.suffix, h.standing.within hw⟩

theorem Books.carry {s : Search} {ob : Obligation} {forward : Formula} (h : Books ℓ s [ob.bare])
    (hforward : forward ∈ guesses ℓ ∨ forward = ob.forward)
    (hproved : ∃ r, Opposed ℓ ob.counter r ∧ r ∈ proved ℓ) :
    Books ℓ { s with staged := s.staged ++ [{ ob with forward, score := .zero }] } [] := by
  have haccounts : Accounts ℓ s.lineage
      ({ ob with forward, score := .zero } :: (s.agenda.waiting ++ s.staged)) :=
    h.accounts.carry rfl hforward
  have hstanding : Standing ℓ s.frame (s.staged ++ [{ ob with forward, score := .zero }])
      ({ ob with forward, score := .zero } :: (s.agenda.waiting ++ s.staged)) :=
    h.standing.carry rfl hproved
  have hlast : ({ ob with forward, score := .zero } :: (s.agenda.waiting ++ s.staged)).Perm
      (s.agenda.waiting ++ (s.staged ++ [{ ob with forward, score := .zero }])) := by
    rw [← List.append_assoc]
    exact (List.perm_append_singleton ..).symm
  exact ⟨haccounts.perm hlast, hstanding.perm hlast⟩

/-- A generalization that was returned a moment ago: nothing was registered or guessed since. -/
structure Raised (ℓ : List (Note μ)) (counter : Formula) : Prop where
  fresh : ∀ {ℓ'}, ℓ <:+ ℓ' → Fresh ℓ' → ∀ f ∈ firsts ℓ, (counter, f) ∉ opposites ℓ'
  apart : ∀ {ℓ'}, ℓ <:+ ℓ' → Apart ℓ' → ∀ f ∈ guesses ℓ, (counter, f) ∉ opposites ℓ'

theorem raised_checked {f counter : Formula} {model : Option μ} {first last : Nat}
    {answer : Except Fault Bool} {trace : List Formula} :
    Raised (.searched first last counter answer trace ::
      .checked f (.ok (.sat (some counter) model)) :: ℓ) counter where
  fresh hs hfresh _ hg := Novel.not_mem hfresh (.trans (List.suffix_cons ..) hs) rfl hg
  apart hs hapart _ hg := Novel.not_mem hapart (.trans (List.suffix_cons ..) hs) rfl hg

/-- The new obligation is none of those there are. Its formula was registered for the first time,
while theirs are in the frame or were registered before. -/
theorem Books.unlike {s : Search} {held : List Obligation} {counter backward : Formula}
    (h : Books ℓ s held) (hs : ℓ <:+ ℓ') (hfair : Fair ℓ') (hraised : Raised ℓ counter)
    (hopp : (counter, backward) ∈ opposites ℓ') (hout : s.frame.contains backward = false) :
    ∀ o ∈ held ++ (s.agenda.waiting ++ s.staged), o.counter ≠ counter := by
  rintro o ho rfl
  obtain ⟨r, hr, hfirst, hin⟩ := h.standing.stands o ho
  obtain rfl : r = backward := (hr.suffix hs).unique hfair.involutive (Or.inl hopp)
  rcases hfair.steady with hstable | hfresh
  · rw [hin (hstable.suffix hs)] at hout
    cases hout
  · exact hraised.fresh hs hfresh _ hfirst hopp

/-- With a fair backend the search itself does not put a formula into the frame twice, unless a
counter-state contradicts a guess. -/
def Unclashing (e : Fault) (ℓ : List (Note μ)) : Prop :=
  Fair ℓ → Fresh ℓ → Apart ℓ → ∀ f, e = .violation (.alreadyInFrame f) →
    ∃ n ∈ ℓ, n.fault? = some e

theorem unclashing_of_ne {e : Fault} (h : ∀ f, e ≠ .violation (.alreadyInFrame f)) :
    Unclashing e ℓ := fun _ _ _ f he => absurd he (h f)

theorem lenient_unclashing : Lenient (Unclashing (μ := μ)) where
  noted hn _ _ _ _ _ := ⟨_, List.mem_cons_self, hn⟩
  mild hgrave := unclashing_of_ne fun f he => by
    rw [he] at hgrave
    cases hgrave
  grow h hfair hfresh hapart f he := by
    obtain ⟨m, hm, hnoted⟩ := h hfair.tail (hfresh.suffix (List.suffix_cons ..))
      (hapart.suffix (List.suffix_cons ..)) f he
    exact ⟨m, List.mem_cons_of_mem _ hm, hnoted⟩

namespace Search

variable {S σ : Type} {B : Backend S σ μ} {config : Config} {s : Search} {w : σ} {ob : Obligation}

def Balanced (held : List Obligation) (s : Search) (ℓ : List (Note μ)) : Prop :=
  s.agenda.Valid ∧ (Fair ℓ → Books ℓ s held)

def Proved (ℓ : List (Note μ)) (ob : Obligation) : Prop :=
  ∃ r, Opposed ℓ ob.counter r ∧ r ∈ proved ℓ

theorem Proved.within (h : Proved ℓ ob) (hw : Within ℓ ℓ') : Proved ℓ' ob := by
  obtain ⟨r, hr, hin⟩ := h
  exact ⟨r, hr.suffix hw.suffix, hw.proved hin⟩

theorem books_carry {forward : Formula} (hq : s.agenda.Valid)
    (h : Fair ℓ → Books ℓ s [ob.bare] ∧ Proved ℓ ob ∧
      (forward ∈ guesses ℓ ∨ forward = ob.forward)) :
    Leads (carry B.noted ob forward) s w ℓ Unclashing fun p s' _ => Pushed Balanced ob p s' := by
  refine leads_carry lenient_unclashing fun size w₁ => ⟨hq, fun hfair => ?_⟩
  have hw : Within ℓ (.registered forward .intermediate (.ok ()) ::
      .registered forward .first (.ok ()) :: ℓ) := ((Within.refl ℓ).cons rfl).cons rfl
  obtain ⟨hbooks, hproved, hforward⟩ := h (hfair.suffix hw.suffix)
  obtain ⟨haccounts, hstanding⟩ := (hbooks.carry hforward hproved).within hw
  exact ⟨haccounts, hstanding⟩

theorem books_stage {refutation : Formula} (hq : s.agenda.Valid)
    (h : Fair ℓ → Books ℓ s [ob.bare] ∧ Proved ℓ ob) :
    Leads (stage B.noted ob refutation) s w ℓ Unclashing fun p s' _ => Pushed Balanced ob p s' := by
  refine .bind (leads_report fun _ => .bind (leads_act lenient_unclashing (fun _ _ => rfl)
    fun answer w₁ => ?_))
  have hw₁ : Within ℓ (.checked ob.forward (.ok answer) :: ℓ) := (Within.refl ℓ).cons rfl
  cases answer with
  | unsat =>
      refine books_carry hq fun hfair => ?_
      obtain ⟨hbooks, hproved⟩ := h hfair.tail
      exact ⟨hbooks.within hw₁, hproved.within hw₁, Or.inr rfl⟩
  | unknown => exact leads_fail lenient_unclashing
  | sat generalization model =>
      refine .bind (leads_weaken lenient_unclashing hq fun weaker size w₂ ℓ₂ hw₂ hguess hwaiting =>
        books_carry hq fun hfair => ?_)
      obtain ⟨hbooks, hproved⟩ := h (hfair.suffix hw₂.suffix).tail
      refine ⟨⟨(hbooks.within hw₁).accounts.suffix hw₂.suffix, ?_⟩,
        (hproved.within hw₁).within hw₂, Or.inl hguess⟩
      refine (hbooks.within hw₁).standing.weaken hw₂ hfair.involutive (hproved.within hw₁)
        (fun hstable hin => ?_) hguess hwaiting
      exact (hstable.suffix hw₂.suffix).1 ob.forward rfl hin

theorem books_refine {refutation counter : Formula} (hq : s.agenda.Valid)
    (hraised : Raised ℓ counter) (h : Fair ℓ → Books ℓ s [ob.bare]) :
    Leads (refine B.noted ob refutation counter) s w ℓ Unclashing fun p s' _ =>
      Pushed Balanced ob p s' := by
  refine leads_refine lenient_unclashing hq (fun backward forward hin => ?_)
    (fun _ _ _ => unclashing_of_ne nofun)
    fun backward forward g stats agenda w₁ hout hagenda hperm => ⟨hagenda, fun hfair => ?_⟩
  · intro hfair hfresh hapart _ _
    have hs : ℓ <:+ .learned s.index counter (.ok forward) ::
        .negated counter (.ok backward) :: ℓ := ⟨[_, _], rfl⟩
    have hopp : (counter, backward) ∈ opposites (.learned s.index counter (.ok forward) ::
        .negated counter (.ok backward) :: ℓ) := List.mem_cons_self
    rcases (h (hfair.suffix hs)).standing.sourced backward hin with hfirst | hguess
    · exact absurd hopp (hraised.fresh hs hfresh backward hfirst)
    · exact absurd hopp (hraised.apart hs hapart backward hguess)
  have hw : Within ℓ (.negated counter (.ok g) :: .registered backward .first (.ok ()) ::
      .learned s.index counter (.ok forward) :: .negated counter (.ok backward) :: ℓ) :=
    ((((Within.refl ℓ).cons rfl).cons rfl).cons rfl).cons rfl
  have hopp : (counter, backward) ∈ opposites (.negated counter (.ok g) ::
      .registered backward .first (.ok ()) :: .learned s.index counter (.ok forward) ::
      .negated counter (.ok backward) :: ℓ) := List.mem_cons_of_mem _ List.mem_cons_self
  have hbooks := h (hfair.suffix hw.suffix)
  have hunlike := hbooks.unlike hw.suffix hfair hraised hopp hout
  obtain ⟨haccounts, hstanding⟩ := hbooks.within hw
  have hfirst : backward ∈ firsts (.negated counter (.ok g) ::
      .registered backward .first (.ok ()) :: .learned s.index counter (.ok forward) ::
      .negated counter (.ok backward) :: ℓ) := List.mem_cons_self
  have hguess : forward ∈ guesses (.negated counter (.ok g) ::
      .registered backward .first (.ok ()) :: .learned s.index counter (.ok forward) ::
      .negated counter (.ok backward) :: ℓ) := List.mem_cons_self
  exact ⟨(haccounts.add hunlike (Or.inl hopp) (Or.inl hguess) fun _ =>
      Lineage.knows_addOrigin).perm (perm_enlist hperm),
    (hstanding.add (Or.inl hopp) hfirst hguess).perm (perm_enlist hperm)⟩

theorem books_answerCounter {f refutation counter : Formula} {model : μ} (hq : s.agenda.Valid)
    (h : Fair ℓ → Books ℓ s [ob.bare]) :
    Leads (answerCounter B.noted config ob refutation counter model) s w
      (.checked f (.ok (.sat (some counter) (some model))) :: ℓ) Unclashing fun p s' _ =>
        Pushed Balanced ob p s' := by
  refine .bind (leads_report fun _ => .bind (leads_state (.bind ?_)))
  refine leads_window (fun _ => unclashing_of_ne nofun) fun _ => .bind ?_
  refine leads_act lenient_unclashing (fun _ _ => rfl) fun reachable w₁ => .bind
    (leads_report fun _ => .ite (fun _ => .bind ?_) fun _ => ?_)
  · exact (leads_failInduction lenient_unclashing hq ⟨Or.inl (unclashing_of_ne nofun),
      fun _ _ _ _ => unclashing_of_ne nofun, fun _ _ => unclashing_of_ne nofun⟩).imp
      fun _ _ _ _ hinvalid => leads_pure hinvalid
  · exact books_refine hq raised_checked fun hfair =>
      (h hfair.tail.tail).within (((Within.refl ℓ).cons rfl).cons rfl)

theorem books_push (hq : s.agenda.Valid) (h : Fair ℓ → Books ℓ s [ob.bare]) :
    Leads (push B.noted config ob) s w ℓ Unclashing fun p s' _ => Pushed Balanced ob p s' := by
  refine .bind (leads_report fun _ => .bind (leads_negate lenient_unclashing fun refutation w₁ =>
    .bind (leads_act lenient_unclashing (fun _ _ => rfl) fun answer w₂ => ?_)))
  have hw : Within ℓ (.negated ob.counter (.ok refutation) :: ℓ) := (Within.refl ℓ).cons rfl
  have hbooks : Fair (.negated ob.counter (.ok refutation) :: ℓ) →
      Books (.negated ob.counter (.ok refutation) :: ℓ) s [ob.bare] :=
    fun hfair => (h hfair.tail).within hw
  match answer with
  | .unsat =>
      refine books_stage hq fun hfair => ⟨(hbooks hfair.tail).within ((Within.refl _).cons rfl), ?_⟩
      exact ⟨refutation, .of_mem (List.mem_cons_of_mem _ List.mem_cons_self), List.mem_cons_self⟩
  | .unknown => exact leads_fail lenient_unclashing
  | .sat none _ => exact leads_fail lenient_unclashing
  | .sat (some _) none => exact leads_fail lenient_unclashing
  | .sat (some _) (some _) => exact books_answerCounter hq hbooks

theorem books_drain {fuel : Nat} (h : Balanced [] s ℓ) :
    Leads (drain B.noted config fuel) s w ℓ Unclashing fun _ s' _ => Drained Balanced s' := by
  refine leads_drain lenient_unclashing (fun _ _ _ h => h.1) ?_
    (fun _ _ _ _ h => books_push h.1 h.2) ?_ h
  · intro s ℓ agenda ob ⟨_, h⟩ hagenda hperm
    have hpopped := hperm.append_right s.staged
    exact ⟨hagenda, fun hfair => ⟨(h hfair).accounts.perm hpopped,
      (h hfair).standing.perm hpopped⟩⟩
  · intro s ℓ g agenda ob ⟨_, h⟩ hagenda hperm
    have hw : Within ℓ (.negated ob.counter (.ok g) :: ℓ) := (Within.refl ℓ).cons rfl
    have hback := (hperm.append_right s.staged).symm
    refine ⟨hagenda, fun hfair => ?_⟩
    obtain ⟨haccounts, hstanding⟩ := (h hfair.tail).within hw
    exact ⟨haccounts.perm hback, hstanding.perm hback⟩

theorem books_drainFrame {fuel : Nat} (h : Balanced [] s ℓ) :
    Leads (drainFrame B.noted config fuel) s w ℓ Unclashing fun _ s' _ => Drained Balanced s' := by
  refine leads_drainFrame lenient_unclashing (fun s ℓ h => ?_) (books_drain h)
  have hw : Within ℓ (.other none :: ℓ) := (Within.refl ℓ).cons rfl
  exact ⟨h.1, fun hfair => (h.2 hfair.tail).within hw⟩

end Search

end Invariance
