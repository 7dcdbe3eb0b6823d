import Invariance.Proofs.Search.Endings
import Invariance.Proofs.Transcripts.Erasing
import Invariance.Proofs.Transcripts.Renewal
import Invariance.Scripted.Player

/-!
What the books of a query come to: the invariant of a valid property, and the one way in which a
query can come to put a formula into the frame that is there already.
-/

namespace Invariance

open Action

variable {S σ μ : Type} {B : Backend S σ μ} {config : Config} {fuel : Nat} {s : Search} {w : σ}
  {ℓ ℓ' : List (Note μ)}

theorem Restoring.literal {p negation : Formula} (h : Restoring ℓ s [])
    (hw : Within ℓ ℓ') (hopp : Opposed ℓ' negation p) (hfirst : p ∈ firsts ℓ') {agenda : Agenda}
    (hnew : ∀ o ∈ s.agenda.waiting, o.counter ≠ negation)
    (hperm : agenda.waiting.Perm (⟨p, negation, 0, .zero⟩ :: s.agenda.waiting)) :
    Restoring ℓ' { s with
      frame := s.frame.insert p, agenda, lineage := s.lineage.addProperty p } [] := by
  obtain ⟨haccounts, hplain⟩ := h.within hw
  have hnew' : ∀ o ∈ s.agenda.waiting ++ [], o.counter ≠ negation := by simpa using hnew
  have hadded : Accounts ℓ' (s.lineage.addProperty p)
      (⟨p, negation, 0, .zero⟩ :: (s.agenda.waiting ++ [])) :=
    haccounts.add hnew' hopp (Or.inr rfl) fun _ => Lineage.knows_addProperty
  have hlisted : Plain ℓ' (s.frame.insert p) (⟨p, negation, 0, .zero⟩ :: s.agenda.waiting) :=
    hplain.add hopp hfirst
  exact ⟨hadded.perm (hperm.append_right []).symm, hlisted.perm hperm.symm⟩

theorem Restoring.literalAgain {p : Formula} (h : Restoring ℓ s []) (hw : Within ℓ ℓ')
    (hin : s.frame.contains p = true) {agenda : Agenda}
    (hperm : agenda.waiting.Perm s.agenda.waiting) :
    Restoring ℓ' { s with agenda, lineage := s.lineage.addProperty p } [] := by
  obtain ⟨haccounts, hplain⟩ := h.within hw
  obtain ⟨_, o, ho, hopp⟩ := hplain.sourced p hin
  have hrestated : Accounts ℓ' (s.lineage.addProperty p) (s.agenda.waiting ++ []) :=
    haccounts.restate ⟨o, List.mem_append_left _ ho, hopp⟩ fun _ => Lineage.knows_addProperty
  exact ⟨hrestated.perm (hperm.append_right []).symm, hplain.perm hperm.symm⟩

theorem Restoring.books (h : Restoring ℓ s []) (hstaged : s.staged = []) : Books ℓ s [] := by
  have hsame : s.agenda.waiting ++ [] = [] ++ (s.agenda.waiting ++ s.staged) := by
    rw [hstaged]
    rfl
  have hstanding : Standing ℓ s.frame [] s.agenda.waiting :=
    h.plain.standing (fun _ hin => hin) fun _ hin => Or.inl hin
  refine ⟨hsame ▸ h.accounts, ?_⟩
  rw [← hsame, hstaged, List.append_nil]
  exact hstanding

namespace Search

def Entering (s : Search) (ℓ : List (Note μ)) : Prop :=
  s.agenda.Valid ∧ s.staged = [] ∧ (Fair ℓ → Restoring ℓ s [])

theorem books_addProperty {p : Formula} (h : Entering s ℓ) :
    Leads (addProperty B.noted fuel p) s w ℓ Unclashing fun answer s' _ ℓ' =>
      answer = true → Entering s' ℓ' := by
  refine leads_addProperty lenient_unclashing (fun _ _ h => h.1) ?_ ?_ h
  · intro s ℓ p negation agenda h hin hagenda hperm
    obtain ⟨_, hstaged, hbooks⟩ := h
    refine ⟨hagenda, hstaged, fun hfair => ?_⟩
    exact (hbooks hfair.tail.tail).literalAgain (((Within.refl ℓ).cons rfl).cons rfl) hin hperm
  · intro s ℓ p negation g intermediate stats agenda h hfresh hagenda hperm
    obtain ⟨_, hstaged, hbooks⟩ := h
    refine ⟨hagenda, hstaged, fun hfair => ?_⟩
    have hw : Within ℓ (.negated negation (.ok g) :: .registered p .intermediate (.ok ()) ::
        .registered p .first (.ok ()) :: .other none :: .negated p (.ok negation) :: ℓ) :=
      (((((Within.refl ℓ).cons rfl).cons rfl).cons rfl).cons rfl).cons rfl
    have hopp : Opposed (.negated negation (.ok g) :: .registered p .intermediate (.ok ()) ::
        .registered p .first (.ok ()) :: .other none :: .negated p (.ok negation) :: ℓ)
        negation p := (Opposed.of_mem (by simp)).symm
    obtain ⟨haccounts, hstands, hsourced⟩ := (hbooks (hfair.suffix hw.suffix)).literal hw hopp
      List.mem_cons_self hfresh hperm
    exact ⟨haccounts, hstands, hsourced⟩

theorem books_run {property : Formula} :
    Leads (run B.noted config fuel property) .blank w ℓ Unclashing fun o s' _ ℓ' =>
      s'.outcome = some o ∧ (o = .valid → Fair ℓ' → Stable ℓ' → s'.Closed) := by
  have hF := lenient_unclashing (μ := μ)
  refine .bind (leads_act hF (fun _ _ => rfl) fun _ w₁ => .bind (leads_act hF (fun _ _ => rfl)
    fun _ w₂ => .bind (leads_change (.bind (leads_clearFrame hF.noted fun w₃ => .bind ?_)))))
  refine Leads.imp (books_addProperty ⟨Agenda.empty_valid, rfl, fun _ => ⟨.empty, .empty⟩⟩)
    fun answer s₁ w₄ ℓ₁ h₁ => .ite (fun hanswer => ?_) fun _ => .bind (leads_report fun _ =>
      .bind (leads_change (leads_pure ⟨rfl, nofun⟩)))
  obtain ⟨hq, hstaged, hbooks⟩ := h₁ hanswer
  refine .bind (leads_report fun _ => .bind ?_)
  refine (books_rounds ⟨hq, fun hfair => (hbooks hfair).books hstaged⟩).attempt.imp
    fun result s₂ w₅ ℓ₂ h₂ => .bind (leads_change (.bind ?_))
  rcases h₂ with ⟨o, rfl, hclosed⟩ | ⟨e, rfl, hfault⟩
  · exact leads_pure (.bind (leads_report fun _ => .bind (leads_change
      (leads_pure ⟨rfl, fun ho hfair hstable => hclosed ho hfair hstable⟩))))
  · exact hfault

end Search

namespace Engine

variable {system : S} {property : Formula} {e e' : Engine σ}

theorem yields_query {F : Fault → Engine (σ × List (Note μ)) → Prop}
    {Q : Outcome → Engine (σ × List (Note μ)) → Prop}
    (hF : ∀ fault w, F fault { search := none, world := (w, [.other (some fault)]) })
    (h : ∀ w, (Search.run B.noted config fuel property).Yields (.blank, w, [.other none])
      (fun fault t => F fault { search := some t.1, world := t.2 })
      fun o t => Q o { search := some t.1, world := t.2 }) :
    (query B.noted config fuel system property).Yields e.noted F Q := by
  refine .bind ?_
  change Yields _ (reset B.noted e.noted) _ _
  rw [reset_noted]
  refine .bind (.within (yields_noting _ (fun fault w => ?_) fun _ w => ?_))
  · have hfault := hF fault w
    rwa [← reset_search B e] at hfault
  · exact .within (h w)

theorem query_valid_invariant (hinv : Involutive (transcript B config fuel system property e))
    (hunswept : Unswept (transcript B config fuel system property e))
    (hstable : Stable (transcript B config fuel system property e))
    (h : query B config fuel system property e = .ok .valid e') :
    ∃ invariant lineage, e'.invariant = some invariant ∧ e'.lineage = some lineage ∧
      ∀ f, f ∈ invariant ↔ lineage.isProperty f = true ∨ (lineage.origin? f).isSome = true := by
  have hyields : (query B.noted config fuel system property).Yields e.noted (fun _ _ => True)
      fun o t => ∃ s, t.search = some s ∧ s.outcome = some o ∧
        (o = .valid → Fair t.world.2 → Stable t.world.2 → s.Closed) :=
    yields_query (fun _ _ => trivial) fun w => (Search.books_run (w := w)).mono
      (fun _ _ _ => trivial) fun _ t ht => ⟨t.1, rfl, ht⟩
  obtain ⟨s, hsearch, houtcome, hclosed⟩ := hyields.of_ok (query_noted_of_ok h)
  have hs : e'.search = some s := hsearch
  have hinvariant : e'.invariant = some s.frame.toList := by
    rw [invariant, outcome, frame, hs, Option.bind_some, if_pos houtcome]
    rfl
  have hlineage : e'.lineage = some s.lineage := congrArg (Option.map Search.lineage) hs
  refine ⟨_, _, hinvariant, hlineage, fun f => ?_⟩
  exact FormulaSet.mem_toList.trans (hclosed rfl ⟨hinv, hunswept, Or.inl hstable⟩ hstable f)

open Scripted

/-- `g` is answered once, and learnt forward for it is the property again. -/
def settled : Engine Player where
  world :=
    { sentences.terms := #[.atom "P", .atom "g", .atom "h", .neg ⟨2⟩]
      script.inductions := [(⟨0⟩, [.sat (some ⟨1⟩) (some [⟨1⟩])])]
      script.learn := [(⟨1⟩, ⟨0⟩)] }

theorem settled_invariant : ∃ e', query Player.backend {} 20 () ⟨0⟩ settled = .ok .valid e' ∧
    ∃ invariant lineage, e'.invariant = some invariant ∧ e'.lineage = some lineage ∧
      ∀ f, f ∈ invariant ↔ lineage.isProperty f = true ∨ (lineage.origin? f).isSome = true := by
  obtain ⟨e', h⟩ := eq_ok_of_answer? (a := .valid)
    (r := query Player.backend {} 20 () ⟨0⟩ settled) (by decide +kernel)
  exact ⟨e', h, query_valid_invariant (by decide +kernel) (by decide +kernel)
    (by decide +kernel) h⟩

/-- Only a counter-state that contradicts a guess can clash. -/
theorem query_unclashing (hinv : Involutive (transcript B config fuel system property e))
    (hunswept : Unswept (transcript B config fuel system property e))
    (hfresh : Fresh (transcript B config fuel system property e))
    (hapart : Apart (transcript B config fuel system property e))
    (h : ∀ n ∈ transcript B config fuel system property e,
      ∀ f, n.fault? ≠ some (.violation (.alreadyInFrame f))) (f : Formula) (e' : Engine σ) :
    query B config fuel system property e ≠ .error (.violation (.alreadyInFrame f)) e' := by
  intro hquery
  have hyields : (query B.noted config fuel system property).Yields e.noted
      (fun fault t => Unclashing fault t.world.2) fun _ _ => True :=
    yields_query (fun _ _ => lenient_unclashing.noted rfl) fun w =>
      (Search.books_run (w := w)).mono (fun _ _ hfault => hfault) fun _ _ _ => trivial
  obtain ⟨n, hn, hnoted⟩ := hyields.of_error (query_noted_of_error hquery)
    ⟨hinv, hunswept, Or.inr hfresh⟩ hfresh hapart f rfl
  exact h n hn f hnoted

theorem settled_unclashing :
    (∀ n ∈ transcript Player.backend {} 20 () ⟨0⟩ settled, n.fault? = none) ∧
      ∀ (f : Formula) (e' : Engine Player), query Player.backend {} 20 () ⟨0⟩ settled ≠
        .error (.violation (.alreadyInFrame f)) e' := by
  have hnone : ∀ n ∈ transcript Player.backend {} 20 () ⟨0⟩ settled, n.fault? = none := by
    decide +kernel
  refine ⟨hnone, query_unclashing (by decide +kernel) (by decide +kernel) (by decide +kernel)
    (by decide +kernel) fun n hn f hf => ?_⟩
  rw [hnone n hn] at hf
  cases hf

/-- Learnt forward for `g` is the negation of `h`, and `h` is the next counter-state. -/
def crossed : Engine Player where
  world :=
    { sentences.terms := #[.atom "P", .atom "g", .atom "h", .neg ⟨2⟩]
      script.inductions :=
        [(⟨0⟩, [.sat (some ⟨1⟩) (some [⟨1⟩]), .sat (some ⟨2⟩) (some [⟨2⟩])])]
      script.learn := [(⟨1⟩, ⟨3⟩)] }

theorem crossed_clashes : ∃ e', query Player.backend {} 20 () ⟨0⟩ crossed =
      .error (.violation (.alreadyInFrame ⟨3⟩)) e' ∧
    Involutive (transcript Player.backend {} 20 () ⟨0⟩ crossed) ∧
    Unswept (transcript Player.backend {} 20 () ⟨0⟩ crossed) ∧
    Fresh (transcript Player.backend {} 20 () ⟨0⟩ crossed) ∧
    ∀ n ∈ transcript Player.backend {} 20 () ⟨0⟩ crossed, n.fault? = none := by
  have hfault : fault? (query Player.backend {} 20 () ⟨0⟩ crossed) =
      some (.violation (.alreadyInFrame ⟨3⟩)) := by decide +kernel
  obtain ⟨e', h⟩ := eq_error_of_fault? hfault
  exact ⟨e', h, by decide +kernel⟩

end Engine

end Invariance
