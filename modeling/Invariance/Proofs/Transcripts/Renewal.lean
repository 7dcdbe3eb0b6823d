import Invariance.Proofs.Transcripts.Keeping
import Mathlib.Data.List.Perm.Subperm

/-!
The books from round to round. When a property is opened and when the frame is built anew, the frame
holds just the formulas that the obligations answer for, so that none of them is registered twice.
-/

namespace Invariance

variable {μ : Type} {s : Search} {ℓ ℓ' : List (Note μ)}

/-- The books while the frame is built from nothing. These obligations are still to be restored. -/
structure Restoring (ℓ : List (Note μ)) (s : Search) (todo : List Obligation) : Prop where
  accounts : Accounts ℓ s.lineage (s.agenda.waiting ++ todo)
  plain : Plain ℓ s.frame s.agenda.waiting

theorem Restoring.within {todo : List Obligation} (h : Restoring ℓ s todo) (hw : Within ℓ ℓ') :
    Restoring ℓ' s todo :=
  ⟨h.accounts.suffix hw.suffix, h.plain.within hw⟩

theorem Restoring.unclashing {ob : Obligation} {todo : List Obligation} {r : Formula}
    (h : Fair ℓ → Restoring ℓ s (ob :: todo)) (hin : s.frame.contains r = true) :
    Unclashing (.violation (.alreadyInFrame r)) (.negated ob.counter (.ok r) :: ℓ) := by
  intro hfair _ _ _ _
  obtain ⟨_, o, ho, hopp⟩ := (h hfair.tail).plain.sourced r hin
  have hsame : o.counter = ob.counter :=
    (hopp.suffix (List.suffix_cons ..)).unique' hfair.involutive (.of_mem List.mem_cons_self)
  have hdistinct := (h hfair.tail).accounts.distinct
  rw [List.map_append, List.nodup_append] at hdistinct
  exact absurd hsame (hdistinct.2.2 _ (List.mem_map.mpr ⟨o, ho, rfl⟩) _ List.mem_cons_self)

theorem Books.restoring {depth : Nat} (h : Books ℓ s []) (hwaiting : s.agenda.waiting = []) :
    Restoring (.reset depth (.ok ()) :: ℓ)
      { s with frame := .empty, agenda := .empty } s.staged where
  accounts := by
    have haccounts := h.accounts.suffix (List.suffix_cons (.reset depth (.ok ())) ℓ)
    rwa [hwaiting] at haccounts
  plain := .empty

def Search.Closed (s : Search) : Prop := ∀ f, s.frame.contains f = true ↔ s.lineage.Knows f

/-- As many different formulas as there are members are known to be members: these are all. -/
theorem Books.closed (h : Books ℓ s []) (hwaiting : s.agenda.waiting = []) (hinv : Involutive ℓ)
    (hstable : Stable ℓ) (hsize : s.frame.size = s.staged.length) : s.Closed := by
  obtain ⟨haccounts, hstanding⟩ := h
  rw [hwaiting] at haccounts hstanding
  have hrefutation : ∀ ob ∈ s.staged, ∃ r, Opposed ℓ ob.counter r ∧ s.lineage.Knows r ∧
      s.frame.contains r = true := fun ob hob => by
    obtain ⟨r, hr, hknown, _⟩ := haccounts.refuted ob hob
    obtain ⟨r', hr', _, hin⟩ := hstanding.stands ob hob
    obtain rfl := hr.unique hinv hr'
    exact ⟨r, hr, hknown, hin hstable⟩
  choose! refutation hopposed hknown hin using hrefutation
  have hnodup : (s.staged.map refutation).Nodup := by
    refine (nodup_of_counters haccounts.distinct).map_on fun ob hob ob' hob' heq => ?_
    refine List.inj_on_of_nodup_map haccounts.distinct hob hob' ?_
    exact (hopposed ob hob).unique' hinv (heq ▸ hopposed ob' hob')
  have hsub : ∀ f ∈ s.staged.map refutation, f ∈ s.frame.toList := fun f hf => by
    obtain ⟨ob, hob, rfl⟩ := List.mem_map.mp hf
    exact FormulaSet.mem_toList.mpr (hin ob hob)
  have hlength : s.frame.toList.length ≤ (s.staged.map refutation).length := by
    have hkeys : s.frame.toList.length = s.frame.size := FormulaMap.length_keys _
    exact Nat.le_of_eq (hkeys.trans (hsize.trans (List.length_map _).symm))
  have hperm := (List.subperm_of_subset hnodup hsub).perm_of_length_le hlength
  intro f
  rw [Frame.contains, ← FormulaSet.mem_toList]
  refine ⟨fun hf => ?_, fun hf => ?_⟩
  · obtain ⟨ob, hob, rfl⟩ := List.mem_map.mp (hperm.mem_iff.mpr hf)
    exact hknown ob hob
  · obtain ⟨ob, hob, hopp⟩ := haccounts.listed f hf
    obtain rfl := hopp.unique hinv (hopposed ob hob)
    exact FormulaSet.mem_toList.mpr (hin ob hob)

namespace Search

variable {S σ : Type} {B : Backend S σ μ} {config : Config} {w : σ}

theorem books_restoreAll : ∀ {todo : List Obligation} {s : Search} {w : σ} {ℓ : List (Note μ)},
    s.agenda.Valid → (Fair ℓ → Restoring ℓ s todo) →
    Leads (todo.forM (restore B.noted)) s w ℓ Unclashing fun _ s' _ ℓ' =>
      s'.agenda.Valid ∧ s'.staged = s.staged ∧
        s'.agenda.waiting.Perm (s.agenda.waiting ++ todo.map Obligation.bare) ∧
        (Fair ℓ' → Restoring ℓ' s' [])
  | [], s, _, _, hq, h => leads_pure ⟨hq, rfl, by simp, h⟩
  | ob :: todo, s, w, ℓ, hq, h => by
      refine .bind (leads_restore lenient_unclashing hq (fun r => Restoring.unclashing h)
        fun r g intermediate stats agenda w₁ hagenda hperm => ?_)
      refine (books_restoreAll hagenda fun hfair => ?_).imp fun _ s' w' ℓ' h' => ?_
      · have hw : Within ℓ (.negated ob.counter (.ok g) :: .registered r .intermediate (.ok ()) ::
            .registered r .first (.ok ()) :: .negated ob.counter (.ok r) :: ℓ) :=
          ((((Within.refl ℓ).cons rfl).cons rfl).cons rfl).cons rfl
        obtain ⟨haccounts, hplain⟩ := (h (hfair.suffix hw.suffix)).within hw
        have hopp : Opposed (.negated ob.counter (.ok g) :: .registered r .intermediate (.ok ()) ::
            .registered r .first (.ok ()) :: .negated ob.counter (.ok r) :: ℓ)
            ob.bare.counter r := .of_mem (by simp [Obligation.bare])
        have hfirst : r ∈ firsts (.negated ob.counter (.ok g) ::
            .registered r .intermediate (.ok ()) :: .registered r .first (.ok ()) ::
            .negated ob.counter (.ok r) :: ℓ) := List.mem_cons_self
        refine ⟨?_, ?_⟩
        · have hnext : Accounts _ s.lineage (ob.bare :: (s.agenda.waiting ++ todo)) :=
            (haccounts.perm List.perm_middle).carry rfl (Or.inr rfl)
          exact hnext.perm (hperm.append_right todo).symm
        · obtain ⟨hstands, hsourced⟩ := (hplain.add hopp hfirst).perm hperm.symm
          exact ⟨hstands, hsourced⟩
      · obtain ⟨hq', hstaged, hwaiting, hrest⟩ := h'
        refine ⟨hq', hstaged, hwaiting.trans ?_, hrest⟩
        exact (hperm.append_right _).trans (by simpa using List.perm_middle.symm)

theorem books_rebuild (hq : s.agenda.Valid)
    (h : Fair ℓ → Restoring ℓ s s.staged) :
    Leads (rebuild B.noted) s w ℓ Unclashing fun _ s' _ => Balanced [] s' := by
  refine .bind (leads_state (.bind (leads_change (.bind ?_))))
  refine Leads.imp (books_restoreAll hq fun hfair => ⟨(h hfair).accounts, (h hfair).plain⟩)
    fun _ s₁ w₁ ℓ₁ h₁ => ?_
  obtain ⟨hq₁, hstaged, hwaiting, hbooks⟩ := h₁
  refine .bind (leads_change (.bind (leads_change (.bind (leads_change (.bind ?_))))))
  refine leads_checkRefutations lenient_unclashing hq₁ fun new w₂ hnew _ => .bind (leads_state
    (.bind (leads_state (.bind ?_))))
  refine leads_checkedAdd (fun _ => unclashing_of_ne nofun) fun _ => leads_change
    ⟨hq₁, fun hfair => ?_⟩
  have hw : Within ℓ₁ (new ++ ℓ₁) := (Within.refl ℓ₁).append hnew
  obtain ⟨haccounts, hplain⟩ := (hbooks (hfair.suffix hw.suffix)).within hw
  have hsame : s₁.agenda.waiting ++ [] = [] ++ (s₁.agenda.waiting ++ s₁.staged) := by
    rw [hstaged]
    rfl
  have hcandidate : ∀ ob ∈ s.staged, s₁.frame.contains ob.forward = true ∨
      ob.forward ∈ guesses (new ++ ℓ₁) := fun ob hob => by
    have hin : ob.bare ∈ s₁.agenda.waiting :=
      hwaiting.mem_iff.mpr (List.mem_append_right _ (List.mem_map.mpr ⟨ob, hob, rfl⟩))
    obtain ⟨r, hr, _, hguess | hown⟩ :=
      haccounts.refuted ob.bare (List.mem_append_left _ hin)
    · exact Or.inr hguess
    · obtain ⟨r', hr', hcontains⟩ := hplain.stands ob.bare hin
      have hforward : ob.forward = r' := hown.trans (hr.unique hfair.involutive hr')
      exact Or.inl (hforward ▸ hcontains)
  have hstanding : Standing (new ++ ℓ₁)
      (s.staged.foldl (fun frame ob => frame.insert ob.forward) s₁.frame) [] s₁.agenda.waiting := by
    refine hplain.standing (fun f hin => Frame.contains_foldl_insert.mpr (Or.inr hin))
      fun f hin => ?_
    rcases Frame.contains_foldl_insert.mp hin with ⟨ob, hob, rfl⟩ | hin
    · exact hcandidate ob hob
    · exact Or.inl hin
  have hnone : s₁.staged = [] := hstaged
  refine ⟨hsame ▸ haccounts, ?_⟩
  change Standing _ _ s₁.staged ([] ++ (s₁.agenda.waiting ++ s₁.staged))
  rw [← hsame, hnone, List.append_nil]
  exact hstanding

theorem books_advance (h : Fair ℓ → Books ℓ s []) (hwaiting : s.agenda.waiting = []) :
    Leads (advance B.noted config) s w ℓ Unclashing fun more s' _ ℓ' =>
      more = true → Balanced [] s' ℓ' := by
  refine .bind (leads_deepen lenient_unclashing.noted (fun _ => unclashing_of_ne nofun)
    fun stats w₁ _ => .bind (leads_state (.ite (fun _ => .bind (leads_report fun _ =>
      leads_pure nofun)) fun _ => .bind ?_)))
  refine Leads.imp (books_rebuild Agenda.empty_valid fun hfair => ?_) fun _ s₂ w₂ ℓ₂ h₂ => .bind ?_
  · obtain ⟨haccounts, hplain⟩ := (h hfair.tail).restoring hwaiting
    exact ⟨haccounts, hplain⟩
  obtain ⟨hq₂, hbooks⟩ := h₂
  refine leads_act lenient_unclashing (fun _ _ => rfl) fun answer w₃ => ?_
  cases answer with
  | none =>
      have hw : Within ℓ₂ (.swept (.ok none) :: ℓ₂) := (Within.refl ℓ₂).cons rfl
      exact leads_pure fun _ => ⟨hq₂, fun hfair => (hbooks hfair.tail).within hw⟩
  | some r =>
      refine .bind (leads_relocate lenient_unclashing fun s' w' new hmoved _ =>
        leads_pure fun _ => ⟨hmoved.valid, fun hfair => ?_⟩)
      have hswept := hfair.unswept (.swept (.ok (some r)))
        (List.mem_append_right _ List.mem_cons_self)
      cases hswept

theorem books_rounds : ∀ {bound fuel : Nat} {s : Search} {w : σ} {ℓ : List (Note μ)},
    Balanced [] s ℓ → Leads (rounds B.noted config bound fuel) s w ℓ Unclashing fun o s' _ ℓ' =>
      o = .valid → Fair ℓ' → Stable ℓ' → Closed s'
  | 0, _, _, _, _, _ => leads_throw (unclashing_of_ne nofun)
  | bound + 1, fuel, s, w, ℓ, h => by
      refine .bind (Leads.imp (books_drainFrame h) fun left s₁ w₁ ℓ₁ h₁ => .bind (leads_change
        (.bind (leads_state (.ite (fun _ => leads_pure nofun) fun hgo => ?_)))))
      rcases h₁ with hinvalid | ⟨hwaiting, _, hbooks⟩
      · exact absurd hinvalid hgo
      refine .ite (fun hsize => ?_) fun _ => ?_
      · refine .bind (Leads.imp leads_showInvariant fun _ s₂ w₂ ℓ₂ h₂ => leads_pure
          fun _ hfair hstable => ?_)
        obtain ⟨rfl, rfl⟩ := h₂
        exact (hbooks hfair).closed hwaiting hfair.involutive hstable hsize
      · refine .bind (Leads.imp (books_advance (fun hfair => ⟨(hbooks hfair).accounts,
          (hbooks hfair).standing⟩) hwaiting) fun more s₂ w₂ ℓ₂ h₂ => .ite (fun hmore => ?_)
            fun _ => leads_pure nofun)
        exact books_rounds (h₂ hmore)

end Search

end Invariance
