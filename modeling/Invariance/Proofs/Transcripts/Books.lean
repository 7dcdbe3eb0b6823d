import Invariance.Proofs.Transcripts.Accounts

/-!
The books of a search: which formulas its obligations answer for, and how these formulas stand in
the frame. A step of the search adds an obligation, carries one on, or weakens a candidate, and each
has its entry here.
-/

namespace Invariance

variable {μ : Type} {ℓ ℓ' : List (Note μ)} {l l' : Lineage} {frame frame' : Frame}
  {obs obs' staged : List Obligation} {ob ob' : Obligation} {f r : Formula}

/-- The literals of the property and the formulas learnt backward. -/
def Lineage.Knows (l : Lineage) (f : Formula) : Prop :=
  l.isProperty f = true ∨ (l.origin? f).isSome = true

theorem Lineage.knows_addProperty {p : Formula} :
    (l.addProperty p).Knows f ↔ f = p ∨ l.Knows f := by
  simp only [Knows, isProperty, origin?, addProperty, FormulaSet.contains_insert, Bool.or_eq_true,
    decide_eq_true_eq, or_assoc]

theorem Lineage.knows_addOrigin {learnt : Formula} {o : Origin} :
    (l.addOrigin learnt o).Knows f ↔ f = learnt ∨ l.Knows f := by
  simp only [Knows, isProperty, origin?, addOrigin, FormulaMap.get?_insert]
  by_cases hf : f = learnt <;> simp [hf]

/-- The obligations answer one to one for what the lineage knows. -/
structure Accounts (ℓ : List (Note μ)) (l : Lineage) (obs : List Obligation) : Prop where
  distinct : (obs.map (·.counter)).Nodup
  refuted : ∀ ob ∈ obs, ∃ r, Opposed ℓ ob.counter r ∧ l.Knows r ∧
    (ob.forward ∈ guesses ℓ ∨ ob.forward = r)
  listed : ∀ f, l.Knows f → ∃ ob ∈ obs, Opposed ℓ ob.counter f

namespace Accounts

theorem empty : Accounts ℓ {} [] := ⟨.nil, nofun, fun _ h => by rcases h with h | h <;> cases h⟩

theorem suffix (h : Accounts ℓ l obs) (hs : ℓ <:+ ℓ') : Accounts ℓ' l obs where
  distinct := h.distinct
  refuted ob hob := by
    obtain ⟨r, hr, hknown, hforward⟩ := h.refuted ob hob
    exact ⟨r, hr.suffix hs, hknown, hforward.imp_left (guesses_suffix hs)⟩
  listed f hf := by
    obtain ⟨ob, hob, hopp⟩ := h.listed f hf
    exact ⟨ob, hob, hopp.suffix hs⟩

theorem perm (h : Accounts ℓ l obs) (hp : obs.Perm obs') : Accounts ℓ l obs' where
  distinct := (hp.map _).nodup_iff.mp h.distinct
  refuted ob hob := h.refuted ob (hp.mem_iff.mpr hob)
  listed f hf := by
    obtain ⟨ob, hob, hopp⟩ := h.listed f hf
    exact ⟨ob, hp.mem_iff.mp hob, hopp⟩

theorem add (h : Accounts ℓ l obs) (hnew : ∀ o ∈ obs, o.counter ≠ ob.counter)
    (hr : Opposed ℓ ob.counter r) (hforward : ob.forward ∈ guesses ℓ ∨ ob.forward = r)
    (hl : ∀ f, l'.Knows f ↔ f = r ∨ l.Knows f) : Accounts ℓ l' (ob :: obs) where
  distinct := List.nodup_cons.mpr ⟨fun hin => by
    obtain ⟨o, ho, hc⟩ := List.mem_map.mp hin
    exact hnew o ho hc, h.distinct⟩
  refuted o ho := by
    rcases List.mem_cons.mp ho with rfl | ho
    · exact ⟨r, hr, (hl r).mpr (Or.inl rfl), hforward⟩
    · obtain ⟨r', hr', hknown, hforward'⟩ := h.refuted o ho
      exact ⟨r', hr', (hl r').mpr (Or.inr hknown), hforward'⟩
  listed f hf := by
    rcases (hl f).mp hf with rfl | hf
    · exact ⟨ob, List.mem_cons_self, hr⟩
    · obtain ⟨o, ho, hopp⟩ := h.listed f hf
      exact ⟨o, List.mem_cons_of_mem _ ho, hopp⟩

theorem restate (h : Accounts ℓ l obs) (hr : ∃ o ∈ obs, Opposed ℓ o.counter r)
    (hl : ∀ f, l'.Knows f ↔ f = r ∨ l.Knows f) : Accounts ℓ l' obs where
  distinct := h.distinct
  refuted o ho := by
    obtain ⟨r', hr', hknown, hforward⟩ := h.refuted o ho
    exact ⟨r', hr', (hl r').mpr (Or.inr hknown), hforward⟩
  listed f hf := by
    rcases (hl f).mp hf with rfl | hf
    · exact hr
    · exact h.listed f hf

theorem carry (h : Accounts ℓ l (ob :: obs)) (hcounter : ob'.counter = ob.counter)
    (hforward : ob'.forward ∈ guesses ℓ ∨ ob'.forward = ob.forward) :
    Accounts ℓ l (ob' :: obs) where
  distinct := by
    have hd := h.distinct
    rwa [List.map_cons, ← hcounter, ← List.map_cons] at hd
  refuted o ho := by
    rcases List.mem_cons.mp ho with rfl | ho
    · obtain ⟨r, hr, hknown, hr'⟩ := h.refuted ob List.mem_cons_self
      refine ⟨r, by rwa [hcounter], hknown, ?_⟩
      rcases hforward with hguess | hsame
      · exact Or.inl hguess
      · rwa [hsame]
    · exact h.refuted o (List.mem_cons_of_mem _ ho)
  listed f hf := by
    obtain ⟨o, ho, hopp⟩ := h.listed f hf
    rcases List.mem_cons.mp ho with rfl | ho
    · exact ⟨ob', List.mem_cons_self, by rwa [hcounter]⟩
    · exact ⟨o, List.mem_cons_of_mem _ ho, hopp⟩

end Accounts

/-- The formulas that the obligations answer for are registered. With a stable induction solver they
stay in the frame as well. -/
structure Standing (ℓ : List (Note μ)) (frame : Frame) (staged obs : List Obligation) : Prop where
  stands : ∀ ob ∈ obs, ∃ r, Opposed ℓ ob.counter r ∧ r ∈ firsts ℓ ∧
    (Stable ℓ → frame.contains r = true)
  sourced : ∀ f, frame.contains f = true → f ∈ firsts ℓ ∨ f ∈ guesses ℓ
  proved : ∀ ob ∈ staged, ∃ r, Opposed ℓ ob.counter r ∧ r ∈ proved ℓ

namespace Standing

theorem within (h : Standing ℓ frame staged obs) (hw : Within ℓ ℓ') :
    Standing ℓ' frame staged obs where
  stands ob hob := by
    obtain ⟨r, hr, hfirst, hin⟩ := h.stands ob hob
    exact ⟨r, hr.suffix hw.suffix, hw.firsts hfirst, fun hstable => hin (hstable.suffix hw.suffix)⟩
  sourced f hf := (h.sourced f hf).imp hw.firsts (guesses_suffix hw.suffix)
  proved ob hob := by
    obtain ⟨r, hr, hproved⟩ := h.proved ob hob
    exact ⟨r, hr.suffix hw.suffix, hw.proved hproved⟩

theorem perm (h : Standing ℓ frame staged obs) (hp : obs.Perm obs') :
    Standing ℓ frame staged obs' :=
  ⟨fun ob hob => h.stands ob (hp.mem_iff.mpr hob), h.sourced, h.proved⟩

theorem carry (h : Standing ℓ frame staged (ob :: obs)) (hcounter : ob'.counter = ob.counter)
    (hproved : ∃ r, Opposed ℓ ob.counter r ∧ r ∈ Invariance.proved ℓ) :
    Standing ℓ frame (staged ++ [ob']) (ob' :: obs) where
  stands o ho := by
    rcases List.mem_cons.mp ho with rfl | ho
    · rw [hcounter]
      exact h.stands ob List.mem_cons_self
    · exact h.stands o (List.mem_cons_of_mem _ ho)
  sourced := h.sourced
  proved o ho := by
    rcases List.mem_append.mp ho with ho | ho
    · exact h.proved o ho
    · obtain rfl := List.mem_singleton.mp ho
      rwa [hcounter]

theorem add (h : Standing ℓ frame staged obs) (hr : Opposed ℓ ob.counter r) (hfirst : r ∈ firsts ℓ)
    (hf : f ∈ guesses ℓ) : Standing ℓ ((frame.insert r).insert f) staged (ob :: obs) := by
  have hcontains : ∀ g, ((frame.insert r).insert f).contains g = true ↔
      g = f ∨ g = r ∨ frame.contains g = true := fun g => by
    rw [Frame.contains_insert, Frame.contains_insert]
  refine ⟨fun o ho => ?_, fun g hg => ?_, h.proved⟩
  · rcases List.mem_cons.mp ho with rfl | ho
    · exact ⟨r, hr, hfirst, fun _ => (hcontains r).mpr (Or.inr (Or.inl rfl))⟩
    · obtain ⟨r', hr', hfirst', hin⟩ := h.stands o ho
      exact ⟨r', hr', hfirst', fun hstable => (hcontains r').mpr (Or.inr (Or.inr (hin hstable)))⟩
  · rcases (hcontains g).mp hg with rfl | rfl | hg
    · exact Or.inr hf
    · exact Or.inl hfirst
    · exact h.sourced g hg

/-- A candidate that is not inductive gives way to a weaker one. The waiting obligations are checked
afterwards. For the others the formula that they answer for was found inductive in this round, so
that with a stable solver it is not the one that was taken out. -/
theorem weaken {waiting : List Obligation} {weaker : Formula}
    (h : Standing ℓ frame staged (ob :: (waiting ++ staged))) (hw : Within ℓ ℓ')
    (hinv : Involutive ℓ') (hproved : ∃ r, Opposed ℓ ob.counter r ∧ r ∈ Invariance.proved ℓ)
    (hf : Stable ℓ' → f ∉ Invariance.proved ℓ) (hweaker : weaker ∈ guesses ℓ')
    (hwaiting : ∀ o ∈ waiting, ∃ g, Opposed ℓ' o.counter g ∧
      ((frame.erase f).insert weaker).contains g = true) :
    Standing ℓ' ((frame.erase f).insert weaker) staged (ob :: (waiting ++ staged)) := by
  have hcontains : ∀ g, ((frame.erase f).insert weaker).contains g = true ↔
      g = weaker ∨ g ≠ f ∧ frame.contains g = true := fun g => by
    rw [Frame.contains_insert, Frame.contains_erase]
  have hkept : ∀ o ∈ ob :: (waiting ++ staged), (∃ r, Opposed ℓ o.counter r ∧
      r ∈ Invariance.proved ℓ) → ∀ r, Opposed ℓ' o.counter r → Stable ℓ' →
      frame.contains r = true → ((frame.erase f).insert weaker).contains r = true := by
    rintro o _ ⟨r', hr', hin⟩ r hr hstable hframe
    obtain rfl := hr.unique hinv (hr'.suffix hw.suffix)
    exact (hcontains r).mpr (Or.inr ⟨fun heq => hf hstable (heq ▸ hin), hframe⟩)
  have h' := h.within hw
  refine ⟨fun o ho => ?_, fun g hg => ?_, h'.proved⟩
  · obtain ⟨r, hr, hfirst, hin⟩ := h'.stands o ho
    refine ⟨r, hr, hfirst, fun hstable => ?_⟩
    rcases List.mem_cons.mp ho with rfl | ho'
    · exact hkept o ho hproved r hr hstable (hin hstable)
    · rcases List.mem_append.mp ho' with ho' | ho'
      · obtain ⟨g, hg, hing⟩ := hwaiting o ho'
        exact hr.unique hinv hg ▸ hing
      · exact hkept o ho (h.proved o ho') r hr hstable (hin hstable)
  · rcases (hcontains g).mp hg with rfl | ⟨_, hg⟩
    · exact Or.inr hweaker
    · exact h'.sourced g hg

end Standing

/-- Between a reset and the end of the rebuilding, and while a property is opened: the frame holds
what the obligations answer for and nothing else. -/
structure Plain (ℓ : List (Note μ)) (frame : Frame) (obs : List Obligation) : Prop where
  stands : ∀ ob ∈ obs, ∃ r, Opposed ℓ ob.counter r ∧ frame.contains r = true
  sourced : ∀ f, frame.contains f = true → f ∈ firsts ℓ ∧ ∃ ob ∈ obs, Opposed ℓ ob.counter f

namespace Plain

theorem empty : Plain ℓ .empty [] := ⟨nofun, fun _ h => by cases h⟩

theorem within (h : Plain ℓ frame obs) (hw : Within ℓ ℓ') : Plain ℓ' frame obs where
  stands ob hob := by
    obtain ⟨r, hr, hin⟩ := h.stands ob hob
    exact ⟨r, hr.suffix hw.suffix, hin⟩
  sourced f hf := by
    obtain ⟨hfirst, ob, hob, hopp⟩ := h.sourced f hf
    exact ⟨hw.firsts hfirst, ob, hob, hopp.suffix hw.suffix⟩

theorem perm (h : Plain ℓ frame obs) (hp : obs.Perm obs') : Plain ℓ frame obs' where
  stands ob hob := h.stands ob (hp.mem_iff.mpr hob)
  sourced f hf := by
    obtain ⟨hfirst, ob, hob, hopp⟩ := h.sourced f hf
    exact ⟨hfirst, ob, hp.mem_iff.mp hob, hopp⟩

theorem add (h : Plain ℓ frame obs) (hr : Opposed ℓ ob.counter r) (hfirst : r ∈ firsts ℓ) :
    Plain ℓ (frame.insert r) (ob :: obs) := by
  refine ⟨fun o ho => ?_, fun g hg => ?_⟩
  · rcases List.mem_cons.mp ho with rfl | ho
    · exact ⟨r, hr, Frame.contains_insert.mpr (Or.inl rfl)⟩
    · obtain ⟨r', hr', hin⟩ := h.stands o ho
      exact ⟨r', hr', Frame.contains_insert.mpr (Or.inr hin)⟩
  · rcases Frame.contains_insert.mp hg with rfl | hg
    · exact ⟨hfirst, ob, List.mem_cons_self, hr⟩
    · obtain ⟨hfirst', o, ho, hopp⟩ := h.sourced g hg
      exact ⟨hfirst', o, List.mem_cons_of_mem _ ho, hopp⟩

theorem standing (h : Plain ℓ frame obs) (hsub : ∀ f, frame.contains f = true →
    frame'.contains f = true) (hnew : ∀ f, frame'.contains f = true → frame.contains f = true ∨
      f ∈ guesses ℓ) : Standing ℓ frame' [] obs where
  stands ob hob := by
    obtain ⟨r, hr, hin⟩ := h.stands ob hob
    exact ⟨r, hr, (h.sourced r hin).1, fun _ => hsub r hin⟩
  sourced f hf := (hnew f hf).imp_left fun hin => (h.sourced f hin).1
  proved := nofun

end Plain

end Invariance
