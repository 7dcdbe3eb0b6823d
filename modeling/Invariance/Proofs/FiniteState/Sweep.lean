import Invariance.Proofs.FiniteState.Terms

/-!
A sweep of a canonical universe leaves a canonical one, and every name of a set of states has a
name of the same set as its successor. Terms are looked at in order and a term is made of earlier
ones, so the fate of all its arguments is known when its own is decided.
-/

namespace Invariance.FiniteState

theorem mapM_eq_some {α β : Type} {a : α → Option β} {l : List α} : ∀ {l' : List β},
    l.mapM a = some l' ↔ List.Forall₂ (fun x y => a x = some y) l l' := by
  induction l with
  | nil => intro l'; simp [eq_comm]
  | cons x l ih =>
      intro l'
      rw [List.mapM_cons]
      constructor
      · intro h
        obtain ⟨y, hy, h⟩ := Option.bind_eq_some_iff.mp h
        obtain ⟨ys, hys, h⟩ := Option.bind_eq_some_iff.mp h
        obtain rfl := Option.some.inj h
        exact .cons hy (ih.mp hys)
      · intro h
        rcases h with _ | ⟨hy, hys⟩
        simp [hy, ih.mpr hys]

theorem mapM_congr {α β : Type} {a b : α → Option β} {l : List α} (h : ∀ x ∈ l, a x = b x) :
    l.mapM a = l.mapM b := by
  induction l with
  | nil => rfl
  | cons x l ih =>
      rw [List.mapM_cons, List.mapM_cons, h x List.mem_cons_self,
        ih fun y hy => h y (List.mem_cons_of_mem _ hy)]

theorem mapM_injective {α β : Type} {a : α → Option β} {l₁ l₂ : List α} {l' : List β}
    (ha : ∀ x ∈ l₁, ∀ y ∈ l₂, ∀ z, a x = some z → a y = some z → x = y)
    (h₁ : l₁.mapM a = some l') (h₂ : l₂.mapM a = some l') : l₁ = l₂ := by
  have key : List.Forall₂ (fun x y => a x = some y) l₁ l' →
      List.Forall₂ (fun x y => a x = some y) l₂ l' → l₁ = l₂ := by
    clear h₁ h₂
    induction l' generalizing l₁ l₂ with
    | nil =>
        intro h₁ h₂
        rw [List.forall₂_nil_right_iff.mp h₁, List.forall₂_nil_right_iff.mp h₂]
    | cons z l' ih =>
        intro h₁ h₂
        rcases h₁ with _ | ⟨hx, h₁⟩
        rcases h₂ with _ | ⟨hy, h₂⟩
        rw [ha _ List.mem_cons_self _ List.mem_cons_self z hx hy, ih (fun x hx y hy =>
          ha x (List.mem_cons_of_mem _ hx) y (List.mem_cons_of_mem _ hy)) h₁ h₂]
  exact key (mapM_eq_some.mp h₁) (mapM_eq_some.mp h₂)

namespace Universe

theorem survivor_congr {r r' : Relocation} {t : Term} (h : ∀ g ∈ t.args, r.apply g = r'.apply g) :
    survivor r t = survivor r' t := by
  cases t with
  | states s => rfl
  | conj fs => exact congrArg (Option.map Term.conj) (mapM_congr h)
  | atStep f step => rfl

theorem survivor_args {r : Relocation} {t t' : Term} (h : survivor r t = some t') {g' : Formula}
    (hg : g' ∈ t'.args) : ∃ g ∈ t.args, r.apply g = some g' := by
  cases t with
  | states s =>
      obtain rfl := Option.some.inj h
      cases hg
  | conj fs =>
      obtain ⟨fs', hfs, rfl⟩ := Option.map_eq_some_iff.mp h
      obtain ⟨i, hi, rfl⟩ := List.mem_iff_getElem.mp hg
      have hall := List.forall₂_iff_get.mp (mapM_eq_some.mp hfs)
      have hi' : i < fs.length := hall.1.symm ▸ hi
      exact ⟨fs[i], List.getElem_mem hi', hall.2 i hi' hi⟩
  | atStep f step => cases h

theorem survivor_injective {r : Relocation} {t₁ t₂ t' : Term}
    (hr : ∀ f ∈ t₁.args, ∀ g ∈ t₂.args, ∀ h, r.apply f = some h → r.apply g = some h → f = g)
    (h₁ : survivor r t₁ = some t') (h₂ : survivor r t₂ = some t') : t₁ = t₂ := by
  cases t₁ with
  | atStep f step => cases h₁
  | states s =>
      obtain rfl := Option.some.inj h₁
      cases t₂ with
      | states s' => exact (Option.some.inj h₂).symm
      | conj fs =>
          obtain ⟨fs', _, heq⟩ := Option.map_eq_some_iff.mp h₂
          cases heq
      | atStep f step => cases h₂
  | conj fs =>
      obtain ⟨fs', hfs, rfl⟩ := Option.map_eq_some_iff.mp h₁
      cases t₂ with
      | states s => cases h₂
      | conj gs =>
          obtain ⟨gs', hgs, heq⟩ := Option.map_eq_some_iff.mp h₂
          injection heq with heq
          subst heq
          exact congrArg Term.conj (mapM_injective hr hfs hgs)
      | atStep f step => cases h₂

/-- A sweep that has come as far as `k`: the formulas from there on are as they were, and below
there what survives has moved down in order and without a gap. -/
structure Swept (u : Universe) (k : Nat) (r : Relocation) (terms : Array Term) : Prop where
  le : terms.size ≤ k
  rest : ∀ {f : Formula}, k ≤ f.id → r.apply f = some f
  lost : ∀ {f : Formula} {t : Term}, f.id < k → u.terms[f.id]? = some t → survivor r t = none →
    r.apply f = none
  moved : ∀ {f : Formula} {t t' : Term}, f.id < k → u.terms[f.id]? = some t →
    survivor r t = some t' → ∃ g, r.apply f = some g ∧ terms[g.id]? = some t'
  onto : ∀ {j : Nat} {t' : Term}, terms[j]? = some t' →
    ∃ f t, f.id < k ∧ u.terms[f.id]? = some t ∧ r.apply f = some ⟨j⟩ ∧ survivor r t = some t'
  mono : ∀ {f g f' g' : Formula}, f.id < g.id → g.id < k → r.apply f = some f' →
    r.apply g = some g' → f'.id < g'.id
  below : ∀ {f f' : Formula}, f.id < k → r.apply f = some f' → f'.id < terms.size

namespace Swept

variable {u : Universe} {k : Nat} {r : Relocation} {terms : Array Term}

theorem injective (h : Swept u k r terms) {f g f' : Formula} (hf : f.id < k) (hg : g.id < k)
    (hf' : r.apply f = some f') (hg' : r.apply g = some f') : f = g := by
  rcases Nat.lt_trichotomy f.id g.id with hlt | heq | hlt
  · exact absurd (h.mono hlt hg hf' hg') (Nat.lt_irrefl _)
  · exact congrArg Formula.mk heq
  · exact absurd (h.mono hlt hf hg' hf') (Nat.lt_irrefl _)

theorem survivor_eq (hu : u.Canonical) {r' : Relocation}
    (hr : ∀ f, f.id ≠ k → r'.apply f = r.apply f) {f : Formula} {t : Term} (hf : f.id < k + 1)
    (ht : u.terms[f.id]? = some t) : survivor r' t = survivor r t :=
  survivor_congr fun g hg => hr g (by
    have := hu.earlier ht g hg
    omega)

theorem step_lost (hu : u.Canonical) (h : Swept u k r terms) {t : Term}
    (ht : u.terms[k]? = some t) (hlost : survivor r t = none) :
    Swept u (k + 1) (r.collect ⟨k⟩) terms := by
  have happly : ∀ f, (r.collect ⟨k⟩).apply f = if f = ⟨k⟩ then none else r.apply f :=
    r.apply_collect ⟨k⟩
  have hother : ∀ f : Formula, f.id ≠ k → (r.collect ⟨k⟩).apply f = r.apply f := fun f hf => by
    rw [happly, if_neg fun heq => hf (congrArg Formula.id heq)]
  have hself : (r.collect ⟨k⟩).apply ⟨k⟩ = none := by rw [happly, if_pos rfl]
  have hsurv : ∀ {f : Formula} {t' : Term}, f.id < k + 1 → u.terms[f.id]? = some t' →
      survivor (r.collect ⟨k⟩) t' = survivor r t' := survivor_eq hu hother
  have hcase : ∀ {f : Formula}, f.id < k + 1 → f.id < k ∨ f = ⟨k⟩ := fun {f} hf =>
    (Nat.lt_succ_iff_lt_or_eq.mp hf).imp_right (congrArg Formula.mk)
  refine
    { le := Nat.le_succ_of_le h.le, rest := fun hf => ?_, lost := fun hf ht' hs => ?_
      moved := fun hf ht' hs => ?_, onto := fun hj => ?_, mono := fun hfg hg hf' hg' => ?_
      below := fun hf hf' => ?_ }
  · rw [hother _ (by omega)]
    exact h.rest (by omega)
  · rcases hcase hf with hf | rfl
    · rw [hother _ (Nat.ne_of_lt hf)]
      exact h.lost hf ht' ((hsurv (by omega) ht').symm.trans hs)
    · exact hself
  · rw [hsurv hf ht'] at hs
    rcases hcase hf with hf | rfl
    · rw [hother _ (Nat.ne_of_lt hf)]
      exact h.moved hf ht' hs
    · obtain rfl := Option.some.inj (ht.symm.trans ht')
      rw [hlost] at hs
      cases hs
  · obtain ⟨f, t', hf, ht', hmove, hs⟩ := h.onto hj
    exact ⟨f, t', by omega, ht', (hother _ (Nat.ne_of_lt hf)).trans hmove,
      (hsurv (by omega) ht').trans hs⟩
  · rcases hcase hg with hg | rfl
    · rw [hother _ (by omega)] at hf' hg'
      exact h.mono hfg hg hf' hg'
    · rw [hself] at hg'
      cases hg'
  · rcases hcase hf with hf | rfl
    · rw [hother _ (Nat.ne_of_lt hf)] at hf'
      exact h.below hf hf'
    · rw [hself] at hf'
      cases hf'

theorem step_moved (hu : u.Canonical) (h : Swept u k r terms) {r' : Relocation} {t t' : Term}
    (ht : u.terms[k]? = some t) (hkept : survivor r t = some t')
    (happly : ∀ f, r'.apply f = if f = ⟨k⟩ then some ⟨terms.size⟩ else r.apply f) :
    Swept u (k + 1) r' (terms.push t') := by
  have hother : ∀ f : Formula, f.id ≠ k → r'.apply f = r.apply f := fun f hf => by
    rw [happly, if_neg fun heq => hf (congrArg Formula.id heq)]
  have hself : r'.apply ⟨k⟩ = some ⟨terms.size⟩ := by rw [happly, if_pos rfl]
  have hsurv : ∀ {f : Formula} {t' : Term}, f.id < k + 1 → u.terms[f.id]? = some t' →
      survivor r' t' = survivor r t' := survivor_eq hu hother
  have hcase : ∀ {f : Formula}, f.id < k + 1 → f.id < k ∨ f = ⟨k⟩ := fun {f} hf =>
    (Nat.lt_succ_iff_lt_or_eq.mp hf).imp_right (congrArg Formula.mk)
  have hpush : ∀ {j : Nat} {t'' : Term}, terms[j]? = some t'' →
      (terms.push t')[j]? = some t'' := fun hj => by
    rw [Array.getElem?_push, if_neg (Nat.ne_of_lt (Array.getElem?_eq_some_iff.mp hj).1), hj]
  refine
    { le := by simpa using h.le, rest := fun hf => ?_, lost := fun hf ht'' hs => ?_
      moved := fun hf ht'' hs => ?_, onto := fun hj => ?_, mono := fun hfg hg hf' hg' => ?_
      below := fun hf hf' => ?_ }
  · rw [hother _ (by omega)]
    exact h.rest (by omega)
  · rw [hsurv hf ht''] at hs
    rcases hcase hf with hf | rfl
    · rw [hother _ (Nat.ne_of_lt hf)]
      exact h.lost hf ht'' hs
    · obtain rfl := Option.some.inj (ht.symm.trans ht'')
      rw [hkept] at hs
      cases hs
  · rw [hsurv hf ht''] at hs
    rcases hcase hf with hf | rfl
    · obtain ⟨g, hg, hstored⟩ := h.moved hf ht'' hs
      exact ⟨g, (hother _ (Nat.ne_of_lt hf)).trans hg, hpush hstored⟩
    · obtain rfl := Option.some.inj (ht.symm.trans ht'')
      obtain rfl := Option.some.inj (hkept.symm.trans hs)
      exact ⟨⟨terms.size⟩, hself, Array.getElem?_push_size⟩
  · rw [Array.getElem?_push] at hj
    split at hj
    next hsize =>
      obtain rfl := Option.some.inj hj
      subst hsize
      exact ⟨⟨k⟩, t, Nat.lt_succ_self k, ht, hself, (hsurv (Nat.lt_succ_self k) ht).trans hkept⟩
    next =>
      obtain ⟨f, t'', hf, ht'', hmove, hs⟩ := h.onto hj
      exact ⟨f, t'', by omega, ht'', (hother _ (Nat.ne_of_lt hf)).trans hmove,
        (hsurv (by omega) ht'').trans hs⟩
  · rcases hcase hg with hg | rfl
    · rw [hother _ (by omega)] at hf' hg'
      exact h.mono hfg hg hf' hg'
    · obtain rfl := Option.some.inj (hself.symm.trans hg')
      rw [hother _ (Nat.ne_of_lt hfg)] at hf'
      exact h.below hfg hf'
  · rw [Array.size_push]
    rcases hcase hf with hf | rfl
    · rw [hother _ (Nat.ne_of_lt hf)] at hf'
      exact Nat.lt_succ_of_lt (h.below hf hf')
    · obtain rfl := Option.some.inj (hself.symm.trans hf')
      exact Nat.lt_succ_self _

theorem step (hu : u.Canonical) (h : Swept u k r terms) {t : Term} (ht : u.terms[k]? = some t) :
    Swept u (k + 1) (sweepTerm (r, terms) (t, k)).1 (sweepTerm (r, terms) (t, k)).2 := by
  rw [sweepTerm]
  cases hs : survivor r t with
  | none => exact step_lost hu h ht hs
  | some t' =>
      refine step_moved hu h ht hs fun f => ?_
      by_cases hsize : terms.size = k
      · simp only [hsize, if_true]
        by_cases hf : f = ⟨k⟩
        · rw [if_pos hf, hf, h.rest (Nat.le_refl k)]
        · rw [if_neg hf]
      · simp only [hsize, if_false]
        exact r.apply_move ⟨k⟩ ⟨terms.size⟩ f

end Swept

theorem sweep_swept {u : Universe} (hu : u.Canonical) :
    Swept u u.length u.sweep.1 u.sweep.2.terms := by
  have key : ∀ (l : List Term) (k : Nat) (acc : Relocation × Array Term),
      u.terms.toList.drop k = l → k + l.length = u.length → Swept u k acc.1 acc.2 →
      Swept u u.length ((l.zipIdx k).foldl sweepTerm acc).1
        ((l.zipIdx k).foldl sweepTerm acc).2 := by
    intro l
    induction l with
    | nil =>
        intro k acc _ hk h
        obtain rfl : k = u.length := hk
        exact h
    | cons t l ih =>
        intro k acc hdrop hk h
        have ht : u.terms[k]? = some t := by
          rw [← Array.getElem?_toList, ← List.head?_drop, hdrop, List.head?_cons]
        have hrest : u.terms.toList.drop (k + 1) = l := by
          rw [← List.tail_drop, hdrop, List.tail_cons]
        rw [List.zipIdx_cons, List.foldl_cons]
        exact ih (k + 1) _ hrest (by simpa [Nat.add_right_comm, Nat.add_assoc] using hk)
          (h.step hu ht)
  refine key u.terms.toList 0 ({}, #[]) rfl ?_ ⟨by simp, fun _ => rfl, ?_, ?_, ?_, ?_, ?_⟩
  · simp [length]
  · exact fun hf => absurd hf (Nat.not_lt_zero _)
  · exact fun hf => absurd hf (Nat.not_lt_zero _)
  · simp
  · exact fun _ hg => absurd hg (Nat.not_lt_zero _)
  · exact fun hf => absurd hf (Nat.not_lt_zero _)

theorem sweep_names {u : Universe} (hu : u.Canonical) {f : Formula} {s : StateSet}
    (h : u.Names f s) : ∃ g, u.sweep.1.apply f = some g ∧ u.sweep.2.Names g s :=
  (sweep_swept hu).moved h.live h rfl

theorem sweep_canonical {u : Universe} (hu : u.Canonical) : u.sweep.2.Canonical := by
  have h := sweep_swept hu
  refine ⟨fun {i j t'} hi hj => ?_, fun {f s} hf => ?_, fun {i t'} hi g' hg' => ?_⟩
  · obtain ⟨f, t, hf, ht, hmove, hs⟩ := h.onto hi
    obtain ⟨g, t₂, hg, ht₂, hmove₂, hs₂⟩ := h.onto hj
    obtain rfl : t = t₂ := by
      refine survivor_injective (fun a ha b hb c hac hbc => ?_) hs hs₂
      exact h.injective (Nat.lt_trans (hu.earlier ht a ha) hf)
        (Nat.lt_trans (hu.earlier ht₂ b hb) hg) hac hbc
    obtain rfl : f = g := congrArg Formula.mk (hu.unique ht ht₂)
    exact congrArg Formula.id (Option.some.inj (hmove.symm.trans hmove₂))
  · obtain ⟨g, t, hg, ht, _, hs⟩ := h.onto hf
    cases t with
    | states s' =>
        obtain ⟨⟩ := hs
        exact hu.sized ht
    | conj fs =>
        obtain ⟨_, _, heq⟩ := Option.map_eq_some_iff.mp hs
        cases heq
    | atStep _ _ => cases hs
  · obtain ⟨f, t, hf, ht, hmove, hs⟩ := h.onto hi
    obtain ⟨g, hg, hgmove⟩ := survivor_args hs hg'
    exact h.mono (hu.earlier ht g hg) hf hgmove hmove

theorem sweep_size (u : Universe) : u.sweep.2.size = u.size := rfl

end Universe

end Invariance.FiniteState
