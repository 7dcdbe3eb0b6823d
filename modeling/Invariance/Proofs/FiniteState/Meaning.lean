import Invariance.Proofs.FiniteState.Sweep

/-!
What a property says. An accepted formula is a tree of conjunctions over sets of states; it holds
in a state exactly if all of its leaves do.
-/

namespace Invariance.FiniteState.Universe

/-- The universes over `n` states that operations on handed-out formulas lead to. -/
inductive Built (n : Nat) : Universe → Prop
  | new : Built n { size := n }
  | ofSet {u u' : Universe} {s : StateSet} {f : Formula} :
      Built n u → u.ofSet s = .ok (f, u') → Built n u'
  | conj {u : Universe} {fs : List Formula} :
      Built n u → (∀ f ∈ fs, u.Live f) → Built n (u.conj fs).2
  | atStep {u : Universe} {f : Formula} {step : Nat} :
      Built n u → u.Live f → Built n (u.atStep f step).2
  | sweep {u : Universe} : Built n u → Built n u.sweep.2

theorem ofSet_made {u u' : Universe} (hu : u.Canonical) {s : StateSet} {f : Formula}
    (h : u.ofSet s = .ok (f, u')) : Made u f (.states s) u' := by
  by_cases hs : s.size = u.size
  · obtain ⟨g, v, hset, hmade⟩ := ofSet_eq hu hs
    obtain ⟨rfl, rfl⟩ := Prod.mk.inj (Except.ok.inj (hset.symm.trans h))
    exact hmade
  · rw [ofSet, if_neg hs] at h
    cases h

theorem Built.canonical {n : Nat} {u : Universe} (h : Built n u) : u.Canonical ∧ u.size = n := by
  induction h with
  | new => exact ⟨⟨by simp, by simp [Names], by simp⟩, rfl⟩
  | ofSet _ hset ih =>
      have hmade := ofSet_made ih.1 hset
      exact ⟨hmade.canonical, hmade.grows.size.trans ih.2⟩
  | conj _ hfs ih =>
      obtain ⟨g, u', heq, hmade⟩ := conj_eq ih.1 hfs
      rw [heq]
      exact ⟨hmade.canonical, hmade.grows.size.trans ih.2⟩
  | atStep _ hf ih =>
      obtain ⟨g, u', heq, hmade⟩ := atStep_eq ih.1 hf _
      rw [heq]
      exact ⟨hmade.canonical, hmade.grows.size.trans ih.2⟩
  | sweep _ ih => exact ⟨sweep_canonical ih.1, ih.2⟩

def Holds (u : Universe) (f : Formula) (x : Nat) : Prop :=
  ∃ s, u.eval f = .ok s ∧ s.contains x = true

theorem holds_of_eval {u : Universe} {f : Formula} {s : StateSet} (h : u.eval f = .ok s) {x : Nat} :
    u.Holds f x ↔ s.contains x = true := by
  constructor
  · rintro ⟨t, ht, hx⟩
    obtain rfl := Except.ok.inj (h.symm.trans ht)
    exact hx
  · exact fun hx => ⟨s, h, hx⟩

theorem holds_iff {u : Universe} {f : Formula} {s : StateSet} (h : u.Names f s) {x : Nat} :
    u.Holds f x ↔ s.contains x = true :=
  holds_of_eval (eval_eq h)

inductive Leaf (u : Universe) : Formula → Formula → Prop
  | self {p : Formula} : u.conjuncts p = none → Leaf u p p
  | inside {p f q : Formula} {fs : List Formula} :
      u.conjuncts p = some fs → f ∈ fs → Leaf u f q → Leaf u p q

inductive Proper (u : Universe) : Nat → Formula → Prop
  | states {n : Nat} {p : Formula} {s : StateSet} : u.Names p s → Proper u (n + 1) p
  | conj {n : Nat} {p : Formula} {fs : List Formula} :
      u.terms[p.id]? = some (.conj fs) → (∀ f ∈ fs, Proper u n f) → Proper u (n + 1) p

theorem conjuncts_of_names {u : Universe} {p : Formula} {s : StateSet} (h : u.Names p s) :
    u.conjuncts p = none := by
  simp only [conjuncts, term, show u.terms[p.id]? = some (.states s) from h]

theorem conjuncts_of_conj {u : Universe} {p : Formula} {fs : List Formula}
    (h : u.terms[p.id]? = some (.conj fs)) : u.conjuncts p = some fs := by
  simp only [conjuncts, term, h]

theorem leaf_of_names {u : Universe} {p q : Formula} {s : StateSet} (h : u.Names p s) :
    u.Leaf p q ↔ q = p := by
  constructor
  · intro hleaf
    cases hleaf with
    | self _ => rfl
    | inside hfs _ _ =>
        rw [conjuncts_of_names h] at hfs
        cases hfs
  · rintro rfl
    exact .self (conjuncts_of_names h)

theorem leaf_of_conj {u : Universe} {p q : Formula} {fs : List Formula}
    (h : u.terms[p.id]? = some (.conj fs)) : u.Leaf p q ↔ ∃ f ∈ fs, u.Leaf f q := by
  constructor
  · intro hleaf
    cases hleaf with
    | self hnone =>
        rw [conjuncts_of_conj h] at hnone
        cases hnone
    | inside hfs hf hq =>
        obtain rfl := Option.some.inj ((conjuncts_of_conj h).symm.trans hfs)
        exact ⟨_, hf, hq⟩
  · rintro ⟨f, hf, hq⟩
    exact .inside (conjuncts_of_conj h) hf hq

theorem Proper.leaf_names {u : Universe} {n : Nat} {p q : Formula} (h : Proper u n p)
    (hq : u.Leaf p q) : ∃ s, u.Names q s := by
  induction h with
  | states hp =>
      obtain rfl := (leaf_of_names hp).mp hq
      exact ⟨_, hp⟩
  | conj hp _ ih =>
      obtain ⟨f, hf, hq⟩ := (leaf_of_conj hp).mp hq
      exact ih f hf hq

theorem meet_eq {n : Nat} {value : Formula → Checked StateSet} :
    ∀ {fs : List Formula} {acc s : StateSet}, acc.size = n →
    fs.foldlM (fun acc g => do Checked.ofExcept (acc.inter (← value g))) acc = .ok s →
    s.size = n ∧ (∀ g ∈ fs, ∃ t, value g = .ok t) ∧
      ∀ x, s.contains x = true ↔
        acc.contains x = true ∧ ∀ g ∈ fs, ∀ t, value g = .ok t → t.contains x = true
  | [], acc, s, hacc, h => by
      obtain rfl := Except.ok.inj h
      exact ⟨hacc, by simp, fun x => by simp⟩
  | g :: fs, acc, s, hacc, h => by
      rw [List.foldlM_cons] at h
      cases hg : value g with
      | error e =>
          simp only [hg, bind, Except.bind] at h
          cases h
      | ok t =>
          simp only [hg, bind, Except.bind] at h
          by_cases ht : acc.size = t.size
          · obtain ⟨r, hr, hrsize, hrc⟩ := StateSet.inter_eq ht
            rw [hr] at h
            obtain ⟨hsize, hall, hc⟩ := meet_eq (hrsize.trans hacc) h
            refine ⟨hsize, List.forall_mem_cons.mpr ⟨⟨t, hg⟩, hall⟩, fun x => ?_⟩
            rw [hc, hrc, List.forall_mem_cons, hg, and_assoc]
            simp
          · rw [StateSet.inter, if_neg ht] at h
            cases h

theorem meet_congr {value value' : Formula → Checked StateSet} {fs gs : List Formula}
    (h : List.Forall₂ (fun f g => value f = value' g) fs gs) (acc : StateSet) :
    fs.foldlM (fun acc f => do Checked.ofExcept (acc.inter (← value f))) acc =
      gs.foldlM (fun acc g => do Checked.ofExcept (acc.inter (← value' g))) acc := by
  induction h generalizing acc with
  | nil => rfl
  | cons hfg _ ih =>
      rw [List.foldlM_cons, List.foldlM_cons, hfg]
      exact bind_congr ih

theorem evalWithin_eq {u : Universe} (hu : u.Canonical) : ∀ {bound : Nat} {p : Formula}
    {s : StateSet}, u.evalWithin bound p = .ok s → u.Proper bound p ∧ s.size = u.size ∧
      ∀ x, s.contains x = true ↔
        x < u.size ∧ ∀ q, u.Leaf p q → ∀ t, u.Names q t → t.contains x = true
  | 0, _, _, h => by cases h
  | bound + 1, p, s, h => by
      rw [evalWithin, term] at h
      cases hp : u.terms[p.id]? with
      | none =>
          rw [hp] at h
          cases h
      | some t =>
          rw [hp] at h
          cases t with
          | states t =>
              obtain rfl := Except.ok.inj h
              refine ⟨.states hp, hu.sized hp, fun x => ?_⟩
              constructor
              · refine fun hx => ⟨hu.sized hp ▸ t.lt_size x hx, fun q hq t' ht' => ?_⟩
                obtain rfl := (leaf_of_names hp).mp hq
                obtain rfl := ht'.eq hp
                exact hx
              · exact fun hx => hx.2 p ((leaf_of_names hp).mpr rfl) t hp
          | atStep f step => cases h
          | conj fs =>
              simp only [bind, Except.bind] at h
              cases hsize : StateSet.allocatable u.size with
              | error v =>
                  rw [hsize] at h
                  cases h
              | ok _ =>
                  rw [hsize] at h
                  obtain ⟨hssize, hall, hc⟩ := meet_eq (n := u.size) rfl h
                  refine ⟨.conj hp fun f hf => ?_, hssize, fun x => ?_⟩
                  · obtain ⟨t, ht⟩ := hall f hf
                    exact (evalWithin_eq hu ht).1
                  · rw [hc, StateSet.contains_full, decide_eq_true_eq]
                    refine and_congr_right fun hx => ?_
                    constructor
                    · intro hx' q hq
                      obtain ⟨f, hf, hq⟩ := (leaf_of_conj hp).mp hq
                      obtain ⟨t, ht⟩ := hall f hf
                      exact (((evalWithin_eq hu ht).2.2 x).mp (hx' f hf t ht)).2 q hq
                    · intro hx' f hf t ht
                      refine ((evalWithin_eq hu ht).2.2 x).mpr ⟨hx, fun q hq => ?_⟩
                      exact hx' q ((leaf_of_conj hp).mpr ⟨f, hf, hq⟩)

theorem size_of_eval {u : Universe} (hu : u.Canonical) {p : Formula} {s : StateSet}
    (h : u.eval p = .ok s) : s.size = u.size :=
  (evalWithin_eq hu h).2.1

def Accepts (u : Universe) (p : Formula) : Prop := ∃ s, u.eval p = .ok s

theorem Accepts.proper {u : Universe} (hu : u.Canonical) {p : Formula} (h : u.Accepts p) :
    u.Proper (u.length + 1) p := by
  obtain ⟨s, hs⟩ := h
  exact (evalWithin_eq hu hs).1

theorem Accepts.holds_iff {u : Universe} (hu : u.Canonical) {p : Formula} (h : u.Accepts p)
    {x : Nat} (hx : x < u.size) : u.Holds p x ↔ ∀ q, u.Leaf p q → u.Holds q x := by
  obtain ⟨s, hs⟩ := h
  obtain ⟨hproper, _, hc⟩ := evalWithin_eq hu hs
  rw [holds_of_eval hs, hc]
  constructor
  · rintro ⟨_, hall⟩ q hq
    obtain ⟨t, ht⟩ := hproper.leaf_names hq
    exact (Universe.holds_iff ht).mpr (hall q hq t ht)
  · refine fun hall => ⟨hx, fun q hq t ht => ?_⟩
    exact (Universe.holds_iff ht).mp (hall q hq)

theorem Accepts.holds_of_leaves {u : Universe} (hu : u.Canonical) {p : Formula} (h : u.Accepts p)
    {x : Nat} (hx : x < u.size)
    (hall : ∀ q r, u.Leaf p q → u.Names q r → r.contains x = true) : u.Holds p x := by
  refine (h.holds_iff hu hx).mpr fun q hq => ?_
  obtain ⟨r, hr⟩ := (h.proper hu).leaf_names hq
  exact (Universe.holds_iff hr).mpr (hall q r hq hr)

theorem Accepts.not_holds {u : Universe} (hu : u.Canonical) {p q : Formula} (h : u.Accepts p)
    {r : StateSet} {x : Nat} (hq : u.Leaf p q) (hr : u.Names q r) (hout : r.contains x = false) :
    ¬ u.Holds p x := by
  rintro ⟨s, hs, hx⟩
  have hlt : x < u.size := size_of_eval hu hs ▸ s.lt_size x hx
  have hin := (Universe.holds_iff hr).mp ((h.holds_iff hu hlt).mp ⟨s, hs, hx⟩ q hq)
  rw [hout] at hin
  cases hin

end Invariance.FiniteState.Universe
