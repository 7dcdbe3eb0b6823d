import Invariance.Proofs.FiniteState.Induction

/-!
What the path solver answers. Its constraints meet, step by step, all that is asserted of that
step, and it finds a path from an initial state along them exactly if there is one.
-/

namespace Invariance

def Machine.Fits (M : Machine) (n : Nat) : Prop :=
  ∀ k, k ≤ n → M.counts k = true ∧ M.lists k = true

theorem Machine.Fits.mono {M : Machine} {n m : Nat} (h : M.Fits n) (hm : m ≤ n) : M.Fits m :=
  fun k hk => h k (Nat.le_trans hk hm)

theorem Machine.Fits.add_eq {M : Machine} {n a b : Nat} (h : M.Fits n) (hab : a + b ≤ n) :
    M.add a b = .ok (a + b) := by
  rw [Machine.add, (h _ hab).1, if_pos rfl]

theorem Machine.Fits.allot_eq {M : Machine} {n k : Nat} (h : M.Fits n) (hk : k ≤ n) :
    M.allot k = .ok () := by
  rw [Machine.allot, (h k hk).2, if_pos rfl]

namespace FiniteState

def Universe.Demands (u : Universe) (f : Formula) (s : StateSet) (k : Nat) : Prop :=
  ∃ g, u.terms[f.id]? = some (.atStep g k) ∧ u.Names g s

theorem Universe.Demands.eq {u : Universe} {f : Formula} {s s' : StateSet} {k k' : Nat}
    (h : u.Demands f s k) (h' : u.Demands f s' k') : s = s' ∧ k = k' := by
  obtain ⟨g, hg, hs⟩ := h
  obtain ⟨g', hg', hs'⟩ := h'
  have heq := Option.some.inj (hg.symm.trans hg')
  injection heq with hgg hk
  subst hgg
  exact ⟨hs.eq hs', hk⟩

theorem Universe.Demands.extend {u u' : Universe} {f : Formula} {s : StateSet} {k : Nat}
    (h : u.Demands f s k) (hext : Universe.Extends u u') : u'.Demands f s k := by
  obtain ⟨g, hg, hs⟩ := h
  exact ⟨g, hext.kept hg, hext.names hs⟩

theorem Universe.stepFormula_eq {u : Universe} {f : Formula} {s : StateSet} {k : Nat}
    (h : u.Demands f s k) : u.stepFormula f = .ok (s, k) := by
  obtain ⟨g, hg, hs⟩ := h
  simp only [stepFormula, term, hg, eval_eq hs, bind, Except.bind]
  rfl

theorem Universe.stepFormula_eq_ok {u : Universe} {f : Formula} {s : StateSet} {k : Nat} :
    u.stepFormula f = .ok (s, k) ↔
      ∃ g, u.terms[f.id]? = some (.atStep g k) ∧ u.eval g = .ok s := by
  constructor
  · intro h
    rw [stepFormula, term] at h
    cases hf : u.terms[f.id]? with
    | none =>
        rw [hf] at h
        cases h
    | some t =>
        rw [hf] at h
        cases t with
        | states _ => cases h
        | conj _ => cases h
        | atStep g k' =>
            obtain ⟨s', hs, hk⟩ := bind_eq_ok.mp h
            cases hk
            exact ⟨g, rfl, hs⟩
  · rintro ⟨g, hg, hs⟩
    simp only [stepFormula, term, hg, hs, bind, Except.bind]
    rfl

theorem Universe.stepFormula_unique {u : Universe} {f : Formula} {s s' : StateSet} {k k' : Nat}
    (h : u.stepFormula f = .ok (s, k)) (h' : u.stepFormula f = .ok (s', k')) :
    s = s' ∧ k = k' :=
  Prod.mk.inj (Except.ok.inj (h.symm.trans h'))

theorem Universe.Demands.stepFormula_iff {u : Universe} {f : Formula} {s s' : StateSet}
    {k k' : Nat} (h : u.Demands f s k) :
    u.stepFormula f = .ok (s', k') ↔ u.Demands f s' k' := by
  refine ⟨fun h' => ?_, stepFormula_eq⟩
  obtain ⟨rfl, rfl⟩ := stepFormula_unique (stepFormula_eq h) h'
  exact h

namespace PathSolver

open TransitionSystem Universe

theorem assert_eq {u : Universe} {f : Formula} {s : StateSet} {k : Nat} (h : u.Demands f s k)
    (solver : PathSolver) :
    ∃ solver', solver.assert u f = .ok solver' ∧ solver'.asserted = solver.asserted ++ [f] ∧
      solver'.opened.length = solver.opened.length := by
  cases hopened : solver.opened with
  | nil =>
      refine ⟨{ solver with base := solver.base ++ [f] }, ?_, ?_, by simp [hopened]⟩
      · simp only [assert, stepFormula_eq h, bind, Except.bind, hopened]
        rfl
      · simp [asserted, hopened]
  | cons scope rest =>
      refine ⟨{ solver with opened := (scope ++ [f]) :: rest }, ?_, ?_, by simp⟩
      · simp only [assert, stepFormula_eq h, bind, Except.bind, hopened]
        rfl
      · simp [asserted, hopened]

def Lets (n : Nat) (row : Array StateSet) (k x : Nat) : Prop :=
  x < n ∧ ∀ s, row[k]? = some s → s.contains x = true

variable {M : Machine} {n : Nat} {row : Array StateSet}

theorem lengthen_eq (hrow : ∀ s ∈ row, s.size = n) {step : Nat} (hM : M.Fits (step + 1)) :
    ∃ row', lengthen M n row step = .ok row' ∧ row'.size = max row.size (step + 1) ∧
      (∀ s ∈ row', s.size = n) ∧ ∀ k x, Lets n row' k x ↔ Lets n row k x := by
  rw [lengthen]
  by_cases hstep : step < row.size
  · rw [if_pos hstep]
    exact ⟨row, rfl, by omega, hrow, fun _ _ => Iff.rfl⟩
  · rw [if_neg hstep]
    refine ⟨row ++ Array.replicate (step + 1 - row.size) (.full n), ?_, ?_, ?_, fun k x => ?_⟩
    · simp only [hM.add_eq (Nat.le_refl _), hM.allot_eq (Nat.le_refl _), bind, Except.bind]
      rfl
    · simp only [Array.size_append, Array.size_replicate]
      omega
    · intro s hs
      rcases Array.mem_append.mp hs with hs | hs
      · exact hrow s hs
      · rw [(Array.mem_replicate.mp hs).2]
        rfl
    · refine and_congr_right fun hx => ?_
      rw [Array.getElem?_append]
      split
      next => rfl
      next hk =>
        rw [Array.getElem?_eq_none (Nat.le_of_not_lt hk), Array.getElem?_replicate]
        simp [StateSet.contains_full, hx]

theorem tighten_eq (hrow : ∀ s ∈ row, s.size = n) {s : StateSet} (hs : s.size = n) {step : Nat}
    (hM : M.Fits (step + 1)) :
    ∃ row', tighten M n row s step = .ok row' ∧ row'.size = max row.size (step + 1) ∧
      (∀ s ∈ row', s.size = n) ∧
      ∀ k x, Lets n row' k x ↔ Lets n row k x ∧ (k = step → s.contains x = true) := by
  obtain ⟨row₁, hlengthen, hsize, hsizes, hlets⟩ := lengthen_eq hrow hM
  have hstep : step < row₁.size := by omega
  obtain ⟨r, hr, hrsize, hrc⟩ :=
    StateSet.inter_eq ((hsizes row₁[step] (Array.getElem_mem hstep)).trans hs.symm)
  refine ⟨row₁.set step r hstep, ?_, by rw [Array.size_set, hsize], ?_, fun k x => ?_⟩
  · simp only [tighten, hlengthen, Array.getElem?_eq_getElem hstep, hr, bind, Except.bind,
      Array.setIfInBounds, dif_pos hstep]
    rfl
  · intro t ht
    rcases Array.mem_or_eq_of_mem_set ht with ht | rfl
    · exact hsizes t ht
    · rw [hrsize, hsizes _ (Array.getElem_mem hstep)]
  · rw [← hlets, Lets, Lets, and_assoc]
    refine and_congr_right fun _ => ?_
    rw [Array.getElem?_set]
    by_cases hk : step = k
    · subst hk
      rw [if_pos rfl, Array.getElem?_eq_getElem hstep]
      simp [hrc]
    · simp [hk, Ne.symm hk]

theorem row_eq {u : Universe} :
    ∀ {fs : List Formula} {row : Array StateSet}, (∀ s ∈ row, s.size = n) →
    (∀ f ∈ fs, ∃ s k, u.stepFormula f = .ok (s, k) ∧ s.size = n ∧ M.Fits (k + 1)) →
    ∃ row', fs.foldlM (fun acc f => do
        let (s, step) ← u.stepFormula f
        Checked.ofExcept (tighten M n acc s step)) row = .ok row' ∧
      (∀ s ∈ row', s.size = n) ∧ row.size ≤ row'.size ∧
      (∀ f ∈ fs, ∀ s k, u.stepFormula f = .ok (s, k) → k < row'.size) ∧
      (row'.size = row.size ∨
        ∃ f ∈ fs, ∃ s k, u.stepFormula f = .ok (s, k) ∧ row'.size = k + 1) ∧
      ∀ k x, Lets n row' k x ↔
        Lets n row k x ∧ ∀ f ∈ fs, ∀ s, u.stepFormula f = .ok (s, k) → s.contains x = true
  | [], row, hrow, _ => ⟨row, rfl, hrow, Nat.le_refl _, by simp, Or.inl rfl, by simp⟩
  | f :: fs, row, hrow, hfs => by
      obtain ⟨s, step, hf, hs, hM⟩ := hfs f List.mem_cons_self
      obtain ⟨row₁, htighten, hsize₁, hsizes₁, hlets₁⟩ := tighten_eq hrow hs hM
      obtain ⟨row', hfold, hsizes, hle, hbelow, hlast, hlets⟩ :=
        row_eq hsizes₁ fun g hg => hfs g (List.mem_cons_of_mem _ hg)
      refine ⟨row', ?_, hsizes, by omega, List.forall_mem_cons.mpr ⟨fun s' k h => ?_, hbelow⟩, ?_,
        fun k x => ?_⟩
      · rw [List.foldlM_cons]
        simp only [hf, bind, Except.bind, htighten]
        exact hfold
      · obtain ⟨_, rfl⟩ := stepFormula_unique hf h
        omega
      · rcases hlast with hlast | ⟨g, hg, t, k, hd, hk⟩
        · by_cases hold : row.size < step + 1
          · exact Or.inr ⟨f, List.mem_cons_self, s, step, hf, by omega⟩
          · exact Or.inl (by omega)
        · exact Or.inr ⟨g, List.mem_cons_of_mem _ hg, t, k, hd, hk⟩
      · rw [hlets, hlets₁, List.forall_mem_cons, and_assoc]
        refine and_congr_right fun _ => and_congr_left fun _ => ?_
        constructor
        · intro h s' hd
          obtain ⟨rfl, rfl⟩ := stepFormula_unique hf hd
          exact h rfl
        · rintro h rfl
          exact h s hf

/-- The constraints are as many as the last step with one asks for, and a single one if there is
none. -/
theorem constraints_eq {u : Universe} {fs : List Formula} {K : Nat}
    (hfs : ∀ f ∈ fs, ∃ s k, u.stepFormula f = .ok (s, k) ∧ s.size = n ∧ k ≤ K ∧ M.Fits (k + 1))
    (hlast : K = 0 ∨ ∃ f ∈ fs, ∃ s, u.stepFormula f = .ok (s, K)) :
    ∃ row, constraints M u n fs = .ok row ∧ row.size = K + 1 ∧ (∀ s ∈ row, s.size = n) ∧
      ∀ k x, Lets n row k x ↔
        x < n ∧ ∀ f ∈ fs, ∀ s, u.stepFormula f = .ok (s, k) → s.contains x = true := by
  have hnone : ∀ s ∈ (#[] : Array StateSet), s.size = n := by simp
  obtain ⟨row, hrow, hsizes, _, hbelow, htop, hlets⟩ := row_eq (M := M) hnone fun f hf => by
    obtain ⟨s, k, hd, hs, _, hM⟩ := hfs f hf
    exact ⟨s, k, hd, hs, hM⟩
  rcases htop with hzero | ⟨g, hg, t, k, hd, hk⟩
  · have hempty : ∀ f, f ∉ fs := fun f hf => by
      obtain ⟨s, k, hd, _⟩ := hfs f hf
      have hk := hbelow f hf s k hd
      rw [hzero] at hk
      exact Nat.not_lt_zero k hk
    obtain rfl : K = 0 := hlast.resolve_right fun ⟨f, hf, _⟩ => hempty f hf
    refine ⟨#[.full n], ?_, rfl, by simp [StateSet.full], fun k x => ?_⟩
    · rw [constraints, hrow]
      simp [bind, Except.bind, Array.eq_empty_of_size_eq_zero hzero, pure, Except.pure]
    · refine and_congr_right fun hx =>
        iff_of_true (fun s hs => ?_) fun f hf => absurd hf (hempty f)
      obtain ⟨_, rfl⟩ := Array.getElem?_eq_some_iff.mp hs
      simp [StateSet.contains_full, hx]
  · have hkle : k ≤ K := by
      obtain ⟨t', k', hd', _, hk', _⟩ := hfs g hg
      obtain ⟨_, rfl⟩ := stepFormula_unique hd hd'
      exact hk'
    have hK : K = k := by
      rcases hlast with rfl | ⟨f, hf, s, hf'⟩
      · exact (Nat.le_zero.mp hkle).symm
      · have hlt := hbelow f hf s K hf'
        omega
    have hnonempty : row.isEmpty = false := by
      rw [Array.isEmpty_eq_false_iff, ← Array.size_pos_iff]
      omega
    refine ⟨row, ?_, hK ▸ hk, hsizes, fun k x => ?_⟩
    · rw [constraints, hrow]
      simp [bind, Except.bind, hnonempty, pure, Except.pure]
    · rw [hlets]
      simp [Lets]

structure Models (sys : TransitionSystem) (u : Universe) (fs : List Formula) (path : List Nat) :
    Prop where
  chain : path.IsChain sys.Edge
  start : ∀ x ∈ path.head?, sys.Initial x
  obeys : ∀ f ∈ fs, ∀ (s : StateSet) (k x : Nat), u.Demands f s k → path[k]? = some x →
    s.contains x = true

namespace Models

variable {sys : TransitionSystem} {u u' : Universe} {fs : List Formula} {path : List Nat}

theorem lt_size (h : Models sys u fs path) {k x : Nat} (hx : path[k]? = some x) : x < sys.size :=
  lt_size_of_path h.chain h.start x (List.mem_of_getElem? hx)

theorem extend (h : Models sys u fs path) (hall : ∀ f ∈ fs, ∃ s k, u.Demands f s k)
    (hext : Extends u u') : Models sys u' fs path where
  chain := h.chain
  start := h.start
  obeys f hf s k x hd hx := by
    obtain ⟨s', k', hd'⟩ := hall f hf
    obtain ⟨rfl, rfl⟩ := hd.eq (hd'.extend hext)
    exact h.obeys f hf s k x hd' hx

theorem single {x : Nat} (hx : sys.Initial x) {f : Formula} {s : StateSet} (hf : u.Demands f s 0)
    (hs : s.contains x = true) : Models sys u [f] [x] where
  chain := .singleton x
  start := by simpa using hx
  obeys g hg t k y hd hy := by
    obtain rfl := List.mem_singleton.mp hg
    obtain ⟨rfl, rfl⟩ := hd.eq hf
    exact Option.some.inj hy ▸ hs

theorem snoc (h : Models sys u fs path)
    (hall : ∀ f ∈ fs, ∃ s k, u.Demands f s k ∧ k < path.length) {x y : Nat}
    (hlast : path.getLast? = some x) (hedge : sys.Edge x y) {f : Formula} {s : StateSet}
    (hf : u.Demands f s path.length) (hs : s.contains y = true) :
    Models sys u (fs ++ [f]) (path ++ [y]) where
  chain := List.isChain_append.mpr ⟨h.chain, .singleton y, fun z hz z' hz' => by
    obtain rfl := Option.some.inj (hlast.symm.trans hz)
    obtain rfl := Option.some.inj hz'
    exact hedge⟩
  start z hz := by
    have hnonempty : path ≠ [] := fun hnil => by
      rw [hnil] at hlast
      cases hlast
    rw [List.head?_append_of_ne_nil _ hnonempty] at hz
    exact h.start z hz
  obeys g hg t k z hd hz := by
    rcases List.mem_append.mp hg with hg | hg
    · obtain ⟨t', k', hd', hk⟩ := hall g hg
      obtain ⟨rfl, rfl⟩ := hd.eq hd'
      rw [List.getElem?_append_left hk] at hz
      exact h.obeys g hg t k z hd hz
    · obtain rfl := List.mem_singleton.mp hg
      obtain ⟨rfl, rfl⟩ := hd.eq hf
      rw [List.getElem?_append_right (Nat.le_refl _), Nat.sub_self] at hz
      exact Option.some.inj hz ▸ hs

end Models

theorem meets_iff {row : Array StateSet} {path : List Nat} :
    Meets row.toList path ↔
      path.length = row.size ∧ ∀ (k x : Nat) (s : StateSet), path[k]? = some x →
        row[k]? = some s → s.contains x = true := by
  rw [Meets, List.forall₂_iff_get]
  constructor
  · rintro ⟨hlen, h⟩
    refine ⟨hlen.symm, fun k x s hx hs => ?_⟩
    obtain ⟨hk, rfl⟩ := List.getElem?_eq_some_iff.mp hx
    obtain ⟨hk', rfl⟩ := Array.getElem?_eq_some_iff.mp hs
    exact h k hk' hk
  · rintro ⟨hlen, h⟩
    exact ⟨hlen.symm, fun k hs hk => h k _ _ (List.getElem?_eq_getElem hk)
      (Array.getElem?_eq_some_iff.mpr ⟨hs, rfl⟩)⟩

/-- A path from an initial state that meets all that is asked of its steps. -/
structure Obeys (sys : TransitionSystem) (u : Universe) (fs : List Formula) (path : List Nat) :
    Prop where
  chain : path.IsChain sys.Edge
  start : ∀ x ∈ path.head?, sys.Initial x
  obeys : ∀ f ∈ fs, ∀ (s : StateSet) (k x : Nat), u.stepFormula f = .ok (s, k) →
    path[k]? = some x → s.contains x = true

variable {sys : TransitionSystem} {u : Universe} {solver : PathSolver} {fs : List Formula} {K : Nat}

theorem follows_iff (hsize : row.size = K + 1) (hsizes : ∀ s ∈ row, s.size = sys.size)
    (hbelow : ∀ f ∈ fs, ∀ s k, u.stepFormula f = .ok (s, k) → k ≤ K)
    (hlets : ∀ k x, Lets sys.size row k x ↔
      x < sys.size ∧ ∀ f ∈ fs, ∀ s, u.stepFormula f = .ok (s, k) → s.contains x = true)
    {path : List Nat} : Follows sys sys.init row.toList path ↔
      path.length = K + 1 ∧ Obeys sys u fs path := by
  constructor
  · rintro ⟨hchain, hmeets, hstart⟩
    obtain ⟨hlen, hmem⟩ := meets_iff.mp hmeets
    refine ⟨hlen.trans hsize, hchain, hstart, fun g hg t k x hd hx => ?_⟩
    have hk : k < row.size := hsize ▸ Nat.lt_succ_of_le (hbelow g hg t k hd)
    have hin := hmem k x row[k] hx (Array.getElem?_eq_getElem hk)
    have hlet : Lets sys.size row k x := by
      refine ⟨?_, fun t' ht' => hmem k x t' hx ht'⟩
      exact hsizes row[k] (Array.getElem_mem hk) ▸ row[k].lt_size x hin
    exact ((hlets k x).mp hlet).2 g hg t hd
  · rintro ⟨hlen, h⟩
    refine ⟨h.chain, meets_iff.mpr ⟨hlen.trans hsize.symm, fun k x t hx ht => ?_⟩, h.start⟩
    have hlt : x < sys.size := lt_size_of_path h.chain h.start x (List.mem_of_getElem? hx)
    exact ((hlets k x).mpr ⟨hlt, fun g hg t hd => h.obeys g hg t k x hd hx⟩).2 t ht

theorem check_cases
    (hall : ∀ f ∈ solver.asserted, ∃ s k, u.stepFormula f = .ok (s, k) ∧ s.size = sys.size ∧
      k ≤ K ∧ M.Fits (k + 1))
    (hlast : K = 0 ∨ ∃ f ∈ solver.asserted, ∃ s, u.stepFormula f = .ok (s, K)) :
    (∃ path, solver.check M sys u = .ok (K + 1, { solver with model := some path }) ∧
      path.length = K + 1 ∧ Obeys sys u solver.asserted path) ∨
    (solver.check M sys u = .ok (K + 1, { solver with model := none }) ∧
      ∀ path, path.length = K + 1 → ¬ Obeys sys u solver.asserted path) := by
  obtain ⟨row, hconstraints, hsize, hsizes, hlets⟩ := constraints_eq hall hlast
  have hbelow : ∀ f ∈ solver.asserted, ∀ s k, u.stepFormula f = .ok (s, k) → k ≤ K :=
    fun f hf s k hd => by
      obtain ⟨s', k', hd', _, hk, _⟩ := hall f hf
      obtain ⟨_, rfl⟩ := stepFormula_unique hd hd'
      exact hk
  have hcases : ∀ path, Follows sys sys.init row.toList path ↔
      path.length = K + 1 ∧ Obeys sys u solver.asserted path := fun path =>
    follows_iff hsize hsizes hbelow hlets
  have hnonempty : row.toList ≠ [] := fun h => by
    rw [← Array.length_toList, h] at hsize
    cases hsize
  rcases findPath_eq hnonempty sys.init_size
      (fun s hs => hsizes s (Array.mem_toList_iff.mp hs)) with
    ⟨path, hpath, hfollows⟩ | ⟨hnone, hnot⟩
  · obtain ⟨hlen, hobeys⟩ := (hcases path).mp hfollows
    refine Or.inl ⟨path, ?_, hlen, hobeys⟩
    simp only [check, hconstraints, bind, Except.bind, hpath, hsize]
    rfl
  · refine Or.inr ⟨?_, fun path hlen hobeys => hnot path ((hcases path).mpr ⟨hlen, hobeys⟩)⟩
    simp only [check, hconstraints, bind, Except.bind, hnone, hsize]
    rfl

theorem models_iff (hall : ∀ f ∈ fs, ∃ s k, u.Demands f s k) {path : List Nat} :
    Models sys u fs path ↔ Obeys sys u fs path := by
  have hstep : ∀ f ∈ fs, ∀ s k, u.stepFormula f = .ok (s, k) ↔ u.Demands f s k :=
    fun f hf s k => by
      obtain ⟨_, _, hd⟩ := hall f hf
      exact hd.stepFormula_iff
  constructor
  · exact fun h => ⟨h.chain, h.start, fun f hf s k x hd => h.obeys f hf s k x
      ((hstep f hf s k).mp hd)⟩
  · exact fun h => ⟨h.chain, h.start, fun f hf s k x hd => h.obeys f hf s k x
      ((hstep f hf s k).mpr hd)⟩

theorem check_eq {sys : TransitionSystem} {u : Universe} {solver : PathSolver} {K : Nat}
    (hu : u.Canonical) (hn : u.size = sys.size) (hM : M.Fits (K + 1))
    (hall : ∀ f ∈ solver.asserted, ∃ s k, u.Demands f s k ∧ k ≤ K)
    (hlast : ∃ f ∈ solver.asserted, ∃ s, u.Demands f s K) :
    (∃ path, solver.check M sys u = .ok (K + 1, { solver with model := some path }) ∧
      path.length = K + 1 ∧ Models sys u solver.asserted path) ∨
    (solver.check M sys u = .ok (K + 1, { solver with model := none }) ∧
      ∀ path, path.length = K + 1 → ¬ Models sys u solver.asserted path) := by
  have hmodels : ∀ path, Models sys u solver.asserted path ↔ Obeys sys u solver.asserted path :=
    fun path => models_iff fun f hf => by
      obtain ⟨s, k, hd, _⟩ := hall f hf
      exact ⟨s, k, hd⟩
  simp only [hmodels]
  refine check_cases (fun f hf => ?_) (Or.inr ?_)
  · obtain ⟨s, k, hd, hk⟩ := hall f hf
    obtain ⟨_, _, hg⟩ := id hd
    exact ⟨s, k, stepFormula_eq hd, (hu.sized hg).trans hn, hk, hM.mono (by omega)⟩
  · obtain ⟨f, hf, s, hd⟩ := hlast
    exact ⟨f, hf, s, stepFormula_eq hd⟩

end PathSolver

end FiniteState

end Invariance
