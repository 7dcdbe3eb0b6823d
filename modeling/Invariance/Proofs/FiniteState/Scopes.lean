import Invariance.Proofs.FiniteState.Exploring

/-!
The scopes of the path solver. What is asserted stays asserted until the scope it was asserted in is
popped, and nothing else counts for a check: not the order in which steps were constrained, and not
what closed scopes held. Main statement: after any calls a check finds a path to the deepest step
that is still constrained, exactly if there is one, and a pop brings back the answer that was there
before its push.
-/

namespace Invariance.FiniteState

open TransitionSystem Universe

/-- A call on the path solver. The universe may be asked for formulas between two others. -/
inductive PathCall where
  | push
  | pop
  | assert (f : Formula)
  | check
  | ask (q : Request)

namespace PathCall

variable {calls : List PathCall} {c : PathCall} {f : Formula} {j n m : Nat}

/-- How many scopes are above a given one after a call, if there were so many before. There is no
answer if the call pops that scope. -/
def level : PathCall → Nat → Option Nat
  | .push, n => some (n + 1)
  | .pop, 0 => none
  | .pop, n + 1 => some n
  | .assert _, n => some n
  | .check, n => some n
  | .ask _, n => some n

def above (n : Nat) (calls : List PathCall) : Option Nat :=
  calls.foldlM (fun n c => c.level n) n

/-- A formula was asserted, and the scope it was asserted in has not been popped since. -/
def Open (calls : List PathCall) (f : Formula) : Prop :=
  ∃ before after d, calls = before ++ .assert f :: after ∧ above 0 after = some d

def Beneath (j : Nat) (calls : List PathCall) (f : Formula) : Prop :=
  ∃ before after d, calls = before ++ .assert f :: after ∧ above 0 after = some d ∧ j ≤ d

theorem open_iff : Open calls f ↔ Beneath 0 calls f := by
  simp [Open, Beneath]

theorem above_snoc : above n (calls ++ [c]) = (above n calls).bind c.level := by
  simp only [above, List.foldlM_append, List.foldlM_cons, List.foldlM_nil, bind_pure]
  rfl

/-- So many scopes have to be above before a call for `j` to be above after it. -/
def prior : PathCall → Nat → Nat
  | .push, j => j - 1
  | .pop, j => j + 1
  | .assert _, j => j
  | .check, j => j
  | .ask _, j => j

theorem prior_le : c.prior j ≤ n ↔ ∃ d, c.level n = some d ∧ j ≤ d := by
  cases c with
  | push => simp [prior, level]
  | pop => cases n <;> simp [prior, level]
  | assert f => simp [prior, level]
  | check => simp [prior, level]
  | ask q => simp [prior, level]

theorem beneath_snoc :
    Beneath j (calls ++ [c]) f ↔ (c = .assert f ∧ j = 0) ∨ Beneath (c.prior j) calls f := by
  constructor
  · rintro ⟨before, after, d, heq, habove, hj⟩
    rcases List.eq_nil_or_concat after with rfl | ⟨after, c', rfl⟩
    · obtain ⟨_, hc⟩ := List.append_inj' heq rfl
      obtain rfl := Option.some.inj habove
      exact Or.inl ⟨(List.cons.inj hc).1, Nat.le_zero.mp hj⟩
    · rw [List.concat_eq_append, ← List.cons_append, ← List.append_assoc] at heq
      obtain ⟨rfl, hc⟩ := List.append_inj' heq rfl
      obtain rfl := (List.cons.inj hc).1
      rw [List.concat_eq_append, above_snoc] at habove
      obtain ⟨n, hn, hlevel⟩ := Option.bind_eq_some_iff.mp habove
      exact Or.inr ⟨before, after, n, rfl, hn, prior_le.mpr ⟨d, hlevel, hj⟩⟩
  · rintro (⟨rfl, rfl⟩ | ⟨before, after, n, rfl, hn, hle⟩)
    · exact ⟨calls, [], 0, rfl, rfl, Nat.le_refl 0⟩
    · obtain ⟨d, hd, hj⟩ := prior_le.mp hle
      refine ⟨before, after ++ [c], d, by simp, ?_, hj⟩
      rw [above_snoc, hn]
      exact hd

/-- What a call does to the scopes, the innermost first. -/
inductive Shifts : List (List Formula) → PathCall → List (List Formula) → Prop
  | push {ss : List (List Formula)} : Shifts ss .push ([] :: ss)
  | pop {top : List Formula} {ss : List (List Formula)} : Shifts (top :: ss) .pop ss
  | assert {top : List Formula} {rest : List (List Formula)} {f : Formula} :
      Shifts (top :: rest) (.assert f) ((top ++ [f]) :: rest)
  | check {ss : List (List Formula)} : Shifts ss .check ss
  | ask {ss : List (List Formula)} {q : Request} : Shifts ss (.ask q) ss

namespace Shifts

variable {ss ss' : List (List Formula)}

theorem eq_of_push (h : Shifts ss .push ss') : ss' = [] :: ss := by
  cases h
  rfl

theorem eq_of_pop (h : Shifts ss .pop ss') : ∃ top, ss = top :: ss' := by
  cases h
  exact ⟨_, rfl⟩

theorem level_eq (h : Shifts ss c ss') (hn : ss.length = n + 1) (hm : ss'.length = m + 1) :
    c.level n = some m := by
  cases h with
  | push =>
      simp only [List.length_cons] at hm
      exact congrArg some (by omega)
  | pop =>
      simp only [List.length_cons] at hn
      obtain rfl : n = m + 1 := by omega
      rfl
  | assert =>
      simp only [List.length_cons] at hn hm
      exact congrArg some (by omega)
  | check => exact congrArg some (by omega)
  | ask => exact congrArg some (by omega)

theorem mem_drop_iff (h : Shifts ss c ss') :
    f ∈ (ss'.drop j).flatten ↔ (c = .assert f ∧ j = 0) ∨ f ∈ (ss.drop (c.prior j)).flatten := by
  cases h with
  | push => cases j <;> simp [prior]
  | pop => simp [prior]
  | @assert top rest g =>
      cases j with
      | zero => simp [prior, or_left_comm, eq_comm]
      | succ j => simp [prior]
  | check => simp [prior]
  | ask => simp [prior]

/-- Scopes below the ones that are counted stay as they are. -/
theorem drop_eq (h : Shifts ss c ss') (hlevel : c.level n = some m) :
    ss'.drop (m + 1) = ss.drop (n + 1) := by
  cases h with
  | push =>
      obtain rfl := Option.some.inj hlevel
      rfl
  | pop =>
      cases n with
      | zero => cases hlevel
      | succ n =>
          obtain rfl := Option.some.inj hlevel
          rfl
  | assert =>
      obtain rfl := Option.some.inj hlevel
      rfl
  | check =>
      obtain rfl := Option.some.inj hlevel
      rfl
  | ask =>
      obtain rfl := Option.some.inj hlevel
      rfl

end Shifts

end PathCall

namespace PathSolver

variable {M : Machine} {sys : TransitionSystem} {u : Universe} {solver solver' : PathSolver}
  {f : Formula} {n : Nat}

/-- All scopes, the innermost first. -/
def scopes (solver : PathSolver) : List (List Formula) := solver.opened ++ [solver.base]

theorem length_scopes : solver.scopes.length = solver.opened.length + 1 := by
  simp [scopes]

theorem asserted_eq : solver.asserted = solver.scopes.reverse.flatten := by
  simp [asserted, scopes]

theorem assert_shifts (h : solver.assert u f = .ok solver') :
    PathCall.Shifts solver.scopes (.assert f) solver'.scopes ∧
      ∃ s k, u.stepFormula f = .ok (s, k) := by
  obtain ⟨⟨s, k⟩, hf, h⟩ := bind_eq_ok.mp h
  refine ⟨?_, s, k, hf⟩
  cases hopened : solver.opened with
  | nil =>
      rw [hopened] at h
      cases h
      simp only [scopes, hopened]
      exact .assert
  | cons scope rest =>
      rw [hopened] at h
      cases h
      simp only [scopes, hopened]
      exact .assert

theorem exists_assert {s : StateSet} {k : Nat} (h : u.stepFormula f = .ok (s, k))
    (solver : PathSolver) : ∃ solver', solver.assert u f = .ok solver' := by
  cases hopened : solver.opened <;>
    simp only [assert, h, hopened, bind, Except.bind] <;>
    exact ⟨_, rfl⟩

theorem check_eq_ok (h : solver.check M sys u = .ok (n, solver')) :
    ∃ model, solver' = { solver with model } := by
  obtain ⟨sets, _, h⟩ := bind_eq_ok.mp h
  obtain ⟨model, _, h⟩ := bind_eq_ok.mp h
  cases h
  exact ⟨model, rfl⟩

/-- A check depends on what is asserted, not on how it came to be. -/
theorem check_congr {solver₁ : PathSolver} (hsame : solver₁.asserted = solver.asserted)
    (h : solver.check M sys u = .ok (n, solver')) :
    solver₁.check M sys u = .ok (n, { solver₁ with model := solver'.model }) := by
  rw [check, hsame]
  obtain ⟨sets, hsets, h⟩ := bind_eq_ok.mp h
  obtain ⟨model, hmodel, h⟩ := bind_eq_ok.mp h
  cases h
  simp only [hsets, hmodel, bind, Except.bind]
  rfl

end PathSolver

namespace Session

open PathCall

variable {M : Machine} {sys : TransitionSystem} {w₀ w w' w'' : Session} {c : PathCall}
  {calls body : List PathCall} {f : Formula} {j n m : Nat}

theorem check_run {paths : PathSolver} (h : w.paths.check M w.system w.terms = .ok (n, paths)) :
    ∃ journal, (solver M).check w =
      .ok (if paths.model.isSome then .sat else .unsat) { w with paths, journal } := by
  simp only [solver, bind, EStateM.bind, Action.run_get, h, ofChecked]
  exact ⟨_, rfl⟩

theorem check_eq_ok {v : Verdict} (h : (solver M).check w = .ok v w') :
    ∃ n paths journal, w.paths.check M w.system w.terms = .ok (n, paths) ∧
      v = (if paths.model.isSome then .sat else .unsat) ∧ w' = { w with paths, journal } := by
  cases hcheck : w.paths.check M w.system w.terms with
  | error flaw =>
      simp only [solver, bind, EStateM.bind, Action.run_get, hcheck] at h
      cases h
  | ok r =>
      obtain ⟨journal, hrun⟩ := check_run hcheck
      rw [hrun] at h
      cases h
      exact ⟨r.1, r.2, journal, rfl, rfl, rfl⟩

theorem pop_eq_ok : (solver M).pop w = .ok () w' ↔ ∃ top rest, w.paths.opened = top :: rest ∧
    w' = { w with paths := { w.paths with opened := rest, model := none } } := by
  simp only [solver, PathSolver.pop]
  constructor
  · intro h
    cases hopened : w.paths.opened with
    | nil =>
        rw [hopened] at h
        cases h
    | cons top rest =>
        rw [hopened] at h
        cases h
        exact ⟨top, rest, rfl, rfl⟩
  · rintro ⟨top, rest, hopened, rfl⟩
    rw [hopened]

theorem assert_eq_ok : (solver M).assert f w = .ok () w' ↔
    ∃ paths, w.paths.assert w.terms f = .ok paths ∧ w' = { w with paths } := by
  simp only [solver, bind, EStateM.bind, Action.run_get]
  constructor
  · intro h
    cases hpaths : w.paths.assert w.terms f with
    | error flaw =>
        rw [hpaths] at h
        cases h
    | ok paths =>
        rw [hpaths] at h
        cases h
        exact ⟨paths, rfl, rfl⟩
  · rintro ⟨paths, hpaths, rfl⟩
    rw [hpaths]
    rfl

theorem model_run {path : List Nat} (h : w.paths.model = some path) :
    (solver M).model w = .ok path w := by
  simp only [solver, bind, EStateM.bind, Action.run_get, h]
  rfl

/-- A call that was carried out. -/
inductive Performs (M : Machine) : Session → PathCall → Session → Prop
  | push {w : Session} : Performs M w .push ((solver M).push w)
  | pop {w w' : Session} : (solver M).pop w = .ok () w' → Performs M w .pop w'
  | assert {w w' : Session} {f : Formula} :
      (solver M).assert f w = .ok () w' → Performs M w (.assert f) w'
  | check {w w' : Session} {v : Verdict} :
      (solver M).check w = .ok v w' → Performs M w .check w'
  | ask {w w' : Session} {q : Request} {f : Formula} : (∀ g ∈ q.args, w.terms.Live g) →
      making (·.make q) w = .ok f w' → Performs M w (.ask q) w'

inductive Run (M : Machine) (w : Session) : List PathCall → Session → Prop
  | nil : Run M w [] w
  | snoc {calls : List PathCall} {w' w'' : Session} {c : PathCall} :
      Run M w calls w' → Performs M w' c w'' → Run M w (calls ++ [c]) w''

theorem run_snoc :
    Run M w (calls ++ [c]) w'' ↔ ∃ w', Run M w calls w' ∧ Performs M w' c w'' := by
  constructor
  · intro h
    generalize heq : calls ++ [c] = calls' at h
    cases h with
    | nil => simp at heq
    | snoc hrun hcall =>
        obtain ⟨rfl, hc⟩ := List.append_inj' heq rfl
        obtain rfl := (List.cons.inj hc).1
        exact ⟨_, hrun, hcall⟩
  · rintro ⟨w', hrun, hcall⟩
    exact .snoc hrun hcall

theorem run_singleton : Run M w [c] w' ↔ Performs M w c w' := by
  refine ⟨fun h => ?_, .snoc .nil⟩
  have h' : Run M w ([] ++ [c]) w' := h
  obtain ⟨w₁, hnil, hcall⟩ := run_snoc.mp h'
  generalize heq : ([] : List PathCall) = calls at hnil
  cases hnil with
  | nil => exact hcall
  | snoc _ _ => simp at heq

theorem Run.split (h : Run M w (calls ++ body) w'') :
    ∃ w', Run M w calls w' ∧ Run M w' body w'' := by
  induction body using List.reverseRecOn generalizing w'' with
  | nil => exact ⟨w'', by simpa using h, .nil⟩
  | append_singleton body c ih =>
      rw [← List.append_assoc, run_snoc] at h
      obtain ⟨w₁, hrun, hcall⟩ := h
      obtain ⟨w', hcalls, hbody⟩ := ih hrun
      exact ⟨w', hcalls, .snoc hbody hcall⟩

/-- What a call leaves behind. -/
structure Leaves (sys : TransitionSystem) (w : Session) (c : PathCall) (w' : Session) : Prop where
  sound : Sound sys w'
  terms : Extends w.terms w'.terms
  scopes : Shifts w.paths.scopes c w'.paths.scopes
  step : ∀ f, c = .assert f → ∃ s k, w.terms.stepFormula f = .ok (s, k)

theorem Performs.leaves (hw : Sound sys w) (h : Performs M w c w') : Leaves sys w c w' := by
  cases h with
  | push => exact ⟨hw.congr rfl rfl, .refl _, .push, fun _ hc => by cases hc⟩
  | pop h =>
      obtain ⟨top, rest, hopened, rfl⟩ := pop_eq_ok.mp h
      refine ⟨hw.congr rfl rfl, .refl _, ?_, fun _ hc => by cases hc⟩
      simp only [PathSolver.scopes, hopened]
      exact .pop
  | assert h =>
      obtain ⟨paths, hpaths, rfl⟩ := assert_eq_ok.mp h
      obtain ⟨hshifts, hstep⟩ := PathSolver.assert_shifts hpaths
      refine ⟨hw.congr rfl rfl, .refl _, hshifts, ?_⟩
      rintro _ ⟨⟩
      exact hstep
  | check h =>
      obtain ⟨n, paths, journal, hcheck, _, rfl⟩ := check_eq_ok h
      obtain ⟨model, rfl⟩ := PathSolver.check_eq_ok hcheck
      exact ⟨hw.congr rfl rfl, .refl _, .check, fun _ hc => by cases hc⟩
  | ask hargs h =>
      obtain ⟨u, hmake, rfl⟩ := making_eq_ok h
      obtain ⟨t, hmade⟩ := Universe.make_made hw.canonical hargs hmake
      exact ⟨⟨hw.system, hmade.canonical, hmade.grows.size.trans hw.size⟩, hmade.grows, .ask,
        fun _ hc => by cases hc⟩

/-- What holds after any calls: the scopes hold what is open. -/
structure Scoped (sys : TransitionSystem) (calls : List PathCall) (w : Session) : Prop where
  sound : Sound sys w
  depth : above 0 calls = some w.paths.opened.length
  beneath : ∀ j f, f ∈ (w.paths.scopes.drop j).flatten ↔ Beneath j calls f
  steps : ∀ f, Open calls f → ∃ s k, w.terms.stepFormula f = .ok (s, k)

theorem Scoped.mem_asserted (h : Scoped sys calls w) : f ∈ w.paths.asserted ↔ Open calls f := by
  rw [open_iff, ← h.beneath, PathSolver.asserted_eq]
  simp

theorem scoped_opened (hbuilt : w₀.terms.Built sys.size) : Scoped sys [] (opened sys w₀) where
  sound := ⟨rfl, hbuilt.canonical.1, hbuilt.canonical.2⟩
  depth := rfl
  beneath j f := by
    refine iff_of_false ?_ ?_
    · cases j <;> simp [opened, PathSolver.scopes]
    · rintro ⟨before, after, _, heq, _⟩
      simp at heq
  steps f := by
    rintro ⟨before, after, _, heq, _⟩
    simp at heq

theorem Scoped.step (h : Scoped sys calls w) (hcall : Performs M w c w') :
    Scoped sys (calls ++ [c]) w' := by
  obtain ⟨hsound, hterms, hshifts, hstep⟩ := hcall.leaves h.sound
  refine ⟨hsound, ?_, fun j f => ?_, fun f hf => ?_⟩
  · rw [above_snoc, h.depth]
    exact hshifts.level_eq PathSolver.length_scopes PathSolver.length_scopes
  · rw [hshifts.mem_drop_iff, beneath_snoc, h.beneath]
  · have hkept : ∃ s k, w.terms.stepFormula f = .ok (s, k) := by
      rcases beneath_snoc.mp (open_iff.mp hf) with ⟨hc, _⟩ | hf
      · exact hstep f hc
      · obtain ⟨before, after, d, heq, hd, _⟩ := hf
        exact h.steps f ⟨before, after, d, heq, hd⟩
    obtain ⟨s, k, hs⟩ := hkept
    exact ⟨s, k, confirms_stepFormula hterms f _ hs⟩

theorem Run.scoped (hbuilt : w₀.terms.Built sys.size) (h : Run M (opened sys w₀) calls w) :
    Scoped sys calls w := by
  induction h with
  | nil => exact scoped_opened hbuilt
  | snoc _ hcall ih => exact ih.step hcall

/-- Calls that do not pop a scope leave what is below it alone. -/
theorem Run.frame (hw : Sound sys w) (h : Run M w calls w') : Sound sys w' ∧
    Extends w.terms w'.terms ∧ ∀ m, above n calls = some m →
      w'.paths.scopes.drop (m + 1) = w.paths.scopes.drop (n + 1) := by
  induction h with
  | nil =>
      refine ⟨hw, .refl _, fun m hm => ?_⟩
      obtain rfl := Option.some.inj hm
      rfl
  | snoc _ hcall ih =>
      obtain ⟨hsound, hterms, hscopes⟩ := ih
      have hleaves := hcall.leaves hsound
      refine ⟨hleaves.sound, hterms.trans hleaves.terms, fun m hm => ?_⟩
      rw [above_snoc] at hm
      obtain ⟨l, hl, hm⟩ := Option.bind_eq_some_iff.mp hm
      rw [hleaves.scopes.drop_eq hm, hscopes l hl]

/-- A scope that was opened and closed again leaves the others as they were. -/
theorem Run.restores (hw : Sound sys w) (hbody : above 0 body = some 0)
    (h : Run M w (.push :: body ++ [.pop]) w'') :
    Sound sys w'' ∧ Extends w.terms w''.terms ∧ w''.paths.scopes = w.paths.scopes := by
  obtain ⟨w₂, hrun, hpop⟩ := run_snoc.mp h
  have hrun' : Run M w ([.push] ++ body) w₂ := hrun
  obtain ⟨w₁, hpush, hbody'⟩ := hrun'.split
  have h₁ := (run_singleton.mp hpush).leaves hw
  obtain ⟨hsound, hterms, hframe⟩ := hbody'.frame h₁.sound
  have h₂ := hpop.leaves hsound
  have hbelow := hframe 0 hbody
  obtain ⟨top, hpopped⟩ := h₂.scopes.eq_of_pop
  rw [hpopped, h₁.scopes.eq_of_push] at hbelow
  exact ⟨h₂.sound, (h₁.terms.trans hterms).trans h₂.terms, hbelow⟩

end Session

/-! What a check is answered. -/

/-- The formula constrains one step of a path by another. -/
def Universe.Places (u : Universe) (f g : Formula) (k : Nat) : Prop :=
  u.terms[f.id]? = some (.atStep g k)

theorem Universe.Places.eq {u : Universe} {f g g' : Formula} {k k' : Nat} (h : u.Places f g k)
    (h' : u.Places f g' k') : g = g' ∧ k = k' := by
  have heq := Option.some.inj (h.symm.trans h')
  injection heq with hg hk
  exact ⟨hg, hk⟩

namespace PathCall

/-- A path from an initial state along which every open constraint holds at its step. -/
structure Satisfies (sys : TransitionSystem) (u : Universe) (calls : List PathCall)
    (path : List Nat) : Prop where
  chain : path.IsChain sys.Edge
  start : ∀ x ∈ path.head?, sys.Initial x
  holds : ∀ f g k x, Open calls f → u.Places f g k → path[k]? = some x → u.Holds g x

/-- The last step that is constrained in an open scope, or 0 if none is. -/
structure Deepest (u : Universe) (calls : List PathCall) (last : Nat) : Prop where
  le : ∀ f g k, Open calls f → u.Places f g k → k ≤ last
  placed : last = 0 ∨ ∃ f g, Open calls f ∧ u.Places f g last

theorem exists_last (u : Universe) (fs : List Formula) :
    ∃ last, (∀ f ∈ fs, ∀ g k, u.Places f g k → k ≤ last) ∧
      (last = 0 ∨ ∃ f ∈ fs, ∃ g, u.Places f g last) := by
  induction fs with
  | nil => exact ⟨0, by simp, Or.inl rfl⟩
  | cons f fs ih =>
      obtain ⟨last, hle, hplaced⟩ := ih
      by_cases hf : ∃ g k, u.Places f g k ∧ last < k
      · obtain ⟨g, k, hg, hlt⟩ := hf
        refine ⟨k, List.forall_mem_cons.mpr ⟨fun g' k' hg' => ?_, fun f' hf' g' k' hg' => ?_⟩,
          Or.inr ⟨f, List.mem_cons_self, g, hg⟩⟩
        · exact Nat.le_of_eq (hg'.eq hg).2
        · exact Nat.le_trans (hle f' hf' g' k' hg') (Nat.le_of_lt hlt)
      · refine ⟨last, List.forall_mem_cons.mpr ⟨fun g k hg => ?_, hle⟩,
          hplaced.imp_right fun ⟨f', hf', h⟩ => ⟨f', List.mem_cons_of_mem _ hf', h⟩⟩
        exact Nat.le_of_not_lt fun hlt => hf ⟨g, k, hg, hlt⟩

end PathCall

namespace Session

open PathCall

variable {M : Machine} {sys : TransitionSystem} {w₀ w w' w'' : Session}
  {calls body : List PathCall} {f g : Formula} {last k : Nat}

theorem Scoped.exists_deepest (h : Scoped sys calls w) : ∃ last, Deepest w.terms calls last := by
  obtain ⟨last, hle, hplaced⟩ := exists_last w.terms w.paths.asserted
  refine ⟨last, fun f g k hf => hle f (h.mem_asserted.mpr hf) g k, hplaced.imp_right ?_⟩
  rintro ⟨f, hf, g, hg⟩
  exact ⟨f, g, h.mem_asserted.mp hf, hg⟩

theorem Scoped.step_of_open (h : Scoped sys calls w) (hf : Open calls f)
    (hg : w.terms.Places f g k) :
    ∃ s, w.terms.stepFormula f = .ok (s, k) ∧ ∀ x, w.terms.Holds g x ↔ s.contains x = true := by
  obtain ⟨s, k', hstep⟩ := h.steps f hf
  obtain ⟨g', hg', hs⟩ := stepFormula_eq_ok.mp hstep
  obtain ⟨rfl, rfl⟩ := hg.eq hg'
  exact ⟨s, hstep, fun x => holds_of_eval hs⟩

theorem Scoped.satisfies_iff (h : Scoped sys calls w) {path : List Nat} :
    Satisfies sys w.terms calls path ↔
      PathSolver.Obeys sys w.terms w.paths.asserted path := by
  constructor
  · intro hpath
    refine ⟨hpath.chain, hpath.start, fun f hf s k x hstep hx => ?_⟩
    obtain ⟨g, hg, hs⟩ := stepFormula_eq_ok.mp hstep
    exact (holds_of_eval hs).mp (hpath.holds f g k x (h.mem_asserted.mp hf) hg hx)
  · intro hpath
    refine ⟨hpath.chain, hpath.start, fun f g k x hf hg hx => ?_⟩
    obtain ⟨s, hstep, hholds⟩ := h.step_of_open hf hg
    exact (hholds x).mpr (hpath.obeys f (h.mem_asserted.mpr hf) s k x hstep hx)

/-- What a check is answered, with the model it leaves. -/
structure Solved (M : Machine) (sys : TransitionSystem) (u : Universe) (calls : List PathCall)
    (v : Verdict) (w' : Session) (last : Nat) : Prop where
  deepest : Deepest u calls last
  sat_iff : v = .sat ↔ ∃ path, path.length = last + 1 ∧ Satisfies sys u calls path
  model : v = .sat → ∃ path, (solver M).model w' = .ok path w' ∧ path.length = last + 1 ∧
    Satisfies sys u calls path
  unsat : v ≠ .sat → v = .unsat ∧ w'.paths.model = none

theorem Scoped.check_solved (h : Scoped sys calls w)
    (hfits : ∀ f g k, Open calls f → w.terms.Places f g k → M.Fits (k + 1)) :
    ∃ v w' last, (solver M).check w = .ok v w' ∧ Solved M sys w.terms calls v w' last := by
  obtain ⟨last, hdeepest⟩ := h.exists_deepest
  have hall : ∀ f ∈ w.paths.asserted, ∃ s k, w.terms.stepFormula f = .ok (s, k) ∧
      s.size = sys.size ∧ k ≤ last ∧ M.Fits (k + 1) := fun f hf => by
    have hopen := h.mem_asserted.mp hf
    obtain ⟨s, k, hstep⟩ := h.steps f hopen
    obtain ⟨g, hg, hs⟩ := stepFormula_eq_ok.mp hstep
    exact ⟨s, k, hstep, (size_of_eval h.sound.canonical hs).trans h.sound.size,
      hdeepest.le f g k hopen hg, hfits f g k hopen hg⟩
  have hlast : last = 0 ∨ ∃ f ∈ w.paths.asserted, ∃ s, w.terms.stepFormula f = .ok (s, last) :=
    hdeepest.placed.imp_right fun ⟨f, g, hf, hg⟩ => by
      obtain ⟨s, hstep, _⟩ := h.step_of_open hf hg
      exact ⟨f, h.mem_asserted.mpr hf, s, hstep⟩
  rcases PathSolver.check_cases hall hlast with
    ⟨path, hcheck, hlength, hobeys⟩ | ⟨hcheck, hnone⟩
  · rw [← h.sound.system] at hcheck
    obtain ⟨journal, hrun⟩ := check_run hcheck
    have hpath := h.satisfies_iff.mpr hobeys
    refine ⟨_, _, last, hrun, hdeepest, iff_of_true rfl ⟨path, hlength, hpath⟩, fun _ => ?_,
      fun hv => absurd rfl hv⟩
    exact ⟨path, model_run rfl, hlength, hpath⟩
  · rw [← h.sound.system] at hcheck
    obtain ⟨journal, hrun⟩ := check_run hcheck
    refine ⟨_, _, last, hrun, hdeepest, iff_of_false nofun ?_, nofun, fun _ => ⟨rfl, rfl⟩⟩
    rintro ⟨path, hlength, hpath⟩
    exact hnone path hlength (h.satisfies_iff.mp hpath)

/-- A check that comes after a scope was opened and closed is the check from before. -/
theorem check_restored (hsystem : w''.system = w.system) (hterms : Extends w.terms w''.terms)
    (hscopes : w''.paths.scopes = w.paths.scopes) {v : Verdict}
    (h : (solver M).check w = .ok v w') :
    ∃ w₁, (solver M).check w'' = .ok v w₁ ∧ w₁.paths.model = w'.paths.model := by
  obtain ⟨n, paths, journal, hcheck, rfl, rfl⟩ := check_eq_ok h
  have hsame : w''.paths.asserted = w.paths.asserted := by
    rw [PathSolver.asserted_eq, PathSolver.asserted_eq, hscopes]
  have hagain := PathSolver.check_congr hsame (w.paths.confirms_check hterms _ hcheck)
  rw [← hsystem] at hagain
  obtain ⟨journal', hrun⟩ := check_run hagain
  exact ⟨_, hrun, rfl⟩

/-- What the solver does after these calls. -/
structure Serves (M : Machine) (sys : TransitionSystem) (calls : List PathCall) (w : Session) :
    Prop where
  pops_iff : (∃ w', (solver M).pop w = .ok () w') ↔ ∃ n, above 0 calls = some (n + 1)
  asserts_iff : ∀ f, (∃ w', (solver M).assert f w = .ok () w') ↔
    ∃ g k, w.terms.Places f g k ∧ w.terms.Accepts g
  check : ∃ v w' last, (solver M).check w = .ok v w' ∧ Solved M sys w.terms calls v w' last
  restores : ∀ body w'', above 0 body = some 0 → Run M w (.push :: body ++ [.pop]) w'' →
    ∃ v w₁ w₂, (solver M).check w = .ok v w₁ ∧ (solver M).check w'' = .ok v w₂ ∧
      w₂.paths.model = w₁.paths.model

theorem Run.serves (hbuilt : w₀.terms.Built sys.size) (h : Run M (opened sys w₀) calls w)
    (hfits : ∀ f g k, Open calls f → w.terms.Places f g k → M.Fits (k + 1)) :
    Serves M sys calls w := by
  have hscoped := h.scoped hbuilt
  have hcheck := hscoped.check_solved hfits
  refine ⟨?_, fun f => ?_, hcheck, fun body w'' hbody hrun => ?_⟩
  · simp only [pop_eq_ok, hscoped.depth]
    cases w.paths.opened <;> simp
  · simp only [assert_eq_ok]
    constructor
    · rintro ⟨_, paths, hpaths, _⟩
      obtain ⟨_, s, k, hstep⟩ := PathSolver.assert_shifts hpaths
      obtain ⟨g, hg, hs⟩ := stepFormula_eq_ok.mp hstep
      exact ⟨g, k, hg, s, hs⟩
    · rintro ⟨g, k, hg, s, hs⟩
      obtain ⟨paths, hpaths⟩ :=
        PathSolver.exists_assert (stepFormula_eq_ok.mpr ⟨g, hg, hs⟩) w.paths
      exact ⟨_, paths, hpaths, rfl⟩
  · obtain ⟨v, w₁, _, hv, _⟩ := hcheck
    obtain ⟨hsound, hterms, hscopes⟩ := hrun.restores hscoped.sound hbody
    obtain ⟨w₂, hv', hmodel⟩ :=
      check_restored (hsound.system.trans hscoped.sound.system.symm) hterms hscopes hv
    exact ⟨v, w₁, w₂, hv, hv', hmodel⟩

/-- The deeper step is constrained first, and the other one in a scope of its own. -/
def crossed : List PathCall :=
  [.ask (.atStep ⟨0⟩ 2), .ask (.atStep ⟨1⟩ 1), .assert ⟨2⟩, .push, .assert ⟨3⟩]

theorem crossed_serves : ∃ w, Run .word64 (opened forked (start .negation).world) crossed w ∧
    Open crossed ⟨2⟩ ∧ w.terms.Places ⟨2⟩ ⟨0⟩ 2 ∧ Open crossed ⟨3⟩ ∧ w.terms.Places ⟨3⟩ ⟨1⟩ 1 ∧
    Serves .word64 forked crossed w := by
  let terms : Universe :=
    { words with terms := words.terms ++ #[.atStep ⟨0⟩ 2, .atStep ⟨1⟩ 1] }
  let w : Session := { opened forked (start .negation).world with
    terms, paths := { base := [⟨2⟩], opened := [[⟨3⟩]] } }
  have hasked : Run .word64 (opened forked (start .negation).world) (crossed.take 2)
      { w with paths := {} } :=
    .snoc (.snoc .nil (.ask (f := ⟨2⟩) (by decide) rfl)) (.ask (f := ⟨3⟩) (by decide) rfl)
  have hrun : Run .word64 (opened forked (start .negation).world) crossed w :=
    .snoc (.snoc (.snoc hasked (.assert rfl)) .push) (.assert rfl)
  have hfits : ∀ f g k, Open crossed f → w.terms.Places f g k → Machine.word64.Fits (k + 1) := by
    rintro ⟨i⟩ g k _ hplaces
    have hk : k ≤ 2 := by
      rcases i with _ | _ | _ | _ | i
      all_goals cases hplaces <;> decide
    exact (fits_word64 forked).mono (Nat.le_trans (Nat.succ_le_succ hk) (by decide))
  refine ⟨w, hrun, ⟨crossed.take 2, _, 1, rfl, rfl⟩, rfl, ⟨crossed.take 4, [], 0, rfl, rfl⟩, rfl,
    ?_⟩
  exact hrun.serves built_words hfits

end Session

end Invariance.FiniteState
