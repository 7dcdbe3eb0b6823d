import Invariance.Proofs.FiniteState.Values
import Invariance.Proofs.FiniteState.Verdicts

/-!
Induction checks one after the other. However the solver is reset and given formulas, and whichever
of these calls are refused, it holds a positive depth and formulas that have values; a check in such
a state decides whether a path evades the formula.
-/

namespace Invariance.FiniteState

open Universe Session

/-- What prepares an induction check. -/
inductive Setting where
  | reset (depth : Nat)
  | add (f : Formula) (role : Role)

/-- What the solver holds afterwards. No depth is zero, and only formulas with a value count. -/
def InductionSolver.configure (u : Universe) (solver : InductionSolver) : Setting → InductionSolver
  | .reset 0 => solver
  | .reset (depth + 1) => { depth := depth + 1 }
  | .add f role =>
      match u.eval f with
      | .ok _ => solver.enter f role
      | .error _ => solver

namespace Session

variable {M : Machine} {sys : TransitionSystem} {w : Session} {f : Formula}

def call (M : Machine) : Setting → Action Session Unit
  | .reset depth => (oracle M).reset depth
  | .add f role => (oracle M).register f role

/-- Makes the calls in order and goes on after one that is refused. -/
def prepare (M : Machine) : List Setting → Action Session Unit
  | [] => pure ()
  | setting :: rest => do
      let _ ← (call M setting).attempt
      prepare M rest

structure Ready (w : Session) : Prop where
  deep : 0 < w.induction.depth
  first : ∀ g ∈ w.induction.first, w.terms.Accepts g
  between : ∀ g ∈ w.induction.intermediate, w.terms.Accepts g

theorem attempt_reset (depth : Nat) : ∃ result, ((oracle M).reset depth).attempt w =
    .ok result { w with induction := w.induction.configure w.terms (.reset depth) } := by
  cases depth with
  | zero => exact ⟨_, rfl⟩
  | succ depth => exact ⟨_, rfl⟩

theorem attempt_register (hw : Sound sys w) (f : Formula) (role : Role) :
    ∃ result, ((oracle M).register f role).attempt w =
      .ok result { w with induction := w.induction.configure w.terms (.add f role) } := by
  have hrun : (oracle M).register f role w =
      (ofChecked (w.induction.register w.terms f role) >>= fun induction =>
        set { w with induction }) w := rfl
  simp only [Action.attempt, hrun, InductionSolver.register, InductionSolver.configure]
  rcases eval_cases hw.canonical (allocatable_eq (hw.size ▸ sys.size_le)) f with
    ⟨s, hs⟩ | ⟨e, he⟩
  · rw [hs]
    cases role <;> exact ⟨_, rfl⟩
  · rw [he]
    exact ⟨_, rfl⟩

theorem attempt_call (hw : Sound sys w) (setting : Setting) :
    ∃ result, (call M setting).attempt w =
      .ok result { w with induction := w.induction.configure w.terms setting } := by
  cases setting with
  | reset depth => exact attempt_reset depth
  | add f role => exact attempt_register hw f role

theorem Ready.configure (h : Ready w) (setting : Setting) :
    Ready { w with induction := w.induction.configure w.terms setting } := by
  cases setting with
  | reset depth =>
      cases depth with
      | zero => exact h
      | succ depth => exact ⟨Nat.succ_pos depth, by simp [InductionSolver.configure],
          by simp [InductionSolver.configure]⟩
  | add f role =>
      cases hf : w.terms.eval f with
      | error flaw => simpa only [InductionSolver.configure, hf] using h
      | ok s =>
          have hmore : ∀ {fs : List Formula}, (∀ g ∈ fs, w.terms.Accepts g) →
              ∀ g ∈ fs ++ [f], w.terms.Accepts g := fun hfs g hg => by
            rcases List.mem_append.mp hg with hg | hg
            · exact hfs g hg
            · obtain rfl := List.mem_singleton.mp hg
              exact ⟨s, hf⟩
          cases role with
          | first =>
              simpa only [InductionSolver.configure, hf] using ⟨h.deep, hmore h.first, h.between⟩
          | intermediate =>
              simpa only [InductionSolver.configure, hf] using ⟨h.deep, h.first, hmore h.between⟩

/-- The session in which the calls leave one that has just loaded a system. -/
def configured (sys : TransitionSystem) (w : Session) (settings : List Setting) : Session :=
  { opened sys w with
    induction := settings.foldl (InductionSolver.configure w.terms) {} }

theorem prepare_eq (hw : Sound sys w) (hready : Ready w) (settings : List Setting) :
    prepare M settings w = .ok () { w with
        induction := settings.foldl (InductionSolver.configure w.terms) w.induction } ∧
      Ready { w with
        induction := settings.foldl (InductionSolver.configure w.terms) w.induction } := by
  induction settings generalizing w with
  | nil => exact ⟨rfl, hready⟩
  | cons setting rest ih =>
      obtain ⟨result, hcall⟩ := attempt_call (M := M) hw setting
      have hw' : Sound sys { w with induction := w.induction.configure w.terms setting } :=
        hw.congr rfl rfl
      obtain ⟨hrest, hready'⟩ := ih hw' (hready.configure setting)
      refine ⟨?_, hready'⟩
      simp only [prepare, bind, EStateM.bind, hcall]
      exact hrest

/-- The answer says whether a path evades the formula. Such a path comes with it, and a formula for
the state in which it begins. -/
structure Answered (w : Session) (f : Formula) (answer : InductionAnswer (List Nat))
    (w' : Session) : Prop where
  unsat_iff : answer = .unsat ↔ ∀ x mid y, ¬ w.induction.Evades w.system w.terms f x mid y
  sat : answer ≠ .unsat → ∃ g s x mid y, answer = .sat (some g) (some (x :: mid ++ [y])) ∧
    w.induction.Evades w.system w.terms f x mid y ∧ w'.terms.eval g = .ok s ∧
    ∀ z, s.contains z = true ↔ z = x

/-- A check is answered unless the machine ends before the length of a path. -/
structure Decides (M : Machine) (w : Session) (f : Formula) : Prop where
  answered : M.counts (w.induction.depth + 1) = true → M.lists (w.induction.depth + 1) = true →
    ∃ answer w', (oracle M).checkInductive f w = .ok answer w' ∧ Answered w f answer w'
  overflow : M.counts (w.induction.depth + 1) = false →
    (oracle M).checkInductive f w = .error (.violation .overflow) w
  capacity : M.counts (w.induction.depth + 1) = true → M.lists (w.induction.depth + 1) = false →
    (oracle M).checkInductive f w = .error (.violation .capacity) w

theorem checkInductive_of_refused {flaw : Flaw}
    (h : w.induction.check M w.system w.terms f = .error flaw) :
    (oracle M).checkInductive f w = .error flaw.toFault w := by
  change checkInductive M f w = _
  simp only [checkInductive, bind, EStateM.bind, Action.run_get, h]
  rfl

theorem Ready.decides (hw : Sound sys w) (hready : Ready w) (hf : w.terms.Accepts f) :
    Decides M w f where
  answered hcount hrow := by
    have hends : Action.Ends ((oracle M).checkInductive f) w (fun _ => False) (Answered w f) := by
      obtain rfl := hw.system
      refine ends_checkAccepted hw hready.deep hready.first hready.between hf
        (fun h => by rw [hcount] at h; cases h) (fun _ h => by rw [hrow] at h; cases h)
        (fun w' _ hnone => ⟨iff_of_true rfl hnone, fun h => absurd rfl h⟩)
        fun g r w' x mid y _ hevades hg hr => ?_
      exact ⟨iff_of_false nofun fun hnone => hnone x mid y hevades,
        fun _ => ⟨g, r, x, mid, y, rfl, hevades, eval_eq hg, hr⟩⟩
    exact hends.exists_ok
  overflow hcount := checkInductive_of_refused (InductionSolver.check_overflow hcount f)
  capacity hcount hrow := checkInductive_of_refused (InductionSolver.check_capacity hcount hrow f)

/-- Starting from a system that has just been loaded, over any universe of its size. -/
theorem checkInductive_decides (M : Machine) (hbuilt : w.terms.Built sys.size)
    (settings : List Setting) (hf : w.terms.Accepts f) :
    prepare M settings (opened sys w) = .ok () (configured sys w settings) ∧
      Ready (configured sys w settings) ∧ Decides M (configured sys w settings) f := by
  obtain ⟨hu, hn⟩ := hbuilt.canonical
  have hw : Sound sys (opened sys w) := ⟨rfl, hu, hn⟩
  have hfresh : Ready (opened sys w) := ⟨Nat.one_pos, by simp [opened], by simp [opened]⟩
  obtain ⟨hprepare, hready⟩ := prepare_eq (M := M) hw hfresh settings
  have hw' : Sound sys (configured sys w settings) := ⟨rfl, hu, hn⟩
  exact ⟨hprepare, hready, hready.decides hw' hf⟩

/-- Depth 0 is refused, and so is a formula that the universe does not have. -/
def drill : List Setting :=
  [.add ⟨1⟩ .first, .reset 2, .add ⟨0⟩ .first, .reset 0, .add ⟨7⟩ .first, .add ⟨0⟩ .intermediate]

theorem drill_decides :
    (configured forked (start .negation).world drill).induction =
        { depth := 2, first := [⟨0⟩], intermediate := [⟨0⟩] } ∧
      prepare .word64 drill (opened forked (start .negation).world) =
        .ok () (configured forked (start .negation).world drill) ∧
      Ready (configured forked (start .negation).world drill) ∧
      ∃ answer w', (oracle .word64).checkInductive ⟨1⟩
          (configured forked (start .negation).world drill) = .ok answer w' ∧
        Answered (configured forked (start .negation).world drill) ⟨1⟩ answer w' := by
  obtain ⟨hprepare, hready, hdecides⟩ := checkInductive_decides (w := (start .negation).world)
    (f := ⟨1⟩) .word64 built_words drill ⟨_, rfl⟩
  exact ⟨rfl, hprepare, hready, hdecides.answered (by decide) (by decide)⟩

end Session

end Invariance.FiniteState
