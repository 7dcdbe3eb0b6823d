import Invariance.FiniteState.InductionSolver
import Invariance.Proofs.FiniteState.Meaning

/-!
What an induction check answers. It finds a path that begins in all formulas of the role `first`,
stays in the intermediate ones and ends outside the formula, exactly if there is one.
-/

namespace Invariance.FiniteState

namespace Universe

/-- Every formula of the list stands for a set of states. -/
def Named (u : Universe) (fs : List Formula) : Prop := ∀ f ∈ fs, ∃ s, u.Names f s

def Within (u : Universe) (fs : List Formula) (x : Nat) : Prop :=
  ∀ f ∈ fs, ∀ s, u.Names f s → s.contains x = true

theorem Named.accepts {u : Universe} {fs : List Formula} (h : u.Named fs) :
    ∀ f ∈ fs, u.Accepts f := fun f hf => by
  obtain ⟨s, hs⟩ := h f hf
  exact ⟨s, eval_eq hs⟩

theorem Named.extend {u u' : Universe} {fs : List Formula} (h : u.Named fs) (hext : Extends u u') :
    u'.Named fs := fun f hf => by
  obtain ⟨s, hs⟩ := h f hf
  exact ⟨s, hext.names hs⟩

theorem Named.within_iff {u u' : Universe} {fs : List Formula} (h : u.Named fs)
    (hext : Extends u u') {x : Nat} : u'.Within fs x ↔ u.Within fs x := by
  constructor
  · exact fun hx f hf s hs => hx f hf s (hext.names hs)
  · intro hx f hf s hs
    obtain ⟨s', hs'⟩ := h f hf
    obtain rfl := hs.eq (hext.names hs')
    exact hx f hf s hs'

theorem meet_total {n : Nat} {value : Formula → Checked StateSet} {fs : List Formula} :
    ∀ {acc : StateSet}, acc.size = n → (∀ g ∈ fs, ∃ t, value g = .ok t ∧ t.size = n) →
    ∃ s, fs.foldlM (fun acc g => do Checked.ofExcept (acc.inter (← value g))) acc = .ok s := by
  induction fs with
  | nil => exact fun _ _ => ⟨_, rfl⟩
  | cons g fs ih =>
      intro acc hacc hfs
      obtain ⟨t, ht, htsize⟩ := hfs g List.mem_cons_self
      obtain ⟨r, hr, hrsize, _⟩ := StateSet.inter_eq (hacc.trans htsize.symm)
      obtain ⟨s, hs⟩ := ih (hrsize.trans hacc) fun g' hg' => hfs g' (List.mem_cons_of_mem _ hg')
      refine ⟨s, ?_⟩
      rw [List.foldlM_cons]
      simp only [ht, bind, Except.bind, hr]
      exact hs

end Universe

namespace InductionSolver

open TransitionSystem Universe

theorem conjunction_accepts {n : Nat} {u : Universe} (hu : u.Canonical) (hn : u.size = n)
    {fs : List Formula} (hfs : ∀ f ∈ fs, u.Accepts f) :
    ∃ s, conjunction n u fs = .ok s ∧ s.size = n ∧
      ∀ x, s.contains x = true ↔ x < n ∧ ∀ f ∈ fs, u.Holds f x := by
  have hvalues : ∀ f ∈ fs, ∃ t, u.eval f = .ok t ∧ t.size = n := fun f hf => by
    obtain ⟨t, ht⟩ := hfs f hf
    exact ⟨t, ht, (size_of_eval hu ht).trans hn⟩
  have hfull : (StateSet.full n).size = n := rfl
  obtain ⟨s, hs⟩ := meet_total hfull hvalues
  obtain ⟨hsize, _, hc⟩ := meet_eq hfull hs
  refine ⟨s, hs, hsize, fun x => ?_⟩
  rw [hc, StateSet.contains_full, decide_eq_true_eq]
  refine and_congr_right fun _ => forall₂_congr fun f hf => ?_
  obtain ⟨t, ht⟩ := hfs f hf
  rw [Universe.holds_of_eval ht, ht]
  simp

def enter (solver : InductionSolver) (f : Formula) : Role → InductionSolver
  | .first => { solver with first := solver.first ++ [f] }
  | .intermediate => { solver with intermediate := solver.intermediate ++ [f] }

theorem register_eq {solver : InductionSolver} {u : Universe} {f : Formula} {s : StateSet}
    (h : u.Names f s) (role : Role) : solver.register u f role = .ok (solver.enter f role) := by
  cases role <;> simp only [register, eval_eq h, bind, Except.bind] <;> rfl

structure Counters (solver : InductionSolver) (sys : TransitionSystem) (u : Universe)
    (s : StateSet) (x : Nat) (mid : List Nat) (y : Nat) : Prop where
  chain : (x :: mid ++ [y]).IsChain sys.Edge
  length : mid.length + 1 = solver.depth
  first : u.Within solver.first x
  between : ∀ z ∈ mid, u.Within solver.intermediate z
  outside : s.contains y = false

/-- A path of as many steps as the check is deep that begins in all formulas of the role `first`,
stays in the intermediate ones and ends outside `f`. -/
structure Evades (solver : InductionSolver) (sys : TransitionSystem) (u : Universe) (f : Formula)
    (x : Nat) (mid : List Nat) (y : Nat) : Prop where
  chain : (x :: mid ++ [y]).IsChain sys.Edge
  length : mid.length + 1 = solver.depth
  first : ∀ g ∈ solver.first, u.Holds g x
  between : ∀ z ∈ mid, ∀ g ∈ solver.intermediate, u.Holds g z
  outside : ¬ u.Holds f y

theorem within_iff {u : Universe} {fs : List Formula} (hfs : u.Named fs) {x : Nat} :
    u.Within fs x ↔ ∀ f ∈ fs, u.Holds f x := by
  refine forall₂_congr fun f hf => ?_
  obtain ⟨t, ht⟩ := hfs f hf
  rw [Universe.holds_iff ht]
  constructor
  · exact fun hx => hx t ht
  · intro hx t' ht'
    rwa [ht'.eq ht]

theorem counters_iff {solver : InductionSolver} {sys : TransitionSystem} {u : Universe}
    (hfirst : u.Named solver.first) (hbetween : u.Named solver.intermediate) {f : Formula}
    {s : StateSet} (hf : u.Names f s) {x : Nat} {mid : List Nat} {y : Nat} :
    solver.Counters sys u s x mid y ↔ solver.Evades sys u f x mid y := by
  have hout : s.contains y = false ↔ ¬ u.Holds f y := by
    rw [Universe.holds_iff hf, Bool.not_eq_true]
  constructor
  · exact fun h => ⟨h.chain, h.length, (within_iff hfirst).mp h.first,
      fun z hz => (within_iff hbetween).mp (h.between z hz), hout.mp h.outside⟩
  · exact fun h => ⟨h.chain, h.length, (within_iff hfirst).mpr h.first,
      fun z hz => (within_iff hbetween).mpr (h.between z hz), hout.mpr h.outside⟩

theorem meets_replicate {s : StateSet} {k : Nat} {path : List Nat} :
    Meets (List.replicate k s) path ↔ path.length = k ∧ ∀ z ∈ path, s.contains z = true := by
  rw [Meets, List.forall₂_iff_zip]
  induction path generalizing k with
  | nil => cases k <;> simp
  | cons z path ih =>
      cases k with
      | zero => simp
      | succ k =>
          have ih' := ih (k := k)
          simp only [List.length_replicate] at ih'
          simp only [List.replicate_succ, List.length_cons, List.length_replicate,
            List.zip_cons_cons, List.mem_cons, Nat.add_right_cancel_iff, forall_eq_or_imp]
          constructor
          · rintro ⟨hk, h⟩
            have hrest := ih'.mp ⟨hk, fun hm => h (Or.inr hm)⟩
            exact ⟨hrest.1, h (Or.inl rfl), hrest.2⟩
          · rintro ⟨hk, hz, h⟩
            have hrest := ih'.mpr ⟨hk, h⟩
            refine ⟨hrest.1, fun hm => ?_⟩
            rcases hm with heq | hm
            · obtain ⟨rfl, rfl⟩ := Prod.mk.inj heq
              exact hz
            · exact hrest.2 hm

variable {M : Machine} {solver : InductionSolver} {sys : TransitionSystem} {u : Universe}

theorem follows_iff {first intermediate s : StateSet} {f : Formula} (hs : s.size = sys.size)
    (hfirst : ∀ x, first.contains x = true ↔ x < sys.size ∧ ∀ g ∈ solver.first, u.Holds g x)
    (hbetween : ∀ x, intermediate.contains x = true ↔
      x < sys.size ∧ ∀ g ∈ solver.intermediate, u.Holds g x)
    (hf : u.eval f = .ok s) (hdepth : 0 < solver.depth) {path : List Nat} :
    Follows sys (.full sys.size)
        (first :: List.replicate (solver.depth - 1) intermediate ++ [s.complement]) path ↔
      ∃ x mid y, path = x :: mid ++ [y] ∧ solver.Evades sys u f x mid y := by
  have hout : ∀ {y}, s.contains y = false ↔ ¬ u.Holds f y := fun {y} => by
    rw [holds_of_eval hf, Bool.not_eq_true]
  constructor
  · rintro ⟨hchain, hmeets, _⟩
    obtain ⟨front, y, rfl, hfront, hy⟩ := meets_snoc.mp hmeets
    rcases hfront with _ | ⟨hx, hmid⟩
    obtain ⟨hlen, hmid⟩ := meets_replicate.mp hmid
    refine ⟨_, _, y, rfl, hchain, by omega, ((hfirst _).mp hx).2, fun z hz => ?_, ?_⟩
    · exact ((hbetween z).mp (hmid z hz)).2
    · exact hout.mp (StateSet.contains_complement_iff.mp hy).2
  · rintro ⟨x, mid, y, rfl, h⟩
    have hlt : ∀ z ∈ x :: mid, z < sys.size := fun z hz => by
      obtain ⟨i, hi, rfl⟩ := List.mem_iff_getElem.mp hz
      have hedge := List.isChain_iff_getElem.mp h.chain i (by simpa using hi)
      rw [List.getElem_append_left hi] at hedge
      exact hedge.lt_left
    have hylt : y < sys.size := by
      have hedge := List.isChain_iff_getElem.mp h.chain mid.length (by simp)
      simp only [List.cons_append, List.getElem_cons_succ, List.getElem_concat_length] at hedge
      exact hedge.lt_right
    refine ⟨h.chain, meets_snoc.mpr ⟨x :: mid, y, rfl, .cons ?_ ?_, ?_⟩, fun z hz => ?_⟩
    · exact (hfirst x).mpr ⟨hlt x List.mem_cons_self, h.first⟩
    · have hlen := h.length
      exact meets_replicate.mpr ⟨by omega, fun z hz =>
        (hbetween z).mpr ⟨hlt z (List.mem_cons_of_mem _ hz), h.between z hz⟩⟩
    · exact StateSet.contains_complement_iff.mpr ⟨hs ▸ hylt, hout.mpr h.outside⟩
    · obtain rfl : x = z := Option.some.inj hz
      rw [StateSet.contains_full, decide_eq_true (hlt x List.mem_cons_self)]

theorem check_eq (hu : u.Canonical) (hn : u.size = sys.size) (hdepth : 0 < solver.depth)
    (hfirst : ∀ g ∈ solver.first, u.Accepts g) (hbetween : ∀ g ∈ solver.intermediate, u.Accepts g)
    {f : Formula} (hf : u.Accepts f) (hcount : M.counts (solver.depth + 1) = true)
    (hrow : M.lists (solver.depth + 1) = true) :
    (∃ x mid y, solver.check M sys u f = .ok (some (x :: mid ++ [y])) ∧
      solver.Evades sys u f x mid y) ∨
    (solver.check M sys u f = .ok none ∧ ∀ x mid y, ¬ solver.Evades sys u f x mid y) := by
  obtain ⟨first, hfirst', hfsize, hfc⟩ := conjunction_accepts hu hn hfirst
  obtain ⟨between, hbetween', hbsize, hbc⟩ := conjunction_accepts hu hn hbetween
  obtain ⟨s, hs⟩ := hf
  have hsize : s.size = sys.size := (size_of_eval hu hs).trans hn
  have hsizes : ∀ c ∈ first :: List.replicate (solver.depth - 1) between ++ [s.complement],
      c.size = sys.size := fun c hc => by
    rcases List.mem_append.mp hc with hc | hc
    · rcases List.mem_cons.mp hc with rfl | hc
      · exact hfsize
      · rw [(List.mem_replicate.mp hc).2, hbsize]
    · rw [List.mem_singleton.mp hc]
      exact hsize
  have hrun : solver.check M sys u f = Checked.ofExcept (PathSolver.findPath sys (.full sys.size)
      (first :: List.replicate (solver.depth - 1) between ++ [s.complement])) := by
    simp only [check, Machine.add, hcount, Machine.allot, hrow, if_true, hfirst', hbetween', hs,
      bind, Except.bind, Checked.ofExcept, Except.mapError]
  have hiff := @follows_iff solver sys u first between s f hsize hfc hbc hs hdepth
  have hfull : (StateSet.full sys.size).size = sys.size := rfl
  rw [hrun]
  rcases PathSolver.findPath_eq (by simp) hfull hsizes with
    ⟨path, hpath, hfollows⟩ | ⟨hnone, hnot⟩
  · obtain ⟨x, mid, y, rfl, hevades⟩ := hiff.mp hfollows
    exact Or.inl ⟨x, mid, y, by rw [hpath]; rfl, hevades⟩
  · exact Or.inr ⟨by rw [hnone]; rfl, fun x mid y h => hnot _ (hiff.mpr ⟨x, mid, y, rfl, h⟩)⟩

theorem check_overflow (hcount : M.counts (solver.depth + 1) = false) (f : Formula) :
    solver.check M sys u f = .error (.violation .overflow) := by
  simp [check, Machine.add, hcount, Checked.ofExcept, Except.mapError, bind, Except.bind]

theorem check_capacity (hcount : M.counts (solver.depth + 1) = true)
    (hrow : M.lists (solver.depth + 1) = false) (f : Formula) :
    solver.check M sys u f = .error (.violation .capacity) := by
  simp [check, Machine.add, hcount, Machine.allot, hrow, Checked.ofExcept, Except.mapError, bind,
    Except.bind]

end InductionSolver

end Invariance.FiniteState
