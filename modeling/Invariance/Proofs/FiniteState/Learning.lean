import Invariance.Proofs.FiniteState.Exploring

/-!
Learning forward. The loop adds the image of the last layer to what is reached so far, so after any
number of turns it has exactly the states that at most as many steps lead to. Main statement: what
is learnt against a formula excludes it, and takes in all that is reached up to the active frame
unless the formula is reached itself.
-/

namespace Invariance.FiniteState

namespace TransitionSystem

variable {sys : TransitionSystem} {n x : Nat}

/-- At most so many steps lead from an initial state to this one. -/
def ReachedWithin (sys : TransitionSystem) (n x : Nat) : Prop := ∃ k, k ≤ n ∧ sys.ReachedIn k x

theorem reachedWithin_zero : sys.ReachedWithin 0 x ↔ sys.Initial x := by
  constructor
  · rintro ⟨k, hk, hx⟩
    obtain rfl := Nat.le_zero.mp hk
    exact Reachability.reachedIn_zero.mp hx
  · exact fun hx => ⟨0, Nat.le_refl 0, .initial hx⟩

theorem reachedWithin_succ :
    sys.ReachedWithin (n + 1) x ↔ sys.ReachedWithin n x ∨ sys.ReachedIn (n + 1) x := by
  constructor
  · rintro ⟨k, hk, hx⟩
    rcases Nat.lt_or_eq_of_le hk with hlt | rfl
    · exact Or.inl ⟨k, Nat.le_of_lt_succ hlt, hx⟩
    · exact Or.inr hx
  · rintro (⟨k, hk, hx⟩ | hx)
    · exact ⟨k, Nat.le_succ_of_le hk, hx⟩
    · exact ⟨n + 1, Nat.le_refl _, hx⟩

theorem ReachedWithin.lt (h : sys.ReachedWithin n x) : x < sys.size := by
  obtain ⟨_, _, hx⟩ := h
  exact hx.reachable.lt

end TransitionSystem

open TransitionSystem Universe

/-- Where the loop stands after `k` turns. -/
structure Spread (sys : TransitionSystem) (k : Nat) (layer reached : StateSet) : Prop where
  layer_size : layer.size = sys.size
  layer_iff : ∀ x, layer.contains x = true ↔ sys.ReachedIn k x
  reached_size : reached.size = sys.size
  reached_iff : ∀ x, reached.contains x = true ↔ sys.ReachedWithin k x

variable {sys : TransitionSystem}

theorem spread_init : Spread sys 0 sys.init sys.init where
  layer_size := sys.init_size
  layer_iff _ := Reachability.reachedIn_zero.symm
  reached_size := sys.init_size
  reached_iff _ := reachedWithin_zero.symm

/-- A turn cannot fail, and it goes one step further. -/
theorem Spread.turn {k : Nat} {layer reached : StateSet} (h : Spread sys k layer reached) :
    ∃ next more, sys.post layer = .ok next ∧ reached.union next = .ok more ∧
      Spread sys (k + 1) next more := by
  obtain ⟨next, hnext, hnsize, hnc⟩ := post_eq h.layer_size
  obtain ⟨more, hmore, hmsize, hmc⟩ := StateSet.union_eq (h.reached_size.trans hnsize.symm)
  have hlayer : ∀ x, next.contains x = true ↔ sys.ReachedIn (k + 1) x := fun x => by
    simp only [hnc, h.layer_iff, Reachability.reachedIn_succ]
  refine ⟨next, more, hnext, hmore, hnsize, hlayer, hmsize.trans h.reached_size, fun x => ?_⟩
  rw [hmc, h.reached_iff, hlayer, reachedWithin_succ]

theorem Spread.reachFrom_eq : ∀ (steps : Nat) {k : Nat} {layer reached : StateSet},
    Spread sys k layer reached → ∃ last r, reachFrom sys layer reached steps = .ok r ∧
      Spread sys (k + steps) last r
  | 0, _, layer, reached, h => ⟨layer, reached, rfl, h⟩
  | steps + 1, k, layer, reached, h => by
      obtain ⟨next, more, hnext, hmore, hturn⟩ := h.turn
      obtain ⟨last, r, hr, hrest⟩ := hturn.reachFrom_eq steps
      refine ⟨last, r, ?_, by rwa [Nat.add_right_comm] at hrest⟩
      rw [reachFrom, hnext]
      simp only [bind, Except.bind, hmore, hr]

theorem reachableWithin_eq (sys : TransitionSystem) (n : Nat) :
    ∃ r, reachableWithin sys n = .ok r ∧ r.size = sys.size ∧
      ∀ x, r.contains x = true ↔ sys.ReachedWithin n x := by
  obtain ⟨_, r, hr, hspread⟩ := Spread.reachFrom_eq n (spread_init : Spread sys _ _ _)
  rw [Nat.zero_add] at hspread
  exact ⟨r, hr, hspread.reached_size, hspread.reached_iff⟩

namespace Universe

variable {u : Universe} {g : Formula} {s : StateSet}

/-- A conjunction, too, is negated by a set of states. -/
theorem negate_of_eval (hu : u.Canonical) (h : u.eval g = .ok s) :
    ∃ f u', u.negate g = .ok (f, u') ∧ Made u f (.states s.complement) u' := by
  obtain ⟨f, u', hset, hmade⟩ := ofSet_eq hu (s := s.complement)
    (show s.size = u.size from size_of_eval hu h)
  exact ⟨f, u', by simp only [negate, h, hset], hmade⟩

/-- What is learnt is one of two sets, and which one depends on whether the formula is reached. -/
theorem learnForward_cases (mode : ForwardLearning) (hu : u.Canonical) (hn : u.size = sys.size)
    (hg : u.eval g = .ok s) (n : Nat) : ∃ f t u', learnForward mode sys u n g = .ok (f, u') ∧
      Made u f (.states t) u' ∧ ((mode = .reachable ∧ (∀ x, t.contains x = true ↔
          sys.ReachedWithin n x) ∧ ∀ x, t.contains x = true → s.contains x = false) ∨
        (t = s.complement ∧ (mode = .reachable → ∃ x, sys.ReachedWithin n x ∧
          s.contains x = true))) := by
  obtain ⟨f, u', hnegate, hmade⟩ := negate_of_eval hu hg
  cases mode with
  | negation =>
      refine ⟨f, _, u', ?_, hmade, Or.inr ⟨rfl, nofun⟩⟩
      simp only [learnForward, hg, bind, Except.bind, hnegate]
      rfl
  | reachable =>
      obtain ⟨r, hr, hrsize, hrc⟩ := reachableWithin_eq sys n
      have hssize : s.size = sys.size := (size_of_eval hu hg).trans hn
      obtain ⟨common, hcommon, _, hc⟩ := StateSet.inter_eq (hrsize.trans hssize.symm)
      cases hempty : common.isEmpty with
      | true =>
          obtain ⟨f, u', hset, hmade⟩ := ofSet_eq hu (hrsize.trans hn.symm)
          refine ⟨f, r, u', ?_, hmade, Or.inl ⟨rfl, hrc, fun x hx => ?_⟩⟩
          · simp only [learnForward, hg, hr, hcommon, hempty, hset, bind, Except.bind,
              Checked.ofExcept, Except.mapError, if_true]
          · have hout := StateSet.isEmpty_iff.mp hempty x
            exact Bool.eq_false_iff.mpr fun hs => by
              rw [(hc x).mpr ⟨hx, hs⟩] at hout
              cases hout
      | false =>
          obtain ⟨x, hx⟩ := StateSet.exists_of_not_isEmpty hempty
          obtain ⟨hxr, hxs⟩ := (hc x).mp hx
          refine ⟨f, _, u', ?_, hmade, Or.inr ⟨rfl, fun _ => ⟨x, (hrc x).mp hxr, hxs⟩⟩⟩
          simp only [learnForward, hg, hr, hcommon, hempty, hnegate, bind, Except.bind,
            Checked.ofExcept, Except.mapError, Bool.false_eq_true, if_false]

end Universe

namespace Session

variable {M : Machine} {w w' : Session} {f g : Formula} {n : Nat}

/-- No state of `g` is reached up to the frame `n`. -/
def Unmet (w : Session) (n : Nat) (g : Formula) : Prop :=
  ∀ x, w.system.ReachedWithin n x → ¬ w.terms.Holds g x

/-- What the formula `f` that is learnt against `g` at the frame `n` stands for. -/
structure Separates (w : Session) (n : Nat) (g f : Formula) (w' : Session) : Prop where
  grows : Grows w w'
  accepted : w'.terms.Accepts f
  disjoint : ∀ x, w.terms.Holds g x → ¬ w'.terms.Holds f x
  covers : Unmet w n g → ∀ x, w.system.ReachedWithin n x → w'.terms.Holds f x
  exact : w.forward = .reachable → Unmet w n g →
    ∀ x, w'.terms.Holds f x ↔ w.system.ReachedWithin n x

/-- It stands for what is reached, which has no state of `g`. -/
theorem Separates.of_reached (hgrows : Grows w w') (haccepted : w'.terms.Accepts f)
    (hexact : ∀ x, w'.terms.Holds f x ↔ w.system.ReachedWithin n x) (hunmet : Unmet w n g) :
    Separates w n g f w' where
  grows := hgrows
  accepted := haccepted
  disjoint x hx hx' := hunmet x ((hexact x).mp hx') hx
  covers _ x := (hexact x).mpr
  exact _ _ := hexact

/-- It stands for all other states than those of `g`. -/
theorem Separates.of_negated (hgrows : Grows w w') (haccepted : w'.terms.Accepts f)
    (hnegated : ∀ x, w'.terms.Holds f x ↔ x < w.system.size ∧ ¬ w.terms.Holds g x)
    (hmet : w.forward = .reachable → ¬ Unmet w n g) : Separates w n g f w' where
  grows := hgrows
  accepted := haccepted
  disjoint x hx hx' := ((hnegated x).mp hx').2 hx
  covers hunmet x hx := (hnegated x).mpr ⟨hx.lt, hunmet x hx⟩
  exact hmode hunmet := absurd hunmet (hmet hmode)

theorem learnForward_eq {u : Universe}
    (h : FiniteState.learnForward w.forward w.system w.terms n g = .ok (f, u)) :
    (oracle M).learnForward n g w = .ok f { w with terms := u } := by
  change (ofChecked (FiniteState.learnForward w.forward w.system w.terms n g) >>=
    fun r : Formula × Universe => (do set { w with terms := r.2 }; return r.1)) w = _
  rw [h]
  rfl

/-- Over any universe of the size of the system, however it was built. -/
theorem learnForward_separates (M : Machine) (hbuilt : w.terms.Built w.system.size)
    (hg : w.terms.Accepts g) (n : Nat) :
    ∃ f w', (oracle M).learnForward n g w = .ok f w' ∧ Separates w n g f w' := by
  obtain ⟨hu, hn⟩ := hbuilt.canonical
  obtain ⟨s, hs⟩ := hg
  obtain ⟨f, t, u, hlearn, hmade, hcases⟩ := learnForward_cases w.forward hu hn hs n
  have hholds : ∀ x, w.terms.Holds g x ↔ s.contains x = true := fun x => holds_of_eval hs
  have hholds' : ∀ x, u.Holds f x ↔ t.contains x = true := fun x =>
    holds_of_eval (eval_eq hmade.stored)
  have hgrows : Grows w { w with terms := u } := ⟨hmade.grows, hmade.canonical, rfl⟩
  have haccepted : u.Accepts f := ⟨t, eval_eq hmade.stored⟩
  refine ⟨f, { w with terms := u }, learnForward_eq hlearn, ?_⟩
  rcases hcases with ⟨_, hreached, hout⟩ | ⟨rfl, hmet⟩
  · refine .of_reached hgrows haccepted (fun x => (hholds' x).trans (hreached x)) fun x hx hx' => ?_
    have hnot := hout x ((hreached x).mpr hx)
    rw [(hholds x).mp hx'] at hnot
    cases hnot
  · refine .of_negated hgrows haccepted (fun x => ?_) fun hmode hunmet => ?_
    · change u.Holds f x ↔ _
      rw [hholds', hholds, StateSet.contains_complement_iff, size_of_eval hu hs, hn,
        Bool.not_eq_true]
    · obtain ⟨x, hx, hx'⟩ := hmet hmode
      exact hunmet x hx ((hholds x).mpr hx')

def pair (x y : Fin 4) : StateSet := (StateSet.add (.empty 4) x x.isLt).add y y.isLt

/-- The states 1 and 2, the states 2 and 3, and the conjunction of the two. -/
def pincered : Session where
  terms :=
    { size := 4
      terms := #[.states (pair 1 2), .states (pair 2 3), .conj [⟨0⟩, ⟨1⟩]] }
  system := forked
  forward := .reachable

theorem built_pincered : pincered.terms.Built pincered.system.size := by
  have hfirst : Universe.Built 4 { size := 4, terms := pincered.terms.terms.take 1 } :=
    .ofSet (f := ⟨0⟩) (s := pair 1 2) .new rfl
  have hsecond : Universe.Built 4 { size := 4, terms := pincered.terms.terms.take 2 } :=
    .ofSet (f := ⟨1⟩) (s := pair 2 3) hfirst rfl
  have hlive : ∀ f ∈ ([⟨0⟩, ⟨1⟩] : List Formula),
      Universe.Live { size := 4, terms := pincered.terms.terms.take 2 } f := by decide
  exact .conj hsecond hlive

theorem unmet_pincered : Unmet pincered 5 ⟨2⟩ := by
  rintro x hx ⟨s, hs, hx'⟩
  obtain ⟨r, hr, _, hrc⟩ := reachableWithin_eq forked 5
  have hreached : reachableWithin forked 5 = .ok (pair 0 1) := by decide
  have heval : pincered.terms.eval ⟨2⟩ = .ok (.add (.empty 4) 2 (by decide)) := by decide
  obtain rfl := Except.ok.inj (hreached.symm.trans hr)
  obtain rfl := Except.ok.inj (heval.symm.trans hs)
  obtain rfl : 2 = x := by simpa [StateSet.contains_add, StateSet.contains_empty] using hx'
  cases (hrc 2).mpr hx

theorem pincered_separates : ∃ f w', (oracle .word64).learnForward 5 ⟨2⟩ pincered = .ok f w' ∧
    Separates pincered 5 ⟨2⟩ f w' ∧ ∀ x, w'.terms.Holds f x ↔ forked.ReachedWithin 5 x := by
  obtain ⟨f, w', hlearn, hseparates⟩ := learnForward_separates (w := pincered) (g := ⟨2⟩) .word64
    built_pincered ⟨_, rfl⟩ 5
  exact ⟨f, w', hlearn, hseparates, hseparates.exact rfl unmet_pincered⟩

end Session

end Invariance.FiniteState
