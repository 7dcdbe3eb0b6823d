import Invariance.Proofs.FiniteState.Catalogues
import Invariance.Proofs.FiniteState.Verdicts

/-!
Bounded reachability, whatever was asked before. Every layer that is kept holds the states that are
reached in as many steps as its place says, and no call breaks that, so an answer does not depend on
which layers were there already. Main statement: a window is hit exactly if a path of one of its
lengths leads to the formula; then the counterexample lists a path of the least such length.
-/

namespace Invariance.FiniteState

open TransitionSystem Universe

namespace Reachability

variable {sys : TransitionSystem} {layers : Array StateSet} {target : StateSet}

def Exact (sys : TransitionSystem) (layers : Array StateSet) : Prop :=
  ∀ (k : Nat) (s : StateSet), layers[k]? = some s →
    s.size = sys.size ∧ ∀ x, s.contains x = true ↔ sys.ReachedIn k x

theorem reachedIn_zero {x : Nat} : sys.ReachedIn 0 x ↔ sys.Initial x := by
  constructor
  · rintro (h | _)
    exact h
  · exact .initial

theorem reachedIn_succ {k y : Nat} :
    sys.ReachedIn (k + 1) y ↔ ∃ x, sys.ReachedIn k x ∧ sys.Edge x y := by
  constructor
  · rintro (_ | ⟨hx, hedge⟩)
    exact ⟨_, hx, hedge⟩
  · rintro ⟨x, hx, hedge⟩
    exact .step hx hedge

theorem exact_empty : Exact sys #[] := fun k s hs => by simp at hs

theorem exact_init : Exact sys #[sys.init] := fun k s hs => by
  obtain ⟨rfl, rfl⟩ : k = 0 ∧ sys.init = s := by
    cases k with
    | zero => exact ⟨rfl, by simpa using hs⟩
    | succ k => simp at hs
  exact ⟨sys.init_size, fun x => reachedIn_zero.symm⟩

/-- The step of the cache: the image of the last layer is the next. -/
theorem Exact.push (h : Exact sys layers) {k : Nat} (hk : layers.size = k + 1)
    {last next : StateSet} (hlast : layers[k]? = some last) (hnext : sys.post last = .ok next) :
    Exact sys (layers.push next) := by
  obtain ⟨hsize, hc⟩ := h k last hlast
  obtain ⟨next', hnext', hnsize, hnc⟩ := post_eq hsize
  obtain rfl := Except.ok.inj (hnext.symm.trans hnext')
  intro i s hs
  rw [Array.getElem?_push, hk] at hs
  split at hs
  next hi =>
    subst hi
    obtain rfl := Option.some.inj hs
    exact ⟨hnsize, fun y => by simp only [hnc, hc, reachedIn_succ]⟩
  next => exact h i s hs

theorem grow_eq : ∀ (count : Nat) {layers : Array StateSet} {last : StateSet} {k : Nat},
    Exact sys layers → layers.size = k + 1 → layers[k]? = some last →
    ∃ layers', grow sys layers last count = .ok layers' ∧ Exact sys layers' ∧
      layers'.size = layers.size + count
  | 0, layers, _, _, h, _, _ => ⟨layers, rfl, h, rfl⟩
  | count + 1, layers, last, k, h, hk, hlast => by
      obtain ⟨next, hnext, _, _⟩ := post_eq (h k last hlast).1
      have hpush : (layers.push next)[k + 1]? = some next := by
        rw [← hk]
        exact Array.getElem?_push_size
      obtain ⟨layers', hgrow, h', hsize'⟩ := grow_eq count (h.push hk hlast hnext)
        ((Array.size_push next).trans (congrArg (· + 1) hk)) hpush
      refine ⟨layers', ?_, h', by rw [hsize', Array.size_push]; omega⟩
      rw [grow, hnext]
      exact hgrow

theorem layersTo_eq {reach : Reachability} (h : Exact sys reach.layers) (last : Nat) :
    ∃ layers, reach.layersTo sys last = .ok layers ∧ Exact sys layers ∧ last < layers.size := by
  rw [layersTo]
  cases hback : reach.layers.back? with
  | none =>
      obtain ⟨layers, hgrow, h', hsize⟩ := grow_eq (k := 0) last exact_init rfl rfl
      refine ⟨layers, hgrow, h', ?_⟩
      rw [hsize, Array.size_singleton]
      omega
  | some layer =>
      rw [Array.back?_eq_getElem?] at hback
      have hpos : reach.layers.size - 1 < reach.layers.size :=
        (Array.getElem?_eq_some_iff.mp hback).1
      obtain ⟨layers, hgrow, h', hsize⟩ :=
        grow_eq (last + 1 - reach.layers.size) h (by omega) hback
      exact ⟨layers, hgrow, h', by omega⟩

/-- The formula holds somewhere after so many steps. -/
def Hits (sys : TransitionSystem) (target : StateSet) (k : Nat) : Prop :=
  ∃ x, sys.ReachedIn k x ∧ target.contains x = true

theorem firstHit_eq (h : Exact sys layers) (htarget : target.size = sys.size) :
    ∀ {count step : Nat}, (∀ k, step ≤ k → k < step + count → k < layers.size) →
    (∃ k x, firstHit layers target step count = .ok (some (k, x)) ∧ step ≤ k ∧ k < step + count ∧
      sys.ReachedIn k x ∧ target.contains x = true ∧ ∀ j, step ≤ j → j < k → ¬ Hits sys target j) ∨
    (firstHit layers target step count = .ok none ∧
      ∀ j, step ≤ j → j < step + count → ¬ Hits sys target j)
  | 0, step, _ => Or.inr ⟨rfl, fun j hle hlt => absurd hlt (by omega)⟩
  | count + 1, step, hin => by
      have hstep : step < layers.size := hin step (Nat.le_refl _) (by omega)
      have hlayer : layers[step]? = some layers[step] := Array.getElem?_eq_getElem hstep
      obtain ⟨hsize, hc⟩ := h step _ hlayer
      obtain ⟨common, hcommon, _, hcc⟩ := StateSet.inter_eq (hsize.trans htarget.symm)
      rw [firstHit, hlayer]
      simp only [hcommon, bind, Except.bind]
      cases hfirst : common.first with
      | some x =>
          obtain ⟨hx, hx'⟩ := (hcc x).mp (StateSet.first_eq_some hfirst)
          exact Or.inl ⟨step, x, rfl, Nat.le_refl _, by omega, (hc x).mp hx, hx',
            fun j hle hlt => absurd hlt (Nat.not_lt_of_le hle)⟩
      | none =>
          have hmiss : ¬ Hits sys target step := by
            rintro ⟨x, hx, hx'⟩
            have hnot := StateSet.first_eq_none.mp hfirst x
            rw [(hcc x).mpr ⟨(hc x).mpr hx, hx'⟩] at hnot
            cases hnot
          have hmisses : ∀ j, step ≤ j → (step + 1 ≤ j → ¬ Hits sys target j) →
              ¬ Hits sys target j := fun j hle hlater => by
            rcases Nat.lt_or_eq_of_le hle with hlt | rfl
            · exact hlater hlt
            · exact hmiss
          have hrest : ∀ k, step + 1 ≤ k → k < step + 1 + count → k < layers.size :=
            fun k hle hlt => hin k (by omega) (by omega)
          rcases firstHit_eq h htarget hrest with
            ⟨k, x, hrun, hle, hlt, hx, hx', hleast⟩ | ⟨hrun, hnone⟩
          · exact Or.inl ⟨k, x, hrun, by omega, by omega, hx, hx',
              fun j hle hlt => hmisses j hle fun hle => hleast j hle hlt⟩
          · exact Or.inr ⟨hrun,
              fun j hle hlt => hmisses j hle fun hle => hnone j hle (by omega)⟩

theorem Exact.feeds (h : Exact sys layers) (k : Nat) :
    (layers.toList.take k).IsChain sys.Feeds := by
  refine List.isChain_iff_getElem.mpr fun i hi => ?_
  rw [List.length_take] at hi
  have hi' : i + 1 < layers.size := by
    rw [Array.length_toList] at hi
    omega
  simp only [List.getElem_take, Array.getElem_toList]
  intro y hy
  obtain ⟨_, hc⟩ := h i _ (Array.getElem?_eq_getElem (Nat.lt_of_succ_lt hi'))
  obtain ⟨_, hc'⟩ := h (i + 1) _ (Array.getElem?_eq_getElem hi')
  obtain ⟨x, hx, hedge⟩ := reachedIn_succ.mp ((hc' y).mp hy)
  exact ⟨x, (hc x).mpr hx, hedge⟩

/-- A path of so many steps from an initial state into the target. -/
structure Leads (sys : TransitionSystem) (target : StateSet) (k : Nat) (path : List Nat) :
    Prop where
  length : path.length = k + 1
  chain : path.IsChain sys.Edge
  start : ∀ x ∈ path.head?, sys.Initial x
  ends : ∀ x ∈ path.getLast?, target.contains x = true

theorem Leads.lt_size {k : Nat} {path : List Nat} (h : Leads sys target k path) :
    ∀ x ∈ path, x < sys.size :=
  lt_size_of_path h.chain h.start

theorem Exact.witness_eq (h : Exact sys layers) {k x : Nat} (hk : k < layers.size)
    (hx : sys.ReachedIn k x) (hx' : target.contains x = true) :
    ∃ path, sys.witness (layers.toList.take (k + 1)) x = .ok path ∧
      Leads sys target k path := by
  have hk' : layers[k]? = some layers[k] := Array.getElem?_eq_getElem hk
  have htake : layers.toList.take (k + 1) = layers.toList.take k ++ [layers[k]] := by
    rw [List.take_add_one, Array.getElem?_toList, hk']
    rfl
  have hsizes : ∀ t ∈ layers.toList.take k, t.size = sys.size := fun t ht => by
    obtain ⟨i, hi⟩ := List.getElem?_of_mem (List.mem_of_mem_take ht)
    rw [Array.getElem?_toList] at hi
    exact (h i t hi).1
  have hfeeds := h.feeds (k + 1)
  rw [htake] at hfeeds ⊢
  obtain ⟨path, hpath, hchain, hmeets, hends, _⟩ :=
    TransitionSystem.witness_eq hsizes hfeeds (((h k _ hk').2 x).mpr hx)
  have hlength : path.length = k + 1 := by
    rw [← hmeets.length_eq, ← htake, List.length_take, Array.length_toList]
    omega
  refine ⟨path, hpath, hlength, hchain, fun y hy => ?_, fun y hy => ?_⟩
  · have hpos : 0 < path.length := hlength ▸ Nat.succ_pos k
    have hzero : layers[0]? = some layers[0] := Array.getElem?_eq_getElem (by omega)
    rw [← htake] at hmeets
    have hfirst := (List.forall₂_iff_get.mp hmeets).2 0 (by simp; omega) hpos
    simp only [List.get_eq_getElem, List.getElem_take, Array.getElem_toList] at hfirst
    rw [List.head?_eq_getElem?, List.getElem?_eq_getElem hpos] at hy
    obtain rfl := Option.some.inj hy
    exact reachedIn_zero.mp (((h 0 _ hzero).2 _).mp hfirst)
  · obtain rfl := Option.some.inj (hends.symm.trans hy)
    exact hx'

variable {u : Universe} {reach : Reachability} {g : Formula} {first last : Nat}

theorem find_eq (hu : u.Canonical) (hn : u.size = sys.size) (h : Exact sys reach.layers)
    (hg : u.eval g = .ok target) (first last : Nat) : ∃ layers, Exact sys layers ∧
      ((∃ k path, reach.find sys u first last g = .ok (some (k, path), { reach with layers }) ∧
          first ≤ k ∧ k ≤ last ∧ Leads sys target k path ∧
          Hits sys target k ∧ ∀ j, first ≤ j → j < k → ¬ Hits sys target j) ∨
        (reach.find sys u first last g = .ok (none, { reach with layers }) ∧
          ∀ j, first ≤ j → j ≤ last → ¬ Hits sys target j)) := by
  obtain ⟨layers, hto, h', hlast⟩ := layersTo_eq h last
  have htarget : target.size = sys.size := (size_of_eval hu hg).trans hn
  have hin : ∀ k, first ≤ k → k < first + (last + 1 - first) → k < layers.size :=
    fun k hle hlt => by omega
  refine ⟨layers, h', ?_⟩
  rcases firstHit_eq h' htarget hin with ⟨k, x, hrun, hle, hlt, hx, hx', hleast⟩ | ⟨hrun, hnone⟩
  · obtain ⟨path, hpath, hleads⟩ := h'.witness_eq (hin k hle hlt) hx hx'
    refine Or.inl ⟨k, path, ?_, hle, by omega, hleads, ⟨x, hx, hx'⟩, hleast⟩
    simp only [find, hg, hto, hrun, hpath, bind, Except.bind, Checked.ofExcept, Except.mapError]
    rfl
  · refine Or.inr ⟨?_, fun j hle hlt => hnone j hle (by omega)⟩
    simp only [find, hg, hto, hrun, bind, Except.bind, Checked.ofExcept, Except.mapError]
    rfl

end Reachability

/-- The formula of a single state. -/
def Universe.Pins (u : Universe) (f : Formula) (x : Nat) : Prop :=
  ∃ r, u.Names f r ∧ ∀ y, r.contains y = true ↔ y = x

theorem Universe.Pins.extend {u u' : Universe} {f : Formula} {x : Nat} (h : u.Pins f x)
    (hext : Extends u u') : u'.Pins f x := by
  obtain ⟨r, hf, hr⟩ := h
  exact ⟨r, hext.names hf, hr⟩

theorem Reachability.pathFormulas_eq {n : Nat} (hn : n ≤ maxState) : ∀ {path : List Nat}
    {u : Universe}, u.Canonical → u.size = n → (∀ x ∈ path, x < n) →
    ∃ fs u', pathFormulas u path = .ok (fs, u') ∧ Extends u u' ∧ u'.Canonical ∧
      List.Forall₂ u'.Pins fs path
  | [], u, hu, _, _ => ⟨[], u, rfl, .refl u, hu, .nil⟩
  | x :: path, u, hu, hsize, hpath => by
      obtain ⟨f, r, u₁, hf, hmade, hr⟩ :=
        ofStates_singleton hu (hsize ▸ hn) (hsize ▸ hpath x List.mem_cons_self)
      obtain ⟨fs, u', hfs, hext, hu', hpins⟩ := pathFormulas_eq hn hmade.canonical
        (hmade.grows.size.trans hsize) fun y hy => hpath y (List.mem_cons_of_mem _ hy)
      have hpin : u₁.Pins f x := ⟨r, hmade.stored, hr⟩
      refine ⟨f :: fs, u', ?_, hmade.grows.trans hext, hu', .cons (hpin.extend hext) hpins⟩
      simp only [pathFormulas, hf, hfs, bind, Except.bind]
      rfl

theorem Universe.Pins.sweep {u : Universe} (hu : u.Canonical) {f : Formula} {x : Nat}
    (h : u.Pins f x) : ∃ f', u.sweep.1.apply f = some f' ∧ u.sweep.2.Pins f' x := by
  obtain ⟨r, hf, hr⟩ := h
  obtain ⟨f', hmove, hf'⟩ := sweep_names hu hf
  exact ⟨f', hmove, r, hf', hr⟩

theorem Universe.make_made {u u' : Universe} (hu : u.Canonical) {q : Request} {f : Formula}
    (hargs : ∀ g ∈ q.args, u.Live g) (h : u.make q = .ok (f, u')) : ∃ t, Made u f t u' := by
  rw [make_eq] at h
  cases ht : u.wanted q with
  | error v =>
      rw [ht] at h
      cases h
  | ok t =>
      obtain ⟨hlive, hsize⟩ := wanted_fits hargs ht
      obtain ⟨f', u₁, hintern, hmade⟩ := intern_eq hu hlive hsize
      rw [ht, Except.map, hintern] at h
      obtain ⟨rfl, rfl⟩ := Prod.mk.inj (Except.ok.inj h)
      exact ⟨t, hmade⟩

namespace Session

variable {M : Machine} {sys : TransitionSystem} {w w' : Session} {E : Fault → Prop}

theorem ends_reachable (hw : Sound sys w) (h : Reachability.Exact sys w.reach.layers)
    {g : Formula} {target : StateSet} (hg : w.terms.eval g = .ok target) {first last : Nat}
    {Q : Bool → Session → Prop}
    (hyes : ∀ k path w', Sound sys w' → Reachability.Exact sys w'.reach.layers →
      Extends w.terms w'.terms → first ≤ k → k ≤ last →
      Reachability.Leads sys target k path →
      Reachability.Hits sys target k →
      (∀ j, first ≤ j → j < k → ¬ Reachability.Hits sys target j) →
      List.Forall₂ w'.terms.Pins w'.reach.cex path → Q true w')
    (hno : ∀ w', Sound sys w' → Reachability.Exact sys w'.reach.layers → w'.terms = w.terms →
      w'.reach.cex = w.reach.cex →
      (∀ j, first ≤ j → j ≤ last → ¬ Reachability.Hits sys target j) → Q false w') :
    Action.Ends (checkReachable first last g) w E Q := by
  simp only [checkReachable, Action.ends_bind, Action.ends_get, hw.system]
  obtain ⟨layers, hlayers, ⟨k, path, hfind, hle, hlt, hleads, hhits, hleast⟩ | ⟨hfind, hnone⟩⟩ :=
    Reachability.find_eq hw.canonical hw.size h hg first last
  · obtain ⟨fs, u, hfs, hext, hu, hpins⟩ := Reachability.pathFormulas_eq sys.size_le hw.canonical
      hw.size hleads.lt_size
    rw [hfind, ends_ofChecked_ok]
    simp only [Action.ends_bind, Action.ends_set, Action.ends_modify, note, hfs,
      Action.ends_ofExcept_ok, Action.ends_pure]
    exact hyes k path _ ⟨rfl, hu, hext.size.trans hw.size⟩ hlayers hext hle hlt hleads hhits
      hleast hpins
  · rw [hfind, ends_ofChecked_ok]
    simp only [Action.ends_set, Action.ends_pure]
    exact hno _ ⟨rfl, hw.canonical, hw.size⟩ hlayers rfl rfl hnone

theorem making_eq_ok {op : Universe → Except Violation (Formula × Universe)} {f : Formula}
    (h : making op w = .ok f w') :
    ∃ u, op w.terms = .ok (f, u) ∧ w' = { w with terms := u } := by
  rw [making] at h
  split at h
  next heq =>
    cases h
    exact ⟨_, heq, rfl⟩
  next => cases h

theorem checkReachable_of_refused {g : Formula} {flaw : Flaw}
    (hg : w.terms.eval g = .error flaw) {first last : Nat} :
    checkReachable first last g w = .error flaw.toFault w := by
  have hfind : w.reach.find w.system w.terms first last g = .error flaw := by
    simp only [Reachability.find, hg, bind, Except.bind]
  simp only [checkReachable, bind, EStateM.bind, Action.run_get, hfind]
  rfl

/-- A formula has a set of states or is refused. -/
theorem Sound.eval_cases (hw : Sound sys w) (g : Formula) :
    w.terms.Accepts g ∨ ∃ e, w.terms.eval g = .refuse e :=
  Universe.eval_cases hw.canonical (allocatable_eq (hw.size ▸ sys.size_le)) g

/-- The sessions that calls on bounded reachability lead to, with requests for formulas and sweeps
of the universe between them. A relocation may come at any time, and may be any. -/
inductive Explored (sys : TransitionSystem) : Session → Prop
  | opened {w : Session} : w.terms.Built sys.size → Explored sys (opened sys w)
  | init {w w' : Session} : Explored sys w → reachability.init w = .ok () w' → Explored sys w'
  | check {w w' : Session} {first last : Nat} {g : Formula} {model : List Nat} {b : Bool} :
      Explored sys w → reachability.check first last g model w = .ok b w' → Explored sys w'
  | refused {w w' : Session} {first last : Nat} {g : Formula} {model : List Nat} {fault : Fault} :
      Explored sys w → reachability.check first last g model w = .error fault w' → Explored sys w'
  | clear {w : Session} : Explored sys w → Explored sys (reachability.clear w)
  | relocate {w : Session} (r : Relocation) :
      Explored sys w → Explored sys (reachability.relocate r w)
  | ask {w w' : Session} {q : Request} {f : Formula} : Explored sys w →
      (∀ g ∈ q.args, w.terms.Live g) → making (·.make q) w = .ok f w' → Explored sys w'
  | sweep {w : Session} : Explored sys w → Explored sys (sweep.run w).2

/-- A check cannot fail on a formula with a value, and it keeps the layers exact. -/
theorem exact_checkReachable (hw : Sound sys w) (hexact : Reachability.Exact sys w.reach.layers)
    {target : StateSet} (hg : w.terms.eval g = .ok target) (first last : Nat) :
    Action.Ends (checkReachable first last g) w (fun _ => False) fun _ w' =>
      Sound sys w' ∧ Reachability.Exact sys w'.reach.layers :=
  ends_reachable hw hexact hg (fun _ _ _ hw' h' _ _ _ _ _ _ _ => ⟨hw', h'⟩)
    fun _ hw' h' _ _ _ => ⟨hw', h'⟩

theorem Explored.exact (h : Explored sys w) :
    Sound sys w ∧ Reachability.Exact sys w.reach.layers := by
  induction h with
  | opened hbuilt => exact ⟨⟨rfl, hbuilt.canonical.1, hbuilt.canonical.2⟩, Reachability.exact_empty⟩
  | init _ hrun ih =>
      cases hrun
      obtain ⟨hw, _⟩ := ih
      refine ⟨hw.congr rfl rfl, ?_⟩
      obtain rfl := hw.system
      exact Reachability.exact_init
  | @check w w' first last g _ b _ hrun ih =>
      change checkReachable first last g w = _ at hrun
      obtain ⟨hw, hexact⟩ := ih
      rcases hw.eval_cases g with ⟨target, hg⟩ | ⟨e, hg⟩
      · exact (exact_checkReachable hw hexact hg first last).of_ok hrun
      · rw [checkReachable_of_refused hg] at hrun
        cases hrun
  | @refused w w' first last g _ fault _ hrun ih =>
      change checkReachable first last g w = _ at hrun
      obtain ⟨hw, hexact⟩ := ih
      rcases hw.eval_cases g with ⟨target, hg⟩ | ⟨e, hg⟩
      · obtain ⟨_, _, hok, _⟩ := (exact_checkReachable hw hexact hg first last).exists_ok
        cases hok.symm.trans hrun
      · rw [checkReachable_of_refused hg] at hrun
        cases hrun
        exact ⟨hw, hexact⟩
  | clear _ ih => exact ⟨ih.1.congr rfl rfl, ih.2⟩
  | relocate r _ ih => exact ⟨ih.1.congr rfl rfl, ih.2⟩
  | ask _ hargs hrun ih =>
      obtain ⟨u, hmake, rfl⟩ := making_eq_ok hrun
      obtain ⟨t, hmade⟩ := Universe.make_made ih.1.canonical hargs hmake
      exact ⟨⟨ih.1.system, hmade.canonical, hmade.grows.size.trans ih.1.size⟩, ih.2⟩
  | sweep _ ih =>
      exact ⟨ih.1.sweep rfl rfl, ih.2⟩

/-- A path to the formula that is no longer than any other in the window, with a formula for each of
its states. -/
structure Found (sys : TransitionSystem) (u : Universe) (g : Formula) (first last : Nat)
    (cex : List Formula) (u' : Universe) (path : List Nat) : Prop where
  within : first + 1 ≤ path.length ∧ path.length ≤ last + 1
  chain : path.IsChain sys.Edge
  start : ∀ x ∈ path.head?, sys.Initial x
  ends : ∀ x ∈ path.getLast?, u.Holds g x
  least : ∀ k x, first ≤ k → k + 1 < path.length → sys.ReachedIn k x → ¬ u.Holds g x
  pinned : List.Forall₂ u'.Pins cex path

/-- What a window is answered. -/
structure Surveyed (sys : TransitionSystem) (w : Session) (g : Formula) (first last : Nat)
    (b : Bool) (w' : Session) : Prop where
  hit_iff : b = true ↔ ∃ k x, first ≤ k ∧ k ≤ last ∧ sys.ReachedIn k x ∧ w.terms.Holds g x
  hit : b = true → ∃ path, Found sys w.terms g first last w'.reach.cex w'.terms path
  miss : b = false → w'.reach.cex = w.reach.cex ∧ w'.terms = w.terms

theorem Explored.check_surveyed (h : Explored sys w) {g : Formula} (hg : w.terms.Accepts g)
    (first last : Nat) (model : List Nat) :
    ∃ b w', reachability.check first last g model w = .ok b w' ∧
      Surveyed sys w g first last b w' := by
  obtain ⟨hw, hexact⟩ := h.exact
  obtain ⟨target, htarget⟩ := hg
  have hholds : ∀ x, w.terms.Holds g x ↔ target.contains x = true := fun x =>
    holds_of_eval htarget
  have hends : Action.Ends (checkReachable first last g) w (fun _ => False)
      (Surveyed sys w g first last) := by
    refine ends_reachable hw hexact htarget
      (fun k path w' _ _ _ hle hlt hleads hhits hleast hpins => ?_)
      fun w' _ _ hterms hcex hnone => ?_
    · obtain ⟨y, hy, hy'⟩ := hhits
      have hlength := hleads.length
      refine ⟨iff_of_true rfl ⟨k, y, hle, hlt, hy, (hholds y).mpr hy'⟩, fun _ => ⟨path, ?_⟩, nofun⟩
      exact ⟨by omega, hleads.chain, hleads.start, fun x hx => (hholds x).mpr (hleads.ends x hx),
        fun j x hj hjk hx hx' => hleast j hj (by omega) ⟨x, hx, (hholds x).mp hx'⟩, hpins⟩
    · refine ⟨iff_of_false nofun ?_, nofun, fun _ => ⟨hcex, hterms⟩⟩
      rintro ⟨k, x, hle, hlt, hx, hx'⟩
      exact hnone k hle hlt ⟨x, hx, (hholds x).mp hx'⟩
  exact hends.exists_ok

/-- A collection of the universe leaves a counterexample that lists the same path. -/
theorem pinned_sweep (hu : w.terms.Canonical) {path : List Nat}
    (h : List.Forall₂ w.terms.Pins w.reach.cex path) :
    List.Forall₂ (sweep.run w).2.terms.Pins
      (reachability.relocate (sweep.run w).1 (sweep.run w).2).reach.cex path := by
  change List.Forall₂ w.terms.sweep.2.Pins (w.reach.cex.filterMap w.terms.sweep.1.apply) path
  generalize w.reach.cex = cex at h ⊢
  induction h with
  | nil => exact .nil
  | cons hf _ ih =>
      obtain ⟨f', hmove, hf'⟩ := hf.sweep hu
      rw [List.filterMap_cons_some hmove]
      exact .cons hf' ih

/-- An empty window is asked about first, which fills the layers up to its end. -/
theorem forked_surveyed : ∃ w, Explored forked w ∧ w.terms.Accepts ⟨2⟩ ∧ ∃ w',
    reachability.check 1 3 ⟨2⟩ [] w = .ok true w' ∧ Surveyed forked w ⟨2⟩ 1 3 true w' := by
  let one : StateSet := .add (.empty 4) 1 (by decide)
  let w₀ : Session := { opened forked (start .negation).world with reach := .init forked }
  let w₁ : Session := { w₀ with terms := { words with terms := words.terms.push (.states one) } }
  have h₀ : Explored forked w₀ := .init (.opened built_words) rfl
  have h₁ : Explored forked w₁ := h₀.ask (q := .set one) (f := ⟨2⟩) (by simp [Request.args]) rfl
  have hone : w₁.terms.eval ⟨2⟩ = .ok one := rfl
  obtain ⟨b, w₂, hempty, hsurveyed⟩ := h₁.check_surveyed ⟨one, hone⟩ 4 3 []
  have hmiss : b = false := Bool.eq_false_iff.mpr fun hb => by
    obtain ⟨k, _, hle, hlt, _⟩ := hsurveyed.hit_iff.mp hb
    omega
  have hone₂ : w₂.terms.eval ⟨2⟩ = .ok one := (hsurveyed.miss hmiss).2 ▸ hone
  have h₂ : Explored forked w₂ := h₁.check hempty
  obtain ⟨b', w₃, hcheck, hsurveyed'⟩ := h₂.check_surveyed ⟨one, hone₂⟩ 1 3 []
  have hinitial : forked.Initial 0 := rfl
  have hedge : forked.Edge 0 1 := ⟨_, rfl, rfl⟩
  have hreached : forked.ReachedIn 1 1 := .step (.initial hinitial) hedge
  have hholds : w₂.terms.Holds ⟨2⟩ 1 := ⟨one, hone₂, by decide⟩
  obtain rfl : b' = true := hsurveyed'.hit_iff.mpr
    ⟨1, 1, Nat.le_refl 1, by decide, hreached, hholds⟩
  exact ⟨w₂, h₂, ⟨one, hone₂⟩, w₃, hcheck, hsurveyed'⟩

end Session

end Invariance.FiniteState
