import Invariance.Frame
import Invariance.Obligation
import Invariance.Proofs.FiniteState.Induction
import Mathlib.Data.List.Nodup
import Mathlib.Data.List.Perm.Subperm

/-!
What the frame and the induction solver know while the first frame is worked on. Every obligation
refutes a set of states without initial ones; a state that no obligation refutes is clear. A
candidate is settled once every step from a clear state leads into it, and it stays settled,
because learning only takes away clear states.
-/

namespace Invariance.FiniteState

open Universe

variable {sys : TransitionSystem} {mode : ForwardLearning} {u u' : Universe}
  {obs obs' staged : List Obligation} {frame : Frame} {first : List Formula}

/-- No obligation refutes the state. -/
def Clear (u : Universe) (obs : List Obligation) (x : Nat) : Prop :=
  ∀ ob ∈ obs, ∀ r, u.Names ob.counter r → r.contains x = false

/-- Every step from a clear state leads into the set that the formula stands for. -/
def Settled (sys : TransitionSystem) (u : Universe) (obs : List Obligation) (f : Formula) : Prop :=
  ∀ r, u.Names f r → ∀ x y, Clear u obs x → sys.Edge x y → r.contains y = true

/-- The formula stands for a set that contains every initial state. -/
def Universe.Ample (u : Universe) (sys : TransitionSystem) (f : Formula) : Prop :=
  ∃ r, u.Names f r ∧ ∀ x, sys.Initial x → r.contains x = true

theorem Universe.Ample.named {f : Formula} (h : u.Ample sys f) : ∃ r, u.Names f r := by
  obtain ⟨r, hr, _⟩ := h
  exact ⟨r, hr⟩

theorem Universe.Ample.extend {f : Formula} (h : u.Ample sys f) (hext : Extends u u') :
    u'.Ample sys f := by
  obtain ⟨r, hr, hinit⟩ := h
  exact ⟨r, hext.names hr, hinit⟩

def Refutes (u : Universe) (f : Formula) (ob : Obligation) : Prop :=
  ∃ r, u.Names ob.counter r ∧ u.Names f r.complement

/-- The obligations refute different sets without initial states; each carries its refutation or
the initial states to the next frame, the latter only for a single state that was learnt. -/
structure Duties (sys : TransitionSystem) (mode : ForwardLearning) (u : Universe)
    (obs : List Obligation) : Prop where
  distinct : (obs.map (·.counter)).Nodup
  named : ∀ ob ∈ obs, ∃ r, u.Names ob.counter r ∧ ∀ x, sys.Initial x → r.contains x = false
  forward : ∀ ob ∈ obs, Refutes u ob.forward ob ∨
    mode = .reachable ∧ u.Names ob.forward sys.init ∧ 0 < ob.depth
  single : ∀ ob ∈ obs, 0 < ob.depth →
    ∃ a, ∀ r, u.Names ob.counter r → ∀ y, r.contains y = true ↔ y = a

/-- The frame holds every refutation and beyond these only candidates; a candidate that has left it
is not settled. -/
structure Covers (sys : TransitionSystem) (u : Universe) (obs : List Obligation) (frame : Frame) :
    Prop where
  refuted : ∀ ob ∈ obs, ∃ f, Refutes u f ob ∧ frame.contains f = true
  kept : ∀ ob ∈ obs, frame.contains ob.forward = true ∨ ¬ Settled sys u obs ob.forward
  members : ∀ f, frame.contains f = true → ∃ ob ∈ obs, Refutes u f ob ∨ ob.forward = f

/-- The induction solver assumes every refutation and beyond these only staged candidates, all of
which are settled. -/
structure Assumes (sys : TransitionSystem) (u : Universe) (obs staged : List Obligation)
    (first : List Formula) : Prop where
  refuted : ∀ ob ∈ obs, ∃ f, Refutes u f ob ∧ f ∈ first
  staged_mem : ∀ ob ∈ staged, ob ∈ obs
  settled : ∀ ob ∈ staged, Settled sys u obs ob.forward
  members : ∀ f ∈ first, (∃ ob ∈ obs, Refutes u f ob) ∨ ∃ ob ∈ staged, ob.forward = f

theorem Clear.of_subset {x : Nat} (h : Clear u obs x) (hsub : ∀ ob ∈ obs', ob ∈ obs) :
    Clear u obs' x := fun ob hob => h ob (hsub ob hob)

theorem Settled.of_subset {f : Formula} (h : Settled sys u obs f) (hsub : ∀ ob ∈ obs, ob ∈ obs') :
    Settled sys u obs' f := fun r hr x y hx => h r hr x y (hx.of_subset hsub)

theorem Refutes.eq (hu : u.Canonical) {f f' : Formula} {ob : Obligation} (h : Refutes u f ob)
    (h' : Refutes u f' ob) : f = f' := by
  obtain ⟨r, hr, hf⟩ := h
  obtain ⟨r', hr', hf'⟩ := h'
  obtain rfl := hr.eq hr'
  exact hu.name_eq hf hf'

theorem Refutes.counter_eq (hu : u.Canonical) {f : Formula} {ob ob' : Obligation}
    (h : Refutes u f ob) (h' : Refutes u f ob') : ob.counter = ob'.counter := by
  obtain ⟨r, hr, hf⟩ := h
  obtain ⟨r', hr', hf'⟩ := h'
  have heq : r = r' := by
    rw [← r.complement_complement, ← r'.complement_complement, hf.eq hf']
  exact hu.name_eq hr (heq ▸ hr')

theorem Refutes.extend {f : Formula} {ob : Obligation} (h : Refutes u f ob)
    (hext : Extends u u') : Refutes u' f ob := by
  obtain ⟨r, hr, hf⟩ := h
  exact ⟨r, hext.names hr, hext.names hf⟩

theorem Refutes.named {f : Formula} {ob : Obligation} (h : Refutes u f ob) :
    ∃ r, u.Names f r := by
  obtain ⟨_, _, hf⟩ := h
  exact ⟨_, hf⟩

theorem Refutes.contains_iff {f : Formula} {ob : Obligation} (h : Refutes u f ob)
    {r : StateSet} (hr : u.Names f r) {c : StateSet} (hc : u.Names ob.counter c) (x : Nat) :
    r.contains x = true ↔ x < c.size ∧ c.contains x = false := by
  obtain ⟨c', hc', hf⟩ := h
  obtain rfl := hc.eq hc'
  obtain rfl := hr.eq hf
  exact StateSet.contains_complement_iff

theorem contains_of_no_initial {c r : StateSet} (hsize : c.size = r.size)
    (hinit : sys.init = r.complement) (hc : ∀ x, sys.Initial x → c.contains x = false) {a : Nat}
    (ha : c.contains a = true) : r.contains a = true := by
  refine Bool.not_eq_false _ ▸ fun hout => ?_
  have hinitial : sys.Initial a := by
    rw [TransitionSystem.Initial, hinit]
    exact StateSet.contains_complement_iff.mpr ⟨hsize ▸ c.lt_size a ha, hout⟩
  rw [hc a hinitial] at ha
  cases ha

theorem clear_of_within (hall : ∀ ob ∈ obs, ∃ f, Refutes u f ob ∧ f ∈ first) {x : Nat}
    (hx : u.Within first x) : Clear u obs x := fun ob hob r hr => by
  obtain ⟨f, ⟨r', hr', hf⟩, hin⟩ := hall ob hob
  obtain rfl := hr.eq hr'
  exact (StateSet.contains_complement_iff.mp (hx f hin _ hf)).2

namespace Duties

theorem mem_eq (h : Duties sys mode u obs) {ob ob' : Obligation} (hob : ob ∈ obs)
    (hob' : ob' ∈ obs) (hc : ob.counter = ob'.counter) : ob = ob' :=
  List.inj_on_of_nodup_map h.distinct hob hob' hc

theorem clear_of_initial (h : Duties sys mode u obs) {x : Nat} (hx : sys.Initial x) :
    Clear u obs x := fun ob hob r hr => by
  obtain ⟨r', hr', hinit⟩ := h.named ob hob
  obtain rfl := hr.eq hr'
  exact hinit x hx

theorem refutation_of_clear (h : Duties sys mode u obs) (hu : u.Canonical)
    (hn : u.size = sys.size) {ob : Obligation} (hob : ob ∈ obs) {f : Formula} {r : StateSet}
    (hf : Refutes u f ob) (hr : u.Names f r) {x : Nat} (hlt : x < sys.size)
    (hx : Clear u obs x) : r.contains x = true := by
  obtain ⟨c, hc, _⟩ := h.named ob hob
  exact (hf.contains_iff hr hc x).mpr ⟨(hu.sized hc).trans hn ▸ hlt, hx ob hob c hc⟩

theorem refutation_of_initial (h : Duties sys mode u obs) (hu : u.Canonical)
    (hn : u.size = sys.size) {ob : Obligation} (hob : ob ∈ obs) {f : Formula} {r : StateSet}
    (hf : Refutes u f ob) (hr : u.Names f r) {x : Nat} (hx : sys.Initial x) :
    r.contains x = true :=
  h.refutation_of_clear hu hn hob hf hr hx.lt (h.clear_of_initial hx)

theorem forward_spec (h : Duties sys mode u obs) (hu : u.Canonical) (hn : u.size = sys.size)
    {ob : Obligation} (hob : ob ∈ obs) :
    ∃ r c, u.Names ob.forward r ∧ u.Names ob.counter c ∧
      (∀ x, sys.Initial x → r.contains x = true) ∧
      ∀ x, r.contains x = true → c.contains x = false := by
  obtain ⟨c, hc, hinit⟩ := h.named ob hob
  rcases h.forward ob hob with ⟨c', hc', hf⟩ | ⟨_, hf, _⟩
  · obtain rfl := hc.eq hc'
    exact ⟨_, c, hf, hc, fun x => h.refutation_of_initial hu hn hob ⟨c, hc, hf⟩ hf,
      fun x hx => (StateSet.contains_complement_iff.mp hx).2⟩
  · exact ⟨_, c, hf, hc, fun x hx => hx, hinit⟩

theorem forward_ample (h : Duties sys mode u obs) (hu : u.Canonical) (hn : u.size = sys.size)
    {ob : Obligation} (hob : ob ∈ obs) : u.Ample sys ob.forward := by
  obtain ⟨r, _, hr, _, hinit, _⟩ := h.forward_spec hu hn hob
  exact ⟨r, hr, hinit⟩

theorem clear_iff (h : Duties sys mode u obs) (hext : Extends u u') {x : Nat} :
    Clear u' obs x ↔ Clear u obs x := by
  constructor
  · exact fun hx ob hob r hr => hx ob hob r (hext.names hr)
  · intro hx ob hob r hr
    obtain ⟨r', hr', _⟩ := h.named ob hob
    obtain rfl := hr.eq (hext.names hr')
    exact hx ob hob r hr'

theorem settled_iff (h : Duties sys mode u obs) (hext : Extends u u') {f : Formula} {r : StateSet}
    (hf : u.Names f r) : Settled sys u' obs f ↔ Settled sys u obs f := by
  constructor
  · exact fun hs r' hr' x y hx => hs r' (hext.names hr') x y ((h.clear_iff hext).mpr hx)
  · intro hs r' hr' x y hx
    obtain rfl := hr'.eq (hext.names hf)
    exact hs r' hf x y ((h.clear_iff hext).mp hx)

theorem forward_named (h : Duties sys mode u obs) {ob : Obligation} (hob : ob ∈ obs) :
    ∃ r, u.Names ob.forward r := by
  rcases h.forward ob hob with ⟨_, _, hf⟩ | ⟨_, hf, _⟩
  · exact ⟨_, hf⟩
  · exact ⟨_, hf⟩

theorem extend (h : Duties sys mode u obs) (hext : Extends u u') : Duties sys mode u' obs where
  distinct := h.distinct
  named ob hob := by
    obtain ⟨r, hr, hinit⟩ := h.named ob hob
    exact ⟨r, hext.names hr, hinit⟩
  forward ob hob := by
    rcases h.forward ob hob with hf | ⟨hmode, hf, hdepth⟩
    · exact Or.inl (hf.extend hext)
    · exact Or.inr ⟨hmode, hext.names hf, hdepth⟩
  single ob hob hdepth := by
    obtain ⟨r, hr, _⟩ := h.named ob hob
    obtain ⟨a, ha⟩ := h.single ob hob hdepth
    refine ⟨a, fun r' hr' => ?_⟩
    obtain rfl := hr'.eq (hext.names hr)
    exact ha r' hr

theorem perm (h : Duties sys mode u obs) (hperm : obs.Perm obs') : Duties sys mode u obs' where
  distinct := ((hperm.map _).nodup_iff).mp h.distinct
  named ob hob := h.named ob (hperm.mem_iff.mpr hob)
  forward ob hob := h.forward ob (hperm.mem_iff.mpr hob)
  single ob hob := h.single ob (hperm.mem_iff.mpr hob)

end Duties

namespace Covers

theorem extend (h : Covers sys u obs frame) (hd : Duties sys mode u obs) (hext : Extends u u') :
    Covers sys u' obs frame where
  refuted ob hob := by
    obtain ⟨f, hf, hin⟩ := h.refuted ob hob
    exact ⟨f, hf.extend hext, hin⟩
  kept ob hob := by
    obtain ⟨r, hr⟩ := hd.forward_named hob
    rw [hd.settled_iff hext hr]
    exact h.kept ob hob
  members f hf := by
    obtain ⟨ob, hob, h⟩ := h.members f hf
    exact ⟨ob, hob, h.imp_left fun h => h.extend hext⟩

theorem perm (h : Covers sys u obs frame) (hperm : obs.Perm obs') : Covers sys u obs' frame where
  refuted ob hob := h.refuted ob (hperm.mem_iff.mpr hob)
  kept ob hob := (h.kept ob (hperm.mem_iff.mpr hob)).imp_right fun hnot hs =>
    hnot (hs.of_subset fun _ => hperm.mem_iff.mpr)
  members f hf := by
    obtain ⟨ob, hob, h⟩ := h.members f hf
    exact ⟨ob, hperm.mem_iff.mp hob, h⟩

end Covers

namespace Assumes

theorem extend (h : Assumes sys u obs staged first) (hd : Duties sys mode u obs)
    (hext : Extends u u') : Assumes sys u' obs staged first where
  refuted ob hob := by
    obtain ⟨f, hf, hin⟩ := h.refuted ob hob
    exact ⟨f, hf.extend hext, hin⟩
  staged_mem := h.staged_mem
  settled ob hob := by
    obtain ⟨r, hr⟩ := hd.forward_named (h.staged_mem ob hob)
    exact (hd.settled_iff hext hr).mpr (h.settled ob hob)
  members f hf := by
    refine (h.members f hf).imp_left ?_
    rintro ⟨ob, hob, hr⟩
    exact ⟨ob, hob, hr.extend hext⟩

theorem perm (h : Assumes sys u obs staged first) (hperm : obs.Perm obs') :
    Assumes sys u obs' staged first where
  refuted ob hob := h.refuted ob (hperm.mem_iff.mpr hob)
  staged_mem ob hob := hperm.mem_iff.mp (h.staged_mem ob hob)
  settled ob hob := (h.settled ob hob).of_subset fun _ => hperm.mem_iff.mp
  members f hf := by
    refine (h.members f hf).imp_left ?_
    rintro ⟨ob, hob, hr⟩
    exact ⟨ob, hperm.mem_iff.mp hob, hr⟩

theorem first_named (h : Assumes sys u obs staged first) (hd : Duties sys mode u obs) :
    u.Named first := fun f hf => by
  rcases h.members f hf with ⟨ob, _, _, _, hr⟩ | ⟨ob, hob, rfl⟩
  · exact ⟨_, hr⟩
  · exact hd.forward_named (h.staged_mem ob hob)

/-- A set that has the initial states, and that every step allowed by the assumptions leads into, is
settled: should a staged candidate be more than a refutation, then it stands for the initial states
and is itself settled. -/
theorem settled_of_check (h : Assumes sys u obs staged first) (hd : Duties sys mode u obs)
    (hu : u.Canonical) (hn : u.size = sys.size) {f : Formula} {r : StateSet} (hf : u.Names f r)
    (hinit : ∀ x, sys.Initial x → r.contains x = true)
    (hcheck : ∀ x y, u.Within first x → sys.Edge x y → r.contains y = true) :
    Settled sys u obs f := by
  intro r' hr' x y hx hedge
  obtain rfl := hr'.eq hf
  by_cases hstart : ∃ ob ∈ staged, u.Names ob.forward sys.init
  · obtain ⟨ob, hob, hname⟩ := hstart
    exact hinit y (h.settled ob hob _ hname x y hx hedge)
  · have hrefuted : ∀ g ob, ob ∈ obs → Refutes u g ob → ∀ t, u.Names g t →
        t.contains x = true := fun g ob hob hg t ht =>
      hd.refutation_of_clear hu hn hob hg ht hedge.lt_left hx
    refine hcheck x y (fun g hg t ht => ?_) hedge
    rcases h.members g hg with ⟨ob, hob, hr⟩ | ⟨ob, hob, rfl⟩
    · exact hrefuted g ob hob hr t ht
    · rcases hd.forward ob (h.staged_mem ob hob) with hr | ⟨_, hname, _⟩
      · exact hrefuted _ ob (h.staged_mem ob hob) hr t ht
      · exact absurd ⟨ob, hob, hname⟩ hstart

end Assumes

/-! Learning: a clear state that is not initial gets an obligation of its own. -/

section Learning

variable {ob : Obligation} {backward : Formula} {a : Nat} {r : StateSet}

structure Learnt (sys : TransitionSystem) (mode : ForwardLearning) (u : Universe)
    (obs : List Obligation) (ob : Obligation) (backward : Formula) (a : Nat) : Prop where
  clear : Clear u obs a
  fresh : ¬ sys.Initial a
  counter : ∃ r, u.Names ob.counter r ∧ u.Names backward r.complement ∧
    ∀ y, r.contains y = true ↔ y = a
  forward : mode = .negation ∧ ob.forward = backward ∨
    mode = .reachable ∧ u.Names ob.forward sys.init
  depth : 0 < ob.depth

namespace Learnt

theorem refutes (h : Learnt sys mode u obs ob backward a) : Refutes u backward ob := by
  obtain ⟨r, hr, hb, _⟩ := h.counter
  exact ⟨r, hr, hb⟩

theorem counter_ne (h : Learnt sys mode u obs ob backward a) :
    ∀ ob' ∈ obs, ob'.counter ≠ ob.counter := fun ob' hob' heq => by
  obtain ⟨r, hr, _, hc⟩ := h.counter
  have hnot := h.clear ob' hob' r (heq ▸ hr)
  rw [(hc a).mpr rfl] at hnot
  cases hnot

theorem not_refutes (h : Learnt sys mode u obs ob backward a) (hu : u.Canonical)
    {ob' : Obligation} (hob' : ob' ∈ obs) : ¬ Refutes u backward ob' := fun hr =>
  h.counter_ne ob' hob' (hr.counter_eq hu h.refutes)

/-- The new refutation is not in the frame yet. Were it there as a candidate, it would stand for
the initial states; but then the new state is the only other one, and it has been refuted before. -/
theorem not_mem (h : Learnt sys mode u obs ob backward a) (hu : u.Canonical)
    (hd : Duties sys mode u obs) (hc : Covers sys u obs frame) :
    frame.contains backward = false := by
  refine Bool.eq_false_iff.mpr fun hin => ?_
  obtain ⟨ob', hob', hr | hforward⟩ := hc.members backward hin
  · exact h.not_refutes hu hob' hr
  · rcases hd.forward ob' hob' with hr | ⟨_, hname, hdepth⟩
    · exact h.not_refutes hu hob' (hforward ▸ hr)
    · obtain ⟨r, hr, hb, hra⟩ := h.counter
      obtain ⟨r', hr', hinit⟩ := hd.named ob' hob'
      obtain ⟨a', ha'⟩ := hd.single ob' hob' hdepth
      have hsame : sys.init = r.complement := (hforward ▸ hname).eq hb
      have hin' : r'.contains a' = true := (ha' r' hr' a').mpr rfl
      have hsize : r'.size = r.size := (hu.sized hr').trans (hu.sized hr).symm
      have heq : a' = a := (hra a').mp (contains_of_no_initial hsize hsame hinit hin')
      have hclear := h.clear ob' hob' r' hr'
      rw [← heq, hin'] at hclear
      cases hclear

theorem duties (h : Learnt sys mode u obs ob backward a) (hd : Duties sys mode u obs) :
    Duties sys mode u (ob :: obs) where
  distinct := by
    rw [List.map_cons, List.nodup_cons, List.mem_map]
    refine ⟨?_, hd.distinct⟩
    rintro ⟨ob', hob', heq⟩
    exact h.counter_ne ob' hob' heq
  named := by
    obtain ⟨r, hr, _, hc⟩ := h.counter
    refine List.forall_mem_cons.mpr ⟨⟨r, hr, fun x hx => Bool.eq_false_iff.mpr fun hin => ?_⟩,
      hd.named⟩
    exact h.fresh ((hc x).mp hin ▸ hx)
  forward := by
    refine List.forall_mem_cons.mpr ⟨?_, hd.forward⟩
    rcases h.forward with ⟨_, hf⟩ | ⟨hmode, hf⟩
    · exact Or.inl (hf ▸ h.refutes)
    · exact Or.inr ⟨hmode, hf, h.depth⟩
  single := by
    obtain ⟨r, hr, _, hc⟩ := h.counter
    refine List.forall_mem_cons.mpr ⟨fun _ => ⟨a, fun r' hr' => ?_⟩, hd.single⟩
    obtain rfl := hr'.eq hr
    exact hc

theorem covers (h : Learnt sys mode u obs ob backward a) (hu : u.Canonical)
    (hd : Duties sys mode u obs) (hc : Covers sys u obs frame) :
    Covers sys u (ob :: obs) ((frame.insert backward).insert ob.forward) := by
  have hinsert : ∀ f, ((frame.insert backward).insert ob.forward).contains f =
      (decide (f = ob.forward) || (decide (f = backward) || frame.contains f)) := fun f => by
    simp only [Frame.contains, Frame.insert, FormulaSet.contains_insert]
  have hold : ∀ f, frame.contains f = true →
      ((frame.insert backward).insert ob.forward).contains f = true := fun f hf => by
    rw [hinsert, hf]
    simp
  refine ⟨List.forall_mem_cons.mpr ⟨⟨backward, h.refutes, by rw [hinsert]; simp⟩,
    fun ob' hob' => ?_⟩, List.forall_mem_cons.mpr ⟨Or.inl (by rw [hinsert]; simp),
    fun ob' hob' => ?_⟩, fun f hf => ?_⟩
  · obtain ⟨f, hf, hin⟩ := hc.refuted ob' hob'
    exact ⟨f, hf, hold f hin⟩
  · rcases hd.forward ob' hob' with hr | ⟨hmode, hname, _⟩
    · obtain ⟨f, hf, hin⟩ := hc.refuted ob' hob'
      exact Or.inl (hold _ (hr.eq hu hf ▸ hin))
    · rcases h.forward with ⟨hneg, _⟩ | ⟨_, hnew⟩
      · rw [hmode] at hneg
        cases hneg
      · refine Or.inl ?_
        rw [hinsert, hu.name_eq hname hnew]
        simp
  · rw [hinsert] at hf
    simp only [Bool.or_eq_true, decide_eq_true_eq] at hf
    rcases hf with hf | hf | hf
    · exact ⟨ob, List.mem_cons_self, Or.inr hf.symm⟩
    · exact ⟨ob, List.mem_cons_self, Or.inl (hf ▸ h.refutes)⟩
    · obtain ⟨ob', hob', hcase⟩ := hc.members f hf
      exact ⟨ob', List.mem_cons_of_mem _ hob', hcase⟩

theorem assumes (h : Learnt sys mode u obs ob backward a) (ha : Assumes sys u obs staged first) :
    Assumes sys u (ob :: obs) staged (first ++ [backward]) where
  refuted := List.forall_mem_cons.mpr ⟨⟨backward, h.refutes, by simp⟩, fun ob' hob' => by
    obtain ⟨f, hf, hin⟩ := ha.refuted ob' hob'
    exact ⟨f, hf, List.mem_append_left _ hin⟩⟩
  staged_mem ob' hob' := List.mem_cons_of_mem _ (ha.staged_mem ob' hob')
  settled ob' hob' := (ha.settled ob' hob').of_subset fun _ => List.mem_cons_of_mem _
  members f hf := by
    rcases List.mem_append.mp hf with hf | hf
    · refine (ha.members f hf).imp_left ?_
      rintro ⟨ob', hob', hr⟩
      exact ⟨ob', List.mem_cons_of_mem _ hob', hr⟩
    · rw [List.mem_singleton] at hf
      exact Or.inl ⟨ob, List.mem_cons_self, hf ▸ h.refutes⟩

end Learnt

end Learning

/-! Staging: the candidate is settled, or it is given up for the refutation. -/

theorem Assumes.stage (h : Assumes sys u obs staged first) {ob : Obligation} (hob : ob ∈ obs)
    (hs : Settled sys u obs ob.forward) :
    Assumes sys u obs (staged ++ [ob]) (first ++ [ob.forward]) where
  refuted ob' hob' := by
    obtain ⟨f, hf, hin⟩ := h.refuted ob' hob'
    exact ⟨f, hf, List.mem_append_left _ hin⟩
  staged_mem ob' hob' := by
    rcases List.mem_append.mp hob' with hob' | hob'
    · exact h.staged_mem ob' hob'
    · exact List.mem_singleton.mp hob' ▸ hob
  settled ob' hob' := by
    rcases List.mem_append.mp hob' with hob' | hob'
    · exact h.settled ob' hob'
    · exact List.mem_singleton.mp hob' ▸ hs
  members f hf := by
    rcases List.mem_append.mp hf with hf | hf
    · refine (h.members f hf).imp_right ?_
      rintro ⟨ob', hob', hr⟩
      exact ⟨ob', List.mem_append_left _ hob', hr⟩
    · exact Or.inr ⟨ob, by simp, (List.mem_singleton.mp hf).symm⟩

section Weakening

variable {ob : Obligation} {f : Formula}

theorem clear_weaken {x : Nat} :
    Clear u ({ ob with forward := f } :: obs) x ↔ Clear u (ob :: obs) x := by
  rw [Clear, Clear, List.forall_mem_cons, List.forall_mem_cons]

theorem settled_weaken {g : Formula} :
    Settled sys u ({ ob with forward := f } :: obs) g ↔ Settled sys u (ob :: obs) g := by
  simp only [Settled, clear_weaken]

theorem refuted_weaken {g : Formula} :
    (∃ o ∈ { ob with forward := f } :: obs, Refutes u g o) ↔ ∃ o ∈ ob :: obs, Refutes u g o := by
  rw [List.exists_mem_cons_iff, List.exists_mem_cons_iff]
  exact Iff.rfl

/-- A candidate that is given up stands for the initial states, and no refutation does so. A literal
that did would be first in the order if it waited, and settled if it was staged; a learnt refutation
that did would leave no state for the candidate to refute but its own. -/
theorem not_refutes_of_unsettled (hu : u.Canonical) (hd : Duties sys mode u (ob :: obs))
    (ha : Assumes sys u (ob :: obs) staged first)
    (hmin : ∀ o ∈ obs, o ∉ staged → ob.depth ≤ o.depth) (hf : Refutes u f ob)
    (hs : Settled sys u (ob :: obs) f) (hnot : ¬ Settled sys u (ob :: obs) ob.forward)
    {o : Obligation} (ho : o ∈ ob :: obs) : ¬ Refutes u ob.forward o := fun hr => by
  have hself : ¬ Refutes u ob.forward ob := fun h => hnot (h.eq hu hf ▸ hs)
  rcases hd.forward ob List.mem_cons_self with h | ⟨_, hinit, hdepth⟩
  · exact hself h
  rcases List.mem_cons.mp ho with rfl | ho'
  · exact hself hr
  by_cases hzero : 0 < o.depth
  · obtain ⟨r, hrn, hcompl⟩ := hr
    obtain ⟨c, hc, hcinit⟩ := hd.named ob List.mem_cons_self
    obtain ⟨a, hca⟩ := hd.single ob List.mem_cons_self hdepth
    obtain ⟨b, hrb⟩ := hd.single o ho hzero
    have hsame : sys.init = r.complement := hinit.eq hcompl
    have hain : c.contains a = true := (hca c hc a).mpr rfl
    have hsize : c.size = r.size := (hu.sized hc).trans (hu.sized hrn).symm
    have hb : a = b := (hrb r hrn a).mp (contains_of_no_initial hsize hsame hcinit hain)
    have hcounter : ob.counter = o.counter := hu.name_ext hc hrn fun y => by
      rw [Bool.eq_iff_iff, hca c hc, hrb r hrn, hb]
    have hnodup := hd.distinct
    rw [List.map_cons, List.nodup_cons] at hnodup
    exact hnodup.1 (List.mem_map.mpr ⟨o, ho', hcounter.symm⟩)
  · by_cases hin : o ∈ staged
    · rcases hd.forward o ho with h | ⟨_, _, hpos⟩
      · exact hnot (h.eq hu hr ▸ ha.settled o hin)
      · exact hzero hpos
    · have hle := hmin o ho' hin
      omega

theorem Duties.weaken (hd : Duties sys mode u (ob :: obs)) (hf : Refutes u f ob) :
    Duties sys mode u ({ ob with forward := f } :: obs) where
  distinct := hd.distinct
  named := List.forall_mem_cons.mpr (List.forall_mem_cons.mp hd.named)
  forward := List.forall_mem_cons.mpr ⟨Or.inl hf, (List.forall_mem_cons.mp hd.forward).2⟩
  single := List.forall_mem_cons.mpr (List.forall_mem_cons.mp hd.single)

theorem Covers.weaken (hc : Covers sys u (ob :: obs) frame) (hf : Refutes u f ob)
    (hnot : ¬ Settled sys u (ob :: obs) ob.forward)
    (hfree : ∀ o ∈ ob :: obs, ¬ Refutes u ob.forward o) :
    Covers sys u ({ ob with forward := f } :: obs) ((frame.erase ob.forward).insert f) := by
  have hcontains : ∀ g, ((frame.erase ob.forward).insert f).contains g =
      (decide (g = f) || (!decide (g = ob.forward) && frame.contains g)) := fun g => by
    simp only [Frame.contains, Frame.insert, Frame.erase, FormulaSet.contains_insert,
      FormulaMap.contains_erase]
  refine ⟨List.forall_mem_cons.mpr ⟨⟨f, hf, by rw [hcontains]; simp⟩, fun o ho => ?_⟩,
    List.forall_mem_cons.mpr ⟨Or.inl (by rw [hcontains]; simp), fun o ho => ?_⟩, fun g hg => ?_⟩
  · have ho' := List.mem_cons_of_mem ob ho
    obtain ⟨g, hg, hin⟩ := hc.refuted o ho'
    have hne : g ≠ ob.forward := fun heq => hfree o ho' (heq ▸ hg)
    exact ⟨g, hg, by rw [hcontains, hin]; simp [hne]⟩
  · rw [settled_weaken]
    by_cases heq : o.forward = ob.forward
    · exact Or.inr (heq ▸ hnot)
    · refine (hc.kept o (List.mem_cons_of_mem _ ho)).imp_left fun hin => ?_
      rw [hcontains, hin]
      simp [heq]
  · rw [hcontains] at hg
    simp only [Bool.or_eq_true, Bool.and_eq_true, Bool.not_eq_true', decide_eq_true_eq,
      decide_eq_false_iff_not] at hg
    rcases hg with rfl | ⟨hne, hin⟩
    · exact ⟨_, List.mem_cons_self, Or.inr rfl⟩
    · obtain ⟨o, ho, hcase⟩ := hc.members g hin
      rcases List.mem_cons.mp ho with rfl | ho
      · exact ⟨_, List.mem_cons_self, Or.inl (hcase.resolve_right fun heq => hne heq.symm)⟩
      · exact ⟨o, List.mem_cons_of_mem _ ho, hcase⟩

theorem Assumes.weaken (ha : Assumes sys u (ob :: obs) staged first)
    (hstaged : ∀ o ∈ staged, o ∈ obs) :
    Assumes sys u ({ ob with forward := f } :: obs) staged first where
  refuted := List.forall_mem_cons.mpr (List.forall_mem_cons.mp ha.refuted)
  staged_mem o ho := List.mem_cons_of_mem _ (hstaged o ho)
  settled o ho := settled_weaken.mpr (ha.settled o ho)
  members g hg := (ha.members g hg).imp_left refuted_weaken.mpr

end Weakening

/-! The end of the frame: every obligation is staged. -/

theorem exists_refutations (hu : u.Canonical) : ∀ {obs : List Obligation},
    (obs.map (·.counter)).Nodup → (∀ ob ∈ obs, ∃ f, Refutes u f ob ∧ frame.contains f = true) →
    ∃ fs : List Formula, fs.length = obs.length ∧ fs.Nodup ∧
      (∀ f, f ∈ fs ↔ ∃ ob ∈ obs, Refutes u f ob) ∧ ∀ f ∈ fs, frame.contains f = true
  | [], _, _ => ⟨[], rfl, .nil, by simp, by simp⟩
  | ob :: obs, hnodup, hall => by
      obtain ⟨hnot, hrest⟩ := List.nodup_cons.mp hnodup
      obtain ⟨⟨f, hf, hin⟩, htail⟩ := List.forall_mem_cons.mp hall
      obtain ⟨fs, hlen, hfs, hmem, hfin⟩ := exists_refutations hu hrest htail
      refine ⟨f :: fs, by simp [hlen], List.nodup_cons.mpr ⟨fun hffs => ?_, hfs⟩, fun g => ?_,
        List.forall_mem_cons.mpr ⟨hin, hfin⟩⟩
      · obtain ⟨o, ho, hr⟩ := (hmem f).mp hffs
        exact hnot (List.mem_map.mpr ⟨o, ho, hr.counter_eq hu hf⟩)
      · rw [List.mem_cons, hmem]
        constructor
        · rintro (rfl | ⟨o, ho, hr⟩)
          · exact ⟨ob, List.mem_cons_self, hf⟩
          · exact ⟨o, List.mem_cons_of_mem _ ho, hr⟩
        · rintro ⟨o, ho, hr⟩
          rcases List.mem_cons.mp ho with rfl | ho
          · exact Or.inl (hr.eq hu hf)
          · exact Or.inr ⟨o, ho, hr⟩

/-- Either the frame holds the refutations alone, and then it is as large as the list of
obligations, or some candidate stands for the initial states and refutes nothing. -/
theorem Covers.size_cases (hc : Covers sys u obs frame) (hu : u.Canonical)
    (hd : Duties sys mode u obs) :
    (frame.size = obs.length ∧ ∀ f, frame.contains f = true → ∃ ob ∈ obs, Refutes u f ob) ∨
    (frame.size ≠ obs.length ∧ mode = .reachable ∧ ∃ ob ∈ obs, u.Names ob.forward sys.init ∧
      ∀ o ∈ obs, ¬ Refutes u ob.forward o) := by
  obtain ⟨fs, hlen, hnodup, hmem, hin⟩ := exists_refutations hu hd.distinct hc.refuted
  have hkeys : frame.toList.length = frame.size := FormulaMap.length_keys frame.members
  have hsub : fs.Subperm frame.toList :=
    hnodup.subperm fun f hf => FormulaSet.mem_toList.mpr (hin f hf)
  by_cases hsize : frame.size = obs.length
  · refine Or.inl ⟨hsize, fun f hf => ?_⟩
    have hperm := hsub.perm_of_length_le (by rw [hkeys, hsize, hlen])
    exact (hmem f).mp (hperm.mem_iff.mpr (FormulaSet.mem_toList.mpr hf))
  · refine Or.inr ⟨hsize, ?_⟩
    have hextra : ∃ f, frame.contains f = true ∧ f ∉ fs := by
      refine Classical.byContradiction fun hnone => hsize ?_
      have hsub' : frame.toList.Subperm fs :=
        (FormulaMap.keys_nodup frame.members).subperm fun f hf =>
          Classical.byContradiction fun hnot => hnone ⟨f, FormulaSet.mem_toList.mp hf, hnot⟩
      have hle := hsub.length_le
      have hle' := hsub'.length_le
      omega
    obtain ⟨f, hf, hnot⟩ := hextra
    have hfree : ∀ o ∈ obs, ¬ Refutes u f o := fun o ho hr => hnot ((hmem f).mpr ⟨o, ho, hr⟩)
    obtain ⟨ob, hob, hr | rfl⟩ := hc.members f hf
    · exact absurd hr (hfree ob hob)
    · rcases hd.forward ob hob with hr | ⟨hmode, hname, _⟩
      · exact absurd hr (hfree ob hob)
      · exact ⟨hmode, ob, hob, hname, hfree⟩

theorem Duties.clear_of_edge (hd : Duties sys mode u obs) (hu : u.Canonical)
    (hn : u.size = sys.size) (hs : ∀ ob ∈ obs, Settled sys u obs ob.forward) {x y : Nat}
    (hx : Clear u obs x) (hedge : sys.Edge x y) : Clear u obs y := fun ob hob r hr => by
  obtain ⟨f, c, hf, hc, _, hdisjoint⟩ := hd.forward_spec hu hn hob
  obtain rfl := hr.eq hc
  exact hdisjoint y (hs ob hob f hf x y hx hedge)

end Invariance.FiniteState
