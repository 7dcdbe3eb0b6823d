import Invariance.Lineage
import Invariance.Proofs.FiniteState.Ledger

/-!
What the lineage knows while the first frame is worked on. A learnt formula leaves out one state,
and that state has a step to a state that its parent leaves out. So a path that ends outside a
learnt formula goes on to a state outside its parent, and in the end outside a property.
-/

namespace Invariance.FiniteState

open Universe

variable {sys : TransitionSystem} {mode : ForwardLearning} {u u' : Universe}
  {obs obs' : List Obligation} {l : Lineage}

/-- So many steps of the lineage lead from the formula to a property. -/
inductive Rooted (l : Lineage) : Nat → Formula → Prop
  | property {p : Formula} : l.origin? p = none → l.isProperty p = true → Rooted l 0 p
  | learnt {n : Nat} {f : Formula} {o : Origin} :
      l.origin? f = some o → Rooted l n o.parent → Rooted l (n + 1) f

theorem Rooted.congr {l' : Lineage} {n : Nat} {f : Formula} (h : Rooted l n f)
    (ho : l'.origins = l.origins) (hp : l'.properties = l.properties) : Rooted l' n f := by
  induction h with
  | property horigin hprop =>
      exact .property (by rwa [Lineage.origin?, ho]) (by rwa [Lineage.isProperty, hp])
  | learnt horigin _ ih => exact .learnt (by rwa [Lineage.origin?, ho]) ih

/-- The formula leaves out only the state `a`, from which there is a step to a state that the parent
leaves out. -/
def Traced (sys : TransitionSystem) (u : Universe) (f : Formula) (o : Origin) : Prop :=
  o.depth = 1 ∧ ∃ a y r p, u.Names f r ∧
    (∀ x, x < sys.size → r.contains x = false → x = a) ∧
    sys.Edge a y ∧ u.Names o.parent p ∧ p.contains y = false

theorem Traced.extend {f : Formula} {o : Origin} (h : Traced sys u f o) (hext : Extends u u') :
    Traced sys u' f o := by
  obtain ⟨hdepth, a, y, r, p, hf, hx, hedge, hp, hy⟩ := h
  exact ⟨hdepth, a, y, r, p, hext.names hf, hx, hedge, hext.names hp, hy⟩

/-- Every learnt formula refutes an obligation and is traced, every property refutes one, and an
obligation is as many steps away from a property as its depth says. -/
structure Descends (sys : TransitionSystem) (u : Universe) (obs : List Obligation) (l : Lineage) :
    Prop where
  traced : ∀ f o, l.origin? f = some o → Traced sys u f o
  learnt : ∀ f o, l.origin? f = some o → ∃ ob ∈ obs, Refutes u f ob
  literal : ∀ p, l.isProperty p = true → ∃ ob ∈ obs, Refutes u p ob
  rooted : ∀ ob ∈ obs, ∀ f, Refutes u f ob → Rooted l ob.depth f
  depth_le : ∀ ob ∈ obs, ob.depth ≤ l.size

namespace Descends

theorem extend (h : Descends sys u obs l) (hu : u'.Canonical)
    (hc : ∀ ob ∈ obs, ∃ f, Refutes u f ob) (hext : Extends u u') : Descends sys u' obs l where
  traced f o ho := (h.traced f o ho).extend hext
  learnt f o ho := by
    obtain ⟨ob, hob, hr⟩ := h.learnt f o ho
    exact ⟨ob, hob, hr.extend hext⟩
  literal p hp := by
    obtain ⟨ob, hob, hr⟩ := h.literal p hp
    exact ⟨ob, hob, hr.extend hext⟩
  rooted ob hob f hf := by
    obtain ⟨g, hg⟩ := hc ob hob
    obtain rfl := hf.eq hu (hg.extend hext)
    exact h.rooted ob hob f hg
  depth_le := h.depth_le

theorem perm (h : Descends sys u obs l) (hperm : obs.Perm obs') : Descends sys u obs' l where
  traced := h.traced
  learnt f o ho := by
    obtain ⟨ob, hob, hr⟩ := h.learnt f o ho
    exact ⟨ob, hperm.mem_iff.mp hob, hr⟩
  literal p hp := by
    obtain ⟨ob, hob, hr⟩ := h.literal p hp
    exact ⟨ob, hperm.mem_iff.mp hob, hr⟩
  rooted ob hob := h.rooted ob (hperm.mem_iff.mpr hob)
  depth_le ob hob := h.depth_le ob (hperm.mem_iff.mpr hob)

theorem weaken {ob : Obligation} {f : Formula} (h : Descends sys u (ob :: obs) l) :
    Descends sys u ({ ob with forward := f } :: obs) l where
  traced := h.traced
  learnt g o ho := refuted_weaken.mpr (h.learnt g o ho)
  literal p hp := refuted_weaken.mpr (h.literal p hp)
  rooted := List.forall_mem_cons.mpr (List.forall_mem_cons.mp h.rooted)
  depth_le := List.forall_mem_cons.mpr (List.forall_mem_cons.mp h.depth_le)

end Descends

theorem origin?_addOrigin (l : Lineage) (f g : Formula) (o : Origin) :
    (l.addOrigin f o).origin? g = if g = f then some o else l.origin? g :=
  l.origins.get?_insert f g o

theorem Rooted.addOrigin {n : Nat} {f g : Formula} {o : Origin} (h : Rooted l n g)
    (hnew : l.origin? f = none) (hproperty : ∀ p, l.isProperty p = true → p ≠ f) :
    Rooted (l.addOrigin f o) n g := by
  induction h with
  | property horigin hp =>
      refine .property ?_ hp
      rw [origin?_addOrigin, if_neg (hproperty _ hp)]
      exact horigin
  | @learnt n g o' horigin _ ih =>
      have hne : g ≠ f := fun heq => by
        rw [heq, hnew] at horigin
        cases horigin
      refine .learnt ?_ ih
      rw [origin?_addOrigin, if_neg hne]
      exact horigin

theorem size_addOrigin {f : Formula} {o : Origin} (hnew : l.origin? f = none) :
    (l.addOrigin f o).size = l.size + 1 :=
  FormulaMap.size_insert o (FormulaMap.contains_eq_false.mpr hnew)

theorem Descends.unlearnt (h : Descends sys u obs l) (hu : u.Canonical) {ob : Obligation}
    {backward : Formula} {a : Nat} (hl : Learnt sys mode u obs ob backward a) :
    l.origin? backward = none := by
  cases horigin : l.origin? backward with
  | none => rfl
  | some o =>
      obtain ⟨ob', hob', hr⟩ := h.learnt backward o horigin
      exact absurd hr (hl.not_refutes hu hob')

theorem Descends.not_property (h : Descends sys u obs l) (hu : u.Canonical) {ob : Obligation}
    {backward : Formula} {a : Nat} (hl : Learnt sys mode u obs ob backward a) :
    ∀ p, l.isProperty p = true → p ≠ backward := fun p hp heq => by
  obtain ⟨ob', hob', hr⟩ := h.literal p hp
  exact hl.not_refutes hu hob' (heq ▸ hr)

theorem Descends.learn (h : Descends sys u obs l) (hu : u.Canonical) (hn : u.size = sys.size)
    {ob parent : Obligation} {backward refutation : Formula} {a y : Nat} {p : StateSet}
    (hl : Learnt sys mode u obs ob backward a) (hparent : parent ∈ obs)
    (hr : Refutes u refutation parent) (hdepth : ob.depth = parent.depth + 1)
    (hp : u.Names refutation p) (hedge : sys.Edge a y) (hy : p.contains y = false)
    {o : Origin} (ho : o.parent = refutation) (hone : o.depth = 1) :
    l.origin? backward = none ∧ Descends sys u (ob :: obs) (l.addOrigin backward o) := by
  have hnew := h.unlearnt hu hl
  have hproperty := h.not_property hu hl
  have hkept : ∀ {n g}, Rooted l n g → Rooted (l.addOrigin backward o) n g := fun hg =>
    hg.addOrigin hnew hproperty
  have hself : (l.addOrigin backward o).origin? backward = some o := by
    rw [origin?_addOrigin, if_pos rfl]
  refine ⟨hnew, fun f o' hf => ?_, fun f o' hf => ?_, fun q hq => ?_, ?_, ?_⟩
  · rw [origin?_addOrigin] at hf
    split at hf
    next heq =>
      obtain rfl := Option.some.inj hf
      obtain ⟨r, hc, hb, hra⟩ := hl.counter
      refine ⟨hone, a, y, _, p, heq ▸ hb, fun x hx hout => ?_, hedge, ho ▸ hp, hy⟩
      refine (hra x).mp (Bool.not_eq_false _ ▸ fun hin => ?_)
      rw [StateSet.contains_complement_iff.mpr ⟨(hu.sized hc).trans hn ▸ hx, hin⟩] at hout
      cases hout
    next => exact h.traced f o' hf
  · rw [origin?_addOrigin] at hf
    split at hf
    next heq => exact ⟨ob, List.mem_cons_self, heq ▸ hl.refutes⟩
    next =>
      obtain ⟨ob', hob', hr'⟩ := h.learnt f o' hf
      exact ⟨ob', List.mem_cons_of_mem _ hob', hr'⟩
  · obtain ⟨ob', hob', hr'⟩ := h.literal q hq
    exact ⟨ob', List.mem_cons_of_mem _ hob', hr'⟩
  · refine List.forall_mem_cons.mpr ⟨fun f hf => ?_, fun ob' hob' f hf =>
      hkept (h.rooted ob' hob' f hf)⟩
    obtain rfl := hf.eq hu hl.refutes
    rw [hdepth]
    exact .learnt hself (hkept (ho ▸ h.rooted parent hparent refutation hr))
  · rw [size_addOrigin hnew]
    refine List.forall_mem_cons.mpr ⟨?_, fun ob' hob' => Nat.le_succ_of_le (h.depth_le ob' hob')⟩
    rw [hdepth]
    exact Nat.succ_le_succ (h.depth_le parent hparent)

/-- The lineage `l'` has one formula more than `l`, which leaves out the single state `a` that its
origin names. Initially the system is in another state. -/
structure Learns (sys : TransitionSystem) (u : Universe) (l l' : Lineage) (a : Nat) : Prop where
  added : ∃ f o c, l.origin? f = none ∧ l' = l.addOrigin f o ∧ u.Names o.refutes c ∧
    (∀ x, c.contains x = true ↔ x = a) ∧ u.Names f c.complement
  late : ¬ sys.Initial a
  lt : a < sys.size

theorem Learnt.learns {ob : Obligation} {backward : Formula} {a : Nat} {o : Origin}
    (hl : Learnt sys mode u obs ob backward a) (hnew : l.origin? backward = none)
    (ho : o.refutes = ob.counter) (ha : a < sys.size) (hext : Extends u u') :
    Learns sys u' l (l.addOrigin backward o) a := by
  obtain ⟨c, hc, hb, hsingle⟩ := hl.counter
  exact ⟨⟨backward, o, c, hnew, rfl, hext.names (ho ▸ hc), hsingle, hext.names hb⟩, hl.fresh, ha⟩

theorem Learns.extend {l' : Lineage} {a : Nat} (h : Learns sys u l l' a) (hext : Extends u u') :
    Learns sys u' l l' a := by
  obtain ⟨f, o, c, hnew, hl, hc, hsingle, hf⟩ := h.added
  exact ⟨⟨f, o, c, hnew, hl, hext.names hc, hsingle, hext.names hf⟩, h.late, h.lt⟩

theorem Rooted.violated {n : Nat} {f : Formula} (h : Rooted l n f)
    (ht : ∀ g o, l.origin? g = some o → Traced sys u g o) :
    ∀ {r : StateSet} {x : Nat}, u.Names f r → sys.Reachable x → r.contains x = false →
    ∃ p t y, l.isProperty p = true ∧ u.Names p t ∧ sys.Reachable y ∧ t.contains y = false := by
  induction h with
  | property _ hp => exact fun hf hx hout => ⟨_, _, _, hp, hf, hx, hout⟩
  | learnt ho _ ih =>
      intro r x hf hx hout
      obtain ⟨_, a, y, r', p, hf', hleft, hedge, hp, hy⟩ := ht _ _ ho
      obtain rfl := hf.eq hf'
      obtain rfl := hleft x hx.lt hout
      exact ih hp (hx.step hedge) hy

def Room (sys : TransitionSystem) (u : Universe) (obs : List Obligation) (n : Nat) : Prop :=
  ∃ xs : List Nat, xs.length = n ∧ ∀ x, x < sys.size → Clear u obs x → x ∈ xs

namespace Room

variable {n : Nat}

theorem all (sys : TransitionSystem) (u : Universe) (obs : List Obligation) :
    Room sys u obs sys.size :=
  ⟨List.range sys.size, List.length_range, fun _ hx _ => List.mem_range.mpr hx⟩

theorem of_clear (h : Room sys u obs n) (hclear : ∀ x, Clear u' obs' x → Clear u obs x) :
    Room sys u' obs' n := by
  obtain ⟨xs, hlen, hxs⟩ := h
  exact ⟨xs, hlen, fun x hx hc => hxs x hx (hclear x hc)⟩

theorem learn (h : Room sys u obs n) {ob : Obligation} {backward : Formula} {a : Nat}
    (hl : Learnt sys mode u obs ob backward a) (ha : a < sys.size) :
    ∃ m, n = m + 1 ∧ Room sys u (ob :: obs) m := by
  obtain ⟨xs, rfl, hxs⟩ := h
  have hin := hxs a ha hl.clear
  have hpos : 0 < xs.length := List.length_pos_of_mem hin
  refine ⟨xs.length - 1, by omega, xs.erase a, List.length_erase_of_mem hin, fun x hx hc => ?_⟩
  obtain ⟨r, hr, _, hra⟩ := hl.counter
  have hne : x ≠ a := fun heq => by
    have hout := hc ob List.mem_cons_self r hr
    rw [(hra x).mpr heq] at hout
    cases hout
  exact (List.mem_erase_of_ne hne).mpr
    (hxs x hx fun ob' hob' => hc ob' (List.mem_cons_of_mem _ hob'))

end Room

end Invariance.FiniteState
