import Invariance.FiniteState.PathSolver
import Mathlib.Data.List.Chain
import Mathlib.Data.List.Forall2

/-!
Layered search. Over sets of the right size no operation fails, the image of a set holds exactly
the successors of its members, and a search finds a path along a list of constraints exactly if
there is one.
-/

namespace Invariance.FiniteState

namespace StateSet

theorem allocatable_of_lt {n : Nat} (h : n + 63 < 0x10000000000000000) :
    allocatable n = .ok () := by
  simp only [allocatable, Machine.add, Machine.counts, Machine.word64, Option.all_some,
    decide_eq_true h, if_true]
  rfl

theorem isEmpty_iff {s : StateSet} : s.isEmpty = true ↔ ∀ x, s.contains x = false := by
  rw [isEmpty, beq_iff_eq]
  constructor
  · intro h x
    rw [contains, h, Nat.zero_testBit]
  · intro h
    exact Nat.eq_of_testBit_eq fun x => (h x).trans (Nat.zero_testBit x).symm

theorem exists_of_not_isEmpty {s : StateSet} (h : s.isEmpty = false) :
    ∃ x, s.contains x = true := by
  refine Classical.byContradiction fun hnone => ?_
  rw [isEmpty_iff.mpr fun x => Bool.eq_false_iff.mpr fun hx => hnone ⟨x, hx⟩] at h
  cases h

theorem pairwise_toList (s : StateSet) : s.toList.Pairwise (· < ·) := by
  rw [toList_eq_filter]
  exact List.pairwise_lt_range.filter _

theorem first_eq_some {s : StateSet} {x : Nat} (h : s.first = some x) : s.contains x = true :=
  mem_toList.mp (List.mem_of_head? h)

theorem first_eq_none {s : StateSet} : s.first = none ↔ ∀ x, s.contains x = false := by
  rw [first, List.head?_eq_none_iff]
  constructor
  · intro h x
    exact Bool.eq_false_iff.mpr fun hx => by
      have hmem := mem_toList.mpr hx
      rw [h] at hmem
      cases hmem
  · intro h
    exact List.eq_nil_iff_forall_not_mem.mpr fun x hx => by
      rw [mem_toList, h] at hx
      cases hx

theorem inter_eq {s t : StateSet} (h : s.size = t.size) :
    ∃ r, s.inter t = .ok r ∧ r.size = s.size ∧
      ∀ x, r.contains x = true ↔ s.contains x = true ∧ t.contains x = true := by
  have hr : ∃ r, s.inter t = .ok r ∧ r.size = s.size := by
    rw [inter, if_pos h]
    exact ⟨_, rfl, rfl⟩
  obtain ⟨r, hr, hsize⟩ := hr
  exact ⟨r, hr, hsize, fun x => by rw [contains_inter hr, Bool.and_eq_true]⟩

theorem union_eq {s t : StateSet} (h : s.size = t.size) :
    ∃ r, s.union t = .ok r ∧ r.size = s.size ∧
      ∀ x, r.contains x = true ↔ s.contains x = true ∨ t.contains x = true := by
  have hr : ∃ r, s.union t = .ok r ∧ r.size = s.size := by
    rw [union, dif_pos h]
    exact ⟨_, rfl, rfl⟩
  obtain ⟨r, hr, hsize⟩ := hr
  exact ⟨r, hr, hsize, fun x => by rw [contains_union hr, Bool.or_eq_true]⟩

theorem insert_eq {s : StateSet} {x : Nat} (h : x < s.size) :
    ∃ r, s.insert x = .ok r ∧ r.size = s.size ∧
      ∀ y, r.contains y = true ↔ s.contains y = true ∨ y = x :=
  ⟨s.add x h, by rw [insert, dif_pos h], rfl, fun y => by
    rw [contains_add, Bool.or_eq_true, decide_eq_true_eq, eq_comm (a := x)]⟩

theorem contains_complement_iff {s : StateSet} {x : Nat} :
    s.complement.contains x = true ↔ x < s.size ∧ s.contains x = false := by
  rw [contains_complement]
  simp

theorem complement_complement (s : StateSet) : s.complement.complement = s := by
  refine ext_contains rfl fun x => ?_
  rw [contains_complement, contains_complement]
  cases hx : s.contains x with
  | false => by_cases h : x < s.size <;> simp [complement, h]
  | true => simp [complement, s.lt_size x hx]

end StateSet

namespace TransitionSystem

variable {sys : TransitionSystem}

def Edge (sys : TransitionSystem) (x y : Nat) : Prop :=
  ∃ s, sys.successors x = .ok s ∧ s.contains y = true

def Initial (sys : TransitionSystem) (x : Nat) : Prop := sys.init.contains x = true

inductive Reachable (sys : TransitionSystem) : Nat → Prop
  | initial {x : Nat} : sys.Initial x → Reachable sys x
  | step {x y : Nat} : Reachable sys x → sys.Edge x y → Reachable sys y

/-- So many steps lead from an initial state to this one. -/
inductive ReachedIn (sys : TransitionSystem) : Nat → Nat → Prop
  | initial {y : Nat} : sys.Initial y → ReachedIn sys 0 y
  | step {k y z : Nat} : ReachedIn sys k y → sys.Edge y z → ReachedIn sys (k + 1) z

theorem ReachedIn.reachable {k y : Nat} (h : sys.ReachedIn k y) : sys.Reachable y := by
  induction h with
  | initial hy => exact .initial hy
  | step _ hedge ih => exact .step ih hedge

theorem Initial.lt {x : Nat} (h : sys.Initial x) : x < sys.size :=
  sys.init_size ▸ sys.init.lt_size x h

theorem successors_eq {x : Nat} (hx : x < sys.size) :
    ∃ s, sys.successors x = .ok s ∧ s.size = sys.size ∧
      ∀ y, s.contains y = true ↔ sys.Edge x y := by
  have hlt : x < sys.succ.size := sys.succ_size.symm ▸ hx
  have hsucc : sys.successors x = .ok sys.succ[x] := by rw [successors, dif_pos hlt]
  refine ⟨_, hsucc, sys.succ_sizes _ (Array.getElem_mem hlt), fun y => ⟨fun h => ⟨_, hsucc, h⟩, ?_⟩⟩
  rintro ⟨s, hs, hy⟩
  obtain rfl : sys.succ[x] = s := Except.ok.inj (hsucc.symm.trans hs)
  exact hy

theorem Edge.lt_left {x y : Nat} (h : sys.Edge x y) : x < sys.size := by
  obtain ⟨s, hs, _⟩ := h
  rw [successors] at hs
  split at hs
  next hlt => exact sys.succ_size ▸ hlt
  next => cases hs

theorem Edge.lt_right {x y : Nat} (h : sys.Edge x y) : y < sys.size := by
  obtain ⟨s, hs, hsize, hiff⟩ := successors_eq h.lt_left
  exact hsize ▸ s.lt_size y ((hiff y).mpr h)

theorem Reachable.lt {x : Nat} (h : sys.Reachable x) : x < sys.size := by
  cases h with
  | initial h => exact h.lt
  | step _ h => exact h.lt_right

theorem lt_size_of_path {path : List Nat} (hchain : path.IsChain sys.Edge)
    (hstart : ∀ x ∈ path.head?, sys.Initial x) : ∀ x ∈ path, x < sys.size := by
  intro x hx
  obtain ⟨i, hi, rfl⟩ := List.mem_iff_getElem.mp hx
  cases i with
  | zero => exact (hstart path[0] (by simp [List.head?_eq_getElem?, hi])).lt
  | succ i => exact (List.isChain_iff_getElem.mp hchain i hi).lt_right

theorem joinSuccessors_eq {next : StateSet} {x : Nat} (hnext : next.size = sys.size)
    (hx : x < sys.size) :
    ∃ r, sys.joinSuccessors next x = .ok r ∧ r.size = sys.size ∧
      ∀ y, r.contains y = true ↔ next.contains y = true ∨ sys.Edge x y := by
  obtain ⟨s, hs, hsize, hiff⟩ := successors_eq hx
  rw [joinSuccessors]
  simp only [hs, bind, Except.bind]
  cases hempty : s.isEmpty with
  | true =>
      refine ⟨next, rfl, hnext, fun y => ?_⟩
      rw [← hiff, StateSet.isEmpty_iff.mp hempty]
      simp
  | false =>
      obtain ⟨r, hr, hrsize, hrc⟩ := StateSet.union_eq (hnext.trans hsize.symm)
      refine ⟨r, by simpa using hr, hrsize.trans hnext, fun y => ?_⟩
      rw [hrc, hiff]

theorem post_eq {states : StateSet} (h : states.size = sys.size) :
    ∃ r, sys.post states = .ok r ∧ r.size = sys.size ∧
      ∀ y, r.contains y = true ↔ ∃ x, states.contains x = true ∧ sys.Edge x y := by
  have key : ∀ (xs : List Nat) (acc : StateSet), (∀ x ∈ xs, x < sys.size) →
      acc.size = sys.size →
      ∃ r, xs.foldlM sys.joinSuccessors acc = .ok r ∧ r.size = sys.size ∧
        ∀ y, r.contains y = true ↔ acc.contains y = true ∨ ∃ x ∈ xs, sys.Edge x y := by
    intro xs
    induction xs with
    | nil => exact fun acc _ hacc => ⟨acc, rfl, hacc, fun y => by simp⟩
    | cons x xs ih =>
        intro acc hxs hacc
        obtain ⟨acc₁, hstep, hacc₁, hc₁⟩ := joinSuccessors_eq hacc (hxs x List.mem_cons_self)
        obtain ⟨r, hr, hsize, hc⟩ :=
          ih acc₁ (fun y hy => hxs y (List.mem_cons_of_mem _ hy)) hacc₁
        refine ⟨r, by rw [List.foldlM_cons, hstep]; exact hr, hsize, fun y => ?_⟩
        rw [hc, hc₁]
        simp [or_assoc]
  have hlt : ∀ x ∈ states.toList, x < sys.size := fun x hx =>
    h ▸ states.lt_size x (StateSet.mem_toList.mp hx)
  obtain ⟨r, hr, hsize, hc⟩ := key states.toList (.empty sys.size) hlt rfl
  refine ⟨r, hr, hsize, fun y => ?_⟩
  rw [hc, StateSet.contains_empty]
  simp [StateSet.mem_toList]

/-- What a search leaves behind: each layer holds the successors of the one before that meet their
constraint, and none is empty. -/
inductive Layered (sys : TransitionSystem) : StateSet → List StateSet → List StateSet → Prop
  | last {layer : StateSet} : layer.isEmpty = false → Layered sys layer [] []
  | next {layer image constraint : StateSet} {layers constraints : List StateSet} :
      layer.isEmpty = false →
      (∀ y, image.contains y = true ↔
        (∃ x, layer.contains x = true ∧ sys.Edge x y) ∧ constraint.contains y = true) →
      image.size = sys.size →
      Layered sys image layers constraints →
      Layered sys layer (image :: layers) (constraint :: constraints)

def Meets (sets : List StateSet) (path : List Nat) : Prop :=
  List.Forall₂ (fun s x => s.contains x = true) sets path

theorem meets_snoc {sets : List StateSet} {c : StateSet} : ∀ {path : List Nat},
    Meets (sets ++ [c]) path ↔ ∃ front y, path = front ++ [y] ∧ Meets sets front ∧
      c.contains y = true := by
  induction sets with
  | nil =>
      intro path
      constructor
      · rintro (_ | ⟨hy, hnil⟩)
        rcases hnil with _ | _
        exact ⟨[], _, rfl, .nil, hy⟩
      · rintro ⟨front, y, rfl, hfront, hy⟩
        rcases hfront with _ | _
        exact .cons hy .nil
  | cons s sets ih =>
      intro path
      constructor
      · rintro (_ | ⟨hx, hrest⟩)
        obtain ⟨front, y, rfl, hfront, hy⟩ := ih.mp hrest
        exact ⟨_ :: front, y, rfl, .cons hx hfront, hy⟩
      · rintro ⟨front, y, rfl, hfront, hy⟩
        rcases hfront with _ | ⟨hx, hrest⟩
        exact .cons hx (ih.mpr ⟨_, y, rfl, hrest, hy⟩)

theorem layersFrom_eq {constraints : List StateSet}
    (hcs : ∀ c ∈ constraints, c.size = sys.size) : ∀ {layer : StateSet} (done : List StateSet),
    layer.size = sys.size →
    (∃ layers,
      sys.layersFrom layer done constraints = .ok (some (done.reverse ++ layer :: layers)) ∧
      Layered sys layer layers constraints) ∨
    (sys.layersFrom layer done constraints = .ok none ∧
      ∀ {x path}, layer.contains x = true → (x :: path).IsChain sys.Edge →
        ¬ Meets constraints path) := by
  induction constraints with
  | nil =>
      intro layer done _
      rw [layersFrom]
      cases hempty : layer.isEmpty with
      | false => exact Or.inl ⟨[], by simp, .last hempty⟩
      | true =>
          refine Or.inr ⟨rfl, fun hx => ?_⟩
          rw [StateSet.isEmpty_iff.mp hempty] at hx
          cases hx
  | cons c cs ih =>
      intro layer done hlayer
      rw [layersFrom]
      cases hempty : layer.isEmpty with
      | true =>
          refine Or.inr ⟨rfl, fun hx => ?_⟩
          rw [StateSet.isEmpty_iff.mp hempty] at hx
          cases hx
      | false =>
          obtain ⟨p, hp, hpsize, hpc⟩ := post_eq hlayer
          obtain ⟨image, himage, hisize, hic⟩ :=
            StateSet.inter_eq (hpsize.trans (hcs c List.mem_cons_self).symm)
          have hisize' : image.size = sys.size := hisize.trans hpsize
          simp only [Bool.false_eq_true, if_false, hp, himage, bind, Except.bind]
          rcases ih (fun d hd => hcs d (List.mem_cons_of_mem _ hd)) (layer :: done) hisize' with
            ⟨layers, hrest, hlayered⟩ | ⟨hrest, hnone⟩
          · refine Or.inl ⟨image :: layers, by simpa using hrest, ?_⟩
            exact .next hempty (fun y => by rw [hic, hpc]) hisize' hlayered
          · refine Or.inr ⟨hrest, fun hx hchain hmeets => ?_⟩
            rcases hmeets with _ | ⟨hy, hmeets⟩
            rw [List.isChain_cons_cons] at hchain
            exact hnone ((hic _).mpr ⟨(hpc _).mpr ⟨_, hx, hchain.1⟩, hy⟩) hchain.2 hmeets

theorem firstPredecessor_eq {x : Nat} : ∀ {candidates : List Nat},
    (∀ y ∈ candidates, y < sys.size) → candidates.Pairwise (· < ·) →
    (∃ y, sys.firstPredecessor x candidates = .ok (some y) ∧ y ∈ candidates ∧ sys.Edge y x ∧
      ∀ z ∈ candidates, sys.Edge z x → y ≤ z) ∨
    (sys.firstPredecessor x candidates = .ok none ∧ ∀ y ∈ candidates, ¬ sys.Edge y x)
  | [], _, _ => Or.inr ⟨rfl, by simp⟩
  | y :: candidates, h, hasc => by
      obtain ⟨s, hs, _, hiff⟩ := successors_eq (h y List.mem_cons_self)
      obtain ⟨hlt, hasc⟩ := List.pairwise_cons.mp hasc
      rw [firstPredecessor]
      simp only [hs, bind, Except.bind]
      cases hx : s.contains x with
      | true =>
          refine Or.inl ⟨y, rfl, List.mem_cons_self, (hiff x).mp hx, ?_⟩
          exact List.forall_mem_cons.mpr ⟨fun _ => Nat.le_refl y, fun z hz _ => (hlt z hz).le⟩
      | false =>
          have hy : ¬ sys.Edge y x := fun he => by
            rw [(hiff x).mpr he] at hx
            cases hx
          rcases firstPredecessor_eq (fun z hz => h z (List.mem_cons_of_mem _ hz)) hasc with
            ⟨z, hz, hmem, he, hleast⟩ | ⟨hnone, hall⟩
          · exact Or.inl ⟨z, hz, List.mem_cons_of_mem _ hmem, he,
              List.forall_mem_cons.mpr ⟨fun hedge => absurd hedge hy, hleast⟩⟩
          · exact Or.inr ⟨hnone, List.forall_mem_cons.mpr ⟨hy, hall⟩⟩

def Feeds (sys : TransitionSystem) (a b : StateSet) : Prop :=
  ∀ y, b.contains y = true → ∃ x, a.contains x = true ∧ sys.Edge x y

/-- Each state of the path is the smallest of its layer that leads to the next one. -/
def Thrifty (sys : TransitionSystem) (layers : List StateSet) (path : List Nat) : Prop :=
  ∀ (i : Nat) (s : StateSet) (x y : Nat), layers[i]? = some s → path[i]? = some x →
    path[i + 1]? = some y → ∀ z, s.contains z = true → sys.Edge z y → x ≤ z

theorem Thrifty.snoc {layers : List StateSet} {front path : List Nat} {s : StateSet} {x y : Nat}
    (hlength : front.length = layers.length) (h : Thrifty sys layers (front ++ y :: x :: path))
    (hleast : ∀ z, s.contains z = true → sys.Edge z x → y ≤ z) :
    Thrifty sys (layers ++ [s]) (front ++ y :: x :: path) := by
  intro i t a b ht ha hb
  rcases Nat.lt_trichotomy i layers.length with hi | rfl | hi
  · rw [List.getElem?_append_left hi] at ht
    exact h i t a b ht ha hb
  · rw [← hlength] at ha hb
    rw [List.getElem?_append_right (Nat.le_refl _), Nat.sub_self] at ht ha
    rw [List.getElem?_append_right (Nat.le_add_right _ 1), Nat.add_sub_cancel_left] at hb
    obtain rfl := Option.some.inj ht
    obtain rfl := Option.some.inj ha
    obtain rfl := Option.some.inj hb
    exact hleast
  · have hout : (layers ++ [s]).length ≤ i := by simpa using Nat.succ_le_of_lt hi
    rw [List.getElem?_eq_none hout] at ht
    cases ht

theorem retrace_eq : ∀ {layers : List StateSet} {x : Nat} {path : List Nat},
    (∀ s ∈ layers, s.size = sys.size) → layers.IsChain (fun b a => sys.Feeds a b) →
    (∀ s ∈ layers.head?, ∃ y, s.contains y = true ∧ sys.Edge y x) →
    (x :: path).IsChain sys.Edge →
    ∃ front, sys.retrace x (x :: path) layers = .ok (front ++ x :: path) ∧
      (front ++ x :: path).IsChain sys.Edge ∧ Meets layers.reverse front ∧
      Thrifty sys layers.reverse (front ++ x :: path)
  | [], _, _, _, _, _, hpath => ⟨[], rfl, hpath, .nil, fun _ _ _ _ hs => by cases hs⟩
  | layer :: rest, x, path, hsize, hfeeds, hx, hpath => by
      have hlt : ∀ y ∈ layer.toList, y < sys.size := fun y hy =>
        hsize layer List.mem_cons_self ▸ layer.lt_size y (StateSet.mem_toList.mp hy)
      obtain ⟨z, hz, hzx⟩ := hx layer rfl
      rcases firstPredecessor_eq (x := x) hlt layer.pairwise_toList with
        ⟨y, hy, hmem, hyx, hleast⟩ | ⟨_, hall⟩
      · have hylayer := StateSet.mem_toList.mp hmem
        have hnext : ∀ s ∈ rest.head?, ∃ w, s.contains w = true ∧ sys.Edge w y := fun s hs =>
          (List.isChain_cons.mp hfeeds).1 s hs y hylayer
        obtain ⟨front, hfront, hchain, hmeets, hthrifty⟩ := retrace_eq
          (fun s hs => hsize s (List.mem_cons_of_mem _ hs)) (List.isChain_cons.mp hfeeds).2 hnext
          (List.isChain_cons_cons.mpr ⟨hyx, hpath⟩)
        have hsnoc := hthrifty.snoc hmeets.length_eq.symm fun z hz =>
          hleast z (StateSet.mem_toList.mpr hz)
        refine ⟨front ++ [y], ?_, by simpa using hchain, ?_, by simpa using hsnoc⟩
        · rw [retrace, hy]
          simpa [bind, Except.bind] using hfront
        · rw [List.reverse_cons]
          exact List.rel_append hmeets (.cons hylayer .nil)
      · exact absurd hzx (hall z (StateSet.mem_toList.mpr hz))

/-- Through layers each of which holds predecessors of all states in the next one, a path is found
to any state of the last. -/
theorem witness_eq {layers : List StateSet} {s : StateSet} {x : Nat}
    (hsize : ∀ t ∈ layers, t.size = sys.size) (hfeeds : (layers ++ [s]).IsChain sys.Feeds)
    (hx : s.contains x = true) :
    ∃ path, sys.witness (layers ++ [s]) x = .ok path ∧ path.IsChain sys.Edge ∧
      Meets (layers ++ [s]) path ∧ path.getLast? = some x ∧ Thrifty sys (layers ++ [s]) path := by
  obtain ⟨hchain, _, hlast⟩ := List.isChain_append.mp hfeeds
  obtain ⟨front, hfront, hpath, hmeets, hthrifty⟩ := retrace_eq
    (fun t ht => hsize t (List.mem_reverse.mp ht)) (List.isChain_reverse.mpr hchain)
    (fun t ht => hlast t (by simpa using ht) s rfl x hx) (.singleton x)
  rw [List.reverse_reverse] at hmeets hthrifty
  refine ⟨front ++ [x], ?_, hpath, List.rel_append hmeets (.cons hx .nil), by simp, ?_⟩
  · rw [witness, List.dropLast_concat]
    exact hfront
  · intro i t a b ht ha hb
    by_cases hi : i < layers.length
    · rw [List.getElem?_append_left hi] at ht
      exact hthrifty i t a b ht ha hb
    · have hout : (front ++ [x]).length ≤ i + 1 := by
        rw [List.length_append, ← hmeets.length_eq]
        exact Nat.succ_le_succ (Nat.le_of_not_lt hi)
      rw [List.getElem?_eq_none hout] at hb
      cases hb

namespace Layered

variable {layer : StateSet} {layers constraints : List StateSet}

theorem feeds (h : Layered sys layer layers constraints) :
    (layer :: layers).IsChain sys.Feeds := by
  induction h with
  | last _ => exact .singleton _
  | next _ himage _ _ ih => exact List.isChain_cons_cons.mpr ⟨fun y hy => ((himage y).mp hy).1, ih⟩

theorem nonempty (h : Layered sys layer layers constraints) :
    ∀ s ∈ layer :: layers, s.isEmpty = false := by
  induction h with
  | last hl => simpa using hl
  | next hl _ _ _ ih => exact List.forall_mem_cons.mpr ⟨hl, ih⟩

theorem sizes (h : Layered sys layer layers constraints) : ∀ s ∈ layers, s.size = sys.size := by
  induction h with
  | last _ => simp
  | next _ _ hsize _ ih => exact List.forall_mem_cons.mpr ⟨hsize, ih⟩

theorem meets (h : Layered sys layer layers constraints) :
    ∀ {path : List Nat}, Meets layers path → Meets constraints path := by
  induction h with
  | last _ => exact id
  | next _ himage _ _ ih =>
      intro path hpath
      rcases hpath with _ | ⟨hx, hrest⟩
      exact .cons ((himage _).mp hx).2 (ih hrest)

theorem length_eq (h : Layered sys layer layers constraints) :
    layers.length = constraints.length := by
  induction h with
  | last _ => rfl
  | next _ _ _ _ ih => rw [List.length_cons, List.length_cons, ih]

theorem step (h : Layered sys layer layers constraints) : ∀ {i : Nat} {a b : StateSet},
    (layer :: layers)[i]? = some a → layers[i]? = some b →
    ∃ c, constraints[i]? = some c ∧
      ∀ y, b.contains y = true ↔
        (∃ x, a.contains x = true ∧ sys.Edge x y) ∧ c.contains y = true := by
  induction h with
  | last _ =>
      intro i a b _ hb
      cases hb
  | @next _ _ constraint _ _ _ himage _ _ ih =>
      intro i a b ha hb
      cases i with
      | zero =>
          obtain rfl := Option.some.inj ha
          obtain rfl := Option.some.inj hb
          exact ⟨constraint, rfl, himage⟩
      | succ i => exact ih ha hb

theorem witness_eq (h : Layered sys layer layers constraints) (hsize : layer.size = sys.size)
    {s : StateSet} (hs : (layer :: layers).getLast? = some s) {x : Nat}
    (hx : s.contains x = true) :
    ∃ path, sys.witness (layer :: layers) x = .ok path ∧ path.IsChain sys.Edge ∧
      Meets (layer :: layers) path ∧ path.getLast? = some x ∧
      Thrifty sys (layer :: layers) path := by
  obtain ⟨front, hfront⟩ := List.getLast?_eq_some_iff.mp hs
  have hsizes : ∀ t ∈ layer :: layers, t.size = sys.size :=
    List.forall_mem_cons.mpr ⟨hsize, h.sizes⟩
  have hfeeds := h.feeds
  rw [hfront] at hsizes hfeeds ⊢
  exact TransitionSystem.witness_eq (fun t ht => hsizes t (List.mem_append_left _ ht)) hfeeds hx

end Layered

structure Follows (sys : TransitionSystem) (start : StateSet) (constraints : List StateSet)
    (path : List Nat) : Prop where
  chain : path.IsChain sys.Edge
  meets : Meets constraints path
  start : ∀ x ∈ path.head?, start.contains x = true

theorem Follows.singleton_iff {start c : StateSet} {path : List Nat} :
    Follows sys start [c] path ↔
      ∃ x, path = [x] ∧ start.contains x = true ∧ c.contains x = true := by
  constructor
  · rintro ⟨_, hmeets, hstart⟩
    rcases hmeets with _ | ⟨hx, hnil⟩
    rcases hnil with _ | _
    exact ⟨_, rfl, hstart _ rfl, hx⟩
  · rintro ⟨x, rfl, hstart, hx⟩
    refine ⟨.singleton x, .cons hx .nil, fun y hy => ?_⟩
    obtain rfl := Option.some.inj hy
    exact hstart

theorem Follows.snoc_iff {start c : StateSet} {cs : List StateSet} (hne : cs ≠ [])
    {path : List Nat} :
    Follows sys start (cs ++ [c]) path ↔
      ∃ front x y, path = front ++ [y] ∧ Follows sys start cs front ∧
        front.getLast? = some x ∧ sys.Edge x y ∧ c.contains y = true := by
  constructor
  · rintro ⟨hchain, hmeets, hstart⟩
    obtain ⟨front, y, rfl, hfront, hy⟩ := meets_snoc.mp hmeets
    have hfront' : front ≠ [] := fun hnil => by
      rw [hnil] at hfront
      exact hne (List.forall₂_nil_right_iff.mp hfront)
    obtain ⟨x, hx⟩ : ∃ x, front.getLast? = some x := ⟨_, List.getLast?_eq_some_getLast hfront'⟩
    obtain ⟨hchain, _, hedge⟩ := List.isChain_append.mp hchain
    rw [List.head?_append_of_ne_nil _ hfront'] at hstart
    exact ⟨front, x, y, rfl, ⟨hchain, hfront, hstart⟩, hx, hedge x hx y rfl, hy⟩
  · rintro ⟨front, x, y, rfl, ⟨hchain, hmeets, hstart⟩, hx, hedge, hy⟩
    have hfront : front ≠ [] := fun hnil => by
      rw [hnil] at hx
      cases hx
    refine ⟨List.isChain_append.mpr ⟨hchain, .singleton y, fun a ha b hb => ?_⟩,
      meets_snoc.mpr ⟨front, y, rfl, hmeets, hy⟩, ?_⟩
    · obtain rfl := Option.some.inj (hx.symm.trans ha)
      obtain rfl := Option.some.inj hb
      exact hedge
    · rw [List.head?_append_of_ne_nil _ hfront]
      exact hstart

/-- Each layer holds exactly the ends of the paths along the constraints up to its own. -/
theorem Layered.contains_iff {start c layer : StateSet} {layers cs : List StateSet}
    (h : Layered sys layer layers cs)
    (hfirst : ∀ x, layer.contains x = true ↔ start.contains x = true ∧ c.contains x = true) :
    ∀ {i : Nat} {s : StateSet}, (layer :: layers)[i]? = some s → ∀ x, s.contains x = true ↔
      ∃ path, Follows sys start ((c :: cs).take (i + 1)) path ∧ path.getLast? = some x
  | 0, s, hs, x => by
      obtain rfl := Option.some.inj hs
      simp only [hfirst, Nat.zero_add, List.take_succ_cons, List.take_zero, Follows.singleton_iff]
      constructor
      · rintro ⟨hstart, hc⟩
        exact ⟨[x], ⟨x, rfl, hstart, hc⟩, rfl⟩
      · rintro ⟨_, ⟨y, rfl, hstart, hc⟩, hy⟩
        obtain rfl := Option.some.inj hy
        exact ⟨hstart, hc⟩
  | i + 1, s, hs, x => by
      have hi : i < (layer :: layers).length := by
        have hlt := (List.getElem?_eq_some_iff.mp hs).1
        omega
      have ha : (layer :: layers)[i]? = some (layer :: layers)[i] := List.getElem?_eq_getElem hi
      obtain ⟨d, hd, hstep⟩ := h.step ha hs
      have htake : (c :: cs).take (i + 1 + 1) = (c :: cs).take (i + 1) ++ [d] := by
        rw [List.take_add_one, List.getElem?_cons_succ, hd]
        rfl
      rw [htake, hstep]
      constructor
      · rintro ⟨⟨y, hy, hedge⟩, hx⟩
        obtain ⟨path, hpath, hlast⟩ := (contains_iff h hfirst ha y).mp hy
        exact ⟨path ++ [x], (Follows.snoc_iff (by simp)).mpr
          ⟨path, y, x, rfl, hpath, hlast, hedge, hx⟩, by simp⟩
      · rintro ⟨_, hpath, hlast⟩
        obtain ⟨path, y, z, rfl, hpath, hy, hedge, hz⟩ := (Follows.snoc_iff (by simp)).mp hpath
        obtain rfl : z = x := by simpa using hlast
        exact ⟨⟨y, (contains_iff h hfirst ha y).mpr ⟨path, hpath, hy⟩, hedge⟩, hz⟩

theorem constrainedLayers_eq {start c : StateSet} {cs : List StateSet}
    (hstart : start.size = sys.size) (hcs : ∀ s ∈ c :: cs, s.size = sys.size) :
    (∃ layer layers, sys.constrainedLayers start (c :: cs) = .ok (some (layer :: layers)) ∧
      layer.size = sys.size ∧ Layered sys layer layers cs ∧
      ∀ x, layer.contains x = true ↔ start.contains x = true ∧ c.contains x = true) ∨
    (sys.constrainedLayers start (c :: cs) = .ok none ∧
      ∀ path, ¬ Follows sys start (c :: cs) path) := by
  obtain ⟨layer, hlayer, hsize, hc⟩ :=
    StateSet.inter_eq (hstart.trans (hcs c List.mem_cons_self).symm)
  rw [constrainedLayers]
  simp only [hlayer, bind, Except.bind]
  rcases layersFrom_eq (fun s hs => hcs s (List.mem_cons_of_mem _ hs)) [] (hsize.trans hstart) with
    ⟨layers, hrest, hlayered⟩ | ⟨hrest, hnone⟩
  · exact Or.inl ⟨layer, layers, hrest, hsize.trans hstart, hlayered, hc⟩
  · refine Or.inr ⟨hrest, ?_⟩
    rintro path ⟨hchain, hmeets, hhead⟩
    rcases hmeets with _ | ⟨hx, hmeets⟩
    exact hnone ((hc _).mpr ⟨hhead _ rfl, hx⟩) hchain hmeets

end TransitionSystem

open TransitionSystem in
theorem PathSolver.findPath_eq {sys : TransitionSystem} {start : StateSet}
    {constraints : List StateSet} (hne : constraints ≠ []) (hstart : start.size = sys.size)
    (hcs : ∀ s ∈ constraints, s.size = sys.size) :
    (∃ path, findPath sys start constraints = .ok (some path) ∧
      Follows sys start constraints path) ∨
    (findPath sys start constraints = .ok none ∧ ∀ path, ¬ Follows sys start constraints path) := by
  obtain ⟨c, cs, rfl⟩ := List.exists_cons_of_ne_nil hne
  rw [findPath]
  rcases constrainedLayers_eq hstart hcs with
    ⟨layer, layers, hlayers, hsize, hlayered, hfirst⟩ | ⟨hlayers, hnone⟩
  · simp only [hlayers, bind, Except.bind]
    obtain ⟨last, hlast⟩ : ∃ last, (layer :: layers).getLast? = some last :=
      ⟨_, List.getLast?_eq_some_getLast (by simp)⟩
    cases hx : last.first with
    | none =>
        obtain ⟨y, hy⟩ := StateSet.exists_of_not_isEmpty
          (hlayered.nonempty last (List.mem_of_getLast? hlast))
        rw [StateSet.first_eq_none.mp hx] at hy
        cases hy
    | some x =>
        obtain ⟨path, hpath, hchain, hmeets, _⟩ :=
          hlayered.witness_eq hsize hlast (StateSet.first_eq_some hx)
        refine Or.inl ⟨path, ?_, hchain, ?_, ?_⟩
        · simp only [hlast, Option.bind_some, hx, hpath]
          rfl
        · rcases hmeets with _ | ⟨hy, hrest⟩
          exact .cons ((hfirst _).mp hy).2 (hlayered.meets hrest)
        · intro y hy
          rcases hmeets with _ | ⟨hy', hrest⟩
          obtain rfl := Option.some.inj hy
          exact ((hfirst _).mp hy').1
  · simp only [hlayers, bind, Except.bind]
    exact Or.inr ⟨rfl, hnone⟩

end Invariance.FiniteState
