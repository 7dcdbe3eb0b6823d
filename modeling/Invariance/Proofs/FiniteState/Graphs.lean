import Invariance.FiniteState.Graph
import Invariance.Proofs.FiniteState.Recipes
import Mathlib.Data.List.Sort

/-!
Systems as they are entered. A row of successors stays ascending under insertions in any order, so
that halving it decides membership; a graph is then the transition system with the same edges, kept
in another way. Nothing but the entries in range matters, neither their order nor how often each of
them is made.
-/

namespace Invariance.FiniteState

namespace Row

variable {row : Array Nat} {x y : Nat}

def Ascending (row : Array Nat) : Prop := row.toList.Pairwise (· < ·)

theorem Ascending.lt (h : Ascending row) {i j : Nat} (hj : j < row.size) (hij : i < j) :
    row[i] < row[j] :=
  List.pairwise_iff_getElem.mp h i j (Nat.lt_trans hij hj) hj hij

/-- All numbers behind this place are greater, and the one at it is not, unless none is less. -/
structure Splits (row : Array Nat) (x : Nat) (k : Fin row.size) : Prop where
  low : k.val = 0 ∨ row[k] ≤ x
  high : ∀ j (hj : j < row.size), k < j → x < row[j]

theorem narrow_splits (hrow : Ascending row) {base size : Nat} (hsize : 0 < size)
    (h : base + size ≤ row.size) (hlow : base = 0 ∨ row[base] ≤ x)
    (hhigh : ∀ j (hj : j < row.size), base + size ≤ j → x < row[j]) :
    Splits row x (narrow row x base size hsize h) := by
  fun_induction narrow row x base size hsize h with
  | case1 base => exact ⟨hlow, fun j hj hlt => hhigh j hj hlt⟩
  | case2 base size _ h _ hlt ih =>
      refine ih hlow fun j hj hle => ?_
      rcases Nat.lt_or_eq_of_le (show base + size / 2 ≤ j by omega) with hmid | rfl
      · exact Nat.lt_trans hlt (hrow.lt hj hmid)
      · exact hlt
  | case3 base size _ h _ hge ih =>
      exact ih (Or.inr (Nat.le_of_not_lt hge)) fun j hj hle => hhigh j hj (by omega)

theorem pairwise_insertIdx : ∀ {l : List Nat} {i : Nat}, l.Pairwise (· < ·) →
    (∀ y ∈ l.take i, y < x) → (∀ y ∈ l.drop i, x < y) → (l.insertIdx i x).Pairwise (· < ·)
  | l, 0, hl, _, hhigh => List.pairwise_cons.mpr ⟨hhigh, hl⟩
  | [], i + 1, _, _, _ => .nil
  | y :: l, i + 1, hl, hlow, hhigh => by
      obtain ⟨hy, hl⟩ := List.pairwise_cons.mp hl
      rw [List.take_succ_cons, List.forall_mem_cons] at hlow
      refine List.pairwise_cons.mpr ⟨fun z hz => ?_, pairwise_insertIdx hl hlow.2 hhigh⟩
      rcases List.eq_or_mem_of_mem_insertIdx hz with rfl | hz
      · exact hlow.1
      · exact hy z hz

theorem exists_splits (hrow : Ascending row) (x : Nat) (h : row.size ≠ 0) :
    ∃ k, Splits row x k ∧ locate row x =
      if row[k] = x then .found k else if row[k] < x then .missing k.succ
      else .missing k.castSucc := by
  have hsplits := narrow_splits (x := x) hrow (Nat.pos_of_ne_zero h)
    (Nat.le_of_eq (Nat.zero_add _)) (Or.inl rfl) fun j hj hle => absurd hj (by omega)
  exact ⟨_, hsplits, by rw [locate, dif_neg h]⟩

/-- Where the number is not found, it can be put. -/
theorem locate_missing (hrow : Ascending row) {i : Fin (row.size + 1)}
    (h : locate row x = .missing i) :
    (∀ y ∈ row.toList.take i, y < x) ∧ ∀ y ∈ row.toList.drop i, x < y := by
  by_cases hsize : row.size = 0
  · have hnil : row.toList = [] := List.length_eq_zero_iff.mp hsize
    simp [hnil]
  · obtain ⟨k, hsplits, hlocate⟩ := exists_splits hrow x hsize
    have hafter : ∀ y ∈ row.toList.drop (k + 1), x < y := fun y hy => by
      obtain ⟨j, hj, rfl⟩ := List.mem_drop_iff_getElem.mp hy
      exact hsplits.high _ (by simpa [Nat.add_comm] using hj) (by omega)
    rw [hlocate] at h
    split at h
    next => cases h
    next hne =>
      split at h
      next hlt =>
        obtain rfl := Place.missing.inj h
        refine ⟨fun y hy => ?_, hafter⟩
        obtain ⟨j, hj, rfl⟩ := List.mem_take_iff_getElem.mp hy
        rcases Nat.lt_or_eq_of_le (show j ≤ k by simp at hj; omega) with hjk | rfl
        · exact Nat.lt_trans (hrow.lt k.isLt hjk) hlt
        · exact hlt
      next hge =>
        obtain rfl := Place.missing.inj h
        have hlt : x < row[k] := by omega
        have hzero : k.val = 0 := hsplits.low.resolve_right (Nat.not_le_of_lt hlt)
        have hsplit : row.toList.drop k = row[k] :: row.toList.drop (k + 1) :=
          List.drop_eq_getElem_cons k.isLt
        rw [Fin.val_castSucc, hsplit]
        exact ⟨by simp [hzero], List.forall_mem_cons.mpr ⟨hlt, hafter⟩⟩

theorem locate_found (hrow : Ascending row) {i : Fin row.size} (h : locate row x = .found i) :
    row[i] = x := by
  obtain ⟨k, _, hlocate⟩ := exists_splits hrow x (Nat.ne_zero_of_lt i.isLt)
  rw [hlocate] at h
  split at h
  next heq =>
    obtain rfl := Place.found.inj h
    exact heq
  next =>
    split at h
    all_goals cases h

theorem locate_cases (hrow : Ascending row) (x : Nat) :
    (∃ i, locate row x = .found i ∧ x ∈ row) ∨
      ∃ i, locate row x = .missing i ∧ x ∉ row ∧
        Ascending (row.insertIdx i x (Nat.le_of_lt_succ i.isLt)) := by
  cases h : locate row x with
  | found i => exact Or.inl ⟨i, rfl, locate_found hrow h ▸ Array.getElem_mem i.isLt⟩
  | missing i =>
      obtain ⟨hlow, hhigh⟩ := locate_missing hrow h
      refine Or.inr ⟨i, rfl, fun hx => ?_, ?_⟩
      · rw [← Array.mem_toList_iff, ← List.take_append_drop i row.toList, List.mem_append] at hx
        rcases hx with hx | hx
        · exact Nat.lt_irrefl x (hlow x hx)
        · exact Nat.lt_irrefl x (hhigh x hx)
      · rw [Ascending, Array.toList_insertIdx]
        exact pairwise_insertIdx hrow hlow hhigh

end Row

namespace TransitionSystem

variable {sys : TransitionSystem} {x y : Nat}

theorem new_eq {n : Nat} (hpos : 0 < n) (hmax : n ≤ maxState) : new n = .ok (blank n hmax) := by
  rw [new, if_neg (Nat.ne_of_gt hpos), dif_neg (Nat.not_lt_of_le hmax)]

theorem not_initial_blank {n : Nat} {h : n ≤ maxState} : ¬ (blank n h).Initial x := by
  simp [Initial, blank, StateSet.contains_empty]

theorem not_edge_blank {n : Nat} {h : n ≤ maxState} : ¬ (blank n h).Edge x y := by
  rintro ⟨s, hs, hy⟩
  rw [successors] at hs
  split at hs
  next hx =>
    obtain rfl := Except.ok.inj hs
    simp [blank, StateSet.contains_empty] at hy
  next => cases hs

theorem addInit_eq (hx : x < sys.size) :
    ∃ sys', sys.addInit x = .ok sys' ∧ sys'.size = sys.size ∧
      (∀ z, sys'.init.contains z = (sys.init.contains z || decide (x = z))) ∧
      ∀ a b, sys'.Edge a b ↔ sys.Edge a b := by
  have hx' : x < sys.init.size := sys.init_size.symm ▸ hx
  rw [addInit, dif_pos hx]
  exact ⟨_, rfl, rfl, sys.init.contains_add x hx', fun _ _ => Iff.rfl⟩

theorem addEdge_eq (hx : x < sys.size) (hy : y < sys.size) :
    ∃ sys', sys.addEdge x y = .ok sys' ∧ sys'.size = sys.size ∧ sys'.init = sys.init ∧
      ∀ a b, sys'.Edge a b ↔ sys.Edge a b ∨ a = x ∧ b = y := by
  have hsucc : x < sys.succ.size := sys.succ_size.symm ▸ hx
  rw [addEdge, dif_pos hsucc, dif_pos hy]
  refine ⟨_, rfl, rfl, rfl, fun a b => ?_⟩
  simp only [Edge, successors, Array.size_set, Array.getElem_set]
  by_cases ha : a < sys.succ.size
  · simp only [dif_pos ha, Except.ok.injEq, exists_eq_left']
    by_cases hxa : x = a
    · subst hxa
      rw [if_pos rfl, StateSet.contains_add]
      simp [eq_comm (a := y)]
    · rw [if_neg hxa]
      simp [Ne.symm hxa]
  · have hne : a ≠ x := fun h => ha (h ▸ hsucc)
    simp [dif_neg ha, hne]

end TransitionSystem

/-- A call that enters a part of a system. -/
inductive Entry where
  | init (x : Nat)
  | edge (x y : Nat)
  deriving DecidableEq

def Entry.Within (n : Nat) : Entry → Prop
  | .init x => x < n
  | .edge x y => x < n ∧ y < n

def TransitionSystem.enter (sys : TransitionSystem) :
    Entry → Except SystemError TransitionSystem
  | .init x => sys.addInit x
  | .edge x y => sys.addEdge x y

namespace Graph

def enter (g : Graph) : Entry → Checked Graph
  | .init x => g.addInit x
  | .edge x y => g.addEdge x y

/-- Makes all entries. One that is refused leaves the graph as it is. -/
def enterAll (g : Graph) : List Entry → Except Violation Graph
  | [] => .ok g
  | e :: rest =>
      match g.enter e with
      | .ok g' => g'.enterAll rest
      | .error (.error _) => g.enterAll rest
      | .error (.violation v) => .error v

/-- The graph and the system have the same edges and the same initial states. -/
structure Matches (g : Graph) (sys : TransitionSystem) : Prop where
  size : g.size = sys.size
  init : g.init.Matches sys.init
  rows : g.succ.size = sys.size
  ascending : ∀ {x : Nat} (hx : x < g.succ.size), Row.Ascending g.succ[x]
  mem : ∀ {x : Nat} (hx : x < g.succ.size) (y : Nat), y ∈ g.succ[x] ↔ sys.Edge x y

variable {g : Graph} {sys : TransitionSystem} {n x y : Nat} {e : Entry}

theorem new_matches (hpos : 0 < n) (hmax : n ≤ maxState) :
    ∃ g, new n = .ok g ∧ g.Matches (.blank n hmax) := by
  refine ⟨_, by rw [new, if_neg (Nat.ne_of_gt hpos), if_neg (Nat.not_lt_of_le hmax)], rfl,
    .empty n, Array.size_replicate, fun hx => ?_, fun hx y => ?_⟩
  · rw [Array.getElem_replicate]
    exact .nil
  · rw [Array.getElem_replicate]
    exact iff_of_false (Array.not_mem_empty y) TransitionSystem.not_edge_blank

namespace Matches

theorem check_eq (h : g.Matches sys) (x : Nat) :
    g.check x = if x < sys.size then .ok () else .refuse (.stateOutOfRange x sys.size) := by
  rw [check, h.size]

theorem addInit (h : g.Matches sys) (hx : x < sys.size) :
    ∃ g' sys', g.addInit x = .ok g' ∧ sys.addInit x = .ok sys' ∧ g'.Matches sys' ∧
      sys'.size = sys.size ∧ (∀ z, sys'.Initial z ↔ sys.Initial z ∨ x = z) ∧
      ∀ a b, sys'.Edge a b ↔ sys.Edge a b := by
  obtain ⟨sys', hsys', hsize, hinit, hedge⟩ := TransitionSystem.addInit_eq hx
  obtain ⟨s, hs, hfits, hbit⟩ := WordSet.insert_eq h.init.fits (sys.init_size.symm ▸ hx)
  refine ⟨{ g with init := s }, sys', ?_, hsys', ⟨h.size.trans hsize.symm, ⟨?_, fun i => ?_⟩,
    h.rows.trans hsize.symm, h.ascending, fun hx y => (h.mem hx y).trans (hedge _ y).symm⟩, hsize,
    fun z => ?_, hedge⟩
  · rw [Graph.addInit, h.check_eq, if_pos hx, hs]
    rfl
  · rw [sys'.init_size, hsize, ← sys.init_size]
    exact hfits
  · rw [hbit, hinit, h.init.same]
  · rw [TransitionSystem.Initial, hinit, Bool.or_eq_true, decide_eq_true_eq]
    rfl

theorem addEdge (h : g.Matches sys) (hx : x < sys.size) (hy : y < sys.size) :
    ∃ g' sys', g.addEdge x y = .ok g' ∧ sys.addEdge x y = .ok sys' ∧ g'.Matches sys' ∧
      sys'.size = sys.size ∧ (∀ z, sys'.Initial z ↔ sys.Initial z) ∧
      ∀ a b, sys'.Edge a b ↔ sys.Edge a b ∨ a = x ∧ b = y := by
  obtain ⟨sys', hsys', hsize, hinit, hedge⟩ := TransitionSystem.addEdge_eq hx hy
  have hinitial : ∀ z, sys'.Initial z ↔ sys.Initial z := fun z => by
    rw [TransitionSystem.Initial, hinit]
    rfl
  have hrow : x < g.succ.size := h.rows.symm ▸ hx
  rcases Row.locate_cases (h.ascending hrow) y with
    ⟨i, hlocate, hin⟩ | ⟨i, hlocate, _, hascending⟩
  · have hadd : g.addEdge x y = .ok g := by
      rw [Graph.addEdge, h.check_eq, h.check_eq, if_pos hx, if_pos hy]
      simp only [bind, Except.bind, dif_pos hrow, hlocate]
      rfl
    refine ⟨g, sys', hadd, hsys', ⟨h.size.trans hsize.symm, hinit ▸ h.init,
      h.rows.trans hsize.symm, h.ascending, fun hlt z => ?_⟩, hsize, hinitial, hedge⟩
    rw [h.mem hlt, hedge, or_iff_left_of_imp]
    rintro ⟨rfl, rfl⟩
    exact (h.mem hlt _).mp hin
  · have hadd : g.addEdge x y =
        .ok { g with succ := g.succ.set x (g.succ[x].insertIdx i y) } := by
      rw [Graph.addEdge, h.check_eq, h.check_eq, if_pos hx, if_pos hy]
      simp only [bind, Except.bind, dif_pos hrow, hlocate]
      rfl
    refine ⟨_, sys', hadd, hsys', ⟨h.size.trans hsize.symm, hinit ▸ h.init,
      (Array.size_set hrow).trans (h.rows.trans hsize.symm), fun hlt => ?_, fun hlt z => ?_⟩,
      hsize, hinitial, hedge⟩
    · simp only [Array.getElem_set]
      split
      next => exact hascending
      next => exact h.ascending _
    · simp only [Array.getElem_set]
      rw [hedge]
      split
      next heq =>
        subst heq
        rw [Array.mem_insertIdx, h.mem hrow, or_comm]
        simp
      next hne => simp [h.mem, Ne.symm hne]

theorem enter_eq (h : g.Matches sys) (he : e.Within sys.size) :
    ∃ g' sys', g.enter e = .ok g' ∧ sys.enter e = .ok sys' ∧ g'.Matches sys' ∧
      sys'.size = sys.size ∧ (∀ z, sys'.Initial z ↔ sys.Initial z ∨ e = .init z) ∧
      ∀ a b, sys'.Edge a b ↔ sys.Edge a b ∨ e = .edge a b := by
  cases e with
  | init x =>
      obtain ⟨g', sys', hg, hsys, hmatches, hsize, hinit, hedge⟩ := h.addInit he
      exact ⟨g', sys', hg, hsys, hmatches, hsize, by simpa using hinit, by simpa using hedge⟩
  | edge x y =>
      obtain ⟨g', sys', hg, hsys, hmatches, hsize, hinit, hedge⟩ := h.addEdge he.1 he.2
      refine ⟨g', sys', hg, hsys, hmatches, hsize, by simpa using hinit, fun a b => ?_⟩
      rw [hedge, Entry.edge.injEq, eq_comm (a := x), eq_comm (a := y)]

theorem enter_refused (h : g.Matches sys) (he : ¬ e.Within sys.size) :
    ∃ err, g.enter e = .refuse err ∧ sys.enter e = .error err := by
  cases e with
  | init x =>
      have hx : ¬ x < sys.size := he
      refine ⟨.stateOutOfRange x sys.size, ?_, dif_neg hx⟩
      rw [enter, Graph.addInit, h.check_eq, if_neg hx]
      rfl
  | edge x y =>
      by_cases hx : x < sys.size
      · have hy : ¬ y < sys.size := fun hy => he ⟨hx, hy⟩
        refine ⟨.stateOutOfRange y sys.size, ?_, ?_⟩
        · rw [enter, Graph.addEdge, h.check_eq, h.check_eq, if_pos hx, if_neg hy]
          rfl
        · rw [TransitionSystem.enter, TransitionSystem.addEdge,
            dif_pos (sys.succ_size.symm ▸ hx), dif_neg hy]
      · refine ⟨.stateOutOfRange x sys.size, ?_, ?_⟩
        · rw [enter, Graph.addEdge, h.check_eq, if_neg hx]
          rfl
        · rw [TransitionSystem.enter, TransitionSystem.addEdge,
            dif_neg fun hlt => hx (sys.succ_size ▸ hlt)]

theorem foldlM_enter {α : Type} (entry : α → Entry) (xs : List α) (h : g.Matches sys) :
    Echoes Matches (xs.foldlM (fun g a => g.enter (entry a)) g)
      ((xs.foldlM (fun sys a => TransitionSystem.enter sys (entry a)) sys).mapError .error) := by
  induction xs generalizing g sys with
  | nil => exact h
  | cons a xs ih =>
      rw [List.foldlM_cons, List.foldlM_cons]
      by_cases he : (entry a).Within sys.size
      · obtain ⟨g', sys', hg', hsys', h', _⟩ := h.enter_eq he
        rw [hg', hsys']
        exact ih h'
      · obtain ⟨err, herr, herr'⟩ := h.enter_refused he
        rw [herr, herr']
        exact rfl

/-- Nothing is left of the order in which a graph was entered. -/
theorem unique {g' : Graph} {sys' : TransitionSystem} (h : g.Matches sys) (h' : g'.Matches sys')
    (hsize : sys'.size = sys.size) (hinit : ∀ x, sys'.Initial x ↔ sys.Initial x)
    (hedge : ∀ x y, sys'.Edge x y ↔ sys.Edge x y) : g' = g := by
  have hsizes : g'.size = g.size := h'.size.trans (hsize.trans h.size.symm)
  have hinits : g'.init = g.init := by
    have hfits' : g'.init.Fits sys.size := by
      rw [← hsize, ← sys'.init_size]
      exact h'.init.fits
    have hfits : g.init.Fits sys.size := by
      rw [← sys.init_size]
      exact h.init.fits
    refine hfits'.ext hfits fun i => ?_
    rw [h'.init.same, h.init.same, Bool.eq_iff_iff]
    exact hinit i
  have hrows : g'.succ = g.succ := by
    refine Array.ext (h'.rows.trans (hsize.trans h.rows.symm)) fun x hx' hx => ?_
    have hmem : ∀ y, y ∈ g'.succ[x].toList ↔ y ∈ g.succ[x].toList := fun y => by
      rw [Array.mem_toList_iff, Array.mem_toList_iff, h'.mem, h.mem, hedge]
    exact Array.toList_inj.mp ((h'.ascending hx').eq_of_mem_iff (h.ascending hx) hmem)
  cases g
  cases g'
  simp only [Graph.mk.injEq]
  exact ⟨hsizes, hinits, hrows⟩

end Matches

/-- A system that is given as a whole is the same in both forms, or refused in both. -/
theorem ofEdges_matches (n : Nat) (init : List Nat) (edges : List (Nat × Nat)) :
    Echoes Matches (ofEdges n init edges)
      ((TransitionSystem.ofEdges n init edges).mapError .error) := by
  have hbind : ∀ {α β : Type} (x : Except SystemError α) (f : α → Except SystemError β),
      (x >>= f).mapError Flaw.error = x.mapError .error >>= fun a => (f a).mapError .error := by
    rintro α β (_ | _) f <;> rfl
  have hnew : Echoes Matches ((new n).mapError Flaw.error)
      ((TransitionSystem.new n).mapError .error) := by
    by_cases hpos : 0 < n
    · by_cases hmax : n ≤ maxState
      · obtain ⟨blank, hblank, hmatches⟩ := new_matches hpos hmax
        rw [hblank, TransitionSystem.new_eq hpos hmax]
        exact hmatches
      · rw [new, TransitionSystem.new, if_neg (Nat.ne_of_gt hpos), if_neg (Nat.ne_of_gt hpos),
          if_pos (Nat.lt_of_not_le hmax), dif_pos (Nat.lt_of_not_le hmax)]
        exact rfl
    · obtain rfl : n = 0 := Nat.eq_zero_of_not_pos hpos
      exact rfl
  rw [ofEdges, TransitionSystem.ofEdges, hbind]
  refine hnew.bind fun g sys h => ?_
  rw [hbind]
  exact (h.foldlM_enter .init init).bind fun g sys h =>
    h.foldlM_enter (fun e : Nat × Nat => .edge e.1 e.2) edges

theorem enterAll_eq (h : g.Matches sys) : ∀ entries : List Entry, ∃ g' sys',
    g.enterAll entries = .ok g' ∧ g'.Matches sys' ∧ sys'.size = sys.size ∧
      (∀ z, sys'.Initial z ↔ sys.Initial z ∨ .init z ∈ entries ∧ z < sys.size) ∧
      ∀ a b, sys'.Edge a b ↔ sys.Edge a b ∨ .edge a b ∈ entries ∧ a < sys.size ∧ b < sys.size := by
  intro entries
  induction entries generalizing g sys with
  | nil => exact ⟨g, sys, rfl, h, rfl, by simp, by simp⟩
  | cons e rest ih =>
      by_cases he : e.Within sys.size
      · obtain ⟨g₁, sys₁, hg₁, _, h₁, hsize₁, hinit₁, hedge₁⟩ := h.enter_eq he
        obtain ⟨g', sys', hg', h', hsize', hinit', hedge'⟩ := ih h₁
        refine ⟨g', sys', ?_, h', hsize'.trans hsize₁, fun z => ?_, fun a b => ?_⟩
        · rw [enterAll, hg₁]
          exact hg'
        · rw [hinit', hinit₁, hsize₁, List.mem_cons, eq_comm (a := e), or_assoc, or_and_right]
          have hin : Entry.init z = e → z < sys.size := fun heq => by
            subst heq
            exact he
          rw [and_iff_left_of_imp hin]
        · rw [hedge', hedge₁, hsize₁, List.mem_cons, eq_comm (a := e), or_assoc, or_and_right]
          have hin : Entry.edge a b = e → a < sys.size ∧ b < sys.size := fun heq => by
            subst heq
            exact he
          rw [and_iff_left_of_imp hin]
      · obtain ⟨err, herr, _⟩ := h.enter_refused he
        obtain ⟨g', sys', hg', h', hsize', hinit', hedge'⟩ := ih h
        refine ⟨g', sys', ?_, h', hsize', fun z => ?_, fun a b => ?_⟩
        · rw [enterAll, herr]
          exact hg'
        · have hout : z < sys.size → Entry.init z ≠ e := fun hz heq => by
            subst heq
            exact he hz
          rw [hinit', List.mem_cons]
          grind
        · have hout : a < sys.size → b < sys.size → Entry.edge a b ≠ e := fun ha hb heq => by
            subst heq
            exact he ⟨ha, hb⟩
          rw [hedge', List.mem_cons]
          grind

end Graph

end Invariance.FiniteState
