import Invariance.Proofs.FiniteState.Graphs

/-!
What searching a graph finds. Every search on it comes to the answer of the search on its system.
Main statement: layers hold the ends of paths along the constraints, there are layers exactly if
there is such a path, and the way back from a state of the last layer takes the smallest predecessor
each time.
-/

namespace Invariance.FiniteState.Graph

variable {g : Graph} {sys : TransitionSystem} {n x y : Nat}

namespace Matches

open TransitionSystem

variable {s : WordSet} {t : StateSet}

theorem successors_eq (h : g.Matches sys) (hx : x < sys.size) :
    ∃ row, g.successors x = .ok row ∧ Row.Ascending row ∧ ∀ y, y ∈ row ↔ sys.Edge x y := by
  have hrow : x < g.succ.size := h.rows.symm ▸ hx
  exact ⟨_, by rw [successors, Array.getElem?_eq_getElem hrow], h.ascending hrow, h.mem hrow⟩

theorem hasEdge_eq (h : g.Matches sys) (hx : x < sys.size) (y : Nat) :
    ∃ image, sys.successors x = .ok image ∧ g.hasEdge x y = .ok (image.contains y) := by
  obtain ⟨image, himage, _, hiff⟩ := TransitionSystem.successors_eq hx
  obtain ⟨row, hrow, hascending, hmem⟩ := h.successors_eq hx
  refine ⟨image, himage, ?_⟩
  rw [hasEdge, hrow]
  rcases Row.locate_cases hascending y with ⟨i, hlocate, hin⟩ | ⟨i, hlocate, hout, _⟩
  · rw [(hiff y).mpr ((hmem y).mp hin)]
    simp only [bind, Except.bind, hlocate]
    rfl
  · rw [Bool.eq_false_iff.mpr fun hy => hout ((hmem y).mpr ((hiff y).mp hy))]
    simp only [bind, Except.bind, hlocate]
    rfl

theorem post (h : g.Matches sys) (hs : s.Matches t) (ht : t.size = sys.size) :
    ∃ r p, g.post s = .ok r ∧ sys.post t = .ok p ∧ r.Matches p ∧ p.size = sys.size := by
  have key : ∀ (xs : List Nat) (acc : WordSet), (∀ x ∈ xs, x < sys.size) → acc.Fits sys.size →
      ∃ r, xs.foldlM (fun next x => do (← g.successors x).foldlM WordSet.insert next) acc = .ok r ∧
        r.Fits sys.size ∧ ∀ y, r.bit y = true ↔ acc.bit y = true ∨ ∃ x ∈ xs, sys.Edge x y := by
    intro xs
    induction xs with
    | nil => exact fun acc _ hacc => ⟨acc, rfl, hacc, fun y => by simp⟩
    | cons x xs ih =>
        intro acc hxs hacc
        obtain ⟨row, hrow, _, hmem⟩ := h.successors_eq (hxs x List.mem_cons_self)
        have hrowlt : ∀ y ∈ row.toList, y < sys.size := fun y hy =>
          ((hmem y).mp (Array.mem_toList_iff.mp hy)).lt_right
        obtain ⟨acc₁, hstep, hacc₁, hbit₁⟩ := WordSet.insertAll_eq hacc hrowlt
        obtain ⟨r, hr, hfits, hbit⟩ := ih acc₁ (fun y hy => hxs y (List.mem_cons_of_mem _ hy)) hacc₁
        rw [Array.foldlM_toList] at hstep
        refine ⟨r, ?_, hfits, fun y => ?_⟩
        · rw [List.foldlM_cons, hrow]
          simp only [bind, Except.bind, hstep]
          exact hr
        · rw [hbit, hbit₁, Array.mem_toList_iff, hmem]
          simp [or_assoc]
  have hsmall : t.size ≤ 0x100000000 := ht ▸ Nat.le_succ_of_le sys.size_le
  have hlt : ∀ x ∈ t.toList, x < sys.size := fun x hx =>
    ht ▸ t.lt_size x (StateSet.mem_toList.mp hx)
  obtain ⟨r, hr, hfits, hbit⟩ := key t.toList (.empty sys.size) hlt WordSet.empty_fits
  obtain ⟨p, hp, hsize, hc⟩ := TransitionSystem.post_eq ht
  refine ⟨r, p, ?_, hp, ⟨hsize.symm ▸ hfits, fun y => ?_⟩, hsize⟩
  · rw [Graph.post, hs.toList_eq hsmall, h.size]
    exact hr
  · rw [Bool.eq_iff_iff, hbit, hc, WordSet.bit_empty]
    simp [StateSet.mem_toList]

theorem layersFrom_of_isEmpty {layer : StateSet} (h : layer.isEmpty = true)
    (done constraints : List StateSet) : sys.layersFrom layer done constraints = .ok none := by
  cases constraints <;> rw [layersFrom, if_pos h]

/-- Going on from a layer that is not empty. -/
theorem layersAfter (h : g.Matches sys) {start : WordSet} {cs : List WordSet} {ds : List StateSet}
    (hcs : List.Forall₂ WordSet.Matches cs ds) (hds : ∀ d ∈ ds, d.size = sys.size) :
    ∀ {s : WordSet} {t : StateSet} {done : List WordSet} {done' : List StateSet}, s.Matches t →
      t.size = sys.size → t.isEmpty = false → List.Forall₂ WordSet.Matches done done' →
      Echoes (Option.Rel (List.Forall₂ WordSet.Matches)) (g.layersAfter start (s :: done) cs)
        (sys.layersFrom t done' ds) := by
  induction hcs with
  | nil =>
      intro s t done done' hs _ hempty hdone
      rw [Graph.layersAfter, layersFrom, hempty]
      exact .some (List.rel_reverse (.cons hs hdone))
  | @cons c d cs ds hc hcs ih =>
      intro s t done done' hs ht hempty hdone
      obtain ⟨image, image', himage, himage', hmatches, hsize⟩ := h.post hs ht
      obtain ⟨layer, next, hlayer, hnext, hlayer', hnsize⟩ :=
        hmatches.inter_eq hc (hsize.trans (hds d List.mem_cons_self).symm)
      rw [Graph.layersAfter, layersFrom, hempty]
      simp only [himage, himage', hlayer, hnext, bind, Except.bind, Bool.false_eq_true, if_false,
        hlayer'.isEmpty_eq]
      cases hlast : next.isEmpty with
      | true =>
          rw [layersFrom_of_isEmpty hlast]
          exact .none
      | false =>
          exact ih (fun d hd => hds d (List.mem_cons_of_mem _ hd)) hlayer' (hnsize.trans hsize)
            hlast (.cons hs hdone)

theorem constrainedLayers (h : g.Matches sys) {start : WordSet} {start' : StateSet}
    {cs : List WordSet} {ds : List StateSet} (hstart : start.Matches start')
    (hsize : start'.size = sys.size) (hcs : List.Forall₂ WordSet.Matches cs ds)
    (hds : ∀ d ∈ ds, d.size = sys.size) :
    Echoes (Option.Rel (List.Forall₂ WordSet.Matches)) (g.constrainedLayers start cs)
      (sys.constrainedLayers start' ds) := by
  cases hcs with
  | nil => exact .some .nil
  | @cons c d cs ds hc hcs =>
      obtain ⟨layer, next, hlayer, hnext, hlayer', hnsize⟩ :=
        hstart.inter_eq hc (hsize.trans (hds d List.mem_cons_self).symm)
      rw [Graph.constrainedLayers, Graph.layersAfter, TransitionSystem.constrainedLayers]
      simp only [hlayer, hnext, bind, Except.bind, hlayer'.isEmpty_eq]
      cases hlast : next.isEmpty with
      | true =>
          rw [layersFrom_of_isEmpty hlast]
          exact .none
      | false =>
          exact h.layersAfter hcs (fun d hd => hds d (List.mem_cons_of_mem _ hd)) hlayer'
            (hnsize.trans hsize) hlast .nil

theorem firstPredecessor (h : g.Matches sys) (x : Nat) : ∀ {candidates : List Nat},
    (∀ y ∈ candidates, y < sys.size) →
    g.firstPredecessor x candidates = sys.firstPredecessor x candidates
  | [], _ => rfl
  | y :: candidates, hlt => by
      obtain ⟨image, himage, hedge⟩ := h.hasEdge_eq (hlt y List.mem_cons_self) x
      rw [Graph.firstPredecessor, TransitionSystem.firstPredecessor, hedge, himage]
      simp only [bind, Except.bind,
        h.firstPredecessor x fun z hz => hlt z (List.mem_cons_of_mem _ hz)]

theorem retrace (h : g.Matches sys) {layers : List WordSet} {layers' : List StateSet}
    (hlayers : List.Forall₂ WordSet.Matches layers layers')
    (hsizes : ∀ t ∈ layers', t.size = sys.size) :
    ∀ (x : Nat) (path : List Nat), g.retrace x path layers = sys.retrace x path layers' := by
  induction hlayers with
  | nil => exact fun _ _ => rfl
  | @cons s t layers layers' hs _ ih =>
      intro x path
      have ht : t.size = sys.size := hsizes t List.mem_cons_self
      have hlist : s.toList = t.toList := hs.toList_eq (ht ▸ Nat.le_succ_of_le sys.size_le)
      have hlt : ∀ y ∈ t.toList, y < sys.size := fun y hy =>
        ht ▸ t.lt_size y (StateSet.mem_toList.mp hy)
      rw [Graph.retrace, TransitionSystem.retrace, hlist, h.firstPredecessor x hlt]
      refine bind_congr fun found => ?_
      cases found with
      | none => rfl
      | some y => exact ih (fun t ht => hsizes t (List.mem_cons_of_mem _ ht)) y _

theorem witness (h : g.Matches sys) {layers : List WordSet} {layers' : List StateSet}
    (hlayers : List.Forall₂ WordSet.Matches layers layers')
    (hsizes : ∀ t ∈ layers', t.size = sys.size) (x : Nat) :
    g.witness layers x = sys.witness layers' x := by
  have hdrop : List.Forall₂ WordSet.Matches layers.dropLast layers'.dropLast := by
    rw [List.dropLast_eq_take, List.dropLast_eq_take, hlayers.length_eq]
    exact List.forall₂_take _ hlayers
  exact h.retrace (List.rel_reverse hdrop)
    (fun t ht => hsizes t (List.dropLast_subset _ (List.mem_reverse.mp ht))) x [x]

end Matches

/-! What a search finds, said about the entries. -/

/-- A path along the constraints, in states. -/
structure Walk (edge : Nat → Nat → Prop) (start : WordSet) (cs : List WordSet) (path : List Nat) :
    Prop where
  chain : path.IsChain edge
  start : ∀ x ∈ path.head?, start.contains x = .ok true
  meets : List.Forall₂ (fun c x => c.contains x = .ok true) cs path

def Linked (n : Nat) (entries : List Entry) (x y : Nat) : Prop :=
  .edge x y ∈ entries ∧ x < n ∧ y < n

/-- The entries are all that the graph holds: those out of range are refused, and making one again
changes nothing. -/
structure Entered (n : Nat) (entries : List Entry) (g : Graph) : Prop where
  size : g.size = n
  init : ∀ x, g.init.contains x = .ok (decide (.init x ∈ entries ∧ x < n))
  rows : ∀ x, x < n → ∃ row, g.successors x = .ok row ∧ Row.Ascending row ∧
    ∀ y, y ∈ row ↔ Linked n entries x y
  again : ∀ e ∈ entries, e.Within n → g.enter e = .ok g
  refused : ∀ e : Entry, ¬ e.Within n → ∃ err, g.enter e = .refuse err

/-- A path back from `last`: it goes through the layers, and each state before is the smallest of
its layer that is linked to the next. -/
structure Retraced (edge : Nat → Nat → Prop) (layers : List WordSet) (last : Nat)
    (path : List Nat) : Prop where
  chain : path.IsChain edge
  through : List.Forall₂ (fun s x => s.contains x = .ok true) layers path
  ends : path.getLast? = some last
  smallest : ∀ (i : Nat) (s : WordSet) (x y : Nat), layers[i]? = some s → path[i]? = some x →
    path[i + 1]? = some y → IsLeast {z | s.contains z = .ok true ∧ edge z y} x

structure Searched (g : Graph) (edge : Nat → Nat → Prop) (start : WordSet)
    (cs layers : List WordSet) : Prop where
  length : layers.length = cs.length
  exact : ∀ (i : Nat) (s : WordSet), layers[i]? = some s → ∀ x, s.contains x = .ok true ↔
    ∃ path, Walk edge start (cs.take (i + 1)) path ∧ path.getLast? = some x
  witness : ∀ s last, layers.getLast? = some s → s.contains last = .ok true →
    ∃ path, g.witness layers last = .ok path ∧ Retraced edge layers last path

theorem matches_all {cs : List WordSet} (hcs : ∀ c ∈ cs, c.Fits n) :
    ∃ ds, List.Forall₂ WordSet.Matches cs ds ∧ ∀ d ∈ ds, d.size = n := by
  induction cs with
  | nil => exact ⟨[], .nil, by simp⟩
  | cons c cs ih =>
      obtain ⟨d, hd, hsize⟩ := (hcs c List.mem_cons_self).exists_matches
      obtain ⟨ds, hds, hsizes⟩ := ih fun c hc => hcs c (List.mem_cons_of_mem _ hc)
      exact ⟨d :: ds, .cons hd hds, List.forall_mem_cons.mpr ⟨hsize, hsizes⟩⟩

theorem contains_iff {s : WordSet} {t : StateSet} (h : s.Matches t) (x : Nat) :
    s.contains x = .ok true ↔ t.contains x = true := by
  rw [h.contains_eq, Except.ok.injEq]

theorem meets_of_matches {cs : List WordSet} {ds : List StateSet}
    (h : List.Forall₂ WordSet.Matches cs ds) (path : List Nat) :
    List.Forall₂ (fun c x => c.contains x = .ok true) cs path ↔
      TransitionSystem.Meets ds path := by
  induction h generalizing path with
  | nil => rw [TransitionSystem.Meets, List.forall₂_nil_left_iff, List.forall₂_nil_left_iff]
  | cons hc _ ih =>
      cases path with
      | nil => exact iff_of_false nofun nofun
      | cons x path =>
          rw [TransitionSystem.Meets, List.forall₂_cons, List.forall₂_cons, contains_iff hc]
          exact and_congr_right fun _ => ih path

theorem walk_iff {edge : Nat → Nat → Prop} (hedge : ∀ x y, sys.Edge x y ↔ edge x y)
    {start : WordSet} {start' : StateSet} (hstart : start.Matches start') {cs : List WordSet}
    {ds : List StateSet} (hcs : List.Forall₂ WordSet.Matches cs ds) (path : List Nat) :
    Walk edge start cs path ↔ sys.Follows start' ds path := by
  obtain rfl : sys.Edge = edge := funext fun x => funext fun y => propext (hedge x y)
  constructor
  · rintro ⟨hchain, hhead, hmeets⟩
    exact ⟨hchain, (meets_of_matches hcs path).mp hmeets,
      fun x hx => (contains_iff hstart x).mp (hhead x hx)⟩
  · rintro ⟨hchain, hmeets, hhead⟩
    exact ⟨hchain, fun x hx => (contains_iff hstart x).mpr (hhead x hx),
      (meets_of_matches hcs path).mpr hmeets⟩

theorem Matches.entered {entries : List Entry} (h : g.Matches sys) (hsize : sys.size = n)
    (hinit : ∀ z, sys.Initial z ↔ .init z ∈ entries ∧ z < n)
    (hedge : ∀ a b, sys.Edge a b ↔ Linked n entries a b) : g.Entered n entries where
  size := h.size.trans hsize
  init x := by
    rw [h.init.contains_eq, Except.ok.injEq, Bool.eq_iff_iff, decide_eq_true_eq]
    exact hinit x
  rows x hx := by
    obtain ⟨row, hrow, hascending, hmem⟩ := h.successors_eq (hsize.symm ▸ hx)
    exact ⟨row, hrow, hascending, fun y => (hmem y).trans (hedge x y)⟩
  again e he hin := by
    obtain ⟨g', sys', hg', _, h', hsize', hinit', hedge'⟩ := h.enter_eq (hsize.symm ▸ hin)
    have hinits : ∀ z, sys'.Initial z ↔ sys.Initial z := fun z => by
      rw [hinit', or_iff_left_of_imp]
      rintro rfl
      exact (hinit z).mpr ⟨he, hin⟩
    have hedges : ∀ a b, sys'.Edge a b ↔ sys.Edge a b := fun a b => by
      rw [hedge', or_iff_left_of_imp]
      rintro rfl
      exact (hedge a b).mpr ⟨he, hin⟩
    rw [hg', h.unique h' hsize' hinits hedges]
  refused e hout := by
    obtain ⟨err, herr, _⟩ := h.enter_refused (hsize.symm ▸ hout)
    exact ⟨err, herr⟩

theorem getElem?_of_forall₂ {α β : Type} {R : α → β → Prop} {l : List α} {l' : List β}
    (h : List.Forall₂ R l l') {i : Nat} {a : α} (ha : l[i]? = some a) :
    ∃ b, l'[i]? = some b ∧ R a b := by
  obtain ⟨hi, rfl⟩ := List.getElem?_eq_some_iff.mp ha
  have hi' : i < l'.length := h.length_eq ▸ hi
  exact ⟨l'[i], List.getElem?_eq_getElem hi', (List.forall₂_iff_get.mp h).2 i hi hi'⟩

open TransitionSystem in
/-- The layers of the graph's own search are those of its system's, so what these hold carries
over. -/
theorem Matches.searched {edge : Nat → Nat → Prop} (h : g.Matches sys)
    (hedge : ∀ x y, sys.Edge x y ↔ edge x y) {start : WordSet} {start' : StateSet}
    (hstart : start.Matches start') {cs ws : List WordSet} {d layer : StateSet}
    {ds layers : List StateSet} (hcs : List.Forall₂ WordSet.Matches cs (d :: ds))
    (hws : List.Forall₂ WordSet.Matches ws (layer :: layers)) (hsize : layer.size = sys.size)
    (hlayered : Layered sys layer layers ds)
    (hfirst : ∀ x, layer.contains x = true ↔ start'.contains x = true ∧ d.contains x = true) :
    g.Searched edge start cs ws where
  length := by
    rw [hws.length_eq, hcs.length_eq, List.length_cons, List.length_cons, hlayered.length_eq]
  exact i s hs x := by
    obtain ⟨t, ht, hmatches⟩ := getElem?_of_forall₂ hws hs
    rw [contains_iff hmatches, hlayered.contains_iff hfirst ht]
    simp only [walk_iff hedge hstart (List.forall₂_take (i + 1) hcs)]
  witness s last hs hlast := by
    rw [List.getLast?_eq_getElem?] at hs
    obtain ⟨t, ht, hmatches⟩ := getElem?_of_forall₂ hws hs
    rw [hws.length_eq, ← List.getLast?_eq_getElem?] at ht
    obtain ⟨path, hpath, hchain, hmeets, hends, hthrifty⟩ :=
      hlayered.witness_eq hsize ht ((contains_iff hmatches last).mp hlast)
    have hsizes : ∀ t ∈ layer :: layers, t.size = sys.size :=
      List.forall_mem_cons.mpr ⟨hsize, hlayered.sizes⟩
    obtain rfl : sys.Edge = edge := funext fun x => funext fun y => propext (hedge x y)
    have hthrough := (meets_of_matches hws path).mpr hmeets
    refine ⟨path, (h.witness hws hsizes last).trans hpath, hchain, hthrough, hends,
      fun i s x y hs hx hy => ?_⟩
    obtain ⟨t, ht, hmatches⟩ := getElem?_of_forall₂ hws hs
    obtain ⟨x', hx', hin⟩ := getElem?_of_forall₂ hthrough hs
    obtain rfl := Option.some.inj (hx.symm.trans hx')
    obtain ⟨hi, rfl⟩ := List.getElem?_eq_some_iff.mp hy
    obtain ⟨_, rfl⟩ := List.getElem?_eq_some_iff.mp hx
    refine ⟨⟨hin, List.isChain_iff_getElem.mp hchain i hi⟩, fun z hz => ?_⟩
    exact hthrifty i t _ _ ht hx hy z ((contains_iff hmatches z).mp hz.1) hz.2

open TransitionSystem in
theorem Matches.search {edge : Nat → Nat → Prop} (h : g.Matches sys)
    (hedge : ∀ x y, sys.Edge x y ↔ edge x y) {start : WordSet} {cs : List WordSet}
    (hstart : start.Fits sys.size) (hne : cs ≠ []) (hcs : ∀ c ∈ cs, c.Fits sys.size) :
    ∃ answer, g.constrainedLayers start cs = .ok answer ∧
      (answer.isSome = true ↔ ∃ path, Walk edge start cs path) ∧
      ∀ layers, answer = some layers → g.Searched edge start cs layers := by
  obtain ⟨start', hstart', hsize⟩ := hstart.exists_matches
  obtain ⟨ds, hds, hsizes⟩ := matches_all hcs
  have hechoes := h.constrainedLayers hstart' hsize hds hsizes
  obtain ⟨d, ds, rfl⟩ : ∃ d ds', ds = d :: ds' := List.exists_cons_of_ne_nil fun hnil => by
    subst hnil
    exact hne (List.forall₂_nil_right_iff.mp hds)
  rcases constrainedLayers_eq hsize hsizes with
    ⟨layer, layers, hrun, hlsize, hlayered, hfirst⟩ | ⟨hrun, hnone⟩
  · obtain ⟨answer, hanswer, hrel⟩ := hechoes.of_right hrun
    cases hrel with
    | @some ws _ hws =>
        have hsearched := h.searched hedge hstart' hds hws hlsize hlayered hfirst
        refine ⟨some ws, hanswer, iff_of_true rfl ?_, fun layers heq => ?_⟩
        · have hlast : (layer :: layers)[layers.length]? =
              some ((layer :: layers)[layers.length]) := List.getElem?_eq_getElem (by simp)
          obtain ⟨x, hx⟩ := StateSet.exists_of_not_isEmpty
            (hlayered.nonempty _ (List.mem_of_getElem? hlast))
          obtain ⟨path, hpath, _⟩ := (hlayered.contains_iff hfirst hlast x).mp hx
          rw [hlayered.length_eq, ← List.length_cons, List.take_length] at hpath
          exact ⟨path, (walk_iff hedge hstart' hds path).mpr hpath⟩
        · obtain rfl := Option.some.inj heq
          exact hsearched
  · obtain ⟨answer, hanswer, hrel⟩ := hechoes.of_right hrun
    cases hrel with
    | none =>
        refine ⟨none, hanswer, iff_of_false nofun ?_, nofun⟩
        rintro ⟨path, hpath⟩
        exact hnone path ((walk_iff hedge hstart' hds path).mp hpath)

theorem enterAll_searched (hpos : 0 < n) (hmax : n ≤ maxState) (entries : List Entry)
    {start : WordSet} {cs : List WordSet} (hstart : start.Fits n) (hne : cs ≠ [])
    (hcs : ∀ c ∈ cs, c.Fits n) :
    ∃ blank g answer, new n = .ok blank ∧ blank.enterAll entries = .ok g ∧ g.Entered n entries ∧
      g.constrainedLayers start cs = .ok answer ∧
      (answer.isSome = true ↔ ∃ path, Walk (Linked n entries) start cs path) ∧
      ∀ layers, answer = some layers → g.Searched (Linked n entries) start cs layers := by
  obtain ⟨blank, hblank, hmatches⟩ := new_matches hpos hmax
  obtain ⟨g, sys, hg, h, hsize, hinit, hedge⟩ := enterAll_eq hmatches entries
  obtain rfl : n = sys.size := hsize.symm
  have hinit' : ∀ z, sys.Initial z ↔ .init z ∈ entries ∧ z < sys.size := fun z => by
    rw [hinit, or_iff_right TransitionSystem.not_initial_blank]
    rfl
  have hedge' : ∀ a b, sys.Edge a b ↔ Linked sys.size entries a b := fun a b => by
    rw [hedge, or_iff_right TransitionSystem.not_edge_blank]
    rfl
  obtain ⟨answer, hanswer, hsome, hsearched⟩ := h.search hedge' hstart hne hcs
  exact ⟨blank, g, answer, hblank, hg, h.entered rfl hinit' hedge', hanswer, hsome, hsearched⟩

/-- One entry is out of range and one is made twice. -/
def drawn : List Entry :=
  [.edge 0 2, .edge 0 1, .init 0, .edge 0 2, .edge 9 0, .edge 2 1, .edge 1 1]

theorem drawn_searched : 0 < 3 ∧ 3 ≤ maxState ∧ (WordSet.full 3).Fits 3 ∧
    ∃ blank g layers, new 3 = .ok blank ∧ blank.enterAll drawn = .ok g ∧ g.Entered 3 drawn ∧
      g.constrainedLayers (.full 3) (List.replicate 3 (.full 3)) = .ok (some layers) ∧
      g.Searched (Linked 3 drawn) (.full 3) (List.replicate 3 (.full 3)) layers := by
  have hfull : (WordSet.full 3).Fits 3 := WordSet.full_fits
  have hcs : ∀ c ∈ List.replicate 3 (WordSet.full 3), c.Fits 3 := fun c hc =>
    List.eq_of_mem_replicate hc ▸ hfull
  obtain ⟨blank, g, answer, hblank, hg, hentered, hanswer, hsome, hsearched⟩ :=
    enterAll_searched (by decide) (by decide) drawn hfull (List.cons_ne_nil _ _) hcs
  have hin : ∀ x, x < 3 → (WordSet.full 3).contains x = .ok true := by decide +kernel
  have hwalk : Walk (Linked 3 drawn) (.full 3) (List.replicate 3 (.full 3)) [0, 2, 1] := by
    refine ⟨?_, fun x hx => ?_, .cons (hin 0 (by decide)) (.cons (hin 2 (by decide))
      (.cons (hin 1 (by decide)) .nil))⟩
    · simp [Linked, drawn]
    · obtain rfl := Option.some.inj hx
      exact hin 0 (by decide)
  obtain ⟨layers, rfl⟩ := Option.isSome_iff_exists.mp (hsome.mpr ⟨_, hwalk⟩)
  exact ⟨by decide, by decide, hfull, blank, g, layers, hblank, hg, hentered, hanswer,
    hsearched layers rfl⟩

end Invariance.FiniteState.Graph
