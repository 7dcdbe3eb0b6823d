import Invariance.Proofs.FiniteState.Descent
import Invariance.Proofs.FiniteState.Moves

/-!
Following a counterexample. On a lineage in which every learnt formula is traced, each step of the
climb has a path that goes one state further, so the climb ends at a property, and the recorded
trace ends outside it.
-/

namespace Invariance.FiniteState

open Universe Session TransitionSystem

variable {M : Machine} {sys : TransitionSystem} {s : Search} {w : Session} {E : Fault → Prop}

structure Run (sys : TransitionSystem) (trace : List Nat) : Prop where
  nonempty : trace ≠ []
  start : ∀ x ∈ trace.head?, sys.Initial x
  chain : trace.IsChain sys.Edge

/-- The trace ends outside a property that is marked as false there. -/
def Exposed (u : Universe) (l : Lineage) (trace : List Nat) : Prop :=
  ∃ q r, l.isProperty q = true ∧ u.Names q r ∧
    (∀ x ∈ trace.getLast?, r.contains x = false) ∧ l.invalidFrame? q = some (trace.length - 1)

theorem Rooted.isProperty {l : Lineage} {n : Nat} {f : Formula} (h : Rooted l n f)
    (ho : l.origin? f = none) : l.isProperty f = true := by
  cases h with
  | property _ hprop => exact hprop
  | learnt horigin _ =>
      rw [horigin] at ho
      cases ho

theorem Rooted.parent {l : Lineage} {n : Nat} {f : Formula} {o : Origin} (h : Rooted l n f)
    (ho : l.origin? f = some o) : ∃ m, n = m + 1 ∧ Rooted l m o.parent := by
  cases h with
  | property horigin _ =>
      rw [horigin] at ho
      cases ho
  | learnt horigin h =>
      obtain rfl := Option.some.inj (horigin.symm.trans ho)
      exact ⟨_, rfl, h⟩

theorem Rooted.unique {l : Lineage} {n m : Nat} {f : Formula} (h : Rooted l n f) :
    Rooted l m f → n = m := by
  induction h generalizing m with
  | property horigin _ =>
      rintro (⟨_, _⟩ | ⟨horigin', _⟩)
      · rfl
      · rw [horigin] at horigin'
        cases horigin'
  | learnt horigin _ ih =>
      rintro (⟨horigin', _⟩ | ⟨horigin', h'⟩)
      · rw [horigin] at horigin'
        cases horigin'
      · obtain rfl := Option.some.inj (horigin.symm.trans horigin')
        rw [ih h']

theorem ends_assertFalseAt (hw : Sound sys w) {f : Formula} {r : StateSet}
    (hf : w.terms.Names f r) {k : Nat} {Q : Unit → Search × Session → Prop}
    (h : ∀ a w', Sound sys w' → Extends w.terms w'.terms → w'.terms.Demands a r.complement k →
      w'.paths.asserted = w.paths.asserted ++ [a] →
      w'.paths.opened.length = w.paths.opened.length → Q () (s, w')) :
    Action.Ends (Search.assertFalseAt (backend M) f k) (s, w) E Q := by
  rw [Search.assertFalseAt, Action.ends_bind, Search.ends_update]
  have hw₁ : Sound sys { w with paths := w.paths.ensureDepth k } := hw.congr rfl rfl
  rw [Action.ends_bind]
  refine ends_negate hw₁ hf fun g w₂ hgrow₂ hg => ?_
  rw [Action.ends_bind]
  refine ends_atStep (hgrow₂.sound hw₁) hg fun a w₃ hgrow₃ ha => ?_
  have hgrow := hgrow₂.trans hgrow₃
  have hw₃ := hgrow.sound hw₁
  refine ends_assert ha fun paths hasserted hopened => ?_
  exact h a _ (hw₃.congr rfl rfl) hgrow.terms ha
    (by rw [hasserted, hgrow.paths]; rfl) (by rw [hopened, hgrow.paths]; rfl)

theorem ends_markInvalid {f : Formula} {k : Nat} (hk : s.index ≤ k)
    (hnew : s.lineage.isInvalid f = false) {Q : Unit → Search × Session → Prop}
    (h : Q () ({ s with lineage := { s.lineage with
      invalid := s.lineage.invalid.insert f k
      propertyInvalid := s.lineage.propertyInvalid || s.lineage.isProperty f } }, w)) :
    Action.Ends (Search.markInvalid f k) (s, w) E Q := by
  have hmark : s.lineage.markInvalid f k = .ok { s.lineage with
      invalid := s.lineage.invalid.insert f k
      propertyInvalid := s.lineage.propertyInvalid || s.lineage.isProperty f } := by
    rw [Lineage.markInvalid, hnew]
    rfl
  simp only [Search.markInvalid, Action.ends_bind, Search.ends_state, if_pos hk, hmark,
    Action.ends_ofExcept_ok, Search.ends_change]
  exact h

/-- The climb stands at `f`, which is false at the end of a trace of `k` steps and `n` steps away
from a property; what is marked is not nearer to one. -/
structure Climbing (sys : TransitionSystem) (s : Search) (w : Session) (f : Formula) (k n : Nat) :
    Prop where
  sound : Sound sys w
  index : s.index = 0
  agenda : s.agenda.Valid
  opened : 0 < w.paths.opened.length
  within : ∀ a ∈ w.paths.asserted, ∃ x j, w.terms.Demands a x j ∧ j ≤ k
  last : ∃ a ∈ w.paths.asserted, ∃ r x, w.terms.Names f r ∧ w.terms.Demands a x k ∧
    ∀ y, x.contains y = true → r.contains y = false
  models : PathSolver.Models sys w.terms w.paths.asserted w.trace
  length : w.trace.length = k + 1
  traced : ∀ g o, s.lineage.origin? g = some o → Traced sys w.terms g o
  rooted : Rooted s.lineage n f
  marked : s.lineage.invalidFrame? f = some k
  above : ∀ g m, s.lineage.isInvalid g = true → Rooted s.lineage m g → n ≤ m

namespace Climbing

variable {f : Formula} {k n : Nat}

theorem run (h : Climbing sys s w f k n) : Run sys w.trace where
  nonempty := fun hnil => by
    have hlen := h.length
    rw [hnil] at hlen
    cases hlen
  start := h.models.start
  chain := h.models.chain

theorem getLast?_eq (h : Climbing sys s w f k n) :
    ∃ x r, w.trace.getLast? = some x ∧ w.trace[k]? = some x ∧ w.terms.Names f r ∧
      r.contains x = false := by
  have hk : k < w.trace.length := by
    rw [h.length]
    exact Nat.lt_succ_self k
  have hget : w.trace[k]? = some w.trace[k] := List.getElem?_eq_getElem hk
  obtain ⟨a, ha, r, x, hf, hd, hout⟩ := h.last
  refine ⟨w.trace[k], r, ?_, hget, hf, hout _ (h.models.obeys a ha x k _ hd hget)⟩
  rw [List.getLast?_eq_getElem?, h.length, Nat.add_sub_cancel, hget]

theorem exposed (h : Climbing sys s w f k n) (hf : s.lineage.isProperty f = true) :
    Exposed w.terms s.lineage w.trace := by
  obtain ⟨x, r, hlast, _, hr, hout⟩ := h.getLast?_eq
  refine ⟨f, r, hf, hr, fun y hy => ?_, ?_⟩
  · obtain rfl := Option.some.inj (hlast.symm.trans hy)
    exact hout
  · rw [h.length, Nat.add_sub_cancel]
    exact h.marked

theorem demanded (h : Climbing sys s w f k n) :
    ∀ a ∈ w.paths.asserted, ∃ x j, w.terms.Demands a x j := fun a ha => by
  obtain ⟨x, j, hd, _⟩ := h.within a ha
  exact ⟨x, j, hd⟩

theorem grow {w' : Session} (h : Climbing sys s w f k n) (hgrow : Grows w w') :
    Climbing sys s w' f k n where
  sound := hgrow.sound h.sound
  index := h.index
  agenda := h.agenda
  opened := by
    rw [hgrow.paths]
    exact h.opened
  within a ha := by
    rw [hgrow.paths] at ha
    obtain ⟨x, j, hd, hj⟩ := h.within a ha
    exact ⟨x, j, hd.extend hgrow.terms, hj⟩
  last := by
    obtain ⟨a, ha, r, x, hf, hd, hout⟩ := h.last
    exact ⟨a, hgrow.paths ▸ ha, r, x, hgrow.terms.names hf, hd.extend hgrow.terms, hout⟩
  models := by
    rw [hgrow.trace, hgrow.paths]
    exact h.models.extend h.demanded hgrow.terms
  length := by
    rw [hgrow.trace]
    exact h.length
  traced g o ho := (h.traced g o ho).extend hgrow.terms
  rooted := h.rooted
  marked := h.marked
  above := h.above

end Climbing

structure Follows (sys : TransitionSystem) (s : Search) (w : Session) (s' : Search) (w' : Session) :
    Prop where
  sound : Sound sys w'
  terms : Extends w.terms w'.terms
  properties : s'.lineage.properties = s.lineage.properties
  flagged : s.lineage.propertyInvalid = true → s'.lineage.propertyInvalid = true
  rounds : s'.stats.rounds = s.stats.rounds

theorem Follows.trans {s' s'' : Search} {w' w'' : Session} (h : Follows sys s w s' w')
    (h' : Follows sys s' w' s'' w'') : Follows sys s w s'' w'' where
  sound := h'.sound
  terms := h.terms.trans h'.terms
  properties := h'.properties.trans h.properties
  flagged hs := h'.flagged (h.flagged hs)
  rounds := h'.rounds.trans h.rounds

theorem Climbing.longer {f : Formula} {k n : Nat} (h : Climbing sys s w f k n) {o : Origin}
    (ho : s.lineage.origin? f = some o) :
    ∃ p, w.terms.Names o.parent p ∧ ∀ (u : Universe) (a : Formula), Extends w.terms u →
      u.Demands a p.complement (k + 1) →
      ∃ path, path.length = k + 2 ∧
        PathSolver.Models sys u (w.paths.asserted ++ [a]) path := by
  obtain ⟨x, r, hlast, hx, hf, hout⟩ := h.getLast?_eq
  obtain ⟨_, b, y, r', p, hf', hleft, hedge, hp, hy⟩ := h.traced f o ho
  obtain rfl := hf.eq hf'
  obtain rfl := hleft x (h.models.lt_size hx) hout
  refine ⟨p, hp, fun u a hext ha => ⟨w.trace ++ [y], by simp [h.length], ?_⟩⟩
  refine (h.models.extend h.demanded hext).snoc (fun c hc => ?_) hlast hedge (h.length ▸ ha) ?_
  · obtain ⟨t, j, hd, hj⟩ := h.within c hc
    exact ⟨t, j, hd.extend hext, by rw [h.length]; omega⟩
  · refine StateSet.contains_complement_iff.mpr ⟨?_, hy⟩
    rw [h.sound.sized hp]
    exact hedge.lt_right

theorem Climbing.advance {f : Formula} {k n : Nat} {s : Search} {w : Session}
    (h : Climbing sys s w f k (n + 1)) {o : Origin} (hparent : Rooted s.lineage n o.parent)
    {p : StateSet} (hp : w.terms.Names o.parent p) {w' : Session} (hw' : Sound sys w')
    (hext : Extends w.terms w'.terms) {a : Formula} (ha : w'.terms.Demands a p.complement (k + 1))
    (hasserted : w'.paths.asserted = w.paths.asserted ++ [a])
    (hopened : w'.paths.opened.length = w.paths.opened.length) {path : List Nat}
    (hlength : path.length = k + 2)
    (hmodels : PathSolver.Models sys w'.terms w'.paths.asserted path) (journal : Journal) :
    Climbing sys
      { s with lineage := { s.lineage with
        invalid := s.lineage.invalid.insert o.parent (k + 1)
        propertyInvalid := s.lineage.propertyInvalid || s.lineage.isProperty o.parent } }
      { w' with paths.model := some path, trace := path, journal } o.parent (k + 1) n where
  sound := hw'.congr rfl rfl
  index := h.index
  agenda := h.agenda
  opened := hopened ▸ h.opened
  within c hc := by
    change c ∈ w'.paths.asserted at hc
    rw [hasserted] at hc
    rcases List.mem_append.mp hc with hc | hc
    · obtain ⟨t, j, hd, hj⟩ := h.within c hc
      exact ⟨t, j, hd.extend hext, Nat.le_succ_of_le hj⟩
    · exact ⟨_, k + 1, List.mem_singleton.mp hc ▸ ha, Nat.le_refl _⟩
  last := by
    refine ⟨a, ?_, p, _, hext.names hp, ha, fun y hy => (StateSet.contains_complement_iff.mp hy).2⟩
    change a ∈ w'.paths.asserted
    simp [hasserted]
  models := hmodels
  length := hlength
  traced g o' ho := (h.traced g o' ho).extend hext
  rooted := hparent.congr rfl rfl
  marked := (FormulaMap.get?_insert ..).trans (if_pos rfl)
  above g m hmarked hg := by
    have hg' : Rooted s.lineage m g := hg.congr rfl rfl
    have hcases : (s.lineage.invalid.insert o.parent (k + 1)).contains g = true := hmarked
    rw [FormulaMap.contains_insert, Bool.or_eq_true, decide_eq_true_eq] at hcases
    rcases hcases with rfl | hold
    · exact Nat.le_of_eq (hparent.unique hg')
    · exact Nat.le_of_succ_le (h.above g m hold hg')

theorem ends_climb : ∀ {bound n k : Nat} {f : Formula} {s : Search} {w : Session}, n < bound →
    M.Fits (k + n + 1) → Climbing sys s w f k n → s.lineage.propertyInvalid = true →
    {Q : Unit → Search × Session → Prop} →
    (∀ s' w', Follows sys s w s' w' → 0 < w'.paths.opened.length → Run sys w'.trace →
      Exposed w'.terms s'.lineage w'.trace → Q () (s', w')) →
    Action.Ends (Search.climb (backend M) bound f k) (s, w) E Q
  | 0, _, _, _, _, _, hn, _, _, _, _, _ => absurd hn (Nat.not_lt_zero _)
  | bound + 1, n, k, f, s, w, hn, hM, h, hflag, Q, hQ => by
      obtain ⟨_, r, _, _, hf, _⟩ := h.getLast?_eq
      rw [Search.climb, Action.ends_bind, Search.ends_change, Action.ends_bind]
      refine ends_negate h.sound hf fun g w₁ hgrow₁ _ => ?_
      rw [Action.ends_bind]
      refine ends_bump (by exact h.agenda) fun agenda hagenda _ => ?_
      rw [Action.ends_bind, Search.ends_state]
      let s₁ : Search := { s with stats.maxCexDepth := max s.stats.maxCexDepth k, agenda }
      have h₁ : Climbing sys s₁ w₁ f k n := { h.grow hgrow₁ with agenda := hagenda }
      have hsame₁ : Follows sys s w s₁ w₁ :=
        ⟨h₁.sound, hgrow₁.terms, rfl, fun h => h, rfl⟩
      change Action.Ends _ (s₁, w₁) E Q
      cases horigin : s.lineage.origin? f with
      | none =>
          have hproperty : s.lineage.isProperty f = true := h.rooted.isProperty horigin
          simp only [s₁, hproperty, if_true, Action.ends_bind, Search.ends_ask]
          refine ends_report h₁.sound fun w' hgrow => ?_
          have h' := h₁.grow hgrow
          exact hQ s₁ w' (hsame₁.trans ⟨h'.sound, hgrow.terms, rfl, fun h => h, rfl⟩) h'.opened
            h'.run (h'.exposed hproperty)
      | some o =>
          have horigin₁ : s₁.lineage.origin? f = some o := horigin
          obtain ⟨p, hp, hlonger⟩ := h₁.longer horigin₁
          obtain ⟨m, rfl, hparent⟩ := h.rooted.parent horigin
          have hone : o.depth = 1 := (h.traced f o horigin).1
          have hnew : s₁.lineage.isInvalid o.parent = false := by
            refine Bool.eq_false_iff.mpr fun hmarked => ?_
            have hle := h.above o.parent m hmarked hparent
            omega
          have hadd : M.add k o.depth = .ok (k + o.depth) := hM.add_eq (by omega)
          rw [Action.ends_bind]
          refine ends_checkedAdd hadd ?_
          rw [hone, if_neg (by rw [hnew]; exact Bool.false_ne_true), Action.ends_bind]
          refine ends_assertFalseAt h₁.sound hp fun a w₂ hw₂ hext ha hasserted hopened => ?_
          -- the check may answer with another path than the one that is known to exist
          have h₂ := fun (path : List Nat) (hlength : path.length = k + 2) hmodels =>
            h₁.advance hparent hp hw₂ hext ha hasserted hopened hlength hmodels
          obtain ⟨path₀, hlength₀, hmodels₀⟩ := hlonger w₂.terms a hext ha
          have hadvanced := h₂ path₀ hlength₀ (hasserted ▸ hmodels₀) w₂.journal
          obtain ⟨c, hc, _, x, _, hd, _⟩ := hadvanced.last
          rw [Action.ends_bind]
          refine ends_check hw₂ (hM.mono (by omega)) hadvanced.within ⟨c, hc, x, hd⟩
            ⟨path₀, hlength₀, hadvanced.models⟩ fun path journal hlength hmodels => ?_
          rw [if_pos rfl, Action.ends_bind]
          refine ends_markInvalid (by exact h.index ▸ Nat.zero_le _) (by exact hnew) ?_
          rw [Action.ends_bind]
          refine ends_recordModel rfl ?_
          have hflag₂ : (s.lineage.propertyInvalid || s.lineage.isProperty o.parent) = true := by
            rw [hflag]
            rfl
          rw [Action.ends_bind]
          refine ends_report (h₂ path hlength hmodels journal).sound fun w₄ hgrow₄ => ?_
          have h₄ := (h₂ path hlength hmodels journal).grow hgrow₄
          have hterms₄ := hext.trans hgrow₄.terms
          exact ends_climb (by omega) (by exact hM.mono (by omega)) h₄ hflag₂
            fun s' w' hsame => hQ s' w' (hsame₁.trans (Follows.trans
              (by exact ⟨h₄.sound, hterms₄, rfl, fun _ => hflag₂, rfl⟩) hsame))

structure Failing (sys : TransitionSystem) (s : Search) (w : Session) (f : Formula)
    (a y : Nat) (n : Nat) : Prop where
  sound : Sound sys w
  index : s.index = 0
  depth : s.depth = 1
  agenda : s.agenda.Valid
  asserted : w.paths.asserted = []
  start : sys.Initial a
  edge : sys.Edge a y
  trace : ∃ g t, w.reach.cex = [g] ∧ w.terms.Names g t ∧ t.contains a = true
  outside : ∃ r, w.terms.Names f r ∧ r.contains y = false
  traced : ∀ g o, s.lineage.origin? g = some o → Traced sys w.terms g o
  rooted : Rooted s.lineage n f
  marked : s.lineage.invalidFrame? f = some 1
  above : ∀ g m, s.lineage.isInvalid g = true → Rooted s.lineage m g → n ≤ m
  near : n ≤ s.lineage.size
  flagged : s.lineage.propertyInvalid = true

namespace Failing

variable {f b c : Formula} {a y n : Nat} {t r : StateSet}

/-- The step from `a` to `y` meets the two constraints that are asserted first. -/
theorem models (h : Failing sys s w f a y n) (hain : t.contains a = true) (hf : w.terms.Names f r)
    (hout : r.contains y = false) {u : Universe} (hb : u.Demands b t 0)
    (hc : u.Demands c r.complement 1) : PathSolver.Models sys u [b, c] [a, y] := by
  have hy : r.complement.contains y = true := by
    refine StateSet.contains_complement_iff.mpr ⟨?_, hout⟩
    rw [h.sound.sized hf]
    exact h.edge.lt_right
  exact (PathSolver.Models.single h.start hb hain).snoc
    (List.forall_mem_singleton.mpr ⟨t, 0, hb, Nat.zero_lt_one⟩) rfl h.edge hc hy

/-- The climb begins at `f` with any path that the check may answer with. -/
theorem climbing (h : Failing sys s w f a y n) {w' : Session} (hw' : Sound sys w')
    (hext : Extends w.terms w'.terms) (hf : w.terms.Names f r) (hb : w'.terms.Demands b t 0)
    (hc : w'.terms.Demands c r.complement 1) (hasserted : w'.paths.asserted = [b, c])
    (hopened : 0 < w'.paths.opened.length) {path : List Nat} (hlength : path.length = 2)
    (hpath : PathSolver.Models sys w'.terms w'.paths.asserted path) (journal : Journal) :
    Climbing sys s { w' with paths.model := some path, trace := path, journal } f 1 n where
  sound := hw'.congr rfl rfl
  index := h.index
  agenda := h.agenda
  opened := hopened
  within := by
    change ∀ d ∈ w'.paths.asserted, _
    rw [hasserted, List.forall_mem_cons, List.forall_mem_singleton]
    exact ⟨⟨t, 0, hb, Nat.zero_le 1⟩, ⟨_, 1, hc, Nat.le_refl 1⟩⟩
  last := by
    refine ⟨c, ?_, r, _, hext.names hf, hc, fun z hz => (StateSet.contains_complement_iff.mp hz).2⟩
    change c ∈ w'.paths.asserted
    simp [hasserted]
  models := hpath
  length := hlength
  traced g o ho := (h.traced g o ho).extend hext
  rooted := h.rooted
  marked := h.marked
  above := h.above

end Failing

theorem ends_extendInScope {config : Config} {f : Formula} {a y n : Nat}
    (h : Failing sys s w f a y n) (hM : M.Fits (n + 2)) {k : Nat}
    {Q : Unit → Search × Session → Prop}
    (hQ : ∀ s' w', Follows sys s w s' w' → 0 < w'.paths.opened.length → Run sys w'.trace →
      (config.extend = true → Exposed w'.terms s'.lineage w'.trace) → Q () (s', w')) :
    Action.Ends (Search.extendInScope (backend M) config f w.reach.cex)
      (s, { w with paths := (w.paths.ensureDepth k).push }) E Q := by
  obtain ⟨g, t, hcex, hg, hain⟩ := h.trace
  obtain ⟨r, hf, hout⟩ := h.outside
  let w₁ : Session := { w with paths := (w.paths.ensureDepth k).push }
  have hasserted₁ : w₁.paths.asserted = [] := by
    have hempty := h.asserted
    simp only [PathSolver.asserted] at hempty
    simp [w₁, PathSolver.asserted, PathSolver.push, PathSolver.ensureDepth, hempty]
  have hw₁ : Sound sys w₁ := h.sound.congr rfl rfl
  rw [hcex, Search.extendInScope, Action.ends_bind, Search.assertTrace, Action.ends_bind]
  refine ends_atStep hw₁ hg fun b w₂ hgrow₂ hb => ?_
  rw [Action.ends_bind]
  refine ends_assert hb fun paths hpaths hopened => ?_
  have hpaths₂ : paths.asserted = [b] := by rw [hpaths, hgrow₂.paths, hasserted₁, List.nil_append]
  have hopened₂ : 0 < paths.opened.length := by
    rw [hopened, hgrow₂.paths]
    exact Nat.succ_pos _
  have hw₂ : Sound sys { w₂ with paths } := (hgrow₂.sound hw₁).congr rfl rfl
  simp only [Search.assertTrace, Action.ends_pure, Search.lastFrame, Action.ends_bind,
    Search.ends_state, List.length_singleton, Nat.sub_self, h.depth]
  refine ends_checkedAdd (hM.add_eq (by omega)) ?_
  refine ends_assertFalseAt hw₂ (hgrow₂.terms.names hf) fun c w₃ hw₃ hext₃ hc hasserted₃ hopened₃ =>
    ?_
  have hasserted : w₃.paths.asserted = [b, c] := by rw [hasserted₃, hpaths₂, List.singleton_append]
  have hb₃ : w₃.terms.Demands b t 0 := hb.extend hext₃
  have hext : Extends w.terms w₃.terms := hgrow₂.terms.trans hext₃
  -- as in a climb, the check may answer with another path than the one that is known to exist
  have hbegin := fun (path : List Nat) (hlength : path.length = 2) hpath =>
    h.climbing hw₃ hext hf hb₃ hc hasserted (hopened₃ ▸ hopened₂) hlength hpath
  have hknown := hbegin [a, y] rfl (hasserted ▸ h.models hain hf hout hb₃ hc) w₃.journal
  obtain ⟨d, hd, _, x, _, hdemand, _⟩ := hknown.last
  refine ends_check hw₃ (hM.mono (by omega)) hknown.within ⟨d, hd, x, hdemand⟩
    ⟨[a, y], rfl, hknown.models⟩ fun path journal hlength hpath => ?_
  rw [if_pos rfl, Action.ends_bind]
  refine ends_recordModel rfl ?_
  have hclimb := hbegin path hlength hpath journal
  have hsame : Follows sys s w s { w₃ with paths.model := some path, trace := path, journal } :=
    ⟨hclimb.sound, hext, rfl, fun hs => hs, rfl⟩
  cases hextend : config.extend with
  | false =>
      rw [if_neg Bool.false_ne_true]
      refine hQ s _ hsame hclimb.opened hclimb.run fun h => ?_
      rw [hextend] at h
      cases h
  | true =>
      rw [if_pos rfl, Action.ends_bind, Search.ends_state]
      refine ends_climb (Nat.lt_succ_of_le h.near) (by exact hM.mono (by omega)) hclimb h.flagged
        fun s' w' hsame' hopened' hrun hexposed => ?_
      exact hQ s' w' (hsame.trans hsame') hopened' hrun fun _ => hexposed

theorem ends_extendFailure {config : Config} {f : Formula} {a y n : Nat}
    (h : Failing sys s w f a y n) (hM : M.Fits (n + 2)) {Q : Unit → Search × Session → Prop}
    (hQ : ∀ s' w', Follows sys s w s' w' → Run sys w'.trace →
      (config.extend = true → Exposed w'.terms s'.lineage w'.trace) → Q () (s', w')) :
    Action.Ends (Search.extendFailure (backend M) config f) (s, w) E Q := by
  obtain ⟨g, t, hcex, _, _⟩ := h.trace
  have hcounter : (backend M).reachability.counterTrace w = [g] := hcex
  simp only [Search.extendFailure, Action.ends_bind, Search.ends_ask, hcounter, List.isEmpty_cons,
    Bool.false_eq_true, if_false, Search.lastFrame, Search.ends_state, List.length_singleton,
    Nat.sub_self, h.depth]
  refine ends_checkedAdd (hM.add_eq (by omega)) ?_
  rw [if_pos (by rw [h.index]; exact Nat.zero_lt_one), Action.ends_bind]
  refine ends_checkedAdd (hM.add_eq (by rw [h.index]; omega)) ?_
  rw [Action.ends_bind, Search.ends_update, Action.ends_bind, Search.ends_update, Action.ends_bind]
  have hscope : Action.Ends (Search.extendInScope (backend M) config f w.reach.cex)
      (s, { w with paths := (w.paths.ensureDepth (s.index + 1)).push }) (fun _ => False)
      fun _ t => Follows sys s w t.1 t.2 ∧ 0 < t.2.paths.opened.length ∧ Run sys t.2.trace ∧
        (config.extend = true → Exposed t.2.terms t.1.lineage t.2.trace) :=
    ends_extendInScope h hM fun s' w' hsame hopened hrun hexposed =>
      ⟨hsame, hopened, hrun, hexposed⟩
  rw [hcex] at hscope
  refine hscope.attempt.mono (fun _ hnever => hnever.elim) fun result t ht => ?_
  obtain ⟨s', w'⟩ := t
  rcases ht with ⟨_, rfl, hsame, hopened, hrun, hexposed⟩ | ⟨_, _, hnever⟩
  case inr => exact hnever.elim
  rw [Action.ends_bind]
  refine ends_popScope hopened fun paths => ?_
  have hsound : Sound sys { w' with paths } := hsame.sound.congr rfl rfl
  exact hQ s' _ ⟨hsound, hsame.terms, hsame.properties, hsame.flagged, hsame.rounds⟩ hrun hexposed

theorem ends_failInduction {config : Config} {f : Formula} {a y n : Nat} (hw : Sound sys w)
    (hindex : s.index = 0) (hdepth : s.depth = 1) (hq : s.agenda.Valid)
    (hasserted : w.paths.asserted = []) (ha : sys.Initial a) (hedge : sys.Edge a y)
    (htrace : ∃ g t, w.reach.cex = [g] ∧ w.terms.Names g t ∧ t.contains a = true)
    (hout : ∃ r, w.terms.Names f r ∧ r.contains y = false)
    (htraced : ∀ g o, s.lineage.origin? g = some o → Traced sys w.terms g o)
    (hrooted : Rooted s.lineage n f) (hnew : s.lineage.invalid = .empty)
    (hnear : n ≤ s.lineage.size) (hM : M.Fits (n + 2)) {Q : Unit → Search × Session → Prop}
    (hQ : ∀ s' w', Follows sys s w s' w' → s'.lineage.propertyInvalid = true → Run sys w'.trace →
      (config.extend = true → Exposed w'.terms s'.lineage w'.trace) → Q () (s', w')) :
    Action.Ends (Search.failInduction (backend M) config f) (s, w) E Q := by
  obtain ⟨g, t, hcex, hg, hain⟩ := htrace
  have hcounter : (backend M).reachability.counterTrace = fun w : Session => w.reach.cex := rfl
  have hadd : M.add 0 1 = .ok (0 + 1) := hM.add_eq (by omega)
  have hfresh : s.lineage.isInvalid f = false := by rw [Lineage.isInvalid, hnew]; rfl
  let s₁ : Search := { s with lineage := { s.lineage with
    invalid := s.lineage.invalid.insert f 1, propertyInvalid := true } }
  simp only [Search.failInduction, Action.ends_bind, Search.ends_ask, hcounter, hcex,
    List.isEmpty_cons, Bool.false_eq_true, if_false, Search.lastFrame, Search.ends_state,
    List.length_singleton, Nat.sub_self, hdepth]
  refine ends_checkedAdd hadd ?_
  refine ends_report hw fun w₁ hgrow₁ => ?_
  refine ends_markInvalid (Nat.le_trans (Nat.le_of_eq hindex) (Nat.zero_le _)) hfresh ?_
  have h₁ : Failing sys s₁ w₁ f a y n := by
    refine ⟨hgrow₁.sound hw, hindex, hdepth, hq, hgrow₁.paths ▸ hasserted, ha, hedge,
      ⟨g, t, hgrow₁.reach ▸ hcex, hgrow₁.terms.names hg, hain⟩, ?_,
      fun g' o ho => (htraced g' o ho).extend hgrow₁.terms, hrooted.congr rfl rfl,
      (FormulaMap.get?_insert ..).trans (if_pos rfl), fun g' m hmarked hg' => ?_, hnear, rfl⟩
    · obtain ⟨r, hf, hy⟩ := hout
      exact ⟨r, hgrow₁.terms.names hf, hy⟩
    · have hcases : (s.lineage.invalid.insert f 1).contains g' = true := hmarked
      rw [FormulaMap.contains_insert, hnew, Bool.or_eq_true, decide_eq_true_eq] at hcases
      rcases hcases with rfl | hold
      · exact Nat.le_of_eq (hrooted.unique (hg'.congr rfl rfl))
      · cases hold
  rw [Search.ends_change]
  refine ends_extendFailure (by exact h₁) hM fun s' w' hsame hrun hexposed => ?_
  have hsame₁ : Follows sys s w s₁ w₁ := ⟨h₁.sound, hgrow₁.terms, rfl, fun _ => rfl, rfl⟩
  exact hQ s' w' (hsame₁.trans hsame) (hsame.flagged rfl) hrun hexposed

end Invariance.FiniteState
