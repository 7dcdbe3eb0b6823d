import Invariance.Proofs.FiniteState.Passing.Guides
import Invariance.Proofs.FiniteState.Provenance

/-!
How the provenance grows. It is written where an obligation is refined, and a sweep renames it; on
the rest of the way, nothing happens to it.
-/

namespace Invariance.FiniteState

open Universe Session

variable {M : Machine} {sys : TransitionSystem} {α β : Type} {P : Formula → Prop}
  {x y z : Search × Session} {w₀ : Session} {n : Nat} {s : Search} {w : Session}
  {ob : Obligation} {f g : Formula} {a : Nat}

/-- No origin that has been written is lost: it is still there, or a sweep has renamed it. -/
inductive Carried (x y : Search × Session) : Prop
  | kept : (∀ f o, x.1.lineage.origin? f = some o → y.1.lineage.origin? f = some o) →
      Carried x y
  | renamed : Extends x.2.terms.sweep.2 y.2.terms →
      (∀ f o, x.1.lineage.origin? f = some o → ∃ f' o',
        x.2.terms.sweep.1.apply f = some f' ∧ o.relocate x.2.terms.sweep.1 = some o' ∧
          y.1.lineage.origin? f' = some o') → Carried x y

def Traceable (sys : TransitionSystem) (x : Search × Session) : Prop :=
  Grounded sys x.2.terms x.1.lineage

namespace Holds

theorem traceable (h : Holds x y) (hx : Traceable sys x) : Traceable sys y :=
  hx.congr h.origins h.properties h.terms

theorem carried (h : Holds x y) (h' : Holds x z) : Carried y z :=
  .kept fun f o ho => by rw [h'.origin?_eq f, ← h.origin?_eq f, ho]

theorem respects : Course.Respects Holds (Traceable sys) Carried :=
  ⟨.refl, traceable, carried⟩

end Holds

/-! Refining. -/

/-- The induction depth stays as well. -/
structure Steady (x y : Search × Session) : Prop extends Holds x y where
  depth : y.1.depth = x.1.depth

namespace Steady

theorem refl (x : Search × Session) : Steady x x := ⟨.refl x, rfl⟩

theorem trans (h : Steady x y) (h' : Steady y z) : Steady x z :=
  ⟨h.toHolds.trans h'.toHolds, h'.depth.trans h.depth⟩

theorem respects : Course.Respects Steady (Traceable sys) Carried :=
  ⟨refl, fun h => h.toHolds.traceable, fun h h' => h.toHolds.carried h'.toHolds⟩

/-- The rule for a part that brings formulas into the frame at most. -/
theorem next {act : SearchM Session α} {next : α → SearchM Session β} {c : Course act}
    {d : ∀ a, Course (next a)} {Q : β → Search × Session → Prop} (h : Steady x y)
    (hy : Traceable sys y) (hadding : Adding (fun _ => True) c)
    (hfixed : Search.Fixed (fun s => (ancestry s, s.depth)) c)
    (hd : ∀ a z, Steady x z → Traceable sys z → (d a).Follows (Traceable sys) Carried z Q) :
    (c.bind d).Follows (Traceable sys) Carried y Q := by
  have hc : c.Stays Steady := fun y z hz =>
    ⟨.of_ancestry (congrArg Prod.fst (hfixed y z hz)) (hadding y z hz).terms,
      congrArg Prod.snd (hfixed y z hz)⟩
  exact .bind ((hc.follows respects hy).imp fun a z hz h' => hd a z (h.trans h') hz)

end Steady

/-- What is known of a formula that is about to be learnt, and of what will be written about it. -/
structure Learnable (sys : TransitionSystem) (l : Lineage) (u : Universe) (f : Formula)
    (o : Origin) : Prop where
  unlearnt : l.origin? f = none
  not_property : ∀ p, l.isProperty p = true → p ≠ f
  rooted : ∃ n, Rooted l n o.parent
  segment : Segment sys u f o

theorem Learnable.holds {o : Origin} (h : Learnable sys x.1.lineage x.2.terms f o)
    (hholds : Holds x y) : Learnable sys y.1.lineage y.2.terms f o where
  unlearnt := (hholds.origin?_eq f).trans h.unlearnt
  not_property p hp := by
    rw [Lineage.isProperty, hholds.properties] at hp
    exact h.not_property p hp
  rooted := by
    obtain ⟨n, hn⟩ := h.rooted
    exact ⟨n, hn.congr hholds.origins hholds.properties⟩
  segment := h.segment.extend hholds.terms

theorem Opening.learnable {b : Formula} (h : Opening sys w₀ P [ob.bare] n s w)
    (hf : Refutes w.terms f ob.bare) (hc : Challenged sys w.terms (owed [ob.bare] s) f g a)
    (ha : ¬ sys.Initial a) (hb : Refutes w.terms b { ob with counter := g }) :
    Learnable sys s.lineage w.terms b { parent := f, refutes := g, depth := s.depth } := by
  obtain ⟨t, ht, hsingle⟩ := hc.single
  obtain ⟨y, r, hr, hedge, hout⟩ := hc.leaves
  obtain ⟨t', ht', hb⟩ := hb
  obtain rfl := ht'.eq ht
  have hl : Learnt sys .negation w.terms (owed [ob.bare] s)
      { forward := b, counter := g, depth := 1, score := .zero } b a :=
    ⟨hc.clear, ha, ⟨_, ht, hb, hsingle⟩, Or.inl ⟨rfl, rfl⟩, Nat.one_pos⟩
  have hu := h.sound.canonical
  exact
    { unlearnt := h.descends.unlearnt hu hl
      not_property := h.descends.not_property hu hl
      rooted := ⟨_, h.descends.rooted ob.bare List.mem_cons_self f hf⟩
      segment := .of_edge ht hsingle hb h.depth hedge hr hout }

theorem follows_addOrigin {o : Origin} (hx : Traceable sys x)
    (h : Learnable sys x.1.lineage x.2.terms f o) :
    (Course.move (Search.change fun s => { s with lineage := s.lineage.addOrigin f o } :
      SearchM Session Unit)).Follows (Traceable sys) Carried x fun _ _ => True := by
  obtain ⟨n, hn⟩ := h.rooted
  refine Course.follows_ok rfl (hx.learn h.unlearnt h.not_property hn h.segment)
    (.kept fun g o' ho => ?_) trivial
  have hne : g ≠ f := fun heq => by
    rw [heq, h.unlearnt] at ho
    cases ho
  exact (origin?_addOrigin x.1.lineage f g o).trans (if_neg hne ▸ ho)

theorem follows_refine (hx : Traceable sys (s, w)) (h : Opening sys w₀ P [ob.bare] n s w)
    (hf : Refutes w.terms f ob.bare) (hc : Challenged sys w.terms (owed [ob.bare] s) f g a)
    (ha : ¬ sys.Initial a) :
    (Search.refineCourse (backend M) ob f g).Follows (Traceable sys) Carried (s, w)
      fun _ _ => True := by
  obtain ⟨t, ht, _⟩ := hc.single
  refine (holding adding_negate (Search.fixed_negate g)).after Holds.respects hx
    (ends_negate h.sound ht fun backward w₁ hgrow₁ hb hx₁ => ?_)
  have hlearnable := (h.grow hgrow₁).learnable (hf.extend hgrow₁.terms)
    (hc.extend h.duties hgrow₁.terms) ha ⟨t, hgrow₁.terms.names ht, hb⟩
  -- up to the moment of learning, neither the provenance nor the depth changes
  refine (Steady.refl _).next hx₁ adding_report (Search.fixed_report _ _ _)
    fun _ y₂ h₂ hx₂ => ?_
  refine h₂.next hx₂ adding_state Search.fixed_state fun _ y₃ h₃ hx₃ => ?_
  refine h₃.next hx₃ adding_learnForward (Search.fixed_act _) fun forward y₄ h₄ hx₄ => ?_
  refine h₄.next hx₄ adding_report (Search.fixed_report _ _ _) fun _ y₅ h₅ hx₅ => ?_
  refine h₅.next hx₅ (adding_addToFrame trivial .first)
    (Search.fixed_addToFrame (fun _ _ _ => rfl) _ _) fun _ y₆ h₆ hx₆ => ?_
  refine h₆.next hx₆ (adding_insert (f := forward) trivial fun _ => ⟨rfl, rfl⟩)
    (Search.fixed_change fun _ => rfl) fun _ y₇ h₇ hx₇ => ?_
  refine h₇.next hx₇ adding_countFrame (Search.fixed_countFrame fun _ _ _ => rfl)
    fun _ y₈ h₈ hx₈ => ?_
  refine .bind (Course.follows_ok rfl hx₈ (.kept fun _ _ ho => ho) ?_)
  refine (follows_addOrigin hx₈ ?_).andThen (Search.ends_change.mpr fun hx₉ => ?_)
  · rw [h₈.depth]
    exact hlearnable.holds h₈.toHolds
  refine Course.Stays.last (S := Holds) ?_ Holds.respects hx₉
  exact (holding adding_checkedAdd (Search.fixed_checkedAdd _ _)).bind fun _ =>
    (holding adding_report (Search.fixed_report _ _ _)).bind fun _ =>
      (holding (adding_enqueue _) (Search.fixed_enqueue blind_ancestry _)).bind fun _ =>
        holding adding_pure (Search.fixed_pure _)

/-! Staging and rebuilding. -/

theorem adding_weaken {ob : Obligation} :
    Adding (fun _ => True) (Search.weakenCourse (backend M) ob f) :=
  .bind adding_interpolate fun _ => .bind (adding_erase fun _ => ⟨rfl, rfl⟩) fun _ =>
    .bind adding_disjoin fun _ => .bind (adding_insert trivial fun _ => ⟨rfl, rfl⟩) fun _ =>
      .bind adding_countFrame fun _ => .bind adding_checkRefutations fun _ =>
        .bind adding_report fun _ => adding_pure

theorem adding_stage {ob : Obligation} :
    Adding (fun _ => True) (Search.stageCourse (backend M) ob f) :=
  .bind adding_report fun _ => .bind adding_checkInductive fun answer =>
    match answer with
    | .unsat => adding_carry trivial
    | .unknown => adding_throw
    | .sat _ _ => .bind adding_weaken fun _ => adding_carry trivial

theorem adding_restore (ob : Obligation) :
    Adding (fun _ => True) (Search.restoreCourse (backend M) ob) :=
  .bind adding_negate fun _ => .bind (adding_addToFrame trivial .first) fun _ =>
    .bind (adding_addToFrame trivial .intermediate) fun _ => adding_enqueue ob

theorem holding_change {m : Search → Search} (h : ∀ s, ancestry (m s) = ancestry s) :
    Holding (.move (Search.change m : SearchM Session Unit)) :=
  Course.stays_move fun x => .of_ancestry (h x.1) (.refl _)

theorem holding_rebuild : Holding (Search.rebuildCourse (backend M)) :=
  .bind (holding adding_state Search.fixed_state) fun _ =>
    .bind (holding_change fun _ => rfl) fun _ =>
      .bind (holding (adding_forM adding_restore _)
        (Search.fixed_forM (Search.fixed_restore blind_ancestry) _)) fun _ =>
        .bind (holding_change fun _ => rfl) fun _ => .bind (holding_change fun _ => rfl) fun _ =>
          .bind (holding_change fun _ => rfl) fun _ =>
            .bind (holding adding_checkRefutations Search.fixed_checkRefutations) fun _ =>
              .bind (holding adding_state Search.fixed_state) fun _ =>
                .bind (holding adding_state Search.fixed_state) fun _ =>
                  .bind (holding adding_checkedAdd (Search.fixed_checkedAdd _ _)) fun _ =>
                    holding_change fun _ => rfl

theorem guided_traceable : Guided M sys (Traceable sys) Carried where
  calm := ⟨.refl, fun h => h.holds.traceable, fun h h' => h.holds.carried h'.holds⟩
  stage hx _ := (holding adding_stage (Search.fixed_stage blind_ancestry ancestry_staged _ _)).last
    Holds.respects hx
  refine := follows_refine
  rebuild hx _ _ := holding_rebuild.last Holds.respects hx
  relocated {s w s' w'} hx hu hmoved _ := by
    have hlineage := hmoved.lineage
    have hswept : Traceable sys (s', w') := (hx.sweep hu).congr (by rw [hlineage])
      (by rw [hlineage]) hmoved.terms
    refine ⟨hswept, .renamed hmoved.terms fun f o ho => ?_⟩
    rw [hlineage]
    exact hx.renamed hu ho

end Invariance.FiniteState
