import Invariance.Proofs.Agenda.Waiting
import Invariance.Proofs.Search.Ancestry
import Invariance.Proofs.Transcripts.Calls
import Invariance.Proofs.Transcripts.Extensions
import Invariance.Scripted.Player

/-!
The way of a counterexample. Its log is known call by call: the trace is laid out, the formula is
asserted to be false at the end of it, and then one ancestor after the other at its own frame, up to
the first one that is missing, invalid already or not to be falsified.
-/

namespace Invariance

open Action

variable {S σ μ α : Type}

/-! The calls of an extension, the first of them first. -/

/-- A formula of the trace and the constraint that says that it holds at its step. -/
structure Post where
  formula : Formula
  step : Nat
  constraint : Formula

namespace Post

def place (p : Post) : Formula × Nat := (p.formula, p.step)

def calls (p : Post) : List (Call μ) :=
  [.placed p.formula p.step (.ok p.constraint), .asserted p.constraint (.ok ())]

end Post

/-- A formula that is asserted to be false at a frame, and what the trace solver says to it. -/
structure Trial where
  formula : Formula
  frame : Nat
  negation : Formula
  constraint : Formula
  verdict : Verdict

namespace Trial

def breach (p : Trial) : Breach := (p.formula, p.frame)

def calls (p : Trial) : List (Call μ) :=
  [.negated p.formula (.ok p.negation), .placed p.negation p.frame (.ok p.constraint),
    .asserted p.constraint (.ok ()), .solved (.ok p.verdict)]

end Trial

/-- A trial with a model. The model is recorded, and the formula is negated once more for the sake
of the obligation that it belongs to. -/
structure Hit (μ : Type) where
  trial : Trial
  model : μ
  again : Formula

namespace Hit

def breach (h : Hit μ) : Breach := h.trial.breach

def calls (h : Hit μ) : List (Call μ) :=
  h.trial.calls ++ [.modelled (.ok h.model), .recorded h.model,
    .negated h.trial.formula (.ok h.again)]

end Hit

structure Extension (μ : Type) where
  posts : List Post
  hits : List (Hit μ)
  miss : Option Trial

namespace Extension

def calls (x : Extension μ) : List (Call μ) :=
  .pushed :: (x.posts.flatMap Post.calls ++
    (x.hits.flatMap Hit.calls ++ x.miss.toList.flatMap Trial.calls))

def verdicts (x : Extension μ) : List Verdict :=
  x.hits.map (·.trial.verdict) ++ x.miss.toList.map (·.verdict)

theorem verdicts_hit {x : Extension μ} (hsat : ∀ h ∈ x.hits, h.trial.verdict = .sat) {i : Nat}
    (hi : i < x.hits.length) : x.verdicts[i]? = some .sat := by
  rw [verdicts, List.getElem?_append_left (by rwa [List.length_map]), List.getElem?_map,
    List.getElem?_eq_getElem hi, Option.map_some, hsat _ (List.getElem_mem hi)]

theorem verdicts_miss (x : Extension μ) :
    x.verdicts[x.hits.length]? = x.miss.map (·.verdict) := by
  rw [verdicts, List.getElem?_append_right (by rw [List.length_map]), List.length_map,
    Nat.sub_self]
  cases x.miss <;> rfl

end Extension

namespace Call

def verdict? : Call μ → Option Verdict
  | .solved (.ok v) => some v
  | _ => none

def model? : Call μ → Option μ
  | .recorded model => some model
  | _ => none

/-- The first answer of the trace solver. -/
def firstVerdict? (ℓ : List (Call μ)) : Option Verdict := ℓ.reverse.findSome? verdict?

end Call

namespace Search

open Call

variable {B : Backend S σ μ} {config : Config} {s s' : Search} {w : σ} {ℓ : List (Call μ)}
  {f : Formula} {k : Nat} {F : Fault → Search × σ × List (Call μ) → Prop}

/-- What a climb does: the ancestors that it marks, and the one at which it fails. It gets `beyond`
the machine's limits if the frame of the next ancestor cannot be told. -/
structure Climbed (M : Machine) (b : Breach) (s s' : Search) (hits : List (Hit μ))
    (miss : Option Trial) (beyond : Bool) : Prop where
  ascends : s.lineage.Ascends b (hits.map Hit.breach)
  sat : ∀ h ∈ hits, h.trial.verdict = .sat
  marked : s.lineage.Marked s'.lineage (hits.map Hit.breach)
  deepest : s'.stats.maxCexDepth =
    max s.stats.maxCexDepth ((hits.map Hit.breach).getLastD b).2
  missed : ∀ p ∈ miss, s.lineage.rise? ((hits.map Hit.breach).getLastD b) = some p.breach ∧
    s'.lineage.isInvalid p.formula = false ∧ p.verdict ≠ .sat
  stopped : miss = none → beyond = false → ∀ c,
    s.lineage.rise? ((hits.map Hit.breach).getLastD b) = some c → s'.lineage.isInvalid c.1 = true
  beyond_iff : beyond = true ↔ ∃ c,
    s.lineage.rise? ((hits.map Hit.breach).getLastD b) = some c ∧ M.counts c.2 = false

/-! Moves. -/

/-- Allows every fault that a call came back with. -/
def Lax (F : Fault → Search × σ × List (Call μ) → Prop) : Prop :=
  ∀ fault t, Faulted t.2.2 fault → F fault t

theorem told_act (hF : Lax F) {note : Except Fault α → σ → Call μ} {action : Action σ α}
    {Q : α → Search × σ × List (Call μ) → Prop}
    (hnote : ∀ fault w, (note (.error fault) w).fault? = some fault)
    (h : ∀ a w, Q a (s, w, note (.ok a) w :: ℓ)) :
    (act (noting id note action)).Yields (s, w, ℓ) F Q :=
  .within (Action.yields_noting note
    (fun fault w => hF fault _ ⟨_, List.mem_cons_self, hnote fault w⟩) fun a w => h a w)

theorem told_step (hF : Lax F) {note : Except Fault α → σ → Call μ} {action : Step σ α}
    {Q : α → Search × σ × List (Call μ) → Prop}
    (hnote : ∀ fault w, (note (.error fault) w).fault? = some fault)
    (h : ∀ a w, Q a (s, w, note (.ok a) w :: ℓ)) :
    (step (noting .violation note action)).Yields (s, w, ℓ) F Q :=
  .within (Action.yields_ofStep_noting note
    (fun v w => hF (.violation v) _ ⟨_, List.mem_cons_self, hnote (.violation v) w⟩)
    fun a w => h a w)

theorem told_negate (hF : Lax F) {Q : Formula → Search × σ × List (Call μ) → Prop}
    (h : ∀ g w, Q g (s, w, .negated f (.ok g) :: ℓ)) :
    (negate B.logged f).Yields (s, w, ℓ) F Q :=
  told_step hF (fun _ _ => rfl) h

theorem told_state {Q : Search → Search × σ × List (Call μ) → Prop} (h : Q s (s, w, ℓ)) :
    Action.Yields state (s, w, ℓ) F Q := h

theorem told_report {level : Level} {message : String}
    {fields : Search → (Formula → String) → List (String × Field)}
    {Q : Unit → Search × σ × List (Call μ) → Prop} (h : ∀ w', Q () (s, w', ℓ)) :
    (report B.logged level message fields).Yields (s, w, ℓ) F Q :=
  h _

theorem told_checkedAdd {a b : Nat} {Q : Nat → Search × σ × List (Call μ) → Prop}
    (hbeyond : B.machine.counts (a + b) = false → F (.violation .overflow) (s, w, ℓ))
    (h : B.machine.counts (a + b) = true → Q (a + b) (s, w, ℓ)) :
    (checkedAdd B.logged a b).Yields (s, w, ℓ) F Q := by
  have hadd : B.logged.machine.add a b = B.machine.add a b := rfl
  rw [checkedAdd, hadd, Machine.add]
  cases hcounts : B.machine.counts (a + b) with
  | true => exact h hcounts
  | false => exact hbeyond hcounts

theorem told_bump {counter : Formula} {Q : Unit → Search × σ × List (Call μ) → Prop}
    (hq : s.agenda.Valid) (h : ∀ agenda, agenda.Valid → Q () ({ s with agenda }, w, ℓ)) :
    (bump counter).Yields (s, w, ℓ) F Q := by
  obtain ⟨found, agenda, hbump, hagenda, _⟩ := Agenda.bump_waiting hq counter .one
  refine Action.Yields.bind (Action.Yields.bind ?_)
  change Action.Yields (Action.ofExcept (s.agenda.bump counter .one)) _ _ _
  rw [hbump]
  exact h agenda hagenda

theorem told_markInvalid {Q : Unit → Search × σ × List (Call μ) → Prop} (hk : s.index ≤ k)
    (hfresh : s.lineage.isInvalid f = false)
    (h : ∀ lineage, s.lineage.Marked lineage [(f, k)] → Q () ({ s with lineage }, w, ℓ)) :
    (markInvalid f k).Yields (s, w, ℓ) F Q := by
  refine Action.Yields.bind (Action.Yields.ite (fun _ => Action.Yields.bind ?_)
    fun hno => absurd hk hno)
  have hmark : ∃ lineage, s.lineage.markInvalid f k = .ok lineage := by
    rw [Lineage.markInvalid, hfresh]
    exact ⟨_, rfl⟩
  obtain ⟨lineage, hmark⟩ := hmark
  change Action.Yields (Action.ofExcept (s.lineage.markInvalid f k)) _ _ _
  rw [hmark]
  exact h lineage (.of_markInvalid hmark)

/-- The first three calls of a trial. -/
theorem told_assertFalseAt (hF : Lax F) {Q : Unit → Search × σ × List (Call μ) → Prop}
    (h : ∀ negation constraint w, Q () (s, w, .asserted constraint (.ok ()) ::
      .placed negation k (.ok constraint) :: .negated f (.ok negation) :: ℓ)) :
    (assertFalseAt B.logged f k).Yields (s, w, ℓ) F Q :=
  Action.Yields.bind (Action.Yields.bind (told_negate hF fun _ _ => Action.Yields.bind
    (told_step hF (fun _ _ => rfl) fun _ _ => told_act hF (fun _ _ => rfl) fun _ _ => h _ _ _)))

theorem told_recordModel (hF : Lax F) {Q : Unit → Search × σ × List (Call μ) → Prop}
    (h : ∀ model w, Q () (s, w, .recorded model :: .modelled (.ok model) :: ℓ)) :
    (recordModel B.logged).Yields (s, w, ℓ) F Q :=
  Action.Yields.bind (told_act hF (fun _ _ => rfl) fun _ _ => h _ _)

theorem told_assertTrace (hF : Lax F) : ∀ {trace : List Formula} {k : Nat} {w : σ}
    {ℓ : List (Call μ)}, (assertTrace B.logged k trace).Yields (s, w, ℓ) F fun _ t =>
      t.1 = s ∧ ∃ posts : List Post, t.2.2.reverse = ℓ.reverse ++ posts.flatMap Post.calls ∧
        posts.map Post.place = trace.zipIdx k
  | [], _, _, _ => ⟨rfl, [], by simp, rfl⟩
  | f :: trace, k, _, ℓ => Action.Yields.bind (told_step hF (fun _ _ => rfl) fun constraint _ =>
      Action.Yields.bind (told_act hF (fun _ _ => rfl) fun _ _ =>
        (told_assertTrace hF).imp fun _ t h => by
          obtain ⟨hs, posts, hlog, hplaces⟩ := h
          exact ⟨hs, ⟨f, k, constraint⟩ :: posts, by simp [hlog, Post.calls],
            by simp [hplaces, Post.place]⟩))

/-! The climb. -/

/-- How a climb from `b` with the log `ℓ` may leave the search and the log. -/
def Climbs (M : Machine) (b : Breach) (s : Search) (ℓ : List (Call μ)) (beyond : Bool)
    (t : Search × σ × List (Call μ)) : Prop :=
  ∃ again hits miss, t.2.2.reverse = ℓ.reverse ++ .negated b.1 (.ok again) ::
      (hits.flatMap Hit.calls ++ miss.toList.flatMap Trial.calls) ∧
    Climbed M b s t.1 hits miss beyond

section Steps

variable {M : Machine} {b : Breach} {beyond : Bool} {s₁ : Search}
  {t : Search × σ × List (Call μ)} {ℓ₁ : List (Call μ)}

theorem Climbs.stop (again : Formula) (miss : Option Trial) (hlineage : t.1.lineage = s.lineage)
    (hdeepest : t.1.stats.maxCexDepth = max s.stats.maxCexDepth b.2)
    (hlog : t.2.2.reverse = ℓ.reverse ++ .negated b.1 (.ok again) ::
      miss.toList.flatMap Trial.calls)
    (hmissed : ∀ p ∈ miss, s.lineage.rise? b = some p.breach ∧
      s.lineage.isInvalid p.formula = false ∧ p.verdict ≠ .sat)
    (hstopped : miss = none → beyond = false → ∀ c, s.lineage.rise? b = some c →
      s.lineage.isInvalid c.1 = true)
    (hbeyond : beyond = true ↔ ∃ c, s.lineage.rise? b = some c ∧ M.counts c.2 = false) :
    Climbs M b s ℓ beyond t := by
  refine ⟨again, [], miss, hlog, .nil _ _, nofun, ?_, hdeepest, ?_, ?_, hbeyond⟩
  · rw [hlineage]
    exact .refl _
  · rwa [hlineage]
  · rwa [hlineage]

/-- No ancestor is left, or the next one is not to be asked for. -/
theorem Climbs.halt (again : Formula) (hlineage : t.1.lineage = s.lineage)
    (hdeepest : t.1.stats.maxCexDepth = max s.stats.maxCexDepth b.2)
    (hlog : t.2.2 = .negated b.1 (.ok again) :: ℓ)
    (hstopped : beyond = false → ∀ c, s.lineage.rise? b = some c →
      s.lineage.isInvalid c.1 = true)
    (hbeyond : beyond = true ↔ ∃ c, s.lineage.rise? b = some c ∧ M.counts c.2 = false) :
    Climbs M b s ℓ beyond t :=
  .stop again none hlineage hdeepest (by rw [hlog, List.reverse_cons]; rfl)
    (fun _ hp => absurd hp (Option.not_mem_none _)) (fun _ => hstopped) hbeyond

theorem Climbs.miss (again : Formula) (p : Trial) (hlineage : t.1.lineage = s.lineage)
    (hdeepest : t.1.stats.maxCexDepth = max s.stats.maxCexDepth b.2)
    (hlog : t.2.2.reverse = ℓ.reverse ++ .negated b.1 (.ok again) :: p.calls)
    (hrise : s.lineage.rise? b = some p.breach) (hfresh : s.lineage.isInvalid p.formula = false)
    (hno : p.verdict ≠ .sat) (hcounts : M.counts p.frame = true) : Climbs M b s ℓ false t := by
  refine .stop again (some p) hlineage hdeepest (by rw [hlog]; simp) (fun q hq => ?_)
    (fun hnone => absurd hnone (Option.some_ne_none p)) (by simp [hrise, Trial.breach, hcounts])
  obtain rfl := Option.some.inj hq
  exact ⟨hrise, hfresh, hno⟩

/-- A hit, and then the climb from the ancestor that was hit. -/
theorem Climbs.step (again : Formula) (p : Trial) (model : μ)
    (hrise : s.lineage.rise? b = some p.breach) (hfresh : s.lineage.isInvalid p.formula = false)
    (hsat : p.verdict = .sat) (hmark : s.lineage.Marked s₁.lineage [p.breach])
    (hdeepest : s₁.stats.maxCexDepth = max s.stats.maxCexDepth b.2)
    (hlog : ℓ₁.reverse = ℓ.reverse ++ .negated b.1 (.ok again) ::
      (p.calls ++ [.modelled (.ok model), .recorded model]))
    (h : Climbs M p.breach s₁ ℓ₁ beyond t) : Climbs M b s ℓ beyond t := by
  obtain ⟨again', hits, miss, hlog', hclimbed⟩ := h
  have hascends : s.lineage.Ascends b (((⟨p, model, again'⟩ :: hits : List (Hit μ))).map
      Hit.breach) := .cons hrise hfresh hmark hclimbed.ascends
  have hlast : (((⟨p, model, again'⟩ :: hits : List (Hit μ))).map Hit.breach).getLastD b =
      (hits.map Hit.breach).getLastD p.breach := List.getLastD_cons
  refine ⟨again, ⟨p, model, again'⟩ :: hits, miss, ?_, hascends,
    List.forall_mem_cons.mpr ⟨hsat, hclimbed.sat⟩,
    hmark.cons hclimbed.marked hclimbed.ascends.fresh, ?_, ?_, ?_, ?_⟩
  · rw [hlog', hlog]
    simp [Hit.calls, Trial.breach]
  · rw [hlast, hclimbed.deepest, hdeepest, Nat.max_assoc, Nat.max_eq_right (a := b.2)]
    exact hlast ▸ hascends.le_last
  all_goals
    rw [hlast]
    simp only [← hmark.rise?_eq]
  · exact hclimbed.missed
  · exact hclimbed.stopped
  · exact hclimbed.beyond_iff

end Steps

theorem climbs_climb (hF : Lax F) : ∀ {bound : Nat} {b : Breach} {s : Search} {w : σ}
    {ℓ : List (Call μ)}, s.agenda.Valid → s.index ≤ b.2 → s.lineage.pending < bound →
    (∀ t, Climbs B.machine b s ℓ true t → F (.violation .overflow) t) →
    (climb B.logged bound b.1 b.2).Yields (s, w, ℓ) F
      fun _ t => Climbs B.machine b s ℓ false t
  | 0, _, _, _, _, _, _, hbound, _ => absurd hbound (Nat.not_lt_zero _)
  | bound + 1, b, s, w, ℓ, hq, hk, hbound, hbeyond => by
      refine Action.Yields.bind (Action.Yields.bind (told_negate hF fun again w₁ =>
        Action.Yields.bind (told_bump hq fun agenda hagenda =>
          Action.Yields.bind (told_state ?_))))
      dsimp only
      cases horigin : s.lineage.origin? b.1 with
      | none =>
          have hroot : s.lineage.rise? b = none := by rw [Lineage.rise?, horigin, Option.map_none]
          have hstop : ∀ w' : σ, Climbs B.machine b s ℓ false
              ({ s with agenda, stats.maxCexDepth := max s.stats.maxCexDepth b.2 }, w',
                .negated b.1 (.ok again) :: ℓ) := fun w' =>
            .halt again rfl rfl rfl (fun _ c hc => by simp [hroot] at hc) (by simp [hroot])
          exact Action.Yields.ite (fun _ => hstop _) fun _ => hstop _
      | some o =>
          have hrise : s.lineage.rise? b = some (o.parent, b.2 + o.depth) := by
            rw [Lineage.rise?, horigin, Option.map_some]
          refine Action.Yields.bind (told_checkedAdd (fun hno => hbeyond _ ?_) fun hcounts => ?_)
          · exact .halt again rfl rfl rfl (fun h => absurd h (by simp)) (by simp [hrise, hno])
          refine Action.Yields.ite (fun hinvalid => ?_) fun hvalid => ?_
          · refine .halt again rfl rfl rfl (fun _ c hc => ?_) (by simp [hrise, hcounts])
            obtain rfl := Option.some.inj (hrise.symm.trans hc)
            exact hinvalid
          refine Action.Yields.bind (told_assertFalseAt hF fun negation constraint w₂ =>
            Action.Yields.bind (told_act hF (fun _ _ => rfl) fun verdict w₃ =>
              Action.Yields.ite (fun hsat => ?_) fun hno => ?_))
          · have hfresh : s.lineage.isInvalid o.parent = false := Bool.eq_false_iff.mpr hvalid
            refine Action.Yields.bind (told_markInvalid (Nat.le_trans hk (Nat.le_add_right _ _))
              hfresh fun lineage hmark => Action.Yields.bind (told_recordModel hF
                fun model w₄ => Action.Yields.bind (told_report fun w₅ => ?_)))
            have hpending : lineage.pending < bound :=
              Nat.lt_of_lt_of_le (hmark.pending_lt hrise hfresh) (Nat.le_of_lt_succ hbound)
            have hstep : ∀ {beyond} {t : Search × σ × List (Call μ)}, Climbs B.machine
                (o.parent, b.2 + o.depth)
                { s with agenda, lineage, stats.maxCexDepth := max s.stats.maxCexDepth b.2 }
                (.recorded model :: .modelled (.ok model) :: .solved (.ok verdict) ::
                  .asserted constraint (.ok ()) ::
                  .placed negation (b.2 + o.depth) (.ok constraint) ::
                  .negated o.parent (.ok negation) :: .negated b.1 (.ok again) :: ℓ) beyond t →
                Climbs B.machine b s ℓ beyond t :=
              Climbs.step again ⟨o.parent, b.2 + o.depth, negation, constraint, verdict⟩ model
                hrise hfresh hsat hmark rfl (by simp [Trial.calls])
            refine Action.Yields.imp (climbs_climb hF (b := (o.parent, b.2 + o.depth)) hagenda ?_
              hpending fun t h => hbeyond t (hstep h)) fun _ t h => hstep h
            exact Nat.le_trans hk (Nat.le_add_right _ _)
          · exact told_report fun w₄ => .miss again
              ⟨o.parent, b.2 + o.depth, negation, constraint, verdict⟩ rfl rfl
              (by simp [Trial.calls]) hrise (Bool.eq_false_iff.mpr hvalid) hno hcounts

/-! The whole extension. -/

/-- What an extension does for a formula and a frame at which a trace is to falsify it: `m` is the
number of ancestors that it gets to. -/
structure Extends (M : Machine) (trace : List Formula) (b : Breach) (s s' : Search)
    (x : Extension μ) (m : Nat) (beyond : Bool) : Prop where
  posted : x.posts.map Post.place = trace.zipIdx
  length : x.hits.length = m + 1
  hits : ∀ i ≤ m, x.hits[i]?.map Hit.breach = s.lineage.ancestor? b i
  missed : ∀ p ∈ x.miss, s.lineage.ancestor? b (m + 1) = some p.breach
  asked : ∀ c, s.lineage.ancestor? b (m + 1) = some c → M.counts c.2 = true →
    s'.lineage.isInvalid c.1 = false → x.miss.isSome = true
  beyond_iff : beyond = true ↔ ∃ c, s.lineage.ancestor? b (m + 1) = some c ∧ M.counts c.2 = false
  largest : IsGreatest {n | s.lineage.Rises b x.verdicts n} m
  distinct : ((x.hits.tail.map Hit.breach).map Prod.fst).Nodup
  marked : s.lineage.Marked s'.lineage (x.hits.tail.map Hit.breach)
  deepest : ∀ c, s.lineage.ancestor? b m = some c →
    s'.stats.maxCexDepth = max s.stats.maxCexDepth c.2

def Extended (M : Machine) (trace : List Formula) (b : Breach) (s : Search) (beyond : Bool)
    (t : Search × σ × List (Call μ)) : Prop :=
  ∃ x m, t.2.2.reverse = Extension.calls x ∧ Extends M trace b s t.1 x m beyond

theorem Climbs.extended {M : Machine} {beyond : Bool} {trace : List Formula} {posts : List Post}
    (p : Trial) (model : μ) {t : Search × σ × List (Call μ)}
    (hposts : posts.map Post.place = trace.zipIdx) (hsat : p.verdict = .sat)
    (hlog : ℓ.reverse = .pushed :: (posts.flatMap Post.calls ++
      (p.calls ++ [.modelled (.ok model), .recorded model])))
    (h : Climbs M p.breach s ℓ beyond t) : Extended M trace p.breach s beyond t := by
  obtain ⟨again, hits, miss, hlog', hclimbed⟩ := h
  have hlast := hclimbed.ascends.ancestor?_last
  have hnext : s.lineage.ancestor? p.breach ((hits.map Hit.breach).length + 1) =
      s.lineage.rise? ((hits.map Hit.breach).getLastD p.breach) := by
    rw [Lineage.ancestor?, hlast, Option.bind_some]
  refine ⟨⟨posts, ⟨p, model, again⟩ :: hits, miss⟩, (hits.map Hit.breach).length, ?_, hposts,
    by simp, fun i hi => ?_, fun q hq => ?_, fun c hc hcounts hfresh => ?_, ?_, ?_,
    hclimbed.ascends.distinct, hclimbed.marked, fun c hc => ?_⟩
  · rw [hlog', hlog]
    simp [Extension.calls, Hit.calls, Trial.breach]
  · rw [hclimbed.ascends.ancestor?_eq i hi, ← List.getElem?_map]
    rfl
  · rw [hnext, (hclimbed.missed q hq).1]
  · rw [hnext] at hc
    cases hmiss : miss with
    | some q => rfl
    | none =>
        have hbeyond : beyond = false := Bool.eq_false_iff.mpr fun hbeyond => by
          obtain ⟨d, hd, hno⟩ := hclimbed.beyond_iff.mp hbeyond
          obtain rfl := Option.some.inj (hc.symm.trans hd)
          rw [hcounts] at hno
          cases hno
        rw [hclimbed.stopped hmiss hbeyond c hc] at hfresh
        cases hfresh
  · rw [hnext]
    exact hclimbed.beyond_iff
  · refine hclimbed.ascends.isGreatest hclimbed.marked (fun i hi => ?_) fun c hc hfresh => ?_
    · have hall : ∀ h ∈ (⟨p, model, again⟩ :: hits : List (Hit μ)), h.trial.verdict = .sat :=
        List.forall_mem_cons.mpr ⟨hsat, hclimbed.sat⟩
      rw [List.length_map] at hi
      exact Extension.verdicts_hit (x := ⟨posts, _, miss⟩) hall (Nat.lt_succ_of_le hi)
    · have hmiss := Extension.verdicts_miss ⟨posts, ⟨p, model, again⟩ :: hits, miss⟩
      rw [List.length_cons, ← List.length_map (f := Hit.breach)] at hmiss
      rw [hmiss]
      intro heq
      obtain ⟨q, hq, hverdict⟩ := Option.map_eq_some_iff.mp heq
      exact (hclimbed.missed q hq).2.2 hverdict
  · rw [hlast] at hc
    obtain rfl := Option.some.inj hc
    exact hclimbed.deepest

theorem extended_inScope {trace : List Formula} (hF : Lax F) (hextend : config.extend = true)
    (hq : s.agenda.Valid) (hfront : s.index < trace.length - 1 + s.depth)
    (hcounts : B.machine.counts (trace.length - 1 + s.depth) = true)
    (hdenied : ∀ v t, firstVerdict? t.2.2 ≠ some .sat → F (.violation v) t)
    (hbeyond : ∀ t, Extended B.machine trace (f, trace.length - 1 + s.depth) s true t →
      F (.violation .overflow) t) :
    (extendInScope B.logged config f trace).Yields (s, w, [.pushed]) F fun _ t =>
      Extended B.machine trace (f, trace.length - 1 + s.depth) s false t := by
  refine Action.Yields.bind ((told_assertTrace hF).imp fun _ t h => ?_)
  obtain ⟨s', w₁, ℓ⟩ := t
  obtain ⟨rfl, posts, hlog, hposts⟩ := h
  refine Action.Yields.bind (Action.Yields.bind (told_checkedAdd
    (fun hno => absurd (hcounts.symm.trans hno) (by simp)) fun _ => Action.Yields.bind
      (told_assertFalseAt hF fun negation constraint w₂ => Action.Yields.bind
        (told_act hF (fun _ _ => rfl) fun verdict w₃ => Action.Yields.ite (fun hsat => ?_)
          fun hno => hdenied _ _ ?_))))
  · refine Action.Yields.bind (told_recordModel hF fun model w₄ => Action.Yields.ite (fun _ => ?_)
      fun hno => absurd hextend hno)
    have hdone : ∀ {beyond} {t : Search × σ × List (Call μ)}, Climbs B.machine
        (f, trace.length - 1 + s'.depth) s'
        (.recorded model :: .modelled (.ok model) :: .solved (.ok verdict) ::
          .asserted constraint (.ok ()) ::
          .placed negation (trace.length - 1 + s'.depth) (.ok constraint) ::
          .negated f (.ok negation) :: ℓ) beyond t →
        Extended B.machine trace (f, trace.length - 1 + s'.depth) s' beyond t :=
      Climbs.extended ⟨f, trace.length - 1 + s'.depth, negation, constraint, verdict⟩ model
        hposts hsat (by simp [hlog, Trial.calls])
    refine Action.Yields.bind ?_
    change Action.Yields (climb B.logged (s'.lineage.size + 1) f _) _ _ _
    exact Action.Yields.imp (climbs_climb hF (b := (f, trace.length - 1 + s'.depth)) hq
      (Nat.le_of_lt hfront) (Nat.lt_succ_of_le s'.lineage.pending_le_size)
      fun t h => hbeyond t (hdone h)) fun _ t h => hdone h
  · have hnone : (posts.flatMap Post.calls).findSome? (verdict? (μ := μ)) = none :=
      List.findSome?_eq_none_iff.mpr fun c hc => by
        obtain ⟨p, _, hc⟩ := List.mem_flatMap.mp hc
        rcases List.mem_pair.mp hc with rfl | rfl <;> rfl
    simp [firstVerdict?, hlog, List.findSome?_cons, List.findSome?_append, hnone, verdict?, hno]

/-- The ways in which an extension may fail. -/
def Fails (M : Machine) (trace : List Formula) (b : Breach) (s : Search) (fault : Fault)
    (t : Search × σ × List (Call μ)) : Prop :=
  Faulted t.2.2 fault ∨ firstVerdict? t.2.2 ≠ some .sat ∨
    fault = .violation .overflow ∧ Extended M trace b s true t

theorem lax_fails (M : Machine) (trace : List Formula) (b : Breach) (s : Search) :
    Lax (σ := σ) (μ := μ) (Fails M trace b s) := fun _ _ => Or.inl

theorem firstVerdict?_popped (answer : Except Fault Unit) :
    firstVerdict? (.popped answer :: ℓ) = firstVerdict? ℓ := by
  rw [firstVerdict?, List.reverse_cons, List.findSome?_append]
  exact Option.or_none

theorem extended_extendFailure {trace : List Formula}
    (htrace : B.reachability.counterTrace w = trace) (hextend : config.extend = true)
    (hq : s.agenda.Valid) (hne : trace ≠ []) (hfront : s.index < trace.length - 1 + s.depth)
    (hcounts : B.machine.counts (trace.length - 1 + s.depth) = true) :
    (extendFailure B.logged config f).Yields (s, w, [])
      (Fails B.machine trace (f, trace.length - 1 + s.depth) s) fun _ t =>
        ∃ x m, t.2.2.reverse = Extension.calls x ++ [.popped (.ok ())] ∧
          Extends B.machine trace (f, trace.length - 1 + s.depth) s t.1 x m false := by
  have hF := lax_fails (σ := σ) (μ := μ) B.machine trace (f, trace.length - 1 + s.depth) s
  subst htrace
  refine Action.Yields.bind (Action.Yields.ite
    (fun hempty => absurd (List.isEmpty_iff.mp hempty) hne) fun _ => Action.Yields.bind
      (Action.Yields.bind (Action.Yields.bind (told_checkedAdd
        (fun hno => absurd (hcounts.symm.trans hno) (by simp)) fun _ => Action.Yields.ite
          (fun _ => ?_) fun hno => absurd hfront hno))))
  have hnext : B.machine.counts (s.index + 1) = true := Machine.counts_mono hfront hcounts
  refine Action.Yields.bind (told_checkedAdd
    (fun hno => absurd (hnext.symm.trans hno) (by simp)) fun _ => Action.Yields.bind
      (Action.Yields.bind (Action.Yields.bind ?_)))
  refine Action.Yields.mono (extended_inScope (w := B.solver.push (B.solver.ensureDepth _ w)) hF
    hextend hq hfront hcounts (fun _ _ h => Or.inr (Or.inl h)) fun _ h =>
      Or.inr (Or.inr ⟨rfl, h⟩)).caught (fun _ _ h => h.1) fun result t h => ?_
  refine Action.Yields.bind (told_step hF (fun _ _ => rfl) fun _ w' => ?_)
  rcases h with ⟨_, rfl, x, m, hlog, hx⟩ | ⟨e, rfl, hfault⟩
  · exact ⟨x, m, by simp [hlog], hx⟩
  · rcases hfault with ⟨c, hc, hfault⟩ | hdenied | ⟨hbeyond, _⟩
    · exact Or.inl ⟨c, List.mem_cons_of_mem _ hc, hfault⟩
    · exact Or.inr (Or.inl (by rwa [firstVerdict?_popped]))
    · cases hbeyond

theorem model?_calls (x : Extension μ) :
    x.calls.reverse.findSome? model? = x.hits.getLast?.map Hit.model := by
  have hposts : (x.posts.flatMap Post.calls).reverse.findSome? (model? (μ := μ)) = none :=
    List.findSome?_eq_none_iff.mpr fun c hc => by
      obtain ⟨p, _, hc⟩ := List.mem_flatMap.mp (List.mem_reverse.mp hc)
      rcases List.mem_pair.mp hc with rfl | rfl <;> rfl
  have hmiss : (x.miss.toList.flatMap Trial.calls).reverse.findSome? (model? (μ := μ)) = none := by
    cases x.miss <;> rfl
  have hhits : ∀ hits : List (Hit μ), (hits.flatMap Hit.calls).reverse.findSome? model? =
      hits.getLast?.map Hit.model := fun hits => by
    induction hits using List.reverseRecOn with
    | nil => rfl
    | append_singleton hits h _ =>
        rw [List.flatMap_append, List.reverse_append, List.findSome?_append,
          List.getLast?_concat]
        rfl
  rw [Extension.calls, List.reverse_cons, List.reverse_append, List.reverse_append,
    List.findSome?_append, List.findSome?_append, List.findSome?_append, hmiss, hhits, hposts]
  simp [model?]

/-- Over any backend that fails no call, an extension marks as many ancestors as it can. Only where
the frame of the next one is beyond what the machine counts does it not come to its end. -/
theorem extendFailure_climbs (hextend : config.extend = true) (hq : s.agenda.Valid)
    (hne : B.reachability.counterTrace w ≠ [])
    (hfront : s.index < (B.reachability.counterTrace w).length - 1 + s.depth)
    (hcounts : B.machine.counts ((B.reachability.counterTrace w).length - 1 + s.depth) = true)
    (hquiet : ∀ c ∈ calls (extendFailure B.logged config f) s w, c.fault? = none)
    (hsat : firstVerdict? (calls (extendFailure B.logged config f) s w) = some .sat) :
    ∃ (x : Extension μ) (m : Nat) (beyond : Bool) (t : Search × σ),
      extendFailure B config f (s, w) =
        (if beyond then .error (.violation .overflow) t else .ok () t) ∧
      (calls (extendFailure B.logged config f) s w).reverse =
        x.calls ++ (if beyond then [] else [.popped (.ok ())]) ∧
      (calls (extendFailure B.logged config f) s w).findSome? model? = x.hits[m]?.map Hit.model ∧
      Extends B.machine (B.reachability.counterTrace w)
        (f, (B.reachability.counterTrace w).length - 1 + s.depth) s t.1 x m beyond := by
  have hyields := extended_extendFailure (f := f) rfl hextend hq hne hfront hcounts
  have hrun := (under_extendFailure B.logged_over config f).run_eq (s, w, [])
  have hmodel : ∀ {x : Extension μ} {m beyond t}, Extends B.machine (B.reachability.counterTrace w)
      (f, (B.reachability.counterTrace w).length - 1 + s.depth) s t x m beyond →
      x.calls.reverse.findSome? model? = x.hits[m]?.map Hit.model := fun h => by
    rw [model?_calls, List.getLast?_eq_getElem?, h.length, Nat.add_sub_cancel]
  rw [calls, final] at hquiet hsat ⊢
  rw [Action.Yields] at hyields
  cases hlogged : extendFailure B.logged config f (s, w, []) with
  | ok _ t =>
      rw [hlogged] at hyields hrun hquiet hsat
      obtain ⟨x, m, hlog, hx⟩ := hyields
      refine ⟨x, m, false, through Prod.fst t, hrun, hlog, ?_, hx⟩
      change t.2.2.findSome? model? = _
      rw [← List.reverse_reverse t.2.2, hlog, List.reverse_append, List.findSome?_append]
      exact hmodel hx
  | error fault t =>
      rw [hlogged] at hyields hrun hquiet hsat
      rcases hyields with ⟨c, hc, hfault⟩ | hdenied | ⟨rfl, x, m, hlog, hx⟩
      · rw [hquiet c hc] at hfault
        cases hfault
      · exact absurd hsat hdenied
      · refine ⟨x, m, true, through Prod.fst t, hrun, by simpa using hlog, ?_, hx⟩
        change t.2.2.findSome? model? = _
        rw [← List.reverse_reverse t.2.2, hlog]
        exact hmodel hx

open Scripted

/-- Three formulas that are one another's parents in a circle; the first of them has failed. -/
def circling : Search where
  index := 1
  depth := 1
  lineage.origins := .ofList [(⟨0⟩, ⟨⟨1⟩, ⟨5⟩, 2⟩), (⟨1⟩, ⟨⟨2⟩, ⟨6⟩, 3⟩), (⟨2⟩, ⟨⟨0⟩, ⟨7⟩, 1⟩)]
  lineage.invalid := .ofList [(⟨0⟩, 2)]

def playing : Player where
  sentences.terms := #[.atom "A", .atom "B", .atom "C", .atom "s", .atom "t"]
  cex := [⟨3⟩, ⟨4⟩]

theorem circling_climbs :
    ∃ (x : Extension Model) (m : Nat) (beyond : Bool) (t : Search × Player),
      extendFailure Player.backend {} ⟨0⟩ (circling, playing) =
        (if beyond then .error (.violation .overflow) t else .ok () t) ∧
      (calls (extendFailure Player.backend.logged {} ⟨0⟩) circling playing).reverse =
        x.calls ++ (if beyond then [] else [.popped (.ok ())]) ∧
      (calls (extendFailure Player.backend.logged {} ⟨0⟩) circling playing).findSome? model? =
        x.hits[m]?.map Hit.model ∧
      Extends .word64 [⟨3⟩, ⟨4⟩] (⟨0⟩, 2) circling t.1 x m beyond :=
  extendFailure_climbs rfl Agenda.empty_valid (by decide) (by decide) (by decide)
    (by decide +kernel) (by decide +kernel)

end Search

end Invariance
