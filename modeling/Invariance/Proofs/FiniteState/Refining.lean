import Invariance.Proofs.Agenda.Table
import Invariance.Proofs.FiniteState.Passing.Rounds
import Invariance.Proofs.FiniteState.Verdicts

/-!
The refinements of a query, over all its rounds. Each of them learns a state that no refinement of
the query has learnt before and that is not initial, so the states of the system bound their
number, and their number bounds the turns of a round.
-/

namespace Invariance.FiniteState

open Universe Session TransitionSystem Search

variable {M : Machine} {config : Config} {sys : TransitionSystem} {u u' : Universe}
  {l l' : Lineage} {w₀ : Session} {P : Formula → Prop} {held : List Obligation} {n N a b : Nat}
  {s : Search} {w : Session} {x y : Search × Session} {ts : List (Turn Session)} {xs : List Nat}

/-- A formula that was learnt leaves out the single state `a`. -/
def Known (u : Universe) (l : Lineage) (a : Nat) : Prop :=
  ∃ (f : Formula) (o : Origin) (c : StateSet), l.origin? f = some o ∧
    u.Names f c.complement ∧ ∀ x, c.contains x = true ↔ x = a

theorem Known.extend (h : Known u l a) (hext : Extends u u') : Known u' l a := by
  obtain ⟨f, o, c, ho, hf, hsingle⟩ := h
  exact ⟨f, o, c, ho, hext.names hf, hsingle⟩

namespace Learns

theorem known (h : Learns sys u l l' a) : Known u l' a := by
  obtain ⟨f, o, c, _, rfl, _, hsingle, hf⟩ := h.added
  exact ⟨f, o, c, by rw [origin?_addOrigin, if_pos rfl], hf, hsingle⟩

theorem keeps (h : Learns sys u l l' a) (hb : Known u l b) : Known u l' b := by
  obtain ⟨f, o, c, hnew, rfl, _⟩ := h.added
  obtain ⟨g, o', c', ho', hg, hsingle⟩ := hb
  have hne : g ≠ f := fun heq => by
    rw [heq, hnew] at ho'
    cases ho'
  exact ⟨g, o', c', by rw [origin?_addOrigin, if_neg hne, ho'], hg, hsingle⟩

/-- No state is learnt twice: the formula that leaves it out would be the same. -/
theorem novel (hu : u.Canonical) (h : Learns sys u l l' a) : ¬ Known u l a := by
  rintro ⟨g, o', c', ho', hg, hsingle'⟩
  obtain ⟨f, o, c, hnew, _, _, hsingle, hf⟩ := h.added
  have heq : g = f := by
    refine hu.name_ext hg hf fun x => ?_
    have hsize : c'.size = c.size := (hu.sized hg).trans (hu.sized hf).symm
    have hsame : c'.contains x = c.contains x :=
      Bool.eq_iff_iff.mpr ((hsingle' x).trans (hsingle x).symm)
    rw [Bool.eq_iff_iff, StateSet.contains_complement_iff, StateSet.contains_complement_iff, hsize,
      hsame]
  rw [heq, hnew] at ho'
  cases ho'

end Learns

/-! The turns of a round. -/

/-- Those of the turns that refine learn the states `xs`, one after the other. No two of these are
the same, and they pay for the turns. -/
structure Refines (sys : TransitionSystem) (x : Search × Session) (ts : List (Turn Session))
    (xs : List Nat) : Prop where
  each : List.Forall₂ (fun t a => Learns sys t.after.2.terms t.before.1.lineage t.after.1.lineage a)
    (ts.filter Turn.refines) xs
  nodup : xs.Nodup
  late : ∀ a ∈ xs, a < sys.size ∧ ¬ sys.Initial a
  unknown : ∀ a ∈ xs, ¬ Known x.2.terms x.1.lineage a
  pops : ts.length ≤ x.1.agenda.waiting.length + 2 * xs.length

namespace Refines

theorem stop : Refines sys x [] [] :=
  ⟨.nil, .nil, List.forall_mem_nil _, List.forall_mem_nil _, Nat.zero_le _⟩

/-- The last turn, after which the search is at an end. -/
theorem last {answer : Option Push} (hanswer : answer ≠ some .refined)
    (hpos : 0 < x.1.agenda.waiting.length) : Refines sys x [⟨x, answer, y⟩] [] where
  each := by
    rw [List.filter_cons_of_neg (by simpa [Turn.refines] using hanswer)]
    exact .nil
  nodup := .nil
  late := List.forall_mem_nil _
  unknown := List.forall_mem_nil _
  pops := hpos

theorem staged (h : Refines sys y ts xs)
    (hkeeps : ∀ b ∈ xs, Known x.2.terms x.1.lineage b → Known y.2.terms y.1.lineage b)
    (hwaiting : x.1.agenda.waiting.length = y.1.agenda.waiting.length + 1) :
    Refines sys x (⟨x, some .staged, y⟩ :: ts) xs where
  each := by
    rw [List.filter_cons_of_neg (by simp [Turn.refines])]
    exact h.each
  nodup := h.nodup
  late := h.late
  unknown a ha hknown := h.unknown a ha (hkeeps a ha hknown)
  pops := by
    have hpops := h.pops
    rw [List.length_cons]
    omega

theorem refined (h : Refines sys y ts xs)
    (ha : Learns sys y.2.terms x.1.lineage y.1.lineage a) (hu : y.2.terms.Canonical)
    (hext : Extends x.2.terms y.2.terms)
    (hwaiting : y.1.agenda.waiting.length = x.1.agenda.waiting.length + 1) :
    Refines sys x (⟨x, some .refined, y⟩ :: ts) (a :: xs) where
  each := by
    rw [List.filter_cons_of_pos (by simp [Turn.refines])]
    exact .cons ha h.each
  nodup := List.nodup_cons.mpr ⟨fun hin => h.unknown a hin ha.known, h.nodup⟩
  late := List.forall_mem_cons.mpr ⟨⟨ha.lt, ha.late⟩, h.late⟩
  unknown := List.forall_mem_cons.mpr ⟨fun hknown => ha.novel hu (hknown.extend hext),
    fun b hb hknown => h.unknown b hb (ha.keeps (hknown.extend hext))⟩
  pops := by
    have hpops := h.pops
    rw [List.length_cons, List.length_cons]
    omega

end Refines

/-- The session at hand may stand for the one in which the round began. -/
theorem Opening.rebase (h : Opening sys w₀ P held n s w) : Opening sys w P held n s w :=
  { h with
    base := .refl _
    mode := rfl
    counted := Nat.le_trans h.counted (Nat.add_le_add_right h.base.length_le _) }

theorem refines_opening (hM : M.Fits (sys.size + 2)) (config : Config) : ∀ (fuel : Nat) {n : Nat}
    {w₀ : Session} {s : Search} {w : Session}, Opening sys w₀ P [] n s w →
    ∃ xs, Refines sys (s, w) (turns (backend M) config fuel (s, w)) xs
  | 0, _, _, _, _, _ => ⟨[], .stop⟩
  | fuel + 1, n, w₀, s, w, h => by
      cases hempty : s.agenda.isEmpty with
      | true =>
          rw [turns_of_stop (x := (s, w)) (by rw [hempty, Bool.true_or])]
          exact ⟨[], .stop⟩
      | false =>
          have hgo : (s.agenda.isEmpty || s.lineage.propertyInvalid) = false := by
            rw [hempty, h.undecided, Bool.or_false]
          have hends : Action.Ends (turn (backend M) config) (s, w) (fun _ => False) fun answer y =>
              ∃ xs, Refines sys (s, w) (⟨(s, w), some answer, y⟩ ::
                turns (backend M) config fuel y) xs := by
            refine ends_turn h.rebase hM hempty (fun s₂ w₂ h₂ hwaiting hlineage _ => ?_)
              (fun m s₂ w₂ _ h₂ hlearns hwaiting _ => ?_) fun s₂ w₂ h₂ _ => ?_
            · obtain ⟨xs, hxs⟩ := refines_opening hM config fuel h₂
              exact ⟨xs, hxs.staged (fun b _ hb => hlineage ▸ hb.extend h₂.base) hwaiting⟩
            · obtain ⟨xs, hxs⟩ := refines_opening hM config fuel h₂
              obtain ⟨a, ha⟩ := hlearns
              exact ⟨a :: xs, hxs.refined ha h₂.sound.canonical h₂.base hwaiting⟩
            · rw [turns_of_stop (x := (s₂, w₂)) (by rw [h₂.flagged, Bool.or_true])]
              exact ⟨[], .last (by simp) (h.agenda.waiting_pos hempty)⟩
          obtain ⟨answer, y, hrun, hxs⟩ := hends.exists_ok
          rwa [turns_of_ok (x := (s, w)) hgo hrun]

/-- A later round refines nothing, but the machine may stop it. -/
theorem refines_repeating : ∀ {fuel : Nat} {s : Search} {w : Session},
    Repeating sys N [] s w → Refines sys (s, w) (turns (backend M) config fuel (s, w)) []
  | 0, _, _, _ => .stop
  | fuel + 1, s, w, h => by
      cases hempty : s.agenda.isEmpty with
      | true =>
          rw [turns_of_stop (x := (s, w)) (by rw [hempty, Bool.true_or])]
          exact .stop
      | false =>
          have hgo : (s.agenda.isEmpty || s.lineage.propertyInvalid) = false := by
            rw [hempty, h.undecided, Bool.or_false]
          have hends : Action.Ends (turn (backend M) config) (s, w) (fun _ => True) fun answer y =>
              Refines sys (s, w) (⟨(s, w), some answer, y⟩ ::
                turns (backend M) config fuel y) [] :=
            ends_turn_again h (excuses_all M) hempty fun s₂ w₂ h₂ hwaiting _ =>
              (refines_repeating h₂).staged (List.forall_mem_nil _) hwaiting
          cases hrun : turn (backend M) config (s, w) with
          | ok answer y =>
              rw [turns_of_ok (x := (s, w)) hgo hrun]
              exact hends.of_ok hrun
          | error fault y =>
              rw [turns_of_error (x := (s, w)) hgo hrun]
              exact .last (by simp) (h.agenda.waiting_pos hempty)

/-! The rounds of a query. -/

/-- The search in a round ends in no other way than with its result, unless a number becomes too
large for the machine or the graph cannot be written. -/
inductive Excused (M : Machine) (config : Config) : Fault → Prop
  | overflow {k : Nat} : M.counts k = false → Excused M config (.violation .overflow)
  | capacity {k : Nat} : M.lists k = false → Excused M config (.violation .capacity)
  | output {reason : String} : config.saveGraphs = true →
      Excused M config (.error (.output reason))

/-- Each of the rounds ends if there is fuel for as many turns as are said here, and all of them
together learn states of the system that are not initial, none of them twice. -/
structure Bounded (M : Machine) (config : Config) (sys : TransitionSystem)
    (rs : List (Round Session)) : Prop where
  ends : ∀ r ∈ rs, ∀ n, 2 * sys.size + r.start.1.agenda.size < n →
    Action.Ends (drainFrame (backend M) config n) r.start (Excused M config) fun rest _ =>
      rest + (turns (backend M) config n r.start).length = n
  pops : ∀ r ∈ rs, ∀ n, (turns (backend M) config n r.start).length ≤
    r.start.1.agenda.size + 2 * (refinements (backend M) config n r.start).length + 1
  novel : ∃ xs : List Nat, xs.Nodup ∧ (∀ a ∈ xs, a < sys.size ∧ ¬ sys.Initial a) ∧
    List.Forall₂ (fun t a => Learns sys t.after.2.terms t.before.1.lineage t.after.1.lineage a)
      (rs.flatMap fun r => refinements (backend M) config r.fuel r.start) xs
  few : (rs.flatMap fun r => refinements (backend M) config r.fuel r.start).length ≤
    ((List.range sys.size).filter fun a => !sys.init.contains a).length

theorem Beginning.valid (h : Beginning sys s w) : s.agenda.Valid := by
  rcases h with ⟨_, _, _, h⟩ | ⟨_, h, _⟩
  · exact h.agenda
  · exact h.agenda

theorem Beginning.refines (hM : M.Fits (sys.size + 2)) (h : Beginning sys s w) (config : Config)
    (fuel : Nat) :
    ∃ xs, Refines sys (s, w) (turns (backend M) config fuel (s, w)) xs := by
  rcases h with ⟨_, _, _, h⟩ | ⟨_, h, _⟩
  · exact refines_opening hM config fuel h
  · exact ⟨[], refines_repeating h⟩

theorem Beginning.ends (hM : M.Fits (sys.size + 2)) (h : Beginning sys s w) {fuel : Nat}
    (hfuel : 2 * sys.size + s.agenda.size < fuel) :
    Action.Ends (drainFrame (backend M) config fuel) (s, w) (Excused M config) fun rest _ =>
      rest + (turns (backend M) config fuel (s, w)).length = fuel := by
  have hlen := h.valid.length_waiting
  have hdrain : Action.Ends (drain (backend M) config fuel) (s, w) (Excused M config)
      fun _ t => Sound sys t.2 := by
    rcases h with ⟨w₀, P, n, h⟩ | ⟨N, h, _⟩
    · have hn := h.bounded
      refine ends_drain hM h (fun hle => ?_) (fun _ _ _ _ _ h' _ _ => h'.sound)
        fun _ _ _ _ h' _ => h'.sound
      rw [burden] at hle
      omega
    · exact ends_redrain ⟨fun _ => .overflow, fun _ => .capacity⟩ h (fun hle => by omega)
        fun _ _ _ _ h' _ _ => h'.sound
  exact ends_drainFrame (fun hsave _ => .output hsave)
    (hdrain.and_run.imp fun _ _ ht => ⟨ht.2, fun _ _ => drain_spends ht.1⟩)

theorem ends_round (hM : M.Fits (sys.size + 2)) (h : Beginning sys s w) {fuel : Nat} :
    Action.Ends (runRound (backend M) config fuel) (s, w) (fun _ => True) fun result t =>
      result.isRight = true → ∃ N, Repeating sys N [] t.1 t.2 ∧ t.1.staged = [] := by
  rw [runRound, Action.ends_bind]
  refine ends_finishing hM h fun rest s₁ w₁ h₁ => ?_
  rw [Action.ends_bind, Search.ends_change, Action.ends_bind, Search.ends_state]
  by_cases hinvalid : s₁.lineage.propertyInvalid = true
  · rw [if_pos hinvalid]
    exact fun hright => by cases hright
  by_cases hsize : s₁.frame.size = s₁.staged.length
  · rw [if_neg hinvalid, if_pos hsize, Action.ends_bind]
    exact Action.ends_trivial.imp fun _ _ _ hright => by cases hright
  · rw [if_neg hinvalid, if_neg hsize, Action.ends_bind]
    obtain ⟨hundecided, hw, hstalled⟩ := (h₁.resolve_left hinvalid).resolve_left hsize
    refine ends_advance (excuses_all M) hw (by exact hstalled) (by exact hundecided)
      (fun s₂ w₂ _ _ _ _ => ?_) fun s₂ w₂ _ h₂ hnil _ => ?_
    · exact fun hright => by cases hright
    · exact fun _ => ⟨_, h₂, hnil⟩

theorem repeating_of_later : ∀ {bound fuel : Nat} {x : Search × Session},
    (∃ N, Repeating sys N [] x.1 x.2 ∧ x.1.staged = []) → M.Fits (sys.size + 2) →
    ∀ r ∈ roundsFrom (backend M) config bound fuel x,
      ∃ N, Repeating sys N [] r.start.1 r.start.2 ∧ r.start.1.staged = []
  | 0, _, _, _, _, _, hr => by cases hr
  | bound + 1, fuel, (s, w), h, hM, r, hr => by
      obtain ⟨rs, hrs, hlater⟩ := roundsFrom_succ (backend M) config bound fuel (s, w)
      rw [hrs] at hr
      rcases List.mem_cons.mp hr with rfl | hr
      · exact h
      · obtain ⟨rest, y, hrun, hr⟩ := hlater r hr
        exact repeating_of_later ((ends_round hM (Or.inr h)).of_ok hrun rfl) hM r hr

/-- There is a first round, and all others repeat it. -/
theorem roundsFrom_cases (hM : M.Fits (sys.size + 2)) (h : Opening sys w₀ P [] n s w)
    (config : Config) (bound fuel : Nat) : roundsFrom (backend M) config bound fuel (s, w) = [] ∨
      ∃ rs, roundsFrom (backend M) config bound fuel (s, w) = ⟨fuel, s, w⟩ :: rs ∧
        ∀ r ∈ rs, ∃ N, Repeating sys N [] r.start.1 r.start.2 ∧ r.start.1.staged = [] := by
  cases bound with
  | zero => exact Or.inl rfl
  | succ bound =>
      obtain ⟨rs, hrs, hlater⟩ := roundsFrom_succ (backend M) config bound fuel (s, w)
      refine Or.inr ⟨rs, hrs, fun r hr => ?_⟩
      obtain ⟨rest, y, hrun, hr⟩ := hlater r hr
      have hbegin : Beginning sys s w := Or.inl ⟨w₀, P, n, h⟩
      exact repeating_of_later ((ends_round hM hbegin).of_ok hrun rfl) hM r hr

theorem bounded_nil : Bounded M config sys [] :=
  ⟨List.forall_mem_nil _, List.forall_mem_nil _, ⟨[], .nil, List.forall_mem_nil _, .nil⟩,
    Nat.zero_le _⟩

theorem refinements_of_repeating {fuel : Nat} (h : Repeating sys N [] s w) :
    refinements (backend M) config fuel (s, w) = [] :=
  List.forall₂_nil_right_iff.mp (refines_repeating h).each

/-- The states that are learnt are counted by the refinements, and are among those that are not
initial. -/
theorem few_of_novel {ts : List (Turn Session)} (hnodup : xs.Nodup)
    (hlate : ∀ a ∈ xs, a < sys.size ∧ ¬ sys.Initial a)
    (heach : List.Forall₂ (fun t a =>
      Learns sys t.after.2.terms t.before.1.lineage t.after.1.lineage a) ts xs) :
    ts.length ≤ ((List.range sys.size).filter fun a => !sys.init.contains a).length := by
  rw [heach.length_eq]
  refine (hnodup.subperm fun a ha => ?_).length_le
  obtain ⟨hlt, hnot⟩ := hlate a ha
  exact List.mem_filter.mpr ⟨List.mem_range.mpr hlt, by simpa [Initial] using hnot⟩

theorem bounded_rounds (hM : M.Fits (sys.size + 2)) (h : Opening sys w₀ P [] n s w)
    (bound fuel : Nat) :
    Bounded M config sys (roundsFrom (backend M) config bound fuel (s, w)) := by
  obtain hnil | ⟨rs, hrs, hlater⟩ := roundsFrom_cases hM h config bound fuel
  · rw [hnil]
    exact bounded_nil
  rw [hrs]
  have hbegin : ∀ r ∈ (⟨fuel, s, w⟩ : Round Session) :: rs,
      Beginning sys r.start.1 r.start.2 :=
    List.forall_mem_cons.mpr ⟨Or.inl ⟨w₀, P, n, h⟩, fun r hr => Or.inr (hlater r hr)⟩
  obtain ⟨xs, hxs⟩ := refines_opening hM config fuel h
  have hnone : rs.flatMap (fun r => refinements (backend M) config r.fuel r.start) = [] :=
    List.flatMap_eq_nil_iff.mpr fun r hr => by
      obtain ⟨N, hN, _⟩ := hlater r hr
      exact refinements_of_repeating hN
  have heach : List.Forall₂ (fun t a =>
      Learns sys t.after.2.terms t.before.1.lineage t.after.1.lineage a)
      (((⟨fuel, s, w⟩ : Round Session) :: rs).flatMap fun r =>
        refinements (backend M) config r.fuel r.start) xs := by
    rw [List.flatMap_cons, hnone, List.append_nil]
    exact hxs.each
  refine ⟨fun r hr k hk => (hbegin r hr).ends hM hk, fun r hr k => ?_,
    ⟨xs, hxs.nodup, hxs.late, heach⟩, few_of_novel hxs.nodup hxs.late heach⟩
  obtain ⟨ys, hys⟩ := (hbegin r hr).refines hM config k
  have hpops : (turns (backend M) config k r.start).length ≤
      r.start.1.agenda.waiting.length + 2 * ys.length := hys.pops
  have hlen := (hbegin r hr).valid.length_waiting
  have hcount : (refinements (backend M) config k r.start).length = ys.length :=
    hys.each.length_eq
  omega

theorem bounded_query {fuel : Nat} {p : Formula} {e : Engine Session}
    (hM : M.Fits (sys.size + 2)) (hbuilt : e.world.terms.Built sys.size)
    (hp : e.world.terms.Accepts p) :
    Bounded M config sys (Engine.roundsOf (backend M) config fuel sys p e) := by
  obtain ⟨hu, hn⟩ := hbuilt.canonical
  obtain ⟨cex, hreset⟩ := reset_eq (M := M) e
  have hends : Action.Ends (enter (backend M) fuel p) (.blank, opened sys e.world) (fun _ => True)
      fun answer y => answer = true → Registering sys e.world (e.world.terms.Leaf p) y.1 y.2 :=
    ends_enter (loaded_opened hu hn) hp (fun _ => trivial) (fun _ _ h _ _ => h)
      fun _ _ _ _ h => by cases h
  rw [Engine.roundsOf, hreset, load_eq, if_pos hn.symm]
  dsimp only
  -- the counter-trace that a reset drops is not looked at again
  generalize hw : opened sys _ = w
  obtain rfl : opened sys e.world = w := hw
  cases hrun : enter (backend M) fuel p (.blank, opened sys e.world) with
  | error fault x => exact bounded_nil
  | ok answer x =>
      cases answer with
      | false => exact bounded_nil
      | true =>
          have hx : Opening sys e.world (e.world.terms.Leaf p) [] sys.size x.1 x.2 :=
            (hends.of_ok hrun rfl).opening fun q hq => by
              obtain ⟨r, hr⟩ := (hp.proper hu).leaf_names hq
              exact hr.live
          have hannounced : Action.Ends (announce (backend M)) x (fun _ => False) fun _ y =>
              Opening sys e.world (e.world.terms.Leaf p) [] sys.size y.1 y.2 :=
            ends_report hx.sound fun w₁ hgrow₁ => hx.grow hgrow₁
          obtain ⟨_, y, hdone, hy⟩ := hannounced.exists_ok
          have hfinal : (announce (backend M)).final x = y := by
            rw [Action.final, hdone]
          dsimp only
          rw [hfinal]
          exact bounded_rounds hM hy fuel fuel

/-- On a machine whose numbers have no limit, nothing but the graph excuses a round. -/
theorem query_refines {fuel : Nat} {p : Formula} {e : Engine Session}
    (hbuilt : e.world.terms.Built sys.size) (hp : e.world.terms.Accepts p) :
    Bounded .word64 config sys (Engine.roundsOf (backend .word64) config fuel sys p e) ∧
      Bounded .exact config sys (Engine.roundsOf (backend .exact) config fuel sys p e) :=
  ⟨bounded_query (fits_word64 sys) hbuilt hp, bounded_query (fits_exact _) hbuilt hp⟩

/-- The first of three rounds learns a state. -/
theorem dangling_refined :
    Bounded .word64 { maxFrames := 3 } dangling
        (Engine.roundsOf backend { maxFrames := 3 } 34 dangling ⟨0⟩ littered) ∧
      (Engine.roundsOf backend { maxFrames := 3 } 34 dangling ⟨0⟩ littered).map (fun r =>
        (refinements backend { maxFrames := 3 } r.fuel r.start).length) = [1, 0, 0] :=
  ⟨(query_refines built_littered ⟨_, rfl⟩).1, by decide +kernel⟩

end Invariance.FiniteState
