import Invariance.Engine
import Invariance.Proofs.FiniteState.Rounds
import Invariance.Proofs.Search.Courses

/-!
A query from its start. Whatever the engine did before, loading a system leaves only the universe
and the settings, and the search is then as the rounds expect it.
-/

namespace Invariance.FiniteState

open Universe Session TransitionSystem

variable {M : Machine} {sys : TransitionSystem} {w₀ : Session} {s : Search} {w : Session}
  {E : Fault → Prop} {config : Config} {p : Formula} {fuel : Nat}

def Enough (sys : TransitionSystem) (w₀ : Session) (config : Config) (fuel : Nat) : Prop :=
  capacity sys w₀ < fuel ∧
    (w₀.forward = .reachable → Suffices config (capacity sys w₀) 0 fuel fuel)

structure Loaded (sys : TransitionSystem) (w₀ w : Session) : Prop where
  sound : Sound sys w
  base : w.terms = w₀.terms
  mode : w.forward = w₀.forward
  paths : w.paths = {}

theorem ends_enter (h : Loaded sys w₀ w) (hp : w₀.terms.Accepts p)
    (hfuel : fuel ≤ w₀.terms.length → E .outOfFuel) {Q : Bool → Search × Session → Prop}
    (htrue : ∀ s' w', Registering sys w₀ (w₀.terms.Leaf p) s' w' → s'.stats.rounds = 0 →
      Q true (s', w'))
    (hfalse : ∀ s' w', Falsified sys w₀ p w' → s'.stats.rounds = 0 → Q false (s', w')) :
    Action.Ends (Search.enter (backend M) fuel p) (.blank, w) E Q := by
  have hproper := hp.proper (h.base ▸ h.sound.canonical)
  rw [Search.enter, Action.ends_bind]
  refine ends_validate (h.base ▸ hp) ?_
  rw [Action.ends_bind, Search.ends_act]
  change Action.Ends _ (Search.blank, { w with reach := .init w.system }) E Q
  rw [Action.ends_bind, Search.ends_change, Action.ends_bind]
  refine ends_clearFrame Nat.one_pos ?_
  -- no literal is registered yet
  have h₀ : Registering sys w₀ (fun _ => False)
      { Search.blank with index := 0, depth := 1, frame := {}, stats.frameSize := 0 }
      { w with reach := .init w.system, induction := { depth := 1 } } :=
    { sound := h.sound.congr rfl rfl
      base := h.base ▸ .refl _, mode := h.mode
      layers := by rw [h.sound.system]; rfl
      asserted := by rw [h.paths]; rfl
      deep := rfl, first := by simp, between := by simp, index := rfl, depth := rfl
      members := fun f => ⟨fun hf => (by cases hf), False.elim⟩, noted := fun f hf => by cases hf
      agenda := Agenda.empty_valid, duty := fun ob hob => by cases hob
      queued := fun f hf => hf.elim, unstaged := rfl, unlearnt := rfl, unmarked := rfl
      undecided := rfl, properties := fun q => ⟨fun hq => (by cases hq), False.elim⟩ }
  exact ends_addProperty hproper (fun hlt => hfuel (Nat.le_of_lt_succ hlt)) (by exact h₀)
    (fun s₁ w₁ h₁ hrounds₁ => htrue s₁ w₁ (h₁.congr fun q => by simp) hrounds₁) hfalse

theorem ends_run (hE : w₀.forward = .reachable → Excuses M E)
    (hsave : config.saveGraphs = true → ∀ reason, E (.error (.output reason)))
    (hM : M.Fits (sys.size + 2)) (h : Loaded sys w₀ w) (hp : w₀.terms.Accepts p)
    (hfuel : ¬ Enough sys w₀ config fuel → E .outOfFuel) {Q : Outcome → Search × Session → Prop}
    (hQ : ∀ outcome s' w', s'.outcome = some outcome → Answers sys w₀ p config outcome s' w' →
      Q outcome (s', w')) :
    Action.Ends (Search.run (backend M) config fuel p) (.blank, w) E Q := by
  have hproper := hp.proper (h.base ▸ h.sound.canonical)
  have hconclude : ∀ outcome s' w', Answers sys w₀ p config outcome s' w' →
      Action.Ends (Search.conclude outcome) (s', w') E Q := fun outcome s' w' hs' =>
    hQ outcome _ w' rfl (hs'.settle hproper (.refl hs'.sound.canonical) s'.staged (some outcome))
  rw [Search.run_eq, Action.ends_bind]
  refine ends_enter h hp (fun hle => hfuel fun henough => ?_)
    (fun s₁ w₁ h₁ hrounds₁ => ?_) fun s₁ w₁ h₁ hrounds₁ => ?_
  · have hlt := henough.1
    rw [capacity] at hlt
    omega
  · have hlive : ∀ q, w₀.terms.Leaf p q → w₀.terms.Live q := fun q hq => by
      obtain ⟨r, hr⟩ := hproper.leaf_names hq
      exact hr.live
    have hburden : burden sys.size s₁ ≤ capacity sys w₀ :=
      Nat.add_le_add_left (h₁.waiting_le hlive) _
    rw [if_pos rfl, Search.loop, Action.ends_bind]
    refine ends_report h₁.sound fun w₂ hgrow₂ => ?_
    have hrounds : Action.Ends (Search.rounds (backend M) config fuel fuel) (s₁, w₂) E
        fun outcome t => Answers sys w₀ p config outcome t.1 t.2 :=
      ends_rounds hE hsave hM ((h₁.grow hgrow₂).opening hlive) hrounds₁ hburden
        (fun hnot => hfuel fun henough => hnot ⟨Nat.zero_lt_of_lt henough.1, henough⟩)
        fun _ _ _ hs' => hs'
    rw [Action.ends_bind]
    refine hrounds.attempt.imp fun result t ht => ?_
    obtain ⟨s₃, w₃⟩ := t
    rw [Action.ends_bind, Search.ends_change, Action.ends_bind]
    rcases ht with ⟨outcome, rfl, ht⟩ | ⟨e, rfl, he⟩
    · rw [Action.ends_ofAttempt_ok, Action.ends_bind]
      refine ends_report ht.sound fun w₄ hgrow₄ => ?_
      exact hconclude outcome _ w₄ (ht.settle hproper hgrow₄ [] s₃.outcome)
    · exact he
  · rw [if_neg Bool.false_ne_true, Action.ends_bind]
    refine ends_report h₁.sound fun w₂ hgrow₂ => ?_
    exact hconclude .invalid s₁ w₂
      ((Answers.falsified h₁ hrounds₁).settle hproper hgrow₂ s₁.staged s₁.outcome)

/-! The engine. -/

variable {e : Engine Session}

/-- A session in which a system has just been loaded. -/
def opened (sys : TransitionSystem) (w : Session) : Session :=
  { w with system := sys, induction := {}, paths := {}, reach := {}, trace := [] }

theorem reset_eq (e : Engine Session) : ∃ cex, Engine.reset (backend M) e =
    { search := none, world := { e.world with reach := { e.world.reach with cex } } } := by
  obtain ⟨search, w⟩ := e
  cases search with
  | none => exact ⟨w.reach.cex, rfl⟩
  | some s => exact ⟨[], rfl⟩

theorem load_eq :
    (backend M).load sys w =
      if sys.size = w.terms.size then .ok () (opened sys w)
      else .error (Flaw.error (.universeMismatch sys.size w.terms.size)).toFault w := by
  change load sys w = _
  simp only [load, bind, EStateM.bind, Action.run_get]
  split <;> rfl

theorem loaded_opened (hu : w₀.terms.Canonical) (hn : w₀.terms.size = sys.size) :
    Loaded sys w₀ (opened sys w₀) :=
  ⟨⟨rfl, hu, hn⟩, rfl, rfl, rfl⟩

theorem query_of_size (hsize : sys.size = e.world.terms.size) :
    Engine.query (backend M) config fuel sys p e =
      Engine.onSearch .blank (Search.run (backend M) config fuel p)
        { search := none, world := opened sys e.world } := by
  obtain ⟨cex, hreset⟩ := reset_eq (M := M) e
  simp only [Engine.query, bind, EStateM.bind, Action.run_modify, hreset, Action.within, load_eq,
    if_pos hsize]
  rfl

theorem query_of_size_ne (hsize : sys.size ≠ e.world.terms.size) :
    Engine.query (backend M) config fuel sys p e =
      .error (Flaw.error (.universeMismatch sys.size e.world.terms.size)).toFault
        (Engine.reset (backend M) e) := by
  obtain ⟨cex, hreset⟩ := reset_eq (M := M) e
  simp only [Engine.query, bind, EStateM.bind, Action.run_modify, hreset, Action.within, load_eq,
    if_neg hsize]

theorem run_of_refused {flaw : Flaw} (h : w.terms.eval p = .error flaw) :
    Search.run (backend M) config fuel p (s, w) = .error flaw.toFault (s, w) := by
  simp only [Search.run, bind, EStateM.bind, Search.act, Action.within, backend, vocabulary,
    Action.run_get, h]
  rfl

theorem ends_query_of_canonical (hE : e.world.forward = .reachable → Excuses M E)
    (hsave : config.saveGraphs = true → ∀ reason, E (.error (.output reason)))
    (hM : M.Fits (sys.size + 2)) (hu : e.world.terms.Canonical)
    (hn : e.world.terms.size = sys.size) (hp : e.world.terms.Accepts p)
    (hfuel : ¬ Enough sys e.world config fuel → E .outOfFuel) :
    Action.Ends (Engine.query (backend M) config fuel sys p) e E fun outcome e' =>
      ∃ s, e'.search = some s ∧ s.outcome = some outcome ∧
        Answers sys e.world p config outcome s e'.world := by
  rw [Action.Ends, query_of_size hn.symm]
  change Action.Ends (Engine.onSearch .blank _) _ E _
  rw [Engine.onSearch, Action.ends_within]
  exact ends_run hE hsave hM (loaded_opened hu hn) hp hfuel fun outcome s' w' houtcome hs' =>
    ⟨s', rfl, houtcome, hs'⟩

theorem ends_query (hE : e.world.forward = .reachable → Excuses M E)
    (hsave : config.saveGraphs = true → ∀ reason, E (.error (.output reason)))
    (hM : M.Fits (sys.size + 2)) (hbuilt : e.world.terms.Built sys.size)
    (hp : e.world.terms.Accepts p) (hfuel : ¬ Enough sys e.world config fuel → E .outOfFuel) :
    Action.Ends (Engine.query (backend M) config fuel sys p) e E fun outcome e' =>
      ∃ s, e'.search = some s ∧ s.outcome = some outcome ∧
        Answers sys e.world p config outcome s e'.world :=
  ends_query_of_canonical hE hsave hM hbuilt.canonical.1 hbuilt.canonical.2 hp hfuel

end Invariance.FiniteState
