import Invariance.Proofs.FiniteState.Query

/-!
What the answers of a query mean: an invariant comes with a valid property, a counterexample with
an invalid one, and with either way of learning no violation stays undetected.
-/

namespace Invariance.FiniteState

open Universe Session TransitionSystem

variable {config : Config} {fuel : Nat} {sys : TransitionSystem} {p : Formula}
  {e e' : Engine Session}

theorem fits_word64 (sys : TransitionSystem) : Machine.word64.Fits (sys.size + 2) := by
  intro k hk
  have hmax := sys.size_le
  rw [maxState] at hmax
  have hk' : k < 0x400000000000000 := by omega
  exact ⟨decide_eq_true (Nat.lt_trans hk' (by decide)), decide_eq_true hk'⟩

theorem fits_exact (n : Nat) : Machine.exact.Fits n := fun _ _ => ⟨rfl, rfl⟩

theorem Safe.holds (hu : e.world.terms.Canonical) (hn : e.world.terms.size = sys.size)
    (hp : e.world.terms.Accepts p) (h : Safe sys e.world.terms (e.world.terms.Leaf p)) {x : Nat}
    (hx : sys.Reachable x) : e.world.terms.Holds p x :=
  hp.holds_of_leaves hu (hn ▸ hx.lt) fun q r hq hr => h q r x hq hr hx

theorem Certifies.within {u : Universe} {P : Formula → Prop} {fs : List Formula}
    (h : Certifies sys u P fs) {x : Nat} (hx : sys.Reachable x) : u.Within fs x := by
  induction hx with
  | initial hx => exact h.initial _ hx
  | step _ hedge ih => exact h.closed _ _ ih hedge

namespace Answers

variable {w₀ w : Session} {s : Search}

theorem safe (h : Answers sys w₀ p config .valid s w) :
    Safe sys w₀.terms (w₀.terms.Leaf p) ∧ s.stats.rounds = 1 := by
  cases h with
  | proved _ hext hcert hrounds =>
      exact ⟨fun q r x hq hr hx =>
        hcert.below q r x hq (hext.names hr) hx.lt (hcert.within hx), hrounds⟩

theorem violated (hu : w₀.terms.Canonical) (hp : w₀.terms.Accepts p)
    (h : Answers sys w₀ p config .invalid s w) :
    (∃ x, sys.Reachable x ∧ ¬ w₀.terms.Holds p x) ∧ s.stats.rounds ≤ 1 := by
  cases h with
  | falsified h hrounds =>
      obtain ⟨q, r, x, hq, hr, hx, hout, _⟩ := h.fails
      exact ⟨⟨x, .initial hx, hp.not_holds hu hq hr hout⟩, hrounds ▸ Nat.zero_le 1⟩
  | disproved h hrounds =>
      obtain ⟨q, r, y, hq, hr, hy, hout⟩ := h.violated
      obtain ⟨t, ht⟩ := (hp.proper hu).leaf_names hq
      obtain rfl := hr.eq (h.base.names ht)
      exact ⟨⟨y, hy, hp.not_holds hu hq ht hout⟩, Nat.le_of_eq hrounds⟩

end Answers

theorem answers_of_ok (hbuilt : e.world.terms.Built sys.size) (hp : e.world.terms.Accepts p)
    {outcome : Outcome} (hrun : Engine.query backend config fuel sys p e = .ok outcome e') :
    ∃ s, e'.search = some s ∧ s.outcome = some outcome ∧
      Answers sys e.world p config outcome s e'.world := by
  have hends : Action.Ends (Engine.query backend config fuel sys p) e (fun _ => True) _ :=
    ends_query (fun _ => ⟨fun _ _ => trivial, fun _ _ => trivial⟩) (fun _ _ => trivial)
      (fits_word64 sys) hbuilt hp fun _ => trivial
  exact hends.of_ok hrun

/-! Systems for examples. -/

/-- From 0 only 1 is reached, and 2 leads to 3. -/
def forked : TransitionSystem where
  size := 4
  init := .add (.empty 4) 0 (by decide)
  succ := #[.add (.empty 4) 1 (by decide), .add (.empty 4) 1 (by decide),
    .add (.empty 4) 3 (by decide), .empty 4]
  size_le := by decide
  init_size := rfl
  succ_size := rfl
  succ_sizes := by decide

def allBut (x : Nat) (h : x < 4) : StateSet := (StateSet.add (.empty 4) x h).complement

def words : Universe where
  size := 4
  terms := #[.states (allBut 3 (by decide)), .states (allBut 1 (by decide))]

theorem built_words : words.Built forked.size :=
  .ofSet (s := allBut 1 (by decide)) (f := ⟨1⟩)
    (.ofSet (s := allBut 3 (by decide)) (f := ⟨0⟩) .new rfl) rfl

def start (forward : ForwardLearning) : Engine Session where
  world := { Session.ofUniverse words with forward }

/-- State 1 leads to 2 and is not reached, so learning the reachable states never ends. -/
def dangling : TransitionSystem where
  size := 3
  init := .add (.empty 3) 0 (by decide)
  succ := #[.add (.empty 3) 0 (by decide), .add (.empty 3) 2 (by decide), .empty 3]
  size_le := by decide
  init_size := rfl
  succ_size := rfl
  succ_sizes := by decide

def safeStates : Universe where
  size := 3
  terms := #[.states (StateSet.add (.empty 3) 2 (by decide)).complement]

/-- An engine that finds a step term to sweep. -/
def littered : Engine Session where
  world := { Session.ofUniverse (safeStates.atStep ⟨0⟩ 4).2 with forward := .reachable }

theorem built_littered : littered.world.terms.Built dangling.size :=
  .atStep (.ofSet (s := (StateSet.add (.empty 3) 2 (by decide)).complement) (f := ⟨0⟩) .new rfl)
    (Nat.zero_lt_one)

theorem query_decides (hbuilt : e.world.terms.Built sys.size) (hp : e.world.terms.Accepts p)
    (hmode : e.world.forward = .negation) (hgraphs : config.saveGraphs = false)
    (hfuel : 2 * sys.size + e.world.terms.length < fuel) :
    ∃ outcome e', Engine.query backend config fuel sys p e = .ok outcome e' ∧
      e'.stats.rounds ≤ 1 ∧
      (outcome = .valid ∧ (∀ x, sys.Reachable x → e.world.terms.Holds p x) ∨
        outcome = .invalid ∧ ∃ x, sys.Reachable x ∧ ¬ e.world.terms.Holds p x) := by
  obtain ⟨hu, hn⟩ := hbuilt.canonical
  have hnever : e.world.forward ≠ .reachable := by simp [hmode]
  have henough : Enough sys e.world config fuel := ⟨hfuel, fun h => absurd h hnever⟩
  have hends : Action.Ends (Engine.query backend config fuel sys p) e (fun _ => False) _ :=
    ends_query (fun h => absurd h hnever) (fun h => by simp [hgraphs] at h) (fits_word64 sys) hbuilt
      hp fun hnot => hnot henough
  obtain ⟨outcome, e', hrun, s, hs, _, hanswer⟩ := hends.exists_ok
  have hstats : e'.stats = s.stats := by simp [Engine.stats, hs]
  refine ⟨outcome, e', hrun, ?_⟩
  rw [hstats]
  cases outcome with
  | valid =>
      obtain ⟨hsafe, hrounds⟩ := hanswer.safe
      exact ⟨Nat.le_of_eq hrounds, Or.inl ⟨rfl, fun x hx => hsafe.holds hu hn hp hx⟩⟩
  | invalid =>
      obtain ⟨hviolated, hrounds⟩ := hanswer.violated hu hp
      exact ⟨hrounds, Or.inr ⟨rfl, hviolated⟩⟩
  | interrupted =>
      cases hanswer with
      | interrupted _ hmode' _ _ _ => exact absurd hmode' hnever
  | unknown => cases hanswer

theorem forked_decided : ∃ outcome e',
    Engine.query backend {} 11 forked ⟨0⟩ (start .negation) = .ok outcome e' ∧
      e'.stats.rounds ≤ 1 ∧
      (outcome = .valid ∧ (∀ x, forked.Reachable x → words.Holds ⟨0⟩ x) ∨
        outcome = .invalid ∧ ∃ x, forked.Reachable x ∧ ¬ words.Holds ⟨0⟩ x) :=
  query_decides (e := start .negation) built_words ⟨_, rfl⟩ rfl rfl (by decide)

theorem query_valid_certificate (hbuilt : e.world.terms.Built sys.size)
    (hp : e.world.terms.Accepts p)
    (hrun : Engine.query backend config fuel sys p e = .ok .valid e') :
    ∃ fs, e'.invariant = some fs ∧ (∀ f ∈ fs, e'.world.terms.Accepts f) ∧
      (∀ x, sys.Initial x → ∀ f ∈ fs, e'.world.terms.Holds f x) ∧
      (∀ x y, (∀ f ∈ fs, e'.world.terms.Holds f x) → sys.Edge x y →
        ∀ f ∈ fs, e'.world.terms.Holds f y) ∧
      ∀ x, x < sys.size → (∀ f ∈ fs, e'.world.terms.Holds f x) → e.world.terms.Holds p x := by
  obtain ⟨hu, hn⟩ := hbuilt.canonical
  obtain ⟨s, hs, houtcome, hanswer⟩ := answers_of_ok hbuilt hp hrun
  cases hanswer with
  | proved hw hext hcert _ =>
      have hinvariant : e'.invariant = some s.frame.toList := by
        simp [Engine.invariant, Engine.outcome, Engine.frame, hs, houtcome]
      have hwithin : ∀ x, (∀ f ∈ s.frame.toList, e'.world.terms.Holds f x) ↔
          e'.world.terms.Within s.frame.toList x := fun x => by
        refine forall₂_congr fun f hf => ?_
        obtain ⟨r, hr⟩ := hcert.named f hf
        rw [Universe.holds_iff hr]
        exact ⟨fun hx t ht => hr.eq ht ▸ hx, fun hx => hx r hr⟩
      refine ⟨s.frame.toList, hinvariant, fun f hf => ?_, fun x hx => ?_, fun x y hx hedge => ?_,
        fun x hlt hx => ?_⟩
      · obtain ⟨r, hr⟩ := hcert.named f hf
        exact ⟨r, eval_eq hr⟩
      · exact (hwithin x).mpr (hcert.initial x hx)
      · exact (hwithin y).mpr (hcert.closed x y ((hwithin x).mp hx) hedge)
      · exact hp.holds_of_leaves hu (hn ▸ hlt) fun q r hq hr =>
          hcert.below q r x hq (hext.names hr) hlt ((hwithin x).mp hx)

theorem forked_certified : ∃ e' fs,
    Engine.query backend {} 11 forked ⟨0⟩ (start .negation) = .ok .valid e' ∧
      e'.invariant = some fs ∧ (∀ f ∈ fs, e'.world.terms.Accepts f) ∧
      (∀ x, forked.Initial x → ∀ f ∈ fs, e'.world.terms.Holds f x) ∧
      (∀ x y, (∀ f ∈ fs, e'.world.terms.Holds f x) → forked.Edge x y →
        ∀ f ∈ fs, e'.world.terms.Holds f y) ∧
      ∀ x, x < 4 → (∀ f ∈ fs, e'.world.terms.Holds f x) → words.Holds ⟨0⟩ x := by
  have hvalid : answer? (Engine.query backend {} 11 forked ⟨0⟩ (start .negation)) =
      some .valid := by decide +kernel
  obtain ⟨e', hrun⟩ := eq_ok_of_answer? hvalid
  obtain ⟨fs, hfs⟩ := query_valid_certificate built_words ⟨_, rfl⟩ hrun
  exact ⟨e', fs, hrun, hfs⟩

theorem query_invalid_trace (hbuilt : e.world.terms.Built sys.size) (hp : e.world.terms.Accepts p)
    (hrun : Engine.query backend config fuel sys p e = .ok .invalid e') :
    Run sys e'.world.trace ∧
      ((config.extend = true ∨
          ∃ q x, e.world.terms.Leaf p q ∧ sys.Initial x ∧ ¬ e.world.terms.Holds q x) →
        ∀ x ∈ e'.world.trace.getLast?, ¬ e.world.terms.Holds p x) ∧
      (config.extend = true →
        (∀ q x, e.world.terms.Leaf p q → sys.Initial x → e.world.terms.Holds q x) →
        ∃ l q, e'.lineage = some l ∧ e.world.terms.Leaf p q ∧ l.isProperty q = true ∧
          l.invalidFrame? q = some (e'.world.trace.length - 1)) := by
  obtain ⟨hu, hn⟩ := hbuilt.canonical
  obtain ⟨s, hs, houtcome, hanswer⟩ := answers_of_ok hbuilt hp hrun
  have hproper := hp.proper hu
  cases hanswer with
  | falsified h _ =>
      -- the search was not entered
      obtain ⟨q, r, x, hq, hr, hx, hout, htrace⟩ := h.fails
      rw [htrace]
      refine ⟨⟨by simp, by simpa using hx, .singleton x⟩, fun _ y hy => ?_, fun _ hinit => ?_⟩
      · obtain rfl := Option.some.inj hy
        exact hp.not_holds hu hq hr hout
      · have hin := (Universe.holds_iff hr).mp (hinit q x hq hx)
        rw [hout] at hin
        cases hin
  | disproved h _ =>
      have hextend : config.extend = true →
          ∃ q r, s.lineage.isProperty q = true ∧ e.world.terms.Leaf p q ∧
            e.world.terms.Names q r ∧ (∀ x ∈ e'.world.trace.getLast?, r.contains x = false) ∧
            s.lineage.invalidFrame? q = some (e'.world.trace.length - 1) := fun hextend => by
        obtain ⟨q, r, hq, hr, hout, hmarked⟩ := h.exposed hextend
        have hleaf := (h.properties q).mp hq
        obtain ⟨t, ht⟩ := hproper.leaf_names hleaf
        obtain rfl := hr.eq (h.base.names ht)
        exact ⟨q, r, hq, hleaf, ht, hout, hmarked⟩
      refine ⟨h.run, fun hcase y hy => ?_, fun hyes _ => ?_⟩
      · rcases hcase with hyes | ⟨q, x, hq, hx, hfalse⟩
        · obtain ⟨q, r, _, hq, hr, hout, _⟩ := hextend hyes
          exact hp.not_holds hu hq hr (hout y hy)
        · obtain ⟨r, hr⟩ := hproper.leaf_names hq
          exact absurd ((Universe.holds_iff hr).mpr (h.initially q r x hq hr hx)) hfalse
      · obtain ⟨q, _, hprop, hq, _, _, hmarked⟩ := hextend hyes
        exact ⟨s.lineage, q, by simp [Engine.lineage, hs], hq, hprop, hmarked⟩

theorem forked_refuted : ∃ e',
    Engine.query backend {} 11 forked ⟨1⟩ (start .reachable) = .ok .invalid e' ∧
      Run forked e'.world.trace ∧
      (∀ x ∈ e'.world.trace.getLast?, ¬ words.Holds ⟨1⟩ x) ∧
      ((∀ q x, words.Leaf ⟨1⟩ q → forked.Initial x → words.Holds q x) →
        ∃ l q, e'.lineage = some l ∧ words.Leaf ⟨1⟩ q ∧ l.isProperty q = true ∧
          l.invalidFrame? q = some (e'.world.trace.length - 1)) := by
  have hinvalid : answer? (Engine.query backend {} 11 forked ⟨1⟩ (start .reachable)) =
      some .invalid := by decide +kernel
  obtain ⟨e', hrun⟩ := eq_ok_of_answer? hinvalid
  obtain ⟨htrace, hlast, hmarked⟩ := query_invalid_trace built_words ⟨_, rfl⟩ hrun
  exact ⟨e', hrun, htrace, hlast (Or.inl rfl), hmarked rfl⟩

/-- Whatever the way of learning, a violation is found in the first round; if there is none, only
the bound on rounds keeps the query from the answer. -/
theorem query_detects (hbuilt : e.world.terms.Built sys.size) (hp : e.world.terms.Accepts p)
    (hgraphs : config.saveGraphs = false) (hframes : 0 < config.maxFrames)
    (hfuel : config.maxFrames * (2 * sys.size + e.world.terms.length + 1) < fuel) :
    ∃ outcome e', Engine.query (backend .exact) config fuel sys p e = .ok outcome e' ∧
      (outcome = .invalid ∧ e'.stats.rounds ≤ 1 ∧
          (∃ x, sys.Reachable x ∧ ¬ e.world.terms.Holds p x) ∨
        (outcome = .valid ∧ e'.stats.rounds = 1 ∨
            outcome = .interrupted ∧ e'.stats.rounds = config.maxFrames) ∧
          ∀ x, sys.Reachable x → e.world.terms.Holds p x) := by
  obtain ⟨hu, hn⟩ := hbuilt.canonical
  have hmany : config.maxFrames * capacity sys e.world + config.maxFrames < fuel := by
    rw [← Nat.mul_succ]
    exact hfuel
  have hcapacity : capacity sys e.world ≤ config.maxFrames * capacity sys e.world :=
    Nat.le_mul_of_pos_left _ hframes
  have henough : Enough sys e.world config fuel :=
    ⟨by omega, fun _ => ⟨hframes, by omega, by rw [Nat.sub_zero]; omega⟩⟩
  have hends : Action.Ends (Engine.query (backend .exact) config fuel sys p) e (fun _ => False) _ :=
    ends_query (fun _ => ⟨fun _ h => (by cases h), fun _ h => (by cases h)⟩)
      (fun h => by simp [hgraphs] at h) (fits_exact _) hbuilt hp fun hnot => hnot henough
  obtain ⟨outcome, e', hrun, s, hs, _, hanswer⟩ := hends.exists_ok
  have hstats : e'.stats = s.stats := by simp [Engine.stats, hs]
  refine ⟨outcome, e', hrun, ?_⟩
  rw [hstats]
  cases outcome with
  | valid =>
      obtain ⟨hsafe, hrounds⟩ := hanswer.safe
      exact Or.inr ⟨Or.inl ⟨rfl, hrounds⟩, fun x hx => hsafe.holds hu hn hp hx⟩
  | invalid =>
      obtain ⟨hviolated, hrounds⟩ := hanswer.violated hu hp
      exact Or.inl ⟨rfl, hrounds, hviolated⟩
  | interrupted =>
      cases hanswer with
      | interrupted _ _ hsafe _ hrounds =>
          exact Or.inr ⟨Or.inr ⟨rfl, hrounds⟩, fun x hx => hsafe.holds hu hn hp hx⟩
  | unknown => cases hanswer

theorem forked_detected : ∃ outcome e',
    Engine.query (backend .exact) { maxFrames := 3 } 34 forked ⟨0⟩ (start .reachable) =
        .ok outcome e' ∧
      (outcome = .invalid ∧ e'.stats.rounds ≤ 1 ∧
          (∃ x, forked.Reachable x ∧ ¬ words.Holds ⟨0⟩ x) ∨
        (outcome = .valid ∧ e'.stats.rounds = 1 ∨
            outcome = .interrupted ∧ e'.stats.rounds = 3) ∧
          ∀ x, forked.Reachable x → words.Holds ⟨0⟩ x) :=
  query_detects (e := start .reachable) built_words ⟨_, rfl⟩ rfl (by decide) (by decide)

end Invariance.FiniteState
