import Invariance.Proofs.Agenda.Relocating
import Invariance.Proofs.Search.Splitting
import Invariance.Proofs.Transcripts.Aftermath
import Invariance.Proofs.Transcripts.Climbing

/-!
The leaves of a property, one after the other. Each is queried, and a leaf that the initial states
satisfy is registered when it is met for the first time. What a leaf adds to the log is known call by
call, and so is what the search has afterwards: the leaves that were met, in the frame, among the
literals and as obligations, whose scores count how often each of them was met.
-/

namespace Invariance

open Action

variable {S σ μ : Type}

def Score.bumped : Nat → Score
  | 0 => .zero
  | n + 1 => (bumped n).bump .one

/-- What the search owes for the leaf `f` when it has met the leaves `done`. -/
def due (neg : Formula → Formula) (done : List Formula) (f : Formula) : Obligation :=
  { forward := f, counter := neg f, depth := 0, score := .bumped (done.count f) }

theorem eraseDups_concat_of_mem {done : List Formula} {p : Formula} (h : p ∈ done) :
    (done ++ [p]).eraseDups = done.eraseDups := by
  rw [List.eraseDups_append, List.removeAll, List.filter_cons_of_neg (by simpa using h)]
  simp

theorem eraseDups_concat_of_not_mem {done : List Formula} {p : Formula} (h : p ∉ done) :
    (done ++ [p]).eraseDups = done.eraseDups ++ [p] := by
  rw [List.eraseDups_append, List.removeAll, List.filter_cons_of_pos (by simpa using h)]
  simp [List.eraseDups_cons]

/-- Meeting `p` once more is a bump of what is owed for it. -/
theorem map_due {neg : Formula → Formula} (hneg : Function.Injective neg) (done ls : List Formula)
    (p : Formula) : (ls.map (due neg done)).map (fun ob =>
      if ob.counter = neg p then ob.bump .one else ob) = ls.map (due neg (done ++ [p])) := by
  rw [List.map_map]
  refine List.map_congr_left fun f _ => ?_
  by_cases hf : f = p
  · subst hf
    simp [due, Obligation.bump, Score.bumped]
  · have hne : neg f ≠ neg p := fun heq => hf (hneg heq)
    simp [due, hne, Ne.symm hf]

theorem due_of_not_mem {neg : Formula → Formula} {done : List Formula} {p : Formula}
    (h : p ∉ done) :
    due neg done p = { forward := p, counter := neg p, depth := 0, score := .zero } := by
  rw [due, List.count_eq_zero.mpr h]
  rfl

theorem Frame.intermediate_enter {frame frame' : Frame} {f g : Formula} {role : Role}
    (h : frame.enter f role = .ok frame') : frame'.intermediate.contains g = true ↔
      role = .intermediate ∧ g = f ∨ frame.intermediate.contains g = true := by
  cases role <;> rw [enter] at h <;> split at h
  · cases h
  · obtain rfl := Except.ok.inj h
    simp [insert]
  · cases h
  · obtain rfl := Except.ok.inj h
    simp [FormulaSet.contains_insert]

namespace Call

def query? : Call μ → Option (Formula × InitAnswer μ)
  | .queried f (.ok answer) => some (f, answer)
  | _ => none

def registration? : Call μ → Option (Formula × Role)
  | .registered f role (.ok _) => some (f, role)
  | _ => none

def isChecked : Call μ → Bool
  | .checked .. => true
  | _ => false

/-- No call failed, formulas were negated by `neg`, and every query was decided. -/
structure Smooth (neg : Formula → Formula) (ℓ : List (Call μ)) : Prop where
  answered : ∀ c ∈ ℓ, c.fault? = none
  negated : ∀ {f g}, .negated f (.ok g) ∈ ℓ → g = neg f
  decided : ∀ f, .queried f (.ok .unknown) ∉ ℓ

theorem Smooth.tail {neg : Formula → Formula} {c : Call μ} {ℓ : List (Call μ)}
    (h : Smooth neg (c :: ℓ)) : Smooth neg ℓ where
  answered c' hc' := h.answered c' (List.mem_cons_of_mem _ hc')
  negated hf := h.negated (List.mem_cons_of_mem _ hf)
  decided f hf := h.decided f (List.mem_cons_of_mem _ hf)

theorem Smooth.earlier {neg : Formula → Formula} {ℓ ℓ' more : List (Call μ)} (h : Smooth neg ℓ')
    (hlog : ℓ'.reverse = ℓ.reverse ++ more) : Smooth neg ℓ := by
  have hs : ∀ {c}, c ∈ ℓ → c ∈ ℓ' := fun hc =>
    List.mem_reverse.mp (hlog ▸ List.mem_append_left _ (List.mem_reverse.mpr hc))
  exact ⟨fun c hc => h.answered c (hs hc), fun hf => h.negated (hs hf),
    fun f hf => h.decided f (hs hf)⟩

theorem Smooth.reverse {neg : Formula → Formula} {ℓ : List (Call μ)} (h : Smooth neg ℓ) :
    Smooth neg ℓ.reverse where
  answered c hc := h.answered c (List.mem_reverse.mp hc)
  negated hf := h.negated (List.mem_reverse.mp hf)
  decided f hf := h.decided f (List.mem_reverse.mp hf)

theorem Smooth.not_faulted {neg : Formula → Formula} {ℓ : List (Call μ)} {fault : Fault}
    (h : Smooth neg ℓ) (hfault : Faulted ℓ fault) : False := by
  obtain ⟨c, hc, hf⟩ := hfault
  rw [h.answered c hc] at hf
  cases hf

/-- `Smooth` of one call. -/
def isSmooth (neg : Formula → Formula) : Call μ → Bool
  | .negated f (.ok g) => g = neg f
  | .queried _ (.ok .unknown) => false
  | c => c.fault?.isNone

theorem smooth_of_all {neg : Formula → Formula} {ℓ : List (Call μ)}
    (h : ℓ.all (isSmooth neg) = true) : Smooth neg ℓ := by
  rw [List.all_eq_true] at h
  refine ⟨fun c hc => ?_, fun hf => ?_, fun f hf => ?_⟩
  · have hsmooth := h c hc
    unfold isSmooth at hsmooth
    split at hsmooth
    · rfl
    · rfl
    · exact Option.isNone_iff_eq_none.mp hsmooth
  · exact of_decide_eq_true (h _ hf)
  · cases h _ hf

/-- The calls for the leaf `p` after the leaves `done`. -/
def literal (neg : Formula → Formula) (done : List Formula) (p : Formula) : List (Call μ) :=
  [.negated p (.ok (neg p)), .queried (neg p) (.ok .unsat)] ++
    if p ∈ done then []
    else [.registered p .first (.ok ()), .registered p .intermediate (.ok ()),
      .negated (neg p) (.ok p)]

def literals (neg : Formula → Formula) : (done ls : List Formula) → List (Call μ)
  | _, [] => []
  | done, p :: ls => literal neg done p ++ literals neg (done ++ [p]) ls

/-- The calls for a leaf that an initial state falsifies. -/
def refusal (neg : Formula → Formula) (p : Formula) (model : Option μ) : List (Call μ) :=
  [.negated p (.ok (neg p)), .queried (neg p) (.ok (.sat model))] ++ model.toList.map .recorded

/-- The log goes from `ℓ` to `ℓ'` through the leaves `ls` up to one that is refused. -/
def Refused (neg : Formula → Formula) (done ls : List Formula) (ℓ : List (Call μ))
    (model : Option μ) (ℓ' : List (Call μ)) : Prop :=
  ∃ before p after, ls = before ++ p :: after ∧
    ℓ'.reverse = ℓ.reverse ++ (literals neg done before ++ refusal neg p model)

theorem Refused.earlier {neg : Formula → Formula} {done ls : List Formula} {ℓ ℓ' : List (Call μ)}
    {model : Option μ} (h : Refused neg done ls ℓ model ℓ') (hsmooth : Smooth neg ℓ') :
    Smooth neg ℓ := by
  obtain ⟨_, _, _, _, hlog⟩ := h
  exact hsmooth.earlier hlog

theorem Refused.cons {neg : Formula → Formula} {done ls : List Formula} {p : Formula}
    {ℓ ℓ₁ ℓ' : List (Call μ)} {model : Option μ}
    (hlog : ℓ₁.reverse = ℓ.reverse ++ literal neg done p)
    (h : Refused neg (done ++ [p]) ls ℓ₁ model ℓ') : Refused neg done (p :: ls) ℓ model ℓ' := by
  obtain ⟨before, f, after, rfl, hlog'⟩ := h
  refine ⟨p :: before, f, after, rfl, ?_⟩
  rw [hlog', hlog, literals, List.append_assoc, List.append_assoc]

end Call

namespace Action

variable {τ α : Type} {s : τ} {F : Fault → τ → Prop} {Q : α → τ → Prop} {act act' : Action τ α}

theorem Yields.of_run (h : act.Yields s F fun a t => act s = .ok a t → Q a t) :
    act.Yields s F Q := by
  rw [Yields] at h ⊢
  cases hrun : act s with
  | ok a t =>
      rw [hrun] at h
      exact h rfl
  | error fault t => rwa [hrun] at h

theorem Yields.congr (hrun : act s = act' s) (h : act'.Yields s F Q) : act.Yields s F Q := by
  rwa [Yields, hrun]

end Action

namespace Search

open Call

/-- The leaves `known` are registered and the leaves `done` have been met, and nothing else was
done. -/
structure Split (neg : Formula → Formula) (known done : List Formula) (s : Search) : Prop where
  frame : ∀ f, s.frame.contains f = true ↔ f ∈ known
  intermediate : ∀ f, s.frame.intermediate.contains f = true ↔ f ∈ known
  valid : s.agenda.Valid
  owed : s.agenda.Packed (known.eraseDups.map (due neg done))
  properties : ∀ f, s.lineage.isProperty f = true ↔ f ∈ done
  origins : s.lineage.origins = .empty
  holding : s.lineage.propertyInvalid = false
  staged : s.staged = []
  index : s.index = 0
  depth : s.depth = 1
  rounds : s.stats.rounds = 0

variable {B : Backend S σ μ} {neg : Formula → Formula} {s : Search} {w : σ} {ℓ : List (Call μ)}
  {p : Formula} {done : List Formula} {F : Fault → Search × σ × List (Call μ) → Prop}

theorem told_ofExcept {α : Type} {x : Except Violation α}
    {Q : α → Search × σ × List (Call μ) → Prop}
    (herror : ∀ v, x = .error v → F (.violation v) (s, w, ℓ))
    (hok : ∀ a, x = .ok a → Q a (s, w, ℓ)) :
    (ofExcept x).Yields (s, w, ℓ) F Q := by
  cases x with
  | ok a => exact hok a rfl
  | error v => exact herror v rfl

theorem told_change {f : Search → Search} {Q : Unit → Search × σ × List (Call μ) → Prop}
    (h : Q () (f s, w, ℓ)) : (change f).Yields (s, w, ℓ) F Q := h

theorem told_addToFrame (hF : Lax F) {f : Formula} {role : Role}
    {Q : Unit → Search × σ × List (Call μ) → Prop}
    (hno : ∀ v, s.frame.enter f role = .error v → F (.violation v) (s, w, ℓ))
    (h : ∀ frame w, s.frame.enter f role = .ok frame →
      Q () ({ s with frame, stats.frameSize := frame.size }, w,
        .registered f role (.ok ()) :: ℓ)) :
    (addToFrame B.logged f role).Yields (s, w, ℓ) F Q := by
  refine Yields.bind (Yields.within (Yields.bind (Yields.bind ?_)))
  change Yields (ofExcept (s.frame.enter f role)) (s.frame, w, ℓ) _ _
  cases henter : s.frame.enter f role with
  | error v => exact hno v henter
  | ok frame =>
      refine Yields.bind (Yields.within (yields_noting
        (fun answer _ => Call.registered f role answer) (fun fault w => ?_) fun _ w => ?_))
      · exact hF fault _ ⟨_, List.mem_cons_self, rfl⟩
      · exact h frame w henter

theorem told_clearFrame (hF : Lax F) {depth : Nat}
    {Q : Unit → Search × σ × List (Call μ) → Prop}
    (h : ∀ w, Q () ({ s with frame := .empty, stats.frameSize := 0 }, w,
      .reset depth (.ok ()) :: ℓ)) :
    (clearFrame B.logged depth).Yields (s, w, ℓ) F Q := by
  refine Yields.bind (Yields.within (Yields.bind (Yields.within (yields_noting
    (fun answer _ => Call.reset depth answer) (fun fault w => ?_) fun _ w => ?_))))
  · exact hF fault _ ⟨_, List.mem_cons_self, rfl⟩
  · exact h w

theorem told_enqueue (hF : Lax F) {ob : Obligation}
    {Q : Unit → Search × σ × List (Call μ) → Prop}
    (hno : ∀ r w, s.frame.contains r = false →
      F (.violation (.notRefuted ob.counter)) (s, w, .negated ob.counter (.ok r) :: ℓ))
    (hdup : ∀ r w v, s.agenda.push ob = .error v →
      F (.violation v) (s, w, .negated ob.counter (.ok r) :: ℓ))
    (h : ∀ r w slot agenda, s.agenda.push ob = .ok (slot, agenda) →
      Q () ({ s with agenda, stats.queueSize := agenda.size }, w,
        .negated ob.counter (.ok r) :: ℓ)) :
    (enqueue B.logged ob).Yields (s, w, ℓ) F Q := by
  refine Yields.bind (told_negate hF fun r w => Yields.bind (told_state
    (Yields.ite (fun _ => Yields.bind ?_) fun hcontains => Yields.bind ?_)))
  · exact told_ofExcept (fun v hv => hdup r w v hv) fun x hx => h r w x.1 x.2 hx
  · exact hno r w (eq_false_of_ne_true hcontains)

theorem told_bumped {counter : Formula} {Q : Unit → Search × σ × List (Call μ) → Prop}
    (hno : ∀ v, s.agenda.bump counter .one = .error v → F (.violation v) (s, w, ℓ))
    (h : ∀ found agenda, s.agenda.bump counter .one = .ok (found, agenda) →
      Q () ({ s with agenda }, w, ℓ)) :
    (bump counter).Yields (s, w, ℓ) F Q :=
  Yields.bind (told_state (Yields.bind (told_ofExcept hno fun x hx => h x.1 x.2 hx)))

/-- The rules of `addLiteral`, as far as they do not depend on what the search has met. -/
theorem told_addLiteral (hF : Lax F) {Q : Bool → Search × σ × List (Call μ) → Prop}
    (hunsat : ∀ g w, Yields (do
      unless s.frame.contains p do
        addToFrame B.logged p .first
        addToFrame B.logged p .intermediate
        enqueue B.logged { forward := p, counter := g, depth := 0, score := .zero }
      bump g
      change fun s => { s with lineage := s.lineage.addProperty p }
      return true)
      (s, w, .queried g (.ok .unsat) :: .negated p (.ok g) :: ℓ) F Q)
    (hunknown : ∀ fault g w, F fault (s, w, .queried g (.ok .unknown) :: .negated p (.ok g) :: ℓ))
    (hmissing : ∀ fault g w,
      F fault (s, w, .queried g (.ok (.sat none)) :: .negated p (.ok g) :: ℓ))
    (hsat : ∀ g model w, Q false
      ({ s with lineage := (s.lineage.addProperty p).markPropertyInvalid }, w,
        .recorded model :: .queried g (.ok (.sat (some model))) :: .negated p (.ok g) :: ℓ)) :
    (addLiteral B.logged p).Yields (s, w, ℓ) F Q := by
  refine Yields.bind (told_negate hF fun g w => Yields.bind
    (told_act hF (fun _ _ => rfl) fun answer w => ?_))
  cases answer with
  | unsat => exact hunsat g w
  | unknown => exact hunknown _ g w
  | sat model =>
      cases model with
      | none => exact hmissing _ g w
      | some model =>
          exact Yields.bind (told_report fun w => hsat g model _)

theorem lax_rough : Lax fun _ (t : Search × σ × List (Call μ)) => ¬ Smooth neg t.2.2 :=
  fun _ _ hfault hsmooth => hsmooth.not_faulted hfault

/-- A log that is not smooth does not become smooth again. -/
theorem rough_addLiteral (h : ¬ Smooth neg ℓ) :
    (addLiteral B.logged p).Yields (s, w, ℓ) (fun _ t => ¬ Smooth neg t.2.2)
      fun _ t => ¬ Smooth neg t.2.2 := by
  have htwo : ∀ {c c' : Call μ}, ¬ Smooth neg (c :: c' :: ℓ) := fun hs => h hs.tail.tail
  refine told_addLiteral lax_rough (fun g w => ?_) (fun _ _ _ => htwo) (fun _ _ _ => htwo)
    fun _ _ _ hs => h hs.tail.tail.tail
  have hend : ∀ {s w} {ℓ' : List (Call μ)}, ¬ Smooth neg ℓ' → Yields (do
      bump g
      change fun s => { s with lineage := s.lineage.addProperty p }
      return true : SearchM (σ × List (Call μ)) Bool)
      (s, w, ℓ') (fun _ t => ¬ Smooth neg t.2.2) fun _ t => ¬ Smooth neg t.2.2 := fun h =>
    Yields.bind (told_bumped (fun _ _ => h) fun _ _ _ => h)
  refine Yields.ite (fun _ => hend htwo) fun _ => Yields.bind ?_
  refine told_addToFrame lax_rough (fun _ _ => htwo) fun frame w _ => Yields.bind ?_
  refine told_addToFrame lax_rough (fun _ _ hs => htwo hs.tail) fun frame w _ => Yields.bind ?_
  have hfour : ∀ {c c' c'' d d' : Call μ}, ¬ Smooth neg (c'' :: c' :: c :: d :: d' :: ℓ) :=
    fun hs => htwo hs.tail.tail.tail
  exact told_enqueue lax_rough (fun _ _ _ => hfour) (fun _ _ _ _ => hfour)
    fun _ _ _ _ _ => hend hfour

/-- The end of a leaf that holds initially. -/
theorem split_end (hneg : Function.Involutive neg) {known : List Formula} {g : Formula}
    (hg : Smooth neg ℓ → g = neg p) (h : Smooth neg ℓ → Split neg known done s)
    {F : Fault → Search × σ × List (Call μ) → Prop}
    (hF : ∀ fault t, (Smooth neg t.2.2 → False) → F fault t) :
    Yields (do
      bump g
      change fun s => { s with lineage := s.lineage.addProperty p }
      return true : SearchM (σ × List (Call μ)) Bool) (s, w, ℓ) F
      fun b t => b = true ∧ t.2.2 = ℓ ∧ (Smooth neg ℓ → Split neg known (done ++ [p]) t.1) := by
  refine Yields.bind (told_bumped (fun v hv => hF _ _ fun hℓ => ?_) fun found agenda hbump =>
    ⟨rfl, rfl, fun hℓ => ?_⟩)
  · obtain ⟨q', hbump, _⟩ := Agenda.bump_eq (h hℓ).valid g .one
    cases hv.symm.trans hbump
  · obtain rfl := hg hℓ
    have hs := h hℓ
    obtain ⟨q', hbump', hvalid, _⟩ := Agenda.bump_eq hs.valid (neg p) .one
    cases hbump.symm.trans hbump'
    refine { hs with valid := hvalid, owed := ?_, properties := fun f => ?_ }
    · rw [← map_due hneg.injective]
      exact hs.owed.bump hs.valid hbump
    · rw [List.mem_append, List.mem_singleton, ← hs.properties f]
      simp [Lineage.isProperty, Lineage.addProperty, FormulaSet.contains_insert, or_comm]

theorem Split.contains_counter (hneg : Function.Involutive neg) (h : Split neg done done s) :
    s.agenda.contains (neg p) = true ↔ p ∈ done := by
  rw [h.owed.contains_iff h.valid, List.map_map, List.mem_map]
  constructor
  · rintro ⟨f, hf, heq⟩
    exact hneg.injective heq ▸ List.mem_eraseDups.mp hf
  · exact fun hp => ⟨p, List.mem_eraseDups.mpr hp, rfl⟩

theorem Split.fresh (hneg : Function.Involutive neg) (h : Split neg done done s) (hp : p ∉ done) :
    s.agenda.find? (neg p) = none :=
  h.valid.contains_eq_false.mp (eq_false_of_ne_true (mt (h.contains_counter hneg).mp hp))

/-- A leaf is registered when it is met for the first time. -/
theorem Split.register (hneg : Function.Involutive neg) (h : Split neg done done s)
    (hp : p ∉ done) {frame frame' : Frame} {agenda : Agenda} {slot : Nat}
    (hfirst : s.frame.enter p .first = .ok frame)
    (hintermediate : frame.enter p .intermediate = .ok frame')
    (hpush : s.agenda.push { forward := p, counter := neg p, depth := 0, score := .zero } =
      .ok (slot, agenda)) {stats : Statistics} (hrounds : stats.rounds = s.stats.rounds) :
    Split neg (done ++ [p]) done { s with frame := frame', agenda, stats } := by
  have hfresh : s.agenda.find? (due neg [] p).counter = none := h.fresh hneg hp
  obtain ⟨_, _, hpush', hvalid, _⟩ := Agenda.push_eq h.valid hfresh
  cases hpush.symm.trans hpush'
  refine { h with
    frame := fun f => ?_, intermediate := fun f => ?_, valid := hvalid, owed := ?_,
    rounds := hrounds.trans h.rounds }
  · rw [Frame.contains_enter hintermediate, Frame.contains_enter hfirst, h.frame]
    simp [or_comm]
  · rw [Frame.intermediate_enter hintermediate, Frame.intermediate_enter hfirst, h.intermediate]
    simp [or_comm]
  · rw [eraseDups_concat_of_not_mem hp, List.map_append, List.map_singleton, due_of_not_mem hp]
    exact h.owed.push hpush

theorem Split.again (h : Split neg done done s) (hp : p ∈ done) :
    Split neg (done ++ [p]) done s := by
  have hmem : ∀ f, f ∈ done ++ [p] ↔ f ∈ done := fun f => by
    rw [List.mem_append, List.mem_singleton, or_iff_left_of_imp fun hf => hf ▸ hp]
  exact { h with
    frame := fun f => (h.frame f).trans (hmem f).symm
    intermediate := fun f => (h.intermediate f).trans (hmem f).symm
    owed := eraseDups_concat_of_mem hp ▸ h.owed }

/-- The part of `addLiteral` that is for a leaf that has not been met. -/
theorem register_addLiteral (hneg : Function.Involutive neg) {g : Formula}
    (h : Split neg done done s) (hout : ¬ s.frame.contains p = true) :
    Yields (do
      addToFrame B.logged p .first
      addToFrame B.logged p .intermediate
      enqueue B.logged { forward := p, counter := g, depth := 0, score := .zero }
      bump g
      change fun s => { s with lineage := s.lineage.addProperty p }
      return true)
      (s, w, .queried g (.ok .unsat) :: .negated p (.ok g) :: ℓ)
      (fun _ t => Smooth neg t.2.2 → False)
      fun b t => Smooth neg t.2.2 → b = true ∧ Split neg (done ++ [p]) (done ++ [p]) t.1 ∧
        t.2.2.reverse = ℓ.reverse ++ literal neg done p := by
  have hp : p ∉ done := mt (h.frame p).mpr hout
  have hF : Lax fun _ (t : Search × σ × List (Call μ)) => ¬ Smooth neg t.2.2 := lax_rough
  refine Yields.bind (told_addToFrame hF (fun v hv _ => ?_) fun frame w hfirst => Yields.bind ?_)
  · rw [Frame.enter, if_neg hout] at hv
    cases hv
  refine told_addToFrame hF (fun v hv _ => ?_) fun frame' w hintermediate => Yields.bind ?_
  · have hfree : ¬ frame.intermediate.contains p = true := by
      rw [Frame.intermediate_enter hfirst, h.intermediate]
      simp [hp]
    rw [Frame.enter, if_neg hfree] at hv
    cases hv
  have hg : ∀ {r}, Smooth neg (.negated g (.ok r) :: .registered p .intermediate (.ok ()) ::
      .registered p .first (.ok ()) :: .queried g (.ok .unsat) :: .negated p (.ok g) :: ℓ) →
      g = neg p ∧ r = p := fun hsmooth => by
    have hr := hsmooth.negated List.mem_cons_self
    have hg := hsmooth.tail.tail.tail.tail.negated List.mem_cons_self
    exact ⟨hg, by rw [hr, hg, hneg p]⟩
  refine told_enqueue hF (fun r w hr hsmooth => ?_) (fun r w v hv hsmooth => ?_)
    fun r w slot agenda hpush => ?_
  · obtain ⟨-, rfl⟩ := hg hsmooth
    have hin : frame'.contains r = true :=
      (Frame.contains_enter hintermediate).mpr (Or.inr
        ((Frame.contains_enter hfirst).mpr (Or.inl ⟨rfl, rfl⟩)))
    rw [hin] at hr
    cases hr
  · obtain ⟨rfl, -⟩ := hg hsmooth
    have hfresh : s.agenda.find? (due neg [] p).counter = none := h.fresh hneg hp
    obtain ⟨_, _, hpush, _⟩ := Agenda.push_eq h.valid hfresh
    cases hv.symm.trans hpush
  · have hmet : g = neg p → ∀ stats : Statistics, stats.rounds = s.stats.rounds →
        Split neg (done ++ [p]) done { s with frame := frame', agenda, stats } := fun heq stats =>
      h.register hneg hp hfirst hintermediate (heq ▸ hpush)
    refine Yields.imp (split_end hneg (fun hsmooth => (hg hsmooth).1)
      (fun hsmooth => hmet (hg hsmooth).1 _ ?_) fun _ _ hno => hno) fun b t ht hsmooth => ?_
    · rfl
    obtain ⟨rfl, hlog, hsplit⟩ := ht
    rw [hlog] at hsmooth ⊢
    refine ⟨rfl, hsplit hsmooth, ?_⟩
    obtain ⟨rfl, rfl⟩ := hg hsmooth
    simp [literal, hp]

theorem split_addLiteral (hneg : Function.Involutive neg)
    (h : Smooth neg ℓ → Split neg done done s) :
    (addLiteral B.logged p).Yields (s, w, ℓ)
      (fun _ t => Smooth neg t.2.2 → t.2.2.reverse = ℓ.reverse ++ refusal neg p none)
      fun b t => Smooth neg t.2.2 →
        b = true ∧ Split neg (done ++ [p]) (done ++ [p]) t.1 ∧
            t.2.2.reverse = ℓ.reverse ++ literal neg done p ∨
          b = false ∧ t.1.stats.rounds = 0 ∧
            ∃ model, t.2.2.reverse = ℓ.reverse ++ refusal neg p (some model) := by
  by_cases hℓ : Smooth neg ℓ
  swap
  · exact (rough_addLiteral hℓ).mono (fun _ _ hrough hs => absurd hs hrough)
      fun _ _ hrough hs => absurd hs hrough
  have hs := h hℓ
  have hF : Lax fun _ (t : Search × σ × List (Call μ)) => Smooth neg t.2.2 →
      t.2.2.reverse = ℓ.reverse ++ refusal neg p none := fun _ _ hfault hsmooth =>
    (hsmooth.not_faulted hfault).elim
  have hnegated : ∀ {c : Call μ} {g : Formula}, Smooth neg (c :: .negated p (.ok g) :: ℓ) →
      g = neg p := fun hsmooth => hsmooth.tail.negated List.mem_cons_self
  refine told_addLiteral hF (fun g w => ?_) (fun _ g w hsmooth => ?_) (fun _ g w hsmooth => ?_)
    fun g model w hsmooth => ?_
  · refine Yields.ite (fun hin => ?_) fun hout => ?_
    · have hp : p ∈ done := (hs.frame p).mp hin
      refine (split_end hneg hnegated (fun _ => hs.again hp)
        fun _ _ hno hsmooth => (hno hsmooth).elim).imp fun b t ht hsmooth => Or.inl ?_
      obtain ⟨rfl, hlog, hsplit⟩ := ht
      rw [hlog] at hsmooth ⊢
      refine ⟨rfl, hsplit hsmooth, ?_⟩
      rw [hnegated hsmooth]
      simp [literal, hp]
    · refine (register_addLiteral hneg hs hout).mono
        (fun _ _ hno hsmooth => (hno hsmooth).elim) fun b t ht hsmooth => Or.inl (ht hsmooth)
  · exact absurd List.mem_cons_self (hsmooth.decided g)
  · rw [hnegated hsmooth]
    simp [refusal]
  · refine Or.inr ⟨rfl, hs.rounds, model, ?_⟩
    rw [hnegated hsmooth.tail]
    simp [refusal]

/-- The loop over the leaves. -/
theorem split_allM (hneg : Function.Involutive neg) : ∀ {ls done : List Formula} {s : Search}
    {w : σ} {ℓ : List (Call μ)}, (Smooth neg ℓ → Split neg done done s) →
    (ls.allM (addLiteral B.logged)).Yields (s, w, ℓ)
      (fun _ t => Smooth neg t.2.2 → Refused neg done ls ℓ none t.2.2)
      fun b t => Smooth neg t.2.2 →
        b = true ∧ Split neg (done ++ ls) (done ++ ls) t.1 ∧
            t.2.2.reverse = ℓ.reverse ++ literals neg done ls ∨
          b = false ∧ t.1.stats.rounds = 0 ∧ ∃ model, Refused neg done ls ℓ (some model) t.2.2
  | [], done, s, w, ℓ, h => by
      refine yields_pure fun hsmooth => Or.inl ⟨rfl, ?_, ?_⟩
      · rw [List.append_nil]
        exact h hsmooth
      · rw [literals, List.append_nil]
  | p :: ls, done, s, w, ℓ, h => by
      refine Yields.bind ((split_addLiteral hneg h).mono (fun _ t ht hsmooth => ?_)
        fun b t ht => ?_)
      · exact ⟨[], p, ls, rfl, by rw [ht hsmooth, literals, List.nil_append]⟩
      · cases b with
        | false =>
            refine yields_pure fun hsmooth => ?_
            obtain ⟨hb, _⟩ | ⟨-, hrounds, model, hlog⟩ := ht hsmooth
            · cases hb
            · exact Or.inr ⟨rfl, hrounds, model, [], p, ls, rfl,
                by rw [hlog, literals, List.nil_append]⟩
        | true =>
            have hmet : Smooth neg t.2.2 → Split neg (done ++ [p]) (done ++ [p]) t.1 ∧
                t.2.2.reverse = ℓ.reverse ++ literal neg done p := fun hsmooth => by
              obtain ⟨-, hmet⟩ | ⟨hb, _⟩ := ht hsmooth
              · exact hmet
              · cases hb
            refine (split_allM hneg fun hsmooth => (hmet hsmooth).1).mono
              (fun _ t' ht' hsmooth => ?_) fun b t' ht' hsmooth => ?_
            · exact (ht' hsmooth).cons (hmet ((ht' hsmooth).earlier hsmooth)).2
            · obtain ⟨hb, hsplit, hlog⟩ | ⟨hb, hrounds, model, hrefused⟩ := ht' hsmooth
              · refine Or.inl ⟨hb, List.append_cons done p ls ▸ hsplit, ?_⟩
                rw [hlog, (hmet (hsmooth.earlier hlog)).2, literals, List.append_assoc]
              · exact Or.inr ⟨hb, hrounds, model,
                  hrefused.cons (hmet (hrefused.earlier hsmooth)).2⟩

end Search

end Invariance
