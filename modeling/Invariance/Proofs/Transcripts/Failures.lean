import Invariance.Proofs.Transcripts.Calls
import Invariance.Proofs.Transcripts.Rules

/-!
Who is to blame. A search stops with an error only if a call failed or was answered with less than
the search needs there, and it stops with the error of the first such call. What it opened on the
trace solver is closed by then.
-/

namespace Invariance

variable {S σ μ α β : Type}

def Fault.error? : Fault → Option CheckError
  | .error e => some e
  | _ => none

/-- A formula that is to be kept need only be inductive or not; if it is to be refuted, a
counter-state and a model of it are needed as well. -/
def InductionAnswer.error? (refuting : Bool) : InductionAnswer μ → Option CheckError
  | .unsat => none
  | .unknown => some (.solverUnknown "induction check")
  | .sat none _ => if refuting then some (.missingWitness "a generalization") else none
  | .sat (some _) none => if refuting then some (.missingWitness "a counter-model") else none
  | .sat (some _) (some _) => none

def InitAnswer.error? : InitAnswer μ → Option CheckError
  | .unsat => none
  | .unknown => some (.solverUnknown "initial-state query")
  | .sat none => some (.missingWitness "an initial-state model")
  | .sat (some _) => none

namespace Call

/-- The error that a call gives rise to. -/
def error? (refuting : Bool) : Call μ → Option CheckError
  | .checked _ (.ok answer) => answer.error? refuting
  | .queried _ (.ok answer) => answer.error?
  | c => c.fault?.bind Fault.error?

def frank : Call μ → Bool
  | .checked .. | .queried .. | .pushed | .popped _ => false
  | _ => true

/-- By how much a call changes the number of open scopes. -/
def scope : Call μ → Int
  | .pushed => 1
  | .popped (.ok _) => -1
  | _ => 0

/-- The candidate of an obligation is checked right after its refutation was found inductive, and
only then: before every other check something is negated. -/
def refutesNext : List (Call μ) → Bool
  | .checked _ (.ok .unsat) :: _ => false
  | _ => true

/-- The error of the first call in a log that gives rise to one. -/
def blame : List (Call μ) → Option CheckError
  | [] => none
  | c :: ℓ => (blame ℓ).or (c.error? (refutesNext ℓ))

def scopes : List (Call μ) → Int
  | [] => 0
  | c :: ℓ => scopes ℓ + c.scope

theorem error?_of_frank {c : Call μ} (h : c.frank = true) (refuting : Bool) :
    c.error? refuting = c.fault?.bind Fault.error? := by
  cases c with
  | checked | queried => cases h
  | _ => rfl

theorem scope_of_frank {c : Call μ} (h : c.frank = true) : c.scope = 0 := by
  cases c with
  | pushed | popped => cases h
  | _ => rfl

theorem blame_cons {c : Call μ} {ℓ : List (Call μ)} (h : blame ℓ = none) :
    blame (c :: ℓ) = c.error? (refutesNext ℓ) := by
  rw [blame, h, Option.none_or]

end Call

namespace Search

open Call

variable {γ γ' : Type} {B : Backend S σ μ} {config : Config} {t : γ × σ × List (Call μ)}
  {ℓ ℓ' : List (Call μ)}

/-- How an effect that began with the log `ℓ` may come to a fault: with the error that is to blame,
or out of fuel without one. Nothing is said of a broken contract. -/
def Owned (ℓ : List (Call μ)) : Fault → γ × σ × List (Call μ) → Prop
  | .error e, t => blame t.2.2 = some e ∧ scopes t.2.2 = scopes ℓ
  | .outOfFuel, t => blame t.2.2 = none
  | .violation _, _ => True

theorem Owned.after {fault : Fault} (h : scopes ℓ' = scopes ℓ) (h' : Owned ℓ' fault t) :
    Owned ℓ fault t := by
  cases fault with
  | error e => exact ⟨h'.1, h'.2.trans h⟩
  | violation v => trivial
  | outOfFuel => exact h'

def OwnsFrom (act : Action (γ × σ × List (Call μ)) α) (t : γ × σ × List (Call μ)) : Prop :=
  act.Yields t (Owned t.2.2) fun _ t' => blame t'.2.2 = none ∧ scopes t'.2.2 = scopes t.2.2

/-- An effect that goes on only as long as no call is to blame, and stops with the error of the
first one that is. -/
def Owns (act : Action (γ × σ × List (Call μ)) α) : Prop :=
  ∀ t, blame t.2.2 = none → OwnsFrom act t

section Rules

variable {act other : Action (γ × σ × List (Call μ)) α}
  {next : α → Action (γ × σ × List (Call μ)) β}

theorem OwnsFrom.after (h : scopes t.2.2 = scopes ℓ) (hact : OwnsFrom act t) :
    act.Yields t (Owned ℓ) fun _ t' => blame t'.2.2 = none ∧ scopes t'.2.2 = scopes ℓ :=
  hact.mono (fun _ _ => .after h) fun _ _ h' => ⟨h'.1, h'.2.trans h⟩

theorem OwnsFrom.bind (h : OwnsFrom act t) (hnext : ∀ a, Owns (next a)) :
    OwnsFrom (act >>= next) t :=
  Action.Yields.bind (h.imp fun a t' h => OwnsFrom.after h.2 (hnext a t' h.1))

theorem Owns.bind (h : Owns act) (hnext : ∀ a, Owns (next a)) : Owns (act >>= next) :=
  fun t ht => (h t ht).bind hnext

theorem Owns.start (h : Owns act) (ht : blame t.2.2 = none) : OwnsFrom act t := h t ht

theorem Owns.ite {c : Prop} [Decidable c] (h : Owns act) (hother : Owns other) :
    Owns (if c then act else other) := by
  split
  · exact h
  · exact hother

theorem Owns.guard {c : Prop} [Decidable c] {b : Action (γ × σ × List (Call μ)) β} (hb : Owns b)
    (h : Owns act) : Owns (if c then act else b >>= fun _ => act) :=
  .ite h (hb.bind fun _ => h)

theorem Owns.refuse {c : Prop} [Decidable c] {b : Action (γ × σ × List (Call μ)) β} (hb : Owns b)
    (h : Owns act) : Owns (if c then b >>= fun _ => act else act) :=
  .ite (hb.bind fun _ => h) h

theorem Owns.within (h : Owns act) (part : γ' → γ) (replace : γ → γ' → γ') :
    Owns (Action.within (fun t : γ' × σ × List (Call μ) => (part t.1, t.2))
      (fun x t => (replace x.1 t.1, x.2)) act) := fun t ht =>
  .within ((h (part t.1, t.2) ht).mono (fun fault _ h => by cases fault <;> exact h)
    fun _ _ h => h)

end Rules

theorem owns_pure (a : α) : Owns (pure a : Action (γ × σ × List (Call μ)) α) :=
  fun _ ht => ⟨ht, rfl⟩

theorem owns_modify (m : γ → γ) :
    Owns (modify fun t => (m t.1, t.2) : Action (γ × σ × List (Call μ)) PUnit) :=
  fun _ ht => ⟨ht, rfl⟩

theorem owns_violate (v : Violation) :
    Owns (Action.violate v : Action (γ × σ × List (Call μ)) α) := fun _ _ => trivial

theorem owns_outOfFuel : Owns (throw .outOfFuel : Action (γ × σ × List (Call μ)) α) :=
  fun _ ht => ht

theorem owns_ofExcept (x : Except Violation α) :
    Owns (Action.ofExcept x : Action (γ × σ × List (Call μ)) α) := by
  cases x with
  | ok a => exact owns_pure a
  | error v => exact owns_violate v

theorem owns_state : Owns (state : SearchM (σ × List (Call μ)) Search) := fun _ ht => ⟨ht, rfl⟩

theorem owns_ask (m : σ × List (Call μ) → α) : Owns (ask m) := fun _ ht => ⟨ht, rfl⟩

theorem owns_change (m : Search → Search) :
    Owns (change m : SearchM (σ × List (Call μ)) Unit) := fun _ ht => ⟨ht, rfl⟩

theorem owns_update (m : σ → σ) : Owns (update fun w : σ × List (Call μ) => (m w.1, w.2)) :=
  fun _ ht => ⟨ht, rfl⟩

/-- A failure of the call is to blame for its error; the call opens and closes nothing. -/
structure Plain (note : Except Fault α → σ → Call μ) : Prop where
  failed : ∀ fault w refuting, (note (.error fault) w).error? refuting = fault.error?
  scope : ∀ answer w, (note answer w).scope = 0

/-- An answer is never to blame. -/
def Frank (note : Except Fault α → σ → Call μ) : Prop :=
  ∀ answer w, (note answer w).fault? = faultOf answer ∧ (note answer w).frank = true

section Calls

variable {note : Except Fault α → σ → Call μ}

theorem Frank.plain (h : Frank note) : Plain note where
  failed fault w refuting := by
    obtain ⟨hfault, hfrank⟩ := h (.error fault) w
    rw [error?_of_frank hfrank, hfault]
    rfl
  scope answer w := scope_of_frank (h answer w).2

theorem Plain.scopes (h : Plain note) (answer : Except Fault α) (w : σ) :
    scopes (note answer w :: ℓ) = scopes ℓ := by
  rw [Call.scopes, h.scope, Int.add_zero]

theorem Plain.owned (h : Plain note) (hℓ : blame ℓ = none) (fault : Fault) (w : σ) (x : γ) :
    Owned ℓ fault (x, w, note (.error fault) w :: ℓ) := by
  have hblame : blame (note (.error fault) w :: ℓ) = fault.error? := by
    rw [blame_cons hℓ, h.failed]
  cases fault with
  | error e => exact ⟨hblame, h.scopes _ w⟩
  | violation v => trivial
  | outOfFuel => exact hblame

theorem Frank.kept (h : Frank note) (hℓ : blame ℓ = none) (a : α) (w : σ) :
    blame (note (.ok a) w :: ℓ) = none ∧ scopes (note (.ok a) w :: ℓ) = scopes ℓ := by
  obtain ⟨hfault, hfrank⟩ := h (.ok a) w
  refine ⟨?_, h.plain.scopes _ w⟩
  rw [blame_cons hℓ, error?_of_frank hfrank, hfault]
  rfl

theorem owns_act (h : Frank note) (action : Action σ α) :
    Owns (Action.within Prod.snd (fun w (t : γ × σ × List (Call μ)) => (t.1, w))
      (noting id note action)) := fun _ ht =>
  .within (Action.yields_noting note (fun fault w => (Frank.plain h).owned ht fault w _)
    fun a w => Frank.kept h ht a w)

theorem owns_step (h : Frank note) (action : Step σ α) :
    Owns (step (noting .violation note action)) := fun _ ht =>
  .within (Action.yields_ofStep_noting note (fun _ _ => trivial) fun a w => Frank.kept h ht a w)

/-- Where an answer may be to blame, the search has to stop with its error. -/
theorem OwnsFrom.answer {t : Search × σ × List (Call μ)}
    (note : Except Fault α → σ → Call μ) {action : Action σ α}
    {next : α → SearchM (σ × List (Call μ)) β} (h : Plain note) (ht : blame t.2.2 = none)
    (herror : ∀ a w e, (note (.ok a) w).error? (refutesNext t.2.2) = some e →
      next a = Action.fail e)
    (hnext : ∀ a w, (note (.ok a) w).error? (refutesNext t.2.2) = none →
      OwnsFrom (next a) (t.1, w, note (.ok a) w :: t.2.2)) :
    OwnsFrom (act (noting id note action) >>= next) t := by
  refine Action.Yields.bind (Action.Yields.within (Action.yields_noting note
    (fun fault w => h.owned ht fault w _) fun a w => ?_))
  cases hanswer : (note (.ok a) w).error? (refutesNext t.2.2) with
  | none => exact OwnsFrom.after (h.scopes _ w) (hnext a w hanswer)
  | some e =>
      rw [herror a w e hanswer]
      exact ⟨(blame_cons ht).trans hanswer, h.scopes _ w⟩

end Calls

theorem owns_report (level : Level) (message : String)
    (fields : Search → (Formula → String) → List (String × Field)) :
    Owns (report B.logged level message fields) := fun _ ht => ⟨ht, rfl⟩

theorem owns_negate (f : Formula) : Owns (negate B.logged f) :=
  owns_step (fun _ _ => ⟨rfl, rfl⟩) _

theorem owns_checkedAdd (a b : Nat) : Owns (checkedAdd B.logged a b) := owns_ofExcept _

theorem owns_forM {action : β → SearchM (σ × List (Call μ)) PUnit} (h : ∀ b, Owns (action b)) :
    ∀ l : List β, Owns (l.forM action)
  | [] => owns_pure _
  | b :: l => (h b).bind fun _ => owns_forM h l

theorem owns_allM {action : β → SearchM (σ × List (Call μ)) Bool} (h : ∀ b, Owns (action b)) :
    ∀ l : List β, Owns (l.allM action)
  | [] => owns_pure _
  | b :: l => (h b).bind fun
      | true => owns_allM h l
      | false => owns_pure _

theorem owns_filterM {action : β → SearchM (σ × List (Call μ)) Bool} (h : ∀ b, Owns (action b))
    (l : List β) : Owns (l.filterM action) := by
  have key : ∀ l acc, Owns (List.filterAuxM action l acc) := by
    intro l
    induction l with
    | nil => exact fun acc => owns_pure _
    | cons b l ih => exact fun acc => (h b).bind fun _ => ih _
  exact (key l []).bind fun _ => owns_pure _

/-! The frame. -/

theorem owns_onFrame {action : Action (Frame × σ × List (Call μ)) Unit} (h : Owns action) :
    Owns (onFrame action) := by
  refine .bind ?_ fun _ => owns_change _
  exact h.within Search.frame fun frame s => { s with frame }

theorem owns_addToFrame (f : Formula) (role : Role) : Owns (addToFrame B.logged f role) := by
  have hrest : ∀ frame : Frame, Owns (do
      let frame ← Action.ofExcept (frame.enter f role)
      modify fun t => (frame, t.2)
      Action.within Prod.snd (fun w t => (t.1, w)) (B.logged.oracle.register f role)) := fun _ =>
    (owns_ofExcept _).bind fun frame => (owns_modify fun _ => frame).bind fun _ =>
      owns_act (fun _ _ => ⟨rfl, rfl⟩) _
  exact owns_onFrame fun t ht => hrest t.1 t ht

theorem owns_clearFrame (depth : Nat) : Owns (clearFrame B.logged depth) := by
  refine owns_onFrame (.bind (owns_modify fun _ => Frame.empty) fun _ => ?_)
  exact owns_act (fun _ _ => ⟨rfl, rfl⟩) _

theorem owns_enqueue (ob : Obligation) : Owns (enqueue B.logged ob) :=
  (owns_negate _).bind fun _ => owns_state.bind fun _ =>
    .guard (owns_violate _) ((owns_ofExcept _).bind fun ⟨_, _⟩ => owns_change _)

theorem owns_pop : Owns (pop : SearchM (σ × List (Call μ)) Obligation) :=
  owns_state.bind fun _ => (owns_ofExcept _).bind fun ⟨_, _⟩ =>
    (owns_change _).bind fun _ => owns_pure _

theorem owns_bump (counter : Formula) : Owns (bump counter : SearchM (σ × List (Call μ)) Unit) :=
  owns_state.bind fun _ => (owns_ofExcept _).bind fun ⟨_, _⟩ => owns_change _

theorem owns_checkRefutations : Owns (checkRefutations B.logged) :=
  owns_state.bind fun _ => (owns_ofExcept _).bind fun _ => owns_forM (fun _ =>
    (owns_negate _).bind fun _ => owns_state.bind fun _ =>
      .ite (owns_pure _) (owns_violate _)) _

theorem owns_markInvalid (f : Formula) (frame : Nat) :
    Owns (markInvalid f frame : SearchM (σ × List (Call μ)) Unit) :=
  owns_state.bind fun _ =>
    .guard (owns_violate _) ((owns_ofExcept _).bind fun _ => owns_change _)

/-! Counterexamples. -/

theorem owns_assertFalseAt (f : Formula) (k : Nat) : Owns (assertFalseAt B.logged f k) :=
  (owns_update _).bind fun _ => (owns_negate _).bind fun _ =>
    (owns_step (fun _ _ => ⟨rfl, rfl⟩) _).bind fun _ => owns_act (fun _ _ => ⟨rfl, rfl⟩) _

theorem owns_assertTrace : ∀ (k : Nat) (trace : List Formula),
    Owns (assertTrace B.logged k trace)
  | _, [] => owns_pure _
  | k, _ :: rest => (owns_step (fun _ _ => ⟨rfl, rfl⟩) _).bind fun _ =>
      (owns_act (fun _ _ => ⟨rfl, rfl⟩) _).bind fun _ => owns_assertTrace (k + 1) rest

theorem owns_record (model : μ) : Owns (update (B.logged.recorder.record model)) := fun _ ht =>
  ⟨(blame_cons ht).trans rfl, Int.add_zero _⟩

theorem owns_recordModel : Owns (recordModel B.logged) :=
  (owns_act (fun _ _ => ⟨rfl, rfl⟩) _).bind owns_record

theorem owns_climb : ∀ (bound : Nat) (f : Formula) (k : Nat), Owns (climb B.logged bound f k)
  | 0, _, _ => owns_outOfFuel
  | bound + 1, f, k => by
      refine (owns_change _).bind fun _ => (owns_negate _).bind fun _ =>
        (owns_bump _).bind fun _ => owns_state.bind fun s => ?_
      cases s.lineage.origin? f with
      | none => exact .ite ((owns_ask _).bind fun _ => owns_report _ _ _) (owns_pure _)
      | some origin =>
          refine (owns_checkedAdd _ _).bind fun _ => .ite (owns_pure _) ?_
          refine (owns_assertFalseAt _ _).bind fun _ =>
            (owns_act (fun _ _ => ⟨rfl, rfl⟩) _).bind fun _ => .ite ?_ (owns_report _ _ _)
          exact (owns_markInvalid _ _).bind fun _ => owns_recordModel.bind fun _ =>
            (owns_report _ _ _).bind fun _ => owns_climb bound _ _

theorem owns_lastFrame (trace : List Formula) : Owns (lastFrame B.logged trace) :=
  owns_state.bind fun _ => owns_checkedAdd _ _

theorem owns_extendInScope (f : Formula) (trace : List Formula) :
    Owns (extendInScope B.logged config f trace) :=
  (owns_assertTrace _ _).bind fun _ => (owns_lastFrame _).bind fun _ =>
    (owns_assertFalseAt _ _).bind fun _ => (owns_act (fun _ _ => ⟨rfl, rfl⟩) _).bind fun _ =>
      .guard (owns_violate _) <| owns_recordModel.bind fun _ =>
        .ite (owns_state.bind fun _ => owns_climb _ _ _) (owns_pure _)

theorem scopes_leave (h : scopes ℓ' = scopes (.pushed :: ℓ)) :
    scopes (.popped (.ok ()) :: ℓ') = scopes ℓ := by
  rw [Call.scopes, h]
  exact Int.add_neg_cancel_right _ 1

/-- Also an error leaves the scope. -/
theorem owns_extendFailure (f : Formula) : Owns (extendFailure B.logged config f) := by
  refine (owns_ask _).bind fun trace => .refuse (owns_violate _) <| owns_state.bind fun _ =>
    (owns_lastFrame _).bind fun _ => .guard (owns_violate _) <|
      (owns_checkedAdd _ _).bind fun _ => (owns_update _).bind fun _ => ?_
  refine fun t ht => Action.Yields.bind ?_
  have hinside : OwnsFrom (extendInScope B.logged config f trace)
      (t.1, B.solver.push t.2.1, .pushed :: t.2.2) :=
    owns_extendInScope f trace _ ((blame_cons ht).trans rfl)
  refine Action.Yields.bind ((Action.Yields.caught hinside).mono (fun fault t' h => ?_)
    fun result t' h => Action.Yields.bind (Action.Yields.within
      (Action.yields_ofStep_noting _ (fun _ _ => trivial) fun _ w => ?_)))
  · obtain ⟨howned, hne⟩ := h
    cases fault with
    | error e => exact absurd rfl (hne e)
    | violation v => trivial
    | outOfFuel => exact howned
  · have hsame : blame (.popped (.ok ()) :: t'.2.2) = blame t'.2.2 := Option.or_none
    rcases h with ⟨a, rfl, hnone, hkept⟩ | ⟨e, rfl, hblame, hkept⟩
    · exact ⟨hsame.trans hnone, scopes_leave hkept⟩
    · exact ⟨hsame.trans hblame, scopes_leave hkept⟩

theorem owns_failInduction (refutation : Formula) :
    Owns (failInduction B.logged config refutation) :=
  (owns_ask _).bind fun _ => .refuse (owns_violate _) <| (owns_lastFrame _).bind fun _ =>
    (owns_report _ _ _).bind fun _ => (owns_markInvalid _ _).bind fun _ =>
      (owns_change _).bind fun _ => owns_extendFailure _

/-! Obligations. -/

theorem owns_carry (ob : Obligation) (forward : Formula) : Owns (carry B.logged ob forward) :=
  (owns_change _).bind fun _ => (owns_act (fun _ _ => ⟨rfl, rfl⟩) _).bind fun _ =>
    (owns_act (fun _ _ => ⟨rfl, rfl⟩) _).bind fun _ => (owns_change _).bind fun _ => owns_pure _

theorem owns_weaken (ob : Obligation) (refutation : Formula) :
    Owns (weaken B.logged ob refutation) :=
  (owns_act (fun _ _ => ⟨rfl, rfl⟩) _).bind fun _ => (owns_change _).bind fun _ =>
    (owns_step (fun _ _ => ⟨rfl, rfl⟩) _).bind fun _ => (owns_change _).bind fun _ =>
      (owns_change _).bind fun _ => owns_checkRefutations.bind fun _ =>
        (owns_report _ _ _).bind fun _ => owns_pure _

theorem owns_refine (ob : Obligation) (refutation counter : Formula) :
    Owns (refine B.logged ob refutation counter) :=
  (owns_negate _).bind fun _ => (owns_report _ _ _).bind fun _ => owns_state.bind fun _ =>
    (owns_act (fun _ _ => ⟨rfl, rfl⟩) _).bind fun _ => (owns_report _ _ _).bind fun _ =>
      (owns_addToFrame _ _).bind fun _ => (owns_change _).bind fun _ =>
        (owns_change _).bind fun _ => owns_state.bind fun _ => (owns_change _).bind fun _ =>
          (owns_checkedAdd _ _).bind fun _ => (owns_report _ _ _).bind fun _ =>
            (owns_enqueue _).bind fun _ => owns_pure _

theorem owns_answerCounter (ob : Obligation) (refutation counter : Formula) (model : μ) :
    Owns (answerCounter B.logged config ob refutation counter model) :=
  (owns_report _ _ _).bind fun _ => owns_state.bind fun _ => (owns_ofExcept _).bind fun ⟨_, _⟩ =>
    (owns_act (fun _ _ => ⟨rfl, rfl⟩) _).bind fun _ => (owns_report _ _ _).bind fun _ =>
      .ite ((owns_failInduction _).bind fun _ => owns_pure _) (owns_refine _ _ _)

/-- Right after a refutation was found inductive. -/
theorem owns_stage {t : Search × σ × List (Call μ)} (ob : Obligation) (refutation : Formula)
    (ht : blame t.2.2 = none) (hnext : refutesNext t.2.2 = false) :
    OwnsFrom (stage B.logged ob refutation) t := by
  refine Action.Yields.bind (OwnsFrom.after (t := (t.1, B.reports.report _ t.2.1, t.2.2)) rfl ?_)
  refine OwnsFrom.answer (fun answer _ => .checked ob.forward answer)
    ⟨fun _ _ _ => rfl, fun _ _ => rfl⟩ ht
    (fun answer _ e he => ?_) fun answer w he => ?_
  · change answer.error? (refutesNext t.2.2) = some e at he
    rw [hnext] at he
    match answer, he with
    | .unknown, he =>
        obtain rfl := Option.some.inj he
        rfl
  · have hchecked : blame (.checked ob.forward (.ok answer) :: t.2.2) = none :=
      (blame_cons ht).trans he
    match answer with
    | .unsat => exact owns_carry ob ob.forward _ hchecked
    | .sat _ _ => exact ((owns_weaken ob refutation).bind fun _ => owns_carry ob _) _ hchecked
    | .unknown => cases he

theorem owns_push (ob : Obligation) : Owns (push B.logged config ob) := by
  refine (owns_report _ _ _).bind fun _ t ht => Action.Yields.bind (Action.Yields.within
    (Action.yields_ofStep_noting _ (fun _ _ => trivial) fun refutation w => ?_))
  have hnegated : blame (.negated ob.counter (.ok refutation) :: t.2.2) = none :=
    (blame_cons ht).trans rfl
  refine OwnsFrom.after (t := (t.1, w, .negated ob.counter (.ok refutation) :: t.2.2))
    (Int.add_zero _) ?_
  refine OwnsFrom.answer (fun answer _ => .checked refutation answer)
    ⟨fun _ _ _ => rfl, fun _ _ => rfl⟩ hnegated
    (fun answer _ e he => ?_) fun answer w he => ?_
  · match answer, he with
    | .unknown, he | .sat none _, he | .sat (some _) none, he =>
        obtain rfl := Option.some.inj he
        rfl
  · have hchecked : blame (.checked refutation (.ok answer) ::
        .negated ob.counter (.ok refutation) :: t.2.2) = none := (blame_cons hnegated).trans he
    match answer with
    | .unsat => exact owns_stage ob refutation hchecked rfl
    | .sat (some _) (some _) => exact owns_answerCounter ob refutation _ _ _ hchecked
    | .unknown | .sat none _ | .sat (some _) none => cases he

/-! Rounds. -/

theorem owns_drain : ∀ fuel : Nat, Owns (drain B.logged config fuel)
  | 0 => owns_outOfFuel
  | fuel + 1 => owns_state.bind fun _ => .ite (owns_pure _) <| owns_pop.bind fun _ =>
      (owns_push _).bind fun _ => .ite
        ((owns_enqueue _).bind fun _ => owns_drain fuel) (owns_drain fuel)

theorem owns_saveGraph : Owns (saveGraph B.logged) :=
  owns_state.bind fun _ => (owns_act (fun _ _ => ⟨rfl, rfl⟩) _).bind fun _ => owns_report _ _ _

theorem owns_drainFrame (fuel : Nat) : Owns (drainFrame B.logged config fuel) :=
  (owns_drain _).bind fun _ => .ite (owns_saveGraph.bind fun _ => owns_pure _) (owns_pure _)

theorem owns_relocate (r : Relocation) : Owns (relocate B.logged r) :=
  owns_state.bind fun _ => .guard (owns_violate _) <| (owns_change _).bind fun _ =>
    owns_state.bind fun _ => (owns_ofExcept _).bind fun ⟨_, _⟩ =>
      (owns_filterM (fun _ => owns_state.bind fun _ => (owns_negate _).bind fun _ =>
        owns_pure _) _).bind fun _ =>
        (owns_ofExcept _).bind fun _ => (owns_change _).bind fun _ =>
          owns_checkRefutations.bind fun _ => (owns_change _).bind fun _ =>
            (owns_update _).bind fun _ => (owns_update _).bind fun _ =>
              (owns_change _).bind fun _ => (owns_change _).bind fun _ =>
                owns_report _ _ _

theorem owns_restore (ob : Obligation) : Owns (restore B.logged ob) :=
  (owns_negate _).bind fun _ => (owns_addToFrame _ _).bind fun _ =>
    (owns_addToFrame _ _).bind fun _ => owns_enqueue _

theorem owns_rebuild : Owns (rebuild B.logged) :=
  owns_state.bind fun _ => (owns_change _).bind fun _ => (owns_forM owns_restore _).bind
    fun _ => (owns_change _).bind fun _ => (owns_change _).bind fun _ =>
      (owns_change _).bind fun _ => owns_checkRefutations.bind fun _ =>
        owns_state.bind fun _ => owns_state.bind fun _ => (owns_checkedAdd _ _).bind fun _ =>
          owns_change _

theorem owns_deepen : Owns (deepen B.logged) :=
  (owns_change _).bind fun _ => owns_state.bind fun _ => owns_state.bind fun _ =>
    (owns_checkedAdd _ _).bind fun _ => (owns_change _).bind fun _ =>
      (owns_clearFrame _).bind fun _ => (owns_change _).bind fun _ => owns_report _ _ _

theorem owns_showInvariant : Owns (showInvariant B.logged config) :=
  .ite (owns_state.bind fun _ => owns_forM (fun _ => owns_report _ _ _) _) (owns_pure _)

theorem owns_advance : Owns (advance B.logged config) :=
  owns_deepen.bind fun _ => owns_state.bind fun _ => .ite
    ((owns_report _ _ _).bind fun _ => owns_pure _)
    (owns_rebuild.bind fun _ => (owns_act (fun _ _ => ⟨rfl, rfl⟩) _).bind fun
      | none => owns_pure _
      | some _ => (owns_relocate _).bind fun _ => owns_pure _)

theorem owns_rounds : ∀ bound fuel : Nat, Owns (rounds B.logged config bound fuel)
  | 0, _ => owns_outOfFuel
  | bound + 1, _ => (owns_drainFrame _).bind fun _ => (owns_change _).bind fun _ =>
      owns_state.bind fun _ => .ite (owns_pure _) <| .ite
        (owns_showInvariant.bind fun _ => owns_pure _)
        (owns_advance.bind fun _ => .ite (owns_rounds bound _) (owns_pure _))

theorem owns_addLiteral (p negation : Formula) : Owns (do
    bump negation
    change fun s => { s with lineage := s.lineage.addProperty p }
    return true : SearchM (σ × List (Call μ)) Bool) :=
  (owns_bump _).bind fun _ => (owns_change _).bind fun _ => owns_pure _

theorem owns_addProperty : ∀ (fuel : Nat) (p : Formula), Owns (addProperty B.logged fuel p)
  | 0, _ => owns_outOfFuel
  | fuel + 1, p => by
      refine (owns_ask _).bind fun conjuncts => ?_
      cases conjuncts with
      | some conjuncts => exact owns_allM (owns_addProperty fuel) conjuncts
      | none =>
          refine (owns_negate p).bind fun negation t ht => ?_
          refine OwnsFrom.answer (fun answer _ => .queried negation answer)
            ⟨fun _ _ _ => rfl, fun _ _ => rfl⟩ ht (fun answer _ e he => ?_) fun answer w he => ?_
          · match answer, he with
            | .unknown, he | .sat none, he =>
                obtain rfl := Option.some.inj he
                rfl
          · have hqueried : blame (.queried negation (.ok answer) :: t.2.2) = none :=
              (blame_cons ht).trans he
            match answer with
            | .unsat =>
                exact Owns.start (owns_state.bind fun _ => .ite (owns_addLiteral p negation)
                  ((owns_addToFrame _ _).bind fun _ => (owns_addToFrame _ _).bind fun _ =>
                    (owns_enqueue _).bind fun _ => owns_addLiteral p negation)) hqueried
            | .sat (some model) =>
                exact Owns.start ((owns_report _ _ _).bind fun _ => (owns_record model).bind
                  fun _ => (owns_change _).bind fun _ => owns_pure _) hqueried
            | .unknown | .sat none => cases he

end Search

end Invariance
