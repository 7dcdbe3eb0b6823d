import Invariance.Engine
import Invariance.Proofs.Search.Courses

/-!
The search in turns and rounds. A turn is one pop of a drain and all that comes of it; a round is
the part of a query that begins with a frame and drains it. What is counted of a search is counted
in these lists.
-/

namespace Invariance.Search

variable {S σ μ : Type}

/-- A turn that ended with a fault has no answer. -/
structure Turn (σ : Type) where
  before : Search × σ
  answer : Option Push
  after : Search × σ

def Turn.refines (t : Turn σ) : Bool := t.answer = some .refined

/-- A round is given by the fuel and the state that it begins with. -/
structure Round (σ : Type) where
  fuel : Nat
  start : Search × σ

variable (B : Backend S σ μ) (config : Config)

def turn : SearchM σ Push := do
  let ob ← pop
  let answer ← push B config ob
  if answer = .refined then
    enqueue B ob
  return answer

/-- The turns of a drain. -/
def turns : (fuel : Nat) → Search × σ → List (Turn σ)
  | 0, _ => []
  | fuel + 1, x =>
      if x.1.agenda.isEmpty || x.1.lineage.propertyInvalid then
        []
      else
        match turn B config x with
        | .ok answer y => ⟨x, some answer, y⟩ :: turns fuel y
        | .error _ y => [⟨x, none, y⟩]

def refinements (fuel : Nat) (x : Search × σ) : List (Turn σ) :=
  (turns B config fuel x).filter Turn.refines

/-- One round. It leads to an answer, or to the next round with the fuel that is left. -/
def runRound (fuel : Nat) : SearchM σ (Outcome ⊕ Nat) := do
  let rest ← drainFrame B config fuel
  change fun s => { s with stats.rounds := s.stats.rounds + 1 }
  let s ← state
  if s.lineage.propertyInvalid then
    return .inl .invalid
  else if s.frame.size = s.staged.length then
    showInvariant B config
    return .inl .valid
  else
    if ← advance B config then
      return .inr rest
    else
      return .inl .interrupted

/-- What the loop begins with. -/
def announce : SearchM σ Unit :=
  report B .info "starting IC3 search" fun s _ =>
    [("properties", .number s.lineage.properties.size)]

def roundsFrom : (bound fuel : Nat) → Search × σ → List (Round σ)
  | 0, _, _ => []
  | bound + 1, fuel, x => ⟨fuel, x⟩ ::
      match runRound B config fuel x with
      | .ok (.inr rest) y => roundsFrom bound rest y
      | _ => []

theorem drain_succ (fuel : Nat) : drain B config (fuel + 1) = (do
    let s ← state
    if s.agenda.isEmpty || s.lineage.propertyInvalid then
      return fuel + 1
    else
      let _ ← turn B config
      drain B config fuel) := by
  rw [drain]
  refine congrArg (state >>= ·) (funext fun s => ?_)
  split
  · rfl
  · simp only [turn, bind_assoc]
    refine congrArg (pop >>= ·) (funext fun ob => ?_)
    refine congrArg (push B config ob >>= ·) (funext fun answer => ?_)
    split
    · rw [bind_assoc]
      rfl
    · rfl

theorem rounds_succ (bound fuel : Nat) : rounds B config (bound + 1) fuel = (do
    match ← runRound B config fuel with
    | .inl outcome => return outcome
    | .inr rest => rounds B config bound rest) := by
  rw [rounds]
  simp only [runRound, bind_assoc]
  refine congrArg (drainFrame B config fuel >>= ·) (funext fun rest => ?_)
  refine congrArg (change _ >>= ·) (funext fun _ => ?_)
  refine congrArg (state >>= ·) (funext fun s => ?_)
  split
  · rfl
  · split
    · rw [bind_assoc]
      rfl
    · rw [bind_assoc]
      refine congrArg (advance B config >>= ·) (funext fun more => ?_)
      cases more <;> rfl

/-- A round is followed by others only if it leads to the next one. -/
theorem roundsFrom_succ (bound fuel : Nat) (x : Search × σ) : ∃ rs,
    roundsFrom B config (bound + 1) fuel x = ⟨fuel, x⟩ :: rs ∧ ∀ r ∈ rs, ∃ rest y,
      runRound B config fuel x = .ok (.inr rest) y ∧ r ∈ roundsFrom B config bound rest y := by
  refine ⟨_, rfl, fun r hr => ?_⟩
  cases hrun : runRound B config fuel x with
  | error fault y =>
      rw [hrun] at hr
      cases hr
  | ok result y =>
      rw [hrun] at hr
      cases result with
      | inl outcome => cases hr
      | inr rest => exact ⟨rest, y, rfl, hr⟩

variable {B config} {x y : Search × σ}

theorem turns_of_stop {fuel : Nat}
    (h : (x.1.agenda.isEmpty || x.1.lineage.propertyInvalid) = true) :
    turns B config fuel x = [] := by
  cases fuel with
  | zero => rfl
  | succ fuel => rw [turns, if_pos h]

theorem turns_of_ok {fuel : Nat} {answer : Push}
    (h : (x.1.agenda.isEmpty || x.1.lineage.propertyInvalid) = false)
    (hrun : turn B config x = .ok answer y) :
    turns B config (fuel + 1) x = ⟨x, some answer, y⟩ :: turns B config fuel y := by
  rw [turns, if_neg (by rw [h]; exact Bool.false_ne_true), hrun]

theorem turns_of_error {fuel : Nat} {fault : Fault}
    (h : (x.1.agenda.isEmpty || x.1.lineage.propertyInvalid) = false)
    (hrun : turn B config x = .error fault y) :
    turns B config (fuel + 1) x = [⟨x, none, y⟩] := by
  rw [turns, if_neg (by rw [h]; exact Bool.false_ne_true), hrun]

theorem run_drain_succ (fuel : Nat) (x : Search × σ) : drain B config (fuel + 1) x =
    if x.1.agenda.isEmpty || x.1.lineage.propertyInvalid then .ok (fuel + 1) x
    else
      match turn B config x with
      | .ok _ y => drain B config fuel y
      | .error fault y => .error fault y := by
  rw [drain_succ]
  change (EStateM.bind state _ x) = _
  simp only [EStateM.bind, state]
  split
  · rfl
  · change EStateM.bind (turn B config) _ x = _
    rw [EStateM.bind]
    cases turn B config x <;> rfl

/-- A drain takes one unit of fuel for each of its turns. -/
theorem drain_spends : ∀ {fuel rest : Nat} {x : Search × σ},
    drain B config fuel x = .ok rest y → rest + (turns B config fuel x).length = fuel
  | 0, _, _, h => by cases h
  | fuel + 1, rest, x, h => by
      rw [run_drain_succ] at h
      cases hstop : x.1.agenda.isEmpty || x.1.lineage.propertyInvalid with
      | true =>
          rw [hstop, if_pos rfl] at h
          cases h
          rw [turns_of_stop hstop]
          rfl
      | false =>
          rw [hstop, if_neg Bool.false_ne_true] at h
          cases hrun : turn B config x with
          | ok answer z =>
              rw [hrun] at h
              have hrest := drain_spends h
              rw [turns_of_ok hstop hrun, List.length_cons]
              omega
          | error fault z =>
              rw [hrun] at h
              cases h

/-- The last turn leads to the end of the drain. -/
theorem final_drain : ∀ (fuel : Nat) (x : Search × σ), (drain B config fuel).final x =
    (turns B config fuel x).getLast?.elim x (·.after)
  | 0, _ => rfl
  | fuel + 1, x => by
      rw [Action.final, run_drain_succ]
      cases hstop : x.1.agenda.isEmpty || x.1.lineage.propertyInvalid with
      | true =>
          rw [if_pos rfl, turns_of_stop hstop]
          rfl
      | false =>
          rw [if_neg Bool.false_ne_true]
          cases hrun : turn B config x with
          | ok answer y =>
              rw [turns_of_ok hstop hrun, List.getLast?_cons]
              have hy := final_drain fuel y
              rw [Action.final] at hy
              dsimp only
              rw [hy]
              cases (turns B config fuel y).getLast? <;> rfl
          | error fault y =>
              rw [turns_of_error hstop hrun]
              rfl

theorem run_rounds_succ (bound fuel : Nat) (x : Search × σ) :
    rounds B config (bound + 1) fuel x =
      match runRound B config fuel x with
      | .ok (.inl outcome) y => .ok outcome y
      | .ok (.inr rest) y => rounds B config bound rest y
      | .error fault y => .error fault y := by
  rw [rounds_succ]
  change EStateM.bind (runRound B config fuel) _ x = _
  rw [EStateM.bind]
  cases runRound B config fuel x with
  | ok result y => cases result <;> rfl
  | error fault y => rfl

/-- The last round leads to the end of the rounds. -/
theorem final_rounds : ∀ (bound fuel : Nat) (x : Search × σ),
    (rounds B config bound fuel).final x = (roundsFrom B config bound fuel x).getLast?.elim x
      fun r => (runRound B config r.fuel).final r.start
  | 0, _, _ => rfl
  | bound + 1, fuel, x => by
      rw [Action.final, run_rounds_succ, roundsFrom, List.getLast?_cons]
      cases hrun : runRound B config fuel x with
      | error fault y => simp [Action.final, hrun]
      | ok result y =>
          cases result with
          | inl outcome => simp [Action.final, hrun]
          | inr rest =>
              have hy := final_rounds bound rest y
              rw [Action.final] at hy
              dsimp only
              rw [hy]
              cases (roundsFrom B config bound rest y).getLast? with
              | none => simp [Action.final, hrun]
              | some r => rfl

end Search

namespace Engine

variable {S σ μ : Type} (B : Backend S σ μ) (config : Config)

/-- The rounds of a query. There are none if it fails before or if an initial state falsifies the
property. -/
def roundsOf (fuel : Nat) (system : S) (p : Formula) (e : Engine σ) : List (Search.Round σ) :=
  match B.load system (reset B e).world with
  | .error _ _ => []
  | .ok _ w =>
      match Search.enter B fuel p (.blank, w) with
      | .ok true x => Search.roundsFrom B config fuel fuel ((Search.announce B).final x)
      | _ => []

end Engine

end Invariance
