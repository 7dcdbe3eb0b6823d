import Invariance.Proofs.Transcripts.Rules

/-!
The frame beside the registry that it reports to. An addition notes its formula before the registry
is asked, and a clearing empties the frame before the registry is reset; a refusal takes neither
back. Main statement: over every sequence of additions and clearings, whichever of them are refused,
frame and registry differ on no other formulas than those with a refusal that nothing has made up
for, and a refused addition is barred from being made again.
-/

namespace Invariance

def Role.alreadyAdded (f : Formula) : Role → Violation
  | .first => .alreadyInFrame f
  | .intermediate => .alreadyIntermediate f

namespace Frame

variable {σ : Type} {registry : Registry σ} {frame frame' : Frame} {f : Formula} {role : Role}

inductive Operation where
  | add (f : Formula) (role : Role)
  | clear (depth : Nat)

def Operation.perform (registry : Registry σ) : Operation → Action (Frame × σ) Unit
  | .add f role => Frame.add registry f role
  | .clear depth => Frame.clear registry depth

/-- What an operation makes of the frame, whatever the registry says to it. -/
def Operation.note : Operation → Frame → Except Violation Frame
  | .add f role, frame => frame.enter f role
  | .clear _, _ => .ok empty

structure Attempt where
  operation : Operation
  accepted : Bool

/-- The operations on a new frame up to some moment, the last one first, none of which broke a
contract. -/
inductive Run (registry : Registry σ) (start : σ) : List Attempt → Frame × σ → Prop
  | start : Run registry start [] (empty, start)
  | accepted {past op s t} : Run registry start past s → op.perform registry s = .ok () t →
      Run registry start (⟨op, true⟩ :: past) t
  | refused {past op s t e} : Run registry start past s →
      op.perform registry s = .error (.error e) t → Run registry start (⟨op, false⟩ :: past) t

/-- What the registry holds in the role `first`: the registrations that it accepted since the last
reset that it accepted. -/
def registered : List Attempt → List Formula
  | [] => []
  | ⟨.add f .first, true⟩ :: past => f :: registered past
  | ⟨.clear _, true⟩ :: _ => []
  | _ :: past => registered past

/-- The additions in the role `first` since the last clearing, refused or not. -/
def offered : List Attempt → List Formula
  | [] => []
  | ⟨.add f .first, _⟩ :: past => f :: offered past
  | ⟨.clear _, _⟩ :: _ => []
  | _ :: past => offered past

/-- A refused registration leaves its formula in dispute, and a refused reset all that was
registered, until the formula is registered or the registry is reset. -/
def disputed : List Attempt → List Formula
  | [] => []
  | ⟨.add f .first, false⟩ :: past => f :: disputed past
  | ⟨.add f .first, true⟩ :: past => (disputed past).filter (· ≠ f)
  | ⟨.clear _, false⟩ :: past => registered past
  | ⟨.clear _, true⟩ :: _ => []
  | _ :: past => disputed past

/-- How a frame stands to the registry after these operations. -/
structure Mirrors (past : List Attempt) (frame : Frame) : Prop where
  members : ∀ f, frame.contains f = true ↔ f ∈ offered past
  undisputed : ∀ f, f ∉ disputed past → (frame.contains f = true ↔ f ∈ registered past)
  barred : ∀ f role rest, past = ⟨.add f role, false⟩ :: rest →
    frame.enter f role = .error (role.alreadyAdded f)

theorem offered_iff_registered {past : List Attempt} (h : f ∉ disputed past) :
    f ∈ offered past ↔ f ∈ registered past := by
  induction past with
  | nil => rfl
  | cons a past ih =>
      obtain ⟨op, accepted⟩ := a
      cases op with
      | add g role =>
          cases role with
          | first =>
              cases accepted with
              | true =>
                  rw [disputed, List.mem_filter, decide_eq_true_eq, not_and, ne_eq,
                    Decidable.not_not] at h
                  rw [offered, registered, List.mem_cons, List.mem_cons]
                  by_cases hg : f = g
                  · exact iff_of_true (Or.inl hg) (Or.inl hg)
                  · rw [ih fun hf => hg (h hf)]
              | false =>
                  rw [disputed, List.mem_cons, not_or] at h
                  exact (List.mem_cons.trans (or_iff_right h.1)).trans (ih h.2)
          | intermediate => exact ih h
      | clear depth =>
          cases accepted with
          | true => rfl
          | false => exact iff_of_false List.not_mem_nil h

theorem not_contains_empty : empty.contains f = false := rfl

/-- The frame has noted the formula by then. -/
theorem enter_of_enter (h : frame.enter f role = .ok frame') :
    frame'.enter f role = .error (role.alreadyAdded f) := by
  cases role with
  | first =>
      have hf : frame'.contains f = true := (contains_enter h).mpr (Or.inl ⟨rfl, rfl⟩)
      rw [enter, if_pos hf]
      rfl
  | intermediate =>
      rw [enter] at h
      split at h
      · cases h
      · obtain rfl := Except.ok.inj h
        rw [enter, if_pos (by simp [FormulaSet.contains_insert])]
        rfl

/-- What comes of an operation that breaks no contract: the frame is as noted, also when the
registry refuses. -/
theorem yields_perform (op : Operation) (s : Frame × σ) :
    (op.perform registry).Yields s
      (fun fault t => (∃ e, fault = .error e) → op.note s.1 = .ok t.1)
      fun _ t => op.note s.1 = .ok t.1 := by
  cases op with
  | add f role =>
      change Action.Yields (Frame.add registry f role) s _ _
      rw [Frame.add]
      refine .bind (.bind ?_)
      cases henter : s.1.enter f role with
      | error v => exact fun ⟨e, he⟩ => nomatch he
      | ok frame =>
          refine .bind (.within ?_)
          rw [Action.Yields]
          cases registry.register f role s.2 with
          | ok _ w => exact henter
          | error fault w => exact fun _ => henter
  | clear depth =>
      change Action.Yields (Frame.clear registry depth) s _ _
      rw [Frame.clear]
      refine .bind (.within ?_)
      rw [Action.Yields]
      cases registry.reset depth s.2 with
      | ok _ w => rfl
      | error fault w => exact fun _ => rfl

namespace Mirrors

variable {past : List Attempt} {op : Operation} {accepted : Bool}

theorem start : Mirrors [] empty where
  members _ := iff_of_false (by rw [not_contains_empty]; nofun) List.not_mem_nil
  undisputed _ _ := iff_of_false (by rw [not_contains_empty]; nofun) List.not_mem_nil
  barred := nofun

theorem of_members (hmembers : ∀ f, frame.contains f = true ↔ f ∈ offered past)
    (hbarred : ∀ f role rest, past = ⟨.add f role, false⟩ :: rest →
      frame.enter f role = .error (role.alreadyAdded f)) : Mirrors past frame where
  members := hmembers
  undisputed f hf := (hmembers f).trans (offered_iff_registered hf)
  barred := hbarred

theorem turn (h : Mirrors past frame) (hnote : op.note frame = .ok frame') :
    Mirrors (⟨op, accepted⟩ :: past) frame' := by
  cases op with
  | add f role =>
      refine of_members (fun g => ?_) fun f role rest hpast => ?_
      · rw [contains_enter hnote, h.members g]
        cases role with
        | first => rw [offered, List.mem_cons, and_iff_right rfl]
        | intermediate => exact or_iff_right fun hrole => nomatch hrole.1
      · cases hpast
        exact enter_of_enter hnote
  | clear depth =>
      obtain rfl := Except.ok.inj hnote
      refine of_members (fun g => ?_) nofun
      exact iff_of_false (by rw [not_contains_empty]; nofun) List.not_mem_nil

end Mirrors

theorem Run.mirrors {start : σ} {past : List Attempt} {s : Frame × σ}
    (h : Run registry start past s) : Mirrors past s.1 := by
  induction h with
  | start => exact .start
  | @accepted past op s t _ hrun ih => exact ih.turn ((yields_perform op s).of_ok hrun)
  | @refused past op s t e _ hrun ih => exact ih.turn ((yields_perform op s).of_error hrun ⟨e, rfl⟩)

/-- Counts its calls and refuses those with these numbers. -/
def refusing (calls : List Nat) : Registry Nat :=
  let answer : Action Nat Unit := fun n =>
    if n ∈ calls then .error (.error (.solver s!"call {n} refused")) (n + 1) else .ok () (n + 1)
  { register := fun _ _ => answer, reset := fun _ => answer }

/-- Registered, refused as intermediate, refused a reset, registered again; a second formula is
refused at last. -/
def setbacks : List Attempt :=
  [⟨.add ⟨2⟩ .first, false⟩, ⟨.add ⟨1⟩ .first, true⟩, ⟨.clear 1, false⟩,
    ⟨.add ⟨1⟩ .intermediate, false⟩, ⟨.add ⟨1⟩ .first, true⟩]

theorem setbacks_mirrored : disputed setbacks = [⟨2⟩] ∧
    ∃ s, Run (refusing [1, 2, 4]) 0 setbacks s ∧ Mirrors setbacks s.1 := by
  have hfirst : Run (refusing [1, 2, 4]) 0 [⟨.add ⟨1⟩ .first, true⟩] _ := .accepted .start rfl
  have hreset : Run (refusing [1, 2, 4]) 0 (setbacks.drop 2) _ := .refused (.refused hfirst rfl) rfl
  have hlast : Run (refusing [1, 2, 4]) 0 setbacks _ := .refused (.accepted hreset rfl) rfl
  exact ⟨by decide, _, hlast, hlast.mirrors⟩

/-- A refused formula is a member that nobody registered. -/
theorem refused_member : ∃ s, Run (refusing [0]) 0 [⟨.add ⟨1⟩ .first, false⟩] s ∧
    ¬ ∀ f, s.1.contains f = true ↔ f ∈ registered [⟨.add ⟨1⟩ .first, false⟩] := by
  refine ⟨_, .refused .start rfl, fun h => ?_⟩
  exact List.not_mem_nil ((h ⟨1⟩).mp (by decide))

end Frame

end Invariance
