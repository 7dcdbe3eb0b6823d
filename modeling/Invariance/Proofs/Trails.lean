import Invariance.Proofs.Courses
import Mathlib.Data.List.Chain

/-!
The trail of an effect: the states that its course passes through, one after the other. A relation
that every move respects holds of each two neighbours on the trail.
-/

namespace Invariance.Course

variable {σ α β : Type} {act other : Action σ α} {next : α → Action σ β} {c : Course act}
  {s t : σ} {I J : σ → Prop} {R R' S : σ → σ → Prop} {Q Q' : α → σ → Prop}

theorem exists_visited (c : Course act) : ∀ s, ∃ l, c.visited s = l ++ [act.final s] := by
  induction c with
  | move act => exact fun s => ⟨[], rfl⟩
  | @bind _ _ _ act next c d hc hd =>
      intro s
      obtain ⟨l, hl⟩ := hc s
      rw [Action.final] at hl
      rw [Action.final_bind, visited, hl]
      cases act s with
      | ok a t =>
          obtain ⟨l', hl'⟩ := hd a t
          exact ⟨l ++ [t] ++ l', by simp only [hl', List.append_assoc]⟩
      | error fault t => exact ⟨l, List.append_nil _⟩
  | @branch _ _ p _ act other c d hc hd =>
      intro s
      rw [visited]
      by_cases h : p
      · rw [if_pos h, if_pos h]
        exact hc s
      · rw [if_neg h, if_neg h]
        exact hd s
  | @within _ _ _ part replace act c hc =>
      intro s
      obtain ⟨l, hl⟩ := hc (part s)
      exact ⟨l.map fun x => replace x s, by rw [visited, hl, Action.final_within]; simp⟩
  | @attempt _ _ act c hc =>
      intro s
      obtain ⟨l, hl⟩ := hc s
      refine ⟨l, ?_⟩
      rw [visited, hl, Action.final, Action.final, Action.attempt]
      cases act s with
      | ok _ _ => rfl
      | error fault _ => cases fault <;> rfl

/-- Every state on the course is as `I` says, and every move leads from a state to one that `R`
relates it to. -/
structure Follows (c : Course act) (I : σ → Prop) (R : σ → σ → Prop) (s : σ)
    (Q : α → σ → Prop) : Prop where
  keeps : c.Keeps I s Q
  chain : (s :: c.visited s).IsChain R

namespace Follows

theorem imp (h : c.Follows I R s Q) (hQ : ∀ a t, I t → Q a t → Q' a t) : c.Follows I R s Q' :=
  ⟨h.keeps.imp hQ, h.chain⟩

theorem mono (h : c.Follows I R s Q) (hI : ∀ t, I t → J t) : c.Follows J R s Q :=
  ⟨h.keeps.mono hI, h.chain⟩

theorem and {E : Fault → Prop} (h : c.Follows I R s Q) (hends : act.Ends s E Q') :
    c.Follows I R s fun a t => Q a t ∧ Q' a t :=
  ⟨h.keeps.and hends, h.chain⟩

theorem bind {d : ∀ a, Course (next a)} {Q : β → σ → Prop}
    (h : c.Follows I R s fun a t => (d a).Follows I R t Q) : (c.bind d).Follows I R s Q := by
  refine ⟨.bind (h.keeps.imp fun _ _ _ ht => ht.keeps), ?_⟩
  have hchain := h.chain
  have hends := h.keeps.2
  obtain ⟨l, hl⟩ := c.exists_visited s
  rw [Action.final] at hl
  rw [Action.Ends] at hends
  rw [visited]
  cases hrun : act s with
  | ok a t =>
      rw [hrun] at hl hends
      rw [hl, ← List.cons_append] at hchain
      rw [hl, List.append_assoc, List.singleton_append, ← List.cons_append]
      exact List.isChain_split.mpr ⟨hchain, hends.chain⟩
  | error _ _ => rwa [List.append_nil]

theorem attempt (h : c.Follows I R s Q) : c.attempt.Follows I R s fun _ _ => True :=
  ⟨h.keeps.attempt, h.chain⟩

theorem andThen {d : ∀ a, Course (next a)} {Q : β → σ → Prop}
    (h : c.Follows I R s fun _ _ => True)
    (hends : act.Ends s (fun _ => True) fun a t => I t → (d a).Follows I R t Q) :
    (c.bind d).Follows I R s Q :=
  .bind ((h.and hends).imp fun _ _ ht h => h.2 ht)

end Follows

theorem Keeps.follows (h : c.Keeps I s Q) : c.Follows I (fun _ _ => True) s Q :=
  ⟨h, (List.pairwise_of_forall fun _ _ => trivial).isChain⟩

theorem follows_ok {a : α} (h : act s = .ok a t) (hI : I t) (hR : R s t) (hQ : Q a t) :
    (move act).Follows I R s Q :=
  ⟨keeps_ok h hI hQ, by
    have hfinal : act.final s = t := by rw [Action.final, h]
    rw [visited, hfinal]
    exact List.isChain_pair.mpr hR⟩

theorem follows_of_ends (h : act.Ends s (fun _ => False) fun _ t => I t ∧ R s t) :
    (move act).Follows I R s fun _ _ => True := by
  obtain ⟨_, _, hrun, hI, hR⟩ := h.exists_ok
  exact follows_ok hrun hI hR trivial

theorem follows_branch {p : Prop} [Decidable p] {d : Course other} (hc : p → c.Follows I R s Q)
    (hd : ¬ p → d.Follows I R s Q) : (branch (c := p) c d).Follows I R s Q := by
  refine ⟨keeps_branch (fun h => (hc h).keeps) fun h => (hd h).keeps, ?_⟩
  rw [visited]
  by_cases h : p
  · rw [if_pos h]
    exact (hc h).chain
  · rw [if_neg h]
    exact (hd h).chain

/-- What `S` relates to a state is as `I` says if that state is, and all of it is related. -/
structure Respects (S : σ → σ → Prop) (I : σ → Prop) (R : σ → σ → Prop) : Prop where
  refl : ∀ s, S s s
  stays : ∀ {s t}, S s t → I s → I t
  relates : ∀ {s t t'}, S s t → S s t' → R t t'

namespace Stays

theorem follows (h : c.Stays S) (hS : Respects S I R) (hs : I s) :
    c.Follows I R s fun _ t => S s t := by
  refine ⟨h.keeps fun t ht => hS.stays ht hs,
    (List.pairwise_of_forall_mem_list fun t ht t' ht' => ?_).isChain⟩
  have hall : ∀ t ∈ s :: c.visited s, S s t := List.forall_mem_cons.mpr ⟨hS.refl s, h s⟩
  exact hS.relates (hall t ht) (hall t' ht')

theorem last (h : c.Stays S) (hS : Respects S I R) (hs : I s) :
    c.Follows I R s fun _ _ => True :=
  (h.follows hS hs).imp fun _ _ _ _ => trivial

theorem skip {d : ∀ a, Course (next a)} {Q : β → σ → Prop} (h : c.Stays S)
    (hS : Respects S I R) (hs : I s) (hd : ∀ a t, I t → (d a).Follows I R t Q) :
    (c.bind d).Follows I R s Q :=
  .bind ((h.follows hS hs).imp fun a t ht _ => hd a t ht)

/-- The rule for a part whose answer is known. -/
theorem after {d : ∀ a, Course (next a)} {Q : β → σ → Prop} (h : c.Stays S)
    (hS : Respects S I R) (hs : I s)
    (hends : act.Ends s (fun _ => True) fun a t => I t → (d a).Follows I R t Q) :
    (c.bind d).Follows I R s Q :=
  (h.last hS hs).andThen hends

end Stays

end Invariance.Course
