import Invariance.Proofs.Transcripts.Moves

/-!
What a search owes and what its frame holds, told by the transcript alone. Every obligation answers
for one formula that the search knows, a literal of the property or a formula learnt backward: the
negation of its counter-state. That is how the number of obligations comes to say anything about the
members of the frame.
-/

namespace Invariance

variable {μ : Type} {n : Note μ} {ℓ ℓ' : List (Note μ)}

def opposites (ℓ : List (Note μ)) : List (Formula × Formula) := ℓ.filterMap Note.opposites?

/-- Formulas were negated as by an involution. -/
def Involutive (ℓ : List (Note μ)) : Prop :=
  ∀ x ∈ opposites ℓ, ∀ y ∈ opposites ℓ, (x.1 = y.1 ↔ x.2 = y.2) ∧ (x.1 = y.2 → x.2 = y.1)

def sinceReset (ℓ : List (Note μ)) : List (Note μ) := ℓ.takeWhile fun n => !n.isReset

def firsts (ℓ : List (Note μ)) : List Formula := (sinceReset ℓ).filterMap Note.first?

def proved (ℓ : List (Note μ)) : List Formula := (sinceReset ℓ).filterMap Note.proved?

def guesses (ℓ : List (Note μ)) : List Formula := ℓ.filterMap Note.guess?

def Unswept (ℓ : List (Note μ)) : Prop := ∀ n ∈ ℓ, n.relocation? = none

/-- A formula that was found inductive is found inductive until the next reset. -/
def Stable : List (Note μ) → Prop
  | [] => True
  | n :: ℓ => (∀ f ∈ n.unproved?, f ∉ proved ℓ) ∧ Stable ℓ

/-- No generalization had, when it was returned, its negation among the formulas that `known` finds
in the notes taken so far. -/
def Novel (known : List (Note μ) → List Formula) (pairs : List (Formula × Formula)) :
    List (Note μ) → Prop
  | [] => True
  | n :: ℓ => (∀ g ∈ n.counter?, ∀ f ∈ known ℓ, (g, f) ∉ pairs) ∧ Novel known pairs ℓ

/-- No generalization is the negation of a formula that the induction solver assumes at its first
step. -/
def Fresh (ℓ : List (Note μ)) : Prop := Novel firsts (opposites ℓ) ℓ

/-- No generalization is the negation of a formula that was learnt forward or weakened. -/
def Apart (ℓ : List (Note μ)) : Prop := Novel guesses (opposites ℓ) ℓ

instance : DecidablePred (Involutive (μ := μ)) := fun ℓ =>
  inferInstanceAs (Decidable (∀ x ∈ opposites ℓ, ∀ y ∈ opposites ℓ,
    (x.1 = y.1 ↔ x.2 = y.2) ∧ (x.1 = y.2 → x.2 = y.1)))

instance : DecidablePred (Unswept (μ := μ)) := fun ℓ =>
  inferInstanceAs (Decidable (∀ n ∈ ℓ, n.relocation? = none))

instance decidableStable : DecidablePred (Stable (μ := μ))
  | [] => .isTrue trivial
  | n :: ℓ =>
      have := decidableStable ℓ
      inferInstanceAs (Decidable ((∀ f ∈ n.unproved?, f ∉ proved ℓ) ∧ Stable ℓ))

instance decidableNovel (known : List (Note μ) → List Formula) (pairs : List (Formula × Formula)) :
    DecidablePred (Novel known pairs)
  | [] => .isTrue trivial
  | n :: ℓ =>
      have := decidableNovel known pairs ℓ
      inferInstanceAs (Decidable ((∀ g ∈ n.counter?, ∀ f ∈ known ℓ, (g, f) ∉ pairs) ∧
        Novel known pairs ℓ))

instance : DecidablePred (Fresh (μ := μ)) := fun ℓ =>
  inferInstanceAs (Decidable (Novel firsts (opposites ℓ) ℓ))

instance : DecidablePred (Apart (μ := μ)) := fun ℓ =>
  inferInstanceAs (Decidable (Novel guesses (opposites ℓ) ℓ))

/-! How the conditions pass to earlier notes, and what was noted to later ones. -/

theorem opposites_sublist (h : ℓ <:+ ℓ') : (opposites ℓ).Sublist (opposites ℓ') :=
  h.sublist.filterMap _

theorem Involutive.suffix (h : Involutive ℓ') (hs : ℓ <:+ ℓ') : Involutive ℓ :=
  fun x hx y hy => h x ((opposites_sublist hs).mem hx) y ((opposites_sublist hs).mem hy)

theorem Unswept.suffix (h : Unswept ℓ') (hs : ℓ <:+ ℓ') : Unswept ℓ :=
  fun n hn => h n (hs.mem hn)

theorem Stable.suffix : ∀ {ℓ' : List (Note μ)}, Stable ℓ' → ℓ <:+ ℓ' → Stable ℓ
  | [], _, hs => by
      rw [List.suffix_nil.mp hs]
      trivial
  | _ :: _, h, hs => by
      rcases List.suffix_cons_iff.mp hs with rfl | hs
      · exact h
      · exact h.2.suffix hs

section

variable {known : List (Note μ) → List Formula} {pairs pairs' : List (Formula × Formula)}

theorem Novel.anti (hpairs : ∀ x ∈ pairs, x ∈ pairs') : ∀ {ℓ : List (Note μ)},
    Novel known pairs' ℓ → Novel known pairs ℓ
  | [], _ => trivial
  | _ :: _, h => ⟨fun g hg f hf hin => h.1 g hg f hf (hpairs _ hin), h.2.anti hpairs⟩

theorem Novel.suffix : ∀ {ℓ' : List (Note μ)}, Novel known pairs ℓ' → ℓ <:+ ℓ' →
    Novel known pairs ℓ
  | [], _, hs => by
      rw [List.suffix_nil.mp hs]
      trivial
  | _ :: _, h, hs => by
      rcases List.suffix_cons_iff.mp hs with rfl | hs
      · exact h
      · exact h.2.suffix hs

theorem Novel.not_mem (h : Novel known pairs ℓ') (hs : n :: ℓ <:+ ℓ') {counter : Formula}
    (hn : n.counter? = some counter) {f : Formula} (hf : f ∈ known ℓ) : (counter, f) ∉ pairs :=
  (h.suffix hs).1 counter hn f hf

end

theorem Fresh.suffix (h : Fresh ℓ') (hs : ℓ <:+ ℓ') : Fresh ℓ :=
  (Novel.suffix h hs).anti fun _ => (opposites_sublist hs).mem

theorem Apart.suffix (h : Apart ℓ') (hs : ℓ <:+ ℓ') : Apart ℓ :=
  (Novel.suffix h hs).anti fun _ => (opposites_sublist hs).mem

theorem guesses_suffix (hs : ℓ <:+ ℓ') {f : Formula} (h : f ∈ guesses ℓ) : f ∈ guesses ℓ' :=
  (hs.sublist.filterMap _).mem h

def Within (ℓ ℓ' : List (Note μ)) : Prop :=
  ∃ new, ℓ' = new ++ ℓ ∧ ∀ n ∈ new, n.isReset = false

namespace Within

theorem refl (ℓ : List (Note μ)) : Within ℓ ℓ := ⟨[], rfl, nofun⟩

theorem cons (h : Within ℓ ℓ') (hn : n.isReset = false) : Within ℓ (n :: ℓ') := by
  obtain ⟨new, rfl, hnew⟩ := h
  refine ⟨n :: new, rfl, fun m hm => ?_⟩
  rcases List.mem_cons.mp hm with rfl | hm
  · exact hn
  · exact hnew m hm

theorem append (h : Within ℓ ℓ') {new : List (Note μ)} (hnew : Search.Negations new) :
    Within ℓ (new ++ ℓ') := by
  induction new with
  | nil => exact h
  | cons n new ih =>
      obtain ⟨f, g, rfl⟩ := hnew n List.mem_cons_self
      exact (ih fun m hm => hnew m (List.mem_cons_of_mem _ hm)).cons rfl

theorem suffix (h : Within ℓ ℓ') : ℓ <:+ ℓ' := by
  obtain ⟨new, rfl, _⟩ := h
  exact List.suffix_append new ℓ

theorem sinceReset_eq (h : Within ℓ ℓ') : ∃ new, sinceReset ℓ' = new ++ sinceReset ℓ := by
  obtain ⟨new, rfl, hnew⟩ := h
  exact ⟨new, List.takeWhile_append_of_pos fun n hn => by simp [hnew n hn]⟩

theorem firsts (h : Within ℓ ℓ') {f : Formula} (hf : f ∈ firsts ℓ) : f ∈ Invariance.firsts ℓ' := by
  obtain ⟨new, hnew⟩ := h.sinceReset_eq
  rw [Invariance.firsts, hnew, List.filterMap_append]
  exact List.mem_append_right _ hf

theorem proved (h : Within ℓ ℓ') {f : Formula} (hf : f ∈ proved ℓ) : f ∈ Invariance.proved ℓ' := by
  obtain ⟨new, hnew⟩ := h.sinceReset_eq
  rw [Invariance.proved, hnew, List.filterMap_append]
  exact List.mem_append_right _ hf

end Within

/-- One of the two was answered when the other was to be negated. -/
def Opposed (ℓ : List (Note μ)) (f g : Formula) : Prop :=
  (f, g) ∈ opposites ℓ ∨ (g, f) ∈ opposites ℓ

namespace Opposed

variable {f g g' : Formula}

theorem symm (h : Opposed ℓ f g) : Opposed ℓ g f := Or.symm h

theorem of_mem (h : .negated f (.ok g) ∈ ℓ) : Opposed ℓ f g :=
  Or.inl (List.mem_filterMap.mpr ⟨_, h, rfl⟩)

theorem suffix (h : Opposed ℓ f g) (hs : ℓ <:+ ℓ') : Opposed ℓ' f g :=
  h.imp (opposites_sublist hs).mem (opposites_sublist hs).mem

theorem unique (hinv : Involutive ℓ) (h : Opposed ℓ f g) (h' : Opposed ℓ f g') : g = g' := by
  rcases h with h | h <;> rcases h' with h' | h'
  · exact (hinv _ h _ h').1.mp rfl
  · exact (hinv _ h _ h').2 rfl
  · exact ((hinv _ h' _ h).2 rfl).symm
  · exact (hinv _ h _ h').1.mpr rfl

theorem unique' (hinv : Involutive ℓ) {f' : Formula} (h : Opposed ℓ f g) (h' : Opposed ℓ f' g) :
    f = f' :=
  h.symm.unique hinv h'.symm

end Opposed

end Invariance
