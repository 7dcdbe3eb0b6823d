import Invariance.Proofs.Transcripts.Accounts
import Mathlib.Algebra.Group.Nat.Defs

/-!
The windows of the rounds on the time line. Those of one round are all the same; where it lies is
told by the number of resets alone.
-/

namespace Invariance

/-- The first and the last step that the checks of a round look at. The rounds count from 0. -/
def tile : Nat → Nat × Nat
  | 0 => (0, 0)
  | r + 1 => ((tile r).2 + 1, 2 * (tile r).2 + 1)

theorem tile_snd : ∀ r, (tile r).2 + 1 = 2 ^ r
  | 0 => rfl
  | r + 1 => by
      have hlast := tile_snd r
      rw [tile, Nat.pow_succ]
      omega

theorem tile_snd_le {q r : Nat} (h : q ≤ r) : (tile q).2 ≤ (tile r).2 := by
  have hpow := Nat.pow_le_pow_right (n := 2) (by decide) h
  have hq := tile_snd q
  have hr := tile_snd r
  omega

theorem tile_disjoint {q r : Nat} (h : q < r) : (tile q).2 < (tile r).1 := by
  cases r with
  | zero => cases h
  | succ r => exact Nat.lt_succ_of_le (tile_snd_le (Nat.le_of_lt_succ h))

def InTile (k r : Nat) : Prop := (tile r).1 ≤ k ∧ k ≤ (tile r).2

theorem InTile.unique {k q r : Nat} (hq : InTile k q) (hr : InTile k r) : q = r := by
  rcases Nat.lt_trichotomy q r with hlt | heq | hlt
  · exact absurd (Nat.lt_of_lt_of_le (tile_disjoint hlt) (Nat.le_trans hr.1 hq.2)) (Nat.lt_irrefl _)
  · exact heq
  · exact absurd (Nat.lt_of_lt_of_le (tile_disjoint hlt) (Nat.le_trans hq.1 hr.2)) (Nat.lt_irrefl _)

theorem exists_inTile {k : Nat} : ∀ {r}, k ≤ (tile r).2 → ∃ q ≤ r, InTile k q
  | 0, h => ⟨0, Nat.le_refl 0, Nat.zero_le k, h⟩
  | r + 1, h => by
      by_cases hk : k ≤ (tile r).2
      · obtain ⟨q, hq, hin⟩ := exists_inTile hk
        exact ⟨q, Nat.le_succ_of_le hq, hin⟩
      · exact ⟨r + 1, Nat.le_refl _, Nat.lt_of_not_le hk, h⟩

/-- The windows up to round `r` cover the steps up to the last one of that round. -/
theorem existsUnique_inTile {k r : Nat} : k ≤ (tile r).2 ↔ ∃! q, q ≤ r ∧ InTile k q := by
  refine ⟨fun h => ?_, fun ⟨q, ⟨hq, hin⟩, _⟩ => Nat.le_trans hin.2 (tile_snd_le hq)⟩
  obtain ⟨q, hq, hin⟩ := exists_inTile h
  exact ⟨q, ⟨hq, hin⟩, fun q' h' => h'.2.unique hin⟩

variable {σ μ : Type} {n : Note μ} {ℓ ℓ' : List (Note μ)} {t t' t'' : Search × σ × List (Note μ)}

def resets (ℓ : List (Note μ)) : Nat := ℓ.countP Note.isReset

def lastReset? (ℓ : List (Note μ)) : Option Nat := ℓ.findSome? Note.resetDepth?

/-- Each reachability check looked at the window of its round, which is as long as the depth of
that round. -/
def Tiled (ℓ : List (Note μ)) : Prop :=
  ∀ n ℓ', n :: ℓ' <:+ ℓ → ∀ W ∈ n.window?, ∃ r d, resets ℓ' = r + 1 ∧ W = tile r ∧
    lastReset? ℓ' = some d ∧ W.1 + d = W.2 + 1

theorem Tiled.cons (h : Tiled ℓ) (hn : ∀ W ∈ n.window?, ∃ r d, resets ℓ = r + 1 ∧ W = tile r ∧
    lastReset? ℓ = some d ∧ W.1 + d = W.2 + 1) : Tiled (n :: ℓ) := fun m ℓ' hs => by
  rcases List.suffix_cons_iff.mp hs with heq | hs
  · obtain ⟨rfl, rfl⟩ := List.cons.inj heq
    exact hn
  · exact h m ℓ' hs

def Current (s : Search) (ℓ : List (Note μ)) : Prop :=
  ∀ n ∈ sinceReset ℓ, ∀ W ∈ n.window?, W.2 = s.index

structure Clear (t : Search × σ × List (Note μ)) : Prop where
  tiled : Tiled t.2.2
  current : Current t.1 t.2.2

/-- In round `r`, from its first pop to its last. -/
structure InRound (r : Nat) (t : Search × σ × List (Note μ)) : Prop where
  index : t.1.index = (tile r).2
  depth : (tile r).1 + t.1.depth = (tile r).2 + 1
  resets : resets t.2.2 = r + 1
  reset : lastReset? t.2.2 = some t.1.depth

section

variable {s s' : Search} {w w' : σ}

theorem Clear.congr (h : Clear (s, w, ℓ)) (hindex : s'.index = s.index) :
    Clear (s', w', ℓ) where
  tiled := h.tiled
  current n hn W hW := (h.current n hn W hW).trans hindex.symm

theorem InRound.congr {r : Nat} (h : InRound r (s, w, ℓ)) (hindex : s'.index = s.index)
    (hdepth : s'.depth = s.depth) : InRound r (s', w', ℓ) where
  index := hindex.trans h.index
  depth := (congrArg ((tile r).1 + ·) hdepth).trans h.depth
  resets := h.resets
  reset := h.reset.trans (congrArg some hdepth.symm)

end

structure Note.Quiet (n : Note μ) : Prop where
  reset : n.isReset = false
  window : n.window? = none

theorem Note.Quiet.resetDepth (h : n.Quiet) : n.resetDepth? = none := by
  cases n <;> first | rfl | cases h.reset

theorem sinceReset_cons (hn : n.isReset = false) : sinceReset (n :: ℓ) = n :: sinceReset ℓ := by
  rw [sinceReset, List.takeWhile_cons_of_pos (by rw [hn]; rfl)]
  rfl

theorem exists_older (h : n ∈ sinceReset ℓ) : ∃ ℓ', n :: ℓ' <:+ ℓ ∧ resets ℓ' = resets ℓ := by
  induction ℓ with
  | nil => cases h
  | cons m ℓ ih =>
      cases hm : m.isReset with
      | true =>
          rw [sinceReset, List.takeWhile_cons_of_neg (by rw [hm]; nofun)] at h
          cases h
      | false =>
          have hresets : resets (m :: ℓ) = resets ℓ :=
            List.countP_cons_of_neg (by rw [hm]; nofun)
          rw [sinceReset_cons hm] at h
          rcases List.mem_cons.mp h with rfl | h
          · exact ⟨ℓ, List.suffix_rfl, hresets.symm⟩
          · obtain ⟨ℓ', hs, heq⟩ := ih h
            exact ⟨ℓ', hs.trans (List.suffix_cons m ℓ), heq.trans hresets.symm⟩

theorem Current.cons {s : Search} (h : Current s ℓ) (hn : n.isReset = false)
    (hW : ∀ W ∈ n.window?, W.2 = s.index) : Current s (n :: ℓ) := by
  intro m hm
  rw [sinceReset_cons hn] at hm
  rcases List.mem_cons.mp hm with rfl | hm
  · exact hW
  · exact h m hm

theorem current_reset {s : Search} {depth : Nat} {answer : Except Fault Unit} :
    Current s (.reset depth answer :: ℓ) := fun _ hm => by cases hm

theorem rest_append {s : Search} : ∀ {new : List (Note μ)}, (∀ n ∈ new, n.Quiet) → Tiled ℓ →
    Current s ℓ → resets (new ++ ℓ) = resets ℓ ∧ lastReset? (new ++ ℓ) = lastReset? ℓ ∧
      Tiled (new ++ ℓ) ∧ Current s (new ++ ℓ)
  | [], _, htiled, hcurrent => ⟨rfl, rfl, htiled, hcurrent⟩
  | n :: new, hquiet, htiled, hcurrent => by
      obtain ⟨hn, hnew⟩ := List.forall_mem_cons.mp hquiet
      obtain ⟨hresets, hreset, htiled', hcurrent'⟩ := rest_append hnew htiled hcurrent
      have hnone : ∀ W, W ∉ n.window? := fun W hW => by
        rw [hn.window] at hW
        cases hW
      refine ⟨?_, ?_, htiled'.cons fun W hW => absurd hW (hnone W),
        hcurrent'.cons hn.reset fun W hW => absurd hW (hnone W)⟩
      · rw [List.cons_append, resets, List.countP_cons_of_neg (by rw [hn.reset]; nofun)]
        exact hresets
      · rw [List.cons_append, lastReset?,
          List.findSome?_cons_of_isNone (by rw [hn.resetDepth]; rfl)]
        exact hreset

def Quietly (ℓ ℓ' : List (Note μ)) : Prop := ∃ new, ℓ' = new ++ ℓ ∧ ∀ n ∈ new, n.Quiet

namespace Quietly

theorem refl (ℓ : List (Note μ)) : Quietly ℓ ℓ := ⟨[], rfl, nofun⟩

theorem trans {ℓ'' : List (Note μ)} (h : Quietly ℓ ℓ') (h' : Quietly ℓ' ℓ'') :
    Quietly ℓ ℓ'' := by
  obtain ⟨new, rfl, hnew⟩ := h
  obtain ⟨new', rfl, hnew'⟩ := h'
  exact ⟨new' ++ new, (List.append_assoc ..).symm,
    fun n hn => (List.mem_append.mp hn).elim (hnew' n) (hnew n)⟩

theorem note (ℓ : List (Note μ)) (h : n.Quiet) : Quietly ℓ (n :: ℓ) :=
  ⟨[n], rfl, fun _ hm => List.mem_singleton.mp hm ▸ h⟩

end Quietly

structure Still (t t' : Search × σ × List (Note μ)) : Prop where
  index : t'.1.index = t.1.index
  depth : t'.1.depth = t.1.depth
  rounds : t'.1.stats.rounds = t.1.stats.rounds
  notes : Quietly t.2.2 t'.2.2

namespace Still

theorem refl (t : Search × σ × List (Note μ)) : Still t t := ⟨rfl, rfl, rfl, .refl _⟩

theorem trans (h : Still t t') (h' : Still t' t'') : Still t t'' :=
  ⟨h'.index.trans h.index, h'.depth.trans h.depth, h'.rounds.trans h.rounds,
    h.notes.trans h'.notes⟩

theorem rest (h : Still t t') (hclear : Clear t) : resets t'.2.2 = resets t.2.2 ∧
    lastReset? t'.2.2 = lastReset? t.2.2 ∧ Clear t' := by
  obtain ⟨new, hnew, hquiet⟩ := h.notes
  have hcurrent : Current t'.1 t.2.2 := fun n hn W hW =>
    (hclear.current n hn W hW).trans h.index.symm
  obtain ⟨hresets, hreset, htiled, hcurrent'⟩ := rest_append hquiet hclear.tiled hcurrent
  rw [← hnew] at hresets hreset htiled hcurrent'
  exact ⟨hresets, hreset, htiled, hcurrent'⟩

end Still

end Invariance
