import Invariance.Proofs.Twins.Containers

/-!
Relocations as partial maps. One after another they are again a relocation, a list of moves takes
every formula one step and no further, and a map whose keys stay apart is rewritten entry by entry.
-/

namespace Invariance

namespace Relocation

variable {r s : Relocation} {f g : Formula} {fs gs : List Formula}

/-- First `r`, then `s`: what is gone after one of them stays gone. -/
def andThen (r s : Relocation) : Relocation :=
  ⟨(FormulaSet.ofList (r.fate.keys ++ s.fate.keys)).rekey fun x =>
    some (x.1, (r.apply x.1).bind s.apply)⟩

def ofMoves (moves : List (Formula × Formula)) : Relocation :=
  moves.foldl (fun r m => r.move m.1 m.2) {}

/-- No two of the formulas that survive get one name. -/
def InjectiveOn (r : Relocation) (fs : List Formula) : Prop :=
  ∀ f ∈ fs, ∀ g ∈ fs, (r.apply f).isSome = true → r.apply f = r.apply g → f = g

instance : Decidable (r.InjectiveOn fs) :=
  inferInstanceAs (Decidable
    (∀ f ∈ fs, ∀ g ∈ fs, (r.apply f).isSome = true → r.apply f = r.apply g → f = g))

theorem InjectiveOn.eq (h : r.InjectiveOn fs) (hf : f ∈ fs) (hg : g ∈ fs) {k : Formula}
    (hfk : r.apply f = some k) (hgk : r.apply g = some k) : f = g :=
  h f hf g hg (by rw [hfk]; rfl) (hfk.trans hgk.symm)

theorem InjectiveOn.mono (h : r.InjectiveOn fs) (hsub : ∀ f ∈ gs, f ∈ fs) : r.InjectiveOn gs :=
  fun f hf g hg => h f (hsub f hf) g (hsub g hg)

theorem apply_of_not_mem (h : f ∉ r.fate.keys) : r.apply f = some f := by
  rw [FormulaMap.mem_keys, Bool.not_eq_true, FormulaMap.contains_eq_false] at h
  rw [apply, h]

theorem apply_ofMoves {moves : List (Formula × Formula)} (h : (moves.map Prod.fst).Nodup)
    (f : Formula) : (ofMoves moves).apply f = some ((moves.lookup f).getD f) := by
  have key : ∀ (moves : List (Formula × Formula)) (r : Relocation), (moves.map Prod.fst).Nodup →
      (moves.foldl (fun r m => r.move m.1 m.2) r).apply f =
        ((moves.lookup f).map some).getD (r.apply f) := by
    intro moves
    induction moves with
    | nil => exact fun _ _ => rfl
    | cons m moves ih =>
        intro r hnodup
        obtain ⟨hm, hrest⟩ := List.nodup_cons.mp hnodup
        rw [List.foldl_cons, ih _ hrest, apply_move, List.lookup_cons]
        by_cases hf : f = m.1
        · -- a later move of the same formula would win, but there is none
          have hnone : moves.lookup f = none := List.lookup_eq_none_iff.mpr fun x hx =>
            bne_iff_ne.mpr fun heq => hm (List.mem_map.mpr ⟨x, hx, heq.symm.trans hf⟩)
          simp [hf ▸ hnone, hf]
        · simp [hf, beq_eq_false_iff_ne.mpr hf]
  rw [ofMoves, key moves {} h, apply_empty]
  cases moves.lookup f <;> rfl

end Relocation

namespace FormulaMap

variable {α β γ : Type} {m : FormulaMap α} {move : Formula × α → Option (Formula × β)}
  {move' : Formula × β → Option (Formula × γ)} {f g : Formula} {a : α} {b : β} {r : Relocation}
  {fs : List Formula}

/-- No two entries end under one key. -/
def Apart (m : FormulaMap α) (move : Formula × α → Option (Formula × β)) : Prop :=
  ∀ {f a f' a' g b b'}, m.get? f = some a → m.get? f' = some a' → move (f, a) = some (g, b) →
    move (f', a') = some (g, b') → f = f'

theorem get?_rekey (h : m.Apart move) :
    (m.rekey move).get? g = some b ↔ ∃ f a, m.get? f = some a ∧ move (f, a) = some (g, b) := by
  have hnodup : ((m.entries.filterMap move).map Prod.fst).Nodup := by
    rw [List.map_filterMap, List.Nodup, List.pairwise_filterMap]
    refine m.ascending.imp_of_mem fun {x y} hx hy hlt k hk k' hk' heq => ?_
    obtain ⟨⟨k, b⟩, hxk, rfl⟩ := Option.map_eq_some_iff.mp hk
    obtain ⟨⟨k', b'⟩, hyk, rfl⟩ := Option.map_eq_some_iff.mp hk'
    obtain rfl : k = k' := heq
    have hxy : x.1 = y.1 := h (mem_entries.mp hx) (mem_entries.mp hy) hxk hyk
    exact Nat.lt_irrefl y.1.id (hxy ▸ hlt)
  rw [rekey, get?_ofList hnodup, List.mem_filterMap]
  simp only [Prod.exists, mem_entries]

theorem Apart.rekey (h : m.Apart move) (h' : m.Apart fun x => (move x).bind move') :
    (m.rekey move).Apart move' := fun hg hg' hk hk' => by
  obtain ⟨f, a, hf, hfg⟩ := (get?_rekey h).mp hg
  obtain ⟨f', a', hf', hfg'⟩ := (get?_rekey h).mp hg'
  obtain rfl := h' hf hf' (Option.bind_eq_some_iff.mpr ⟨_, hfg, hk⟩)
    (Option.bind_eq_some_iff.mpr ⟨_, hfg', hk'⟩)
  obtain rfl := Option.some.inj (hf.symm.trans hf')
  exact congrArg Prod.fst (Option.some.inj (hfg.symm.trans hfg'))

theorem rekey_rekey (h : m.Apart move) (h' : m.Apart fun x => (move x).bind move') :
    (m.rekey move).rekey move' = m.rekey fun x => (move x).bind move' := by
  refine ext_get? fun k => Option.ext fun c => ?_
  rw [get?_rekey (h.rekey h'), get?_rekey h']
  constructor
  · rintro ⟨g, b, hg, hk⟩
    obtain ⟨f, a, hf, hfg⟩ := (get?_rekey h).mp hg
    exact ⟨f, a, hf, Option.bind_eq_some_iff.mpr ⟨_, hfg, hk⟩⟩
  · rintro ⟨f, a, hf, hfk⟩
    obtain ⟨⟨g, b⟩, hfg, hk⟩ := Option.bind_eq_some_iff.mp hfk
    exact ⟨g, b, (get?_rekey h).mpr ⟨f, a, hf, hfg⟩, hk⟩

/-- The entries are kept under some of the formulas `fs`, and `move` gives each of them the key that
`r` names. -/
structure Along (m : FormulaMap α) (fs : List Formula) (r : Relocation)
    (move : Formula × α → Option (Formula × β)) : Prop where
  stored : ∀ {f}, m.contains f = true → f ∈ fs
  along : ∀ {f a g b}, m.get? f = some a → move (f, a) = some (g, b) → r.apply f = some g

namespace Along

theorem mem (h : m.Along fs r move) (hf : m.get? f = some a) : f ∈ fs :=
  h.stored (contains_iff.mpr ⟨a, hf⟩)

theorem apart (h : m.Along fs r move) (hr : r.InjectiveOn fs) : m.Apart move :=
  fun hf hf' hg hg' => hr.eq (h.mem hf) (h.mem hf') (h.along hf hg) (h.along hf' hg')

theorem get?_rekey_of_apply (h : m.Along fs r move) (hr : r.InjectiveOn fs) (hf : f ∈ fs)
    (hg : r.apply f = some g) :
    (m.rekey move).get? g = (m.get? f).bind fun a => (move (f, a)).map Prod.snd := by
  refine Option.ext fun b => ?_
  rw [get?_rekey (h.apart hr), Option.bind_eq_some_iff]
  constructor
  · rintro ⟨f', a, hf', hmove⟩
    obtain rfl := hr.eq (h.mem hf') hf (h.along hf' hmove) hg
    exact ⟨a, hf', by rw [hmove]; rfl⟩
  · rintro ⟨a, ha, hb⟩
    obtain ⟨⟨g', b⟩, hmove, rfl⟩ := Option.map_eq_some_iff.mp hb
    obtain rfl := Option.some.inj ((h.along ha hmove).symm.trans hg)
    exact ⟨f, a, ha, hmove⟩

end Along

end FormulaMap

namespace Relocation

theorem apply_andThen (r s : Relocation) (f : Formula) :
    (r.andThen s).apply f = (r.apply f).bind s.apply := by
  have hapart : (FormulaSet.ofList (r.fate.keys ++ s.fate.keys)).Apart fun x =>
      some (x.1, (r.apply x.1).bind s.apply) := fun _ _ h h' =>
    (Prod.mk.inj (Option.some.inj h)).1.trans (Prod.mk.inj (Option.some.inj h')).1.symm
  have hget : ∀ {fate : Option Formula}, (r.andThen s).fate.get? f = some fate ↔
      f ∈ r.fate.keys ++ s.fate.keys ∧ (r.apply f).bind s.apply = fate := fun {fate} => by
    refine (FormulaMap.get?_rekey hapart).trans ?_
    constructor
    · rintro ⟨g, _, hg, h⟩
      obtain ⟨rfl, rfl⟩ := Prod.mk.inj (Option.some.inj h)
      have hin := FormulaMap.contains_iff.mpr ⟨_, hg⟩
      rw [FormulaSet.contains_ofList, decide_eq_true_eq] at hin
      exact ⟨hin, rfl⟩
    · rintro ⟨hin, rfl⟩
      obtain ⟨a, ha⟩ := FormulaMap.contains_iff.mp
        ((FormulaSet.contains_ofList _ f).trans (decide_eq_true hin))
      exact ⟨f, a, ha, rfl⟩
  rw [apply]
  cases hfate : (r.andThen s).fate.get? f with
  | some fate => exact (hget.mp hfate).2.symm
  | none =>
      have hout : f ∉ r.fate.keys ++ s.fate.keys := fun hin => by
        rw [hget.mpr ⟨hin, rfl⟩] at hfate
        cases hfate
      rw [List.mem_append, not_or] at hout
      rw [apply_of_not_mem hout.1]
      exact (apply_of_not_mem hout.2).symm

end Relocation

end Invariance
