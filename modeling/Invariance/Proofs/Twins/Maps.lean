import Invariance.Formula.Relocation
import Mathlib.Data.List.Forall2
import Mathlib.Data.Option.Basic

/-!
Maps whose keys are paired off. A matching pairs formulas of two stores so that the order of their
numbers is the same on both sides. Two maps are alike under it when their entries are paired one by
one, in order, and every operation on maps keeps them alike.
-/

namespace Invariance

universe u v

variable {α : Type u} {β : Type v} {R R' : Formula → Formula → Prop} {V V' : α → β → Prop}
  {f f' g g' : Formula} {a : α} {b : β}

/-- Pairs formulas in the order of their numbers. -/
def Matching (R : Formula → Formula → Prop) : Prop :=
  ∀ {f f' g g'}, R f g → R f' g' → (f < f' ↔ g < g')

theorem Matching.eq_iff (hR : Matching R) (h : R f g) (h' : R f' g') : f = f' ↔ g = g' := by
  have hlt := hR h h'
  have hgt := hR h' h
  simp only [Formula.lt_def] at hlt hgt
  constructor
  · rintro rfl
    exact congrArg Formula.mk (by omega)
  · rintro rfl
    exact congrArg Formula.mk (by omega)

theorem exists_right_of_forall₂ {γ δ : Type*} {P : γ → δ → Prop} {l : List γ} {l' : List δ}
    (h : List.Forall₂ P l l') {x : γ} (hx : x ∈ l) : ∃ y ∈ l', P x y := by
  induction h with
  | nil => cases hx
  | cons hhead _ ih =>
      rcases List.mem_cons.mp hx with rfl | hx
      · exact ⟨_, List.mem_cons_self, hhead⟩
      · obtain ⟨y, hy, hxy⟩ := ih hx
        exact ⟨y, List.mem_cons_of_mem _ hy, hxy⟩

theorem exists_left_of_forall₂ {γ δ : Type*} {P : γ → δ → Prop} {l : List γ} {l' : List δ}
    (h : List.Forall₂ P l l') {y : δ} (hy : y ∈ l') : ∃ x ∈ l, P x y :=
  exists_right_of_forall₂ (P := flip P) (List.Forall₂.flip (R := flip P) h) hy

def EntriesAlike (R : Formula → Formula → Prop) (V : α → β → Prop) (x : Formula × α)
    (y : Formula × β) : Prop :=
  R x.1 y.1 ∧ V x.2 y.2

namespace EntriesAlike

theorem findEntry (hR : Matching R) {l : List (Formula × α)} {l' : List (Formula × β)}
    (h : List.Forall₂ (EntriesAlike R V) l l') (hf : R f g) :
    Option.Rel V (Invariance.findEntry f l) (Invariance.findEntry g l') := by
  induction h with
  | nil => exact .none
  | @cons x y l l' hx _ ih =>
      simp only [Invariance.findEntry]
      by_cases hkey : f = x.1
      · rw [if_pos hkey, if_pos ((hR.eq_iff hf hx.1).mp hkey)]
        exact .some hx.2
      · rw [if_neg hkey, if_neg fun h => hkey ((hR.eq_iff hf hx.1).mpr h)]
        exact ih

theorem insertEntry (hR : Matching R) {l : List (Formula × α)} {l' : List (Formula × β)}
    (h : List.Forall₂ (EntriesAlike R V) l l') (hf : R f g) (ha : V a b) :
    List.Forall₂ (EntriesAlike R V) (Invariance.insertEntry f a l)
      (Invariance.insertEntry g b l') := by
  have hnew : EntriesAlike R V (f, a) (g, b) := ⟨hf, ha⟩
  induction h with
  | nil => exact .cons hnew .nil
  | @cons x y l l' hx hrest ih =>
      simp only [Invariance.insertEntry]
      by_cases hlt : f < x.1
      · rw [if_pos hlt, if_pos ((hR hf hx.1).mp hlt)]
        exact .cons hnew (.cons hx hrest)
      · rw [if_neg hlt, if_neg fun h => hlt ((hR hf hx.1).mpr h)]
        by_cases hkey : f = x.1
        · rw [if_pos hkey, if_pos ((hR.eq_iff hf hx.1).mp hkey)]
          exact .cons hnew hrest
        · rw [if_neg hkey, if_neg fun h => hkey ((hR.eq_iff hf hx.1).mpr h)]
          exact .cons hx ih

theorem eraseEntry (hR : Matching R) {l : List (Formula × α)} {l' : List (Formula × β)}
    (h : List.Forall₂ (EntriesAlike R V) l l') (hf : R f g) :
    List.Forall₂ (EntriesAlike R V) (l.filter fun x => x.1 ≠ f) (l'.filter fun x => x.1 ≠ g) := by
  induction h with
  | nil => exact .nil
  | @cons x y l l' hx hrest ih =>
      have hkey := hR.eq_iff hx.1 hf
      by_cases hne : x.1 = f
      · rw [List.filter_cons_of_neg (by simpa using hne),
          List.filter_cons_of_neg (by simpa using hkey.mp hne)]
        exact ih
      · rw [List.filter_cons_of_pos (by simpa using hne),
          List.filter_cons_of_pos (by simpa using fun h => hne (hkey.mpr h))]
        exact .cons hx ih

theorem ascending (hR : Matching R) {l : List (Formula × α)} {l' : List (Formula × β)}
    (h : List.Forall₂ (EntriesAlike R V) l l') (hl' : Ascending l') : Ascending l := by
  induction h with
  | nil => exact .nil
  | cons hx hrest ih =>
      obtain ⟨hhead, htail⟩ := List.pairwise_cons.mp hl'
      refine List.pairwise_cons.mpr ⟨fun x hin => ?_, ih htail⟩
      obtain ⟨y, hy, halike⟩ := exists_right_of_forall₂ hrest hin
      exact (hR hx.1 halike.1).mpr (hhead y hy)

end EntriesAlike

namespace FormulaMap

def Alike (R : Formula → Formula → Prop) (V : α → β → Prop) (m : FormulaMap α)
    (n : FormulaMap β) : Prop :=
  List.Forall₂ (EntriesAlike R V) m.entries n.entries

theorem insertEntry_append {l : List (Formula × α)} (h : ∀ x ∈ l, x.1 < f) :
    insertEntry f a l = l ++ [(f, a)] := by
  induction l with
  | nil => rfl
  | cons x l ih =>
      have hlt : x.1.id < f.id := h x List.mem_cons_self
      have hnot : ¬ f < x.1 := fun hf => Nat.lt_asymm hlt hf
      have hne : f ≠ x.1 := fun hf => Nat.lt_irrefl f.id (hf ▸ hlt)
      rw [insertEntry, if_neg hnot, if_neg hne, ih fun y hy => h y (List.mem_cons_of_mem _ hy)]
      rfl

theorem entries_ofList {l : List (Formula × α)} (h : Ascending l) : (ofList l).entries = l := by
  have key : ∀ (l : List (Formula × α)) (m : FormulaMap α), Ascending (m.entries ++ l) →
      (l.foldl (fun m x => m.insert x.1 x.2) m).entries = m.entries ++ l := by
    intro l
    induction l with
    | nil => exact fun m _ => (List.append_nil _).symm
    | cons x l ih =>
        intro m hm
        have hbelow : ∀ y ∈ m.entries, y.1 < x.1 := fun y hy =>
          (List.pairwise_append.mp hm).2.2 y hy x List.mem_cons_self
        have hins : (m.insert x.1 x.2).entries = m.entries ++ [x] := insertEntry_append hbelow
        have hcons : m.entries ++ x :: l = (m.insert x.1 x.2).entries ++ l := by
          rw [hins, List.append_assoc]
          rfl
        rw [List.foldl_cons, ih _ (hcons ▸ hm), ← hcons]
  exact key l empty h

namespace Alike

variable {m : FormulaMap α} {n : FormulaMap β}

theorem empty : Alike R V (.empty : FormulaMap α) (.empty : FormulaMap β) := .nil

theorem mono (h : Alike R V m n) (hR : ∀ {f g}, R f g → R' f g) (hV : ∀ {a b}, V a b → V' a b) :
    Alike R' V' m n :=
  List.Forall₂.imp (fun _ _ hx => ⟨hR hx.1, hV hx.2⟩) h

theorem size_eq (h : Alike R V m n) : m.size = n.size := h.length_eq

theorem isEmpty_eq (h : Alike R V m n) : m.isEmpty = n.isEmpty := by
  obtain ⟨l, _⟩ := m
  obtain ⟨l', _⟩ := n
  cases h <;> rfl

theorem get? (h : Alike R V m n) (hR : Matching R) (hf : R f g) :
    Option.Rel V (m.get? f) (n.get? g) :=
  EntriesAlike.findEntry hR h hf

theorem contains_eq (h : Alike R V m n) (hR : Matching R) (hf : R f g) :
    m.contains f = n.contains g := by
  have hrel := h.get? hR hf
  rw [contains, contains]
  revert hrel
  generalize m.get? f = o
  generalize n.get? g = o'
  rintro (_ | _) <;> rfl

theorem insert (h : Alike R V m n) (hR : Matching R) (hf : R f g) (ha : V a b) :
    Alike R V (m.insert f a) (n.insert g b) :=
  EntriesAlike.insertEntry hR h hf ha

theorem erase (h : Alike R V m n) (hR : Matching R) (hf : R f g) :
    Alike R V (m.erase f) (n.erase g) :=
  EntriesAlike.eraseEntry hR h hf

/-- What survives a move is alike to what it was paired with before, and a move that nothing is
lost in keeps the order of the entries. -/
theorem rekey (h : Alike R V m n) (hR' : Matching R') {γ : Type*} {V' : γ → β → Prop}
    {move : Formula × α → Option (Formula × γ)}
    (hmove : ∀ {x y}, EntriesAlike R V x y → ∃ x', move x = some x' ∧ EntriesAlike R' V' x' y) :
    (m.rekey move).entries = m.entries.filterMap move ∧ Alike R' V' (m.rekey move) n := by
  have key : ∀ {l : List (Formula × α)} {l' : List (Formula × β)},
      List.Forall₂ (EntriesAlike R V) l l' →
        List.Forall₂ (EntriesAlike R' V') (l.filterMap move) l' := by
    intro l l' hl
    induction hl with
    | nil => exact .nil
    | cons hx _ ih =>
        obtain ⟨x', hx', halike⟩ := hmove hx
        rw [List.filterMap_cons_some hx']
        exact .cons halike ih
  have hentries := entries_ofList (EntriesAlike.ascending hR' (key h) n.ascending)
  refine ⟨hentries, ?_⟩
  rw [Alike, FormulaMap.rekey, hentries]
  exact key h

theorem exists_left (h : Alike R V m n) (hb : n.get? g = some b) :
    ∃ f a, R f g ∧ m.get? f = some a ∧ V a b := by
  obtain ⟨x, hx, halike⟩ := exists_left_of_forall₂ h (mem_entries.mpr hb)
  exact ⟨x.1, x.2, halike.1, mem_entries.mp hx, halike.2⟩

theorem exists_right (h : Alike R V m n) (ha : m.get? f = some a) :
    ∃ g b, R f g ∧ n.get? g = some b ∧ V a b := by
  obtain ⟨y, hy, halike⟩ := exists_right_of_forall₂ h (mem_entries.mpr ha)
  exact ⟨y.1, y.2, halike.1, mem_entries.mp hy, halike.2⟩

theorem keys (h : Alike R V m n) : List.Forall₂ R m.keys n.keys := by
  rw [FormulaMap.keys, FormulaMap.keys, List.forall₂_map_left_iff, List.forall₂_map_right_iff]
  exact h.imp fun _ _ hx => hx.1

end Alike

end FormulaMap

end Invariance
