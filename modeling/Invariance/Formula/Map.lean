import Invariance.Formula

/-!
Finite maps and sets keyed by formulas, kept as lists in strictly ascending order. Two maps with
the same entries are therefore equal, and every traversal is in the order of the numbers.
-/

namespace Invariance

universe u v

variable {α : Type u} {β : Type v}

def insertEntry (f : Formula) (a : α) : List (Formula × α) → List (Formula × α)
  | [] => [(f, a)]
  | (g, b) :: rest =>
      if f < g then (f, a) :: (g, b) :: rest
      else if f = g then (f, a) :: rest
      else (g, b) :: insertEntry f a rest

def findEntry (f : Formula) : List (Formula × α) → Option α
  | [] => none
  | (g, b) :: rest => if f = g then some b else findEntry f rest

def Ascending (entries : List (Formula × α)) : Prop :=
  entries.Pairwise fun x y => x.1 < y.1

theorem mem_insertEntry {f : Formula} {a : α} {entries : List (Formula × α)} {x : Formula × α}
    (h : x ∈ insertEntry f a entries) : x = (f, a) ∨ x ∈ entries := by
  induction entries with
  | nil => exact Or.inl (by simpa [insertEntry] using h)
  | cons e rest ih =>
      simp only [insertEntry] at h
      split at h
      · simpa using h
      · split at h
        · rcases List.mem_cons.mp h with h | h
          · exact Or.inl h
          · exact Or.inr (List.mem_cons_of_mem _ h)
        · rcases List.mem_cons.mp h with h | h
          · exact Or.inr (h ▸ List.mem_cons_self)
          · exact (ih h).imp id (List.mem_cons_of_mem _)

theorem Ascending.insertEntry {entries : List (Formula × α)} (h : Ascending entries)
    (f : Formula) (a : α) : Ascending (insertEntry f a entries) := by
  induction entries with
  | nil => simp [Ascending, Invariance.insertEntry]
  | cons e rest ih =>
      obtain ⟨hhead, hrest⟩ := List.pairwise_cons.mp h
      simp only [Invariance.insertEntry]
      split
      next hlt =>
        refine List.pairwise_cons.mpr ⟨fun y hy => ?_, h⟩
        rcases List.mem_cons.mp hy with rfl | hy
        · exact hlt
        · exact Nat.lt_trans hlt (hhead y hy)
      next hlt =>
        split
        next heq => exact List.pairwise_cons.mpr ⟨fun y hy => heq ▸ hhead y hy, hrest⟩
        next hne =>
          refine List.pairwise_cons.mpr ⟨fun y hy => ?_, ih hrest⟩
          rcases mem_insertEntry hy with rfl | hy
          · have hid : f.id ≠ e.1.id := fun hid => hne (congrArg Formula.mk hid)
            exact Nat.lt_of_le_of_ne (Nat.le_of_not_lt hlt) (Ne.symm hid)
          · exact hhead y hy

theorem findEntry_insertEntry (f g : Formula) (a : α) (entries : List (Formula × α)) :
    findEntry g (insertEntry f a entries) = if g = f then some a else findEntry g entries := by
  induction entries with
  | nil => simp [insertEntry, findEntry]
  | cons e rest ih =>
      obtain ⟨k, b⟩ := e
      simp only [insertEntry]
      split
      next => simp only [findEntry]
      next =>
        split
        next heq =>
          subst heq
          simp only [findEntry]
          split <;> rfl
        next hne =>
          simp only [findEntry, ih]
          split
          next hk => rw [if_neg fun h => hne (h.symm.trans hk)]
          next => rfl

theorem findEntry_eq_none {f : Formula} {entries : List (Formula × α)}
    (h : ∀ x ∈ entries, f < x.1) : findEntry f entries = none := by
  induction entries with
  | nil => rfl
  | cons e rest ih =>
      have hne : f ≠ e.1 := fun heq =>
        Nat.lt_irrefl f.id
          (Nat.lt_of_lt_of_eq (h e List.mem_cons_self) (congrArg Formula.id heq.symm))
      rw [findEntry, if_neg hne]
      exact ih fun x hx => h x (List.mem_cons_of_mem _ hx)

theorem findEntry_filter_ne (f g : Formula) (entries : List (Formula × α)) :
    findEntry g (entries.filter fun x => x.1 ≠ f) =
      if g = f then none else findEntry g entries := by
  induction entries with
  | nil => simp [findEntry]
  | cons e rest ih =>
      by_cases he : e.1 = f
      · rw [List.filter_cons_of_neg (by simpa using he), ih, findEntry, he]
        split
        next => rfl
        next hg => rfl
      · rw [List.filter_cons_of_pos (by simpa using he), findEntry, findEntry, ih]
        by_cases hg : g = e.1
        · rw [if_pos hg, if_pos hg, if_neg fun h => he (hg.symm.trans h)]
        · rw [if_neg hg, if_neg hg]

theorem Ascending.findEntry_eq_some {f : Formula} {a : α} :
    ∀ {entries : List (Formula × α)}, Ascending entries →
      (findEntry f entries = some a ↔ (f, a) ∈ entries)
  | [], _ => by simp [findEntry]
  | (k, b) :: rest, h => by
      obtain ⟨hhead, htail⟩ := List.pairwise_cons.mp h
      have ih := Ascending.findEntry_eq_some (f := f) (a := a) htail
      by_cases hf : f = k
      · subst hf
        have hnot : (f, a) ∉ rest := fun hm => Nat.lt_irrefl f.id (hhead (f, a) hm)
        simp [findEntry, hnot, eq_comm]
      · simp [findEntry, hf, ih]

theorem Ascending.eq_of_findEntry : ∀ {l l' : List (Formula × α)}, Ascending l → Ascending l' →
    (∀ f, findEntry f l = findEntry f l') → l = l'
  | [], [], _, _, _ => rfl
  | [], e :: _, _, _, h => by simpa [findEntry] using h e.1
  | e :: _, [], _, _, h => by simpa [findEntry] using h e.1
  | (k, a) :: l, (k', a') :: l', hl, hl', h => by
      obtain ⟨hhead, htail⟩ := List.pairwise_cons.mp hl
      obtain ⟨hhead', htail'⟩ := List.pairwise_cons.mp hl'
      have hkey : k = k' := by
        have hk := h k
        have hk' := h k'
        rcases Nat.lt_trichotomy k.id k'.id with hlt | heq | hlt
        · have hnone : findEntry k ((k', a') :: l') = none := findEntry_eq_none fun x hx => by
            rcases List.mem_cons.mp hx with rfl | hx
            · exact hlt
            · exact Nat.lt_trans hlt (hhead' x hx)
          rw [hnone] at hk
          simp [findEntry] at hk
        · exact congrArg Formula.mk heq
        · have hnone : findEntry k' ((k, a) :: l) = none := findEntry_eq_none fun x hx => by
            rcases List.mem_cons.mp hx with rfl | hx
            · exact hlt
            · exact Nat.lt_trans hlt (hhead x hx)
          rw [hnone] at hk'
          simp [findEntry] at hk'
      subst hkey
      have ha : a = a' := by simpa [findEntry] using h k
      subst ha
      refine congrArg _ (Ascending.eq_of_findEntry htail htail' fun f => ?_)
      by_cases hf : f = k
      · subst hf
        rw [findEntry_eq_none hhead, findEntry_eq_none hhead']
      · simpa [findEntry, hf] using h f

structure FormulaMap (α : Type u) where
  entries : List (Formula × α)
  ascending : Ascending entries

namespace FormulaMap

def empty : FormulaMap α := ⟨[], List.Pairwise.nil⟩

instance : Inhabited (FormulaMap α) := ⟨empty⟩

def size (m : FormulaMap α) : Nat := m.entries.length

def isEmpty (m : FormulaMap α) : Bool := m.entries.isEmpty

def get? (m : FormulaMap α) (f : Formula) : Option α := findEntry f m.entries

def contains (m : FormulaMap α) (f : Formula) : Bool := (m.get? f).isSome

def keys (m : FormulaMap α) : List Formula := m.entries.map Prod.fst

def insert (m : FormulaMap α) (f : Formula) (a : α) : FormulaMap α :=
  ⟨insertEntry f a m.entries, m.ascending.insertEntry f a⟩

def erase (m : FormulaMap α) (f : Formula) : FormulaMap α :=
  ⟨m.entries.filter fun x => x.1 ≠ f, m.ascending.filter _⟩

def ofList (entries : List (Formula × α)) : FormulaMap α :=
  entries.foldl (fun m x => m.insert x.1 x.2) empty

/-- Rewrites or drops each entry; the order of the old keys decides which of two entries with one
new key is the later one. -/
def rekey (m : FormulaMap α) (move : Formula × α → Option (Formula × β)) : FormulaMap β :=
  ofList (m.entries.filterMap move)

theorem get?_empty (f : Formula) : (empty : FormulaMap α).get? f = none := rfl

theorem get?_insert (m : FormulaMap α) (f g : Formula) (a : α) :
    (m.insert f a).get? g = if g = f then some a else m.get? g :=
  findEntry_insertEntry f g a m.entries

theorem ext_get? {m n : FormulaMap α} (h : ∀ f, m.get? f = n.get? f) : m = n := by
  obtain ⟨l, hl⟩ := m
  obtain ⟨l', hl'⟩ := n
  obtain rfl : l = l' := hl.eq_of_findEntry hl' h
  rfl

theorem get?_erase (m : FormulaMap α) (f g : Formula) :
    (m.erase f).get? g = if g = f then none else m.get? g :=
  findEntry_filter_ne f g m.entries

theorem mem_entries {m : FormulaMap α} {f : Formula} {a : α} :
    (f, a) ∈ m.entries ↔ m.get? f = some a :=
  m.ascending.findEntry_eq_some.symm

theorem contains_iff {m : FormulaMap α} {f : Formula} :
    m.contains f = true ↔ ∃ a, m.get? f = some a :=
  Option.isSome_iff_exists

theorem contains_eq_false {m : FormulaMap α} {f : Formula} :
    m.contains f = false ↔ m.get? f = none := by
  simp [contains]

theorem mem_keys {m : FormulaMap α} {f : Formula} : f ∈ m.keys ↔ m.contains f = true := by
  rw [contains_iff, keys, List.mem_map]
  constructor
  · rintro ⟨⟨g, a⟩, h, rfl⟩
    exact ⟨a, mem_entries.mp h⟩
  · rintro ⟨a, h⟩
    exact ⟨(f, a), mem_entries.mpr h, rfl⟩

theorem keys_nodup (m : FormulaMap α) : m.keys.Nodup := by
  refine List.pairwise_map.mpr (m.ascending.imp fun {x y} h heq => ?_)
  rw [heq] at h
  exact Nat.lt_irrefl y.1.id h

theorem length_keys (m : FormulaMap α) : m.keys.length = m.size := List.length_map ..

theorem contains_insert (m : FormulaMap α) (f g : Formula) (a : α) :
    (m.insert f a).contains g = (decide (g = f) || m.contains g) := by
  rw [contains, get?_insert, contains]
  by_cases h : g = f <;> simp [h]

theorem contains_erase (m : FormulaMap α) (f g : Formula) :
    (m.erase f).contains g = (!decide (g = f) && m.contains g) := by
  rw [contains, get?_erase, contains]
  by_cases h : g = f <;> simp [h]

theorem keys_perm_insert {m : FormulaMap α} {f : Formula} (a : α) (h : m.contains f = false) :
    (m.insert f a).keys.Perm (f :: m.keys) := by
  have hnot : f ∉ m.keys := fun hm => by
    rw [mem_keys, h] at hm
    exact Bool.false_ne_true hm
  refine (List.perm_ext_iff_of_nodup (keys_nodup _) (List.nodup_cons.mpr ⟨hnot, keys_nodup m⟩)).mpr
    fun g => ?_
  rw [mem_keys, contains_insert, List.mem_cons, mem_keys, Bool.or_eq_true, decide_eq_true_eq]

theorem size_insert {m : FormulaMap α} {f : Formula} (a : α) (h : m.contains f = false) :
    (m.insert f a).size = m.size + 1 := by
  rw [← length_keys, (keys_perm_insert a h).length_eq, List.length_cons, length_keys]

theorem get?_ofList {entries : List (Formula × α)} (hnodup : (entries.map Prod.fst).Nodup)
    {f : Formula} {a : α} : (ofList entries).get? f = some a ↔ (f, a) ∈ entries := by
  have key : ∀ (entries : List (Formula × α)) (m : FormulaMap α), (entries.map Prod.fst).Nodup →
      ((entries.foldl (fun m x => m.insert x.1 x.2) m).get? f = some a ↔
        (f, a) ∈ entries ∨ (f ∉ entries.map Prod.fst ∧ m.get? f = some a)) := by
    intro entries
    induction entries with
    | nil => simp
    | cons e rest ih =>
        intro m hnodup
        obtain ⟨k, b⟩ := e
        obtain ⟨hk, hrest⟩ := List.nodup_cons.mp hnodup
        have hk' : ∀ c, (k, c) ∉ rest := fun c hc => hk (List.mem_map.mpr ⟨(k, c), hc, rfl⟩)
        rw [List.foldl_cons, ih _ hrest, get?_insert]
        by_cases hf : f = k
        · subst hf
          simp [hk', hk, eq_comm]
        · simp [hf]
  rw [ofList, key entries empty hnodup, get?_empty]
  simp

end FormulaMap

abbrev FormulaSet := FormulaMap Unit

namespace FormulaSet

def insert (s : FormulaSet) (f : Formula) : FormulaSet := FormulaMap.insert s f ()

def toList (s : FormulaSet) : List Formula := FormulaMap.keys s

def ofList (fs : List Formula) : FormulaSet := fs.foldl insert .empty

theorem contains_insert (s : FormulaSet) (f g : Formula) :
    (s.insert f).contains g = (decide (g = f) || s.contains g) :=
  FormulaMap.contains_insert s f g ()

theorem contains_foldl_insert (fs : List Formula) (s : FormulaSet) (g : Formula) :
    (fs.foldl insert s).contains g = (decide (g ∈ fs) || s.contains g) := by
  induction fs generalizing s with
  | nil => simp
  | cons f rest ih =>
      rw [List.foldl_cons, ih, contains_insert]
      by_cases hg : g = f <;> by_cases hr : g ∈ rest <;> simp [hg, hr]

theorem contains_ofList (fs : List Formula) (g : Formula) :
    (ofList fs).contains g = decide (g ∈ fs) := by
  rw [ofList, contains_foldl_insert]
  simp [FormulaMap.contains, FormulaMap.get?_empty]

theorem mem_toList {s : FormulaSet} {f : Formula} : f ∈ s.toList ↔ s.contains f = true :=
  FormulaMap.mem_keys

end FormulaSet

end Invariance
