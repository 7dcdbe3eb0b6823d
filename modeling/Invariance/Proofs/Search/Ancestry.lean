import Invariance.Lineage
import Invariance.Verdict
import Mathlib.Data.List.Chain
import Mathlib.Order.Bounds.Defs

/-!
The ancestors of a formula. An extension goes from parent to parent; it ends because every step
marks the parent that it comes to, so that no origin is gone through twice even where the origins
lead in a circle.
-/

namespace Invariance

/-- A formula and a frame at which it is false. -/
abbrev Breach := Formula × Nat

namespace Lineage

variable {l l' l'' : Lineage} {b c : Breach} {path : List Breach} {f : Formula}

/-- The parent of a formula, at the frame where it is false if the formula is. -/
def rise? (l : Lineage) (b : Breach) : Option Breach :=
  (l.origin? b.1).map fun o => (o.parent, b.2 + o.depth)

def ancestor? (l : Lineage) (b : Breach) : Nat → Option Breach
  | 0 => some b
  | i + 1 => (l.ancestor? b i).bind l.rise?

/-- Each of the first `n` ancestors exists and is new, and the check of it was satisfiable. The
checks are counted from that of the formula itself. -/
def Rises (l : Lineage) (b : Breach) (verdicts : List Verdict) (n : Nat) : Prop :=
  ∀ i < n, ∃ c, l.ancestor? b (i + 1) = some c ∧ l.isInvalid c.1 = false ∧
    (∀ j < i, ∀ d, l.ancestor? b (j + 1) = some d → d.1 ≠ c.1) ∧ verdicts[i + 1]? = some .sat

/-- A way up on which no formula is invalid yet and none is met twice. -/
structure Ascends (l : Lineage) (b : Breach) (path : List Breach) : Prop where
  linked : (b :: path).IsChain fun c d => l.rise? c = some d
  distinct : (path.map Prod.fst).Nodup
  fresh : ∀ c ∈ path, l.isInvalid c.1 = false

/-- The second lineage has these marks more than the first and is the same otherwise. -/
structure Marked (l l' : Lineage) (path : List Breach) : Prop where
  invalid : ∀ f, l'.invalidFrame? f = (path.lookup f).or (l.invalidFrame? f)
  origins : l'.origins = l.origins
  properties : l'.properties = l.properties
  propertyInvalid : l'.propertyInvalid =
    (l.propertyInvalid || path.any fun c => l.isProperty c.1)

theorem isInvalid_eq (l : Lineage) (f : Formula) : l.isInvalid f = (l.invalidFrame? f).isSome := rfl

namespace Marked

theorem refl (l : Lineage) : l.Marked l [] where
  invalid _ := rfl
  origins := rfl
  properties := rfl
  propertyInvalid := (Bool.or_false _).symm

theorem of_markInvalid {k : Nat} (h : l.markInvalid f k = .ok l') : l.Marked l' [(f, k)] := by
  rw [markInvalid] at h
  split at h
  next => cases h
  next =>
    obtain rfl := Except.ok.inj h
    refine ⟨fun g => ?_, rfl, rfl, ?_⟩
    · rw [invalidFrame?, FormulaMap.get?_insert, List.lookup_cons]
      by_cases hg : g = f
      · rw [if_pos hg, hg, beq_self_eq_true]
        rfl
      · rw [if_neg hg, beq_eq_false_iff_ne.mpr hg]
        rfl
    · rw [List.any_cons, List.any_nil, Bool.or_false]

theorem rise?_eq (h : l.Marked l' path) (b : Breach) : l'.rise? b = l.rise? b := by
  rw [rise?, rise?, origin?, origin?, h.origins]

theorem isInvalid_iff (h : l.Marked l' path) :
    l'.isInvalid f = true ↔ f ∈ path.map Prod.fst ∨ l.isInvalid f = true := by
  have hlookup : (path.lookup f).isSome = true ↔ f ∈ path.map Prod.fst := by
    rw [List.lookup_isSome_iff, List.mem_map]
    exact exists_congr fun c => and_congr_right fun _ => beq_iff_eq.trans eq_comm
  rw [isInvalid_eq, isInvalid_eq, h.invalid, Option.isSome_or, Bool.or_eq_true, hlookup]

theorem cons (h : l.Marked l' [c]) (h' : l'.Marked l'' path)
    (hfresh : ∀ d ∈ path, l'.isInvalid d.1 = false) : l.Marked l'' (c :: path) where
  invalid f := by
    rw [h'.invalid, h.invalid, List.lookup_cons, List.lookup_cons, List.lookup_nil]
    cases hf : f == c.1 with
    | false => rfl
    | true =>
        obtain rfl := eq_of_beq hf
        have hmarked : l'.isInvalid c.1 = true := h.isInvalid_iff.mpr (Or.inl (by simp))
        have hnone : path.lookup c.1 = none := List.lookup_eq_none_iff.mpr fun d hd => by
          refine bne_iff_ne.mpr fun heq => ?_
          rw [heq, hfresh d hd] at hmarked
          exact Bool.false_ne_true hmarked
        rw [hnone]
        rfl
  origins := h'.origins.trans h.origins
  properties := h'.properties.trans h.properties
  propertyInvalid := by
    have hsame : (fun d : Breach => l'.isProperty d.1) = fun d => l.isProperty d.1 :=
      funext fun d => by rw [isProperty, isProperty, h.properties]
    rw [h'.propertyInvalid, h.propertyInvalid, hsame, List.any_cons, List.any_cons, List.any_nil,
      Bool.or_false, Bool.or_assoc]

end Marked

/-- The origins that an extension can still go through. -/
def pending (l : Lineage) : Nat := l.origins.entries.countP fun x => !l.isInvalid x.2.parent

theorem pending_le_size (l : Lineage) : l.pending ≤ l.size := List.countP_le_length

theorem Marked.pending_lt (h : l.Marked l' [c]) (hrise : l.rise? b = some c)
    (hfresh : l.isInvalid c.1 = false) : l'.pending < l.pending := by
  obtain ⟨o, ho, rfl⟩ := Option.map_eq_some_iff.mp hrise
  have hsub : ∀ x, (!l'.isInvalid x) = true → (!l.isInvalid x) = true := fun x hx => by
    rw [Bool.not_eq_true'] at hx ⊢
    cases hl : l.isInvalid x with
    | false => rfl
    | true => rw [← hx, h.isInvalid_iff.mpr (Or.inr hl)]
  have hfilter : l'.origins.entries.filter (fun x => !l'.isInvalid x.2.parent) =
      (l.origins.entries.filter fun x => !l.isInvalid x.2.parent).filter
        fun x => !l'.isInvalid x.2.parent := by
    rw [List.filter_filter, h.origins]
    refine List.filter_congr fun x _ => ?_
    cases hx : !l'.isInvalid x.2.parent with
    | false => rfl
    | true => rw [hsub _ hx, Bool.and_self]
  rw [pending, pending, List.countP_eq_length_filter, List.countP_eq_length_filter, hfilter,
    List.length_filter_lt_length_iff_exists]
  refine ⟨(b.1, o), List.mem_filter.mpr ⟨FormulaMap.mem_entries.mpr ho, by simp [hfresh]⟩, ?_⟩
  rw [h.isInvalid_iff.mpr (Or.inl (by simp))]
  exact Bool.false_ne_true

namespace Ascends

theorem nil (l : Lineage) (b : Breach) : l.Ascends b [] where
  linked := .singleton b
  distinct := .nil
  fresh := nofun

theorem cons (hrise : l.rise? b = some c) (hfresh : l.isInvalid c.1 = false)
    (hm : l.Marked l' [c]) (h : l'.Ascends c path) : l.Ascends b (c :: path) where
  linked := by
    refine List.isChain_cons_cons.mpr ⟨hrise, h.linked.imp fun d e hd => ?_⟩
    rwa [hm.rise?_eq] at hd
  distinct := by
    refine List.nodup_cons.mpr ⟨fun hin => ?_, h.distinct⟩
    obtain ⟨d, hd, heq⟩ := List.mem_map.mp hin
    have hmarked : l'.isInvalid d.1 = true := hm.isInvalid_iff.mpr (Or.inl (by simp [heq]))
    rw [h.fresh d hd] at hmarked
    cases hmarked
  fresh := by
    refine List.forall_mem_cons.mpr ⟨hfresh, fun d hd => ?_⟩
    cases hl : l.isInvalid d.1 with
    | false => rfl
    | true => rw [← h.fresh d hd, hm.isInvalid_iff.mpr (Or.inr hl)]

variable (h : l.Ascends b path)
include h

theorem ancestor?_eq : ∀ i ≤ path.length, l.ancestor? b i = (b :: path)[i]?
  | 0, _ => rfl
  | i + 1, hi => by
      have hlt : i + 1 < (b :: path).length := Nat.succ_lt_succ hi
      have hlink := List.isChain_iff_getElem.mp h.linked i hlt
      rw [ancestor?, ancestor?_eq i (Nat.le_of_succ_le hi),
        List.getElem?_eq_getElem (Nat.lt_of_succ_lt hlt), Option.bind_some, hlink,
        List.getElem?_eq_getElem hlt]

theorem ancestor?_last : l.ancestor? b path.length = some (path.getLastD b) := by
  rw [h.ancestor?_eq _ (Nat.le_refl _), List.getLastD_eq_getLast?, List.getLast?_eq_getElem?]
  cases path with
  | nil => rfl
  | cons c path => simp

theorem le_last : b.2 ≤ (path.getLastD b).2 := by
  have hlinked := h.linked
  clear h
  induction path generalizing b with
  | nil => exact Nat.le_refl _
  | cons c path ih =>
      obtain ⟨hrise, hrest⟩ := List.isChain_cons_cons.mp hlinked
      obtain ⟨o, _, rfl⟩ := Option.map_eq_some_iff.mp hrise
      rw [List.getLastD_cons]
      exact Nat.le_trans (Nat.le_add_right _ _) (ih hrest)

/-- The way goes on as long as it can if the walk stops for a formula that is invalid by then, for
lack of a parent, or for a check that is not satisfiable. -/
theorem isGreatest (hm : l.Marked l' path) {verdicts : List Verdict}
    (hsat : ∀ i ≤ path.length, verdicts[i]? = some .sat)
    (hstop : ∀ c, l.rise? (path.getLastD b) = some c → l'.isInvalid c.1 = false →
      verdicts[path.length + 1]? ≠ some .sat) :
    IsGreatest {n | l.Rises b verdicts n} path.length := by
  refine ⟨fun i hi => ?_, fun n hn => Nat.le_of_not_lt fun hlt => ?_⟩
  · have hat : ∀ j (hj : j < path.length), l.ancestor? b (j + 1) = some path[j] := fun j hj => by
      rw [h.ancestor?_eq _ hj, List.getElem?_cons_succ, List.getElem?_eq_getElem]
    refine ⟨path[i], hat i hi, h.fresh _ (List.getElem_mem hi), fun j hj d hd => ?_,
      hsat _ (Nat.succ_le_of_lt hi)⟩
    obtain rfl := Option.some.inj ((hat j (Nat.lt_trans hj hi)).symm.trans hd)
    have hne := List.pairwise_iff_getElem.mp (List.pairwise_map.mp h.distinct) j i
      (Nat.lt_trans hj hi) hi hj
    exact hne
  · obtain ⟨c, hc, hfresh, hnew, hverdict⟩ := hn path.length hlt
    rw [ancestor?, h.ancestor?_last, Option.bind_some] at hc
    refine hstop c hc (Bool.eq_false_iff.mpr fun hinvalid => ?_) hverdict
    rcases hm.isInvalid_iff.mp hinvalid with hin | hold
    · obtain ⟨d, hd, heq⟩ := List.mem_map.mp hin
      obtain ⟨j, hj, rfl⟩ := List.getElem_of_mem hd
      refine hnew j hj _ ?_ heq
      rw [h.ancestor?_eq _ hj, List.getElem?_cons_succ, List.getElem?_eq_getElem]
    · rw [hfresh] at hold
      cases hold

end Ascends

end Lineage

end Invariance
