import Invariance.Proofs.Transcripts.Pushing

/-!
Where the numbers of a search can run out, and where a counter-trace can be too short for it. What
is needed for neither to happen is a matter of the depths at which formulas were learnt.
-/

namespace Invariance

/-! Relocated maps. -/

section

universe u v

variable {α : Type u} {β : Type v} {f : Formula} {a : α} {b : β}

theorem length_insertEntry_le (f : Formula) (a : α) : ∀ l : List (Formula × α),
    (insertEntry f a l).length ≤ l.length + 1
  | [] => Nat.le_refl 1
  | (g, b) :: l => by
      rw [insertEntry]
      split
      · exact Nat.le_refl _
      · split
        · exact Nat.le_succ _
        · exact Nat.succ_le_succ (length_insertEntry_le f a l)

namespace FormulaMap

theorem size_insert_le (m : FormulaMap α) (f : Formula) (a : α) :
    (m.insert f a).size ≤ m.size + 1 :=
  length_insertEntry_le f a m.entries

theorem size_rekey_le (m : FormulaMap α) (move : Formula × α → Option (Formula × β)) :
    (m.rekey move).size ≤ m.size := by
  have key : ∀ (l : List (Formula × β)) (n : FormulaMap β),
      (l.foldl (fun n x => n.insert x.1 x.2) n).size ≤ n.size + l.length := by
    intro l
    induction l with
    | nil => exact fun n => Nat.le_refl _
    | cons x l ih =>
        intro n
        have hhead := n.size_insert_le x.1 x.2
        have hrest := ih (n.insert x.1 x.2)
        rw [List.foldl_cons, List.length_cons]
        omega
  have hsize := key (m.entries.filterMap move) .empty
  rw [show (empty : FormulaMap β).size = 0 from rfl, Nat.zero_add] at hsize
  exact Nat.le_trans hsize (List.length_filterMap_le ..)

theorem exists_of_get?_rekey {m : FormulaMap α} {move : Formula × α → Option (Formula × β)}
    (h : (m.rekey move).get? f = some b) :
    ∃ g a, m.get? g = some a ∧ move (g, a) = some (f, b) := by
  have key : ∀ (l : List (Formula × β)) (n : FormulaMap β),
      (l.foldl (fun n x => n.insert x.1 x.2) n).get? f = some b →
        (f, b) ∈ l ∨ n.get? f = some b := by
    intro l
    induction l with
    | nil => exact fun n => Or.inr
    | cons x l ih =>
        intro n hget
        rcases ih _ hget with hmem | hold
        · exact Or.inl (List.mem_cons_of_mem _ hmem)
        · rw [get?_insert] at hold
          split at hold
          next heq =>
            obtain rfl := Option.some.inj hold
            exact Or.inl (heq ▸ List.mem_cons_self)
          next => exact Or.inr hold
  rcases key _ _ h with hmem | hempty
  · obtain ⟨x, hx, hmove⟩ := List.mem_filterMap.mp hmem
    exact ⟨x.1, x.2, mem_entries.mp hx, hmove⟩
  · cases hempty

end FormulaMap

end

theorem Lineage.origin?_relocate {l : Lineage} {r : Relocation} {f : Formula} {o : Origin}
    (h : (l.relocate r).origin? f = some o) :
    ∃ g o', l.origin? g = some o' ∧ o.depth = o'.depth := by
  obtain ⟨g, o', hget, hmove⟩ := FormulaMap.exists_of_get?_rekey h
  refine ⟨g, o', hget, ?_⟩
  simp only [Option.bind_eq_bind, Option.bind_eq_some_iff] at hmove
  obtain ⟨_, _, _, ho, hpair⟩ := hmove
  rw [← (Prod.mk.inj (Option.some.inj hpair)).2]
  exact (Origin.relocate_eq_some.mp ho).2.2

variable {S σ μ : Type} {B : Backend S σ μ} {config : Config} {n : Note μ} {ℓ ℓ' : List (Note μ)}
  {e : Fault} {s s' : Search} {w : σ} {ob : Obligation} {obs obs' : List Obligation}
  {bound : Option Nat}

/-! What the transcript says of the numbers. -/

def longest (ℓ : List (Note μ)) : Nat := ℓ.foldr (fun n k => max n.traceLength k) 0

def learnt (ℓ : List (Note μ)) : Nat := ℓ.countP Note.isLearned

theorem le_longest (h : n ∈ ℓ) : n.traceLength ≤ longest ℓ := by
  induction ℓ with
  | nil => cases h
  | cons m ℓ ih =>
      rcases List.mem_cons.mp h with rfl | h
      · exact Nat.le_max_left _ _
      · exact Nat.le_trans (ih h) (Nat.le_max_right _ _)

theorem learnt_le (hs : ℓ <:+ ℓ') : learnt ℓ ≤ learnt ℓ' := hs.sublist.countP_le

theorem learnt_lt {index : Nat} {counter forward : Formula}
    (hs : .learned index counter (.ok forward) :: ℓ <:+ ℓ') : learnt ℓ + 1 ≤ learnt ℓ' := by
  have hone : learnt (.learned index counter (.ok forward) :: ℓ) = learnt ℓ + 1 :=
    List.countP_cons_of_pos rfl
  exact hone ▸ learnt_le hs

def Noted (e : Fault) (ℓ : List (Note μ)) : Prop := ∃ n ∈ ℓ, n.fault? = some e

theorem Noted.cons (h : Noted e ℓ) : Noted e (n :: ℓ) := by
  obtain ⟨m, hm, heq⟩ := h
  exact ⟨m, List.mem_cons_of_mem _ hm, heq⟩

/-- Each counter-trace to a reachable counter-state ends at a step that was looked at. -/
def Inside (ℓ : List (Note μ)) : Prop := ∀ n ∈ ℓ, n.hits = true

/-- There is a bound on the induction depth, and the machine has numbers for all frames that can be
come to with it. -/
def Room (B : Backend S σ μ) (bound : Option Nat) (ℓ : List (Note μ)) : Prop :=
  ∃ D ∈ bound, B.machine.counts (longest ℓ + (learnt ℓ + 2) * D) = true

theorem Room.tail (h : Room B bound (n :: ℓ)) : Room B bound ℓ := by
  obtain ⟨D, hD, hcounts⟩ := h
  refine ⟨D, hD, Machine.counts_mono (Nat.add_le_add (Nat.le_max_right _ _) ?_) hcounts⟩
  exact Nat.mul_le_mul_right D (Nat.add_le_add_right (learnt_le (List.suffix_cons n ℓ)) 2)

/-- What is said of a frame before the active one. -/
def Fault.early : Fault → Bool
  | .violation (.markedBeforeFrame ..) => true
  | .violation .traceBeforeFrame => true
  | _ => false

theorem Fault.early_grave (h : e.early = true) : e.grave = true := by
  match e with
  | .violation (.markedBeforeFrame ..) => rfl
  | .violation .traceBeforeFrame => rfl

/-- To report something does not change the counter-trace. -/
def Backend.Discreet (B : Backend S σ μ) : Prop := ∀ event w,
  B.reachability.counterTrace (B.reports.report event w) = B.reachability.counterTrace w

theorem Backend.Discreet.reported {w' : σ} (h : B.Discreet) (hw : Search.Reported B w w') :
    B.reachability.counterTrace w' = B.reachability.counterTrace w := by
  induction hw with
  | refl w => rfl
  | step event _ ih => rw [ih, h]

/-- The search itself does not run out of numbers as long as there is room, and it has no
counter-trace too short as long as they end where they were looked for. -/
structure Spare (B : Backend S σ μ) (bound : Option Nat) (e : Fault) (ℓ : List (Note μ)) :
    Prop where
  overflow : e = .violation .overflow → B.Discreet → Room B bound ℓ → Noted e ℓ
  early : e.early = true → B.Discreet → Inside ℓ → Noted e ℓ

theorem spare_noted (h : Noted e ℓ) : Spare B bound e ℓ :=
  ⟨fun _ _ _ => h, fun _ _ _ => h⟩

theorem spare_overflow (h : B.Discreet → Room B bound ℓ → Noted (.violation .overflow) ℓ) :
    Spare B bound (.violation .overflow) ℓ :=
  ⟨fun _ => h, nofun⟩

theorem spare_clash {f : Formula} : Spare B bound (.violation (.alreadyInFrame f)) ℓ :=
  ⟨nofun, nofun⟩

theorem lenient_spare : Lenient (Spare B bound) where
  noted hn := spare_noted ⟨_, List.mem_cons_self, hn⟩
  mild hgrave := by
    refine ⟨fun he => ?_, fun hearly => ?_⟩
    · rw [he] at hgrave
      cases hgrave
    · rw [Fault.early_grave hearly] at hgrave
      cases hgrave
  grow h := ⟨fun he hdiscreet hroom => (h.overflow he hdiscreet hroom.tail).cons,
    fun hearly hdiscreet hinside =>
      (h.early hearly hdiscreet fun m hm => hinside m (List.mem_cons_of_mem _ hm)).cons⟩

structure Fits (B : Backend S σ μ) (bound : Option Nat) (s : Search) (ℓ : List (Note μ))
    (obs : List Obligation) : Prop where
  start : s.depth ≤ s.index + 1
  limit : ∀ D ∈ bound, s.depth ≤ D ∧ B.machine.counts (s.index + 1) = true
  shallow : Search.Shallow s
  size : s.lineage.size ≤ learnt ℓ
  depths : ∀ ob ∈ obs, ob.depth ≤ learnt ℓ * s.depth

namespace Fits

theorem suffix (h : Fits B bound s ℓ obs) (hs : ℓ <:+ ℓ') : Fits B bound s ℓ' obs where
  start := h.start
  limit := h.limit
  shallow := h.shallow
  size := Nat.le_trans h.size (learnt_le hs)
  depths ob hob := Nat.le_trans (h.depths ob hob) (Nat.mul_le_mul_right _ (learnt_le hs))

theorem step (h : Fits B bound s ℓ obs) (hindex : s'.index = s.index) (hdepth : s'.depth = s.depth)
    (horigins : s'.lineage.origins = s.lineage.origins) (hs : ℓ <:+ ℓ')
    (hobs : ∀ ob' ∈ obs', ∃ ob ∈ obs, ob'.depth = ob.depth) : Fits B bound s' ℓ' obs' := by
  have h' := h.suffix hs
  refine ⟨?_, ?_, fun f o ho => ?_, ?_, fun ob' hob' => ?_⟩
  · rw [hindex, hdepth]
    exact h.start
  · rw [hindex, hdepth]
    exact h.limit
  · rw [hdepth]
    exact h.shallow f o (by rwa [Lineage.origin?, ← horigins])
  · rw [Lineage.size, horigins]
    exact h'.size
  · obtain ⟨ob, hob, heq⟩ := hobs ob' hob'
    rw [heq, hdepth]
    exact h'.depths ob hob

theorem depth_le (h : Fits B bound s ℓ (ob :: obs)) :
    ob.depth + s.depth ≤ (learnt ℓ + 1) * s.depth := by
  rw [Nat.succ_mul]
  exact Nat.add_le_add_right (h.depths ob List.mem_cons_self) _

theorem refine (h : Fits B bound s ℓ (ob :: obs)) {refutation backward counter forward : Formula}
    {index : Nat} (hindex : s'.index = s.index) (hdepth : s'.depth = s.depth)
    (horigins : s'.lineage = s.lineage.addOrigin backward ⟨refutation, counter, s.depth⟩)
    (hs : .learned index counter (.ok forward) :: ℓ <:+ ℓ')
    (hobs : ∀ ob' ∈ obs', ob'.depth = ob.depth + s.depth ∨
      ∃ o ∈ ob :: obs, ob'.depth = o.depth) : Fits B bound s' ℓ' obs' := by
  have hlearnt := learnt_lt hs
  have hold := h.suffix ((List.suffix_cons _ ℓ).trans hs)
  refine ⟨?_, ?_, fun f o ho => ?_, ?_, fun ob' hob' => ?_⟩
  · rw [hindex, hdepth]
    exact h.start
  · rw [hindex, hdepth]
    exact h.limit
  · rw [horigins, Lineage.origin?, Lineage.addOrigin, FormulaMap.get?_insert] at ho
    rw [hdepth]
    split at ho
    next =>
      obtain rfl := Option.some.inj ho
      exact Nat.le_refl s.depth
    next => exact h.shallow f o ho
  · rw [horigins]
    have hsize : s.lineage.size ≤ learnt ℓ := h.size
    exact Nat.le_trans (FormulaMap.size_insert_le ..)
      (Nat.le_trans (Nat.succ_le_succ hsize) hlearnt)
  · rw [hdepth]
    rcases hobs ob' hob' with heq | ⟨o, ho, heq⟩
    · calc ob'.depth = ob.depth + s.depth := heq
        _ ≤ (learnt ℓ + 1) * s.depth := h.depth_le
        _ ≤ learnt ℓ' * s.depth := Nat.mul_le_mul_right _ hlearnt
    · rw [heq]
      exact hold.depths o ho

theorem counts_refine (h : Fits B bound s ℓ (ob :: obs)) {counter forward : Formula} {index : Nat}
    (hs : .learned index counter (.ok forward) :: ℓ <:+ ℓ') (hroom : Room B bound ℓ') :
    B.machine.counts (ob.depth + s.depth) = true := by
  obtain ⟨D, hD, hcounts⟩ := hroom
  refine Machine.counts_mono ?_ hcounts
  have hlearnt := learnt_lt hs
  calc ob.depth + s.depth ≤ (learnt ℓ + 1) * s.depth := h.depth_le
    _ ≤ (learnt ℓ' + 2) * D := Nat.mul_le_mul (by omega) (h.limit D hD).1
    _ ≤ longest ℓ' + (learnt ℓ' + 2) * D := Nat.le_add_left _ _

theorem deepen (h : Fits B bound s ℓ obs) (hindex : s'.index = s.index)
    (hdepth : s'.depth = s.index + 1) (hlineage : s'.lineage = s.lineage) (hs : ℓ <:+ ℓ')
    (hobs : ∀ ob ∈ obs', ob ∈ obs) : Fits B none s' ℓ' obs' where
  start := Nat.le_of_eq (by rw [hindex, hdepth])
  limit := nofun
  shallow f o ho := by
    rw [hdepth]
    exact Nat.le_trans (h.shallow f o (hlineage ▸ ho)) h.start
  size := hlineage ▸ (h.suffix hs).size
  depths ob hob := by
    rw [hdepth]
    exact Nat.le_trans ((h.suffix hs).depths ob (hobs ob hob)) (Nat.mul_le_mul_left _ h.start)

end Fits

/-- A counter-trace that ends in the window of a round goes beyond the index of that round. -/
theorem Fits.allows (h : Fits B bound s ℓ obs) {counter : Formula} :
    Search.Allows B (Spare B bound) s w (.searched (s.index + 1 - s.depth) s.index counter
      (.ok true) (B.reachability.counterTrace w) :: ℓ) := by
  generalize hℓ' : Note.searched (s.index + 1 - s.depth) s.index counter (.ok true)
    (B.reachability.counterTrace w) :: ℓ = ℓ'
  have hmem : Note.searched (s.index + 1 - s.depth) s.index counter (.ok true)
      (B.reachability.counterTrace w) ∈ ℓ' := hℓ' ▸ List.mem_cons_self
  have hlong : B.Discreet → Inside ℓ' → ∀ {w'}, Search.Reported B w w' →
      s.index < (B.reachability.counterTrace w').length - 1 + s.depth :=
      fun hdiscreet hinside w' hw => by
    have hhits : s.index + 1 - s.depth < (B.reachability.counterTrace w).length :=
      of_decide_eq_true (Bool.and_eq_true_iff.mp (hinside _ hmem)).1
    have hstart := h.start
    rw [hdiscreet.reported hw]
    omega
  refine ⟨?_, fun hw hshort f k => ⟨nofun, fun _ hdiscreet hinside => ?_⟩,
    fun hw hshort => ⟨nofun, fun _ hdiscreet hinside => ?_⟩⟩
  · by_cases hroom : B.Discreet ∧ Room B bound ℓ'
    · right
      obtain ⟨hdiscreet, D, hD, hcounts⟩ := hroom
      refine ⟨h.shallow, (h.limit D hD).2, fun hw => Machine.counts_mono ?_ hcounts⟩
      have hlongest : (B.reachability.counterTrace w).length ≤ longest ℓ' := le_longest hmem
      have hsize : s.lineage.size ≤ learnt ℓ' :=
        Nat.le_trans h.size (learnt_le (hℓ' ▸ List.suffix_cons ..))
      rw [hdiscreet.reported hw]
      exact Nat.add_le_add hlongest (Nat.mul_le_mul (Nat.add_le_add_right hsize 2) (h.limit D hD).1)
    · exact Or.inl (spare_overflow fun hdiscreet hroom' => absurd ⟨hdiscreet, hroom'⟩ hroom)
  · exact absurd (hlong hdiscreet hinside hw) hshort
  · exact absurd (hlong hdiscreet hinside hw) hshort

/-- The depths of a search that holds these obligations besides its own. -/
def Measured (B : Backend S σ μ) (bound : Option Nat) (held : List Obligation) (s : Search)
    (ℓ : List (Note μ)) : Prop :=
  s.agenda.Valid ∧ Fits B bound s ℓ (held ++ (s.agenda.waiting ++ s.staged))

theorem Measured.suffix {held : List Obligation} (h : Measured B bound held s ℓ) (hs : ℓ <:+ ℓ') :
    Measured B bound held s ℓ' :=
  ⟨h.1, h.2.suffix hs⟩

namespace Search

theorem fits_carry {forward : Formula} (h : Measured B bound [ob.bare] s ℓ) :
    Leads (carry B.noted ob forward) s w ℓ (Spare B bound) fun p s' _ =>
      Pushed (Measured B bound) ob p s' := by
  refine leads_carry lenient_spare fun size w₁ =>
    ⟨h.1, h.2.step rfl rfl rfl ⟨[_, _], rfl⟩ fun ob' hob' => ?_⟩
  rw [List.nil_append, ← List.append_assoc] at hob'
  rcases List.mem_append.mp hob' with hob' | hob'
  · exact ⟨ob', List.mem_cons_of_mem _ hob', rfl⟩
  · obtain rfl := List.mem_singleton.mp hob'
    exact ⟨ob.bare, List.mem_cons_self, rfl⟩

theorem fits_stage {refutation : Formula} (h : Measured B bound [ob.bare] s ℓ) :
    Leads (stage B.noted ob refutation) s w ℓ (Spare B bound) fun p s' _ =>
      Pushed (Measured B bound) ob p s' := by
  have hF : Lenient (Spare B bound) := lenient_spare
  refine .bind (leads_report fun _ => .bind (leads_act hF (fun _ _ => rfl) fun answer w₁ => ?_))
  have h₁ := h.suffix (List.suffix_cons (.checked ob.forward (.ok answer)) ℓ)
  cases answer with
  | unsat => exact fits_carry h₁
  | unknown => exact leads_fail hF
  | sat generalization model =>
      exact .bind (leads_weaken hF h₁.1 fun weaker size w₂ ℓ₂ hw₂ _ _ => fits_carry
        ⟨h₁.1, h₁.2.step rfl rfl rfl hw₂.suffix fun ob' hob' => ⟨ob', hob', rfl⟩⟩)

theorem fits_refine {refutation counter : Formula} (h : Measured B bound [ob.bare] s ℓ) :
    Leads (refine B.noted ob refutation counter) s w ℓ (Spare B bound) fun p s' _ =>
      Pushed (Measured B bound) ob p s' := by
  have hnegated : ∀ backward, Fits B bound s (.negated counter (.ok backward) :: ℓ)
      (ob.bare :: (s.agenda.waiting ++ s.staged)) := fun _ => h.2.suffix (List.suffix_cons ..)
  refine leads_refine lenient_spare h.1 (fun _ _ _ => spare_clash)
    (fun backward forward hover => spare_overflow fun _ hroom => ?_)
    fun backward forward g stats agenda w₁ _ hagenda hperm => ⟨hagenda, ?_⟩
  · have hcounts : B.machine.counts (ob.depth + s.depth) = true :=
      (hnegated backward).counts_refine (List.suffix_cons ..) hroom
    rw [hcounts] at hover
    cases hover
  · refine (hnegated backward).refine rfl rfl rfl ⟨[_, _], rfl⟩ fun ob' hob' => ?_
    have hnew := ((hperm.append_right s.staged).cons ob.bare).mem_iff.mp hob'
    rcases List.mem_cons.mp hnew with rfl | hnew
    · exact Or.inr ⟨ob.bare, List.mem_cons_self, rfl⟩
    · rcases List.mem_cons.mp hnew with rfl | hnew
      · exact Or.inl rfl
      · exact Or.inr ⟨ob', List.mem_cons_of_mem _ hnew, rfl⟩

theorem fits_answerCounter {refutation counter : Formula} {model : μ}
    (h : Measured B bound [ob.bare] s ℓ) :
    Leads (answerCounter B.noted config ob refutation counter model) s w ℓ (Spare B bound)
      fun p s' _ => Pushed (Measured B bound) ob p s' := by
  have hF : Lenient (Spare B bound) := lenient_spare
  refine .bind (leads_report fun _ => .bind (leads_state (.bind (leads_window (fun hover => ?_)
    fun _ => .bind ?_))))
  · refine spare_overflow fun _ ⟨D, hD, _⟩ => ?_
    rw [(h.2.limit D hD).2] at hover
    cases hover
  refine leads_act hF (fun _ _ => rfl) fun reachable w₁ => .bind (leads_report fun event =>
    .ite (fun hreachable => .bind ?_) fun _ => ?_)
  · refine (leads_failInduction hF h.1 ?_).imp fun _ s₂ _ _ hinvalid => leads_pure hinvalid
    rw [hreachable]
    exact h.2.allows.report
  · exact fits_refine (h.suffix (List.suffix_cons ..))

theorem fits_push (h : Measured B bound [ob.bare] s ℓ) :
    Leads (push B.noted config ob) s w ℓ (Spare B bound) fun p s' _ =>
      Pushed (Measured B bound) ob p s' := by
  have hF : Lenient (Spare B bound) := lenient_spare
  refine .bind (leads_report fun _ => .bind (leads_negate hF fun refutation w₁ =>
    .bind (leads_act hF (fun _ _ => rfl) fun answer w₂ => ?_)))
  have h₂ := (h.suffix (List.suffix_cons (.negated ob.counter (.ok refutation)) ℓ)).suffix
    (List.suffix_cons (.checked refutation (.ok answer)) _)
  match answer with
  | .unsat => exact fits_stage h₂
  | .unknown => exact leads_fail hF
  | .sat none _ => exact leads_fail hF
  | .sat (some _) none => exact leads_fail hF
  | .sat (some _) (some _) => exact fits_answerCounter h₂

theorem fits_drain {fuel : Nat} (h : Measured B bound [] s ℓ) :
    Leads (drain B.noted config fuel) s w ℓ (Spare B bound) fun _ s' _ =>
      Drained (Measured B bound) s' := by
  refine leads_drain lenient_spare (fun _ _ _ h => h.1) ?_ (fun _ _ _ _ h => fits_push h) ?_ h
  · intro s ℓ agenda ob h hagenda hperm
    refine ⟨hagenda, h.2.step rfl rfl rfl List.suffix_rfl fun ob' hob' => ⟨ob', ?_, rfl⟩⟩
    exact (hperm.append_right s.staged).mem_iff.mpr hob'
  · intro s ℓ g agenda ob h hagenda hperm
    refine ⟨hagenda, h.2.step rfl rfl rfl (List.suffix_cons ..) fun ob' hob' => ⟨ob', ?_, rfl⟩⟩
    exact (hperm.append_right s.staged).mem_iff.mp hob'

theorem fits_drainFrame {fuel : Nat} (h : Measured B bound [] s ℓ) :
    Leads (drainFrame B.noted config fuel) s w ℓ (Spare B bound) fun _ s' _ =>
      Drained (Measured B bound) s' :=
  leads_drainFrame lenient_spare (fun _ _ h => h.suffix (List.suffix_cons ..)) (fits_drain h)

/-! From one round to the next. -/

theorem fits_restoreAll : ∀ {todo : List Obligation} {s : Search} {w : σ} {ℓ : List (Note μ)},
    s.agenda.Valid → Fits B none s ℓ (s.agenda.waiting ++ todo) →
    Leads (todo.forM (restore B.noted)) s w ℓ (Spare B bound) fun _ s' _ ℓ' =>
      s'.agenda.Valid ∧ s'.staged = s.staged ∧ s'.index = s.index ∧ s'.depth = s.depth ∧
        Fits B none s' ℓ' s'.agenda.waiting
  | [], s, _, _, hq, h => leads_pure ⟨hq, rfl, rfl, rfl, by rwa [List.append_nil] at h⟩
  | ob :: todo, s, w, ℓ, hq, h => by
      refine .bind (leads_restore lenient_spare hq (fun _ _ => spare_clash)
        fun r g intermediate stats agenda w₁ hagenda hperm => ?_)
      refine fits_restoreAll (s := { s with frame := _, agenda, stats }) hagenda
        (h.step rfl rfl rfl ⟨[_, _, _, _], rfl⟩ fun ob' hob' => ?_)
      rcases List.mem_cons.mp ((hperm.append_right todo).mem_iff.mp hob') with rfl | hold
      · exact ⟨ob, List.mem_append_right _ List.mem_cons_self, rfl⟩
      · refine ⟨ob', ?_, rfl⟩
        exact List.perm_middle.mem_iff.mpr (List.mem_cons_of_mem _ hold)

variable (bound) in
theorem fits_rebuild (hq : s.agenda.Valid) (hempty : s.agenda.waiting = [])
    (hcounts : ∀ D ∈ bound, B.machine.counts (s.index + s.depth) = true)
    (h : Fits B none s ℓ s.staged) :
    Leads (rebuild B.noted) s w ℓ (Spare B bound) fun _ s' _ => Measured B none [] s' := by
  refine .bind (leads_state (.bind (leads_change (.bind ?_))))
  refine Leads.imp (fits_restoreAll hq (h.step rfl rfl rfl List.suffix_rfl fun ob' hob' => ?_))
    fun _ s₁ w₁ ℓ₁ h₁ => ?_
  · refine ⟨ob', ?_, rfl⟩
    rwa [hempty] at hob'
  obtain ⟨hq₁, hstaged, hindex, hdepth, h₁⟩ := h₁
  refine .bind (leads_change (.bind (leads_change (.bind (leads_change (.bind ?_))))))
  have hsum : s₁.index + s₁.depth = s.index + s.depth := congrArg₂ (· + ·) hindex hdepth
  refine leads_checkRefutations lenient_spare hq₁ fun new w₂ _ _ => .bind (leads_state
    (.bind (leads_state (.bind (leads_checkedAdd (fun hover => ?_) fun _ => leads_change
      ⟨hq₁, ?_⟩)))))
  · refine spare_overflow fun _ ⟨D, hD, _⟩ => ?_
    rw [hsum, hcounts D hD] at hover
    cases hover
  · obtain ⟨_, _, hshallow, hsize, hdepths⟩ := h₁.suffix (List.suffix_append new ℓ₁)
    refine ⟨?_, nofun, hshallow, hsize, fun ob' hob' => hdepths ob' ?_⟩
    · exact Nat.le_succ_of_le (Nat.le_add_left s₁.depth s₁.index)
    · have hnil : s₁.staged = [] := hstaged
      change ob' ∈ s₁.agenda.waiting ++ s₁.staged at hob'
      rwa [hnil, List.append_nil] at hob'

theorem fits_relocate {r : Relocation} (h : Measured B none [] s ℓ) :
    Leads (relocate B.noted r) s w ℓ (Spare B bound) fun _ s' _ => Measured B none [] s' := by
  refine leads_relocate lenient_spare fun s' w' new hmoved _ => ⟨hmoved.valid, ?_⟩
  obtain ⟨hstart, _, hshallow, hsize, hdepths⟩ := h.2.suffix (List.suffix_append new ℓ)
  refine ⟨?_, nofun, fun f o ho => ?_, ?_, fun ob' hob' => ?_⟩
  · rwa [hmoved.index, hmoved.depth]
  · rw [hmoved.lineage] at ho
    obtain ⟨g, o', hget, hdepth⟩ := Lineage.origin?_relocate ho
    rw [hmoved.depth, hdepth]
    exact hshallow g o' hget
  · rw [hmoved.lineage]
    exact Nat.le_trans (FormulaMap.size_rekey_le ..) hsize
  · rw [List.nil_append, hmoved.unstaged, List.append_nil] at hob'
    obtain ⟨o, ho, hdepth⟩ := hmoved.waiting ob' hob'
    rw [hdepth, hmoved.depth]
    exact hdepths o (List.mem_append_right _ (List.mem_append_left _ ho))

variable (bound) in
theorem fits_sweep (h : Measured B none [] s ℓ) :
    Leads (Search.act B.noted.oracle.sweep >>= fun
      | none => pure true
      | some r => relocate B.noted r >>= fun _ => pure true) s w ℓ (Spare B bound)
      fun more s' _ ℓ' => more = true ∧ Measured B none [] s' ℓ' := by
  refine .bind (leads_act lenient_spare (fun _ _ => rfl) fun answer w₁ => ?_)
  have h₁ := h.suffix (List.suffix_cons (.swept (.ok answer)) ℓ)
  cases answer with
  | none => exact leads_pure ⟨rfl, h₁⟩
  | some r => exact .bind ((fits_relocate h₁).imp fun _ _ _ _ h₂ => leads_pure ⟨rfl, h₂⟩)

theorem fits_addProperty {fuel : Nat} {p : Formula} (h : Measured B none [] s ℓ) :
    Leads (addProperty B.noted fuel p) s w ℓ (Spare B bound) fun answer s' _ ℓ' =>
      answer = true → Measured B none [] s' ℓ' := by
  refine leads_addProperty lenient_spare (fun _ _ h => h.1) ?_ ?_ h
  · intro s ℓ p negation agenda ⟨_, h⟩ _ hagenda hperm
    refine ⟨hagenda, h.step rfl rfl rfl ⟨[_, _], rfl⟩ fun ob hob => ⟨ob, ?_, rfl⟩⟩
    exact (hperm.append_right s.staged).mem_iff.mp hob
  · intro s ℓ p negation g intermediate stats agenda ⟨_, h⟩ _ hagenda hperm
    have hs : ℓ <:+ .negated negation (.ok g) :: .registered p .intermediate (.ok ()) ::
        .registered p .first (.ok ()) :: .other none :: .negated p (.ok negation) :: ℓ :=
      ⟨[_, _, _, _, _], rfl⟩
    obtain ⟨hstart, hlimit, hshallow, hsize, hdepths⟩ := h.suffix hs
    refine ⟨hagenda, hstart, hlimit, hshallow, hsize, fun ob hob => ?_⟩
    rcases List.mem_cons.mp ((hperm.append_right s.staged).mem_iff.mp hob) with rfl | hold
    · exact Nat.zero_le _
    · exact hdepths ob hold

end Search

end Invariance
