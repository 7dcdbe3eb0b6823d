import Invariance.Proofs.Transcripts.Leaves

/-!
The opening of a query. Its log is what comes before the first leaf and then the calls for the
leaves, up to one that is refused if there is such a leaf; the queries and the registrations of the
opening are read off this log. Main statement: what the search starts with when the initial states
satisfy all leaves, and what the query answers when they do not.
-/

namespace Invariance

open Action

variable {S σ μ : Type}

namespace Search

open Call

variable {B : Backend S σ μ} {neg : Formula → Formula} {w : σ} {ℓ : List (Call μ)} {p : Formula}

/-- The calls before the first leaf, the latest first. -/
def preface (p : Formula) : List (Call μ) :=
  [.reset 1 (.ok ()), .begun (.ok ()), .validated p (.ok ()), .loaded (.ok ())]

theorem split_blank : Split neg [] []
    { blank with index := 0, depth := 1, frame := .empty, stats.frameSize := 0 } where
  frame f := by simp [Frame.contains, Frame.empty, FormulaMap.contains_eq_false,
    FormulaMap.get?_empty]
  intermediate f := by simp [Frame.empty, FormulaMap.contains_eq_false, FormulaMap.get?_empty]
  valid := Agenda.empty_valid
  owed := .empty
  properties f := by simp [Lineage.isProperty, blank, FormulaMap.contains_eq_false,
    FormulaMap.get?_empty]
  origins := rfl
  holding := rfl
  staged := rfl
  index := rfl
  depth := rfl
  rounds := rfl

/-- Every state on the way to the end of the opening takes the tree of `p` apart as `parts` says. -/
def Parted (B : Backend S σ μ) (parts : Formula → Option (List Formula)) (fuel : Nat) (p : Formula)
    (w : σ) : Prop :=
  ∀ x ∈ (enterCourse B.logged fuel p).visited (.blank, w, [.loaded (.ok ())]), ∀ f,
    Occurs parts p f → B.terms.conjuncts x.2.1 f = parts f

theorem split_enter (hneg : Function.Involutive neg) {parts : Formula → Option (List Formula)}
    {fuel : Nat} {ls : List Formula} (hls : leaves? parts fuel p = some ls)
    (hparted : Parted B parts fuel p w) :
    (enter B.logged fuel p).Yields (.blank, w, [.loaded (.ok ())])
      (fun _ t => Smooth neg t.2.2 → Refused neg [] ls (preface p) none t.2.2)
      fun b t => Smooth neg t.2.2 →
        b = true ∧ Split neg ls ls t.1 ∧
            t.2.2.reverse = (preface p).reverse ++ literals neg [] ls ∨
          b = false ∧ t.1.stats.rounds = 0 ∧
            ∃ model, Refused neg [] ls (preface p) (some model) t.2.2 := by
  have hF : Lax fun _ (t : Search × σ × List (Call μ)) =>
      Smooth neg t.2.2 → Refused neg [] ls (preface p) none t.2.2 :=
    fun _ _ hfault hsmooth => (hsmooth.not_faulted hfault).elim
  refine Yields.bind (Yields.of_run (told_act hF (fun _ _ => rfl) fun _ w₁ h₁ => ?_))
  refine Yields.bind (Yields.of_run (told_act hF (fun _ _ => rfl) fun _ w₂ h₂ => ?_))
  refine Yields.bind (Yields.of_run (told_change fun h₃ => ?_))
  refine Yields.bind (Yields.of_run (told_clearFrame hF fun w₄ h₄ => ?_))
  refine Yields.congr (addProperty_eq_allM hls fun y hy f hf => ?_)
    (split_allM hneg fun _ => split_blank)
  refine hparted y ?_ f hf
  refine Course.mem_visited_bind.mpr (Or.inr ⟨_, _, h₁, ?_⟩)
  refine Course.mem_visited_bind.mpr (Or.inr ⟨_, _, h₂, ?_⟩)
  refine Course.mem_visited_bind.mpr (Or.inr ⟨_, _, h₃, ?_⟩)
  exact Course.mem_visited_bind.mpr (Or.inr ⟨_, _, h₄, hy⟩)

theorem under_enter (B : Backend S σ μ) (fuel : Nat) (p : Formula) :
    Under (through Prod.fst) (enter B.logged fuel p) (enter B fuel p) :=
  have h := B.logged_over
  (under_act (h.validate _)).bind fun _ => (under_act h.init).bind fun _ =>
    (under_change _).bind fun _ => (under_clearFrame h ..).bind fun _ => under_addProperty h ..

/-- The calls of a query until the loop begins or the property is found to fail, the first of them
first. The backend is loaded and in `w`. -/
def opening (B : Backend S σ μ) (fuel : Nat) (p : Formula) (w : σ) : List (Call μ) :=
  ((enter B.logged fuel p).final (.blank, w, [.loaded (.ok ())])).2.2.reverse

def queries (ℓ : List (Call μ)) : List (Formula × InitAnswer μ) := ℓ.filterMap query?

def registrations (ℓ : List (Call μ)) : List (Formula × Role) := ℓ.filterMap registration?

def recordings (ℓ : List (Call μ)) : List μ := ℓ.filterMap model?

/-- Each formula is asked for, up to the first one that the initial states do not rule out. -/
inductive Scans : List Formula → List (Formula × InitAnswer μ) → Prop
  | done : Scans [] []
  | next {f fs answers} : Scans fs answers → Scans (f :: fs) ((f, .unsat) :: answers)
  | stop {f fs model} : Scans (f :: fs) [(f, .sat model)]

section

variable (neg) (done ls : List Formula) (model : Option μ)

theorem queries_literal : queries (literal (μ := μ) neg done p) = [(neg p, .unsat)] := by
  rw [queries, literal, List.filterMap_append]
  split <;> rfl

theorem queries_literals :
    queries (literals (μ := μ) neg done ls) = ls.map fun f => (neg f, .unsat) := by
  induction ls generalizing done with
  | nil => rfl
  | cons p ls ih =>
      have hp := queries_literal (μ := μ) (p := p) neg done
      have hls := ih (done ++ [p])
      rw [queries] at hp hls ⊢
      rw [literals, List.filterMap_append, hp, hls]
      rfl

def roles (f : Formula) : List (Formula × Role) := [(f, .first), (f, .intermediate)]

theorem registrations_literal : done.eraseDups.flatMap roles ++
    registrations (literal (μ := μ) neg done p) = (done ++ [p]).eraseDups.flatMap roles := by
  rw [registrations, literal, List.filterMap_append]
  by_cases hp : p ∈ done
  · rw [if_pos hp, eraseDups_concat_of_mem hp]
    exact List.append_nil _
  · rw [if_neg hp, eraseDups_concat_of_not_mem hp, List.flatMap_append]
    rfl

theorem registrations_literals : done.eraseDups.flatMap roles ++
    registrations (literals (μ := μ) neg done ls) = (done ++ ls).eraseDups.flatMap roles := by
  induction ls generalizing done with
  | nil => rw [List.append_nil]; exact List.append_nil _
  | cons p ls ih =>
      have hls := ih (done ++ [p])
      rw [← registrations_literal (μ := μ) neg done, List.append_assoc] at hls
      rw [List.append_cons, ← hls, registrations, registrations, registrations, literals,
        List.filterMap_append]

theorem any_isChecked_literals : (literals (μ := μ) neg done ls).any isChecked = false := by
  induction ls generalizing done with
  | nil => rfl
  | cons p ls ih =>
      rw [literals, List.any_append, ih, literal]
      split <;> rfl

theorem recordings_literals : recordings (literals (μ := μ) neg done ls) = [] := by
  induction ls generalizing done with
  | nil => rfl
  | cons p ls ih =>
      have hls := ih (done ++ [p])
      rw [recordings] at hls ⊢
      rw [literals, List.filterMap_append, hls, literal]
      split <;> rfl

theorem queries_refusal : queries (refusal (μ := μ) neg p model) = [(neg p, .sat model)] := by
  cases model <;> rfl

end

variable {parts : Formula → Option (List Formula)} {fuel : Nat} {ls : List Formula}

/-- The log of an opening that was refused at a leaf. -/
def Refusal (neg : Formula → Formula) (p : Formula) (ls : List Formula) (model : Option μ)
    (ℓ : List (Call μ)) : Prop :=
  ∃ before q after, ls = before ++ q :: after ∧
    ℓ = (preface p).reverse ++ (literals neg [] before ++ refusal neg q model)

theorem opening_cases (hneg : Function.Involutive neg) (hls : leaves? parts fuel p = some ls)
    (hparted : Parted B parts fuel p w) (hsmooth : Smooth neg (opening B fuel p w)) :
    (∃ s w', enter B.logged fuel p (.blank, w, [.loaded (.ok ())]) =
        .ok true (s, w', (opening B fuel p w).reverse) ∧ Split neg ls ls s ∧
      opening B fuel p w = (preface p).reverse ++ literals neg [] ls) ∨
    (∃ s w' model, enter B.logged fuel p (.blank, w, [.loaded (.ok ())]) =
        .ok false (s, w', (opening B fuel p w).reverse) ∧ s.stats.rounds = 0 ∧
      Refusal neg p ls (some model) (opening B fuel p w)) ∨
    Refusal neg p ls none (opening B fuel p w) := by
  have henter := split_enter hneg hls hparted
  have hfinal : opening B fuel p w =
    ((enter B.logged fuel p).final (.blank, w, [.loaded (.ok ())])).2.2.reverse := rfl
  rw [final] at hfinal
  cases hrun : enter B.logged fuel p (.blank, w, [.loaded (.ok ())]) with
  | error fault t =>
      rw [hrun] at hfinal
      have hlog : Smooth neg t.2.2 := by
        rw [← List.reverse_reverse t.2.2, ← hfinal]
        exact hsmooth.reverse
      obtain ⟨before, q, after, hls, hlog⟩ := henter.of_error hrun hlog
      exact Or.inr (Or.inr ⟨before, q, after, hls, hfinal.trans hlog⟩)
  | ok b t =>
      rw [hrun] at hfinal
      have hlog : Smooth neg t.2.2 := by
        rw [← List.reverse_reverse t.2.2, ← hfinal]
        exact hsmooth.reverse
      have ht : t = (t.1, t.2.1, (opening B fuel p w).reverse) := by
        rw [hfinal, List.reverse_reverse]
      obtain ⟨rfl, hsplit, hcalls⟩ | ⟨rfl, hrounds, model, before, q, after, hls, hcalls⟩ :=
        henter.of_ok hrun hlog
      · exact Or.inl ⟨t.1, t.2.1, congrArg _ ht, hsplit, hfinal.trans hcalls⟩
      · exact Or.inr (Or.inl ⟨t.1, t.2.1, model, congrArg _ ht, hrounds, before, q, after, hls,
          hfinal.trans hcalls⟩)

theorem queries_refused {model : Option μ} (h : Refusal neg p ls model ℓ) :
    ∃ before q after, ls = before ++ q :: after ∧
      queries ℓ = (before.map fun f => (neg f, .unsat)) ++ [(neg q, .sat model)] := by
  obtain ⟨before, q, after, hls, rfl⟩ := h
  refine ⟨before, q, after, hls, ?_⟩
  rw [← queries_literals neg [] before, ← queries_refusal neg model]
  exact (List.filterMap_append (l := (preface p).reverse)).trans List.filterMap_append

theorem recordings_refused {model : μ} (h : Refusal neg p ls (some model) ℓ) :
    recordings ℓ = [model] := by
  obtain ⟨before, q, after, -, rfl⟩ := h
  have hbefore := recordings_literals (μ := μ) neg [] before
  rw [recordings] at hbefore ⊢
  rw [List.filterMap_append, List.filterMap_append, hbefore]
  rfl

theorem any_isChecked_refused {model : μ} (h : Refusal neg p ls (some model) ℓ) :
    ℓ.any isChecked = false := by
  obtain ⟨before, q, after, -, rfl⟩ := h
  rw [List.any_append, List.any_append, any_isChecked_literals]
  rfl

theorem scans_refused (before : List Formula) (q : Formula) (after : List Formula)
    (model : Option μ) : Scans ((before ++ q :: after).map neg)
      ((before.map fun f => (neg f, .unsat)) ++ [(neg q, .sat model)]) := by
  induction before with
  | nil => exact .stop
  | cons f before ih => exact .next ih

theorem scans_all (ls : List Formula) :
    Scans (μ := μ) (ls.map neg) (ls.map fun f => (neg f, .unsat)) := by
  induction ls with
  | nil => exact .done
  | cons f ls ih => exact .next ih

end Search

namespace Engine

open Call Search

variable {B : Backend S σ μ} {config : Config} {fuel : Nat} {system : S} {p : Formula}
  {e : Engine σ} {w : σ} {neg : Formula → Formula} {ls : List Formula}

theorem query_of_load (hload : B.load system (reset B e).world = .ok () w) :
    query B config fuel system p e =
      onSearch .blank (Search.run B config fuel p) { search := none, world := w } := by
  simp only [query, bind, EStateM.bind, run_modify, within, hload, reset_search]

theorem onSearch_of_enter {s : Search} {w' : σ}
    (henter : Search.enter B fuel p (.blank, w) = .ok true (s, w')) :
    onSearch .blank (Search.run B config fuel p) { search := none, world := w } =
      onSearch s (Search.loop B config fuel) { search := none, world := w' } := by
  simp only [onSearch, within, run_eq, bind, EStateM.bind, henter, if_true]

theorem onSearch_of_refusal {s : Search} {w' : σ} (config : Config)
    (henter : Search.enter B fuel p (.blank, w) = .ok false (s, w')) :
    ∃ event, onSearch .blank (Search.run B config fuel p) { search := none, world := w } =
      .ok .invalid { search := some { s with outcome := some .invalid },
                     world := B.reports.report event w' } := by
  simp only [onSearch, within, run_eq, bind, EStateM.bind, henter]
  exact ⟨_, rfl⟩

theorem queryCalls_of_load (hload : B.load system (reset B e).world = .ok () w) :
    queryCalls B config fuel system p e =
      ((Search.run B.logged config fuel p).final (.blank, w, [.loaded (.ok ())])).2.2 := by
  have hload' : B.logged.load system (reset B.logged e.logged).world =
      .ok () (w, [.loaded (.ok ())]) := by
    rw [reset_logged]
    change noting id _ (B.load system) ((reset B e).world, []) = _
    rw [noting, hload]
  rw [queryCalls, final, query_of_load hload', final, onSearch, within]
  cases Search.run B.logged config fuel p (.blank, w, [.loaded (.ok ())]) <;> rfl

/-- A query that is refused makes no further calls. -/
theorem queryCalls_of_refusal (hload : B.load system (reset B e).world = .ok () w) {s : Search}
    {w' : σ} {ℓ : List (Call μ)} (henter : Search.enter B.logged fuel p
      (.blank, w, [.loaded (.ok ())]) = .ok false (s, w', ℓ)) :
    queryCalls B config fuel system p e = ℓ := by
  rw [queryCalls_of_load hload, final, run_eq]
  simp only [bind, EStateM.bind, henter]
  rfl

/-- What a query makes of a property with the leaves `ls`. -/
structure Splits (B : Backend S σ μ) (config : Config) (fuel : Nat) (system : S) (p : Formula)
    (e : Engine σ) (w : σ) (neg : Formula → Formula) (ls : List Formula) : Prop where
  scans : Scans (ls.map neg) (queries (opening B fuel p w))
  starts : (∀ f a, (f, a) ∈ queries (opening B fuel p w) → a = .unsat) → ∃ s w',
    query B config fuel system p e =
        onSearch s (Search.loop B config fuel) { search := none, world := w' } ∧
      s.Split neg ls ls ∧ registrations (opening B fuel p w) = ls.eraseDups.flatMap roles
  fails : ∀ f model, (f, .sat (some model)) ∈ queries (opening B fuel p w) → ∃ e',
    query B config fuel system p e = .ok .invalid e' ∧ e'.outcome = some .invalid ∧
      e'.stats.rounds = 0 ∧
      recordings (queryCalls B config fuel system p e).reverse = [model] ∧
      (queryCalls B config fuel system p e).any isChecked = false

theorem splits_of_all (hload : B.load system (reset B e).world = .ok () w) {s : Search} {w' : σ}
    (henter : Search.enter B fuel p (.blank, w) = .ok true (s, w')) (hsplit : s.Split neg ls ls)
    (hlog : opening B fuel p w = (preface p).reverse ++ literals neg [] ls) :
    Splits B config fuel system p e w neg ls := by
  have hqueries : queries (opening B fuel p w) = ls.map fun f => (neg f, .unsat) := by
    rw [hlog, ← queries_literals neg [] ls]
    exact List.filterMap_append
  refine ⟨hqueries ▸ scans_all ls, fun _ => ?_, fun f model hin => ?_⟩
  · refine ⟨s, w', (query_of_load hload).trans (onSearch_of_enter henter), hsplit, ?_⟩
    rw [hlog]
    exact registrations_literals neg [] ls
  · rw [hqueries] at hin
    simp at hin

theorem splits_of_refusal {model : Option μ}
    (hrefused : Refusal neg p ls model (opening B fuel p w))
    (hfails : ∀ m, model = some m → ∃ e',
      query B config fuel system p e = .ok .invalid e' ∧ e'.outcome = some .invalid ∧
        e'.stats.rounds = 0 ∧
        recordings (queryCalls B config fuel system p e).reverse = [m] ∧
        (queryCalls B config fuel system p e).any isChecked = false) :
    Splits B config fuel system p e w neg ls := by
  obtain ⟨before, q, after, rfl, hqueries⟩ := queries_refused hrefused
  refine ⟨?_, fun hunsat => ?_, fun f m hin => hfails m ?_⟩
  · rw [hqueries]
    exact scans_refused before q after model
  · rw [hqueries] at hunsat
    cases hunsat _ _ (List.mem_append_right _ List.mem_cons_self)
  · rw [hqueries] at hin
    have hlast : f = neg q ∧ some m = model := by simpa using hin
    exact hlast.2.symm

theorem query_splits {parts : Formula → Option (List Formula)} {n : Nat}
    (hload : B.load system (reset B e).world = .ok () w) (hls : leaves? parts n p = some ls)
    (hn : n ≤ fuel) (hparted : Parted B parts fuel p w) (hneg : Function.Involutive neg)
    (hsmooth : Smooth neg (opening B fuel p w)) : Splits B config fuel system p e w neg ls := by
  have hunder := (under_enter B fuel p).run_eq (.blank, w, [.loaded (.ok ())])
  obtain ⟨s, w', henter, hsplit, hlog⟩ | ⟨s, w', model, henter, hrounds, hrefused⟩ | hrefused :=
    opening_cases hneg (leaves?_mono hn hls) hparted hsmooth
  · rw [henter] at hunder
    exact splits_of_all hload hunder hsplit hlog
  · rw [henter] at hunder
    refine splits_of_refusal hrefused fun m hm => ?_
    obtain rfl := Option.some.inj hm
    obtain ⟨event, hrun⟩ := onSearch_of_refusal config hunder
    refine ⟨_, (query_of_load hload).trans hrun, rfl, hrounds, ?_, ?_⟩
    · rw [queryCalls_of_refusal hload henter, List.reverse_reverse]
      exact recordings_refused hrefused
    · rw [queryCalls_of_refusal hload henter, List.any_reverse]
      exact any_isChecked_refused hrefused
  · exact splits_of_refusal hrefused fun m hm => by cases hm

open Scripted

/-- A conjunction in a conjunction, with a leaf that stands there three times. -/
def braided : Engine Player where
  world.sentences.terms := #[.conj [⟨1⟩, ⟨2⟩, ⟨1⟩], .atom "a", .conj [⟨3⟩, ⟨1⟩], .atom "b",
    .neg ⟨1⟩, .neg ⟨3⟩]

def opposed : Formula → Formula
  | ⟨1⟩ => ⟨4⟩
  | ⟨4⟩ => ⟨1⟩
  | ⟨3⟩ => ⟨5⟩
  | ⟨5⟩ => ⟨3⟩
  | f => f

theorem opposed_involutive : Function.Involutive opposed
  | ⟨0⟩ | ⟨1⟩ | ⟨2⟩ | ⟨3⟩ | ⟨4⟩ | ⟨5⟩ | ⟨_ + 6⟩ => rfl

theorem braided_parted {w : Player} (hw : w = (Player.load ()).final braided.world) :
    Parted Player.backend braided.world.sentences.conjuncts 20 ⟨0⟩ w := by
  subst hw
  have hparts : ∀ x ∈ (enterCourse Player.backend.logged 20 ⟨0⟩).visited
      (.blank, (Player.load ()).final braided.world, [.loaded (.ok ())]),
      ∀ f ∈ [⟨0⟩, ⟨1⟩, ⟨2⟩, (⟨3⟩ : Formula)],
        Player.backend.terms.conjuncts x.2.1 f = braided.world.sentences.conjuncts f := by
    decide +kernel
  exact fun x hx f hf => hparts x hx f (hf.mem (by decide) (by decide +kernel))

theorem braided_splits : ∃ w,
    Player.backend.load () (reset Player.backend braided).world = .ok () w ∧
      Splits Player.backend {} 20 () ⟨0⟩ braided w opposed [⟨1⟩, ⟨3⟩, ⟨1⟩, ⟨1⟩] :=
  ⟨_, rfl, query_splits (n := 3) rfl rfl (by decide) (braided_parted rfl) opposed_involutive
    (smooth_of_all (by decide +kernel))⟩

end Engine

end Invariance
