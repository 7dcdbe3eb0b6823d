import Invariance.Proofs.Search.Courses
import Mathlib.Logic.Relation

/-!
A property as the list of its leaves. The search goes through a tree of conjunctions by recursion
and stops at the first leaf that fails; this is one loop over the leaves from left to right.
-/

namespace Invariance

/-- `g` stands in the tree of `f`. -/
def Occurs (parts : Formula → Option (List Formula)) : Formula → Formula → Prop :=
  Relation.ReflTransGen fun f g => ∃ fs, parts f = some fs ∧ g ∈ fs

/-- The leaves of a tree with no more than `n` levels, from left to right. -/
def leaves? (parts : Formula → Option (List Formula)) : (n : Nat) → Formula → Option (List Formula)
  | 0, _ => none
  | n + 1, p =>
      match parts p with
      | none => some [p]
      | some qs => (qs.mapM (leaves? parts n)).map List.flatten

theorem mapM_eq_some_cons {α β : Type} {f : α → Option β} {a : α} {l : List α} {bs : List β} :
    (a :: l).mapM f = some bs ↔ ∃ b bs', f a = some b ∧ l.mapM f = some bs' ∧ bs = b :: bs' := by
  rw [List.mapM_cons]
  cases f a <;> cases l.mapM f <;> simp [eq_comm]

variable {parts : Formula → Option (List Formula)}

theorem mapM_of_mapM {α β : Type} {f g : α → Option β} (h : ∀ {a b}, f a = some b → g a = some b) :
    ∀ {l : List α} {bs : List β}, l.mapM f = some bs → l.mapM g = some bs
  | [], _, hbs => hbs
  | _ :: _, _, hbs => by
      obtain ⟨b, bs', hb, hbs', rfl⟩ := mapM_eq_some_cons.mp hbs
      exact mapM_eq_some_cons.mpr ⟨b, bs', h hb, mapM_of_mapM h hbs', rfl⟩

theorem leaves?_succ : ∀ {n : Nat} {p : Formula} {ls : List Formula},
    leaves? parts n p = some ls → leaves? parts (n + 1) p = some ls
  | n + 1, p, ls, h => by
      rw [leaves?] at h ⊢
      cases hp : parts p with
      | none => rwa [hp] at h
      | some qs =>
          rw [hp] at h
          obtain ⟨lss, hlss, rfl⟩ := Option.map_eq_some_iff.mp h
          exact Option.map_eq_some_iff.mpr ⟨lss, mapM_of_mapM leaves?_succ hlss, rfl⟩

theorem leaves?_mono {n m : Nat} (hn : n ≤ m) {p : Formula} {ls : List Formula}
    (h : leaves? parts n p = some ls) : leaves? parts m p = some ls := by
  induction hn with
  | refl => exact h
  | step _ ih => exact leaves?_succ ih

theorem Occurs.mem {nodes : List Formula} {p f : Formula} (hp : p ∈ nodes)
    (hclosed : ∀ g ∈ nodes, ∀ fs ∈ parts g, ∀ q ∈ fs, q ∈ nodes) (h : Occurs parts p f) :
    f ∈ nodes := by
  induction h with
  | refl => exact hp
  | tail _ hstep ih =>
      obtain ⟨fs, hfs, hq⟩ := hstep
      exact hclosed _ ih fs hfs _ hq

theorem allM_append {σ α : Type} (act : α → Action σ Bool) (l l' : List α) :
    (l ++ l').allM act = do if ← l.allM act then l'.allM act else return false := by
  induction l with
  | nil => rfl
  | cons a l ih =>
      rw [List.cons_append, List.allM, List.allM, ih, bind_assoc]
      refine congrArg (act a >>= ·) (funext fun b => ?_)
      cases b <;> rfl

theorem Course.mem_visited_bind {σ α β : Type} {act : Action σ α} {next : α → Action σ β}
    {c : Course act} {d : ∀ a, Course (next a)} {s t : σ} : t ∈ (c.bind d).visited s ↔
      t ∈ c.visited s ∨ ∃ a s', act s = .ok a s' ∧ t ∈ (d a).visited s' := by
  rw [visited, List.mem_append]
  cases act s with
  | ok a s' =>
      refine or_congr_right ⟨fun ht => ⟨a, s', rfl, ht⟩, ?_⟩
      rintro ⟨_, _, heq, ht⟩
      cases heq
      exact ht
  | error fault s' => simp

namespace Search

variable {S σ μ : Type} (B : Backend S σ μ)

/-- What becomes of a leaf. -/
def addLiteral (p : Formula) : SearchM σ Bool := do
  let negation ← negate B p
  match ← act (B.oracle.queryInit negation) with
  | .unsat =>
      unless (← state).frame.contains p do
        addToFrame B p .first
        addToFrame B p .intermediate
        enqueue B { forward := p, counter := negation, depth := 0, score := .zero }
      bump negation
      change fun s => { s with lineage := s.lineage.addProperty p }
      return true
  | .sat none => Action.fail (.missingWitness "an initial-state model")
  | .sat (some model) =>
      report B .debug "property falsified at init" fun _ text => [("property", .text (text p))]
      update (B.recorder.record model)
      change fun s => { s with lineage := (s.lineage.addProperty p).markPropertyInvalid }
      return false
  | .unknown => Action.fail (.solverUnknown "initial-state query")

variable {B}

theorem run_addProperty_succ (n : Nat) (p : Formula) (x : Search × σ) :
    addProperty B (n + 1) p x =
      match B.terms.conjuncts x.2 p with
      | some qs => qs.allM (addProperty B n) x
      | none => addLiteral B p x := by
  have hask : ∀ next : Option (List Formula) → SearchM σ Bool,
      (ask (fun w => B.terms.conjuncts w p) >>= next) x = next (B.terms.conjuncts x.2 p) x :=
    fun _ => rfl
  rw [addProperty, hask]
  cases B.terms.conjuncts x.2 p <;> rfl

theorem start_mem_visited (n : Nat) (p : Formula) (x : Search × σ) :
    x ∈ (addPropertyCourse B (n + 1) p).visited x := by
  rw [addPropertyCourse]
  exact List.mem_append_left _ List.mem_cons_self

theorem visited_conjuncts {n : Nat} {p : Formula} {x y : Search × σ} {qs : List Formula}
    (hqs : B.terms.conjuncts x.2 p = some qs)
    (hy : y ∈ (allMCourse (addPropertyCourse B n) qs).visited x) :
    y ∈ (addPropertyCourse B (n + 1) p).visited x := by
  rw [addPropertyCourse]
  refine List.mem_append_right _ ?_
  dsimp only [ask]
  rw [hqs]
  exact hy

theorem run_allM_cons {α : Type} (act : α → SearchM σ Bool) (a : α) (l : List α)
    (x : Search × σ) : (a :: l).allM act x =
      match act a x with
      | .ok true y => l.allM act y
      | .ok false y => .ok false y
      | .error fault y => .error fault y := by
  rw [List.allM]
  change EStateM.bind (act a) _ x = _
  rw [EStateM.bind]
  cases act a x with
  | ok b y => cases b <;> rfl
  | error fault y => rfl

section

variable {α : Type} {act : α → SearchM σ Bool} {c : ∀ a, Course (act a)} {a : α} {l : List α}
  {x y z : Search × σ}

theorem visited_head (hy : y ∈ (c a).visited x) : y ∈ (allMCourse c (a :: l)).visited x :=
  Course.mem_visited_bind.mpr (Or.inl hy)

theorem visited_tail (hrun : act a x = .ok true z) (hy : y ∈ (allMCourse c l).visited z) :
    y ∈ (allMCourse c (a :: l)).visited x :=
  Course.mem_visited_bind.mpr (Or.inr ⟨true, z, hrun, hy⟩)

end

theorem allM_addProperty {n : Nat}
    (htree : ∀ {p : Formula} {ls : List Formula} {x : Search × σ}, leaves? parts n p = some ls →
      (∀ y ∈ (addPropertyCourse B n p).visited x, ∀ f, Occurs parts p f →
        B.terms.conjuncts y.2 f = parts f) →
      addProperty B n p x = ls.allM (addLiteral B) x) :
    ∀ {qs : List Formula} {lss : List (List Formula)} {x : Search × σ},
      qs.mapM (leaves? parts n) = some lss →
      (∀ y ∈ (allMCourse (addPropertyCourse B n) qs).visited x, ∀ q ∈ qs, ∀ f, Occurs parts q f →
        B.terms.conjuncts y.2 f = parts f) →
      qs.allM (addProperty B n) x = lss.flatten.allM (addLiteral B) x
  | [], _, x, hlss, _ => by
      cases hlss
      rfl
  | q :: qs, _, x, hlss, hparts => by
      obtain ⟨l, lss', hl, hlss', rfl⟩ := mapM_eq_some_cons.mp hlss
      have hhead := htree hl fun y hy => hparts y (visited_head hy) q List.mem_cons_self
      rw [List.flatten_cons, allM_append, run_allM_cons, hhead]
      change _ = EStateM.bind (l.allM (addLiteral B)) _ x
      rw [EStateM.bind]
      cases hrun : l.allM (addLiteral B) x with
      | error fault y => rfl
      | ok b y =>
          cases b with
          | false => rfl
          | true =>
              refine allM_addProperty htree hlss' fun z hz q' hq' => ?_
              exact hparts z (visited_tail (hhead.trans hrun) hz) q' (List.mem_cons_of_mem _ hq')

/-- The recursion over the tree is the loop over its leaves, as long as the terms are taken apart
in the same way. -/
theorem addProperty_eq_allM : ∀ {n : Nat} {p : Formula} {ls : List Formula} {x : Search × σ},
    leaves? parts n p = some ls →
    (∀ y ∈ (addPropertyCourse B n p).visited x, ∀ f, Occurs parts p f →
      B.terms.conjuncts y.2 f = parts f) →
    addProperty B n p x = ls.allM (addLiteral B) x
  | n + 1, p, ls, x, hls, hparts => by
      have hp := hparts x (start_mem_visited n p x) p .refl
      rw [run_addProperty_succ, hp]
      rw [leaves?] at hls
      cases hqs : parts p with
      | none =>
          rw [hqs] at hls
          cases hls
          rw [run_allM_cons]
          cases addLiteral B p x with
          | ok b y => cases b <;> rfl
          | error fault y => rfl
      | some qs =>
          rw [hqs] at hls hp
          obtain ⟨lss, hlss, rfl⟩ := Option.map_eq_some_iff.mp hls
          exact allM_addProperty addProperty_eq_allM hlss fun y hy q hq f hf =>
            hparts y (visited_conjuncts hp hy) f (.head ⟨qs, hqs, hq⟩ hf)

end Search

end Invariance
