import Invariance.Proofs.FiniteState.Passing.Additions
import Invariance.Proofs.Search.Fixed

/-!
What leaves the provenance alone. All that the search does, except that it learns, registers
properties and is relocated, holds on to the origins and the properties while the universe grows;
most of it brings nothing into the frame besides.
-/

namespace Invariance.FiniteState

open Universe Session

variable {M : Machine} {config : Config} {α β : Type} {f : Formula} {x y z : Search × Session}
  {act : SearchM Session α} {next : α → SearchM Session β} {c : Course act}

/-- The part of a search that is only changed by learning, registering and relocating. -/
def ancestry (s : Search) : FormulaMap Origin × FormulaSet :=
  (s.lineage.origins, s.lineage.properties)

theorem blind_ancestry : Search.Blind ancestry := fun _ _ _ _ _ _ _ _ => rfl

theorem ancestry_staged (s : Search) (staged : List Obligation) :
    ancestry { s with staged } = ancestry s := rfl

structure Holds (x y : Search × Session) : Prop where
  origins : y.1.lineage.origins = x.1.lineage.origins
  properties : y.1.lineage.properties = x.1.lineage.properties
  terms : Extends x.2.terms y.2.terms

namespace Holds

theorem refl (x : Search × Session) : Holds x x := ⟨rfl, rfl, .refl _⟩

theorem of_ancestry (h : ancestry y.1 = ancestry x.1) (hext : Extends x.2.terms y.2.terms) :
    Holds x y :=
  ⟨congrArg Prod.fst h, congrArg Prod.snd h, hext⟩

theorem trans (h : Holds x y) (h' : Holds y z) : Holds x z :=
  ⟨h'.origins.trans h.origins, h'.properties.trans h.properties, h.terms.trans h'.terms⟩

theorem origin?_eq (h : Holds x y) (f : Formula) :
    y.1.lineage.origin? f = x.1.lineage.origin? f := by
  rw [Lineage.origin?, h.origins, Lineage.origin?]

end Holds

def Holding (c : Course act) : Prop := c.Stays Holds

theorem Holding.bind {d : ∀ a, Course (next a)} (h : Holding c) (hd : ∀ a, Holding (d a)) :
    Holding (c.bind d) :=
  Course.Stays.bind (R := Holds) (fun h h' => h.trans h') h hd

theorem holding (hadding : Adding (fun _ => True) c) (hfixed : Search.Fixed ancestry c) :
    Holding c := fun x y hy => .of_ancestry (hfixed x y hy) (hadding x y hy).terms

/-- Neither the frame nor the provenance has anything new. -/
structure Calm (x y : Search × Session) : Prop where
  adds : Adds (fun _ => False) x y
  holds : Holds x y

theorem Calm.refl (x : Search × Session) : Calm x x := ⟨.refl x, .refl x⟩

def Calming (c : Course act) : Prop := c.Stays Calm

theorem calming (hadding : Adding (fun _ => False) c) (hfixed : Search.Fixed ancestry c) :
    Calming c := fun x y hy =>
  ⟨hadding x y hy, .of_ancestry (hfixed x y hy) (hadding x y hy).terms⟩

/-! Moves. -/

theorem calming_pure {a : α} : Calming (.move (pure a : SearchM Session α)) :=
  calming adding_pure (Search.fixed_pure a)

theorem calming_throw {fault : Fault} :
    Calming (.move (throw fault : SearchM Session α)) :=
  calming adding_throw (Search.fixed_throw fault)

theorem calming_state : Calming (.move (Search.state : SearchM Session Search)) :=
  calming adding_state Search.fixed_state

theorem calming_change {m : Search → Search}
    (h : ∀ s, (m s).frame = s.frame ∧ (m s).index = s.index ∧ (m s).lineage = s.lineage) :
    Calming (.move (Search.change m : SearchM Session Unit)) := by
  refine calming (adding_change fun s => ⟨(h s).1, (h s).2.1⟩) (Search.fixed_change fun s => ?_)
  rw [ancestry, (h s).2.2, ancestry]

theorem calming_report {level : Level} {message : String}
    {fields : Search → (Formula → String) → List (String × Field)} :
    Calming (.move (Search.report (backend M) level message fields)) :=
  calming adding_report (Search.fixed_report level message fields)

theorem calming_negate : Calming (.move (Search.negate (backend M) f)) :=
  calming adding_negate (Search.fixed_negate f)

theorem calming_checkInductive :
    Calming (.move (Search.act ((backend M).oracle.checkInductive f))) :=
  calming adding_checkInductive (Search.fixed_act _)

theorem calming_failInduction :
    Calming (Search.failInductionCourse (backend M) config f) :=
  calming adding_failInduction (Search.fixed_failInduction blind_ancestry)

theorem calming_pop : Calming (Search.popCourse (σ := Session)) :=
  calming adding_pop (Search.fixed_pop blind_ancestry)

theorem calming_enqueue (ob : Obligation) : Calming (Search.enqueueCourse (backend M) ob) :=
  calming (adding_enqueue ob) (Search.fixed_enqueue blind_ancestry ob)

end Invariance.FiniteState
