import Mathlib.Logic.Relation

/-!
# What is reached from a base

Most closures that rules describe have one shape: some pairs stand at the start, a pair is carried on at its right
end, and it is inherited at its left end. What is reached is then a path up, a pair of the base, and a path on.
-/

namespace Reachability

open Relation (ReflTransGen)

variable {α β : Type*} {up : α → α → Prop} {base : α → β → Prop} {step : β → β → Prop} {a a' : α} {b b' : β}

/-- Up from the first one, over a pair of the base, and on to the second one. -/
def Reaches (up : α → α → Prop) (base : α → β → Prop) (step : β → β → Prop) (a : α) (b : β) : Prop :=
  ∃ a', ReflTransGen up a a' ∧ ∃ b', base a' b' ∧ ReflTransGen step b' b

namespace Reaches

theorem of_base (h : base a b) : Reaches up base step a b := ⟨a, .refl, b, h, .refl⟩

theorem tail (h : Reaches up base step a b) (hb : step b b') : Reaches up base step a b' := by
  obtain ⟨c, hup, d, hbase, hstep⟩ := h
  exact ⟨c, hup, d, hbase, hstep.tail hb⟩

theorem head (ha : up a a') (h : Reaches up base step a' b) : Reaches up base step a b := by
  obtain ⟨c, hup, rest⟩ := h
  exact ⟨c, hup.head ha, rest⟩

/-- It is the least relation that has the base and is closed under both steps. -/
theorem least {R : α → β → Prop} (hbase : ∀ {a b}, base a b → R a b) (htail : ∀ {a b b'}, R a b → step b b' → R a b')
    (hhead : ∀ {a a' b}, up a a' → R a' b → R a b) (h : Reaches up base step a b) : R a b := by
  obtain ⟨c, hpath, d, hstart, hon⟩ := h
  have hreached : R c b := by
    induction hon with
    | refl => exact hbase hstart
    | tail _ hlast ih => exact htail ih hlast
  induction hpath using ReflTransGen.head_induction_on with
  | refl => exact hreached
  | head hfirst _ ih => exact hhead hfirst ih

end Reaches

end Reachability
