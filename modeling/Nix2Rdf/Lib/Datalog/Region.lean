import Nix2Rdf.Lib.Datalog.Semantics

/-!
# Facts that more rules do not change

A program may be put together from several ones. Where facts of a region are only derived by rules of one of them, and
from facts of the region, they mean the same in the whole and in the part.
-/

namespace Datalog

variable {P C : Type} {s : P → Nat} {rules rules' : List (Rule P C)} {I I' : Interp P C} {R : Fact P C → Prop}

/-- The literal asks for facts of the region, or for none. -/
def Literal.In (R : Fact P C → Prop) (σ : Valuation C) : Literal P C → Prop
  | .pos a => R (a.ground σ)
  | .neg _ | .count .. => False
  | .test .. => True

theorem Literal.In.holds {N N' : Interp P C} {σ : Valuation C} {l : Literal P C} (h : l.In R σ) (hside : l.Side N σ)
    (hpos : ∀ a, l = .pos a → R (a.ground σ) → N' (a.ground σ)) : l.Holds N' σ := by
  cases l with
  | pos a => exact hpos a rfl h
  | neg a => exact absurd h id
  | count numeral n x a => exact absurd h id
  | test rel args => exact hside

/-- Whatever derives facts of the region is in the other program, and asks for facts of the region or for what holds
there anyway. -/
theorem Model.le_of_region (hs : stratified s rules) (hs' : stratified s rules')
    (base : ∀ f, R f → I f → Model s rules' I' f)
    (fire : ∀ r ∈ rules, ∀ σ, r.Fresh σ → (∀ l ∈ r.body, l.Holds (Model s rules I) σ) → ∀ a ∈ r.head, R (a.ground σ) →
      Model s rules' I' (a.ground σ) ∨ r ∈ rules' ∧ ∀ l ∈ r.body, l.In R σ ∨ l.Holds (Model s rules' I') σ)
    {f : Fact P C} (h : Model s rules I f) (hf : R f) : Model s rules' I' f := by
  refine Model.induction hs (motive := fun f => R f → Model s rules' I' f) (fun f hI hR => base f hR hI) ?_ h hf
  intro r hr σ hσ hside hpos a ha hR
  have hbody := Literal.holds_iff.mpr ⟨hside, fun b hb => (hpos b hb).1⟩
  cases fire r hr σ hσ hbody a ha hR with
  | inl hdone => exact hdone
  | inr hrule =>
      refine Model.derive hs' hrule.1 ⟨σ, hσ, fun l hl => ?_, a, ha, rfl⟩
      cases hrule.2 l hl with
      | inl hin =>
          refine hin.holds (hside l hl) fun b hb hRb => ?_
          exact (hpos b (hb ▸ hl)).2 hRb
      | inr hholds => exact hholds

end Datalog
