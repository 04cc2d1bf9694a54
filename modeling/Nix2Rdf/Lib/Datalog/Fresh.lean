import Nix2Rdf.Lib.Datalog.Chase

/-!
# Fresh nulls

What a literal says depends on its own variables, so that the nulls of a rule can be chosen after its body holds.
-/

namespace Datalog

variable {P C : Type}

section Agree

variable {σ τ : Valuation C}

theorem Term.ground_congr {t : Term C} (h : ∀ x ∈ t.vars, σ x = τ x) : t.ground σ = t.ground τ := by
  cases t with
  | var x => exact h x (List.mem_singleton_self x)
  | const c => rfl

theorem map_ground_congr {ts : List (Term C)} (h : ∀ x ∈ ts.flatMap Term.vars, σ x = τ x) :
    ts.map (Term.ground σ) = ts.map (Term.ground τ) :=
  List.map_congr_left fun t ht => Term.ground_congr fun x hx => h x (List.mem_flatMap.mpr ⟨t, ht, hx⟩)

theorem Atom.ground_congr {a : Atom P C} (h : ∀ x ∈ a.vars, σ x = τ x) : a.ground σ = a.ground τ := by
  rw [Atom.ground, Atom.ground, map_ground_congr h]

theorem Literal.holds_congr {N : Interp P C} {l : Literal P C} (h : ∀ x ∈ l.vars, σ x = τ x) :
    l.Holds N σ ↔ l.Holds N τ := by
  cases l with
  | pos a => rw [Literal.holds_pos, Literal.holds_pos, Atom.ground_congr h]
  | neg a => rw [Literal.holds_neg, Literal.holds_neg, Atom.ground_congr h]
  | count num n x a =>
      have hvalue : σ n = τ n := h n List.mem_cons_self
      have hatom : ∀ v, a.ground (Function.update σ x v) = a.ground (Function.update τ x v) := by
        intro v
        apply Atom.ground_congr
        intro y hy
        by_cases hxy : y = x
        · rw [hxy, Function.update_self, Function.update_self]
        · rw [Function.update_of_ne hxy, Function.update_of_ne hxy]
          exact h y (List.mem_cons_of_mem _ (List.mem_cons_of_mem _ hy))
      simp only [Literal.Holds, Literal.Side, hvalue, hatom]
  | test rel args => rw [Literal.holds_test, Literal.holds_test, map_ground_congr h]

/-- Whatever makes the body true can be made fresh, as long as no null stands in the body. -/
theorem Rule.exists_fresh {N : Interp P C} {r : Rule P C} (hnulls : ∀ l ∈ r.body, ∀ x ∈ l.vars, x ∉ r.nulls)
    (hbody : ∀ l ∈ r.body, l.Holds N σ) :
    ∃ τ, r.Fresh τ ∧ (∀ l ∈ r.body, l.Holds N τ) ∧ ∀ x, x ∉ r.nulls → τ x = σ x := by
  obtain ⟨τ, hnull, hsame⟩ : ∃ τ : Valuation C, (∀ x ∈ r.nulls, τ x = .null r.name x (r.frontier.map σ)) ∧
      ∀ x, x ∉ r.nulls → τ x = σ x :=
    ⟨fun x => if x ∈ r.nulls then .null r.name x (r.frontier.map σ) else σ x, fun x hx => if_pos hx,
      fun x hx => if_neg hx⟩
  refine ⟨τ, fun x hx => ?_, fun l hl => ?_, hsame⟩
  · have hfrontier : ∀ y ∈ r.frontier, y ∉ r.nulls := by
      intro y hy
      have hmem := (List.mem_filter.mp (List.mem_dedup.mp hy)).2
      simpa using hmem
    rw [hnull x hx, List.map_congr_left fun y hy => hsame y (hfrontier y hy)]
  · exact (Literal.holds_congr fun x hx => hsame x (hnulls l hl x hx)).mpr (hbody l hl)

end Agree

end Datalog
