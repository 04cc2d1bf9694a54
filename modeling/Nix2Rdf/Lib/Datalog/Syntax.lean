import Mathlib.Data.Set.Card
import Mathlib.Logic.Function.Basic

/-!
# Datalog with negation, counting and existential heads

Predicates are drawn from `P` and constants from `C`. A rule may have several head atoms that share
the nulls it mints; its body mixes positive atoms, negated atoms, counts and tests on values.
-/

namespace Datalog

/-- A ground value: a constant, or the null that a rule mints for the values of its frontier. -/
inductive Value (C : Type) where
  | const (c : C)
  | null (rule : String) (x : String) (frontier : List (Value C))

inductive Term (C : Type) where
  | var (x : String)
  | const (c : C)

structure Atom (P C : Type) where
  pred : P
  args : List (Term C)

structure Fact (P C : Type) where
  pred : P
  args : List (Value C)

inductive Literal (P C : Type) where
  | pos (a : Atom P C)
  | neg (a : Atom P C)
  /-- `n` is the numeral of the number of values of `x` for which the atom holds. -/
  | count (numeral : Nat → C) (n x : String) (a : Atom P C)
  /-- A built-in relation between values: a comparison, or a computed term. -/
  | test (rel : List (Value C) → Prop) (args : List (Term C))

structure Rule (P C : Type) where
  head : List (Atom P C)
  body : List (Literal P C)
  /-- Names the rule in the nulls it mints. -/
  name : String := ""
  /-- The existential variables of the head. -/
  nulls : List String := []

abbrev Valuation (C : Type) := String → Value C

abbrev Interp (P C : Type) := Fact P C → Prop

variable {P C : Type}

def Term.ground (σ : Valuation C) : Term C → Value C
  | .var x => σ x
  | .const c => .const c

def Atom.ground (σ : Valuation C) (a : Atom P C) : Fact P C :=
  ⟨a.pred, a.args.map (Term.ground σ)⟩

def Term.vars : Term C → List String
  | .var x => [x]
  | .const _ => []

@[simp] theorem Term.ground_var (σ : Valuation C) (x : String) : (Term.var x).ground σ = σ x := rfl

@[simp] theorem Term.ground_const (σ : Valuation C) (c : C) :
    (Term.const c).ground σ = .const c := rfl

@[simp] theorem Atom.ground_pred (σ : Valuation C) (a : Atom P C) : (a.ground σ).pred = a.pred := rfl

@[simp] theorem Atom.ground_mk (σ : Valuation C) (p : P) (ts : List (Term C)) :
    (Atom.mk p ts).ground σ = ⟨p, ts.map (Term.ground σ)⟩ := rfl

/-- The variables that a rule's nulls depend on: those of the head that are no nulls. -/
def Rule.frontier (r : Rule P C) : List String :=
  ((r.head.flatMap fun a => a.args.flatMap Term.vars).filter fun x => x ∉ r.nulls).dedup

/-- The valuation gives every existential variable the null of this rule and frontier. -/
def Rule.Fresh (r : Rule P C) (σ : Valuation C) : Prop :=
  ∀ x ∈ r.nulls, σ x = .null r.name x (r.frontier.map σ)

/-- What a literal asks of the completed lower layers `N`. A positive atom asks nothing of them. -/
def Literal.Side (N : Interp P C) (σ : Valuation C) : Literal P C → Prop
  | .pos _ => True
  | .neg a => ¬ N (a.ground σ)
  | .count numeral n x a =>
      σ n = .const (numeral {v | N (a.ground (Function.update σ x v))}.ncard)
  | .test rel args => rel (args.map (Term.ground σ))

/-- The literal holds in `N`. -/
def Literal.Holds (N : Interp P C) (σ : Valuation C) : Literal P C → Prop
  | .pos a => N (a.ground σ)
  | l => l.Side N σ

/-- The rule derives the fact from what holds in `N`. -/
def Rule.Derives (N : Interp P C) (r : Rule P C) (f : Fact P C) : Prop :=
  ∃ σ, r.Fresh σ ∧ (∀ l ∈ r.body, l.Holds N σ) ∧ ∃ a ∈ r.head, a.ground σ = f

/-- The valuation that gives each listed variable its value. -/
def Valuation.of (d : Value C) : List (String × Value C) → Valuation C
  | [] => fun _ => d
  | (x, v) :: vs => Function.update (Valuation.of d vs) x v

@[simp] theorem Valuation.of_nil (d : Value C) (x : String) : Valuation.of d [] x = d := rfl

@[simp] theorem Valuation.of_cons (d : Value C) (x y : String) (v : Value C)
    (vs : List (String × Value C)) :
    Valuation.of d ((x, v) :: vs) y = if y = x then v else Valuation.of d vs y :=
  Function.update_apply _ _ _ _

@[simp] theorem Literal.holds_pos (N : Interp P C) (σ : Valuation C) (a : Atom P C) :
    (Literal.pos a).Holds N σ ↔ N (a.ground σ) := Iff.rfl

@[simp] theorem Literal.holds_neg (N : Interp P C) (σ : Valuation C) (a : Atom P C) :
    (Literal.neg a).Holds N σ ↔ ¬ N (a.ground σ) := Iff.rfl

@[simp] theorem Literal.holds_test (N : Interp P C) (σ : Valuation C) (rel : List (Value C) → Prop)
    (args : List (Term C)) : (Literal.test rel args).Holds N σ ↔ rel (args.map (Term.ground σ)) :=
  Iff.rfl

theorem Literal.holds_iff {N : Interp P C} {σ : Valuation C} {ls : List (Literal P C)} :
    (∀ l ∈ ls, l.Holds N σ) ↔ (∀ l ∈ ls, l.Side N σ) ∧ ∀ a, .pos a ∈ ls → N (a.ground σ) := by
  constructor
  · intro h
    constructor
    · intro l hl
      have hlN := h l hl
      cases l with
      | pos a => trivial
      | neg a => exact hlN
      | count num n x a => exact hlN
      | test rel args => exact hlN
    · intro a ha
      exact h _ ha
  · rintro ⟨hside, hpos⟩ l hl
    cases l with
    | pos a => exact hpos a hl
    | neg a => exact hside _ hl
    | count num n x a => exact hside _ hl
    | test rel args => exact hside _ hl

/-- A rule with one head atom and no nulls. -/
theorem Rule.derives_single {N : Interp P C} {h : Atom P C} {body : List (Literal P C)} {f : Fact P C} :
    Rule.Derives N ⟨[h], body, "", []⟩ f ↔ ∃ σ, (∀ l ∈ body, l.Holds N σ) ∧ h.ground σ = f := by
  simp [Rule.Derives, Rule.Fresh]

@[simp] theorem Rule.fresh_of_nulls_nil {r : Rule P C} (h : r.nulls = []) (σ : Valuation C) :
    r.Fresh σ := by
  intro x hx
  simp [h] at hx

def Literal.isPos : Literal P C → Bool
  | .pos _ => true
  | _ => false

/-- No nulls, and nothing but atoms in the body. -/
def Rule.isPositive (r : Rule P C) : Bool := r.nulls.isEmpty && r.body.all Literal.isPos

theorem Rule.exists_pos {r : Rule P C} (h : r.isPositive) {l : Literal P C} (hl : l ∈ r.body) :
    ∃ a, l = .pos a := by
  have hpos := List.all_eq_true.mp (Bool.and_eq_true_iff.mp h).2 l hl
  cases l with
  | pos a => exact ⟨a, rfl⟩
  | neg a => cases hpos
  | count num n x a => cases hpos
  | test rel args => cases hpos

/-- A positive rule derives more from more. -/
theorem Rule.Derives.mono {N N' : Interp P C} {r : Rule P C} {f : Fact P C} (hr : r.isPositive)
    (hN : ∀ f, N f → N' f) (h : r.Derives N f) : r.Derives N' f := by
  obtain ⟨σ, hfresh, hbody, hhead⟩ := h
  refine ⟨σ, hfresh, fun l hl => ?_, hhead⟩
  obtain ⟨a, rfl⟩ := Rule.exists_pos hr hl
  exact hN _ (hbody _ hl)

theorem Literal.Side.congr {N N' : Interp P C} {σ : Valuation C} {l : Literal P C}
    (h : ∀ a, (l = .neg a ∨ ∃ num n x, l = .count num n x a) → ∀ τ, N (a.ground τ) ↔ N' (a.ground τ)) :
    l.Side N σ ↔ l.Side N' σ := by
  cases l with
  | pos a => exact Iff.rfl
  | neg a => exact not_congr (h a (Or.inl rfl) σ)
  | count num n x a =>
      have hset : {v | N (a.ground (Function.update σ x v))}
          = {v | N' (a.ground (Function.update σ x v))} := by
        ext v
        exact h a (Or.inr ⟨num, n, x, rfl⟩) _
      simp only [Literal.Side, hset]
  | test rel args => exact Iff.rfl

end Datalog
