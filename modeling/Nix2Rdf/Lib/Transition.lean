/-!
# Labelled transition systems

A run takes labelled steps one after another. A guard restricts it: each step must meet the guard in
the state before it. What holds at first and is kept by every guarded step holds at the end of every
guarded run.
-/

namespace Transition

variable {S A : Type}

/-- The steps of a partial function. -/
def ofPartial (f : S → A → Option S) : S → A → S → Prop := fun s a t => f s a = some t

inductive Run (step : S → A → S → Prop) (guard : S → A → Prop) : S → List A → S → Prop
  | nil {s : S} : Run step guard s [] s
  | cons {s t u : S} {a : A} {as : List A} : step s a t → guard s a → Run step guard t as u →
      Run step guard s (a :: as) u

/-- Every step is allowed. -/
def free : S → A → Prop := fun _ _ => True

variable {step : S → A → S → Prop} {guard guard' : S → A → Prop} {s t u : S}

theorem Run.invariant {motive : S → Prop} {as : List A} (h : Run step guard s as u)
    (hstep : ∀ s a t, motive s → guard s a → step s a t → motive t) (hs : motive s) : motive u := by
  induction h with
  | nil => exact hs
  | cons hst hg _ ih => exact ih (hstep _ _ _ hs hg hst)

theorem Run.append {as bs : List A} (h : Run step guard s as t) (h' : Run step guard t bs u) :
    Run step guard s (as ++ bs) u := by
  induction h with
  | nil => exact h'
  | cons hst hg _ ih => exact .cons hst hg (ih h')

theorem Run.mono {as : List A} (h : Run step guard s as u) (hguard : ∀ s a, guard s a → guard' s a) :
    Run step guard' s as u := by
  induction h with
  | nil => exact .nil
  | cons hst hg _ ih => exact .cons hst (hguard _ _ hg) ih

/-- The run of a partial function through a list of labels. -/
def exec (f : S → A → Option S) : S → List A → Option S
  | s, [] => some s
  | s, a :: as => (f s a).bind fun t => exec f t as

theorem exec_append (f : S → A → Option S) (s : S) (as bs : List A) :
    exec f s (as ++ bs) = (exec f s as).bind fun t => exec f t bs := by
  induction as generalizing s with
  | nil => rfl
  | cons a as ih =>
      rw [List.cons_append, exec, exec]
      cases f s a with
      | none => rfl
      | some t => exact ih t

theorem Run.of_exec {f : S → A → Option S} {as : List A} (h : exec f s as = some u) :
    Run (ofPartial f) free s as u := by
  induction as generalizing s with
  | nil =>
      cases h
      exact .nil
  | cons a as ih =>
      obtain ⟨t, ht, h⟩ := Option.bind_eq_some_iff.mp h
      exact .cons ht trivial (ih h)

end Transition
