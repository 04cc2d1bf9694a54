import Mathlib.Data.List.Basic

/-!
# Programs that ask

A program asks questions one after the other and goes on from the answers; a question may go without an answer. Run
against something that answers, it asks certain questions in order. What it returns depends on these answers only, so a
recording of them can stand in for what was asked.
-/

namespace Asking

variable {Q : Type} {A : Q → Type} {α β : Type}

inductive Program (Q : Type) (A : Q → Type) (α : Type) where
  | done (a : α)
  | fail
  | ask (q : Q) (next : Option (A q) → Program Q A α)

namespace Program

protected def bind : Program Q A α → (α → Program Q A β) → Program Q A β
  | done a, f => f a
  | fail, _ => fail
  | ask q next, f => ask q fun r => (next r).bind f

instance instMonadProgram : Monad (Program Q A) where
  pure := done
  bind := Program.bind

def ofOption : Option α → Program Q A α
  | some a => done a
  | none => fail

/-- The answer to a question, without which the program fails. -/
def answerTo (q : Q) : Program Q A (A q) := ask q ofOption

/-- A program that may fail without harm. -/
def attempt : Program Q A α → Program Q A (Option α)
  | done a => done (some a)
  | fail => done none
  | ask q next => ask q fun r => (next r).attempt

/-! ## Runs -/

section Run

variable (answer : (q : Q) → Option (A q))

def run : Program Q A α → Option α
  | done a => some a
  | fail => none
  | ask q next => run (next (answer q))

/-- The questions of a run, in order. -/
def asked : Program Q A α → List Q
  | done _ => []
  | fail => []
  | ask q next => q :: asked (next (answer q))

variable {answer}

@[simp] theorem run_pure (a : α) : (pure a : Program Q A α).run answer = some a := rfl

@[simp] theorem asked_pure (a : α) : (pure a : Program Q A α).asked answer = [] := rfl

@[simp] theorem run_fail : (fail : Program Q A α).run answer = none := rfl

@[simp] theorem asked_fail : (fail : Program Q A α).asked answer = [] := rfl

@[simp] theorem run_ofOption (o : Option α) : (ofOption o : Program Q A α).run answer = o := by
  cases o <;> rfl

@[simp] theorem asked_ofOption (o : Option α) : (ofOption o : Program Q A α).asked answer = [] := by
  cases o <;> rfl

@[simp] theorem run_answerTo (q : Q) : (answerTo q : Program Q A (A q)).run answer = answer q := run_ofOption _

@[simp] theorem asked_answerTo (q : Q) : (answerTo q : Program Q A (A q)).asked answer = [q] :=
  congrArg (List.cons q) (asked_ofOption _)

@[simp] theorem run_bind (p : Program Q A α) (f : α → Program Q A β) :
    (p >>= f).run answer = (p.run answer).bind fun a => (f a).run answer := by
  induction p with
  | done a => rfl
  | fail => rfl
  | ask q next ih => exact ih (answer q)

/-- What a program asks comes before what the rest of it asks. -/
@[simp] theorem asked_bind (p : Program Q A α) (f : α → Program Q A β) :
    (p >>= f).asked answer = p.asked answer ++ (p.run answer).elim [] fun a => (f a).asked answer := by
  induction p with
  | done a => rfl
  | fail => rfl
  | ask q next ih => exact congrArg (List.cons q) (ih (answer q))

@[simp] theorem run_attempt (p : Program Q A α) : p.attempt.run answer = some (p.run answer) := by
  induction p with
  | done a => rfl
  | fail => rfl
  | ask q next ih => exact ih (answer q)

@[simp] theorem asked_attempt (p : Program Q A α) : p.attempt.asked answer = p.asked answer := by
  induction p with
  | done a => rfl
  | fail => rfl
  | ask q next ih => exact congrArg (List.cons q) (ih (answer q))

theorem run_bind_eq_some {p : Program Q A α} {f : α → Program Q A β} {b : β} :
    (p >>= f).run answer = some b ↔ ∃ a, p.run answer = some a ∧ (f a).run answer = some b := by
  rw [run_bind, Option.bind_eq_some_iff]

theorem mem_asked_bind {p : Program Q A α} {f : α → Program Q A β} {q : Q} :
    q ∈ (p >>= f).asked answer ↔ q ∈ p.asked answer ∨ ∃ a, p.run answer = some a ∧ q ∈ (f a).asked answer := by
  rw [asked_bind, List.mem_append]
  cases p.run answer <;> simp

instance instLawfulMonadProgram : LawfulMonad (Program Q A) := by
  refine LawfulMonad.mk' _ (fun p => ?_) (fun a f => rfl) (fun p f g => ?_)
  · induction p with
    | done a => rfl
    | fail => rfl
    | ask q next ih => exact congrArg (ask q) (funext ih)
  · induction p with
    | done a => rfl
    | fail => rfl
    | ask q next ih => exact congrArg (ask q) (funext ih)

@[simp] theorem run_mapM (f : α → Program Q A β) (l : List α) :
    (l.mapM f).run answer = l.mapM fun a => (f a).run answer := by
  induction l with
  | nil => rfl
  | cons a l ih =>
      simp only [List.mapM_cons, run_bind, ih, run_pure]
      rfl

theorem mem_asked_mapM {f : α → Program Q A β} {l : List α} {q : Q} (h : q ∈ (l.mapM f).asked answer) :
    ∃ a ∈ l, q ∈ (f a).asked answer := by
  induction l with
  | nil => cases h
  | cons a l ih =>
      rw [List.mapM_cons, mem_asked_bind] at h
      rcases h with h | ⟨b, _, h⟩
      · exact ⟨a, List.mem_cons_self, h⟩
      · rw [mem_asked_bind] at h
        rcases h with h | ⟨bs, _, h⟩
        · obtain ⟨a', ha', hq⟩ := ih h
          exact ⟨a', List.mem_cons_of_mem _ ha', hq⟩
        · cases h

@[simp] theorem run_foldlM (f : β → α → Program Q A β) (l : List α) (b : β) :
    (l.foldlM f b).run answer = l.foldlM (fun b a => (f b a).run answer) b := by
  induction l generalizing b with
  | nil => rfl
  | cons a l ih =>
      simp only [List.foldlM_cons, run_bind, ih]
      rfl

theorem mem_asked_foldlM {f : β → α → Program Q A β} {l : List α} {b : β} {q : Q}
    (h : q ∈ (l.foldlM f b).asked answer) : ∃ b, ∃ a ∈ l, q ∈ (f b a).asked answer := by
  induction l generalizing b with
  | nil => cases h
  | cons a l ih =>
      rw [List.foldlM_cons, mem_asked_bind] at h
      rcases h with h | ⟨b', _, h⟩
      · exact ⟨b, a, List.mem_cons_self, h⟩
      · obtain ⟨b, a', ha', hq⟩ := ih h
        exact ⟨b, a', List.mem_cons_of_mem _ ha', hq⟩

/-- The run of a program is settled by the answers to what it asks. -/
theorem run_congr {answer' : (q : Q) → Option (A q)} {p : Program Q A α}
    (h : ∀ q ∈ p.asked answer, answer' q = answer q) : p.run answer' = p.run answer := by
  induction p with
  | done a => rfl
  | fail => rfl
  | ask q next ih =>
      have hq := h q List.mem_cons_self
      show (next (answer' q)).run answer' = (next (answer q)).run answer
      rw [hq]
      exact ih (answer q) fun q' hq' => h q' (List.mem_cons_of_mem _ hq')

/-! ## Programs that need every answer -/

/-- Where a question goes unanswered the program fails. -/
def Strict : Program Q A α → Prop
  | done _ => True
  | fail => True
  | ask _ next => next none = fail ∧ ∀ a, (next (some a)).Strict

theorem strict_ofOption (o : Option α) : (ofOption o : Program Q A α).Strict := by
  cases o <;> trivial

theorem strict_answerTo (q : Q) : (answerTo q : Program Q A (A q)).Strict := ⟨rfl, fun _ => trivial⟩

theorem strict_bind {p : Program Q A α} {f : α → Program Q A β} (hp : p.Strict) (hf : ∀ a, (f a).Strict) :
    (p >>= f).Strict := by
  induction p with
  | done a => exact hf a
  | fail => trivial
  | ask q next ih =>
      obtain ⟨hnone, hsome⟩ := hp
      have hfail : (next none).bind f = fail := by rw [hnone]; rfl
      exact ⟨hfail, fun a => ih (some a) (hsome a)⟩

theorem answered_of_strict {p : Program Q A α} (hp : p.Strict) (hrun : (p.run answer).isSome) {q : Q}
    (hq : q ∈ p.asked answer) : (answer q).isSome := by
  induction p with
  | done a => cases hq
  | fail => cases hq
  | ask q' next ih =>
      cases ha : answer q' with
      | none =>
          have hfails : (next (answer q')).run answer = none := by rw [ha, hp.1]; rfl
          have hruns : ((next (answer q')).run answer).isSome := hrun
          rw [hfails] at hruns
          cases hruns
      | some a =>
          rcases List.mem_cons.mp hq with rfl | hq
          · rw [ha]
            rfl
          · exact ih (answer q') (by rw [ha]; exact hp.2 a) hrun hq

end Run

/-! ## Recordings -/

section Record

variable {D : Type} (write : D → (q : Q) → A q → D) (answer : (q : Q) → Option (A q))

/-- What is left of a question in a record. -/
def note (d : D) (q : Q) : D := (answer q).elim d (write d q)

/-- A run that keeps a record of every answer. -/
def record : Program Q A α → D → Option α × D
  | done a, d => (some a, d)
  | fail, d => (none, d)
  | ask q next, d => (next (answer q)).record (note write answer d q)

/-- The record of a run is that of its questions, and recording does not change the run. -/
theorem record_eq (p : Program Q A α) (d : D) :
    p.record write answer d = (p.run answer, (p.asked answer).foldl (note write answer) d) := by
  induction p generalizing d with
  | done a => rfl
  | fail => rfl
  | ask q next ih => exact ih (answer q) _

end Record

end Program

end Asking
