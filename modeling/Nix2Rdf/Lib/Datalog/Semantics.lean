import Nix2Rdf.Lib.Datalog.Syntax

/-!
# The stratified model of a program

Predicates are put into layers. A layer is the least set of facts above the layers below it that its
rules close, where negation and counting look only at the layers below. The model is the union of the
layers. The rules of this file (`Model.base`, `Model.fire`, `Model.induction`, `Model.inv`) speak
about the model alone, so that no later proof mentions a layer.
-/

namespace Datalog

variable {P C : Type}

/-- The least set above `I` closed under the rules, with negation and counting read in `N`. -/
inductive Closure (rules : List (Rule P C)) (N I : Interp P C) : Interp P C
  | base {f : Fact P C} : I f → Closure rules N I f
  | fire {r : Rule P C} {σ : Valuation C} {a : Atom P C} : r ∈ rules → r.Fresh σ →
      (∀ l ∈ r.body, l.Side N σ) → (∀ b, .pos b ∈ r.body → Closure rules N I (b.ground σ)) →
      a ∈ r.head → Closure rules N I (a.ground σ)

/-- The rules whose head is in layer `n`. -/
def layer (s : P → Nat) (rules : List (Rule P C)) (n : Nat) : List (Rule P C) :=
  rules.filter fun r => r.head.any fun a => s a.pred == n

def upTo (s : P → Nat) (rules : List (Rule P C)) (I : Interp P C) : Nat → Interp P C
  | 0 => I
  | n + 1 => Closure (layer s rules n) (upTo s rules I n) (upTo s rules I n)

/-- The stratified model of the rules over the input facts `I`. -/
def Model (s : P → Nat) (rules : List (Rule P C)) (I : Interp P C) : Interp P C :=
  fun f => ∃ n, upTo s rules I n f

def Literal.below (s : P → Nat) (n : Nat) : Literal P C → Bool
  | .pos a => s a.pred ≤ n
  | .neg a | .count _ _ _ a => s a.pred < n
  | .test _ _ => true

/-- The layering is a stratification: a positive atom is in no layer above the head, a negated or
counted one is in a layer below it. -/
def stratified (s : P → Nat) (rules : List (Rule P C)) : Bool :=
  rules.all fun r => r.head.all fun a => r.body.all (Literal.below s (s a.pred))
    && r.head.all fun b => s b.pred == s a.pred

variable {s : P → Nat} {rules : List (Rule P C)} {I : Interp P C}

theorem stratified_append {rules' : List (Rule P C)} :
    stratified s (rules ++ rules') ↔ stratified s rules ∧ stratified s rules' := by
  simp [stratified, forall_and]

theorem stratified_body (hs : stratified s rules) {r : Rule P C} (hr : r ∈ rules) {a : Atom P C}
    (ha : a ∈ r.head) {l : Literal P C} (hl : l ∈ r.body) : l.below s (s a.pred) := by
  have h := List.all_eq_true.mp (List.all_eq_true.mp hs r hr) a ha
  exact List.all_eq_true.mp (Bool.and_eq_true _ _ ▸ h).1 l hl

theorem stratified_head (hs : stratified s rules) {r : Rule P C} (hr : r ∈ rules) {a b : Atom P C}
    (ha : a ∈ r.head) (hb : b ∈ r.head) : s b.pred = s a.pred := by
  have h := List.all_eq_true.mp (List.all_eq_true.mp hs r hr) a ha
  exact eq_of_beq (List.all_eq_true.mp (Bool.and_eq_true _ _ ▸ h).2 b hb)

theorem mem_layer {n : Nat} {r : Rule P C} :
    r ∈ layer s rules n ↔ r ∈ rules ∧ ∃ a ∈ r.head, s a.pred = n := by
  simp [layer]

theorem upTo_le {m n : Nat} (hmn : m ≤ n) {f : Fact P C} (h : upTo s rules I m f) :
    upTo s rules I n f := by
  induction hmn with
  | refl => exact h
  | step _ ih => exact .base ih

/-- A layer adds only facts of its own predicates. -/
theorem upTo_stable (hs : stratified s rules) {m n : Nat} {f : Fact P C} (hf : s f.pred < m)
    (h : upTo s rules I n f) : upTo s rules I m f := by
  induction n with
  | zero => exact upTo_le (Nat.zero_le m) h
  | succ n ih =>
      by_cases hmn : n < m
      · exact upTo_le hmn h
      · cases h with
        | base h => exact ih h
        | fire hr _ _ _ ha =>
            obtain ⟨hr, b, hb, hbn⟩ := mem_layer.mp hr
            have hab := stratified_head hs hr hb ha
            rw [Atom.ground_pred] at hf
            omega

theorem upTo_iff_model (hs : stratified s rules) {m : Nat} {f : Fact P C} (hf : s f.pred < m) :
    upTo s rules I m f ↔ Model s rules I f :=
  ⟨fun h => ⟨m, h⟩, fun ⟨_, h⟩ => upTo_stable hs hf h⟩

theorem side_iff_model (hs : stratified s rules) {r : Rule P C} (hr : r ∈ rules) {a : Atom P C}
    (ha : a ∈ r.head) {l : Literal P C} (hl : l ∈ r.body) {σ : Valuation C} :
    l.Side (upTo s rules I (s a.pred)) σ ↔ l.Side (Model s rules I) σ := by
  have hb := stratified_body hs hr ha hl
  apply Literal.Side.congr
  rintro b hlb τ
  refine upTo_iff_model hs ?_
  rcases hlb with rfl | ⟨_, _, _, rfl⟩ <;> simpa [Literal.below] using hb

/-! ## The rules of the model -/

theorem Model.base {f : Fact P C} (h : I f) : Model s rules I f := ⟨0, h⟩

/-- The model is closed under every rule of the program. -/
theorem Model.fire (hs : stratified s rules) {r : Rule P C} {σ : Valuation C} {a : Atom P C}
    (hr : r ∈ rules) (hσ : r.Fresh σ) (hside : ∀ l ∈ r.body, l.Side (Model s rules I) σ)
    (hpos : ∀ b, .pos b ∈ r.body → Model s rules I (b.ground σ)) (ha : a ∈ r.head) :
    Model s rules I (a.ground σ) := by
  refine ⟨s a.pred + 1, .fire (mem_layer.mpr ⟨hr, a, ha, rfl⟩) hσ ?_ ?_ ha⟩
  · intro l hl
    exact (side_iff_model hs hr ha hl).mpr (hside l hl)
  · intro b hb
    have hba := stratified_body hs hr ha hb
    simp only [Literal.below, decide_eq_true_eq] at hba
    exact (upTo_iff_model (m := s a.pred + 1) hs (by simpa using Nat.lt_succ_of_le hba)).mpr (hpos b hb)

/-- What holds of the input facts and is preserved by every rule holds of the model. -/
theorem Model.induction (hs : stratified s rules) {motive : Fact P C → Prop}
    (base : ∀ f, I f → motive f)
    (fire : ∀ r ∈ rules, ∀ σ, r.Fresh σ → (∀ l ∈ r.body, l.Side (Model s rules I) σ) →
      (∀ b, .pos b ∈ r.body → Model s rules I (b.ground σ) ∧ motive (b.ground σ)) →
      ∀ a ∈ r.head, motive (a.ground σ))
    {f : Fact P C} (h : Model s rules I f) : motive f := by
  obtain ⟨n, h⟩ := h
  induction n generalizing f with
  | zero => exact base f h
  | succ n ih =>
      have hmodel : ∀ {g}, upTo s rules I (n + 1) g → Model s rules I g := fun hg => ⟨n + 1, hg⟩
      induction h with
      | base h => exact ih h
      | @fire r σ a hr hσ hside hpos ha hpos' =>
          obtain ⟨hr, b, hb, hbn⟩ := mem_layer.mp hr
          have han : s a.pred = n := (stratified_head hs hr hb ha).trans hbn
          refine fire r hr σ hσ ?_ (fun b hb => ⟨hmodel (hpos b hb), hpos' b hb⟩) a ha
          intro l hl
          exact (side_iff_model hs hr ha hl).mp (han ▸ hside l hl)

/-- The fact has the constant at this position. -/
def Fact.At (f : Fact P C) (p : P) (i : Nat) (c : C) : Prop := f.pred = p ∧ f.args[i]? = some (.const c)

/-- The head atom may derive a fact that has the constant at this position. -/
def Atom.mayBeAt [DecidableEq P] [DecidableEq C] (a : Atom P C) (p : P) (i : Nat) (c : C) : Bool :=
  a.pred = p && match a.args[i]? with
    | some (.const d) => d = c
    | _ => true

/-- The rules that define a predicate. -/
def rulesFor [DecidableEq P] (rules : List (Rule P C)) (p : P) : List (Rule P C) :=
  rules.filter fun r => r.head.any fun a => a.pred = p

/-- The rules that define a predicate where it has a constant at some position. -/
def rulesAt [DecidableEq P] [DecidableEq C] (rules : List (Rule P C)) (p : P) (i : Nat) (c : C) :
    List (Rule P C) :=
  rules.filter fun r => r.head.any fun a => a.mayBeAt p i c

theorem rulesFor_append [DecidableEq P] (rules rules' : List (Rule P C)) (p : P) :
    rulesFor (rules ++ rules') p = rulesFor rules p ++ rulesFor rules' p := List.filter_append ..

/-- The model is a fixed point: a fact of it is an input fact or derived by a rule. -/
theorem Model.iff_derives (hs : stratified s rules) {f : Fact P C} :
    Model s rules I f ↔ I f ∨ ∃ r ∈ rules, r.Derives (Model s rules I) f := by
  constructor
  · refine Model.induction hs (motive := fun f => I f ∨ ∃ r ∈ rules, r.Derives (Model s rules I) f)
      (fun f hf => Or.inl hf) ?_
    intro r hr σ hσ hside hpos a ha
    have hbody := Literal.holds_iff.mpr ⟨hside, fun b hb => (hpos b hb).1⟩
    exact Or.inr ⟨r, hr, σ, hσ, hbody, a, ha, rfl⟩
  · rintro (hf | ⟨r, hr, σ, hσ, hbody, a, ha, rfl⟩)
    · exact Model.base hf
    · obtain ⟨hside, hpos⟩ := Literal.holds_iff.mp hbody
      exact Model.fire hs hr hσ hside hpos ha

theorem mem_rulesAt [DecidableEq P] [DecidableEq C] {r : Rule P C} {σ : Valuation C} {a : Atom P C}
    {p : P} {i : Nat} {c : C} (hr : r ∈ rules) (ha : a ∈ r.head) (hat : (a.ground σ).At p i c) :
    r ∈ rulesAt rules p i c := by
  refine List.mem_filter.mpr ⟨hr, List.any_eq_true.mpr ⟨a, ha, ?_⟩⟩
  obtain ⟨hp, hc⟩ := hat
  simp only [Atom.ground, List.getElem?_map, Option.map_eq_some_iff] at hp hc
  obtain ⟨t, ht, htc⟩ := hc
  cases t with
  | var x => simp [Atom.mayBeAt, hp, ht]
  | const d =>
      simp only [Term.ground_const, Value.const.injEq] at htc
      simp [Atom.mayBeAt, hp, ht, htc]

/-- Induction on the facts with a constant at some position: only the rules for these matter. -/
theorem Model.induction_at [DecidableEq P] [DecidableEq C] (hs : stratified s rules) {p : P} {i : Nat}
    {c : C} {motive : Fact P C → Prop} (base : ∀ f, I f → f.At p i c → motive f)
    (fire : ∀ r ∈ rulesAt rules p i c, ∀ σ, (∀ l ∈ r.body, l.Holds (Model s rules I) σ) →
      (∀ b, .pos b ∈ r.body → (b.ground σ).At p i c → motive (b.ground σ)) →
      ∀ a ∈ r.head, (a.ground σ).At p i c → motive (a.ground σ))
    {f : Fact P C} (h : Model s rules I f) (hf : f.At p i c) : motive f := by
  refine Model.induction hs (motive := fun f => f.At p i c → motive f) base ?_ h hf
  intro r hr σ hσ hside hpos a ha hat
  have hbody := Literal.holds_iff.mpr ⟨hside, fun b hb => (hpos b hb).1⟩
  exact fire r (mem_rulesAt hr ha hat) σ hbody (fun b hb => (hpos b hb).2) a ha hat

/-- Induction on the facts of one predicate: only the rules that define it matter. -/
theorem Model.induction_for [DecidableEq P] (hs : stratified s rules) {p : P} {motive : List (Value C) → Prop}
    (base : ∀ f, I f → f.pred = p → motive f.args)
    (fire : ∀ r ∈ rulesFor rules p, ∀ σ, (∀ l ∈ r.body, l.Holds (Model s rules I) σ) →
      (∀ b, .pos b ∈ r.body → b.pred = p → motive (b.ground σ).args) →
      ∀ a ∈ r.head, a.pred = p → motive (a.ground σ).args)
    {args : List (Value C)} (h : Model s rules I ⟨p, args⟩) : motive args := by
  refine Model.induction hs (motive := fun f => f.pred = p → motive f.args) base ?_ h rfl
  intro r hr σ hσ hside hpos a ha hpred
  have hbody := Literal.holds_iff.mpr ⟨hside, fun b hb => (hpos b hb).1⟩
  have hfor : r ∈ rulesFor rules p := by
    refine List.mem_filter.mpr ⟨hr, List.any_eq_true.mpr ⟨a, ha, ?_⟩⟩
    simpa using hpred
  exact fire r hfor σ hbody (fun b hb => (hpos b hb).2) a ha hpred

theorem Model.derive (hs : stratified s rules) {r : Rule P C} (hr : r ∈ rules) {f : Fact P C}
    (h : r.Derives (Model s rules I) f) : Model s rules I f :=
  (Model.iff_derives hs).mpr (Or.inr ⟨r, hr, h⟩)

variable [DecidableEq P]

/-- Only the rules for its predicate can derive a fact. -/
theorem Model.iff_rulesFor (hs : stratified s rules) {f : Fact P C} :
    Model s rules I f ↔ I f ∨ ∃ r ∈ rulesFor rules f.pred, r.Derives (Model s rules I) f := by
  rw [Model.iff_derives hs]
  refine or_congr_right ⟨?_, ?_⟩
  · rintro ⟨r, hr, σ, hσ, hbody, a, ha, rfl⟩
    exact ⟨r, List.mem_filter.mpr ⟨hr, List.any_eq_true.mpr ⟨a, ha, by simp⟩⟩, σ, hσ, hbody, a, ha, rfl⟩
  · rintro ⟨r, hr, h⟩
    exact ⟨r, (List.mem_filter.mp hr).1, h⟩

/-- Only the rules that may put the constant there can derive a fact with it. -/
theorem Model.iff_rulesAt [DecidableEq C] (hs : stratified s rules) {f : Fact P C} {p : P} {i : Nat}
    {c : C} (hf : f.At p i c) :
    Model s rules I f ↔ I f ∨ ∃ r ∈ rulesAt rules p i c, r.Derives (Model s rules I) f := by
  rw [Model.iff_derives hs]
  refine or_congr_right ⟨?_, ?_⟩
  · rintro ⟨r, hr, σ, hσ, hbody, a, ha, rfl⟩
    exact ⟨r, mem_rulesAt hr ha hf, σ, hσ, hbody, a, ha, rfl⟩
  · rintro ⟨r, hr, h⟩
    exact ⟨r, (List.mem_filter.mp hr).1, h⟩

end Datalog
