import Nix2Rdf.Packs.Core
import Nix2Rdf.Packs.Identifiers
import Nix2Rdf.Packs.K8s

/-!
# Programs and their models

The rules of the packs are stratified: imported quads and tables come first, then the working triple
set with everything it is read through, then the final layer.
-/

namespace Nix2Rdf.Packs

open Datalog (Model stratified rulesAt rulesFor)

def level : Pred → Nat
  | .raw | .rawGraph | .q | .asserted | .ecosystem | .cpe | .rank | .inTable | .minSeverityRank
  | .minKernel | .typedIn | .refIn | .imgIn | .replIn | .licenseRef | .hasRef => 0
  | .out | .new | .running | .runningOnNode | .domainCount | .cveHit | .dangling | .userSa => 2
  | _ => 1

/-- A pack defines no predicate of the prelude. -/
def keepsPrelude (body : List DRule) : Bool :=
  body.all fun r => r.head.all fun a => a.pred ∉ [Pred.raw, .rawGraph, .q, .asserted]

/-- The rules of some packs: stratified, and apart from the prelude. -/
structure Ruleset where
  rules : List DRule
  stratified : stratified level rules
  keepsPrelude : keepsPrelude rules

namespace Ruleset

def append (a b : Ruleset) : Ruleset where
  rules := a.rules ++ b.rules
  stratified := Datalog.stratified_append.mpr ⟨a.stratified, b.stratified⟩
  keepsPrelude := by
    simp only [Packs.keepsPrelude, List.all_append, Bool.and_eq_true]
    exact ⟨a.keepsPrelude, b.keepsPrelude⟩

/-- What the program of the packs derives from some quads. -/
def Derived (k : Ruleset) (quads : Quad → Prop) : DFact → Prop :=
  Model level (program k.rules) (input quads)

variable (k : Ruleset) {quads : Quad → Prop}

theorem program_stratified : Datalog.stratified level (program k.rules) := by
  simp only [program, Datalog.stratified_append]
  exact ⟨⟨rfl, k.stratified⟩, rfl⟩

/-- All rules of the program for a predicate. -/
def rulesFor (p : Pred) : List DRule :=
  Datalog.rulesFor prelude p ++ Datalog.rulesFor k.rules p ++ Datalog.rulesFor epilogue p

/-- All rules of the program that may derive triples of the working set with a predicate. -/
def rulesOfT (p : Iri) : List DRule := rulesAt (program k.rules) .t 1 (.iri p)

/-- The same for triples of the final layer. -/
def rulesOfOut (p : Iri) : List DRule := rulesAt (program k.rules) .out 1 (.iri p)

theorem not_input {p : Pred} (hp : p ≠ .raw) (args : List Val) : ¬ input quads ⟨p, args⟩ := by
  rintro ⟨x, _, hx⟩
  exact hp (congrArg Datalog.Fact.pred hx)

theorem derived_iff {p : Pred} {args : List Val} (hp : p ≠ .raw) :
    k.Derived quads ⟨p, args⟩ ↔ ∃ r ∈ k.rulesFor p, r.Derives (k.Derived quads) ⟨p, args⟩ := by
  unfold Derived
  rw [Model.iff_rulesFor k.program_stratified, or_iff_right (not_input hp args)]
  simp only [rulesFor, program, Datalog.rulesFor_append]

theorem derived_iff_one {p : Pred} {head : DAtom} {body : List DLiteral} {args : List Val}
    (h : k.rulesFor p = [clause head body]) (hp : p ≠ .raw) :
    k.Derived quads ⟨p, args⟩ ↔
      ∃ σ, (∀ l ∈ body, l.Holds (k.Derived quads) σ) ∧ head.ground σ = ⟨p, args⟩ := by
  simp [k.derived_iff hp, h, clause_derives]

theorem derived_t_iff {s o : Val} {p : Iri} : k.Derived quads ⟨.t, [s, .const (.iri p), o]⟩ ↔
    ∃ r ∈ k.rulesOfT p, r.Derives (k.Derived quads) ⟨.t, [s, .const (.iri p), o]⟩ := by
  unfold Derived
  have hat : Datalog.Fact.At (⟨.t, [s, .const (.iri p), o]⟩ : DFact) .t 1 (.iri p) := ⟨rfl, rfl⟩
  rw [Model.iff_rulesAt k.program_stratified hat, or_iff_right (not_input (by simp) _)]
  rfl

theorem derived_out_iff {s o : Val} {p : Iri} : k.Derived quads ⟨.out, [s, .const (.iri p), o]⟩ ↔
    ∃ r ∈ k.rulesOfOut p, r.Derives (k.Derived quads) ⟨.out, [s, .const (.iri p), o]⟩ := by
  have hat : Datalog.Fact.At (⟨.out, [s, .const (.iri p), o]⟩ : DFact) .out 1 (.iri p) := ⟨rfl, rfl⟩
  unfold Derived
  rw [Model.iff_rulesAt k.program_stratified hat, or_iff_right (not_input (by simp) _)]
  rfl

/-- Induction on the triples of the working set with a predicate. -/
theorem induction_t {p : Iri} {motive : DFact → Prop}
    (fire : ∀ r ∈ k.rulesOfT p, ∀ σ, (∀ l ∈ r.body, l.Holds (k.Derived quads) σ) →
      (∀ b, .pos b ∈ r.body → (b.ground σ).At .t 1 (.iri p) → motive (b.ground σ)) →
      ∀ a ∈ r.head, (a.ground σ).At .t 1 (.iri p) → motive (a.ground σ))
    {s o : Val} (h : k.Derived quads ⟨.t, [s, .const (.iri p), o]⟩) :
    motive ⟨.t, [s, .const (.iri p), o]⟩ := by
  refine Model.induction_at k.program_stratified ?_ fire h ⟨rfl, rfl⟩
  rintro f ⟨x, _, rfl⟩ hat
  cases hat.1

/-- The same for positive rules: a rule may be applied to facts that have the property. -/
theorem induction_pos {p : Iri} {motive : Val → Val → Prop}
    (hpos : (k.rulesOfT p).all Datalog.Rule.isPositive)
    (fire : ∀ r ∈ k.rulesOfT p, ∀ s o,
      r.Derives (fun f => k.Derived quads f ∧ ∀ s o, f = ⟨.t, [s, .const (.iri p), o]⟩ → motive s o)
        ⟨.t, [s, .const (.iri p), o]⟩ → motive s o)
    {s o : Val} (h : k.Derived quads ⟨.t, [s, .const (.iri p), o]⟩) : motive s o := by
  have hall := k.induction_t
    (motive := fun f => ∀ s o, f = ⟨.t, [s, .const (.iri p), o]⟩ → motive s o) ?_ h
  · exact hall s o rfl
  intro r hr σ hbody hih a ha hat s o hf
  have hplain := List.all_eq_true.mp hpos r hr
  have hnulls := List.isEmpty_iff.mp (Bool.and_eq_true_iff.mp hplain).1
  apply fire r hr s o
  refine ⟨σ, Datalog.Rule.fresh_of_nulls_nil hnulls σ, fun l hl => ?_, a, ha, hf⟩
  obtain ⟨b, rfl⟩ := Datalog.Rule.exists_pos hplain hl
  exact ⟨hbody _ hl, fun s o hb => hih b hl (by rw [hb]; exact ⟨rfl, rfl⟩) s o hb⟩

/-- Induction on the facts of one predicate. -/
theorem induction_for {p : Pred} (hp : p ≠ .raw) {motive : List Val → Prop}
    (fire : ∀ r ∈ k.rulesFor p, ∀ σ, (∀ l ∈ r.body, l.Holds (k.Derived quads) σ) →
      (∀ b, .pos b ∈ r.body → b.pred = p → motive (b.ground σ).args) →
      ∀ a ∈ r.head, a.pred = p → motive (a.ground σ).args)
    {args : List Val} (h : k.Derived quads ⟨p, args⟩) : motive args := by
  refine Model.induction_for k.program_stratified ?_ ?_ h
  · rintro f ⟨x, _, rfl⟩ hpred
    exact absurd hpred.symm hp
  · intro r hr
    refine fire r ?_
    simpa only [rulesFor, program, Datalog.rulesFor_append] using hr

theorem derive {r : DRule} (hr : r ∈ program k.rules) {f : DFact} (h : r.Derives (k.Derived quads) f) :
    k.Derived quads f :=
  Model.derive k.program_stratified hr h

/-! ## The prelude -/

theorem rulesFor_prelude {p : Pred} (hp : p ∈ [Pred.raw, .rawGraph, .q, .asserted]) :
    k.rulesFor p = Datalog.rulesFor prelude p ++ Datalog.rulesFor epilogue p := by
  have hnil : Datalog.rulesFor k.rules p = [] := by
    refine List.filter_eq_nil_iff.mpr fun r hr => ?_
    simp only [List.any_eq_true, decide_eq_true_eq, not_exists, not_and]
    intro a ha hap
    have hk := List.all_eq_true.mp (List.all_eq_true.mp k.keepsPrelude r hr) a ha
    rw [hap] at hk
    exact (decide_eq_true_eq.mp hk) hp
  simp [rulesFor, hnil]

theorem raw_iff {args : List Val} :
    k.Derived quads ⟨.raw, args⟩ ↔ ∃ x, quads x ∧ args = (rawFact x).args := by
  have hrules : k.rulesFor .raw = [] := k.rulesFor_prelude (by simp)
  unfold rulesFor at hrules
  unfold Derived
  rw [Model.iff_rulesFor k.program_stratified]
  simp only [program, Datalog.rulesFor_append, hrules]
  constructor
  · rintro (⟨x, hx, h⟩ | ⟨r, hr, _⟩)
    · exact ⟨x, hx, congrArg Datalog.Fact.args h⟩
    · cases hr
  · rintro ⟨x, hx, rfl⟩
    exact Or.inl ⟨x, hx, rfl⟩

theorem rawGraph_of_quad {x : Quad} (hx : quads x) :
    k.Derived quads ⟨.rawGraph, [.const (.iri x.g)]⟩ := by
  rw [k.derived_iff_one (k.rulesFor_prelude (by simp)) (by simp)]
  refine ⟨.of (.const x.o) [("g", .const (.iri x.g)), ("s", .const x.s), ("p", .const (.iri x.p))],
    ?_, by simp⟩
  simpa [rawFact] using k.raw_iff.mpr ⟨x, hx, rfl⟩

theorem q_iff {args : List Val} :
    k.Derived quads ⟨.q, args⟩ ↔ ∃ x, quads x ∧ args = (rawFact x).args := by
  rw [k.derived_iff_one (k.rulesFor_prelude (by simp)) (by simp)]
  constructor
  · rintro ⟨σ, hbody, hhead⟩
    have hraw := hbody _ List.mem_cons_self
    have hargs := congrArg Datalog.Fact.args hhead
    simp only [ground_atom] at hargs
    rwa [Datalog.Literal.holds_pos, ground_atom, hargs, k.raw_iff] at hraw
  · rintro ⟨x, hx, rfl⟩
    refine ⟨.of (.const x.o) [("g", .const (.iri x.g)), ("s", .const x.s), ("p", .const (.iri x.p))],
      ?_, by simp [rawFact]⟩
    simpa [rawFact] using And.intro (k.raw_iff.mpr ⟨x, hx, rfl⟩) (k.rawGraph_of_quad hx)

theorem quad_iff {g s o : Val} {p : Iri} : k.Derived quads ⟨.q, [g, s, .const (.iri p), o]⟩ ↔
    ∃ x, quads x ∧ g = .const (.iri x.g) ∧ s = .const x.s ∧ p = x.p ∧ o = .const x.o := by
  simp [k.q_iff, rawFact]

theorem asserted_iff {args : List Val} : k.Derived quads ⟨.asserted, args⟩ ↔
    ∃ x, quads x ∧ args = [.const x.s, .const (.iri x.p), .const x.o] := by
  rw [k.derived_iff_one (k.rulesFor_prelude (by simp)) (by simp)]
  constructor
  · rintro ⟨σ, hbody, hhead⟩
    obtain ⟨x, hx, hargs⟩ := k.q_iff.mp (hbody _ List.mem_cons_self)
    have hargs' := congrArg Datalog.Fact.args hhead
    simp only [ground_atom] at hargs'
    simp only [rawFact, atom, List.map_cons, List.map_nil, ground_var, List.cons.injEq,
      and_true] at hargs hargs'
    obtain ⟨_, hs, hp, ho⟩ := hargs
    exact ⟨x, hx, by rw [← hargs', hs, hp, ho]⟩
  · rintro ⟨x, hx, rfl⟩
    refine ⟨.of (.const x.o) [("g", .const (.iri x.g)), ("s", .const x.s), ("p", .const (.iri x.p))],
      ?_, by simp⟩
    simpa [rawFact] using k.q_iff.mpr ⟨x, hx, rfl⟩

/-- A triple of the input is in the working set. -/
theorem t_of_quad {x : Quad} (hx : quads x) :
    k.Derived quads ⟨.t, [.const x.s, .const (.iri x.p), .const x.o]⟩ := by
  have hr : tRule ∈ program k.rules := by simp [program, prelude]
  refine k.derive hr (clause_derives.mpr ?_)
  refine ⟨.of (.const x.o) [("s", .const x.s), ("p", .const (.iri x.p))], ?_, by simp⟩
  simpa using k.asserted_iff.mpr ⟨x, hx, rfl⟩

theorem tRule_derives {args : List Val} : tRule.Derives (k.Derived quads) ⟨.t, args⟩ ↔
    ∃ x, quads x ∧ args = [.const x.s, .const (.iri x.p), .const x.o] := by
  rw [tRule, clause_derives, ← k.asserted_iff]
  constructor
  · rintro ⟨σ, hbody, hhead⟩
    have hasserted := hbody _ List.mem_cons_self
    have hargs := congrArg Datalog.Fact.args hhead
    simp only [ground_atom] at hargs
    rwa [Datalog.Literal.holds_pos, ground_atom, hargs] at hasserted
  · intro h
    obtain ⟨x, hx, rfl⟩ := k.asserted_iff.mp h
    refine ⟨.of (.const x.o) [("s", .const x.s), ("p", .const (.iri x.p))], ?_, by simp⟩
    simpa using h

/-! ## Triples and narrow relations -/

theorem t_iff_asserted {p : Iri} (h : k.rulesOfT p = [tRule]) {s o : Val} :
    k.Derived quads ⟨.t, [s, .const (.iri p), o]⟩ ↔
      ∃ x, quads x ∧ s = .const x.s ∧ p = x.p ∧ o = .const x.o := by
  simp [k.derived_t_iff, h, k.tRule_derives]

theorem narrow_iff {p : Pred} {prop : Iri} (h : k.rulesFor p = [narrow p prop]) (hp : p ≠ .raw)
    {a b : Val} :
    k.Derived quads ⟨p, [a, b]⟩ ↔ k.Derived quads ⟨.t, [a, .const (.iri prop), b]⟩ := by
  rw [k.derived_iff_one h hp]
  constructor
  · rintro ⟨σ, hbody, hhead⟩
    have ht := hbody _ List.mem_cons_self
    simp only [ground_atom, List.map_cons, List.map_nil, ground_var, Datalog.Fact.mk.injEq,
      List.cons.injEq, and_true, true_and] at hhead
    simpa [hhead] using ht
  · intro ht
    exact ⟨.of b [("a", a)], by simpa using ht, by simp⟩

theorem narrowTo_iff {p : Pred} {prop : Iri} {c : Nix2Rdf.Term}
    (h : k.rulesFor p = [narrowTo p prop (.const c)]) (hp : p ≠ .raw) {a : Val} :
    k.Derived quads ⟨p, [a]⟩ ↔ k.Derived quads ⟨.t, [a, .const (.iri prop), .const c]⟩ := by
  rw [k.derived_iff_one h hp]
  constructor
  · rintro ⟨σ, hbody, hhead⟩
    have ht := hbody _ List.mem_cons_self
    simp only [ground_atom, List.map_cons, List.map_nil, ground_var, Datalog.Fact.mk.injEq,
      List.cons.injEq, and_true, true_and] at hhead
    simpa [hhead] using ht
  · intro ht
    exact ⟨.of a [], by simpa using ht, by simp⟩

theorem narrowAny_iff {p : Pred} {prop : Iri} (h : k.rulesFor p = [narrowAny p prop]) (hp : p ≠ .raw)
    {a : Val} :
    k.Derived quads ⟨p, [a]⟩ ↔ ∃ b, k.Derived quads ⟨.t, [a, .const (.iri prop), b]⟩ := by
  rw [k.derived_iff_one h hp]
  constructor
  · rintro ⟨σ, hbody, hhead⟩
    have ht := hbody _ List.mem_cons_self
    simp only [ground_atom, List.map_cons, List.map_nil, ground_var, Datalog.Fact.mk.injEq,
      List.cons.injEq, and_true, true_and] at hhead
    exact ⟨σ "b", by simpa [hhead] using ht⟩
  · rintro ⟨b, ht⟩
    exact ⟨.of b [("a", a)], by simpa using ht, by simp⟩

end Ruleset

/-! ## The packs -/

theorem k8sPack_stratified (b : Builtins) : stratified level (k8sPack b) := by
  simp only [k8sPack, k8sPolicies, Datalog.stratified_append]
  exact ⟨⟨⟨⟨⟨⟨⟨rfl, rfl⟩, rfl⟩, rfl⟩, rfl⟩, rfl⟩, rfl⟩,
    ⟨⟨⟨⟨⟨⟨⟨rfl, rfl⟩, rfl⟩, rfl⟩, rfl⟩, rfl⟩, rfl⟩, rfl⟩, rfl⟩

def coreRules : Ruleset := ⟨core, rfl, rfl⟩

theorem coreRules_resolvesTo :
    coreRules.rulesOfT (nix "resolvesTo") = [tRule, pinnedRule, followsRule] := rfl

def identifiersRules (b : Builtins) : Ruleset := ⟨identifiers b, rfl, rfl⟩

def rdfsRuleset : Ruleset := ⟨rdfsRules, rfl, rfl⟩

def k8sRules (b : Builtins) : Ruleset := ⟨k8sPack b, k8sPack_stratified b, rfl⟩

/-- The rules of the core and the k8s pack. -/
def coreAndK8s (b : Builtins) : Ruleset := coreRules.append (k8sRules b)

/-- The k8s pack with all packs it depends on. -/
def k8sWithDeps (b : Builtins) : Ruleset :=
  ((coreRules.append (identifiersRules b)).append rdfsRuleset).append (k8sRules b)

end Nix2Rdf.Packs
