import Nix2Rdf.Packs.Program
import Mathlib.Logic.Relation

/-!
# Closures of a snapshot

What the core pack derives about the closures of a snapshot, against what its input asserts: the
build closure as reachability from the roots, and the runtime closure as what their outputs reference.
-/

namespace Nix2Rdf.Packs

open Relation (ReflTransGen)

/-- A quad of the input states the triple. -/
def Asserts (quads : Quad → Prop) (s : Val) (p : Iri) (o : Val) : Prop :=
  ∃ q, quads q ∧ s = .const q.s ∧ p = q.p ∧ o = .const q.o

/-- One step of a build dependency. -/
def Needs (quads : Quad → Prop) (d e : Val) : Prop :=
  Asserts quads d (nix "dependsOn") e ∨ Asserts quads d (nix "inputDrv") e

/-- The roots of a snapshot and everything they depend on. -/
def BuildClosure (quads : Quad → Prop) (s d : Val) : Prop :=
  ∃ root, (Asserts quads s (nix "hasRoot") root ∨ Asserts quads s (nix "closureContains") root) ∧
    ReflTransGen (Needs quads) root d

/-- The outputs of the roots and everything they reference. -/
def RuntimeClosure (quads : Quad → Prop) (s o : Val) : Prop :=
  ∃ first, ((∃ d, Asserts quads s (nix "hasRoot") d ∧ Asserts quads d (nix "hasOutput") first) ∨
      Asserts quads s (nix "runtimeClosureContains") first) ∧
    ReflTransGen (Asserts quads · (nix "references")) first o

section Core

/-- The core rules put the triple into the working set. -/
def CoreDerives (quads : Quad → Prop) (s : Val) (p : Iri) (o : Val) : Prop :=
  coreRules.Derived quads ⟨.t, [s, .const (.iri p), o]⟩

variable {quads : Quad → Prop} {s d o : Val}

theorem tRule_asserts {k : Ruleset} {p : Iri} :
    tRule.Derives (k.Derived quads) ⟨.t, [s, .const (.iri p), o]⟩ ↔ Asserts quads s p o := by
  rw [k.tRule_derives]
  simp only [List.cons.injEq, and_true, Datalog.Value.const.injEq, Term.iri.injEq, Asserts]

theorem Ruleset.t_of_asserts (k : Ruleset) {p : Iri} (h : Asserts quads s p o) :
    k.Derived quads ⟨.t, [s, .const (.iri p), o]⟩ := by
  obtain ⟨q, hq, rfl, rfl, rfl⟩ := h
  exact k.t_of_quad hq

theorem coreDerives_hasRoot : CoreDerives quads s (nix "hasRoot") o ↔ Asserts quads s (nix "hasRoot") o :=
  coreRules.t_iff_asserted rfl

theorem coreDerives_hasOutput :
    CoreDerives quads s (nix "hasOutput") o ↔ Asserts quads s (nix "hasOutput") o :=
  coreRules.t_iff_asserted rfl

theorem coreDerives_references :
    CoreDerives quads s (nix "references") o ↔ Asserts quads s (nix "references") o :=
  coreRules.t_iff_asserted rfl

theorem coreDerives_inputDrv :
    CoreDerives quads s (nix "inputDrv") o ↔ Asserts quads s (nix "inputDrv") o :=
  coreRules.t_iff_asserted rfl

theorem coreDerives_hasLayer :
    CoreDerives quads s (nix "hasLayer") o ↔ Asserts quads s (nix "hasLayer") o :=
  coreRules.t_iff_asserted rfl

theorem coreDerives_snapshot :
    CoreDerives quads s (nix "snapshot") o ↔ Asserts quads s (nix "snapshot") o :=
  coreRules.t_iff_asserted rfl

theorem coreDerives_dependsOn : CoreDerives quads s (nix "dependsOn") o ↔ Needs quads s o := by
  have hrules : coreRules.rulesOfT (nix "dependsOn") =
    [tRule, clause (tr (var "a") (nix "dependsOn") (var "b")) [tr (var "a") (nix "inputDrv") (var "b")]] := rfl
  rw [CoreDerives, coreRules.derived_t_iff, hrules]
  simp only [List.mem_cons, List.not_mem_nil, or_false, exists_eq_or_imp, exists_eq_left, tRule_asserts,
    copy_derives (show "a" ≠ "b" by decide)]
  exact or_congr_right coreDerives_inputDrv

/-! ## The runtime closure -/

theorem coreRules_runtimeClosureContains : coreRules.rulesOfT (nix "runtimeClosureContains") =
    [tRule,
      clause (tr (var "s") (nix "runtimeClosureContains") (var "o"))
        [tr (var "s") (nix "hasRoot") (var "d"), tr (var "d") (nix "hasOutput") (var "o")],
      clause (tr (var "s") (nix "runtimeClosureContains") (var "o2"))
        [tr (var "s") (nix "runtimeClosureContains") (var "o1"), tr (var "o1") (nix "references") (var "o2")],
      clause (tr (var "c") (nix "runtimeClosureContains") (var "o"))
        [tr (var "c") (nix "snapshot") (var "s"), tr (var "s") (nix "runtimeClosureContains") (var "o")],
      clause (tr (var "img") (nix "runtimeClosureContains") (var "o"))
        [tr (var "img") (nix "hasLayer") (var "l"), tr (var "l") (nix "layerContains") (var "o")]] := rfl

theorem RuntimeClosure.step {o' : Val} (h : RuntimeClosure quads s o)
    (href : Asserts quads o (nix "references") o') : RuntimeClosure quads s o' := by
  obtain ⟨first, hfirst, hpath⟩ := h
  exact ⟨first, hfirst, hpath.tail href⟩

/-- Away from layers and commits only roots, what they reference and what is asserted counts. -/
theorem runtimeClosure_sound (h : CoreDerives quads s (nix "runtimeClosureContains") o) :
    (∀ l, ¬ Asserts quads s (nix "hasLayer") l) → (∀ c, ¬ Asserts quads s (nix "snapshot") c) →
      RuntimeClosure quads s o := by
  refine coreRules.induction_pos (motive := fun s o => (∀ l, ¬ Asserts quads s (nix "hasLayer") l) →
    (∀ c, ¬ Asserts quads s (nix "snapshot") c) → RuntimeClosure quads s o) rfl ?_ h
  rw [coreRules_runtimeClosureContains]
  intro r hr s o hderives hlayer hcommit
  simp only [List.mem_cons, List.not_mem_nil, or_false] at hr
  rcases hr with rfl | rfl | rfl | rfl | rfl
  · have hasserted := tRule_asserts.mp (hderives.mono rfl fun _ hf => hf.1)
    exact ⟨o, .inr hasserted, .refl⟩
  · obtain ⟨d, ⟨hroot, _⟩, hout, _⟩ := (join_derives (by decide) (by decide) (by decide)).mp hderives
    exact ⟨o, .inl ⟨d, coreDerives_hasRoot.mp hroot, coreDerives_hasOutput.mp hout⟩, .refl⟩
  · obtain ⟨y, ⟨_, hy⟩, href, _⟩ := (join_derives (by decide) (by decide) (by decide)).mp hderives
    exact (hy _ _ rfl hlayer hcommit).step (coreDerives_references.mp href)
  · obtain ⟨y, ⟨hy, _⟩, _⟩ := (join_derives (by decide) (by decide) (by decide)).mp hderives
    exact absurd (coreDerives_snapshot.mp hy) (hcommit y)
  · obtain ⟨y, ⟨hy, _⟩, _⟩ := (join_derives (by decide) (by decide) (by decide)).mp hderives
    exact absurd (coreDerives_hasLayer.mp hy) (hlayer y)

/-- The rules for roots and for references. -/
theorem runtimeClosureContains_of
    (h : (∃ d, Asserts quads s (nix "hasRoot") d ∧ Asserts quads d (nix "hasOutput") o) ∨
      ∃ y, CoreDerives quads s (nix "runtimeClosureContains") y ∧ Asserts quads y (nix "references") o) :
    CoreDerives quads s (nix "runtimeClosureContains") o := by
  simp only [← coreDerives_hasRoot, ← coreDerives_hasOutput, ← coreDerives_references] at h
  rw [CoreDerives, coreRules.derived_t_iff, coreRules_runtimeClosureContains]
  simp only [List.mem_cons, List.not_mem_nil, or_false, exists_eq_or_imp, exists_eq_left,
    join_derives (show "s" ≠ "d" by decide) (show "s" ≠ "o" by decide) (show "d" ≠ "o" by decide),
    join_derives (show "s" ≠ "o1" by decide) (show "s" ≠ "o2" by decide) (show "o1" ≠ "o2" by decide)]
  exact .inr (h.imp_right .inl)

theorem runtimeClosure_complete (h : RuntimeClosure quads s o) :
    CoreDerives quads s (nix "runtimeClosureContains") o := by
  obtain ⟨first, hfirst, hpath⟩ := h
  induction hpath with
  | refl =>
      cases hfirst with
      | inl hroot =>
          obtain ⟨d, hroot, hout⟩ := hroot
          exact runtimeClosureContains_of (.inl ⟨d, hroot, hout⟩)
      | inr hasserted => exact coreRules.t_of_asserts hasserted
  | tail _ href ih => exact runtimeClosureContains_of (.inr ⟨_, ih, href⟩)

/-! ## The build closure -/

theorem coreRules_closureContains : coreRules.rulesOfT (nix "closureContains") =
    [tRule,
      clause (tr (var "s") (nix "closureContains") (var "d")) [tr (var "s") (nix "hasRoot") (var "d")],
      clause (tr (var "s") (nix "closureContains") (var "d2"))
        [tr (var "s") (nix "closureContains") (var "d1"), tr (var "d1") (nix "dependsOn") (var "d2")],
      clause (tr (var "c") (nix "closureContains") (var "d"))
        [tr (var "c") (nix "snapshot") (var "s"), tr (var "s") (nix "closureContains") (var "d")],
      clause (tr (var "img") (nix "closureContains") (var "d"))
        [tr (var "img") (nix "runtimeClosureContains") (var "o"), tr (var "d") (nix "hasOutput") (var "o")]] :=
  rfl

/-- One application of a rule for the build closure. -/
theorem closureContains_iff : CoreDerives quads s (nix "closureContains") d ↔
    Asserts quads s (nix "closureContains") d ∨ Asserts quads s (nix "hasRoot") d ∨
    (∃ y, CoreDerives quads s (nix "closureContains") y ∧ Needs quads y d) ∨
    (∃ y, Asserts quads s (nix "snapshot") y ∧ CoreDerives quads y (nix "closureContains") d) ∨
    ∃ y, CoreDerives quads s (nix "runtimeClosureContains") y ∧ Asserts quads d (nix "hasOutput") y := by
  simp only [← coreDerives_hasRoot, ← coreDerives_dependsOn, ← coreDerives_snapshot,
    ← coreDerives_hasOutput]
  rw [CoreDerives, coreRules.derived_t_iff, coreRules_closureContains]
  simp only [List.mem_cons, List.not_mem_nil, or_false, exists_eq_or_imp, exists_eq_left, tRule_asserts,
    copy_derives (show "s" ≠ "d" by decide),
    join_derives (show "s" ≠ "d1" by decide) (show "s" ≠ "d2" by decide) (show "d1" ≠ "d2" by decide),
    join_derives (show "c" ≠ "s" by decide) (show "c" ≠ "d" by decide) (show "s" ≠ "d" by decide),
    meet_derives (show "img" ≠ "o" by decide) (show "img" ≠ "d" by decide) (show "o" ≠ "d" by decide)]
  exact Iff.rfl

theorem BuildClosure.step {e : Val} (h : BuildClosure quads s d) (hneeds : Needs quads d e) :
    BuildClosure quads s e := by
  obtain ⟨root, hroot, hpath⟩ := h
  exact ⟨root, hroot, hpath.tail hneeds⟩

/-- Everything a root needs is in the closure. -/
theorem buildClosure_complete (h : BuildClosure quads s d) :
    CoreDerives quads s (nix "closureContains") d := by
  obtain ⟨root, hroot, hpath⟩ := h
  induction hpath with
  | refl =>
      cases hroot with
      | inl hroot => exact closureContains_iff.mpr (.inr (.inl hroot))
      | inr hasserted => exact coreRules.t_of_asserts hasserted
  | tail _ hneeds ih => exact closureContains_iff.mpr (.inr (.inr (.inl ⟨_, ih, hneeds⟩)))

/-- The rule for what an image ships applies to every snapshot with a runtime closure: it adds what
produces a shipped output. -/
theorem produces_mem (ho : RuntimeClosure quads s o) (hd : Asserts quads d (nix "hasOutput") o) :
    CoreDerives quads s (nix "closureContains") d :=
  closureContains_iff.mpr (.inr (.inr (.inr (.inr ⟨o, runtimeClosure_complete ho, hd⟩))))

theorem buildClosure_sound (h : CoreDerives quads s (nix "closureContains") d) :
    (∀ l, ¬ Asserts quads s (nix "hasLayer") l) → (∀ c, ¬ Asserts quads s (nix "snapshot") c) →
    (∀ o, RuntimeClosure quads s o → ∀ d, Asserts quads d (nix "hasOutput") o → BuildClosure quads s d) →
      BuildClosure quads s d := by
  refine coreRules.induction_pos (motive := fun s d => (∀ l, ¬ Asserts quads s (nix "hasLayer") l) →
    (∀ c, ¬ Asserts quads s (nix "snapshot") c) →
    (∀ o, RuntimeClosure quads s o → ∀ d, Asserts quads d (nix "hasOutput") o → BuildClosure quads s d) →
      BuildClosure quads s d) rfl ?_ h
  rw [coreRules_closureContains]
  intro r hr s d hderives hlayer hcommit hproduced
  simp only [List.mem_cons, List.not_mem_nil, or_false] at hr
  rcases hr with rfl | rfl | rfl | rfl | rfl
  · have hasserted := tRule_asserts.mp (hderives.mono rfl fun _ hf => hf.1)
    exact ⟨d, .inr hasserted, .refl⟩
  · obtain ⟨hroot, _⟩ := (copy_derives (by decide)).mp hderives
    exact ⟨d, .inl (coreDerives_hasRoot.mp hroot), .refl⟩
  · obtain ⟨y, ⟨_, hy⟩, hdep, _⟩ := (join_derives (by decide) (by decide) (by decide)).mp hderives
    exact (hy _ _ rfl hlayer hcommit hproduced).step (coreDerives_dependsOn.mp hdep)
  · obtain ⟨y, ⟨hy, _⟩, _⟩ := (join_derives (by decide) (by decide) (by decide)).mp hderives
    exact absurd (coreDerives_snapshot.mp hy) (hcommit y)
  · obtain ⟨y, ⟨hruntime, _⟩, hout, _⟩ := (meet_derives (by decide) (by decide) (by decide)).mp hderives
    exact hproduced y (runtimeClosure_sound hruntime hlayer hcommit) d (coreDerives_hasOutput.mp hout)

/-- The build closure of a snapshot is reachability from its roots exactly when whatever produces
something of its runtime closure is among what the roots depend on. -/
theorem buildClosure_exact_iff (hlayer : ∀ l, ¬ Asserts quads s (nix "hasLayer") l)
    (hcommit : ∀ c, ¬ Asserts quads s (nix "snapshot") c) :
    (∀ d, CoreDerives quads s (nix "closureContains") d ↔ BuildClosure quads s d) ↔
      ∀ o, RuntimeClosure quads s o → ∀ d, Asserts quads d (nix "hasOutput") o → BuildClosure quads s d := by
  constructor
  · intro hexact o ho d hd
    exact (hexact d).mp (produces_mem ho hd)
  · intro hproduced d
    exact ⟨fun h => buildClosure_sound h hlayer hcommit hproduced, buildClosure_complete⟩

end Core

/-- A pin with one root, whose output references the output of its input. -/
def chainQuads : List Quad :=
  [⟨"pin", .iri "pin", nix "hasRoot", .iri "a"⟩, ⟨"a", .iri "a", nix "inputDrv", .iri "b"⟩,
    ⟨"a", .iri "a", nix "hasOutput", .iri "o"⟩, ⟨"b", .iri "b", nix "hasOutput", .iri "p"⟩,
    ⟨"o", .iri "o", nix "references", .iri "p"⟩]

theorem chain_hasOutput {d o : Val} (h : Asserts (· ∈ chainQuads) d (nix "hasOutput") o) :
    d = .const (.iri "a") ∨ d = .const (.iri "b") := by
  obtain ⟨q, hq, rfl, hp, _⟩ := h
  simp only [chainQuads, List.mem_cons, List.not_mem_nil, or_false] at hq
  rcases hq with rfl | rfl | rfl | rfl | rfl
  · simp at hp
  · simp at hp
  · exact .inl rfl
  · exact .inr rfl
  · simp at hp

theorem chain_plain {p : Iri} (hp : ∀ q ∈ chainQuads, p ≠ q.p) (s o : Val) :
    ¬ Asserts (· ∈ chainQuads) s p o := by
  intro h
  obtain ⟨q, hq, _, hqp, _⟩ := h
  exact hp q hq hqp

theorem buildClosure_exact_iff_chain :
    CoreDerives (· ∈ chainQuads) (.const (.iri "pin")) (nix "closureContains") (.const (.iri "b")) ↔
      BuildClosure (· ∈ chainQuads) (.const (.iri "pin")) (.const (.iri "b")) := by
  have ha : BuildClosure (· ∈ chainQuads) (.const (.iri "pin")) (.const (.iri "a")) :=
    ⟨_, .inl ⟨⟨"pin", .iri "pin", nix "hasRoot", .iri "a"⟩, by simp [chainQuads], rfl, rfl, rfl⟩, .refl⟩
  have hb : Needs (· ∈ chainQuads) (.const (.iri "a")) (.const (.iri "b")) :=
    .inr ⟨⟨"a", .iri "a", nix "inputDrv", .iri "b"⟩, by simp [chainQuads], rfl, rfl, rfl⟩
  refine (buildClosure_exact_iff (chain_plain (by simp [chainQuads]) _)
    (chain_plain (by simp [chainQuads]) _)).mpr (fun o _ d hd => ?_) _
  cases chain_hasOutput hd with
  | inl h => exact h ▸ ha
  | inr h => exact h ▸ ha.step hb

/-- The root of the pin and another derivation produce the same output path. -/
def sharedOutput : List Quad :=
  [⟨"pin", .iri "pin", nix "hasRoot", .iri "a"⟩, ⟨"a", .iri "a", nix "hasOutput", .iri "o"⟩,
    ⟨"x", .iri "x", nix "hasOutput", .iri "o"⟩]

theorem same_output_in_closure :
    (∀ l, ¬ Asserts (· ∈ sharedOutput) (.const (.iri "pin")) (nix "hasLayer") l) ∧
    (∀ c, ¬ Asserts (· ∈ sharedOutput) (.const (.iri "pin")) (nix "snapshot") c) ∧
    CoreDerives (· ∈ sharedOutput) (.const (.iri "pin")) (nix "closureContains") (.const (.iri "x")) ∧
    ¬ BuildClosure (· ∈ sharedOutput) (.const (.iri "pin")) (.const (.iri "x")) := by
  have hroot : Asserts (· ∈ sharedOutput) (.const (.iri "pin")) (nix "hasRoot") (.const (.iri "a")) :=
    ⟨_, List.mem_cons_self, rfl, rfl, rfl⟩
  have hout : ∀ d ∈ ["a", "x"], Asserts (· ∈ sharedOutput) (.const (.iri d)) (nix "hasOutput")
      (.const (.iri "o")) := by
    intro d hd
    exact ⟨⟨d, .iri d, nix "hasOutput", .iri "o"⟩, by simpa [sharedOutput] using hd, rfl, rfl, rfl⟩
  have hplain : ∀ p, (∀ q ∈ sharedOutput, p ≠ q.p) → ∀ s o, ¬ Asserts (· ∈ sharedOutput) s p o := by
    intro p hp s o h
    obtain ⟨q, hq, _, hqp, _⟩ := h
    exact hp q hq hqp
  have hneeds : ∀ d e, ¬ Needs (· ∈ sharedOutput) d e := by
    intro d e h
    cases h with
    | inl h => exact hplain _ (by simp [sharedOutput]) d e h
    | inr h => exact hplain _ (by simp [sharedOutput]) d e h
  refine ⟨hplain _ (by simp [sharedOutput]) _, hplain _ (by simp [sharedOutput]) _, ?_, ?_⟩
  · refine produces_mem ⟨_, .inl ⟨_, hroot, hout "a" (by simp)⟩, .refl⟩ (hout "x" (by simp))
  · intro h
    obtain ⟨root, hroot, hpath⟩ := h
    have hx : root = .const (.iri "x") := by
      cases hpath with
      | refl => rfl
      | tail _ hlast => exact absurd hlast (hneeds _ _)
    subst hx
    cases hroot with
    | inl h =>
        obtain ⟨q, hq, _, hp, ho⟩ := h
        simp only [sharedOutput, List.mem_cons, List.not_mem_nil, or_false] at hq
        rcases hq with rfl | rfl | rfl <;> simp at hp ho
    | inr h => exact hplain _ (by simp [sharedOutput]) _ _ h

end Nix2Rdf.Packs
