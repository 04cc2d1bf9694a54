import Nix2Rdf.Lib.Datalog.Region
import Nix2Rdf.Packs.CoreMeaning
import Nix2Rdf.Packs.PolicyExamples
import Nix2Rdf.Packs.Projection

/-!
# What more packs leave as it is

The rules of all selected packs run together. What the core pack says about closures and dependencies is the same
under the rules of the k8s pack and all that it depends on, as long as no vocabulary makes a property part of another.
-/

namespace Nix2Rdf.Packs

namespace Ruleset

variable {k k' : Ruleset} {quads : Quad → Prop} {props : List Iri} {preds : List Pred}

/-- Triples with some properties, the facts of some predicates, and what is asserted. -/
def Region (props : List Iri) (preds : List Pred) (f : DFact) : Prop :=
  f.pred ∈ preds ∨ f.pred = .asserted ∨ ∃ p ∈ props, f.At .t 1 (.iri p)

/-- The property of an atom on triples. -/
def property? (a : DAtom) : Option Iri :=
  match a.args with
  | [_, .const (.iri p), _] => some p
  | _ => none

theorem property?_eq {a : DAtom} {p : Iri} (h : property? a = some p) : a.args[1]? = some (.const (.iri p)) := by
  unfold property? at h
  split at h
  · next hargs =>
      cases h
      rw [hargs]
      rfl
  · cases h

/-- The literal only asks for facts of the region. -/
def within (props : List Iri) (preds : List Pred) : DLiteral → Bool
  | .pos a => preds.contains a.pred || a.pred == .asserted || a.pred == .t && (property? a).any props.contains
  | .neg _ | .count .. => false
  | .test .. => true

theorem within_in {σ : Datalog.Valuation Nix2Rdf.Term} {l : DLiteral} (h : within props preds l) :
    l.In (Region props preds) σ := by
  cases l with
  | pos a =>
      simp only [within, Bool.or_eq_true, Bool.and_eq_true, List.contains_iff_mem, beq_iff_eq,
        Option.any_eq_true] at h
      rcases h with (h | h) | ⟨ht, p, hp, hmem⟩
      · exact .inl h
      · exact .inr (.inl h)
      · refine .inr (.inr ⟨p, hmem, ht, ?_⟩)
        rw [Datalog.Atom.ground, List.getElem?_map, property?_eq hp]
        rfl
  | neg a => cases h
  | count numeral n x a => cases h
  | test rel args => trivial

/-- The rules that may derive facts of the region. -/
def Defines (k : Ruleset) (props : List Iri) (preds : List Pred) (r : DRule) : Prop :=
  (∃ p ∈ props, r ∈ k.rulesOfT p) ∨ ∃ p ∈ preds, r ∈ k.rulesFor p

/-- Rules that define the region are rules of the other program and stay within the region, or they never fire. -/
theorem le_of_region (props : List Iri) (preds : List Pred) (hraw : Pred.raw ∉ preds)
    (hrules : ∀ r, k.Defines props preds r → (∀ f, ¬ r.Derives (k.Derived quads) f) ∨
      r ∈ program k'.rules ∧ r.body.all (within props preds))
    {f : DFact} (h : k.Derived quads f) (hf : Region props preds f) : k'.Derived quads f := by
  refine Datalog.Model.le_of_region k.program_stratified k'.program_stratified ?_ ?_ h hf
  · intro f hR hI
    obtain ⟨x, _, rfl⟩ := hI
    rcases hR with hR | hR | ⟨p, _, hR, _⟩
    · exact absurd hR hraw
    · cases hR
    · cases hR
  · intro r hr σ hσ hbody a ha hR
    have hderives : r.Derives (k.Derived quads) (a.ground σ) := ⟨σ, hσ, hbody, a, ha, rfl⟩
    have hdefined : k.Defines props preds r →
        k'.Derived quads (a.ground σ) ∨ r ∈ program k'.rules ∧
          ∀ l ∈ r.body, l.In (Region props preds) σ ∨ l.Holds (k'.Derived quads) σ := by
      intro hdef
      cases hrules r hdef with
      | inl hidle => exact absurd hderives (hidle _)
      | inr hin => exact .inr ⟨hin.1, fun l hl => .inl (within_in (List.all_eq_true.mp hin.2 l hl))⟩
    rcases hR with hR | hR | ⟨p, hp, hR⟩
    · refine hdefined (.inr ⟨_, hR, ?_⟩)
      have hfor : r ∈ Datalog.rulesFor (program k.rules) (a.ground σ).pred :=
        List.mem_filter.mpr ⟨hr, List.any_eq_true.mpr ⟨a, ha, by simp⟩⟩
      simpa only [rulesFor, program, Datalog.rulesFor_append] using hfor
    · have hfact := k.derive hr hderives
      refine .inl ?_
      generalize a.ground σ = f at hR hfact
      obtain ⟨p, args⟩ := f
      cases hR
      exact k'.asserted_iff.mpr (k.asserted_iff.mp hfact)
    · exact hdefined (.inl ⟨p, hp, Datalog.mem_rulesAt hr ha hR⟩)

end Ruleset

/-! ## The core pack among others -/

/-- The properties that the core rules speak about, classes apart. -/
def coreProps : List Iri :=
  ["inputDrv", "dependsOn", "dependsOnTransitively", "hasOutput", "producedBy", "references",
    "runtimeDependsOn", "hasRoot", "closureContains", "snapshot", "runtimeClosureContains", "hasLayer",
    "layerContains", "sharesLayerWith", "pinnedTo",
    "follows", "resolvesTo"].map nix

/-- A fact about closures and dependencies. -/
abbrev CoreFact : DFact → Prop := Ruleset.Region coreProps [.refT]

theorem core_within : ∀ r, coreRules.Defines coreProps [.refT] r → r.body.all (Ruleset.within coreProps [.refT]) := by
  have hprops : ∀ p ∈ coreProps, (coreRules.rulesOfT p).all fun r =>
      r.body.all (Ruleset.within coreProps [.refT]) := by
    decide +kernel
  have href : (coreRules.rulesFor .refT).all fun r =>
    r.body.all (Ruleset.within coreProps [.refT]) := by decide +kernel
  intro r hr
  rcases hr with ⟨p, hp, hr⟩ | ⟨p, hp, hr⟩
  · exact List.all_eq_true.mp (hprops p hp) r hr
  · cases List.mem_singleton.mp hp
    exact List.all_eq_true.mp href r hr

theorem Ruleset.Defines.mem {k : Ruleset} {props : List Iri} {preds : List Pred} {r : DRule}
    (h : k.Defines props preds r) : r ∈ program k.rules := by
  rcases h with ⟨p, _, hr⟩ | ⟨p, _, hr⟩
  · exact (List.mem_filter.mp hr).1
  · rw [Ruleset.rulesFor, ← Datalog.rulesFor_append, ← Datalog.rulesFor_append] at hr
    exact (List.mem_filter.mp hr).1

section Kept

variable {k : Ruleset} {quads : Quad → Prop} {f : DFact}

/-- The core rules among others that derive nothing about their properties: the facts stay the same. -/
theorem core_iff (hcore : ∀ r ∈ core, r ∈ k.rules) (hidle : ∀ r, k.Defines coreProps [.refT] r →
    coreRules.Defines coreProps [.refT] r ∨ ∀ f, ¬ r.Derives (k.Derived quads) f) (hf : CoreFact f) :
    k.Derived quads f ↔ coreRules.Derived quads f := by
  constructor
  · intro hk
    refine Ruleset.le_of_region coreProps [.refT] (by simp) (fun r hr => ?_) hk hf
    exact (hidle r hr).symm.imp_right fun hdef => ⟨hdef.mem, core_within r hdef⟩
  · intro hk
    refine Ruleset.le_of_region coreProps [.refT] (by simp) (fun r hr => .inr ⟨?_, core_within r hr⟩) hk hf
    have hmem := hr.mem
    simp only [program, List.mem_append] at hmem ⊢
    exact hmem.imp_left (Or.imp_right (hcore r))

end Kept

/-! ## Selections of packs -/

inductive ShippedPack where
  | core | identifiers | prov | rdfs | spdx3 | k8s | policyExamples
  deriving DecidableEq, Repr

def ShippedPack.ruleset (b : Builtins) : ShippedPack → Ruleset
  | .core => coreRules
  | .identifiers => identifiersRules b
  | .prov => provRules
  | .rdfs => rdfsRuleset
  | .spdx3 => spdxRules
  | .k8s => k8sRules b
  | .policyExamples => policyExamplesRules

/-- The rules of some packs, one after another. -/
def selection (b : Builtins) (ps : List ShippedPack) : Ruleset :=
  (ps.map (ShippedPack.ruleset b)).foldr Ruleset.append ⟨[], rfl, rfl⟩

section Selection

variable {b : Builtins} {ps : List ShippedPack} {quads : Quad → Prop}

theorem mem_selection {r : DRule} : r ∈ (selection b ps).rules ↔ ∃ p ∈ ps, r ∈ (p.ruleset b).rules := by
  induction ps with
  | nil => simp [selection]
  | cons p ps ih =>
      have hcons : (selection b (p :: ps)).rules = (p.ruleset b).rules ++ (selection b ps).rules := rfl
      rw [hcons, List.mem_append, ih]
      simp

theorem mem_program_selection {r : DRule} : r ∈ program (selection b ps).rules ↔
    r ∈ prelude ∨ (∃ p ∈ ps, r ∈ (p.ruleset b).rules) ∨ r ∈ epilogue := by
  simp only [program, List.mem_append, mem_selection, or_assoc]

/-- Rules that derive nothing about these properties and predicates. -/
def silent (props : List Iri) (preds : List Pred) (rules : List DRule) : Bool :=
  (props.all fun p => (Datalog.rulesAt rules .t 1 (.iri p)).isEmpty) && preds.all fun p =>
    (Datalog.rulesFor rules p).isEmpty

theorem not_mem_of_silent {props : List Iri} {preds : List Pred} {rules : List DRule}
    (h : silent props preds rules) {r : DRule} (hr : r ∈ rules) {k : Ruleset} : ¬ k.Defines props preds r := by
  simp only [silent, Bool.and_eq_true, List.all_eq_true, List.isEmpty_iff] at h
  rintro (⟨p, hp, hdef⟩ | ⟨p, hp, hdef⟩)
  · have hin : r ∈ Datalog.rulesAt rules .t 1 (.iri p) := List.mem_filter.mpr ⟨hr, (List.mem_filter.mp hdef).2⟩
    rw [h.1 p hp] at hin
    cases hin
  · rw [Ruleset.rulesFor, ← Datalog.rulesFor_append, ← Datalog.rulesFor_append] at hdef
    have hin : r ∈ Datalog.rulesFor rules p := List.mem_filter.mpr ⟨hr, (List.mem_filter.mp hdef).2⟩
    rw [h.2 p hp] at hin
    cases hin

/-- No vocabulary makes a property part of another one. -/
def NoSubProperty (quads : Quad → Prop) : Prop := ∀ q, quads q → q.p ≠ rdfs "subPropertyOf"

/-- Only RDFS itself derives that a property is part of another one. -/
theorem pack_subProperty : ∀ p : ShippedPack, p = .rdfs ∨ silent [rdfs "subPropertyOf"] [] (p.ruleset b).rules := by
  intro p
  cases p with
  | rdfs => exact .inl rfl
  | core => exact .inr rfl
  | identifiers => exact .inr rfl
  | prov => exact .inr rfl
  | spdx3 => exact .inr rfl
  | k8s => exact .inr rfl
  | policyExamples => exact .inr rfl

theorem rdfs_subProperty {r : DRule} (h : (selection b ps).Defines [rdfs "subPropertyOf"] [] r) :
    r = tRule ∨ r = rdfs5Rule ∨ r = rdfs7Rule := by
  have hown : rdfsRuleset.Defines [rdfs "subPropertyOf"] [] r → r = tRule ∨ r = rdfs5Rule ∨ r = rdfs7Rule := by
    intro hdef
    have hrules : rdfsRuleset.rulesOfT (rdfs "subPropertyOf") = [tRule, rdfs5Rule, rdfs7Rule] := rfl
    rcases hdef with ⟨p, hp, hr⟩ | ⟨p, hp, _⟩
    · rw [List.mem_singleton.mp hp, hrules] at hr
      simpa using hr
    · cases hp
  have hsame : r ∈ program rdfsRuleset.rules → rdfsRuleset.Defines [rdfs "subPropertyOf"] [] r := by
    intro hr
    rcases h with ⟨p, hp, hdef⟩ | ⟨p, hp, _⟩
    · exact .inl ⟨p, hp, List.mem_filter.mpr ⟨hr, (List.mem_filter.mp hdef).2⟩⟩
    · cases hp
  rcases mem_program_selection.mp h.mem with hr | ⟨p, _, hr⟩ | hr
  · exact hown (hsame (List.mem_append_left _ (List.mem_append_left _ hr)))
  · rcases pack_subProperty (b := b) p with rfl | hsilent
    · exact hown (hsame (List.mem_append_left _ (List.mem_append_right _ hr)))
    · exact absurd h (not_mem_of_silent hsilent hr)
  · exact hown (hsame (List.mem_append_right _ hr))

/-- Without statements about properties there are none to derive. -/
theorem no_subProperty_derived (hsub : NoSubProperty quads) {s o : Val} :
    ¬ (selection b ps).Derived quads ⟨.t, [s, .const (.iri (rdfs "subPropertyOf")), o]⟩ := by
  have hdef : ∀ r ∈ (selection b ps).rulesOfT (rdfs "subPropertyOf"), r = tRule ∨ r = rdfs5Rule ∨ r = rdfs7Rule :=
    fun r hr => rdfs_subProperty (.inl ⟨_, List.mem_singleton_self _, hr⟩)
  intro hholds
  refine (selection b ps).induction_pos (motive := fun _ _ => False) ?_ ?_ hholds
  · refine List.all_eq_true.mpr fun r hr => ?_
    rcases hdef r hr with rfl | rfl | rfl
    · rfl
    · rfl
    · rfl
  intro r hr s o hderives
  rcases hdef r hr with rfl | rfl | rfl
  · obtain ⟨q, hq, hargs⟩ := (selection b ps).tRule_derives.mp (hderives.mono rfl fun _ hf => hf.1)
    simp only [List.cons.injEq, and_true, Datalog.Value.const.injEq, Term.iri.injEq] at hargs
    exact hsub q hq hargs.2.1.symm
  · obtain ⟨σ, hbody, _⟩ := clause_derives.mp hderives
    exact (hbody _ List.mem_cons_self).2 _ _ rfl
  · obtain ⟨σ, hbody, hhead⟩ := clause_derives.mp hderives
    have hstep := hbody _ (List.mem_cons_of_mem _ List.mem_cons_self)
    simp only [ground_atom, List.map_cons, List.map_nil, ground_var, Datalog.Fact.mk.injEq,
      List.cons.injEq, and_true, true_and] at hhead
    exact hstep.2 _ _ (by rw [ground_tr, ground_var, ground_var, hhead.2.1])

theorem rdfs7_never (hsub : NoSubProperty quads) {f : DFact} :
    ¬ rdfs7Rule.Derives ((selection b ps).Derived quads) f := by
  intro hderives
  obtain ⟨σ, hbody, _⟩ := clause_derives.mp hderives
  exact no_subProperty_derived hsub (hbody _ (List.mem_cons_of_mem _ List.mem_cons_self))

/-- Of the other packs only RDFS may derive triples with any property at all. -/
theorem pack_core : ∀ p : ShippedPack, p = .core ∨ p = .rdfs ∨ silent coreProps [.refT] (p.ruleset b).rules := by
  intro p
  cases p with
  | core => exact .inl rfl
  | rdfs => exact .inr (.inl rfl)
  | identifiers => exact .inr (.inr rfl)
  | prov => exact .inr (.inr rfl)
  | spdx3 => exact .inr (.inr rfl)
  | k8s => exact .inr (.inr rfl)
  | policyExamples => exact .inr (.inr rfl)

theorem rdfs_silent : silent coreProps [.refT] (rdfsRules.eraseIdx 3) := by rfl

theorem mem_rdfsRules {r : DRule} (h : r ∈ rdfsRules) : r = rdfs7Rule ∨ r ∈ rdfsRules.eraseIdx 3 := by
  simp only [rdfsRules, List.mem_cons, List.not_mem_nil, or_false] at h
  rcases h with rfl | rfl | rfl | rfl | rfl | rfl <;> simp [rdfsRules]

/-- Whatever rule of the selected packs could say something about closures is a core rule, or never fires. -/
theorem selection_idle (hsub : NoSubProperty quads) {r : DRule} (hr : (selection b ps).Defines coreProps [.refT] r) :
    coreRules.Defines coreProps [.refT] r ∨ ∀ f, ¬ r.Derives ((selection b ps).Derived quads) f := by
  have hsame : r ∈ program coreRules.rules → coreRules.Defines coreProps [.refT] r := by
    intro hmem
    rcases hr with ⟨p, hp, hdef⟩ | ⟨p, hp, hdef⟩
    · exact .inl ⟨p, hp, List.mem_filter.mpr ⟨hmem, (List.mem_filter.mp hdef).2⟩⟩
    · refine .inr ⟨p, hp, ?_⟩
      rw [Ruleset.rulesFor, ← Datalog.rulesFor_append, ← Datalog.rulesFor_append] at hdef ⊢
      exact List.mem_filter.mpr ⟨hmem, (List.mem_filter.mp hdef).2⟩
  rcases mem_program_selection.mp hr.mem with hmem | ⟨p, _, hmem⟩ | hmem
  · exact .inl (hsame (List.mem_append_left _ (List.mem_append_left _ hmem)))
  · rcases pack_core (b := b) p with rfl | rfl | hsilent
    · exact .inl (hsame (List.mem_append_left _ (List.mem_append_right _ hmem)))
    · rcases mem_rdfsRules hmem with rfl | hother
      · exact .inr fun f => rdfs7_never hsub
      · exact absurd hr (not_mem_of_silent rdfs_silent hother)
    · exact absurd hr (not_mem_of_silent hsilent hmem)
  · exact .inl (hsame (List.mem_append_right _ hmem))

/-- Whatever packs are selected with the core pack, closures and dependencies are those of the core pack alone. -/
theorem core_kept (hcore : .core ∈ ps) (hsub : NoSubProperty quads) {f : DFact} (hf : CoreFact f) :
    (selection b ps).Derived quads f ↔ coreRules.Derived quads f :=
  core_iff (fun _ hr => mem_selection.mpr ⟨.core, hcore, hr⟩) (fun _ hr => selection_idle hsub hr) hf

theorem core_kept_chain : (selection noBuiltins [.rdfs, .core, .k8s, .policyExamples]).Derived (· ∈ chainQuads)
    ⟨.t, [.const (.iri "pin"), .const (.iri (nix "closureContains")), .const (.iri "b")]⟩ ↔
      coreRules.Derived (· ∈ chainQuads)
        ⟨.t, [.const (.iri "pin"), .const (.iri (nix "closureContains")), .const (.iri "b")]⟩ := by
  refine core_kept (by simp) (fun q hq => ?_) (.inr (.inr ⟨_, by simp [coreProps], rfl, rfl⟩))
  simp only [chainQuads, List.mem_cons, List.not_mem_nil, or_false] at hq
  rcases hq with rfl | rfl | rfl | rfl | rfl <;> simp

end Selection

end Nix2Rdf.Packs
