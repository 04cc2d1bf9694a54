import Nix2Rdf.Packs.Rdfs
import Nix2Rdf.Packs.Running

/-!
# Classes

The policies ask for classes in the working set: what is stated, what the vocabularies say of the properties of a
resource, and what is above these.
-/

namespace Nix2Rdf.Packs.Deployed

open Relation (TransGen)

section Meaning

variable (b : Builtins) (quads : Quad → Prop)

/-- The triple is in the working set of the k8s pack and all that it depends on. -/
def Working (x p y : Val) : Prop := (k8sWithDeps b).Derived quads ⟨.t, [x, p, y]⟩

/-- The class is stated, or follows from the vocabularies. -/
def IsA (x : Val) (c : String) : Prop := Working b quads x (.const (.iri rdfType)) (.const (.iri (k8s c)))

/-- Where a class comes from. The last three cases are the classes of the core pack. -/
inductive HasClass (x : Val) : Val → Prop
  | stated {c : Val} : Asserts quads x rdfType c → HasClass x c
  | domain {p y c : Val} : Asserts quads p (rdfs "domain") c → Working b quads x p y → HasClass x c
  | range {p y c : Val} {i : Iri} : Asserts quads p (rdfs "range") c → Working b quads y p x → x = .const (.iri i) →
      HasClass x c
  | above {c c' : Val} : HasClass x c → Asserts quads c (rdfs "subClassOf") c' → HasClass x c'
  | output {d : Val} : Working b quads d (.const (.iri (nix "hasOutput"))) x →
    HasClass x (.const (.iri (nix "Output")))
  | derivation {y : Val} : Working b quads x (.const (.iri (nix "drvPath"))) y →
      HasClass x (.const (.iri (nix "Derivation")))
  | snapshot {d : Val} : Working b quads x (.const (.iri (nix "closureContains"))) d →
      HasClass x (.const (.iri (nix "Snapshot")))

end Meaning

/-! ## The rules for classes -/

def outputRule : DRule :=
  clause (tr (var "o") rdfType (iri (nix "Output"))) [tr (var "d") (nix "hasOutput") (var "o")]

def derivationRule : DRule :=
  clause (tr (var "d") rdfType (iri (nix "Derivation"))) [tr (var "d") (nix "drvPath") (var "p")]

def snapshotRule : DRule :=
  clause (tr (var "s") rdfType (iri (nix "Snapshot"))) [tr (var "s") (nix "closureContains") (var "d")]

section Rules

variable {b : Builtins} {quads : Quad → Prop} {x y p c : Val}

set_option maxRecDepth 4000 in
theorem rulesOfT_type : (k8sWithDeps b).rulesOfT rdfType =
    [tRule, outputRule, derivationRule, snapshotRule, subclassRule, rdfs7Rule, domainRule, rangeRule] := rfl

section Derives

variable {N : Datalog.Interp Pred Nix2Rdf.Term}

theorem outputRule_derives : outputRule.Derives N ⟨.t, [x, .const (.iri rdfType), c]⟩ ↔
    c = .const (.iri (nix "Output")) ∧ ∃ d, N ⟨.t, [d, .const (.iri (nix "hasOutput")), x]⟩ := by
  rw [outputRule, clause_derives]
  constructor
  · rintro ⟨σ, hbody, hhead⟩
    cases hhead
    exact ⟨rfl, σ "d", hbody _ List.mem_cons_self⟩
  · rintro ⟨rfl, d, hd⟩
    exact ⟨.of d [("o", x)], by simpa using hd, by simp⟩

theorem derivationRule_derives : derivationRule.Derives N ⟨.t, [x, .const (.iri rdfType), c]⟩ ↔
    c = .const (.iri (nix "Derivation")) ∧ ∃ y, N ⟨.t, [x, .const (.iri (nix "drvPath")), y]⟩ := by
  rw [derivationRule, clause_derives]
  constructor
  · rintro ⟨σ, hbody, hhead⟩
    cases hhead
    exact ⟨rfl, σ "p", hbody _ List.mem_cons_self⟩
  · rintro ⟨rfl, y, hy⟩
    exact ⟨.of y [("d", x)], by simpa using hy, by simp⟩

theorem snapshotRule_derives : snapshotRule.Derives N ⟨.t, [x, .const (.iri rdfType), c]⟩ ↔
    c = .const (.iri (nix "Snapshot")) ∧ ∃ d, N ⟨.t, [x, .const (.iri (nix "closureContains")), d]⟩ := by
  rw [snapshotRule, clause_derives]
  constructor
  · rintro ⟨σ, hbody, hhead⟩
    cases hhead
    exact ⟨rfl, σ "d", hbody _ List.mem_cons_self⟩
  · rintro ⟨rfl, d, hd⟩
    exact ⟨.of d [("s", x)], by simpa using hd, by simp⟩

end Derives

variable (hsub : NoSubProperty quads)

include hsub

theorem superclass_iff : Working b quads x (.const (.iri (rdfs "subClassOf"))) y ↔ TransGen (Below quads) x y :=
  subclasses_iff rfl (rdfs7_idle hsub)

/-- What the vocabularies say of a property is what they state. -/
theorem schemaProp_iff {w : Iri} (hrules : (k8sWithDeps b).rulesOfT w = [tRule, rdfs7Rule]) :
    Working b quads p (.const (.iri w)) c ↔ Asserts quads p w c := by
  rw [Working, (k8sWithDeps b).derived_t_iff, hrules]
  simp only [List.mem_cons, List.not_mem_nil, or_false, exists_eq_or_imp, exists_eq_left, tRule_asserts,
    rdfs7_idle hsub]

set_option maxRecDepth 4000 in
theorem domain_stated : Working b quads p (.const (.iri (rdfs "domain"))) c ↔ Asserts quads p (rdfs "domain") c :=
  schemaProp_iff hsub rfl

set_option maxRecDepth 4000 in
theorem range_stated : Working b quads p (.const (.iri (rdfs "range"))) c ↔ Asserts quads p (rdfs "range") c :=
  schemaProp_iff hsub rfl

omit hsub in
theorem HasClass.climb {c' : Val} (h : HasClass b quads x c) (hpath : TransGen (Below quads) c c') :
    HasClass b quads x c' := by
  induction hpath with
  | single hstep => exact h.above hstep
  | tail _ hstep ih => exact ih.above hstep

theorem hasClass_of_working (h : Working b quads x (.const (.iri rdfType)) c) : HasClass b quads x c := by
  refine (k8sWithDeps b).induction_t (motive := fun f => ∀ x c, f = ⟨.t, [x, .const (.iri rdfType), c]⟩ →
    HasClass b quads x c) ?_ h x c rfl
  rw [rulesOfT_type]
  intro r hr σ hbody hih a ha _ x c hf
  have hderives : ∀ {r' : DRule}, r = r' → (∀ x, x ∉ r'.nulls) → r'.Derives ((k8sWithDeps b).Derived quads)
      ⟨.t, [x, .const (.iri rdfType), c]⟩ := by
    rintro r' rfl hnulls
    exact ⟨σ, fun x hx => absurd hx (hnulls x), hbody, a, ha, hf⟩
  simp only [List.mem_cons, List.not_mem_nil, or_false] at hr
  rcases hr with hr | hr | hr | hr | rfl | hr | hr | hr
  · exact .stated (tRule_asserts.mp (hderives hr (by simp [tRule, clause])))
  · obtain ⟨rfl, d, hd⟩ := outputRule_derives.mp (hderives hr (by simp [outputRule, clause]))
    exact .output hd
  · obtain ⟨rfl, y, hy⟩ := derivationRule_derives.mp (hderives hr (by simp [derivationRule, clause]))
    exact .derivation hy
  · obtain ⟨rfl, d, hd⟩ := snapshotRule_derives.mp (hderives hr (by simp [snapshotRule, clause]))
    exact .snapshot hd
  · cases List.mem_singleton.mp ha
    have hclass := hih _ List.mem_cons_self ⟨rfl, rfl⟩ (σ "x") (σ "c1") rfl
    have hpath := (superclass_iff hsub).mp (hbody _ (List.mem_cons_of_mem _ List.mem_cons_self))
    cases hf
    exact hclass.climb hpath
  · exact absurd (hderives hr (by simp [rdfs7Rule, clause])) (rdfs7_idle hsub)
  · obtain ⟨p, y, hdomain, hholds⟩ := domainRule_derives.mp (hderives hr (by simp [domainRule, clause]))
    exact .domain ((domain_stated hsub).mp hdomain) hholds
  · obtain ⟨p, y, hrange, hholds, i, hi⟩ := rangeRule_derives.mp (hderives hr (by simp [rangeRule, clause]))
    exact .range ((range_stated hsub).mp hrange) hholds hi

theorem working_of_hasClass (h : HasClass b quads x c) : Working b quads x (.const (.iri rdfType)) c := by
  have hfire : ∀ r ∈ (k8sWithDeps b).rulesOfT rdfType, ∀ {c}, r.Derives ((k8sWithDeps b).Derived quads)
      ⟨.t, [x, .const (.iri rdfType), c]⟩ → Working b quads x (.const (.iri rdfType)) c :=
    fun r hr c hderives => (k8sWithDeps b).derived_t_iff.mpr ⟨r, hr, hderives⟩
  rw [rulesOfT_type] at hfire
  induction h with
  | stated hstated => exact (k8sWithDeps b).t_of_asserts hstated
  | domain hdomain hholds =>
      exact hfire domainRule (by simp) (domainRule_derives.mpr ⟨_, _, (domain_stated hsub).mpr hdomain, hholds⟩)
  | range hrange hholds hi =>
      exact hfire rangeRule (by simp) (rangeRule_derives.mpr ⟨_, _, (range_stated hsub).mpr hrange, hholds, _, hi⟩)
  | above _ hstep ih =>
      refine hfire subclassRule (by simp) ((join_derives (by decide) (by decide) (by decide)).mpr ⟨_, ih, ?_⟩)
      exact (superclass_iff hsub).mpr (.single hstep)
  | output hd => exact hfire outputRule (by simp) (outputRule_derives.mpr ⟨rfl, _, hd⟩)
  | derivation hy => exact hfire derivationRule (by simp) (derivationRule_derives.mpr ⟨rfl, _, hy⟩)
  | snapshot hd => exact hfire snapshotRule (by simp) (snapshotRule_derives.mpr ⟨rfl, _, hd⟩)

/-- A resource has exactly the classes that are stated for it, those of the properties that it has, and what is above
these. -/
theorem isA_iff {w : String} : IsA b quads x w ↔ HasClass b quads x (.const (.iri (k8s w))) :=
  ⟨hasClass_of_working hsub, working_of_hasClass hsub⟩

end Rules

end Nix2Rdf.Packs.Deployed
