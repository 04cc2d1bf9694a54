import Nix2Rdf.Packs.Kept
import Nix2Rdf.Packs.Violations

/-!
# What runs

The k8s pack joins what was built with what runs. A workload runs what its images ship, and the build closure of an
image that ships nothing; a node also runs the closure of its own generation, and a cluster what its workloads and
nodes run.
-/

namespace Nix2Rdf.Packs.Deployed

section Meaning

variable (b : Builtins) (quads : Quad → Prop)

/-- A container of the workload runs the image. -/
def RunsImage (w img : Val) : Prop :=
  ∃ c, Asserts quads w (k8s "hasContainer") c ∧ Asserts quads c (k8s "runsImage") img

/-- The image ships an output of the derivation. -/
def ShipsOutputOf (img d : Val) : Prop := ∃ o, Ships quads img o ∧ Asserts quads d (nix "hasOutput") o

/-- The derivation is in the build closure of an image that ships nothing. -/
def BuiltOnly (img d : Val) : Prop := (∀ o, ¬ Ships quads img o) ∧ Contains quads img d

def Runs (w d : Val) : Prop := ∃ img, RunsImage quads w img ∧ (ShipsOutputOf quads img d ∨ BuiltOnly quads img d)

/-- A node runs what is scheduled on it, and its own generation. -/
def RunsOnNode (n d : Val) : Prop :=
  (∃ w, Runs quads w d ∧ Asserts quads w (k8s "scheduledOn") n) ∨
    ∃ g, Asserts quads n (k8s "hostGeneration") g ∧ Contains quads g d

/-- A cluster runs what its workloads and its nodes run. -/
def RunsOn (cl d : Val) : Prop :=
  (∃ w, Runs quads w d ∧ Asserts quads w (k8s "inCluster") cl) ∨
    ∃ n, RunsOnNode quads n d ∧ Asserts quads n (k8s "inCluster") cl

/-- The triple is stated, or the derived graph has it. -/
def Shown (s : Val) (p : Iri) (o : Val) : Prop :=
  Asserts quads s p o ∨ (k8sWithDeps b).Derived quads ⟨.new, [s, .const (.iri p), o]⟩

end Meaning

section Rules

variable {b : Builtins} {quads : Quad → Prop} (hsub : NoSubProperty quads)

/-! ## Triples that no rule derives -/

theorem k8sWithDeps_selection : k8sWithDeps b = selection b [.core, .identifiers, .rdfs, .k8s] := by
  have hrules : (k8sWithDeps b).rules = (selection b [.core, .identifiers, .rdfs, .k8s]).rules := by
    have hall : (k8sWithDeps b).rules = ((core ++ identifiers b) ++ rdfsRules) ++ k8sPack b := rfl
    have hsel : (selection b [.core, .identifiers, .rdfs, .k8s]).rules =
      core ++ (identifiers b ++ (rdfsRules ++ (k8sPack b ++ []))) := rfl
    simp only [hall, hsel, List.append_nil, List.append_assoc]
  generalize k8sWithDeps b = k at hrules
  generalize selection b [.core, .identifiers, .rdfs, .k8s] = k' at hrules
  cases k
  cases k'
  cases hrules
  rfl

/-- Properties that only RDFS could derive. -/
def statedProps : List Iri :=
  ["inNamespace", "inCluster", "name", "label", "hasContainer", "runsImage", "unresolvedImage",
    "scheduledOn", "replicas", "hasPDB", "mounts", "boundTo", "pinnedToNode", "ownerUnknown",
    "exemptSingleDomain", "limitsCpu", "limitsMemory",
    "inFailureDomain", "domainKind", "hostGeneration", "nodeRole", "kernelVersion", "grants", "subjectOf",
    "aggregates",
    "permits", "verb", "resource", "runningOn", "runningOnNode"].map k8s
  ++ ["pname", "version", "attrPath", "evaluatesTo", "homepage"].map nix
  ++ ["affectsPurl", "affectsCpe", "severity"].map ids ++ [attest "verifiedBy"]

/-- No rule derives triples of the working set. -/
def withoutTriples (rules : List DRule) : Bool := rules.all fun r => r.head.all fun a => a.pred != .t

theorem policies_withoutTriples : withoutTriples (k8sPolicies b) := by rfl

/-- The rules of the k8s pack that are no policies. -/
def k8sStructure : List DRule :=
  k8sNarrow ++ k8sProduction ++ k8sRunning ++ k8sReachability ++ k8sPermissions ++ k8sSpread ++ k8sDrift

theorem program_k8sWithDeps : program (k8sWithDeps b).rules =
    prelude ++ (((core ++ identifiers b) ++ rdfsRules) ++ (k8sStructure ++ k8sPolicies b)) ++ epilogue := rfl

theorem others_silent :
    (silent statedProps [] (prelude.eraseIdx 3) ∧ silent statedProps [] core ∧
      silent statedProps [] (identifiers b)) ∧
      silent statedProps [] (rdfsRules.eraseIdx 3) ∧ silent statedProps [] k8sStructure ∧
        silent statedProps [] epilogue := by
  refine ⟨⟨?_, ?_, by rfl⟩, ?_, ?_, ?_⟩ <;> decide +kernel

theorem stated_rules {p : Iri} (hp : p ∈ statedProps) {r : DRule} (hr : r ∈ (k8sWithDeps b).rulesOfT p) :
    r = tRule ∨ r = rdfs7Rule := by
  have hdef : (k8sWithDeps b).Defines statedProps [] r := .inl ⟨p, hp, hr⟩
  obtain ⟨⟨hprelude, hcore, hids⟩, hrdfs, hk8s, hepilogue⟩ := others_silent (b := b)
  have hmem := (List.mem_filter.mp hr).1
  rw [program_k8sWithDeps] at hmem
  rcases List.mem_append.mp hmem with hmem | hmem
  · rcases List.mem_append.mp hmem with hmem | hmem
    · have hfirst : r = tRule ∨ r ∈ prelude.eraseIdx 3 := by
        simp only [prelude, List.mem_cons, List.not_mem_nil, or_false] at hmem
        rcases hmem with rfl | rfl | rfl | rfl <;> simp [prelude]
      exact hfirst.imp_right fun h => absurd hdef (not_mem_of_silent hprelude h)
    · rcases List.mem_append.mp hmem with hmem | hmem
      · rcases List.mem_append.mp hmem with hmem | hmem
        · rcases List.mem_append.mp hmem with hmem | hmem
          · exact absurd hdef (not_mem_of_silent hcore hmem)
          · exact absurd hdef (not_mem_of_silent hids hmem)
        · exact .inr ((mem_rdfsRules hmem).resolve_right fun h => not_mem_of_silent hrdfs h hdef)
      · rcases List.mem_append.mp hmem with hmem | hmem
        · exact absurd hdef (not_mem_of_silent hk8s hmem)
        · obtain ⟨a, ha, hat⟩ := List.any_eq_true.mp (List.mem_filter.mp hr).2
          have hpred := List.all_eq_true.mp (List.all_eq_true.mp policies_withoutTriples r hmem) a ha
          simp only [Datalog.Atom.mayBeAt, Bool.and_eq_true, decide_eq_true_eq] at hat
          simp [hat.1] at hpred
  · exact absurd hdef (not_mem_of_silent hepilogue hmem)

include hsub

theorem rdfs7_idle {f : DFact} : ¬ rdfs7Rule.Derives ((k8sWithDeps b).Derived quads) f := by
  rw [k8sWithDeps_selection]
  exact rdfs7_never hsub

/-- Where only RDFS might add something, a triple is there exactly when it is stated. -/
theorem stated_iff {p : Iri} (hp : p ∈ statedProps) {s o : Val} :
    (k8sWithDeps b).Derived quads ⟨.t, [s, .const (.iri p), o]⟩ ↔ Asserts quads s p o := by
  constructor
  · intro h
    obtain ⟨r, hr, hderives⟩ := (k8sWithDeps b).derived_t_iff.mp h
    rcases stated_rules hp hr with rfl | rfl
    · exact tRule_asserts.mp hderives
    · exact absurd hderives (rdfs7_idle hsub)
  · rintro ⟨q, hq, rfl, rfl, rfl⟩
    exact (k8sWithDeps b).t_of_quad hq

theorem narrow_stated {k : Pred} {p : Iri} (hfor : (k8sWithDeps b).rulesFor k = [narrow k p]) (hk : k ≠ .raw)
    (hp : p ∈ statedProps) {x y : Val} : (k8sWithDeps b).Derived quads ⟨k, [x, y]⟩ ↔ Asserts quads x p y := by
  rw [(k8sWithDeps b).narrow_iff hfor hk]
  exact stated_iff hsub hp

theorem core_among {f : DFact} (hf : CoreFact f) : (k8sWithDeps b).Derived quads f ↔ coreRules.Derived quads f := by
  rw [k8sWithDeps_selection]
  exact core_iff (fun _ hr => mem_selection.mpr ⟨.core, by simp, hr⟩) (fun _ hr => selection_idle hsub hr) hf

theorem narrow_core {p : Pred} {t : String} (hfor : (k8sWithDeps b).rulesFor p = [narrow p (nix t)]) (hp : p ≠ .raw)
    (ht : nix t ∈ coreProps) {x y : Val} :
    (k8sWithDeps b).Derived quads ⟨p, [x, y]⟩ ↔ CoreDerives quads x (nix t) y := by
  rw [(k8sWithDeps b).narrow_iff hfor hp]
  exact core_among hsub (.inr (.inr ⟨_, ht, rfl, rfl⟩))

/-! ## Images -/

theorem nRuntimeClosure_iff {x y : Val} : (k8sWithDeps b).Derived quads ⟨.nRuntimeClosure, [x, y]⟩ ↔
    Ships quads x y :=
  (narrow_core hsub rfl (by simp) (by simp [coreProps])).trans ships_iff

theorem nClosure_iff {x y : Val} : (k8sWithDeps b).Derived quads ⟨.nClosure, [x, y]⟩ ↔ Contains quads x y :=
  (narrow_core hsub rfl (by simp) (by simp [coreProps])).trans contains_iff

theorem nHasOutput_iff {x y : Val} :
    (k8sWithDeps b).Derived quads ⟨.nHasOutput, [x, y]⟩ ↔ Asserts quads x (nix "hasOutput") y :=
  (narrow_core hsub rfl (by simp) (by simp [coreProps])).trans coreDerives_hasOutput

theorem imgDrv_iff {img d : Val} : (k8sWithDeps b).Derived quads ⟨.imgDrv, [img, d]⟩ ↔ ShipsOutputOf quads img d := by
  rw [(k8sWithDeps b).derived_iff_one (p := .imgDrv) rfl (by simp)]
  constructor
  · rintro ⟨σ, hbody, hhead⟩
    simp only [List.forall_mem_cons, Datalog.Literal.holds_pos, ground_atom, List.map_cons, List.map_nil, ground_var,
      nRuntimeClosure_iff hsub, nHasOutput_iff hsub] at hbody
    simp only [ground_atom, List.map_cons, List.map_nil, ground_var, Datalog.Fact.mk.injEq, List.cons.injEq, and_true,
      true_and] at hhead
    obtain ⟨rfl, rfl⟩ := hhead
    exact ⟨σ "o", hbody.1, hbody.2.1⟩
  · rintro ⟨o, hships, hout⟩
    exact ⟨.of o [("img", img),
      ("d", d)], by simp [nRuntimeClosure_iff hsub, nHasOutput_iff hsub, hships, hout], by simp⟩

theorem hasRuntime_iff {img : Val} : (k8sWithDeps b).Derived quads ⟨.hasRuntime, [img]⟩ ↔ ∃ o, Ships quads img o := by
  rw [(k8sWithDeps b).derived_iff_one (p := .hasRuntime) rfl (by simp)]
  constructor
  · rintro ⟨σ, hbody, hhead⟩
    simp only [List.forall_mem_cons, Datalog.Literal.holds_pos, ground_atom, List.map_cons, List.map_nil, ground_var,
      nRuntimeClosure_iff hsub] at hbody
    simp only [ground_atom, List.map_cons, List.map_nil, ground_var, Datalog.Fact.mk.injEq, List.cons.injEq, and_true,
      true_and] at hhead
    exact ⟨σ "o", hhead ▸ hbody.1⟩
  · rintro ⟨o, hships⟩
    exact ⟨.of o [("img", img)], by simp [nRuntimeClosure_iff hsub, hships], by simp⟩

/-! ## Workloads -/

theorem wImage_iff {w img : Val} : (k8sWithDeps b).Derived quads ⟨.wImage, [w, img]⟩ ↔ RunsImage quads w img := by
  have hcontainer : ∀ x y, (k8sWithDeps b).Derived quads ⟨.kHasContainer, [x, y]⟩ ↔
      Asserts quads x (k8s "hasContainer") y :=
    fun x y => narrow_stated hsub rfl (by simp) (by simp [statedProps])
  have hruns : ∀ x y, (k8sWithDeps b).Derived quads ⟨.kRunsImage, [x, y]⟩ ↔ Asserts quads x (k8s "runsImage") y :=
    fun x y => narrow_stated hsub rfl (by simp) (by simp [statedProps])
  rw [(k8sWithDeps b).derived_iff_one (p := .wImage) rfl (by simp)]
  constructor
  · rintro ⟨σ, hbody, hhead⟩
    simp only [List.forall_mem_cons, Datalog.Literal.holds_pos, ground_atom, List.map_cons, List.map_nil, ground_var,
      hcontainer, hruns] at hbody
    simp only [ground_atom, List.map_cons, List.map_nil, ground_var, Datalog.Fact.mk.injEq, List.cons.injEq, and_true,
      true_and] at hhead
    obtain ⟨rfl, rfl⟩ := hhead
    exact ⟨σ "c", hbody.1, hbody.2.1⟩
  · rintro ⟨c, hc, himg⟩
    exact ⟨.of c [("w", w), ("img", img)], by simp [hcontainer, hruns, hc, himg], by simp⟩

set_option maxRecDepth 4000 in
theorem fallback_iff {w d : Val} :
    (k8sWithDeps b).Derived quads ⟨.out, [w, .const (.iri (k8s "runningClosure")), d]⟩ ↔
    ∃ img, RunsImage quads w img ∧ BuiltOnly quads img d := by
  have hrules : (k8sWithDeps b).rulesOfOut (k8s "runningClosure") =
    [clause (ou (var "w") (k8s "runningClosure") (var "d"))
      [atom .wImage [var "w", var "img"], .neg (atom .hasRuntime [var "img"]),
        atom .nClosure [var "img", var "d"]]] := rfl
  rw [(k8sWithDeps b).derived_out_iff, hrules]
  simp only [List.mem_singleton, exists_eq_left]
  simp only [clause_derives, List.forall_mem_cons, Datalog.Literal.holds_pos, Datalog.Literal.holds_neg,
    ground_atom, ground_ou, List.map_cons, List.map_nil, ground_var, wImage_iff hsub, hasRuntime_iff hsub,
    nClosure_iff hsub, Datalog.Fact.mk.injEq, List.cons.injEq, and_true, true_and]
  constructor
  · rintro ⟨σ, ⟨himg, hnone, hd, _⟩, rfl, rfl⟩
    exact ⟨σ "img", himg, not_exists.mp hnone, hd⟩
  · rintro ⟨img, himg, hnone, hd⟩
    refine ⟨.of img [("w", w), ("d", d)], ⟨?_, ?_, ?_, by simp⟩, by simp⟩
    · simpa using himg
    · simpa using hnone
    · simpa using hd

theorem running_iff {w d : Val} : (k8sWithDeps b).Derived quads ⟨.running, [w, d]⟩ ↔ Runs quads w d := by
  have hrules : (k8sWithDeps b).rulesFor .running =
    [clause (atom .running [var "w", var "d"])
      [atom .wImage [var "w", var "img"], atom .imgDrv [var "img", var "d"]],
    clause (atom .running [var "w", var "d"]) [ou (var "w") (k8s "runningClosure") (var "d")]] := rfl
  rw [(k8sWithDeps b).derived_iff (by simp), hrules]
  simp only [List.mem_cons, List.not_mem_nil, or_false, exists_eq_or_imp, exists_eq_left]
  simp only [clause_derives, List.forall_mem_cons, Datalog.Literal.holds_pos, ground_atom, ground_ou,
    List.map_cons, List.map_nil, ground_var, wImage_iff hsub, imgDrv_iff hsub, fallback_iff hsub,
    Datalog.Fact.mk.injEq, List.cons.injEq, and_true, true_and]
  constructor
  · rintro (⟨σ, ⟨himg, hd, _⟩, rfl, rfl⟩ | ⟨σ, ⟨⟨img, himg, hd⟩, _⟩, rfl, rfl⟩)
    · exact ⟨σ "img", himg, .inl hd⟩
    · exact ⟨img, himg, .inr hd⟩
  · rintro ⟨img, himg, hd | hd⟩
    · exact .inl ⟨.of img [("w", w), ("d", d)], ⟨by simpa using himg, by simpa using hd, by simp⟩, by simp⟩
    · exact .inr ⟨.of d [("w", w)], ⟨⟨img, by simpa using himg, by simpa using hd⟩, by simp⟩, by simp⟩

/-! ## Nodes and clusters -/

theorem runningOnNode_iff {n d : Val} : (k8sWithDeps b).Derived quads ⟨.runningOnNode, [n, d]⟩ ↔
    RunsOnNode quads n d := by
  have hscheduled : ∀ x y, (k8sWithDeps b).Derived quads ⟨.kScheduledOn, [x, y]⟩ ↔
      Asserts quads x (k8s "scheduledOn") y :=
    fun x y => narrow_stated hsub rfl (by simp) (by simp [statedProps])
  have hgeneration : ∀ x y, (k8sWithDeps b).Derived quads ⟨.kHostGeneration, [x, y]⟩ ↔
      Asserts quads x (k8s "hostGeneration") y :=
    fun x y => narrow_stated hsub rfl (by simp) (by simp [statedProps])
  have hrules : (k8sWithDeps b).rulesFor .runningOnNode =
    [clause (atom .runningOnNode [var "n", var "d"])
      [atom .running [var "w", var "d"], atom .kScheduledOn [var "w", var "n"]],
    clause (atom .runningOnNode [var "n", var "d"])
      [atom .kHostGeneration [var "n", var "g"], atom .nClosure [var "g", var "d"]]] := rfl
  rw [(k8sWithDeps b).derived_iff (by simp), hrules]
  simp only [List.mem_cons, List.not_mem_nil, or_false, exists_eq_or_imp, exists_eq_left]
  simp only [clause_derives, List.forall_mem_cons, Datalog.Literal.holds_pos, ground_atom, List.map_cons,
    List.map_nil, ground_var, running_iff hsub, hscheduled, hgeneration, nClosure_iff hsub,
    Datalog.Fact.mk.injEq, List.cons.injEq, and_true, true_and]
  constructor
  · rintro (⟨σ, ⟨hruns, hn, _⟩, rfl, rfl⟩ | ⟨σ, ⟨hgen, hd, _⟩, rfl, rfl⟩)
    · exact .inl ⟨σ "w", hruns, hn⟩
    · exact .inr ⟨σ "g", hgen, hd⟩
  · rintro (⟨w, hruns, hn⟩ | ⟨g, hgen, hd⟩)
    · exact .inl ⟨.of w [("n", n), ("d", d)], ⟨by simpa using hruns, by simpa using hn, by simp⟩, by simp⟩
    · exact .inr ⟨.of g [("n", n), ("d", d)], ⟨by simpa using hgen, by simpa using hd, by simp⟩, by simp⟩

set_option maxRecDepth 4000 in
theorem out_runningOnNode_iff {n d : Val} :
    (k8sWithDeps b).Derived quads ⟨.out, [n, .const (.iri (k8s "runningOnNode")), d]⟩ ↔ RunsOnNode quads n d := by
  have hrules : (k8sWithDeps b).rulesOfOut (k8s "runningOnNode") =
    [clause (ou (var "n") (k8s "runningOnNode") (var "d")) [atom .runningOnNode [var "n", var "d"]]] := rfl
  rw [(k8sWithDeps b).derived_out_iff, hrules]
  simp only [List.mem_singleton, exists_eq_left]
  simp only [clause_derives, List.forall_mem_cons, Datalog.Literal.holds_pos, ground_atom, ground_ou,
    List.map_cons, List.map_nil, ground_var, runningOnNode_iff hsub, Datalog.Fact.mk.injEq, List.cons.injEq,
    and_true, true_and]
  constructor
  · rintro ⟨σ, ⟨h, _⟩, rfl, rfl⟩
    exact h
  · exact fun h => ⟨.of d [("n", n)], ⟨by simpa using h, by simp⟩, by simp⟩

set_option maxRecDepth 4000 in
theorem out_runningOn_iff {cl d : Val} :
    (k8sWithDeps b).Derived quads ⟨.out, [cl, .const (.iri (k8s "runningOn")), d]⟩ ↔ RunsOn quads cl d := by
  have hcluster : ∀ x y, (k8sWithDeps b).Derived quads ⟨.kInCluster, [x, y]⟩ ↔ Asserts quads x (k8s "inCluster") y :=
    fun x y => narrow_stated hsub rfl (by simp) (by simp [statedProps])
  have hrules : (k8sWithDeps b).rulesOfOut (k8s "runningOn") =
    [clause (ou (var "cl") (k8s "runningOn") (var "d")) [atom .running [var "w", var "d"],
      atom .kInCluster [var "w", var "cl"]],
    clause (ou (var "cl") (k8s "runningOn") (var "d"))
      [atom .runningOnNode [var "n", var "d"], atom .kInCluster [var "n", var "cl"]]] := rfl
  rw [(k8sWithDeps b).derived_out_iff, hrules]
  simp only [List.mem_cons, List.not_mem_nil, or_false, exists_eq_or_imp, exists_eq_left]
  simp only [clause_derives, List.forall_mem_cons, Datalog.Literal.holds_pos, ground_atom, ground_ou,
    List.map_cons, List.map_nil, ground_var, running_iff hsub, runningOnNode_iff hsub, hcluster,
    Datalog.Fact.mk.injEq, List.cons.injEq, and_true, true_and]
  constructor
  · rintro (⟨σ, ⟨hruns, hcl, _⟩, rfl, rfl⟩ | ⟨σ, ⟨hruns, hcl, _⟩, rfl, rfl⟩)
    · exact .inl ⟨σ "w", hruns, hcl⟩
    · exact .inr ⟨σ "n", hruns, hcl⟩
  · rintro (⟨w, hruns, hcl⟩ | ⟨n, hruns, hcl⟩)
    · exact .inl ⟨.of w [("cl", cl), ("d", d)], ⟨by simpa using hruns, by simpa using hcl, by simp⟩, by simp⟩
    · exact .inr ⟨.of n [("cl", cl), ("d", d)], ⟨by simpa using hruns, by simpa using hcl, by simp⟩, by simp⟩

/-! ## What a reader finds -/

omit hsub in
set_option maxRecDepth 4000 in
theorem new_iff {s o : Val} {p : Iri} : (k8sWithDeps b).Derived quads ⟨.new, [s, .const (.iri p), o]⟩ ↔
    ((k8sWithDeps b).Derived quads ⟨.t, [s, .const (.iri p), o]⟩ ∧ ¬ Asserts quads s p o) ∨
      (k8sWithDeps b).Derived quads ⟨.out, [s, .const (.iri p), o]⟩ := by
  have hasserted : ∀ x y z, (k8sWithDeps b).Derived quads ⟨.asserted, [x, y, z]⟩ ↔ ∃ p, y = .const (.iri p) ∧
      Asserts quads x p z := by
    intro x y z
    rw [(k8sWithDeps b).asserted_iff]
    constructor
    · rintro ⟨q, hq, hargs⟩
      simp only [List.cons.injEq, and_true] at hargs
      exact ⟨q.p, hargs.2.1, q, hq, hargs.1, rfl, hargs.2.2⟩
    · rintro ⟨p, rfl, q, hq, rfl, rfl, rfl⟩
      exact ⟨q, hq, rfl⟩
  have hrules : (k8sWithDeps b).rulesFor .new = epilogue := rfl
  rw [(k8sWithDeps b).derived_iff (by simp), hrules]
  simp only [epilogue, List.mem_cons, List.not_mem_nil, or_false, exists_eq_or_imp, exists_eq_left]
  simp only [clause_derives, List.forall_mem_cons, Datalog.Literal.holds_pos, Datalog.Literal.holds_neg,
    ground_atom, List.map_cons, List.map_nil, ground_var, hasserted, Datalog.Fact.mk.injEq, List.cons.injEq,
    and_true, true_and]
  constructor
  · rintro (⟨σ, ⟨ht, hnot, _⟩, rfl, hp, rfl⟩ | ⟨σ, ⟨hout, _⟩, rfl, hp, rfl⟩)
    · exact .inl ⟨hp ▸ ht, fun h => hnot ⟨p, hp, h⟩⟩
    · exact .inr (hp ▸ hout)
  · rintro (⟨ht, hnot⟩ | hout)
    · refine .inl ⟨.of o [("s", s), ("p", .const (.iri p))], ⟨by simpa using ht, ?_, by simp⟩, by simp⟩
      simpa using hnot
    · exact .inr ⟨.of o [("s", s), ("p", .const (.iri p))], ⟨by simpa using hout, by simp⟩, by simp⟩

set_option maxRecDepth 4000 in
theorem t_runningClosure_iff {w d : Val} :
    (k8sWithDeps b).Derived quads ⟨.t, [w, .const (.iri (k8s "runningClosure")), d]⟩ ↔
    Asserts quads w (k8s "runningClosure") d ∨ ∃ img, RunsImage quads w img ∧ ShipsOutputOf quads img d := by
  have hrules : (k8sWithDeps b).rulesOfT (k8s "runningClosure") = [tRule, rdfs7Rule,
    clause (tr (var "w") (k8s "runningClosure") (var "d"))
      [atom .wImage [var "w", var "img"], atom .imgDrv [var "img", var "d"]]] := rfl
  rw [(k8sWithDeps b).derived_t_iff, hrules]
  simp only [List.mem_cons, List.not_mem_nil, or_false, exists_eq_or_imp, exists_eq_left, tRule_asserts,
    rdfs7_idle hsub, false_or]
  simp only [clause_derives, List.forall_mem_cons, Datalog.Literal.holds_pos, ground_atom, ground_tr,
    List.map_cons, List.map_nil, ground_var, wImage_iff hsub, imgDrv_iff hsub, Datalog.Fact.mk.injEq,
    List.cons.injEq, and_true, true_and]
  refine or_congr_right ?_
  constructor
  · rintro ⟨σ, ⟨himg, hd, _⟩, rfl, rfl⟩
    exact ⟨σ "img", himg, hd⟩
  · rintro ⟨img, himg, hd⟩
    exact ⟨.of img [("w", w), ("d", d)], ⟨by simpa using himg, by simpa using hd, by simp⟩, by simp⟩

omit hsub in
theorem shown_iff {s o : Val} {p : Iri} : Shown b quads s p o ↔
    (k8sWithDeps b).Derived quads ⟨.t, [s, .const (.iri p), o]⟩ ∨
      (k8sWithDeps b).Derived quads ⟨.out, [s, .const (.iri p), o]⟩ := by
  have hstated : Asserts quads s p o → (k8sWithDeps b).Derived quads ⟨.t, [s, .const (.iri p), o]⟩ := by
    rintro ⟨q, hq, rfl, rfl, rfl⟩
    exact (k8sWithDeps b).t_of_quad hq
  rw [Shown, new_iff]
  constructor
  · rintro (h | ⟨h, _⟩ | h)
    · exact .inl (hstated h)
    · exact .inl h
    · exact .inr h
  · rintro (h | h)
    · by_cases hs : Asserts quads s p o
      · exact .inl hs
      · exact .inr (.inl ⟨h, hs⟩)
    · exact .inr (.inr h)

end Rules

/-- What runs where, as the graph of the input and the derived graph together show it. -/
theorem running_exact {b : Builtins} {quads : Quad → Prop} (hsub : NoSubProperty quads) : ∀ x d,
    (Shown b quads x (k8s "runningClosure") d ↔ Asserts quads x (k8s "runningClosure") d ∨ Runs quads x d) ∧
    (Shown b quads x (k8s "runningOnNode") d ↔ Asserts quads x (k8s "runningOnNode") d ∨ RunsOnNode quads x d) ∧
    (Shown b quads x (k8s "runningOn") d ↔ Asserts quads x (k8s "runningOn") d ∨ RunsOn quads x d) := by
  intro x d
  simp only [shown_iff, t_runningClosure_iff hsub, fallback_iff hsub, out_runningOnNode_iff hsub,
    out_runningOn_iff hsub, stated_iff hsub (show k8s "runningOnNode" ∈ statedProps by simp [statedProps]),
    stated_iff hsub (show k8s "runningOn" ∈ statedProps by simp [statedProps]), and_true, or_assoc]
  refine or_congr_right ?_
  constructor
  · rintro (⟨img, himg, h⟩ | ⟨img, himg, h⟩)
    · exact ⟨img, himg, .inl h⟩
    · exact ⟨img, himg, .inr h⟩
  · rintro ⟨img, himg, h | h⟩
    · exact .inl ⟨img, himg, h⟩
    · exact .inr ⟨img, himg, h⟩

/-- A container of `web` runs an image, a layer of which holds an output of `hello`. -/
def webQuads : List Quad :=
  [⟨"g", .iri "web", k8s "hasContainer", .iri "c"⟩, ⟨"g", .iri "c", k8s "runsImage", .iri "img"⟩,
    ⟨"g", .iri "web", k8s "inCluster", .iri "home"⟩, ⟨"i", .iri "img", nix "hasLayer", .iri "l"⟩,
    ⟨"i", .iri "l", nix "layerContains", .iri "out"⟩, ⟨"d", .iri "hello", nix "hasOutput", .iri "out"⟩]

theorem webQuads_asserts {q : Quad} (hq : q ∈ webQuads) : Asserts (· ∈ webQuads) (.const q.s) q.p (.const q.o) :=
  ⟨q, hq, rfl, rfl, rfl⟩

theorem running_exact_web : Shown noBuiltins (· ∈ webQuads) (.const (.iri "home")) (k8s "runningOn")
    (.const (.iri "hello")) := by
  have hsub : NoSubProperty (· ∈ webQuads) := by
    intro q hq
    simp only [webQuads, List.mem_cons, List.not_mem_nil, or_false] at hq
    rcases hq with rfl | rfl | rfl | rfl | rfl | rfl <;> simp
  have hships : Ships (· ∈ webQuads) (.const (.iri "img")) (.const (.iri "out")) :=
    .of_base (.inr (.inr ⟨_, webQuads_asserts (q := ⟨"i", .iri "img", nix "hasLayer", .iri "l"⟩) (by simp [webQuads]),
      webQuads_asserts (q := ⟨"i", .iri "l", nix "layerContains", .iri "out"⟩) (by simp [webQuads])⟩))
  have hruns : Runs (· ∈ webQuads) (.const (.iri "web")) (.const (.iri "hello")) :=
    ⟨_, ⟨_, webQuads_asserts (q := ⟨"g", .iri "web", k8s "hasContainer", .iri "c"⟩) (by simp [webQuads]),
      webQuads_asserts (q := ⟨"g", .iri "c", k8s "runsImage", .iri "img"⟩) (by simp [webQuads])⟩,
      .inl ⟨_, hships, webQuads_asserts (q := ⟨"d", .iri "hello", nix "hasOutput", .iri "out"⟩) (by simp [webQuads])⟩⟩
  exact ((running_exact hsub) _ _).2.2.mpr (.inr (.inl ⟨_, hruns,
    webQuads_asserts (q := ⟨"g", .iri "web", k8s "inCluster", .iri "home"⟩) (by simp [webQuads])⟩))

end Nix2Rdf.Packs.Deployed
