import Nix2Rdf.Lib.Datalog.Fresh
import Nix2Rdf.Packs.Classes
import Nix2Rdf.Packs.Dangling
import Nix2Rdf.Packs.Vulnerable

/-!
# What the policies report

Each deployment policy of the k8s pack, against what a report of it means.
-/

namespace Nix2Rdf.Packs.Deployed

open Relation (ReflTransGen)

section Meaning

variable (b : Builtins) (quads : Quad → Prop)

def IsTrue (x : Val) (p : String) : Prop := Asserts quads x (k8s p) (.const (.literal "true" (xsd "boolean")))

def productionLabels : List String := ["environment=production", "env=prod", "nix2rdf.io/production=true"]

def ProductionNamespace (ns : Val) : Prop :=
  IsA b quads ns "Namespace" ∧ ∃ l ∈ productionLabels, Asserts quads ns (k8s "label") (plain l)

def InProduction (w : Val) : Prop :=
  IsA b quads w "Workload" ∧ ∃ ns, Asserts quads w (k8s "inNamespace") ns ∧ ProductionNamespace b quads ns

/-- The text of a report about a vulnerability. -/
def CveMessage (d v m : Val) : Prop :=
  ∃ td tv, b.fullStr d = some td ∧ b.fullStr v = some tv ∧ Spells b [.const td, plain " vulnerable to ", .const tv] m

/-- The workload runs something with a severe vulnerability. -/
def RunsVulnerable (w m : Val) : Prop :=
  ∃ d v r, Runs quads w d ∧ Vulnerable b quads d v ∧ Ranked quads v r ∧ b.atLeast r (.const (numeral 3)) = true ∧
    CveMessage b d v m

/-- A number that is stated is more than one. -/
def SeveralReplicas (w : Val) : Prop := ∃ r, Asserts quads w (k8s "replicas") r ∧ b.less (.const (numeral 1)) r = true

/-- A zone in which a node runs the workload. -/
def SpreadsOver (w z : Val) : Prop :=
  ∃ n, Asserts quads w (k8s "scheduledOn") n ∧ Asserts quads n (k8s "inFailureDomain") z ∧
    Asserts quads z (k8s "domainKind") (plain "zone")

/-- A volume of the workload is on one node. -/
def PinnedVolume (w : Val) : Prop :=
  IsA b quads w "StatefulSet" ∧ ∃ pvc pv n, Asserts quads w (k8s "mounts") pvc ∧
    Asserts quads pvc (k8s "boundTo") pv ∧ Asserts quads pv (k8s "pinnedToNode") n

structure RoleGeneration (n role cl g : Val) : Prop where
  role : Asserts quads n (k8s "nodeRole") role
  cluster : Asserts quads n (k8s "inCluster") cl
  generation : Asserts quads n (k8s "hostGeneration") g

/-- Another node of the same role and cluster is of another generation. -/
def MixedGeneration (n : Val) : Prop :=
  ∃ role cl g m g', RoleGeneration quads n role cl g ∧ RoleGeneration quads m role cl g' ∧ g ≠ g'

/-- An account in a namespace that is not one of the system. -/
def OrdinaryAccount (sa : Val) : Prop :=
  IsA b quads sa "ServiceAccount" ∧ ∃ ns, Asserts quads sa (k8s "inNamespace") ns ∧
    ¬ (IsA b quads ns "Namespace" ∧ ∃ name, Asserts quads ns (k8s "name") name ∧
      b.strStarts name (plain "kube-") = true)

/-- A binding gives the permission, through its role and what that aggregates. -/
def Binds (bnd sa p : Val) : Prop :=
  Asserts quads bnd (k8s "subjectOf") sa ∧ ∃ r₀ r, Asserts quads bnd (k8s "grants") r₀ ∧
    ReflTransGen (Asserts quads · (k8s "aggregates") ·) r₀ r ∧ Asserts quads r (k8s "permits") p

def Permits (p : Val) (verb resource : String) : Prop :=
  Asserts quads p (k8s "verb") (plain verb) ∧ Asserts quads p (k8s "resource") (plain resource)

/-- A quad of the input states the triple in a graph. -/
def AssertsIn (g x : Val) (p : Iri) (y : Val) : Prop :=
  ∃ q, quads q ∧ g = .const (.iri q.g) ∧ x = .const q.s ∧ p = q.p ∧ y = .const q.o

/-- A typed reference within a graph. -/
def RefersIn (g x y : Val) : Prop := ∃ w ∈ K8s.refTerms, AssertsIn quads g x (k8s w) y

/-- The graph gives the resource a class. -/
def TypedIn (g y : Val) : Prop := ∃ c, AssertsIn quads g y rdfType c

/-- The verbs and resources that let an account read secrets. -/
def secretReads : List (String × String) := [("get", "secrets"), ("list", "secrets"), ("*", "secrets"), ("get", "*")]

def Signed (img : Val) : Prop := ∃ who, Asserts quads img (attest "verifiedBy") who

/-- What each policy forbids, one case a rule. -/
inductive Offends : String → Val → Prop
  | cve {w m : Val} : InProduction b quads w → RunsVulnerable b quads w m → Offends "cve-in-production" w
  | dangling {g x y m : Val} : IsA b quads g "Snapshot" → RefersIn quads g x y → ¬ TypedIn quads g y →
      (b.fullStr y).map .const = some m → Offends "dangling-reference" x
  | generation {n : Val} : MixedGeneration quads n → Offends "host-container-mismatch" n
  | kernel {n v : Val} : Asserts quads n (k8s "kernelVersion") v → b.less v (plain "6.6") = true →
      Offends "host-container-mismatch" n
  | cpu {c : Val} : IsA b quads c "ContainerSpec" → (¬ ∃ x, Asserts quads c (k8s "limitsCpu") x) →
    Offends "missing-limits" c
  | memory {c : Val} : IsA b quads c "ContainerSpec" → (¬ ∃ x, Asserts quads c (k8s "limitsMemory") x) →
      Offends "missing-limits" c
  | owner {w : Val} : IsA b quads w "Workload" → IsTrue quads w "ownerUnknown" → Offends "missing-owner" w
  | budget {w : Val} : InProduction b quads w → SeveralReplicas b quads w →
      (¬ ∃ p, Asserts quads w (k8s "hasPDB") p) → Offends "no-pdb" w
  | admin {sa bnd p : Val} : OrdinaryAccount b quads sa → Binds quads bnd sa p → Permits quads p "*" "*" →
      Offends "privilege-path" sa
  | secrets {sa bnd p : Val} {verb resource : String} : OrdinaryAccount b quads sa →
    IsA b quads bnd "ClusterRoleBinding" →
      Binds quads bnd sa p → (verb, resource) ∈ secretReads → Permits quads p verb resource →
        Offends "privilege-path" sa
  | zone {w : Val} : SeveralReplicas b quads w → (∃! z, SpreadsOver quads w z) →
      ¬ IsTrue quads w "exemptSingleDomain" → Offends "single-failure-domain" w
  | volume {w : Val} : PinnedVolume b quads w → ¬ IsTrue quads w "exemptSingleDomain" →
    Offends "single-failure-domain" w
  | unresolved {c ref : Val} : Asserts quads c (k8s "unresolvedImage") ref → Offends "unresolved-image" c
  | unsigned {c img : Val} : (∃ other, Signed quads other) → Asserts quads c (k8s "runsImage") img →
      ¬ Signed quads img → Offends "unsigned-image" img

end Meaning

theorem numeral_inj {m n : Nat} (h : numeral m = numeral n) : m = n := Text.toString_inj (Term.literal.inj h).1

section Rules

variable {b : Builtins} {quads : Quad → Prop}

/-! ## Classes and flags -/

theorem class_iff {p : Pred} {c : String} (h : (k8sWithDeps b).rulesFor p = [narrowTo p rdfType (iri (k8s c))])
    (hp : p ≠ .raw) {x : Val} : (k8sWithDeps b).Derived quads ⟨p, [x]⟩ ↔ IsA b quads x c :=
  (k8sWithDeps b).narrowTo_iff h hp

variable (hsub : NoSubProperty quads)

include hsub

theorem true_iff {p : Pred} {w : String} (h : (k8sWithDeps b).rulesFor p = [narrowTo p (k8s w) yes]) (hp : p ≠ .raw)
    (hw : k8s w ∈ statedProps) {x : Val} :
    (k8sWithDeps b).Derived quads ⟨p, [x]⟩ ↔ IsTrue quads x w :=
  ((k8sWithDeps b).narrowTo_iff h hp).trans (stated_iff hsub hw)

theorem any_iff {p : Pred} {w : String} (h : (k8sWithDeps b).rulesFor p = [narrowAny p (k8s w)]) (hp : p ≠ .raw)
    (hw : k8s w ∈ statedProps) {x : Val} :
    (k8sWithDeps b).Derived quads ⟨p, [x]⟩ ↔ ∃ y, Asserts quads x (k8s w) y := by
  rw [(k8sWithDeps b).narrowAny_iff h hp]
  simp only [stated_iff hsub hw]

/-! ## Workloads in production -/

theorem prodNs_iff {ns : Val} : (k8sWithDeps b).Derived quads ⟨.prodNs, [ns]⟩ ↔ ProductionNamespace b quads ns := by
  have hclass : ∀ x, (k8sWithDeps b).Derived quads ⟨.kNamespace, [x]⟩ ↔ IsA b quads x "Namespace" :=
    fun x => class_iff rfl (by simp)
  have hlabel : ∀ x y, (k8sWithDeps b).Derived quads ⟨.kLabel, [x, y]⟩ ↔ Asserts quads x (k8s "label") y :=
    fun x y => narrow_stated hsub rfl (by simp) (by simp [statedProps])
  have hrules : (k8sWithDeps b).rulesFor .prodNs = productionLabels.map fun l =>
    clause (atom .prodNs [var "ns"]) [atom .kNamespace [var "ns"], atom .kLabel [var "ns", str l]] := rfl
  rw [(k8sWithDeps b).derived_iff (by simp), hrules]
  simp only [List.mem_map, exists_exists_and_eq_and, clause_derives, List.forall_mem_cons,
    Datalog.Literal.holds_pos, ground_atom, List.map_cons, List.map_nil, ground_var, ground_str, hclass,
    hlabel, Datalog.Fact.mk.injEq, List.cons.injEq, and_true, true_and]
  constructor
  · rintro ⟨l, hl, σ, ⟨hns, hlabelled, _⟩, rfl⟩
    exact ⟨hns, l, hl, hlabelled⟩
  · rintro ⟨hns, l, hl, hlabelled⟩
    exact ⟨l, hl, .of ns [], ⟨by simpa using hns, by simpa [plain] using hlabelled, by simp⟩, by simp⟩

theorem prodWorkload_iff {w : Val} : (k8sWithDeps b).Derived quads ⟨.prodWorkload, [w]⟩ ↔ InProduction b quads w := by
  have hclass : ∀ x, (k8sWithDeps b).Derived quads ⟨.kWorkload, [x]⟩ ↔ IsA b quads x "Workload" :=
    fun x => class_iff rfl (by simp)
  have hnamespace : ∀ x y, (k8sWithDeps b).Derived quads ⟨.kInNamespace, [x, y]⟩ ↔
      Asserts quads x (k8s "inNamespace") y :=
    fun x y => narrow_stated hsub rfl (by simp) (by simp [statedProps])
  rw [(k8sWithDeps b).derived_iff_one (p := .prodWorkload) rfl (by simp)]
  simp only [List.forall_mem_cons, Datalog.Literal.holds_pos, ground_atom, List.map_cons, List.map_nil,
    ground_var, hclass, hnamespace, prodNs_iff hsub, Datalog.Fact.mk.injEq, List.cons.injEq, and_true, true_and]
  constructor
  · rintro ⟨σ, ⟨hw, hns, hprod, _⟩, rfl⟩
    exact ⟨hw, σ "ns", hns, hprod⟩
  · rintro ⟨hw, ns, hns, hprod⟩
    exact ⟨.of ns [("w", w)], ⟨by simpa using hw, by simpa using hns, by simpa using hprod, by simp⟩, by simp⟩

theorem cveHit_iff {w m : Val} : (k8sWithDeps b).Derived quads ⟨.cveHit, [w, m]⟩ ↔
    InProduction b quads w ∧ RunsVulnerable b quads w m := by
  have hvulnerable : ∀ x y, (k8sWithDeps b).Derived quads ⟨.iVulnerableTo, [x, y]⟩ ↔ Vulnerable b quads x y :=
    fun x y => ((k8sWithDeps b).narrow_iff rfl (by simp)).trans (vulnerableTo_iff hsub)
  have hrank : ∀ x y, (k8sWithDeps b).Derived quads ⟨.iSeverityRank, [x, y]⟩ ↔ Ranked quads x y :=
    fun x y => ((k8sWithDeps b).narrow_iff rfl (by simp)).trans (severityRank_iff hsub)
  have hleast : ∀ x, (k8sWithDeps b).Derived quads ⟨.minSeverityRank, [x]⟩ ↔ x = .const (numeral 3) := by
    intro x
    rw [table_iff [()] (fun _ => [numeral 3]) rfl (by simp)]
    simp
  rw [(k8sWithDeps b).derived_iff_one (p := .cveHit) rfl (by simp)]
  simp only [holds, concatFull, List.forall_mem_cons, Datalog.Literal.holds_pos, Datalog.Literal.holds_test,
    ground_atom, List.map_cons, List.map_nil, ground_var, prodWorkload_iff hsub, running_iff hsub, hvulnerable,
    hrank, hleast, Datalog.Fact.mk.injEq, List.cons.injEq, and_true, true_and]
  constructor
  · rintro ⟨σ, ⟨hw, hruns, hvuln, hr, hmin, ⟨r, min, ⟨rfl, rfl⟩, hsevere⟩,
      ⟨u, d, v, td, tv, ⟨rfl, rfl, rfl⟩, hd, hv, htext⟩, _⟩, rfl, rfl⟩
    exact ⟨hw, _, _, _, hruns, hvuln, hr, hmin ▸ hsevere, td, tv, hd, hv, htext⟩
  · rintro ⟨hw, d, v, r, hruns, hvuln, hr, hsevere, td, tv, hd, hv, htext⟩
    refine ⟨.of m [("w", w), ("d", d), ("vuln", v), ("r", r), ("min", .const (numeral 3))],
      ⟨?_, ?_, ?_, ?_, by simp, ⟨_, _, ⟨rfl, rfl⟩, ?_⟩, ⟨_, _, _, td, tv, ⟨rfl, rfl, rfl⟩, ?_, ?_, ?_⟩, by simp⟩,
      by simp⟩
    · simpa using hw
    · simpa using hruns
    · simpa using hvuln
    · simpa using hr
    · simpa using hsevere
    · simpa using hd
    · simpa using hv
    · simpa [Spells, plain] using htext

/-! ## Hosts -/

theorem genMismatch_iff {n : Val} : (k8sWithDeps b).Derived quads ⟨.genMismatch, [n]⟩ ↔ MixedGeneration quads n := by
  have hrole : ∀ x y, (k8sWithDeps b).Derived quads ⟨.kNodeRole, [x, y]⟩ ↔ Asserts quads x (k8s "nodeRole") y :=
    fun x y => narrow_stated hsub rfl (by simp) (by simp [statedProps])
  have hcluster : ∀ x y, (k8sWithDeps b).Derived quads ⟨.kInCluster, [x, y]⟩ ↔ Asserts quads x (k8s "inCluster") y :=
    fun x y => narrow_stated hsub rfl (by simp) (by simp [statedProps])
  have hgeneration : ∀ x y, (k8sWithDeps b).Derived quads ⟨.kHostGeneration, [x, y]⟩ ↔
      Asserts quads x (k8s "hostGeneration") y :=
    fun x y => narrow_stated hsub rfl (by simp) (by simp [statedProps])
  have hroleGen : ∀ x r cl g, (k8sWithDeps b).Derived quads ⟨.roleGen, [x, r, cl, g]⟩ ↔
      RoleGeneration quads x r cl g := by
    intro x r cl g
    rw [(k8sWithDeps b).derived_iff_one (p := .roleGen) rfl (by simp)]
    simp only [List.forall_mem_cons, Datalog.Literal.holds_pos, ground_atom, List.map_cons, List.map_nil,
      ground_var, hrole, hcluster, hgeneration, Datalog.Fact.mk.injEq, List.cons.injEq, and_true, true_and]
    constructor
    · rintro ⟨σ, ⟨hr, hcl, hg, _⟩, rfl, rfl, rfl, rfl⟩
      exact ⟨hr, hcl, hg⟩
    · rintro ⟨hr, hcl, hg⟩
      exact ⟨.of g [("n", x), ("role", r), ("cl", cl)],
        ⟨by simpa using hr, by simpa using hcl, by simpa using hg, by simp⟩, by simp⟩
  rw [(k8sWithDeps b).derived_iff_one (p := .genMismatch) rfl (by simp)]
  simp only [ne, List.forall_mem_cons, Datalog.Literal.holds_pos, Datalog.Literal.holds_test, ground_atom,
    List.map_cons, List.map_nil, ground_var, hroleGen, Datalog.Fact.mk.injEq, List.cons.injEq, and_true, true_and]
  constructor
  · rintro ⟨σ, ⟨hn, hm, ⟨g, g', ⟨rfl, rfl⟩, hne⟩, _⟩, rfl⟩
    exact ⟨_, _, _, _, _, hn, hm, hne⟩
  · rintro ⟨r, cl, g, m, g', hn, hm, hne⟩
    refine ⟨.of g' [("n", n), ("role", r), ("cl", cl), ("g1", g), ("m", m)],
      ⟨?_, ?_, ⟨_, _, ⟨rfl, rfl⟩, ?_⟩, by simp⟩, by simp⟩
    · simpa using hn
    · simpa using hm
    · simpa using hne

theorem oldKernel_iff {n : Val} : (k8sWithDeps b).Derived quads ⟨.oldKernel, [n]⟩ ↔
    ∃ v, Asserts quads n (k8s "kernelVersion") v ∧ b.less v (plain "6.6") = true := by
  have hkernel : ∀ x y, (k8sWithDeps b).Derived quads ⟨.kKernelVersion, [x, y]⟩ ↔
      Asserts quads x (k8s "kernelVersion") y :=
    fun x y => narrow_stated hsub rfl (by simp) (by simp [statedProps])
  have hleast : ∀ x, (k8sWithDeps b).Derived quads ⟨.minKernel, [x]⟩ ↔ x = plain "6.6" := by
    intro x
    rw [table_iff [()] (fun _ => [.literal "6.6" (xsd "string")]) rfl (by simp)]
    simp [plain]
  rw [(k8sWithDeps b).derived_iff_one (p := .oldKernel) rfl (by simp)]
  simp only [holds, List.forall_mem_cons, Datalog.Literal.holds_pos, Datalog.Literal.holds_test, ground_atom,
    List.map_cons, List.map_nil, ground_var, hkernel, hleast, Datalog.Fact.mk.injEq, List.cons.injEq,
    and_true, true_and]
  constructor
  · rintro ⟨σ, ⟨hv, hmin, ⟨v, min, ⟨rfl, rfl⟩, hless⟩, _⟩, rfl⟩
    exact ⟨_, hv, hmin ▸ hless⟩
  · rintro ⟨v, hv, hless⟩
    exact ⟨.of v [("n", n), ("min", plain "6.6")],
      ⟨by simpa using hv, by simp, ⟨_, _, ⟨rfl, rfl⟩, by simpa using hless⟩, by simp⟩,
      by simp⟩

/-! ## Accounts -/

theorem userSa_iff {sa : Val} : (k8sWithDeps b).Derived quads ⟨.userSa, [sa]⟩ ↔ OrdinaryAccount b quads sa := by
  have hclass : ∀ x, (k8sWithDeps b).Derived quads ⟨.kNamespace, [x]⟩ ↔ IsA b quads x "Namespace" :=
    fun x => class_iff rfl (by simp)
  have haccount : ∀ x, (k8sWithDeps b).Derived quads ⟨.kServiceAccount, [x]⟩ ↔ IsA b quads x "ServiceAccount" :=
    fun x => class_iff rfl (by simp)
  have hname : ∀ x y, (k8sWithDeps b).Derived quads ⟨.kName, [x, y]⟩ ↔ Asserts quads x (k8s "name") y :=
    fun x y => narrow_stated hsub rfl (by simp) (by simp [statedProps])
  have hnamespace : ∀ x y, (k8sWithDeps b).Derived quads ⟨.kInNamespace, [x, y]⟩ ↔
      Asserts quads x (k8s "inNamespace") y :=
    fun x y => narrow_stated hsub rfl (by simp) (by simp [statedProps])
  have hsystem : ∀ ns, (k8sWithDeps b).Derived quads ⟨.systemNs, [ns]⟩ ↔
      IsA b quads ns "Namespace" ∧ ∃ name, Asserts quads ns (k8s "name") name ∧
        b.strStarts name (plain "kube-") = true := by
    intro ns
    rw [(k8sWithDeps b).derived_iff_one (p := .systemNs) rfl (by simp)]
    simp only [holds, List.forall_mem_cons, Datalog.Literal.holds_pos, Datalog.Literal.holds_test, ground_atom,
      List.map_cons, List.map_nil, ground_var, ground_str, hclass, hname, Datalog.Fact.mk.injEq,
      List.cons.injEq, and_true, true_and]
    constructor
    · rintro ⟨σ, ⟨hns, hn, ⟨x, y, ⟨rfl, rfl⟩, hstarts⟩, _⟩, rfl⟩
      exact ⟨hns, _, hn, hstarts⟩
    · rintro ⟨hns, name, hn, hstarts⟩
      exact ⟨.of name [("ns", ns)],
        ⟨by simpa using hns, by simpa using hn, ⟨_, _, ⟨rfl, rfl⟩, by simpa [plain] using hstarts⟩, by simp⟩,
        by simp⟩
  rw [(k8sWithDeps b).derived_iff_one (p := .userSa) rfl (by simp)]
  simp only [List.forall_mem_cons, Datalog.Literal.holds_pos, Datalog.Literal.holds_neg, ground_atom,
    List.map_cons, List.map_nil, ground_var, haccount, hnamespace, hsystem, Datalog.Fact.mk.injEq,
    List.cons.injEq, and_true, true_and]
  constructor
  · rintro ⟨σ, ⟨hsa, hns, hordinary, _⟩, rfl⟩
    exact ⟨hsa, _, hns, hordinary⟩
  · rintro ⟨hsa, ns, hns, hordinary⟩
    exact ⟨.of ns [("sa", sa)], ⟨by simpa using hsa, by simpa using hns, by simpa using hordinary, by simp⟩, by simp⟩

theorem roleOf_iff {bnd r : Val} : (k8sWithDeps b).Derived quads ⟨.roleOf, [bnd, r]⟩ ↔
    ∃ r₀, Asserts quads bnd (k8s "grants") r₀ ∧ ReflTransGen (Asserts quads · (k8s "aggregates") ·) r₀ r := by
  have hgrants : ∀ x y, (k8sWithDeps b).Derived quads ⟨.kGrants, [x, y]⟩ ↔ Asserts quads x (k8s "grants") y :=
    fun x y => narrow_stated hsub rfl (by simp) (by simp [statedProps])
  have haggregates : ∀ x y, (k8sWithDeps b).Derived quads ⟨.kAggregates, [x, y]⟩ ↔
      Asserts quads x (k8s "aggregates") y :=
    fun x y => narrow_stated hsub rfl (by simp) (by simp [statedProps])
  have hrules : (k8sWithDeps b).rulesFor .roleOf =
    [clause (atom .roleOf [var "b", var "r"]) [atom .kGrants [var "b", var "r"]],
      clause (atom .roleOf [var "b", var "r2"]) [atom .roleOf [var "b", var "r"],
        atom .kAggregates [var "r", var "r2"]]] := rfl
  have hone : ∀ {bnd r : Val}, (k8sWithDeps b).Derived quads ⟨.roleOf, [bnd, r]⟩ ↔
    Asserts quads bnd (k8s "grants") r ∨
      ∃ r', (k8sWithDeps b).Derived quads ⟨.roleOf, [bnd, r']⟩ ∧ Asserts quads r' (k8s "aggregates") r := by
    intro bnd r
    rw [(k8sWithDeps b).derived_iff (by simp), hrules]
    simp only [List.mem_cons, List.not_mem_nil, or_false, exists_eq_or_imp, exists_eq_left]
    simp only [clause_derives, List.forall_mem_cons, Datalog.Literal.holds_pos, ground_atom, List.map_cons,
      List.map_nil, ground_var, hgrants, haggregates, Datalog.Fact.mk.injEq, List.cons.injEq, and_true,
      true_and]
    constructor
    · rintro (⟨σ, ⟨hg, _⟩, rfl, rfl⟩ | ⟨σ, ⟨hrole, hagg, _⟩, rfl, rfl⟩)
      · exact .inl hg
      · exact .inr ⟨_, hrole, hagg⟩
    · rintro (hg | ⟨r', hrole, hagg⟩)
      · exact .inl ⟨.of r [("b", bnd)], ⟨by simpa using hg, by simp⟩, by simp⟩
      · exact .inr ⟨.of r' [("b", bnd), ("r2", r)], ⟨by simpa using hrole, by simpa using hagg, by simp⟩, by simp⟩
  constructor
  · intro h
    refine (k8sWithDeps b).induction_for (p := .roleOf) (by simp) (motive := fun args => ∀ bnd r, args = [bnd, r] →
      ∃ r₀, Asserts quads bnd (k8s "grants") r₀ ∧ ReflTransGen (Asserts quads · (k8s "aggregates") ·) r₀ r)
        ?_ h bnd r rfl
    rw [hrules]
    simp only [List.forall_mem_cons, List.not_mem_nil, false_implies, implies_true, and_true]
    constructor
    · intro σ hbody _ a ha _ bnd r hargs
      cases List.mem_singleton.mp ha
      have hgranted := hbody _ List.mem_cons_self
      simp only [Datalog.Literal.holds_pos, ground_atom, List.map_cons, List.map_nil, ground_var, hgrants] at hgranted
      simp only [ground_atom, List.map_cons, List.map_nil, ground_var, List.cons.injEq, and_true] at hargs
      exact ⟨_, hargs.1 ▸ hargs.2 ▸ hgranted, .refl⟩
    · intro σ hbody hih a ha _ bnd r hargs
      cases List.mem_singleton.mp ha
      have hagg := hbody _ (List.mem_cons_of_mem _ List.mem_cons_self)
      simp only [Datalog.Literal.holds_pos, ground_atom, List.map_cons, List.map_nil, ground_var, haggregates] at hagg
      simp only [ground_atom, List.map_cons, List.map_nil, ground_var, List.cons.injEq, and_true] at hargs
      obtain ⟨r₀, hr₀, hreach⟩ := hih _ List.mem_cons_self rfl (σ "b") (σ "r") (by simp)
      exact ⟨r₀, hargs.1 ▸ hr₀, hargs.2 ▸ hreach.tail hagg⟩
  · rintro ⟨r₀, hr₀, hreach⟩
    induction hreach with
    | refl => exact hone.mpr (.inl hr₀)
    | tail _ hagg ih => exact hone.mpr (.inr ⟨_, ih, hagg⟩)

/-- What the body of a rule asks of a binding. -/
theorem binds_iff {bnd sa p : Val} : Binds quads bnd sa p ↔ (k8sWithDeps b).Derived quads ⟨.kSubjectOf, [bnd, sa]⟩ ∧
    ∃ r, (k8sWithDeps b).Derived quads ⟨.roleOf, [bnd, r]⟩ ∧ (k8sWithDeps b).Derived quads ⟨.kPermits, [r, p]⟩ := by
  have hsubject : ∀ x y, (k8sWithDeps b).Derived quads ⟨.kSubjectOf, [x, y]⟩ ↔ Asserts quads x (k8s "subjectOf") y :=
    fun x y => narrow_stated hsub rfl (by simp) (by simp [statedProps])
  have hpermits : ∀ x y, (k8sWithDeps b).Derived quads ⟨.kPermits, [x, y]⟩ ↔ Asserts quads x (k8s "permits") y :=
    fun x y => narrow_stated hsub rfl (by simp) (by simp [statedProps])
  simp only [hsubject, hpermits, roleOf_iff hsub, Binds]
  constructor
  · rintro ⟨hof, r₀, r, hr₀, hreach, hp⟩
    exact ⟨hof, r, ⟨r₀, hr₀, hreach⟩, hp⟩
  · rintro ⟨hof, r, ⟨r₀, hr₀, hreach⟩, hp⟩
    exact ⟨hof, r₀, r, hr₀, hreach, hp⟩

theorem effPerm_iff {sa p : Val} : (k8sWithDeps b).Derived quads ⟨.effPerm, [sa, p]⟩ ↔
    ∃ bnd, Binds quads bnd sa p := by
  rw [(k8sWithDeps b).derived_iff_one (p := .effPerm) rfl (by simp)]
  simp only [binds_iff (b := b) hsub, List.forall_mem_cons, Datalog.Literal.holds_pos, ground_atom,
    List.map_cons, List.map_nil, ground_var, Datalog.Fact.mk.injEq, List.cons.injEq, and_true, true_and]
  constructor
  · rintro ⟨σ, ⟨hof, hrole, hp, _⟩, rfl, rfl⟩
    exact ⟨_, hof, _, hrole, hp⟩
  · rintro ⟨bnd, hof, r, hrole, hp⟩
    exact ⟨.of r [("b", bnd), ("subj", sa), ("perm", p)],
      ⟨by simpa using hof, by simpa using hrole, by simpa using hp, by simp⟩,
      by simp⟩

theorem clusterWide_iff {sa p : Val} : (k8sWithDeps b).Derived quads ⟨.clusterWide, [sa, p]⟩ ↔
    ∃ bnd, IsA b quads bnd "ClusterRoleBinding" ∧ Binds quads bnd sa p := by
  have hclass : ∀ x, (k8sWithDeps b).Derived quads ⟨.kClusterRoleBinding, [x]⟩ ↔ IsA b quads x "ClusterRoleBinding" :=
    fun x => class_iff rfl (by simp)
  rw [(k8sWithDeps b).derived_iff_one (p := .clusterWide) rfl (by simp)]
  simp only [binds_iff (b := b) hsub, List.forall_mem_cons, Datalog.Literal.holds_pos, ground_atom,
    List.map_cons, List.map_nil, ground_var, hclass, Datalog.Fact.mk.injEq, List.cons.injEq, and_true, true_and]
  constructor
  · rintro ⟨σ, ⟨hbnd, hof, hrole, hp, _⟩, rfl, rfl⟩
    exact ⟨_, hbnd, hof, _, hrole, hp⟩
  · rintro ⟨bnd, hbnd, hof, r, hrole, hp⟩
    exact ⟨.of r [("b", bnd), ("sa", sa), ("perm", p)],
      ⟨by simpa using hbnd, by simpa using hof, by simpa using hrole, by simpa using hp, by simp⟩, by simp⟩

theorem allows_iff {k : Pred} {verb resource : String} {body : List DLiteral} {p : Val}
    (hbody : body = [atom .kVerb [var "p", str verb], atom .kResource [var "p", str resource]] ∨
      body = [atom .kResource [var "p", str resource], atom .kVerb [var "p", str verb]]) :
    (clause (atom k [var "p"]) body).Derives ((k8sWithDeps b).Derived quads) ⟨k, [p]⟩ ↔
      Permits quads p verb resource := by
  have hverb : ∀ x y, (k8sWithDeps b).Derived quads ⟨.kVerb, [x, y]⟩ ↔ Asserts quads x (k8s "verb") y :=
    fun x y => narrow_stated hsub rfl (by simp) (by simp [statedProps])
  have hresource : ∀ x y, (k8sWithDeps b).Derived quads ⟨.kResource, [x, y]⟩ ↔ Asserts quads x (k8s "resource") y :=
    fun x y => narrow_stated hsub rfl (by simp) (by simp [statedProps])
  have hall : ∀ σ : Datalog.Valuation Nix2Rdf.Term, (∀ l ∈ body, l.Holds ((k8sWithDeps b).Derived quads) σ) ↔
      Permits quads (σ "p") verb resource := by
    intro σ
    rcases hbody with rfl | rfl
    · simp [hverb, hresource, Permits, plain]
    · simp [hverb, hresource, Permits, plain, and_comm]
  rw [clause_derives]
  simp only [hall, ground_atom, List.map_cons, List.map_nil, ground_var, Datalog.Fact.mk.injEq, List.cons.injEq,
    and_true, true_and]
  constructor
  · rintro ⟨σ, h, rfl⟩
    exact h
  · exact fun h => ⟨.of p [], by simpa using h, by simp⟩

theorem adminPerm_iff {p : Val} : (k8sWithDeps b).Derived quads ⟨.adminPerm, [p]⟩ ↔ Permits quads p "*" "*" := by
  have hrules : (k8sWithDeps b).rulesFor .adminPerm =
    [clause (atom .adminPerm [var "p"]) [atom .kVerb [var "p", str "*"], atom .kResource [var "p", str "*"]]] := rfl
  rw [(k8sWithDeps b).derived_iff (by simp), hrules]
  simp only [List.mem_singleton, exists_eq_left]
  exact allows_iff hsub (.inl rfl)

theorem secretRead_iff {p : Val} : (k8sWithDeps b).Derived quads ⟨.secretRead, [p]⟩ ↔
    ∃ vr ∈ secretReads, Permits quads p vr.1 vr.2 := by
  have hrules : (k8sWithDeps b).rulesFor .secretRead = secretReads.map fun vr =>
    clause (atom .secretRead [var "p"]) [atom .kResource [var "p", str vr.2], atom .kVerb [var "p", str vr.1]] := rfl
  rw [(k8sWithDeps b).derived_iff (by simp), hrules]
  simp only [List.mem_map, exists_exists_and_eq_and]
  exact exists_congr fun vr => and_congr_right fun _ => allows_iff hsub (.inr rfl)

/-! ## Zones and volumes -/

theorem domainCount_iff {w : Val} : (k8sWithDeps b).Derived quads ⟨.domainCount, [w, .const (numeral 1)]⟩ ↔
    ∃! z, SpreadsOver quads w z := by
  have hscheduled : ∀ x y, (k8sWithDeps b).Derived quads ⟨.kScheduledOn, [x, y]⟩ ↔
      Asserts quads x (k8s "scheduledOn") y :=
    fun x y => narrow_stated hsub rfl (by simp) (by simp [statedProps])
  have hdomain : ∀ x y, (k8sWithDeps b).Derived quads ⟨.kInFailureDomain, [x, y]⟩ ↔
      Asserts quads x (k8s "inFailureDomain") y :=
    fun x y => narrow_stated hsub rfl (by simp) (by simp [statedProps])
  have hkind : ∀ x y, (k8sWithDeps b).Derived quads ⟨.kDomainKind, [x, y]⟩ ↔ Asserts quads x (k8s "domainKind") y :=
    fun x y => narrow_stated hsub rfl (by simp) (by simp [statedProps])
  have hzone : ∀ z, (k8sWithDeps b).Derived quads ⟨.zone, [z]⟩ ↔ Asserts quads z (k8s "domainKind")
      (plain "zone") := by
    intro z
    rw [(k8sWithDeps b).derived_iff_one (p := .zone) rfl (by simp)]
    simp only [List.forall_mem_cons, Datalog.Literal.holds_pos, ground_atom, List.map_cons, List.map_nil,
      ground_var, ground_str, hkind, Datalog.Fact.mk.injEq, List.cons.injEq, and_true, true_and]
    constructor
    · rintro ⟨σ, ⟨hz, _⟩, rfl⟩
      exact hz
    · exact fun hz => ⟨.of z [], ⟨by simpa [plain] using hz, by simp⟩, by simp⟩
  have hspread : ∀ w z, (k8sWithDeps b).Derived quads ⟨.spread, [w, z]⟩ ↔ SpreadsOver quads w z := by
    intro w z
    rw [(k8sWithDeps b).derived_iff_one (p := .spread) rfl (by simp)]
    simp only [List.forall_mem_cons, Datalog.Literal.holds_pos, ground_atom, List.map_cons, List.map_nil,
      ground_var, hscheduled, hdomain, hzone, Datalog.Fact.mk.injEq, List.cons.injEq, and_true, true_and]
    constructor
    · rintro ⟨σ, ⟨hn, hd, hz, _⟩, rfl, rfl⟩
      exact ⟨_, hn, hd, hz⟩
    · rintro ⟨n, hn, hd, hz⟩
      exact ⟨.of n [("w", w), ("d", z)], ⟨by simpa using hn, by simpa using hd, by simpa using hz, by simp⟩, by simp⟩
  have hcount : ∀ σ : Datalog.Valuation Nix2Rdf.Term,
    (Datalog.Literal.count numeral "c" "d" (atom .spread [var "w", var "d"])).Holds
      ((k8sWithDeps b).Derived quads) σ ↔ σ "c" = .const (numeral {z | SpreadsOver quads (σ "w") z}.ncard) := by
    intro σ
    simp [Datalog.Literal.Holds, Datalog.Literal.Side, hspread]
  rw [(k8sWithDeps b).derived_iff_one (p := .domainCount) rfl (by simp)]
  simp only [hcount, List.forall_mem_cons, List.not_mem_nil, false_implies, implies_true,
    Datalog.Literal.holds_pos, ground_atom, List.map_cons, List.map_nil, ground_var, hspread,
    Datalog.Fact.mk.injEq, List.cons.injEq, and_true, true_and]
  constructor
  · rintro ⟨σ, ⟨_, hcard⟩, rfl, hone⟩
    have hcard : {z | SpreadsOver quads (σ "w") z}.ncard = 1 :=
      numeral_inj (Datalog.Value.const.inj (hcard.symm.trans hone))
    obtain ⟨z, hz⟩ := Set.ncard_eq_one.mp hcard
    have hmem : ∀ y, SpreadsOver quads (σ "w") y ↔ y = z := by
      intro y
      rw [← Set.mem_singleton_iff, ← hz]
      rfl
    exact ⟨z, (hmem z).mpr rfl, fun y hy => (hmem y).mp hy⟩
  · rintro ⟨z, hz, hunique⟩
    have hset : {y | SpreadsOver quads w y} = {z} := Set.eq_singleton_iff_unique_mem.mpr ⟨hz, hunique⟩
    refine ⟨.of z [("w", w), ("c", .const (numeral 1))], ⟨by simpa using hz, ?_⟩, by simp⟩
    simp [hset]

theorem pinnedVolume_iff {w : Val} : (k8sWithDeps b).Derived quads ⟨.pinnedVolume, [w]⟩ ↔ PinnedVolume b quads w := by
  have hclass : ∀ x, (k8sWithDeps b).Derived quads ⟨.kStatefulSet, [x]⟩ ↔ IsA b quads x "StatefulSet" :=
    fun x => class_iff rfl (by simp)
  have hmounts : ∀ x y, (k8sWithDeps b).Derived quads ⟨.kMounts, [x, y]⟩ ↔ Asserts quads x (k8s "mounts") y :=
    fun x y => narrow_stated hsub rfl (by simp) (by simp [statedProps])
  have hbound : ∀ x y, (k8sWithDeps b).Derived quads ⟨.kBoundTo, [x, y]⟩ ↔ Asserts quads x (k8s "boundTo") y :=
    fun x y => narrow_stated hsub rfl (by simp) (by simp [statedProps])
  have hpinned : ∀ x y, (k8sWithDeps b).Derived quads ⟨.kPinnedToNode, [x, y]⟩ ↔
      Asserts quads x (k8s "pinnedToNode") y :=
    fun x y => narrow_stated hsub rfl (by simp) (by simp [statedProps])
  rw [(k8sWithDeps b).derived_iff_one (p := .pinnedVolume) rfl (by simp)]
  simp only [List.forall_mem_cons, Datalog.Literal.holds_pos, ground_atom, List.map_cons, List.map_nil,
    ground_var, hclass, hmounts, hbound, hpinned, Datalog.Fact.mk.injEq, List.cons.injEq, and_true, true_and]
  constructor
  · rintro ⟨σ, ⟨hw, hm, hv, hn, _⟩, rfl⟩
    exact ⟨hw, _, _, _, hm, hv, hn⟩
  · rintro ⟨hw, pvc, pv, n, hm, hv, hn⟩
    exact ⟨.of n [("w", w), ("pvc", pvc), ("pv", pv)],
      ⟨by simpa using hw, by simpa using hm, by simpa using hv, by simpa using hn, by simp⟩, by simp⟩

/-! ## Attestations -/

theorem signed_iff {img : Val} : (k8sWithDeps b).Derived quads ⟨.signed, [img]⟩ ↔ Signed quads img := by
  have hverified : ∀ x y, (k8sWithDeps b).Derived quads ⟨.t, [x, .const (.iri (attest "verifiedBy")), y]⟩ ↔
      Asserts quads x (attest "verifiedBy") y := fun x y => stated_iff hsub (by simp [statedProps])
  rw [(k8sWithDeps b).derived_iff_one (p := .signed) rfl (by simp)]
  simp only [List.forall_mem_cons, Datalog.Literal.holds_pos, ground_atom, ground_tr, List.map_cons,
    List.map_nil, ground_var, hverified, Datalog.Fact.mk.injEq, List.cons.injEq, and_true, true_and]
  constructor
  · rintro ⟨σ, ⟨hwho, _⟩, rfl⟩
    exact ⟨_, hwho⟩
  · rintro ⟨who, hwho⟩
    exact ⟨.of who [("img", img)], ⟨by simpa using hwho, by simp⟩, by simp⟩

theorem attestationsLoaded_iff {x : Val} : (k8sWithDeps b).Derived quads ⟨.attestationsLoaded, [x]⟩ ↔
    x = .const (numeral 1) ∧ ∃ img, Signed quads img := by
  rw [(k8sWithDeps b).derived_iff_one (p := .attestationsLoaded) rfl (by simp)]
  simp only [List.forall_mem_cons, Datalog.Literal.holds_pos, ground_atom, List.map_cons, List.map_nil,
    ground_var, signed_iff hsub, Datalog.Fact.mk.injEq, List.cons.injEq, and_true, true_and]
  constructor
  · rintro ⟨σ, ⟨himg, _⟩, hone⟩
    exact ⟨hone.symm, _, himg⟩
  · rintro ⟨rfl, img, himg⟩
    exact ⟨.of img [], ⟨by simpa using himg, by simp⟩, rfl⟩

end Rules

/-! ## Reports -/

/-- A rule that reports violations. -/
structure Report where
  name : String
  policy : String
  subject : String
  more : List DAtom
  body : List DLiteral

def Report.rule (e : Report) : DRule := violation e.name e.policy (var e.subject) e.more e.body

section Reports

variable (b : Builtins)

def reports : List Report :=
  [⟨"cve", "cve-in-production", "w", [message (var "msg")], [atom .cveHit [var "w", var "msg"]]⟩,
    ⟨"dangling", "dangling-reference", "from", [ou (var "v") (nix "inSnapshot") (var "s"), message (var "msg")],
      [atom .dangling [var "s", var "from", var "msg"]]⟩,
    ⟨"generation", "host-container-mismatch", "n",
      [message (str "generation differs from a node with the same role")], [atom .genMismatch [var "n"]]⟩,
    ⟨"kernel", "host-container-mismatch", "n", [message (str "kernel below minimum")], [atom .oldKernel [var "n"]]⟩,
    ⟨"limits-cpu", "missing-limits", "c", [], [atom .kContainer [var "c"], .neg (atom .kLimitsCpu [var "c"])]⟩,
    ⟨"limits-memory", "missing-limits", "c", [], [atom .kContainer [var "c"], .neg (atom .kLimitsMemory [var "c"])]⟩,
    ⟨"owner", "missing-owner", "w", [], [atom .kWorkload [var "w"], atom .kOwnerUnknown [var "w"]]⟩,
    ⟨"pdb", "no-pdb", "w", [],
      [atom .prodWorkload [var "w"], atom .kReplicas [var "w", var "r"], holds b.less (int 1) (var "r"),
        .neg (atom .hasPdb [var "w"])]⟩,
    ⟨"admin", "privilege-path", "sa", [message (str "cluster-admin-equivalent")],
      [atom .userSa [var "sa"], atom .effPerm [var "sa", var "p"], atom .adminPerm [var "p"]]⟩,
    ⟨"secrets", "privilege-path", "sa", [message (str "reads secrets cluster-wide")],
      [atom .userSa [var "sa"], atom .clusterWide [var "sa", var "p"], atom .secretRead [var "p"]]⟩,
    ⟨"zone", "single-failure-domain", "w", [],
      [atom .kReplicas [var "w", var "r"], holds b.less (int 1) (var "r"), atom .domainCount [var "w", int 1],
        .neg (atom .kExempt [var "w"])]⟩,
    ⟨"volume", "single-failure-domain", "w", [message (str "volume pinned to a node")],
      [atom .pinnedVolume [var "w"], .neg (atom .kExempt [var "w"])]⟩,
    ⟨"unresolved", "unresolved-image", "c", [message (var "ref")], [atom .kUnresolvedImage [var "c", var "ref"]]⟩,
    ⟨"unsigned", "unsigned-image", "img", [],
      [atom .attestationsLoaded [int 1], atom .kRunsImage [var "c", var "img"], .neg (atom .signed [var "img"])]⟩]

theorem violationRules_eq : violationRules b = (reports b).map Report.rule := rfl

theorem reports_without_null : ∀ e ∈ reports b, ∀ l ∈ e.body, ∀ x ∈ l.vars, x ∉ e.rule.nulls := by
  have hall : (reports b).all fun e => e.body.all fun l => l.vars.all fun x => x != "v" := rfl
  intro e he l hl x hx hnull
  have hne := List.all_eq_true.mp (List.all_eq_true.mp (List.all_eq_true.mp hall e he) l hl) x hx
  cases List.mem_singleton.mp hnull
  exact absurd hne (by simp)

variable {b} {quads : Quad → Prop}

theorem reports_for {e : Report} (he : e ∈ reports b) : ReportsFor e.rule e.policy e.subject e.more e.body := by
  have hmem : e.rule ∈ violationRules b := by
    rw [violationRules_eq]
    exact List.mem_map_of_mem he
  obtain ⟨policy, subject, more, body, _, hreports⟩ := violationRules_report b e.rule hmem
  have heq := hreports.eq
  simp only [Report.rule, violation, iri, var, ou, List.cons_append, List.nil_append, Datalog.Rule.mk.injEq,
    List.cons.injEq, Datalog.Atom.mk.injEq, Datalog.Term.const.injEq, Datalog.Term.var.injEq, Term.iri.injEq,
    String.append_right_inj, and_true, true_and] at heq
  obtain ⟨⟨rfl, rfl, rfl⟩, rfl⟩ := heq
  exact hreports

/-- A violation is reported exactly when the body of a report of the policy holds. -/
theorem reported_iff_fires {policy : String} {x : Val} : Reported b quads policy x ↔
    ∃ e ∈ reports b, e.policy = policy ∧
    ∃ σ, (∀ l ∈ e.body, l.Holds ((k8sWithDeps b).Derived quads) σ) ∧ σ e.subject = x := by
  rw [reported_iff]
  constructor
  · rintro ⟨r, hr, subject, more, body, hreports, σ, _, hbody, hx⟩
    rw [violationRules_eq] at hr
    obtain ⟨e, he, rfl⟩ := List.mem_map.mp hr
    obtain ⟨hpolicy, rfl, rfl⟩ := (reports_for he).unique hreports
    exact ⟨e, he, hpolicy, σ, hbody, hx⟩
  · rintro ⟨e, he, rfl, σ, hbody, rfl⟩
    have hmem : e.rule ∈ violationRules b := by
      rw [violationRules_eq]
      exact List.mem_map_of_mem he
    obtain ⟨τ, hfresh, hτ, hsame⟩ := Datalog.Rule.exists_fresh (r := e.rule) (reports_without_null b e he) hbody
    refine ⟨e.rule, hmem, e.subject, e.more, e.body, reports_for he, τ, hfresh, hτ, hsame e.subject fun hnull => ?_⟩
    exact (reports_for he).subject (List.mem_singleton.mp hnull)

end Reports

section Exact

variable {b : Builtins} {quads : Quad → Prop} (hsub : NoSubProperty quads)

include hsub

theorem hasPdb_iff {w : Val} : (k8sWithDeps b).Derived quads ⟨.hasPdb, [w]⟩ ↔
    ∃ p, Asserts quads w (k8s "hasPDB") p := by
  have hbudget : ∀ x y, (k8sWithDeps b).Derived quads ⟨.kHasPDB, [x, y]⟩ ↔ Asserts quads x (k8s "hasPDB") y :=
    fun x y => narrow_stated hsub rfl (by simp) (by simp [statedProps])
  rw [(k8sWithDeps b).derived_iff_one (p := .hasPdb) rfl (by simp)]
  simp only [List.forall_mem_cons, Datalog.Literal.holds_pos, ground_atom, List.map_cons, List.map_nil,
    ground_var, hbudget, Datalog.Fact.mk.injEq, List.cons.injEq, and_true, true_and]
  constructor
  · rintro ⟨σ, ⟨hp, _⟩, rfl⟩
    exact ⟨_, hp⟩
  · rintro ⟨p, hp⟩
    exact ⟨.of p [("w", w)], ⟨by simpa using hp, by simp⟩, by simp⟩

theorem several_iff {σ : Datalog.Valuation Nix2Rdf.Term} :
    (k8sWithDeps b).Derived quads ⟨.kReplicas, [σ "w", σ "r"]⟩ ∧
    (holds b.less (int 1) (var "r")).Holds ((k8sWithDeps b).Derived quads) σ ↔
      Asserts quads (σ "w") (k8s "replicas") (σ "r") ∧ b.less (.const (numeral 1)) (σ "r") = true := by
  have hreplicas : ∀ x y, (k8sWithDeps b).Derived quads ⟨.kReplicas, [x, y]⟩ ↔ Asserts quads x (k8s "replicas") y :=
    fun x y => narrow_stated hsub rfl (by simp) (by simp [statedProps])
  rw [hreplicas]
  refine and_congr_right fun _ => ?_
  simp only [holds, Datalog.Literal.holds_test, List.map_cons, List.map_nil, ground_var, List.cons.injEq, and_true]
  constructor
  · rintro ⟨x, y, ⟨rfl, rfl⟩, hless⟩
    exact hless
  · exact fun hless => ⟨_, _, ⟨rfl, rfl⟩, hless⟩

omit hsub in
theorem danglingFact_iff {g x m : Val} : (k8sWithDeps b).Derived quads ⟨.dangling, [g, x, m]⟩ ↔
    IsA b quads g "Snapshot" ∧ ∃ y, RefersIn quads g x y ∧ ¬ TypedIn quads g y ∧
      (b.fullStr y).map .const = some m := by
  have hclass : ∀ x, (k8sWithDeps b).Derived quads ⟨.kSnapshot, [x]⟩ ↔ IsA b quads x "Snapshot" :=
    fun x => class_iff rfl (by simp)
  simp only [dangling_iff, hclass, refIn_iff, typedIn_iff, (k8sWithDeps b).quad_iff, RefersIn, TypedIn, AssertsIn]

/-! ### Literals of the bodies -/

omit hsub in
theorem kContainer_iff {x : Val} : (k8sWithDeps b).Derived quads ⟨.kContainer, [x]⟩ ↔ IsA b quads x "ContainerSpec" :=
  class_iff rfl (by simp)

omit hsub in
theorem kWorkload_iff {x : Val} : (k8sWithDeps b).Derived quads ⟨.kWorkload, [x]⟩ ↔ IsA b quads x "Workload" :=
  class_iff rfl (by simp)

theorem kLimitsCpu_iff {x : Val} : (k8sWithDeps b).Derived quads ⟨.kLimitsCpu, [x]⟩ ↔
    ∃ y, Asserts quads x (k8s "limitsCpu") y :=
  any_iff hsub rfl (by simp) (by simp [statedProps])

theorem kLimitsMemory_iff {x : Val} :
    (k8sWithDeps b).Derived quads ⟨.kLimitsMemory, [x]⟩ ↔ ∃ y, Asserts quads x (k8s "limitsMemory") y :=
  any_iff hsub rfl (by simp) (by simp [statedProps])

theorem kOwnerUnknown_iff {x : Val} : (k8sWithDeps b).Derived quads ⟨.kOwnerUnknown, [x]⟩ ↔
    IsTrue quads x "ownerUnknown" :=
  true_iff hsub rfl (by simp) (by simp [statedProps])

theorem kExempt_iff {x : Val} : (k8sWithDeps b).Derived quads ⟨.kExempt, [x]⟩ ↔ IsTrue quads x "exemptSingleDomain" :=
  true_iff hsub rfl (by simp) (by simp [statedProps])

theorem kUnresolvedImage_iff {x y : Val} :
    (k8sWithDeps b).Derived quads ⟨.kUnresolvedImage, [x, y]⟩ ↔ Asserts quads x (k8s "unresolvedImage") y :=
  narrow_stated hsub rfl (by simp) (by simp [statedProps])

theorem kRunsImage_iff {x y : Val} : (k8sWithDeps b).Derived quads ⟨.kRunsImage, [x, y]⟩ ↔
    Asserts quads x (k8s "runsImage") y :=
  narrow_stated hsub rfl (by simp) (by simp [statedProps])

/-- Where the body of a report holds, the policy is offended. -/
theorem offends_of_fires {e : Report} (he : e ∈ reports b) {σ : Datalog.Valuation Nix2Rdf.Term}
    (h : ∀ l ∈ e.body, l.Holds ((k8sWithDeps b).Derived quads) σ) : Offends b quads e.policy (σ e.subject) := by
  simp only [reports, List.mem_cons, List.not_mem_nil, or_false] at he
  rcases he with rfl | rfl | rfl | rfl | rfl | rfl | rfl | rfl | rfl | rfl | rfl | rfl | rfl | rfl
  all_goals
    simp only [List.forall_mem_cons, List.not_mem_nil, false_implies, implies_true, and_true,
      Datalog.Literal.holds_pos, Datalog.Literal.holds_neg, ground_atom, List.map_cons, List.map_nil, ground_var] at h
  · exact .cve ((cveHit_iff hsub).mp h).1 ((cveHit_iff hsub).mp h).2
  · obtain ⟨hg, y, href, htyped, htext⟩ := danglingFact_iff.mp h
    exact .dangling hg href htyped htext
  · exact .generation ((genMismatch_iff hsub).mp h)
  · obtain ⟨v, hv, hless⟩ := (oldKernel_iff hsub).mp h
    exact .kernel hv hless
  · exact .cpu (kContainer_iff.mp h.1) fun hx => h.2 ((kLimitsCpu_iff hsub).mpr hx)
  · exact .memory (kContainer_iff.mp h.1) fun hx => h.2 ((kLimitsMemory_iff hsub).mpr hx)
  · exact .owner (kWorkload_iff.mp h.1) ((kOwnerUnknown_iff hsub).mp h.2)
  · obtain ⟨hw, hr, hless, hpdb⟩ := h
    exact .budget ((prodWorkload_iff hsub).mp hw) ⟨_, (several_iff hsub).mp ⟨hr, hless⟩⟩ fun hp =>
      hpdb ((hasPdb_iff hsub).mpr hp)
  · obtain ⟨hsa, hperm, hadmin⟩ := h
    obtain ⟨bnd, hbinds⟩ := (effPerm_iff hsub).mp hperm
    exact .admin ((userSa_iff hsub).mp hsa) hbinds ((adminPerm_iff hsub).mp hadmin)
  · obtain ⟨hsa, hwide, hread⟩ := h
    obtain ⟨bnd, hbnd, hbinds⟩ := (clusterWide_iff hsub).mp hwide
    obtain ⟨vr, hvr, hpermits⟩ := (secretRead_iff hsub).mp hread
    exact .secrets ((userSa_iff hsub).mp hsa) hbnd hbinds hvr hpermits
  · obtain ⟨hr, hless, hcount, hno⟩ := h
    exact .zone ⟨_, (several_iff hsub).mp ⟨hr, hless⟩⟩ ((domainCount_iff hsub).mp hcount) fun hx =>
      hno ((kExempt_iff hsub).mpr hx)
  · exact .volume ((pinnedVolume_iff hsub).mp h.1) fun hx => h.2 ((kExempt_iff hsub).mpr hx)
  · exact .unresolved ((kUnresolvedImage_iff hsub).mp h)
  · obtain ⟨hloaded, himg, hno⟩ := h
    exact .unsigned ((attestationsLoaded_iff hsub).mp hloaded).2 ((kRunsImage_iff hsub).mp himg) fun hx =>
      hno ((signed_iff hsub).mpr hx)

omit hsub in
/-- A report of the policy, by its place in the list. -/
theorem fires {e : Report} {policy : String} {x : Val} (n : Nat) (he : (reports b)[n]? = some e)
    (hpolicy : e.policy = policy)
    {σ : Datalog.Valuation Nix2Rdf.Term} (h : ∀ l ∈ e.body, l.Holds ((k8sWithDeps b).Derived quads) σ)
    (hx : σ e.subject = x) :
    ∃ e ∈ reports b, e.policy = policy ∧ ∃ σ, (∀ l ∈ e.body, l.Holds ((k8sWithDeps b).Derived quads) σ) ∧
      σ e.subject = x :=
  ⟨e, List.mem_of_getElem? he, hpolicy, σ, h, hx⟩

theorem fires_of_offends {policy : String} {x : Val} (h : Offends b quads policy x) :
    ∃ e ∈ reports b, e.policy = policy ∧
    ∃ σ, (∀ l ∈ e.body, l.Holds ((k8sWithDeps b).Derived quads) σ) ∧ σ e.subject = x := by
  cases h with
  | @cve x m hw hruns =>
      refine fires 0 rfl rfl (σ := .of m [("w", x)]) ?_ (by simp)
      simpa using (cveHit_iff hsub).mpr ⟨hw, hruns⟩
  | @dangling g x y m hg href htyped htext =>
      refine fires 1 rfl rfl (σ := .of m [("s", g), ("from", x)]) ?_ (by simp)
      simpa using danglingFact_iff.mpr ⟨hg, y, href, htyped, htext⟩
  | @generation x h =>
      refine fires 2 rfl rfl (σ := .of x []) ?_ (by simp)
      simpa using (genMismatch_iff hsub).mpr h
  | @kernel x v hv hless =>
      refine fires 3 rfl rfl (σ := .of x []) ?_ (by simp)
      simpa using (oldKernel_iff hsub).mpr ⟨v, hv, hless⟩
  | @cpu x hc hno =>
      refine fires 4 rfl rfl (σ := .of x []) ?_ (by simp)
      simpa using And.intro (kContainer_iff.mpr hc) (mt (kLimitsCpu_iff hsub).mp hno)
  | @memory x hc hno =>
      refine fires 5 rfl rfl (σ := .of x []) ?_ (by simp)
      simpa using And.intro (kContainer_iff.mpr hc) (mt (kLimitsMemory_iff hsub).mp hno)
  | @owner x hw htrue =>
      refine fires 6 rfl rfl (σ := .of x []) ?_ (by simp)
      simpa using And.intro (kWorkload_iff.mpr hw) ((kOwnerUnknown_iff hsub).mpr htrue)
  | @budget x hw hseveral hno =>
      obtain ⟨r, hr⟩ := hseveral
      refine fires 7 rfl rfl (σ := .of r [("w", x)]) ?_ (by simp)
      have hseveral := (several_iff (b := b) hsub (σ := .of r [("w", x)])).mpr (by simpa using hr)
      simpa using ⟨(prodWorkload_iff hsub).mpr hw, hseveral.1, hseveral.2, mt (hasPdb_iff hsub).mp hno⟩
  | @admin x bnd p hsa hbinds hall =>
      refine fires 8 rfl rfl (σ := .of p [("sa", x)]) ?_ (by simp)
      simpa using ⟨(userSa_iff hsub).mpr hsa, (effPerm_iff (b := b) hsub).mpr ⟨bnd, hbinds⟩,
        (adminPerm_iff (b := b) hsub).mpr hall⟩
  | @secrets x bnd p verb resource hsa hbnd hbinds hread hall =>
      refine fires 9 rfl rfl (σ := .of p [("sa", x)]) ?_ (by simp)
      simpa using ⟨(userSa_iff hsub).mpr hsa, (clusterWide_iff hsub).mpr ⟨bnd, hbnd, hbinds⟩,
        (secretRead_iff (b := b) hsub).mpr ⟨(verb, resource), hread, hall⟩⟩
  | @zone x hseveral hone hno =>
      obtain ⟨r, hr⟩ := hseveral
      refine fires 10 rfl rfl (σ := .of r [("w", x)]) ?_ (by simp)
      have hseveral := (several_iff (b := b) hsub (σ := .of r [("w", x)])).mpr (by simpa using hr)
      simpa using ⟨hseveral.1, hseveral.2, (domainCount_iff (b := b) hsub).mpr hone,
        mt (kExempt_iff (b := b) hsub).mp hno⟩
  | @volume x hw hno =>
      refine fires 11 rfl rfl (σ := .of x []) ?_ (by simp)
      simpa using And.intro ((pinnedVolume_iff hsub).mpr hw) (mt (kExempt_iff hsub).mp hno)
  | @unresolved x ref h =>
      refine fires 12 rfl rfl (σ := .of ref [("c", x)]) ?_ (by simp)
      simpa using (kUnresolvedImage_iff (b := b) hsub).mpr h
  | @unsigned c x hloaded himg hno =>
      refine fires 13 rfl rfl (σ := .of x [("c", c)]) ?_ (by simp)
      simpa using ⟨(attestationsLoaded_iff (b := b) hsub).mpr ⟨rfl, hloaded⟩, (kRunsImage_iff (b := b) hsub).mpr himg,
        mt (signed_iff (b := b) hsub).mp hno⟩

end Exact

/-- Every policy reports exactly what offends it. -/
theorem policies_exact {b : Builtins} {quads : Quad → Prop} (hsub : NoSubProperty quads) (policy : String) (x : Val) :
    Reported b quads policy x ↔ Offends b quads policy x := by
  rw [reported_iff_fires]
  constructor
  · rintro ⟨e, he, rfl, σ, h, rfl⟩
    exact offends_of_fires hsub he h
  · exact fires_of_offends hsub

/-- One image is signed, and another one runs. -/
def signedQuads : List Quad :=
  [⟨"a", .iri "base", attest "verifiedBy", .iri "key"⟩, ⟨"g", .iri "c", k8s "runsImage", .iri "img"⟩]

theorem policies_exact_signed : Reported noBuiltins (· ∈ signedQuads) "unsigned-image" (.const (.iri "img")) := by
  have hsub : NoSubProperty (· ∈ signedQuads) := by
    intro q hq
    simp only [signedQuads, List.mem_cons, List.not_mem_nil, or_false] at hq
    rcases hq with rfl | rfl
    · decide +kernel
    · simp
  have hsigned : Signed (· ∈ signedQuads) (.const (.iri "base")) :=
    ⟨.const (.iri "key"), ⟨"a", .iri "base", attest "verifiedBy", .iri "key"⟩, by simp [signedQuads], rfl, rfl, rfl⟩
  have hunsigned : ¬ Signed (· ∈ signedQuads) (.const (.iri "img")) := by
    rintro ⟨who, q, hq, hs, hp, _⟩
    simp only [signedQuads, List.mem_cons, List.not_mem_nil, or_false] at hq
    rcases hq with rfl | rfl
    · simp at hs
    · exact absurd hp (by decide +kernel)
  have hruns : Asserts (· ∈ signedQuads) (.const (.iri "c")) (k8s "runsImage") (.const (.iri "img")) :=
    ⟨⟨"g", .iri "c", k8s "runsImage", .iri "img"⟩, by simp [signedQuads], rfl, rfl, rfl⟩
  exact (policies_exact hsub _ _).mpr (.unsigned ⟨_, hsigned⟩ hruns hunsigned)

end Nix2Rdf.Packs.Deployed
