import Nix2Rdf.K8s.Terms

/-!
# Edges between objects

Objects of plain kinds are told apart by their entities, so that an edge of a snapshot is traced back
to the object it was built for.
-/

namespace Nix2Rdf.K8s

open Text (slash)
open Triple

/-! ## Entities -/

/-- A kind whose objects are named by path, the kind itself being one segment. -/
def PlainKind (kind : String) : Prop := '/' ∉ kind.toList ∧ kind ≠ "Node" ∧ kind ≠ "Namespace"

instance (kind : String) : Decidable (PlainKind kind) := inferInstanceAs (Decidable (_ ∧ _))

theorem plain_workloadKinds : ∀ kind ∈ workloadKinds, PlainKind kind := by decide

theorem objIri_plain {kind : String} (h : PlainKind kind) (ctx : Ctx) (ns : Option String) (name : String) :
    ctx.objIri kind ns name =
      id (slash (["k8s", encodeSegment ctx.cid, kind] ++ ns.toList.map encodeSegment ++ [encodeSegment name])) := by
  unfold Ctx.objIri
  split
  · exact absurd rfl h.2.1
  · exact absurd rfl h.2.2
  · cases ns with
    | none => rfl
    | some ns => rfl

theorem objIri_inj {ctx : Ctx} {kind kind' : String} (h : PlainKind kind) (h' : PlainKind kind')
    {ns ns' : Option String} {name name' : String} :
    ctx.objIri kind ns name = ctx.objIri kind' ns' name' ↔ kind = kind' ∧ ns = ns' ∧ name = name' := by
  have hslash : ∀ {kind : String}, PlainKind kind → ∀ (ns : Option String) (name : String),
      ∀ seg ∈ ["k8s", encodeSegment ctx.cid, kind] ++ ns.toList.map encodeSegment ++ [encodeSegment name],
        '/' ∉ seg.toList := by
    intro kind hkind ns name seg hseg
    simp only [List.mem_append, List.mem_cons, List.mem_map, List.not_mem_nil, or_false] at hseg
    rcases hseg with ((rfl | rfl | rfl) | ⟨_, _, rfl⟩) | rfl
    · decide
    · exact slash_not_mem_encodeSegment _
    · exact hkind.1
    · exact slash_not_mem_encodeSegment _
    · exact slash_not_mem_encodeSegment _
  constructor
  · intro heq
    rw [objIri_plain h, objIri_plain h', id, id, String.append_right_inj,
      Text.slash_inj (by simp) (by simp) (hslash h ns name) (hslash h' ns' name')] at heq
    have hlast : [encodeSegment name].length = [encodeSegment name'].length := by
      rw [List.length_singleton, List.length_singleton]
    obtain ⟨hinit, hname⟩ := List.append_inj' heq hlast
    have hhead : ["k8s", encodeSegment ctx.cid, kind].length = ["k8s", encodeSegment ctx.cid, kind'].length := rfl
    obtain ⟨hkind, hns⟩ := List.append_inj hinit hhead
    refine ⟨by simpa using hkind, ?_, encodeSegment_injective (List.singleton_inj.mp hname)⟩
    cases ns <;> cases ns' <;> simp_all [encodeSegment_inj]
  · rintro ⟨rfl, rfl, rfl⟩
    rfl

theorem nsOption_inj {ns ns' : String} : nsOption ns = nsOption ns' ↔ ns = ns' := by
  refine ⟨fun h => ?_, congrArg nsOption⟩
  unfold nsOption at h
  split at h <;> split at h <;> simp_all

theorem iriOf_inj {ctx : Ctx} {k k' : Key} (h : PlainKind k.kind) (h' : PlainKind k'.kind) :
    ctx.iriOf k = ctx.iriOf k' ↔ k = k' := by
  rw [Ctx.iriOf, Ctx.iriOf, objIri_inj h h', nsOption_inj]
  cases k
  cases k'
  rw [Key.mk.injEq]

/-! ## Objects of a kind -/

theorem mem_ofKind {ctx : Ctx} {kind : String} {o : Json} :
    o ∈ ctx.ofKind kind ↔ ∃ k : Key, ctx.index[k]? = some o ∧ k.kind = kind := by
  simp only [Ctx.ofKind, List.mem_map, List.mem_filter, Prod.exists, exists_eq_right, decide_eq_true_eq,
    Std.ExtTreeMap.mem_toList_iff_getElem?_eq_some]

/-- The kinds that have properties of their own. -/
def termKinds : List String :=
  ["Namespace", "Deployment", "StatefulSet", "DaemonSet", "Job", "CronJob", "Service", "Ingress",
    "PodDisruptionBudget", "PersistentVolumeClaim", "PersistentVolume", "NetworkPolicy", "Role", "ClusterRole",
    "RoleBinding",
    "ClusterRoleBinding"]

theorem mem_termKinds {kind term : String} (h : term ∈ kindTerms kind) : kind ∈ termKinds := by
  unfold kindTerms at h
  split at h
  case h_17 => cases h
  all_goals decide

theorem kindTriples_workload {ctx : Ctx} {counts : KeyMap (BTreeMap Int)} {digests : KeyMap (BTreeMap (List String))}
    {key : Key} {nsopt : Option String} {oi : Iri} {o : Json} (h : key.kind ∈ workloadKinds) :
    kindTriples ctx counts digests key nsopt oi o = workloadTriples ctx counts digests key nsopt oi o := by
  simp only [workloadKinds, List.mem_cons, List.not_mem_nil, or_false] at h
  rcases h with h | h | h | h | h <;> simp only [kindTriples, h]

/-! ## Statements on account of a kind -/

section Kinds

variable {ctx : Ctx} {counts : KeyMap (BTreeMap Int)} {digests : KeyMap (BTreeMap (List String))} {key : Key}
  {ns : String} {nsopt : Option String} {oi : Iri} {o : Json} {t : Triple}

def placementEdges : List Iri := [k8s "hasPDB", k8s "scheduledOn", k8s "replicasOnNode"]

def workloadEdges : List Iri := k8s "runsImage" :: placementEdges

theorem workloadTriples_cases (ht : t ∈ workloadTriples ctx counts digests key nsopt oi o)
    (hp : t.p ∈ workloadEdges) :
    (∃ e ∈ (counts[key]?.getD ∅).toList, t = addIri oi (k8s "scheduledOn") (Iri.k8sNode ctx.cid e.1) ∨
      t = addStr oi (k8s "replicasOnNode") (e.1 ++ ":" ++ toString e.2)) ∨
    (∃ pdb ∈ ctx.ofKind "PodDisruptionBudget", ((namespaceOf pdb).getD "default" = key.ns ∧
      selectorMatches (pdb.path? ["spec", "selector"]) (podLabels o) false = true) ∧
      t = addIri oi (k8s "hasPDB") (ctx.objIri "PodDisruptionBudget" nsopt (name pdb))) ∨
    (t.p = k8s "runsImage" ∧ t ∈ containerSpecs ctx o oi (digests[key]?.getD ∅)) := by
  have htype : rdfType ∉ workloadEdges := by simp [workloadEdges, placementEdges]
  have hterm : ∀ term ∈ ["label", "replicas", "readyReplicas", "costCenter", "exemptSingleDomain"] ++ ownerTerms,
      k8s term ∉ workloadEdges := by simp [workloadEdges, placementEdges, ownerTerms]
  have hspecs : ∀ t ∈ containerSpecs ctx o oi (digests[key]?.getD ∅), t.p ∉ placementEdges := by
    refine avoids_containers (by simp [placementEdges]) ?_ (by simp [placementEdges]) (by simp [placementEdges]) _
    simp [placementEdges, containerTerms]
  simp only [List.forall_mem_append, List.forall_mem_cons] at hterm
  obtain ⟨⟨hlabel, hreplicas, hready, hcost, hexempt, _⟩, howner⟩ := hterm
  simp only [workloadTriples, addLabels, List.mem_append, List.mem_map, List.mem_flatMap, List.mem_filter,
    List.mem_cons, List.not_mem_nil, or_false, decide_eq_true_eq] at ht
  rcases ht with (((((((((rfl | rfl) | ⟨_, _, rfl⟩) | ⟨_, _, rfl⟩) | ⟨_, _, rfl⟩) | hplaced) | ht) | ht) |
    ⟨_, _, rfl⟩) | ht) | ⟨pdb, ⟨hpdb, hsel⟩, rfl⟩
  · exact absurd hp htype
  · exact absurd hp htype
  · exact absurd hp hlabel
  · exact absurd hp hreplicas
  · exact absurd hp hready
  · exact .inl hplaced
  · exact .inr (.inr ⟨(List.mem_cons.mp hp).resolve_right (hspecs t ht), ht⟩)
  · exact absurd hp (avoids_owner htype howner _ t ht)
  · exact absurd hp hcost
  · split at ht
    · cases List.mem_singleton.mp ht
      exact absurd hp hexempt
    · cases ht
  · exact .inr (.inl ⟨pdb, hpdb, hsel, rfl⟩)

theorem mem_workloadTriples_placed {e : String × Int} (he : e ∈ (counts[key]?.getD ∅).toList)
    (ht : t = addIri oi (k8s "scheduledOn") (Iri.k8sNode ctx.cid e.1) ∨
      t = addStr oi (k8s "replicasOnNode") (e.1 ++ ":" ++ toString e.2)) :
    t ∈ workloadTriples ctx counts digests key nsopt oi o := by
  simp only [workloadTriples, List.mem_append, List.mem_flatMap, List.mem_cons, List.not_mem_nil, or_false]
  exact .inl (.inl (.inl (.inl (.inl (.inr ⟨e, he, ht⟩)))))

theorem mem_workloadTriples_specs (ht : t ∈ containerSpecs ctx o oi (digests[key]?.getD ∅)) :
    t ∈ workloadTriples ctx counts digests key nsopt oi o := by
  simp only [workloadTriples, List.mem_append]
  exact .inl (.inl (.inl (.inl (.inr ht))))

theorem mem_workloadTriples_budget {pdb : Json} (hpdb : pdb ∈ ctx.ofKind "PodDisruptionBudget")
    (hsel : (namespaceOf pdb).getD "default" = key.ns ∧
      selectorMatches (pdb.path? ["spec", "selector"]) (podLabels o) false = true) :
    addIri oi (k8s "hasPDB") (ctx.objIri "PodDisruptionBudget" nsopt (name pdb)) ∈
      workloadTriples ctx counts digests key nsopt oi o := by
  refine List.mem_append_right _ (List.mem_map.mpr ⟨pdb, List.mem_filter.mpr ⟨hpdb, ?_⟩, rfl⟩)
  exact decide_eq_true hsel

/-- The two ways in which a network policy restricts traffic. -/
inductive Direction where
  | ingress
  | egress
  deriving DecidableEq, Repr

namespace Direction

/-- The policy type. -/
def type : Direction → String
  | .ingress => "Ingress"
  | .egress => "Egress"

/-- The field of the rules. -/
def field : Direction → String
  | .ingress => "ingress"
  | .egress => "egress"

def allows : Direction → Iri
  | .ingress => k8s "allowsIngressFrom"
  | .egress => k8s "allowsEgressTo"

def allowsAll : Direction → Iri
  | .ingress => k8s "allowsAllIngress"
  | .egress => k8s "allowsAllEgress"

@[simp] theorem allows_inj {d d' : Direction} : d.allows = d'.allows ↔ d = d' := by
  cases d <;> cases d' <;> simp [allows]

@[simp] theorem allows_ne_allowsAll (d d' : Direction) : d.allows ≠ d'.allowsAll := by
  cases d <;> cases d' <;> simp [allows, allowsAll]

@[simp] theorem allows_ne_appliesTo (d : Direction) : d.allows ≠ k8s "appliesTo" := by
  cases d <;> simp [allows]

@[simp] theorem allows_ne_policyType (d : Direction) : d.allows ≠ k8s "policyType" := by
  cases d <;> simp [allows]

@[simp] theorem allows_ne_rdfType (d : Direction) : d.allows ≠ rdfType := by
  cases d <;> simp [allows]

theorem allowsAll_ne_appliesTo (d : Direction) : d.allowsAll ≠ k8s "appliesTo" := by
  cases d <;> simp [allowsAll]

end Direction

theorem mem_policyTriples : t ∈ policyTriples ctx ns nsopt oi o ↔ t = addType oi (k8s "NetworkPolicy") ∨
    (∃ ty ∈ policyTypes o, t = addStr oi (k8s "policyType") ty) ∨
    (∃ w ∈ ctx.workloadsIn ns, selectorMatches (o.path? ["spec", "podSelector"]) (podLabels w) true = true ∧
      t = addIri oi (k8s "appliesTo") (ctx.objIri (kind w) nsopt (name w))) ∨
    ∃ d : Direction, d.type ∈ policyTypes o ∧ ∃ rule ∈ arr o ["spec", d.field],
      t ∈ ruleTriples ctx ns oi d.allows d.allowsAll rule := by
  have hif : ∀ {p : Prop} [Decidable p] {l : List Triple}, t ∈ (if p then l else []) ↔ p ∧ t ∈ l := by
    intro p _ l
    split <;> simp_all
  have hdirections : ∀ {p : Direction → Prop}, (∃ d, p d) ↔ p .ingress ∨ p .egress := by
    intro p
    constructor
    · rintro ⟨d, hd⟩
      cases d with
      | ingress => exact .inl hd
      | egress => exact .inr hd
    · rintro (h | h)
      · exact ⟨_, h⟩
      · exact ⟨_, h⟩
  simp only [policyTriples, List.mem_append, List.mem_map, List.mem_filter, List.mem_singleton, hif, hdirections,
    List.mem_flatMap, or_assoc, and_assoc, eq_comm (b := t)]
  rfl

theorem roleTriples_aggregates (ht : t ∈ roleTriples ctx key oi o) (hp : t.p = k8s "aggregates") :
    key.kind = "ClusterRole" ∧ ∃ sel ∈ arr o ["aggregationRule", "clusterRoleSelectors"],
      ∃ other ∈ ctx.ofKind "ClusterRole", (name other ≠ key.name ∧
        selectorMatches (some sel) (labels other) false = true) ∧
        t = addIri oi (k8s "aggregates") (ctx.objIri "ClusterRole" none (name other)) := by
  simp only [roleTriples, permissionTriples, List.mem_append, List.mem_flatMap, List.mem_cons, List.not_mem_nil,
    or_false] at ht
  rcases ht with (rfl | ⟨_, _, _, _, _, _, _, _, ht⟩) | ht
  · exact absurd hp.symm (by simp)
  · rcases ht with rfl | rfl | rfl | rfl | rfl <;> exact absurd hp.symm (by simp)
  · split at ht
    · rename_i hkind
      refine ⟨hkind, ?_⟩
      obtain ⟨sel, hsel, ht⟩ := List.mem_flatMap.mp ht
      obtain ⟨other, hother, rfl⟩ := List.mem_map.mp ht
      obtain ⟨hother, hmatch⟩ := List.mem_filter.mp hother
      exact ⟨sel, hsel, other, hother, of_decide_eq_true hmatch, rfl⟩
    · cases ht

theorem mem_roleTriples_aggregates {sel other : Json} (hkind : key.kind = "ClusterRole")
    (hsel : sel ∈ arr o ["aggregationRule", "clusterRoleSelectors"]) (hother : other ∈ ctx.ofKind "ClusterRole")
    (hmatch : name other ≠ key.name ∧ selectorMatches (some sel) (labels other) false = true) :
    addIri oi (k8s "aggregates") (ctx.objIri "ClusterRole" none (name other)) ∈ roleTriples ctx key oi o := by
  rw [roleTriples, if_pos hkind]
  refine List.mem_append_right _ (List.mem_flatMap.mpr ⟨sel, hsel, List.mem_map.mpr ⟨other, ?_, rfl⟩⟩)
  exact List.mem_filter.mpr ⟨hother, decide_eq_true hmatch⟩

end Kinds

/-! ## Snapshots -/

variable {input : SnapshotInput} {opts : SnapshotOptions}

theorem kindTriples_subset {ctx : Ctx} {counts : KeyMap (BTreeMap Int)}
    {digests : KeyMap (BTreeMap (List String))} {snap : Iri} {k : Key} {o : Json} {t : Triple}
    (ht : t ∈ kindTriples ctx counts digests k (nsOption k.ns) (ctx.iriOf k) o) :
    t ∈ objectTriples ctx counts digests snap (k, o) := List.mem_append_right _ ht

theorem mem_pending {k : Key} {o : Json} (hk : (ctxOf input opts).index[k]? = some o)
    (hkind : k.kind ≠ "ReplicaSet") {t : Triple}
    (ht : t ∈ objectTriples (ctxOf input opts) (placement (ctxOf input opts) input.pods)
      (pulled (ctxOf input opts) input.pods) (Iri.k8sSnapshot opts.clusterId placeholder) (k, o)) :
    t ∈ (pendingSnapshot (ctxOf input opts) input opts.state).lines := by
  rw [pendingSnapshot, Fragment.mem_ofTriples, List.mem_append, List.mem_flatMap]
  refine .inr ⟨(k, o), List.mem_filter.mpr ⟨?_, by simpa using hkind⟩, ht⟩
  exact Std.ExtTreeMap.mem_toList_iff_getElem?_eq_some.mpr hk

/-- What a snapshot says of an object on account of its kind. -/
abbrev Says (input : SnapshotInput) (opts : SnapshotOptions) (k : Key) (o : Json) (t : Triple) : Prop :=
  t ∈ kindTriples (ctxOf input opts) (placement (ctxOf input opts) input.pods)
    (pulled (ctxOf input opts) input.pods) k (nsOption k.ns) ((ctxOf input opts).iriOf k) o

/-- A property that comes with some kinds is said where it is said of an object of these kinds. -/
theorem mem_pending_iff {term : String} {kinds : List String} (hhead : term ∉ headTerms)
    (hobject : term ∉ objectTerms)
    (hkinds : ∀ kind ∈ termKinds, term ∈ kindTerms kind → kind ∈ kinds) (hreplica : "ReplicaSet" ∉ kinds) {t : Triple}
    (hp : t.p = k8s term) :
    t ∈ (pendingSnapshot (ctxOf input opts) input opts.state).lines ↔
      ∃ k o, (ctxOf input opts).index[k]? = some o ∧ k.kind ∈ kinds ∧ Says input opts k o t := by
  constructor
  · intro ht
    obtain ⟨e, he, hterm, ht⟩ := exists_kindTriples hp hhead hobject ht
    have hk := Std.ExtTreeMap.mem_toList_iff_getElem?_eq_some.mp (List.mem_of_mem_filter he)
    exact ⟨e.1, e.2, hk, hkinds _ (mem_termKinds hterm) hterm, ht⟩
  · rintro ⟨k, o, hk, hkind, ht⟩
    refine mem_pending hk (fun h => hreplica (h ▸ hkind)) (kindTriples_subset ht)

end Nix2Rdf.K8s
