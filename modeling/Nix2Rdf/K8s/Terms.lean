import Nix2Rdf.K8s.Index

/-!
# The properties of objects

Which properties the triples of an object may have, by its kind.
-/

namespace Nix2Rdf.K8s

open Triple

def ownerTerms : List String := ["name", "ownedBy", "ownerUnknown"]

def containerTerms : List String :=
  ["name", "hasContainer", "initContainer", "imageRef", "imageRepository", "imageTag", "unresolvedImage", "runsImage",
    "requestsCpu", "requestsMemory", "limitsCpu", "limitsMemory", "mounts"]

def workloadTerms : List String :=
  ["label", "replicas", "readyReplicas", "scheduledOn", "replicasOnNode", "usesStorageClass", "usesServiceAccount",
    "costCenter", "exemptSingleDomain", "hasPDB"] ++ ownerTerms ++ containerTerms

/-- The local names of the properties that come with a kind. -/
def kindTerms (kind : String) : List String :=
  match kind with
  | "Namespace" => "label" :: ownerTerms
  | "Deployment" | "StatefulSet" | "DaemonSet" | "Job" | "CronJob" => workloadTerms
  | "Service" => ["selects"]
  | "Ingress" => ["routesTo"]
  | "PodDisruptionBudget" => ["minAvailable", "maxUnavailable"]
  | "PersistentVolumeClaim" => ["usesStorageClass", "boundTo"]
  | "PersistentVolume" => ["usesStorageClass", "pinnedToNode"]
  | "NetworkPolicy" =>
      ["policyType", "appliesTo", "allowsIngressFrom", "allowsAllIngress", "allowsEgressTo", "allowsAllEgress"]
  | "Role" | "ClusterRole" => ["apiGroup", "resource", "verb", "permits", "aggregates"]
  | "RoleBinding" | "ClusterRoleBinding" => ["name", "grants", "subjectOf"]
  | _ => []

def headTerms : List String := ["snapshotKind", "ofCluster", "clusterId", "partial", "failedKind", "contains"]

def objectTerms : List String := ["contains", "name", "kind", "apiVersion", "inCluster", "inNamespace"]

variable {ctx : Ctx} {ps : List Iri} (htype : rdfType ∉ ps) {oi : Iri} {o : Json}

include htype

theorem avoids_owner (h : ∀ w ∈ ownerTerms, k8s w ∉ ps) (ow : Option String) : Avoids ps (ownerTriples oi ow) := by
  rw [ownerTerms] at h
  cases ow with
  | none => simp_all [ownerTriples]
  | some ow => simp_all [ownerTriples]

omit htype in
theorem avoids_mounts (h : k8s "mounts" ∉ ps) (ns : String) (v : Json) (refs : List (String × List String)) :
    Avoids ps (mountTriples ctx oi ns v refs) := by
  refine avoids_filterMap fun r _ t ht => ?_
  obtain ⟨_, _, rfl⟩ := Option.map_eq_some_iff.mp ht
  exact h

theorem avoids_container (h : ∀ w ∈ containerTerms, k8s w ∉ ps) (pulled : BTreeMap (List String)) (init : Bool)
    (c : Json) : Avoids ps (containerTriples ctx o oi pulled init c) := by
  have hmounts : ∀ ns v refs, Avoids ps (mountTriples ctx oi ns v refs) := avoids_mounts (h "mounts" (by decide))
  have hlimits : ∀ (ci : Iri), Avoids ps
    ([("requestsCpu", ["requests", "cpu"]), ("requestsMemory", ["requests", "memory"]),
      ("limitsCpu", ["limits", "cpu"]), ("limitsMemory", ["limits", "memory"])].filterMap fun r =>
      (s c ("resources" :: r.2)).map fun v => addStr ci (k8s r.1) v) := by
    intro ci
    refine avoids_filterMap fun r hr t ht => ?_
    obtain ⟨_, _, rfl⟩ := Option.map_eq_some_iff.mp ht
    have hterms : ∀ r ∈ [("requestsCpu", ["requests", "cpu"]), ("requestsMemory", ["requests", "memory"]),
      ("limitsCpu", ["limits", "cpu"]), ("limitsMemory", ["limits", "memory"])], r.1 ∈ containerTerms := by decide
    exact h r.1 (hterms r hr)
  have hinit : ∀ ci : Iri, Avoids ps (if init then [addBool ci (k8s "initContainer") true] else []) := by
    intro ci
    split
    · simpa using h "initContainer" (by decide)
    · exact avoids_nil
  have himage : ∀ (ci : Iri) (image : String) (ds : List String),
      Avoids ps (if ds.isEmpty then [addStr ci (k8s "unresolvedImage") image] else []) := by
    intro ci image ds
    split
    · simpa using h "unresolvedImage" (by decide)
    · exact avoids_nil
  rw [containerTerms] at h
  simp only [List.forall_mem_cons] at h
  simp only [containerTriples, avoids_append, avoids_cons, avoids_nil, avoids_map, avoids_flatMap,
    addType_p, addStr_p, addIri_p, hmounts, hlimits, hinit, himage, htype, h, not_false_eq_true,
    implies_true, and_true]

omit htype in
theorem avoids_volume (h : k8s "mounts" ∉ ps) (ns : String) (v : Json) : Avoids ps (volumeTriples ctx oi ns v) := by
  simp only [volumeTriples, avoids_append, avoids_flatMap, avoids_mounts h, implies_true, and_true]

theorem avoids_containers (hcontainer : ∀ w ∈ containerTerms, k8s w ∉ ps) (hclass : k8s "usesStorageClass" ∉ ps)
    (haccount : k8s "usesServiceAccount" ∉ ps) (pulled : BTreeMap (List String)) :
    Avoids ps (containerSpecs ctx o oi pulled) := by
  have hmounts : k8s "mounts" ∉ ps := hcontainer "mounts" (by decide)
  have hclaims : Avoids ps ((arr o ["spec", "volumeClaimTemplates"]).filterMap fun t =>
      (s t ["spec", "storageClassName"]).map fun sc =>
        addIri oi (k8s "usesStorageClass") (ctx.objIri "StorageClass" none sc)) := by
    refine avoids_filterMap fun r _ t ht => ?_
    obtain ⟨_, _, rfl⟩ := Option.map_eq_some_iff.mp ht
    exact hclass
  rw [containerSpecs]
  cases podSpec o with
  | none => exact avoids_nil
  | some ps =>
      simp only [avoids_append, avoids_cons, avoids_nil, avoids_flatMap, avoids_container htype hcontainer,
        avoids_volume hmounts, hclaims, addIri_p, haccount, not_false_eq_true, implies_true, and_true]

theorem avoids_workload (h : ∀ w ∈ workloadTerms, k8s w ∉ ps) (counts : KeyMap (BTreeMap Int))
    (digests : KeyMap (BTreeMap (List String))) (key : Key) (nsopt : Option String) :
    Avoids ps (workloadTriples ctx counts digests key nsopt oi o) := by
  have howner : ∀ w ∈ ownerTerms, k8s w ∉ ps := by
    intro w hw
    exact h w (by simp [workloadTerms, hw])
  have hcontainer : ∀ w ∈ containerTerms, k8s w ∉ ps := by
    intro w hw
    exact h w (by simp [workloadTerms, hw])
  have hspecs : ∀ pulled, Avoids ps (containerSpecs ctx o oi pulled) :=
    avoids_containers htype hcontainer (h _ (by decide)) (h _ (by decide))
  have hexempt : Avoids ps (if (annotations o)[ctx.cfg.exemptSingleDomainAnnotation]? = some "true" then
      [addBool oi (k8s "exemptSingleDomain") true] else []) := by
    split
    · simpa using h "exemptSingleDomain" (by decide)
    · exact avoids_nil
  simp only [workloadTerms, List.cons_append, List.forall_mem_cons] at h
  simp only [workloadTriples, addLabels, avoids_append, avoids_cons, avoids_nil, avoids_map, avoids_flatMap,
    addType_p, addStr_p, addInt_p, addIri_p, avoids_owner htype howner, hspecs, hexempt, htype, h,
    not_false_eq_true, implies_true, and_true]

theorem avoids_policy (h : ∀ w ∈ kindTerms "NetworkPolicy", k8s w ∉ ps) (ns : String) (nsopt : Option String) :
    Avoids ps (policyTriples ctx ns nsopt oi o) := by
  have hpeers : ∀ prop ∉ ps, ∀ peer, Avoids ps (peerTriples ctx ns oi prop peer) := by
    intro prop hprop peer
    rw [peerTriples, avoids_flatMap]
    intro pns _
    cases peer.get? "podSelector" with
    | none => simpa using hprop
    | some sel => simp only [avoids_map, addIri_p, hprop, not_false_eq_true, implies_true]
  have hrules : ∀ prop allProp, prop ∉ ps → allProp ∉ ps →
      ∀ rule, Avoids ps (ruleTriples ctx ns oi prop allProp rule) := by
    intro prop allProp hprop hall rule
    rw [ruleTriples]
    split
    · simpa using hall
    · simp only [avoids_flatMap, hpeers prop hprop, implies_true]
  simp only [kindTerms, List.forall_mem_cons] at h
  obtain ⟨htypes, happlies, hfrom, hallFrom, hto, hallTo, _⟩ := h
  have hingress := hrules _ _ hfrom hallFrom
  have hegress := hrules _ _ hto hallTo
  rw [policyTriples]
  simp only [avoids_append, avoids_cons, avoids_nil, avoids_map, addType_p, addStr_p, addIri_p, htype,
    htypes, happlies, not_false_eq_true, implies_true, and_true, true_and]
  constructor
  · split
    · simp only [avoids_flatMap, hingress, implies_true]
    · exact avoids_nil
  · split
    · simp only [avoids_flatMap, hegress, implies_true]
    · exact avoids_nil

theorem avoids_role (h : ∀ w ∈ kindTerms "Role", k8s w ∉ ps) (key : Key) : Avoids ps (roleTriples ctx key oi o) := by
  simp only [kindTerms, List.forall_mem_cons] at h
  simp only [roleTriples, permissionTriples, avoids_append, avoids_cons, avoids_nil, avoids_flatMap,
    addType_p, addStr_p, addIri_p, htype, h, not_false_eq_true, implies_true, and_true, true_and]
  split
  · simp only [avoids_flatMap, avoids_map, addIri_p, h, not_false_eq_true, implies_true]
  · exact avoids_nil

theorem avoids_binding (h : ∀ w ∈ kindTerms "RoleBinding", k8s w ∉ ps) (key : Key) (nsopt : Option String) :
    Avoids ps (bindingTriples ctx key nsopt oi o) := by
  simp only [kindTerms, List.forall_mem_cons] at h
  have hsubject : ∀ sub, Avoids ps (subjectTriples ctx nsopt oi sub) := by
    intro sub
    unfold subjectTriples
    split <;> simp only [avoids_cons, avoids_nil, addType_p, addStr_p, addIri_p, htype, h,
      not_false_eq_true, and_true]
  simp only [bindingTriples, avoids_append, avoids_cons, avoids_nil, avoids_flatMap, addType_p, addIri_p, htype, h,
    hsubject, not_false_eq_true, implies_true, and_true]

omit htype in
theorem avoids_storageClass (h : k8s "usesStorageClass" ∉ ps) : Avoids ps (storageClassTriples ctx oi o) := by
  simp only [storageClassTriples, avoids_map, addIri_p, h, not_false_eq_true, implies_true]

theorem avoids_budget (h : ∀ w ∈ kindTerms "PodDisruptionBudget", k8s w ∉ ps) : Avoids ps (budgetTriples oi o) := by
  have hbounds : Avoids ps (["minAvailable", "maxUnavailable"].filterMap fun field =>
      (o.path? ["spec", field]).map fun v =>
      addStr oi (k8s field) (Text.trim (· = '"') v.print)) := by
    refine avoids_filterMap fun field hfield t ht => ?_
    obtain ⟨_, _, rfl⟩ := Option.map_eq_some_iff.mp ht
    exact h field hfield
  simp only [budgetTriples, avoids_append, avoids_cons, avoids_nil, addType_p, hbounds, htype,
    not_false_eq_true, and_true]

theorem avoids_volumeObject (h : ∀ w ∈ kindTerms "PersistentVolume", k8s w ∉ ps) :
    Avoids ps (volumeObjectTriples ctx oi o) := by
  simp only [kindTerms, List.forall_mem_cons] at h
  simp only [volumeObjectTriples, avoids_append, avoids_cons, avoids_nil, avoids_flatMap, avoids_map,
    addType_p, addIri_p, avoids_storageClass h.1, htype, h, not_false_eq_true, implies_true, and_true]

/-- What is said on account of a kind has the properties of the kind. -/
theorem avoids_kind {key : Key} (h : ∀ w ∈ kindTerms key.kind, k8s w ∉ ps) (counts : KeyMap (BTreeMap Int))
    (digests : KeyMap (BTreeMap (List String))) (nsopt : Option String) :
    Avoids ps (kindTriples ctx counts digests key nsopt oi o) := by
  have hsingle : ∀ cls, Avoids ps [addType oi cls] := by
    intro cls
    simpa using htype
  unfold kindTriples
  split
  all_goals rename_i hkind
  · exact avoids_nil
  · rw [hkind] at h
    have howner : ∀ ow, Avoids ps (ownerTriples oi ow) :=
      avoids_owner htype fun w hw => h w (List.mem_cons_of_mem _ hw)
    have hlabel : k8s "label" ∉ ps := h "label" (by decide)
    simp only [namespaceTriples, addLabels, avoids_append, avoids_cons, avoids_nil, avoids_map, addType_p, addStr_p,
      howner, hlabel, htype, not_false_eq_true, implies_true, and_true]
  · rw [hkind] at h
    exact avoids_workload htype h counts digests key nsopt
  · rw [hkind] at h
    exact avoids_workload htype h counts digests key nsopt
  · rw [hkind] at h
    exact avoids_workload htype h counts digests key nsopt
  · rw [hkind] at h
    exact avoids_workload htype h counts digests key nsopt
  · rw [hkind] at h
    exact avoids_workload htype h counts digests key nsopt
  · rw [hkind] at h
    simpa [serviceTriples, htype] using fun _ _ _ => h "selects" (by decide)
  · rw [hkind] at h
    simpa [ingressTriples, htype] using fun _ _ => h "routesTo" (by decide)
  · exact hsingle _
  · exact hsingle _
  · exact hsingle _
  · exact hsingle _
  · rw [hkind] at h
    exact avoids_budget htype h
  · rw [hkind] at h
    have hclass : k8s "usesStorageClass" ∉ ps := h "usesStorageClass" (by decide)
    have hbound : k8s "boundTo" ∉ ps := h "boundTo" (by decide)
    simp only [claimTriples, avoids_append, avoids_cons, avoids_nil, avoids_map, addType_p, addIri_p,
      avoids_storageClass hclass, hbound, htype, not_false_eq_true, implies_true, and_true]
  · rw [hkind] at h
    exact avoids_volumeObject htype h
  · rw [hkind] at h
    exact avoids_policy htype h key.ns nsopt
  · rw [hkind] at h
    exact avoids_role htype h key
  · rw [hkind] at h
    exact avoids_role htype h key
  · rw [hkind] at h
    exact avoids_binding htype h key nsopt
  · rw [hkind] at h
    exact avoids_binding htype h key nsopt
  · exact avoids_nil

/-! ## The properties of a snapshot -/

theorem avoids_head (h : ∀ w ∈ headTerms, k8s w ∉ ps) (input : SnapshotInput) (state : StateKind) (snap : Iri) :
    Avoids ps (snapshotHead ctx input state snap) := by
  simp only [headTerms, List.forall_mem_cons] at h
  have hfailed : Avoids ps (if input.failedKinds.isEmpty then [] else
      addBool snap (k8s "partial") true :: input.failedKinds.map fun fk => addStr snap (k8s "failedKind") fk) := by
    split
    · exact avoids_nil
    · simp only [avoids_cons, avoids_map, addBool_p, addStr_p, h, not_false_eq_true, implies_true, and_true]
  simp only [snapshotHead, avoids_append, avoids_cons, avoids_nil, avoids_map, addType_p, addIri_p, addStr_p, hfailed,
    htype, h, not_false_eq_true, implies_true, and_true]

omit htype in
/-- What is said of every object. -/
theorem mem_objectTriples {counts : KeyMap (BTreeMap Int)} {digests : KeyMap (BTreeMap (List String))} {snap : Iri}
    {e : Key × Json} {t : Triple} (h : ∀ w ∈ objectTerms, k8s w ≠ t.p)
    (ht : t ∈ objectTriples ctx counts digests snap e) :
    t ∈ kindTriples ctx counts digests e.1 (nsOption e.1.ns) (ctx.iriOf e.1) e.2 := by
  simp only [objectTerms, List.forall_mem_cons] at h
  simp only [objectTriples, List.mem_append, List.mem_map, List.mem_cons, List.not_mem_nil, or_false] at ht
  rcases ht with ((((rfl | rfl | rfl) | ⟨_, _, rfl⟩) | rfl) | ⟨_, _, rfl⟩) | ht
  · exact absurd rfl h.1
  · exact absurd rfl h.2.1
  · exact absurd rfl h.2.2.1
  · exact absurd rfl h.2.2.2.1
  · exact absurd rfl h.2.2.2.2.1
  · exact absurd rfl h.2.2.2.2.2.1
  · exact ht

omit htype in
/-- A property that only some kinds have comes from an object of such a kind. -/
theorem exists_kindTriples {input : SnapshotInput} {state : StateKind} {t : Triple} {w : String} (hp : t.p = k8s w)
    (hhead : w ∉ headTerms) (hobject : w ∉ objectTerms) (ht : t ∈ (pendingSnapshot ctx input state).lines) :
    ∃ e ∈ countedObjects ctx, w ∈ kindTerms e.1.kind ∧
      t ∈ kindTriples ctx (placement ctx input.pods) (pulled ctx input.pods) e.1 (nsOption e.1.ns)
        (ctx.iriOf e.1) e.2 := by
  have htype : rdfType ∉ [k8s w] := by simp
  have hother : ∀ ws : List String, w ∉ ws → ∀ w' ∈ ws, k8s w' ∉ [k8s w] := by
    intro ws hw w' hw'
    rw [List.mem_singleton, k8s_inj]
    rintro rfl
    exact hw hw'
  rw [pendingSnapshot, Fragment.mem_ofTriples, List.mem_append, List.mem_flatMap] at ht
  rcases ht with ht | ⟨e, he, ht⟩
  · exact absurd (List.mem_singleton.mpr hp) (avoids_head htype (hother _ hhead) input state _ t ht)
  · have hkind := mem_objectTriples (fun w' hw' h => hother _ hobject w' hw' (List.mem_singleton.mpr (h.trans hp))) ht
    refine ⟨e, he, ?_, hkind⟩
    by_contra hw
    exact avoids_kind htype (hother _ hw) _ _ _ t hkind (List.mem_singleton.mpr hp)

end Nix2Rdf.K8s
