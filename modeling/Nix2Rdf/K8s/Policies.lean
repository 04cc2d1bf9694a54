import Nix2Rdf.K8s.Names

/-!
# Policies in a snapshot

What a snapshot of namespaces, workloads and network policies says about who may reach whom.
-/

namespace Nix2Rdf.K8s

open Triple

/-- The properties that the rules on reachability join, besides types and clusters. -/
def reachProps : List Iri :=
  [k8s "appliesTo", k8s "policyType", k8s "allowsIngressFrom", k8s "allowsAllIngress", k8s "inNamespace"]

/-- The other properties of such snapshots. -/
def otherProps : List Iri :=
  [rdfType, k8s "contains", k8s "name", k8s "kind", k8s "apiVersion", k8s "inCluster", k8s "label",
    k8s "ownedBy", k8s "ownerUnknown", k8s "replicas", k8s "readyReplicas", k8s "scheduledOn",
    k8s "replicasOnNode", k8s "costCenter", k8s "exemptSingleDomain", k8s "hasPDB", k8s "hasContainer",
    k8s "initContainer", k8s "imageRef", k8s "imageRepository", k8s "imageTag", k8s "unresolvedImage",
    k8s "runsImage", k8s "requestsCpu", k8s "requestsMemory", k8s "limitsCpu", k8s "limitsMemory",
    k8s "mounts", k8s "usesStorageClass", k8s "usesServiceAccount", k8s "snapshotKind",
    k8s "ofCluster", k8s "clusterId", k8s "partial", k8s "failedKind", k8s "allowsEgressTo",
    k8s "allowsAllEgress"]

theorem reachProps_not_other : ∀ p ∈ otherProps, p ∉ reachProps := by
  simp [otherProps, reachProps]

theorem no_g_k8s {w : String} (hw : 'G' ∉ w.toList) : 'G' ∉ (k8s w).toList := by
  have hbase : 'G' ∉ k8sNs.toList := by decide
  rw [k8s, String.toList_append, List.mem_append, not_or]
  exact ⟨hbase, hw⟩

theorem props_no_g : ∀ p ∈ reachProps ++ otherProps, 'G' ∉ p.toList := by
  have htype : 'G' ∉ rdfType.toList := by decide
  simp (disch := decide) only [reachProps, otherProps, List.cons_append, List.nil_append,
    List.forall_mem_cons, no_g_k8s, htype, not_false_eq_true, true_and]
  simp

variable {ctx : Ctx} {t : Triple}

theorem mountTriples_beside {wi : Iri} {ns : String} {v : Json} {refs : List (String × List String)}
    (ht : t ∈ mountTriples ctx wi ns v refs) : t.p ∈ otherProps := by
  simp only [mountTriples, List.mem_filterMap, Option.map_eq_some_iff] at ht
  obtain ⟨_, _, _, _, rfl⟩ := ht
  simp [otherProps]

theorem containerTriples_beside {w : Json} {wi : Iri} {pulled : BTreeMap (List String)} {init : Bool}
    {c : Json} (ht : t ∈ containerTriples ctx w wi pulled init c) : t.p ∈ otherProps := by
  simp only [containerTriples, List.mem_append, List.mem_map, List.mem_flatMap, List.mem_filterMap,
    Option.map_eq_some_iff, List.mem_cons, List.not_mem_nil, or_false] at ht
  rcases ht with ((((((((rfl | rfl | rfl) | ht) | rfl | rfl) | ⟨_, _, rfl⟩) | ht) | ⟨_, _, rfl⟩) |
    ⟨r, hr, _, _, rfl⟩) | ⟨_, _, ht⟩) | ⟨_, _, ht⟩
  · simp [otherProps]
  · simp [otherProps]
  · simp [otherProps]
  · split at ht
    · cases List.mem_singleton.mp ht
      simp [otherProps]
    · cases ht
  · simp [otherProps]
  · simp [otherProps]
  · simp [otherProps]
  · split at ht
    · cases List.mem_singleton.mp ht
      simp [otherProps]
    · cases ht
  · simp [otherProps]
  · rcases hr with rfl | rfl | rfl | rfl <;> simp [otherProps]
  · exact mountTriples_beside ht
  · exact mountTriples_beside ht

theorem volumeTriples_beside {wi : Iri} {ns : String} {v : Json} (ht : t ∈ volumeTriples ctx wi ns v) :
    t.p ∈ otherProps := by
  rw [volumeTriples, List.mem_append, List.mem_flatMap] at ht
  rcases ht with ht | ⟨_, _, ht⟩
  · exact mountTriples_beside ht
  · exact mountTriples_beside ht

theorem containerSpecs_beside {w : Json} {wi : Iri} {pulled : BTreeMap (List String)}
    (ht : t ∈ containerSpecs ctx w wi pulled) : t.p ∈ otherProps := by
  rw [containerSpecs] at ht
  split at ht
  · cases ht
  · simp only [List.mem_append, List.mem_flatMap, List.mem_filterMap, Option.map_eq_some_iff,
      List.mem_singleton] at ht
    rcases ht with (((⟨_, _, ht⟩ | ⟨_, _, ht⟩) | ⟨_, _, ht⟩) | ⟨_, _, _, _, rfl⟩) | rfl
    · exact containerTriples_beside ht
    · exact containerTriples_beside ht
    · exact volumeTriples_beside ht
    · simp [otherProps]
    · simp [otherProps]

theorem addLabels_beside {subj : Iri} {labels : Labels} (ht : t ∈ addLabels subj labels) :
    t.p ∈ otherProps := by
  obtain ⟨_, _, rfl⟩ := List.mem_map.mp ht
  simp [otherProps]

theorem ownerTriples_beside {oi : Iri} {owner : Option String} (ht : t ∈ ownerTriples oi owner) :
    t.p ∈ otherProps := by
  cases owner with
  | none =>
      cases List.mem_singleton.mp ht
      simp [otherProps]
  | some ow =>
      simp only [ownerTriples, List.mem_cons, List.not_mem_nil, or_false] at ht
      rcases ht with rfl | rfl | rfl <;> simp [otherProps]

theorem namespaceTriples_beside {oi : Iri} {o : Json} (ht : t ∈ namespaceTriples ctx oi o) :
    t.p ∈ otherProps := by
  rw [namespaceTriples, List.mem_append, List.mem_append, List.mem_singleton] at ht
  rcases ht with (rfl | ht) | ht
  · simp [otherProps]
  · exact addLabels_beside ht
  · exact ownerTriples_beside ht

theorem workloadTriples_beside {counts : KeyMap (BTreeMap Int)} {digests : KeyMap (BTreeMap (List String))}
    {key : Key} {nsopt : Option String} {oi : Iri} {o : Json}
    (ht : t ∈ workloadTriples ctx counts digests key nsopt oi o) : t.p ∈ otherProps := by
  simp only [workloadTriples, List.mem_append, List.mem_map, List.mem_flatMap, List.mem_cons,
    List.not_mem_nil, or_false] at ht
  rcases ht with (((((((((rfl | rfl) | ht) | ⟨_, _, rfl⟩) | ⟨_, _, rfl⟩) | ⟨_, _, rfl | rfl⟩) | ht) | ht) |
    ⟨_, _, rfl⟩) | ht) | ⟨_, _, rfl⟩
  · simp [otherProps]
  · simp [otherProps]
  · exact addLabels_beside ht
  · simp [otherProps]
  · simp [otherProps]
  · simp [otherProps]
  · simp [otherProps]
  · exact containerSpecs_beside ht
  · exact ownerTriples_beside ht
  · simp [otherProps]
  · split at ht
    · cases List.mem_singleton.mp ht
      simp [otherProps]
    · cases ht
  · simp [otherProps]

theorem snapshotHead_beside {input : SnapshotInput} {state : StateKind} {snap : Iri}
    (ht : t ∈ snapshotHead ctx input state snap) : t.p ∈ otherProps := by
  simp only [snapshotHead, List.mem_append, List.mem_map, List.mem_cons, List.not_mem_nil, or_false] at ht
  rcases ht with ((rfl | rfl | rfl | rfl | rfl) | ht) | ⟨_, _, rfl⟩
  · simp [otherProps]
  · simp [otherProps]
  · simp [otherProps]
  · simp [otherProps]
  · simp [otherProps]
  · split at ht
    · cases ht
    · rcases List.mem_cons.mp ht with rfl | ht
      · simp [otherProps]
      · obtain ⟨_, _, rfl⟩ := List.mem_map.mp ht
        simp [otherProps]
  · simp [otherProps]

/-! ## Policies -/

theorem mem_ruleTriples {ns : String} {oi prop allProp : Iri} {rule : Json} :
    t ∈ ruleTriples ctx ns oi prop allProp rule ↔
      (rulePeers rule = [] ∧ t = addBool oi allProp true) ∨
      ∃ peer ∈ rulePeers rule, ∃ pns ∈ peerNamespaces ctx ns peer,
        (∃ ps, peer.get? "podSelector" = some ps ∧ ∃ w ∈ ctx.workloadsIn pns,
          selectorMatches (some ps) (podLabels w) true ∧
            t = addIri oi prop (ctx.objIri (kind w) (some pns) (name w))) ∨
        (peer.get? "podSelector" = none ∧ t = addIri oi prop (Iri.k8sNamespace ctx.cid pns)) := by
  have hpeer : ∀ peer, t ∈ peerTriples ctx ns oi prop peer ↔ ∃ pns ∈ peerNamespaces ctx ns peer,
      (∃ ps, peer.get? "podSelector" = some ps ∧ ∃ w ∈ ctx.workloadsIn pns,
        selectorMatches (some ps) (podLabels w) true ∧
          t = addIri oi prop (ctx.objIri (kind w) (some pns) (name w))) ∨
      (peer.get? "podSelector" = none ∧ t = addIri oi prop (Iri.k8sNamespace ctx.cid pns)) := by
    intro peer
    rw [peerTriples, List.mem_flatMap]
    cases peer.get? "podSelector" with
    | none => simp
    | some ps =>
        simp only [List.mem_map, List.mem_filter, Option.some.injEq, exists_eq_left', reduceCtorEq,
          false_and, or_false, and_assoc, eq_comm (a := t)]
  rw [ruleTriples]
  split
  · rename_i hempty
    have hnil := List.isEmpty_iff.mp hempty
    simp [hnil]
  · rename_i hne
    have hnil : rulePeers rule ≠ [] := fun h => hne (by rw [h]; rfl)
    simp [hnil, List.mem_flatMap, hpeer]

theorem ruleTriples_p {ns : String} {oi prop allProp : Iri} {rule : Json}
    (ht : t ∈ ruleTriples ctx ns oi prop allProp rule) : t.p = prop ∨ t.p = allProp := by
  rcases mem_ruleTriples.mp ht with ⟨_, rfl⟩ | ⟨_, _, _, _, ⟨_, _, _, _, _, rfl⟩ | ⟨_, rfl⟩⟩
  · exact .inr rfl
  · exact .inl rfl
  · exact .inl rfl

theorem policyTriples_cases {ns : String} {nsopt : Option String} {oi : Iri} {o : Json}
    (ht : t ∈ policyTriples ctx ns nsopt oi o) : t.p ∈ otherProps ∨
      (∃ ty ∈ policyTypes o, t = addStr oi (k8s "policyType") ty) ∨
      (∃ w ∈ ctx.workloadsIn ns, selectorMatches (o.path? ["spec", "podSelector"]) (podLabels w) true ∧
        t = addIri oi (k8s "appliesTo") (ctx.objIri (kind w) nsopt (name w))) ∨
      ("Ingress" ∈ policyTypes o ∧ ∃ rule ∈ arr o ["spec", "ingress"],
        t ∈ ruleTriples ctx ns oi (k8s "allowsIngressFrom") (k8s "allowsAllIngress") rule) := by
  simp only [policyTriples, List.mem_append, List.mem_map, List.mem_filter, List.mem_singleton] at ht
  rcases ht with (((rfl | ⟨ty, hty, rfl⟩) | ⟨w, ⟨hw, hsel⟩, rfl⟩) | ht) | ht
  · simp [otherProps]
  · exact .inr (.inl ⟨ty, hty, rfl⟩)
  · exact .inr (.inr (.inl ⟨w, hw, hsel, rfl⟩))
  · split at ht
    · exact .inr (.inr (.inr ⟨‹_›, List.mem_flatMap.mp ht⟩))
    · cases ht
  · split at ht
    · obtain ⟨rule, _, ht⟩ := List.mem_flatMap.mp ht
      left
      rcases ruleTriples_p ht with h | h <;> rw [h] <;> simp [otherProps]
    · cases ht

theorem mem_policyTriples_type {ns : String} {nsopt : Option String} {oi : Iri} {o : Json} {ty : String}
    (hty : ty ∈ policyTypes o) : addStr oi (k8s "policyType") ty ∈ policyTriples ctx ns nsopt oi o := by
  simp only [policyTriples, List.mem_append, List.mem_map]
  exact .inl (.inl (.inl (.inr ⟨ty, hty, rfl⟩)))

theorem mem_policyTriples_applies {ns : String} {nsopt : Option String} {oi : Iri} {o w : Json}
    (hw : w ∈ ctx.workloadsIn ns)
    (hsel : selectorMatches (o.path? ["spec", "podSelector"]) (podLabels w) true) :
    addIri oi (k8s "appliesTo") (ctx.objIri (kind w) nsopt (name w)) ∈ policyTriples ctx ns nsopt oi o := by
  simp only [policyTriples, List.mem_append, List.mem_map, List.mem_filter]
  exact .inl (.inl (.inr ⟨w, ⟨hw, hsel⟩, rfl⟩))

theorem mem_policyTriples_rule {ns : String} {nsopt : Option String} {oi : Iri} {o rule : Json}
    (hingress : "Ingress" ∈ policyTypes o) (hrule : rule ∈ arr o ["spec", "ingress"])
    (ht : t ∈ ruleTriples ctx ns oi (k8s "allowsIngressFrom") (k8s "allowsAllIngress") rule) :
    t ∈ policyTriples ctx ns nsopt oi o := by
  simp only [policyTriples, List.mem_append, if_pos hingress]
  exact .inl (.inr (List.mem_flatMap.mpr ⟨rule, hrule, ht⟩))

/-! ## Snapshots -/

/-- The namespaces, workloads and network policies of a cluster: everything is named as Kubernetes
names things, and every namespace that is used has its object. -/
structure ClusterObjects (objects : List Json) : Prop where
  kinds : ∀ o ∈ objects, kind o ∈ policyKinds
  names : ∀ o ∈ objects, DnsName (name o)
  namespaces : ∀ o ∈ objects, kind o ≠ "Namespace" →
    ∃ n ∈ objects, kind n = "Namespace" ∧ name n = (namespaceOf o).getD "default"

variable {input : SnapshotInput} {opts : SnapshotOptions}

theorem keyOf_ns {o : Json} (hkind : kind o ∈ policyKinds) (hns : kind o ≠ "Namespace") :
    (keyOf o).ns = (namespaceOf o).getD "default" := by
  simp only [policyKinds, workloadKinds, List.mem_cons, List.not_mem_nil, or_false] at hkind
  have hcluster : kind o ∉ clusterKinds := by
    rcases hkind with h | h | h | h | h | h | h
    · exact absurd h hns
    all_goals
      rw [h]
      decide
  rw [keyOf, if_neg hcluster]

theorem ClusterObjects.indexable (h : ClusterObjects input.objects) {o : Json} (ho : o ∈ input.objects) :
    Indexable o := by
  have hall : ∀ kind ∈ policyKinds, kind ≠ "" ∧ kind ≠ "Pod" := by decide
  exact hall _ (h.kinds o ho)

theorem ClusterObjects.namespace (h : ClusterObjects input.objects) {k : Key} {o : Json}
    (hk : (ctxOf input opts).index[k]? = some o) (hns : k.kind ≠ "Namespace") :
    ∃ n, (ctxOf input opts).index[(⟨"Namespace", "", k.ns⟩ : Key)]? = some n ∧ DnsName k.ns := by
  obtain ⟨ho, rfl, _⟩ := of_mem_index hk
  obtain ⟨n, hn, hkind, hname⟩ := h.namespaces o ho hns
  rw [keyOf_ns (h.kinds o ho) hns, ← hname, ← keyOf_namespace hkind]
  obtain ⟨n', hn'⟩ := exists_indexOf hn (h.indexable hn)
  exact ⟨n', hn', h.names n hn⟩

theorem ClusterObjects.validKey (h : ClusterObjects input.objects) {k : Key} {o : Json}
    (hk : (ctxOf input opts).index[k]? = some o) : ValidKey k := by
  obtain ⟨ho, hkey, _⟩ := of_mem_index hk
  have hkind : k.kind ∈ policyKinds := hkey ▸ h.kinds o ho
  refine ⟨hkind, hkey ▸ h.names o ho, ?_⟩
  split
  · rename_i hns
    have hnso : kind o = "Namespace" := (congrArg Key.kind hkey).trans hns
    rw [← hkey, keyOf_namespace hnso]
  · rename_i hns
    exact (h.namespace hk hns).choose_spec.2

theorem ClusterObjects.nsOption_eq (h : ClusterObjects input.objects) {k : Key} {o : Json}
    (hk : (ctxOf input opts).index[k]? = some o) (hns : k.kind ≠ "Namespace") : nsOption k.ns = some k.ns :=
  if_neg (h.namespace hk hns).choose_spec.2.1

/-- Where a statement that reachability depends on comes from. -/
theorem pending_cases (h : ClusterObjects input.objects) {state : StateKind}
    (ht : t ∈ (pendingSnapshot (ctxOf input opts) input state).lines) : t.p ∈ otherProps ∨
      ∃ k o, (ctxOf input opts).index[k]? = some o ∧
        ((k.kind ≠ "Namespace" ∧ t = addIri ((ctxOf input opts).iriOf k) (k8s "inNamespace")
            (Iri.k8sNamespace opts.clusterId k.ns)) ∨
          (k.kind = "NetworkPolicy" ∧
            t ∈ policyTriples (ctxOf input opts) k.ns (some k.ns) ((ctxOf input opts).iriOf k) o)) := by
  rw [pendingSnapshot, Fragment.mem_ofTriples, List.mem_append, List.mem_flatMap] at ht
  rcases ht with ht | ⟨⟨k, o⟩, hmem, ht⟩
  · exact .inl (snapshotHead_beside ht)
  have hk : (ctxOf input opts).index[k]? = some o :=
    Std.ExtTreeMap.mem_toList_iff_getElem?_eq_some.mp (List.mem_filter.mp hmem).1
  have hvalid := h.validKey hk
  simp only [objectTriples, List.mem_append, List.mem_map, List.mem_cons, List.not_mem_nil, or_false] at ht
  rcases ht with ((((rfl | rfl | rfl) | ⟨_, _, rfl⟩) | rfl) | ⟨ns, hns, rfl⟩) | ht
  · simp [otherProps]
  · simp [otherProps]
  · simp [otherProps]
  · simp [otherProps]
  · simp [otherProps]
  · right
    refine ⟨k, o, hk, .inl ⟨?_, ?_⟩⟩
    · intro hkind
      have hempty := hvalid.ns
      rw [if_pos hkind] at hempty
      simp [nsOption, hempty] at hns
    · have : k.ns = ns := by
        unfold nsOption at hns
        split at hns
        · cases hns
        · exact (List.mem_singleton.mp hns).symm
      rw [this]
      rfl
  · have hkind := hvalid.kind
    simp only [policyKinds, workloadKinds, List.mem_cons, List.not_mem_nil, or_false] at hkind
    unfold kindTriples at ht
    rcases hkind with hkind | hkind | hkind | hkind | hkind | hkind | hkind <;> rw [hkind] at ht
    · exact .inl (namespaceTriples_beside ht)
    · right
      have hns : k.kind ≠ "Namespace" := by rw [hkind]; decide
      rw [h.nsOption_eq hk hns] at ht
      exact ⟨k, o, hk, .inr ⟨hkind, ht⟩⟩
    all_goals exact .inl (workloadTriples_beside ht)

end Nix2Rdf.K8s
