import Nix2Rdf.K8s.Index

/-!
# The IRIs of a snapshot

Every triple of a snapshot is about an entity whose IRI is a path of encoded segments, or about an
object, in whose path the kind stands as it is. The node inventory adds the generations.
-/

namespace Nix2Rdf.K8s

open Text (slash)
open Triple

/-- The local names of the properties of a snapshot, besides `runsImage`. -/
def snapshotTerms : List String :=
  ["label", "ownedBy", "ownerUnknown", "name", "kind", "apiVersion", "inCluster", "inNamespace", "contains",
    "snapshotKind", "ofCluster", "clusterId", "partial", "failedKind", "mounts", "hasContainer",
    "initContainer", "imageRef", "imageRepository", "imageTag", "unresolvedImage", "requestsCpu",
    "requestsMemory", "limitsCpu", "limitsMemory", "usesStorageClass", "usesServiceAccount", "replicas",
    "readyReplicas", "scheduledOn", "replicasOnNode", "costCenter", "exemptSingleDomain", "hasPDB",
    "selects", "routesTo", "minAvailable", "maxUnavailable", "boundTo", "pinnedToNode", "policyType",
    "appliesTo", "allowsIngressFrom", "allowsAllIngress", "allowsEgressTo", "allowsAllEgress", "apiGroup",
    "resource", "verb", "permits", "aggregates", "subjectOf", "grants", "nodeRole", "kubeletVersion",
    "containerRuntimeVersion", "kernelVersion", "osImage", "domainKind", "inFailureDomain"]

/-- The local names of classes and of the values of `snapshotKind`. -/
def classTerms : List String :=
  ["Snapshot", "liveState", "desiredState", "Cluster", "Owner", "ContainerSpec", "Namespace", "Workload",
    "Deployment", "StatefulSet", "DaemonSet", "Job", "CronJob", "Service", "Ingress", "ConfigMap", "Secret",
    "ServiceAccount", "StorageClass", "PodDisruptionBudget", "PersistentVolumeClaim", "PersistentVolume",
    "NetworkPolicy", "Permission", "Role", "ClusterRole", "User", "Group", "RoleBinding",
    "ClusterRoleBinding", "Node", "FailureDomain"]

/-- Lowercase hexadecimal digits. -/
def HexText (s : String) : Prop := ∀ c ∈ s.toList, (48 ≤ c.toNat ∧ c.toNat ≤ 57) ∨ (97 ≤ c.toNat ∧ c.toNat ≤ 102)

/-- The IRIs that occur in a snapshot and in the node inventory. -/
inductive Minted (ctx : Ctx) : Iri → Prop
  | path (segs : List String) : Minted ctx (id (slash (segs.map encodeSegment)))
  | term {c : String} : c ∈ classTerms → Minted ctx (k8s c)
  | object {e : Key × Json} : e ∈ countedObjects ctx → Minted ctx (ctx.iriOf e.1)

/-- The kinds in the paths of what a snapshot refers to. -/
def entityKinds : List String :=
  ["node", "ns", "ConfigMap", "Secret", "PersistentVolumeClaim", "StorageClass", "ServiceAccount",
    "PodDisruptionBudget", "Service", "PersistentVolume", "ClusterRole", "Role", "user", "group",
    "Deployment", "StatefulSet", "DaemonSet", "Job", "CronJob"]

/-- The entities a snapshot is about, which are not graphs. -/
inductive Entity (ctx : Ctx) : Iri → Prop
  | cluster : Entity ctx (Iri.k8sCluster ctx.cid)
  | obj {kind : String} (hk : kind ∈ entityKinds) (ns : Option String) (name : String) :
      Entity ctx (Iri.k8sObj ctx.cid kind ns name)
  | container {kind : String} (hk : kind ∈ entityKinds) (ns name container : String) :
      Entity ctx (Iri.k8sContainer ctx.cid kind ns name container)
  | domain {kind : String} (hk : kind ∈ ["zone", "region", "rack", "site"]) (value : String) :
      Entity ctx (Iri.k8sFailureDomain ctx.cid kind value)
  | permission (group resource verb : String) : Entity ctx (Iri.k8sPermission ctx.cid group resource verb)
  | owner (value : String) : Entity ctx (Iri.owner value)
  | term {c : String} : c ∈ classTerms → Entity ctx (k8s c)
  | object {e : Key × Json} : e ∈ countedObjects ctx → Entity ctx (ctx.iriOf e.1)

/-- The shapes of the triples about some IRIs, with the words they are made of. -/
inductive Shaped (M : Iri → Prop) (classes terms gens : List String) : Triple → Prop
  | type {i : Iri} {c : String} : M i → c ∈ classes → Shaped M classes terms gens (addType i (k8s c))
  | lit {i : Iri} {w v dt : String} : M i → w ∈ terms → dt ∈ ["string", "integer", "boolean"] →
      Shaped M classes terms gens (addTyped i (k8s w) v (xsd dt))
  | ref {i o : Iri} {w : String} : M i → w ∈ terms → M o → Shaped M classes terms gens (addIri i (k8s w) o)
  | image {i : Iri} {d : String} : M i → HexText d →
      Shaped M classes terms gens (addIri i (k8s "runsImage") (Iri.image d))
  | generation {i : Iri} {g : String} : M i → g ∈ gens →
      Shaped M classes terms gens (addIri i (k8s "hostGeneration") (Iri.gen g))

def Described (ctx : Ctx) (gens : List String) : Triple → Prop :=
  Shaped (Minted ctx) classTerms snapshotTerms gens

/-- What only the snapshot itself is said to have. -/
def graphTerms : List String := ["snapshotKind", "ofCluster", "partial", "failedKind", "contains"]

inductive OfSnapshot (ctx : Ctx) (snap : Iri) : Triple → Prop
  | type : OfSnapshot ctx snap (addType snap (k8s "Snapshot"))
  | lit {w v dt : String} : w ∈ graphTerms → dt ∈ ["string", "integer", "boolean"] →
      OfSnapshot ctx snap (addTyped snap (k8s w) v (xsd dt))
  | ref {w : String} {o : Iri} : w ∈ graphTerms → Entity ctx o → OfSnapshot ctx snap (addIri snap (k8s w) o)

def entityTerms : List String := snapshotTerms.filter (· ∉ graphTerms)

def entityClasses : List String := classTerms.filter (· ≠ "Snapshot")

def OfEntity (ctx : Ctx) (gens : List String) : Triple → Prop :=
  Shaped (Entity ctx) entityClasses entityTerms gens

variable {ctx : Ctx} {gens : List String}

section Shaped

variable {M : Iri → Prop} {classes words : List String} {t : Triple}

theorem Shaped.terms (h : Shaped M classes words gens t) :
    (∃ i, M i ∧ t.s = .iri i) ∧ ((∃ i, t.o = .iri i) ∨ ∃ v dt, t.o = .literal v dt) := by
  cases h with
  | lit hi _ _ => exact ⟨⟨_, hi, rfl⟩, .inr ⟨_, _, rfl⟩⟩
  | type hi _ => exact ⟨⟨_, hi, rfl⟩, .inl ⟨_, rfl⟩⟩
  | ref hi _ _ => exact ⟨⟨_, hi, rfl⟩, .inl ⟨_, rfl⟩⟩
  | image hi _ => exact ⟨⟨_, hi, rfl⟩, .inl ⟨_, rfl⟩⟩
  | generation hi _ => exact ⟨⟨_, hi, rfl⟩, .inl ⟨_, rfl⟩⟩

theorem Shaped.mono {M' : Iri → Prop} {classes' words' : List String} (hM : ∀ i, M i → M' i)
    (hclasses : ∀ c ∈ classes, c ∈ classes') (hwords : ∀ w ∈ words, w ∈ words')
    (h : Shaped M classes words gens t) : Shaped M' classes' words' gens t := by
  cases h with
  | type hi hc => exact .type (hM _ hi) (hclasses _ hc)
  | lit hi hw hdt => exact .lit (hM _ hi) (hwords _ hw) hdt
  | ref hi hw ho => exact .ref (hM _ hi) (hwords _ hw) (hM _ ho)
  | image hi hd => exact .image (hM _ hi) hd
  | generation hi hg => exact .generation (hM _ hi) hg

end Shaped

theorem Described.terms {t : Triple} (h : Described ctx gens t) :
    (∃ i, t.s = .iri i) ∧ ((∃ i, t.o = .iri i) ∨ ∃ v dt, t.o = .literal v dt) := by
  obtain ⟨⟨i, _, hi⟩, ho⟩ := Shaped.terms h
  exact ⟨⟨i, hi⟩, ho⟩

/-! ## Paths -/

/-- The words that stand in paths as they are. -/
def pathWords : List String :=
  ["k8s", "cluster", "node", "ns", "c", "domain", "permission", "org", "owner", "zone", "region", "rack",
    "site", "snapshot", placeholder, "ConfigMap", "Secret", "PersistentVolumeClaim", "StorageClass",
    "ServiceAccount", "PodDisruptionBudget", "Service", "PersistentVolume", "ClusterRole", "Role", "user",
    "group", "Deployment", "StatefulSet", "DaemonSet", "Job", "CronJob"]

theorem encodeSegment_pathWords : ∀ w ∈ pathWords, encodeSegment w = w := by decide +kernel

theorem Minted.of_segs {raw : List String} (segs : List String) (h : segs.map encodeSegment = raw) :
    Minted ctx (id (slash raw)) := by
  rw [← h]
  exact .path segs

theorem minted_cluster (cid : String) : Minted ctx (Iri.k8sCluster cid) :=
  .of_segs ["k8s", "cluster", cid] (by
    rw [List.map_cons, List.map_cons, List.map_singleton, encodeSegment_pathWords "k8s" (by decide),
      encodeSegment_pathWords "cluster" (by decide)])

theorem minted_obj {cid kind : String} (hk : kind ∈ pathWords) (ns : Option String) (name : String) :
    Minted ctx (Iri.k8sObj cid kind ns name) := by
  have hk8s := encodeSegment_pathWords "k8s" (by decide)
  have hkind := encodeSegment_pathWords kind hk
  cases ns with
  | none => exact .of_segs ["k8s", cid, kind, name] (by simp only [List.map_cons, List.map_nil, hk8s, hkind])
  | some ns =>
      exact .of_segs ["k8s", cid, kind, ns, name] (by simp only [List.map_cons, List.map_nil, hk8s, hkind])

theorem entityKinds_pathWords : ∀ k ∈ entityKinds, k ∈ pathWords := by decide

theorem minted_container {cid kind : String} (hk : kind ∈ pathWords) (ns name container : String) :
    Minted ctx (Iri.k8sContainer cid kind ns name container) := by
  have hk8s := encodeSegment_pathWords "k8s" (by decide)
  have hc := encodeSegment_pathWords "c" (by decide)
  have hkind := encodeSegment_pathWords kind hk
  exact .of_segs ["k8s", cid, kind, ns, name, "c", container]
    (by simp only [List.map_cons, List.map_nil, hk8s, hkind, hc])

theorem minted_domain {cid kind : String} (hk : kind ∈ pathWords) (value : String) :
    Minted ctx (Iri.k8sFailureDomain cid kind value) := by
  have hk8s := encodeSegment_pathWords "k8s" (by decide)
  have hdomain := encodeSegment_pathWords "domain" (by decide)
  have hkind := encodeSegment_pathWords kind hk
  exact .of_segs ["k8s", cid, "domain", kind, value]
    (by simp only [List.map_cons, List.map_nil, hk8s, hkind, hdomain])

theorem minted_permission (cid group resource verb : String) :
    Minted ctx (Iri.k8sPermission cid group resource verb) := by
  have hk8s := encodeSegment_pathWords "k8s" (by decide)
  have hpermission := encodeSegment_pathWords "permission" (by decide)
  exact .of_segs ["k8s", cid, "permission", if group = "" then "core" else group, resource, verb]
    (by simp only [List.map_cons, List.map_nil, hk8s, hpermission])

theorem minted_owner (value : String) : Minted ctx (Iri.owner value) := by
  have horg := encodeSegment_pathWords "org" (by decide)
  have howner := encodeSegment_pathWords "owner" (by decide)
  exact .of_segs ["org", "owner", value] (by simp only [List.map_cons, List.map_nil, horg, howner])

theorem minted_snapshot (cid : String) : Minted ctx (Iri.k8sSnapshot cid placeholder) := by
  have hk8s := encodeSegment_pathWords "k8s" (by decide)
  have hsnapshot := encodeSegment_pathWords "snapshot" (by decide)
  have hplaceholder := encodeSegment_pathWords placeholder (by decide)
  exact .of_segs ["k8s", cid, "snapshot", placeholder]
    (by simp only [List.map_cons, List.map_nil, hk8s, hsnapshot, hplaceholder])

theorem Entity.minted {i : Iri} (h : Entity ctx i) : Minted ctx i := by
  have hdomain : ∀ k ∈ ["zone", "region", "rack", "site"], k ∈ pathWords := by decide
  cases h with
  | cluster => exact minted_cluster _
  | obj hk ns name => exact minted_obj (entityKinds_pathWords _ hk) ns name
  | container hk ns name container => exact minted_container (entityKinds_pathWords _ hk) ns name container
  | domain hk value => exact minted_domain (hdomain _ hk) value
  | permission group resource verb => exact minted_permission _ group resource verb
  | owner value => exact minted_owner value
  | term hc => exact .term hc
  | object he => exact .object he

theorem OfEntity.described {t : Triple} (h : OfEntity ctx gens t) : Described ctx gens t :=
  h.mono (fun _ => Entity.minted) (fun _ hc => (List.mem_filter.mp hc).1) fun _ hw => (List.mem_filter.mp hw).1

theorem OfSnapshot.described {cid : String} {t : Triple} (h : OfSnapshot ctx (Iri.k8sSnapshot cid placeholder) t) :
    Described ctx gens t := by
  have hsnap : Minted ctx (Iri.k8sSnapshot cid placeholder) := minted_snapshot cid
  have hterm : ∀ w ∈ graphTerms, w ∈ snapshotTerms := by decide
  cases h with
  | type => exact .type hsnap (by decide)
  | lit hw hdt => exact .lit hsnap (hterm _ hw) hdt
  | ref hw ho => exact .ref hsnap (hterm _ hw) ho.minted

theorem entity_node (name : String) : Entity ctx (Iri.k8sNode ctx.cid name) := .obj (by decide) none name

theorem entity_namespace (name : String) : Entity ctx (Iri.k8sNamespace ctx.cid name) :=
  .obj (by decide) none name

theorem entity_objIri {kind : String} (hk : kind ∈ entityKinds) (ns : Option String) (name : String) :
    Entity ctx (ctx.objIri kind ns name) := by
  unfold Ctx.objIri
  split
  · exact entity_node _
  · exact entity_namespace _
  · exact .obj hk ns name

theorem workloadKinds_entityKinds : ∀ k ∈ workloadKinds, k ∈ entityKinds := by decide

/-! ## Objects of a kind -/

theorem kind_of_mem_index {input : SnapshotInput} {opts : SnapshotOptions} {e : Key × Json}
    (he : e ∈ (ctxOf input opts).index.toList) : kind e.2 = e.1.kind := by
  have h := Std.ExtTreeMap.mem_toList_iff_getElem?_eq_some.mp he
  rw [← (of_mem_indexOf h).2.1]
  rfl

theorem kind_of_mem_workloadsIn {input : SnapshotInput} {opts : SnapshotOptions} {ns : String} {w : Json}
    (hw : w ∈ (ctxOf input opts).workloadsIn ns) : kind w ∈ entityKinds := by
  obtain ⟨e, he, rfl⟩ := List.mem_map.mp hw
  obtain ⟨he, hcond⟩ := List.mem_filter.mp he
  rw [kind_of_mem_index he]
  exact workloadKinds_entityKinds _ (of_decide_eq_true hcond).1

/-! ## Containers -/

theorem OfEntity.str {i : Iri} {w : String} (v : String) (hi : Entity ctx i) (hw : w ∈ entityTerms) :
    OfEntity ctx gens (addStr i (k8s w) v) := .lit hi hw (by decide)

theorem OfEntity.bool {i : Iri} {w : String} (v : Bool) (hi : Entity ctx i) (hw : w ∈ entityTerms) :
    OfEntity ctx gens (addBool i (k8s w) v) := .lit hi hw (by decide)

theorem OfEntity.int {i : Iri} {w : String} (v : Int) (hi : Entity ctx i) (hw : w ∈ entityTerms) :
    OfEntity ctx gens (addInt i (k8s w) v) := .lit hi hw (by decide)

variable {t : Triple} {wi oi : Iri}

theorem described_labels (hi : Entity ctx oi) (labels : Labels) (ht : t ∈ addLabels oi labels) :
    OfEntity ctx gens t := by
  obtain ⟨kv, _, rfl⟩ := List.mem_map.mp ht
  exact .str _ hi (by decide)

theorem described_mounts (hi : Entity ctx wi) {ns : String} {v : Json} {refs : List (String × List String)}
    (hrefs : ∀ r ∈ refs, r.1 ∈ entityKinds) (ht : t ∈ mountTriples ctx wi ns v refs) : OfEntity ctx gens t := by
  obtain ⟨r, hr, h⟩ := List.mem_filterMap.mp ht
  obtain ⟨nm, _, rfl⟩ := Option.map_eq_some_iff.mp h
  exact .ref hi (by decide) (entity_objIri (hrefs r hr) _ _)

theorem toLower_hex {c : Char} (hc : isHexDigit c = true) :
    (48 ≤ c.toLower.toNat ∧ c.toLower.toNat ≤ 57) ∨ (97 ≤ c.toLower.toNat ∧ c.toLower.toNat ≤ 102) := by
  have hall : ∀ n < 128, isHexDigit (Char.ofNat n) = true →
      (48 ≤ (Char.ofNat n).toLower.toNat ∧ (Char.ofNat n).toLower.toNat ≤ 57) ∨
        (97 ≤ (Char.ofNat n).toLower.toNat ∧ (Char.ofNat n).toLower.toNat ≤ 102) := by decide +kernel
  have hlt : c.toNat < 128 := by
    have h := hc
    simp only [isHexDigit, Char.isDigit, Bool.or_eq_true, Bool.and_eq_true, decide_eq_true_eq, Char.le_def,
      UInt32.le_iff_toNat_le] at h
    have hval : c.toNat = c.val.toNat := rfl
    have hf : 'f'.val.toNat = 102 := rfl
    have hF : 'F'.val.toNat = 70 := rfl
    have h9 : '9'.val.toNat = 57 := rfl
    omega
  have h := hall c.toNat hlt
  rw [Char.ofNat_toNat] at h
  exact h hc

theorem hexText_of_digestHex {d h : String} (hd : digestHex d = some h) : HexText h := by
  simp only [digestHex, Option.bind_eq_some_iff] at hd
  obtain ⟨body, _, hbody⟩ := hd
  split at hbody
  · rename_i hall
    cases hbody
    intro c hc
    rw [String.toList_ofList, List.mem_map] at hc
    obtain ⟨b, hb, rfl⟩ := hc
    exact toLower_hex (List.all_eq_true.mp hall.2 b hb)
  · cases hbody

/-- All digests of the pods are hexadecimal. -/
def HexDigests (m : KeyMap (BTreeMap (List String))) : Prop :=
  ∀ (key : Key) (names : BTreeMap (List String)), m[key]? = some names → ∀ (cname : String) (ds : List String),
    names[cname]? = some ds → ∀ d ∈ ds, HexText d

theorem HexDigests.getD {m : KeyMap (BTreeMap (List String))} (h : HexDigests m) (key : Key) (cname : String) :
    ∀ d ∈ (m[key]?.getD ∅)[cname]?.getD [], HexText d := by
  intro d hd
  cases hnames : m[key]? with
  | none =>
      rw [hnames] at hd
      simp at hd
  | some names =>
      rw [hnames, Option.getD_some] at hd
      cases hds : names[cname]? with
      | none =>
          rw [hds] at hd
          cases hd
      | some ds =>
          rw [hds] at hd
          exact h key names hnames cname ds hds d hd

theorem HexDigests.insert {m : KeyMap (BTreeMap (List String))} (h : HexDigests m) (key : Key)
    (cname : String) {d : String} (hd : HexText d) :
    HexDigests (m.insert key ((m[key]?.getD ∅).insert cname ((m[key]?.getD ∅)[cname]?.getD [] ++ [d]))) := by
  intro key' names hnames cname' ds hds d' hd'
  rw [Std.ExtTreeMap.getElem?_insert] at hnames
  split at hnames
  · cases hnames
    rw [Std.ExtTreeMap.getElem?_insert] at hds
    split at hds
    · cases hds
      rcases List.mem_append.mp hd' with hd' | hd'
      · exact h.getD key cname d' hd'
      · rw [List.mem_singleton.mp hd']
        exact hd
    · have hold := h.getD key cname'
      rw [hds] at hold
      exact hold d' hd'
  · exact h key' names hnames cname' ds hds d' hd'

/-- What every turn of a loop keeps, the loop keeps. -/
theorem foldl_keeps {α β : Type} {P : β → Prop} {f : β → α → β} (hstep : ∀ b a, P b → P (f b a))
    (l : List α) {b : β} (hb : P b) : P (l.foldl f b) := by
  induction l generalizing b with
  | nil => exact hb
  | cons a l ih => exact ih (hstep b a hb)

theorem hexDigests_pulled (pods : List Json) : HexDigests (pulled ctx pods) := by
  have hempty : HexDigests (∅ : KeyMap (BTreeMap (List String))) := by
    intro key names hnames
    rw [Std.ExtTreeMap.getElem?_empty] at hnames
    cases hnames
  refine foldl_keeps (fun m pod hm => ?_) pods hempty
  unfold pulledBy
  split
  · exact hm
  · refine foldl_keeps (fun m cs hm => ?_) _ hm
    split
    · exact hm
    · rename_i h hh
      obtain ⟨imageId, _, hpulled⟩ := Option.bind_eq_some_iff.mp hh
      exact hm.insert _ _ (hexText_of_digestHex hpulled)

theorem hexText_of_mem_digestsOf {image : String} {ds : List String} (hds : ∀ d ∈ ds, HexText d) {d : String}
    (hd : d ∈ digestsOf image ds) : HexText d := by
  rw [digestsOf, mem_btreeSet, List.mem_append, Option.mem_toList] at hd
  rcases hd with hd | hd
  · obtain ⟨_, _, hhex⟩ := Option.bind_eq_some_iff.mp hd
    exact hexText_of_digestHex hhex
  · exact hds d hd

variable {w o : Json} {pulls : BTreeMap (List String)}

theorem described_container (hi : Entity ctx wi) (hw : kind w ∈ entityKinds)
    (hpulls : ∀ cname : String, ∀ d ∈ pulls[cname]?.getD [], HexText d) {init : Bool} {c : Json}
    (ht : t ∈ containerTriples ctx w wi pulls init c) : OfEntity ctx gens t := by
  have hci : Entity ctx (Iri.k8sContainer ctx.cid (kind w) ((namespaceOf w).getD "default") (name w)
      ((s c ["name"]).getD "")) := .container hw _ _ _
  simp only [containerTriples, List.mem_append, List.mem_map, List.mem_flatMap, List.mem_filterMap,
    Option.map_eq_some_iff, List.mem_cons, List.not_mem_nil, or_false] at ht
  rcases ht with ((((((((rfl | rfl | rfl) | ht) | rfl | rfl) | ⟨_, _, rfl⟩) | ht) | ⟨d, hd, rfl⟩) |
    ⟨r, hr, _, _, rfl⟩) | ⟨_, _, ht⟩) | ⟨_, _, ht⟩
  · exact .type hci (by decide)
  · exact .str _ hci (by decide)
  · exact .ref hi (by decide) hci
  · split at ht
    · cases List.mem_singleton.mp ht
      exact .bool _ hci (by decide)
    · cases ht
  · exact .str _ hci (by decide)
  · exact .str _ hci (by decide)
  · exact .str _ hci (by decide)
  · split at ht
    · cases List.mem_singleton.mp ht
      exact .str _ hci (by decide)
    · cases ht
  · exact .image hci (hexText_of_mem_digestsOf (hpulls _) hd)
  · rcases hr with rfl | rfl | rfl | rfl <;> exact .str _ hci (by decide)
  · exact described_mounts hi (by decide) ht
  · exact described_mounts hi (by decide) ht

theorem described_volume (hi : Entity ctx wi) {ns : String} {v : Json} (ht : t ∈ volumeTriples ctx wi ns v) :
    OfEntity ctx gens t := by
  rw [volumeTriples, List.mem_append, List.mem_flatMap] at ht
  rcases ht with ht | ⟨_, _, ht⟩
  · exact described_mounts hi (by decide) ht
  · exact described_mounts hi (by decide) ht

theorem described_containers (hi : Entity ctx wi) (hw : kind w ∈ entityKinds)
    (hpulls : ∀ cname : String, ∀ d ∈ pulls[cname]?.getD [], HexText d) (ht : t ∈ containerSpecs ctx w wi pulls) :
    OfEntity ctx gens t := by
  unfold containerSpecs at ht
  split at ht
  · cases ht
  · simp only [List.mem_append, List.mem_flatMap, List.mem_filterMap, Option.map_eq_some_iff,
      List.mem_singleton] at ht
    rcases ht with (((⟨_, _, ht⟩ | ⟨_, _, ht⟩) | ⟨_, _, ht⟩) | ⟨_, _, _, _, rfl⟩) | rfl
    · exact described_container hi hw hpulls ht
    · exact described_container hi hw hpulls ht
    · exact described_volume hi ht
    · exact .ref hi (by decide) (entity_objIri (by decide) _ _)
    · exact .ref hi (by decide) (entity_objIri (by decide) _ _)

/-! ## Objects -/

theorem described_owner (hi : Entity ctx oi) {ow : Option String} (ht : t ∈ ownerTriples oi ow) :
    OfEntity ctx gens t := by
  cases ow with
  | none =>
      rw [ownerTriples, List.mem_singleton] at ht
      rw [ht]
      exact .bool _ hi (by decide)
  | some ow =>
      simp only [ownerTriples, List.mem_cons, List.not_mem_nil, or_false] at ht
      rcases ht with rfl | rfl | rfl
      · exact .type (.owner ow) (by decide)
      · exact .str _ (.owner ow) (by decide)
      · exact .ref hi (by decide) (.owner ow)

theorem described_namespace (hi : Entity ctx oi) (ht : t ∈ namespaceTriples ctx oi o) :
    OfEntity ctx gens t := by
  rw [namespaceTriples, List.mem_append, List.mem_append, List.mem_singleton] at ht
  rcases ht with (rfl | ht) | ht
  · exact .type hi (by decide)
  · exact described_labels hi _ ht
  · exact described_owner hi ht

theorem described_workload (hi : Entity ctx oi) {key : Key} (hkey : key.kind ∈ workloadKinds)
    (hkind : kind o = key.kind) {counts : KeyMap (BTreeMap Int)} {digests : KeyMap (BTreeMap (List String))}
    (hdigests : HexDigests digests) {nsopt : Option String}
    (ht : t ∈ workloadTriples ctx counts digests key nsopt oi o) : OfEntity ctx gens t := by
  have hclass : ∀ k ∈ workloadKinds, k ∈ entityClasses := by decide
  simp only [workloadTriples, List.mem_append, List.mem_map, List.mem_flatMap, List.mem_cons,
    List.not_mem_nil, or_false] at ht
  rcases ht with (((((((((rfl | rfl) | ht) | ⟨_, _, rfl⟩) | ⟨_, _, rfl⟩) | ⟨_, _, rfl | rfl⟩) | ht) | ht) |
    ⟨_, _, rfl⟩) | ht) | ⟨_, _, rfl⟩
  · exact .type hi (by decide)
  · exact .type hi (hclass _ hkey)
  · exact described_labels hi _ ht
  · exact .int _ hi (by decide)
  · exact .int _ hi (by decide)
  · exact .ref hi (by decide) (entity_node _)
  · exact .str _ hi (by decide)
  · refine described_containers hi ?_ (hdigests.getD key) ht
    rw [hkind]
    exact workloadKinds_entityKinds _ hkey
  · exact described_owner hi ht
  · exact .str _ hi (by decide)
  · split at ht
    · cases List.mem_singleton.mp ht
      exact .bool _ hi (by decide)
    · cases ht
  · exact .ref hi (by decide) (entity_objIri (by decide) _ _)

theorem described_ingress (hi : Entity ctx oi) {nsopt : Option String} (ht : t ∈ ingressTriples ctx nsopt oi o) :
    OfEntity ctx gens t := by
  simp only [ingressTriples, List.mem_append, List.mem_map, List.mem_singleton] at ht
  rcases ht with rfl | ⟨_, _, rfl⟩
  · exact .type hi (by decide)
  · exact .ref hi (by decide) (entity_objIri (by decide) _ _)

theorem described_budget (hi : Entity ctx oi) (ht : t ∈ budgetTriples oi o) : OfEntity ctx gens t := by
  simp only [budgetTriples, List.mem_append, List.mem_filterMap, Option.map_eq_some_iff, List.mem_cons,
    List.not_mem_nil, or_false] at ht
  rcases ht with rfl | ⟨_, rfl | rfl, _, _, rfl⟩
  · exact .type hi (by decide)
  · exact .str _ hi (by decide)
  · exact .str _ hi (by decide)

theorem described_storageClass (hi : Entity ctx oi) (ht : t ∈ storageClassTriples ctx oi o) :
    OfEntity ctx gens t := by
  obtain ⟨_, _, rfl⟩ := List.mem_map.mp ht
  exact .ref hi (by decide) (entity_objIri (by decide) _ _)

theorem described_claim (hi : Entity ctx oi) (ht : t ∈ claimTriples ctx oi o) : OfEntity ctx gens t := by
  simp only [claimTriples, List.mem_append, List.mem_map, List.mem_singleton] at ht
  rcases ht with (rfl | ht) | ⟨_, _, rfl⟩
  · exact .type hi (by decide)
  · exact described_storageClass hi ht
  · exact .ref hi (by decide) (entity_objIri (by decide) _ _)

theorem described_volumeObject (hi : Entity ctx oi) (ht : t ∈ volumeObjectTriples ctx oi o) :
    OfEntity ctx gens t := by
  simp only [volumeObjectTriples, List.mem_append, List.mem_flatMap, List.mem_map, List.mem_singleton] at ht
  rcases ht with (rfl | ht) | ⟨_, _, _, _, _, _, rfl⟩
  · exact .type hi (by decide)
  · exact described_storageClass hi ht
  · exact .ref hi (by decide) (entity_node _)

theorem described_role (hi : Entity ctx oi) {key : Key} (ht : t ∈ roleTriples ctx key oi o) :
    OfEntity ctx gens t := by
  simp only [roleTriples, List.mem_append, List.mem_flatMap, List.mem_singleton] at ht
  rcases ht with (rfl | ⟨_, _, g, _, rs, _, v, _, ht⟩) | ht
  · split
    · exact .type hi (by decide)
    · exact .type hi (by decide)
  · have hp : Entity ctx (Iri.k8sPermission ctx.cid g (rs.asStr?.getD "") (v.asStr?.getD "")) :=
      .permission _ _ _
    simp only [permissionTriples, List.mem_cons, List.not_mem_nil, or_false] at ht
    rcases ht with rfl | rfl | rfl | rfl | rfl
    · exact .type hp (by decide)
    · exact .str _ hp (by decide)
    · exact .str _ hp (by decide)
    · exact .str _ hp (by decide)
    · exact .ref hi (by decide) hp
  · split at ht
    · obtain ⟨_, _, ht⟩ := List.mem_flatMap.mp ht
      obtain ⟨_, _, rfl⟩ := List.mem_map.mp ht
      exact .ref hi (by decide) (entity_objIri (by decide) _ _)
    · cases ht

theorem described_subject (hi : Entity ctx oi) {nsopt : Option String} {sub : Json}
    (ht : t ∈ subjectTriples ctx nsopt oi sub) : OfEntity ctx gens t := by
  unfold subjectTriples at ht
  dsimp only at ht
  split at ht
  · rw [List.mem_singleton] at ht
    rw [ht]
    exact .ref hi (by decide) (entity_objIri (by decide) _ _)
  · have hu : Entity ctx (ctx.objIri "user" none ((s sub ["name"]).getD "")) :=
      entity_objIri (by decide) _ _
    simp only [List.mem_cons, List.not_mem_nil, or_false] at ht
    rcases ht with rfl | rfl | rfl
    · exact .type hu (by decide)
    · exact .str _ hu (by decide)
    · exact .ref hi (by decide) hu
  · have hg : Entity ctx (ctx.objIri "group" none ((s sub ["name"]).getD "")) :=
      entity_objIri (by decide) _ _
    simp only [List.mem_cons, List.not_mem_nil, or_false] at ht
    rcases ht with rfl | rfl | rfl
    · exact .type hg (by decide)
    · exact .str _ hg (by decide)
    · exact .ref hi (by decide) hg

theorem described_binding (hi : Entity ctx oi) {key : Key} {nsopt : Option String}
    (ht : t ∈ bindingTriples ctx key nsopt oi o) : OfEntity ctx gens t := by
  simp only [bindingTriples, List.mem_append, List.mem_flatMap, List.mem_cons, List.not_mem_nil,
    or_false] at ht
  rcases ht with (rfl | rfl) | ⟨_, _, ht⟩
  · split
    · exact .type hi (by decide)
    · exact .type hi (by decide)
  · refine .ref hi (by decide) ?_
    split
    · exact entity_objIri (by decide) _ _
    · exact entity_objIri (by decide) _ _
  · exact described_subject hi ht

section Snapshot

variable {input : SnapshotInput} {opts : SnapshotOptions}

theorem described_service (hi : Entity (ctxOf input opts) oi) {ns : String} {nsopt : Option String}
    (ht : t ∈ serviceTriples (ctxOf input opts) ns nsopt oi o) : OfEntity (ctxOf input opts) gens t := by
  simp only [serviceTriples, List.mem_append, List.mem_map, List.mem_filter, List.mem_singleton] at ht
  rcases ht with rfl | ⟨w, ⟨hw, _⟩, rfl⟩
  · exact .type hi (by decide)
  · exact .ref hi (by decide) (entity_objIri (kind_of_mem_workloadsIn hw) _ _)

theorem described_rule (hi : Entity (ctxOf input opts) oi) {ns w w' : String} (hw : w ∈ entityTerms)
    (hw' : w' ∈ entityTerms) {rule : Json}
    (ht : t ∈ ruleTriples (ctxOf input opts) ns oi (k8s w) (k8s w') rule) :
    OfEntity (ctxOf input opts) gens t := by
  unfold ruleTriples at ht
  split at ht
  · rw [List.mem_singleton] at ht
    rw [ht]
    exact .bool _ hi hw'
  · obtain ⟨peer, _, ht⟩ := List.mem_flatMap.mp ht
    obtain ⟨pns, _, ht⟩ := List.mem_flatMap.mp ht
    split at ht
    · obtain ⟨v, hv, rfl⟩ := List.mem_map.mp ht
      exact .ref hi hw (entity_objIri (kind_of_mem_workloadsIn (List.mem_filter.mp hv).1) _ _)
    · rw [List.mem_singleton] at ht
      rw [ht]
      exact .ref hi hw (entity_namespace _)

theorem described_policy (hi : Entity (ctxOf input opts) oi) {ns : String} {nsopt : Option String}
    (ht : t ∈ policyTriples (ctxOf input opts) ns nsopt oi o) : OfEntity (ctxOf input opts) gens t := by
  simp only [policyTriples, List.mem_append, List.mem_map, List.mem_filter, List.mem_singleton] at ht
  rcases ht with (((rfl | ⟨_, _, rfl⟩) | ⟨w, ⟨hw, _⟩, rfl⟩) | ht) | ht
  · exact .type hi (by decide)
  · exact .str _ hi (by decide)
  · exact .ref hi (by decide) (entity_objIri (kind_of_mem_workloadsIn hw) _ _)
  · split at ht
    · obtain ⟨_, _, ht⟩ := List.mem_flatMap.mp ht
      exact described_rule hi (by decide) (by decide) ht
    · cases ht
  · split at ht
    · obtain ⟨_, _, ht⟩ := List.mem_flatMap.mp ht
      exact described_rule hi (by decide) (by decide) ht
    · cases ht

theorem described_kind (hi : Entity (ctxOf input opts) oi) {key : Key} (hkind : kind o = key.kind)
    {counts : KeyMap (BTreeMap Int)} {digests : KeyMap (BTreeMap (List String))}
    (hdigests : HexDigests digests) {nsopt : Option String}
    (ht : t ∈ kindTriples (ctxOf input opts) counts digests key nsopt oi o) :
    OfEntity (ctxOf input opts) gens t := by
  unfold kindTriples at ht
  split at ht
  · cases ht
  · exact described_namespace hi ht
  · exact described_workload hi (by simp [*, workloadKinds]) hkind hdigests ht
  · exact described_workload hi (by simp [*, workloadKinds]) hkind hdigests ht
  · exact described_workload hi (by simp [*, workloadKinds]) hkind hdigests ht
  · exact described_workload hi (by simp [*, workloadKinds]) hkind hdigests ht
  · exact described_workload hi (by simp [*, workloadKinds]) hkind hdigests ht
  · exact described_service hi ht
  · exact described_ingress hi ht
  · exact List.mem_singleton.mp ht ▸ .type hi (by decide)
  · exact List.mem_singleton.mp ht ▸ .type hi (by decide)
  · exact List.mem_singleton.mp ht ▸ .type hi (by decide)
  · exact List.mem_singleton.mp ht ▸ .type hi (by decide)
  · exact described_budget hi ht
  · exact described_claim hi ht
  · exact described_volumeObject hi ht
  · exact described_policy hi ht
  · exact described_role hi ht
  · exact described_role hi ht
  · exact described_binding hi ht
  · exact described_binding hi ht
  · cases ht

theorem described_object {counts : KeyMap (BTreeMap Int)} {digests : KeyMap (BTreeMap (List String))}
    (hdigests : HexDigests digests) {snap : Iri} {e : Key × Json}
    (he : e ∈ countedObjects (ctxOf input opts))
    (ht : t ∈ objectTriples (ctxOf input opts) counts digests snap e) :
    OfSnapshot (ctxOf input opts) snap t ∨ OfEntity (ctxOf input opts) gens t := by
  have hi : Entity (ctxOf input opts) ((ctxOf input opts).iriOf e.1) := .object he
  simp only [objectTriples, List.mem_append, List.mem_map, List.mem_cons, List.not_mem_nil, or_false] at ht
  rcases ht with ((((rfl | rfl | rfl) | ⟨_, _, rfl⟩) | rfl) | ⟨_, _, rfl⟩) | ht
  · exact .inl (.ref (by decide) hi)
  · exact .inr (.str _ hi (by decide))
  · exact .inr (.str _ hi (by decide))
  · exact .inr (.str _ hi (by decide))
  · exact .inr (.ref hi (by decide) .cluster)
  · exact .inr (.ref hi (by decide) (entity_namespace _))
  · exact .inr (described_kind hi (kind_of_mem_index (List.mem_filter.mp he).1) hdigests ht)

theorem described_head {state : StateKind} {snap : Iri}
    (ht : t ∈ snapshotHead (ctxOf input opts) input state snap) :
    OfSnapshot (ctxOf input opts) snap t ∨ OfEntity (ctxOf input opts) gens t := by
  simp only [snapshotHead, List.mem_append, List.mem_map, List.mem_cons, List.not_mem_nil, or_false] at ht
  rcases ht with ((rfl | rfl | rfl | rfl | rfl) | ht) | ⟨_, _, rfl⟩
  · exact .inl .type
  · refine .inl (.ref (by decide) ?_)
    cases state with
    | live => exact .term (by decide)
    | desired => exact .term (by decide)
  · exact .inl (.ref (by decide) .cluster)
  · exact .inr (.type .cluster (by decide))
  · exact .inr (.str _ .cluster (by decide))
  · split at ht
    · cases ht
    · rcases List.mem_cons.mp ht with rfl | ht
      · exact .inl (.lit (by decide) (by decide))
      · obtain ⟨_, _, rfl⟩ := List.mem_map.mp ht
        exact .inl (.lit (by decide) (by decide))
  · exact .inl (.ref (by decide) (entity_node _))

/-- Every triple of the snapshot is about the snapshot or about an entity. -/
theorem of_mem_pendingSnapshot {state : StateKind}
    (ht : t ∈ (pendingSnapshot (ctxOf input opts) input state).lines) :
    OfSnapshot (ctxOf input opts) (Iri.k8sSnapshot (ctxOf input opts).cid placeholder) t ∨
      OfEntity (ctxOf input opts) [] t := by
  rw [pendingSnapshot, Fragment.mem_ofTriples, List.mem_append] at ht
  rcases ht with ht | ht
  · exact described_head ht
  · obtain ⟨e, he, ht⟩ := List.mem_flatMap.mp ht
    exact described_object (hexDigests_pulled _) he ht

/-- Every triple of the snapshot has one of the shapes, and none is about a generation. -/
theorem pendingSnapshot_described {state : StateKind}
    (ht : t ∈ (pendingSnapshot (ctxOf input opts) input state).lines) : Described (ctxOf input opts) [] t := by
  rcases of_mem_pendingSnapshot ht with ht | ht
  · exact ht.described
  · exact ht.described

/-! ## Nodes -/

/-- The generation of a node, from the node map or from its annotation. -/
def generationOf (ctx : Ctx) (opts : SnapshotOptions) (node : Json) : Option String :=
  (opts.nodeMap[name node]?).or ((annotations node)[ctx.cfg.generationAnnotation]?)

theorem domain_kind {cfg : LabelConfig} {l : Labels} {d : String × String} (hd : d ∈ domainsOf cfg l) :
    d.1 ∈ ["zone", "region", "rack", "site"] := by
  simp only [domainsOf, List.mem_append, List.mem_map] at hd
  rcases hd with ((⟨_, _, rfl⟩ | ⟨_, _, rfl⟩) | ⟨_, _, rfl⟩) | ⟨_, _, rfl⟩ <;> simp

theorem of_mem_nodeTriples {node : Json} (ht : t ∈ nodeTriples ctx opts node) :
    OfEntity ctx (generationOf ctx opts node).toList t := by
  have hi : Entity ctx (Iri.k8sNode ctx.cid (name node)) := entity_node _
  have hc : Entity ctx (Iri.k8sCluster ctx.cid) := .cluster
  simp only [nodeTriples, List.mem_append, List.mem_map, List.mem_flatMap, List.mem_filterMap,
    Option.map_eq_some_iff, List.mem_cons, List.not_mem_nil, or_false, Option.mem_toList] at ht
  rcases ht with ((((ht | ht) | ⟨_, _, _, _, rfl⟩) | ⟨w, hw, _, _, rfl⟩) | ⟨d, hd, ht⟩) | ⟨g, hg, rfl⟩
  · rcases ht with rfl | rfl | rfl
    · exact .type hi (by decide)
    · exact .str _ hi (by decide)
    · exact .ref hi (by decide) hc
  · exact described_labels hi _ ht
  · exact .str _ hi (by decide)
  · rcases hw with rfl | rfl | rfl | rfl <;> exact .str _ hi (by decide)
  · have hdi : Entity ctx (Iri.k8sFailureDomain ctx.cid d.1 d.2) := .domain (domain_kind hd) _
    rcases ht with rfl | rfl | rfl | rfl | rfl
    · exact .type hdi (by decide)
    · exact .str _ hdi (by decide)
    · exact .str _ hdi (by decide)
    · exact .ref hdi (by decide) hc
    · exact .ref hi (by decide) hdi
  · exact .generation hi (Option.mem_toList.mpr hg)

theorem described_node {node : Json} (ht : t ∈ nodeTriples ctx opts node) :
    Described ctx (generationOf ctx opts node).toList t := (of_mem_nodeTriples ht).described

end Snapshot

end Nix2Rdf.K8s
