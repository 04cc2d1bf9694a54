import Nix2Rdf.K8s.Model

/-!
# Cluster snapshots

A normalized set of Kubernetes objects becomes three fragments: the objects, content-addressed; the
node inventory; and the time of this observation. The same cluster state has the same snapshot hash.
-/

namespace Nix2Rdf.K8s

open Triple

inductive StateKind where
  | live
  | desired
  deriving DecidableEq, Repr

structure SnapshotOptions where
  clusterId : String
  state : StateKind
  labels : LabelConfig := {}
  /-- Node name to NixOS generation hash. -/
  nodeMap : BTreeMap String := ∅
  observedAt : Option String := none

structure SnapshotInput where
  objects : List Json
  pods : List Json := []
  failedKinds : List String := []

structure SnapshotOutput where
  snapshot : Fragment
  nodes : Fragment
  observed : Fragment
  snapshotIri : Iri
  snapshotHash : String
  nodesHash : String
  objects : Nat

/-- Stands for the content hash in the graph name, until that is known. -/
def placeholder : String := "PENDINGHASH"

structure Ctx where
  cid : String
  cfg : LabelConfig
  index : KeyMap Json
  nsMeta : BTreeMap (Labels × Labels)

namespace Ctx

variable (ctx : Ctx)

def get (kind ns name : String) : Option Json := ctx.index[(⟨kind, ns, name⟩ : Key)]?

def ofKind (kind : String) : List Json :=
  (ctx.index.toList.filter fun e => e.1.kind = kind).map Prod.snd

/-- The workloads of a namespace. -/
def workloadsIn (ns : String) : List Json :=
  (ctx.index.toList.filter fun e => e.1.kind ∈ workloadKinds ∧ e.1.ns = ns).map Prod.snd

def objIri (kind : String) (ns : Option String) (name : String) : Iri :=
  match kind with
  | "Node" => Iri.k8sNode ctx.cid name
  | "Namespace" => Iri.k8sNamespace ctx.cid name
  | _ => Iri.k8sObj ctx.cid kind ns name

/-- The labels are asked for every key before the annotations are. -/
def firstKey (keys : List String) (labels ann : Labels) : Option String :=
  (keys.findSome? (labels[·]?)).or (keys.findSome? (ann[·]?))

/-- The object itself comes before its namespace. -/
def firstKeyOrNs (keys : List String) (labels ann : Labels) (ns : Option String) : Option String :=
  (firstKey keys labels ann).or
    (let m := (ns.bind (ctx.nsMeta[·]?)).getD (∅, ∅)
    firstKey keys m.1 m.2)

def owner (labels ann : Labels) (ns : Option String) : Option String :=
  ctx.firstKeyOrNs ctx.cfg.ownerKeys labels ann ns

def costCenter (labels ann : Labels) (ns : Option String) : Option String :=
  ctx.firstKeyOrNs ctx.cfg.costCenterKeys labels ann ns

end Ctx

def addLabels (subj : Iri) (labels : Labels) : List Triple :=
  labels.toList.map fun kv => addStr subj (k8s "label") (kv.1 ++ "=" ++ kv.2)

/-! ## Index -/

def keyOf (o : Json) : Key :=
  ⟨kind o, if kind o ∈ clusterKinds then "" else (namespaceOf o).getD "default", name o⟩

/-- One turn of the loop over the objects. Pods are not objects of the snapshot. -/
def indexed (acc : KeyMap Json × BTreeMap (Labels × Labels)) (o : Json) :
    KeyMap Json × BTreeMap (Labels × Labels) :=
  if kind o = "" ∨ kind o = "Pod" then acc
  else
    (acc.1.insert (keyOf o) o,
      if kind o = "Namespace" then acc.2.insert (name o) (labels o, annotations o) else acc.2)

def ctxOf (input : SnapshotInput) (opts : SnapshotOptions) : Ctx :=
  let acc := input.objects.foldl indexed (∅, ∅)
  ⟨opts.clusterId, opts.labels, acc.1, acc.2⟩

/-! ## Pods -/

def firstOwner (o : Json) : Option Json := (arr o ["metadata", "ownerReferences"]).head?

/-- From an owner through replica sets and jobs to the workload, in so many steps at most. -/
def ownerFrom (ctx : Ctx) (ns : String) : Nat → String → String → Option Key
  | 0, _, _ => none
  | steps + 1, curKind, curName =>
      if curKind ∈ workloadKinds then
        -- a job of a cron job is attributed to the cron job
        match if curKind = "Job" then (ctx.get "Job" ns curName).bind firstOwner else none with
        | some o =>
            if s o ["kind"] = some "CronJob" then some ⟨"CronJob", ns, (s o ["name"]).getD ""⟩
            else some ⟨curKind, ns, curName⟩
        | none => some ⟨curKind, ns, curName⟩
      else if curKind = "ReplicaSet" then
        match (ctx.get "ReplicaSet" ns curName).bind firstOwner with
        | some o => ownerFrom ctx ns steps ((s o ["kind"]).getD "") ((s o ["name"]).getD "")
        | none => none
      else none

def podOwner (ctx : Ctx) (pod : Json) : Option Key :=
  (firstOwner pod).bind fun o =>
    ownerFrom ctx ((namespaceOf pod).getD "default") 3 ((s o ["kind"]).getD "") ((s o ["name"]).getD "")

/-- How many pods of each workload run on each node. -/
def placed (ctx : Ctx) (acc : KeyMap (BTreeMap Int)) (pod : Json) : KeyMap (BTreeMap Int) :=
  match podOwner ctx pod, s pod ["spec", "nodeName"] with
  | some owner, some node =>
      let counts := acc[owner]?.getD ∅
      acc.insert owner (counts.insert node (counts[node]?.getD 0 + 1))
  | _, _ => acc

def placement (ctx : Ctx) (pods : List Json) : KeyMap (BTreeMap Int) := pods.foldl (placed ctx) ∅

/-- The digest of an image that was pulled. -/
def pulledDigest (imageId : String) : Option String :=
  let d := ((Text.rsplitOnce '@' imageId).map Prod.snd).getD imageId
  let d := (Text.stripPrefix? "docker-pullable://" d).getD d
  digestHex (Text.lastPart '@' d)

def pulledBy (ctx : Ctx) (acc : KeyMap (BTreeMap (List String))) (pod : Json) :
    KeyMap (BTreeMap (List String)) :=
  match podOwner ctx pod with
  | none => acc
  | some owner =>
      (arr pod ["status", "containerStatuses"] ++ arr pod ["status", "initContainerStatuses"]).foldl
        (fun acc cs =>
          match (s cs ["imageID"]).bind pulledDigest with
          | none => acc
          | some h =>
              let names := acc[owner]?.getD ∅
              let cname := (s cs ["name"]).getD ""
              acc.insert owner (names.insert cname (names[cname]?.getD [] ++ [h])))
        acc

/-- The digests that the pods of each workload have pulled, by container. -/
def pulled (ctx : Ctx) (pods : List Json) : KeyMap (BTreeMap (List String)) :=
  pods.foldl (pulledBy ctx) ∅

/-! ## Nodes -/

def domainsOf (cfg : LabelConfig) (labels : Labels) : List (String × String) :=
  ((cfg.zoneKeys.findSome? (labels[·]?)).toList.map fun z => ("zone", z))
  ++ ((cfg.regionKeys.findSome? (labels[·]?)).toList.map fun r => ("region", r))
  ++ (labels[cfg.rackKey]?.toList.map fun r => ("rack", r))
  ++ (labels[cfg.siteKey]?.toList.map fun r => ("site", r))

def nodeTriples (ctx : Ctx) (opts : SnapshotOptions) (node : Json) : List Triple :=
  let nm := name node
  let ni := Iri.k8sNode ctx.cid nm
  let cluster := Iri.k8sCluster ctx.cid
  let gen := (opts.nodeMap[nm]?).or ((annotations node)[ctx.cfg.generationAnnotation]?)
  [addType ni (k8s "Node"), addStr ni (k8s "name") nm, addIri ni (k8s "inCluster") cluster]
  ++ addLabels ni (labels node)
  ++ ((labels node).keys.filterMap fun key =>
      (Text.stripPrefix? "node-role.kubernetes.io/" key).map fun role => addStr ni (k8s "nodeRole") role)
  ++ (["kubeletVersion", "containerRuntimeVersion", "kernelVersion", "osImage"].filterMap fun path =>
      (s node ["status", "nodeInfo", path]).map fun v => addStr ni (k8s path) v)
  ++ ((domainsOf ctx.cfg (labels node)).flatMap fun d =>
      let di := Iri.k8sFailureDomain ctx.cid d.1 d.2
      [addType di (k8s "FailureDomain"), addStr di (k8s "domainKind") d.1, addStr di (k8s "name") d.2,
        addIri di (k8s "inCluster") cluster, addIri ni (k8s "inFailureDomain") di])
  ++ gen.toList.map fun g => addIri ni (k8s "hostGeneration") (Iri.gen g)

def nodesFragment (ctx : Ctx) (opts : SnapshotOptions) : Fragment :=
  Fragment.ofTriples (.k8sNodes opts.clusterId placeholder)
    ((ctx.ofKind "Node").flatMap (nodeTriples ctx opts))

def nodeNames (ctx : Ctx) : List String := btreeSet ((ctx.ofKind "Node").map name)

/-! ## Containers -/

/-- References to config maps and secrets, as mounts of the workload. -/
def mountTriples (ctx : Ctx) (wi : Iri) (ns : String) (v : Json) (refs : List (String × List String)) :
    List Triple :=
  refs.filterMap fun r => (s v r.2).map fun nm =>
    addIri wi (k8s "mounts") (ctx.objIri r.1 (some ns) nm)

/-- The digests a container runs: the pinned one, and those that were pulled. -/
def digestsOf (image : String) (pulled : List String) : List String :=
  btreeSet (((parseImageRef image).2.2.bind digestHex).toList ++ pulled)

def containerTriples (ctx : Ctx) (w : Json) (wi : Iri) (pulled : BTreeMap (List String)) (init : Bool)
    (c : Json) : List Triple :=
  let ns := (namespaceOf w).getD "default"
  let cname := (s c ["name"]).getD ""
  let ci := Iri.k8sContainer ctx.cid (kind w) ns (name w) cname
  let image := (s c ["image"]).getD ""
  let ref := parseImageRef image
  let digests := digestsOf image (pulled[cname]?.getD [])
  [addType ci (k8s "ContainerSpec"), addStr ci (k8s "name") cname, addIri wi (k8s "hasContainer") ci]
  ++ (if init then [addBool ci (k8s "initContainer") true] else [])
  ++ [addStr ci (k8s "imageRef") image, addStr ci (k8s "imageRepository") ref.1]
  ++ (ref.2.1.toList.map fun t => addStr ci (k8s "imageTag") t)
  ++ (if digests.isEmpty then [addStr ci (k8s "unresolvedImage") image] else [])
  ++ (digests.map fun d => addIri ci (k8s "runsImage") (Iri.image d))
  ++ ([("requestsCpu", ["requests", "cpu"]), ("requestsMemory", ["requests", "memory"]),
      ("limitsCpu", ["limits", "cpu"]), ("limitsMemory", ["limits", "memory"])].filterMap fun r =>
      (s c ("resources" :: r.2)).map fun v => addStr ci (k8s r.1) v)
  ++ ((arr c ["env"]).flatMap fun e => mountTriples ctx wi ns e
      [("ConfigMap", ["valueFrom", "configMapKeyRef", "name"]),
        ("Secret", ["valueFrom", "secretKeyRef", "name"])])
  ++ (arr c ["envFrom"]).flatMap fun e => mountTriples ctx wi ns e
      [("ConfigMap", ["configMapRef", "name"]), ("Secret", ["secretRef", "name"])]

def volumeTriples (ctx : Ctx) (wi : Iri) (ns : String) (v : Json) : List Triple :=
  mountTriples ctx wi ns v
    [("ConfigMap", ["configMap", "name"]), ("Secret", ["secret", "secretName"]),
      ("PersistentVolumeClaim", ["persistentVolumeClaim", "claimName"])]
  ++ (arr v ["projected", "sources"]).flatMap fun src => mountTriples ctx wi ns src
      [("ConfigMap", ["configMap", "name"]), ("Secret", ["secret", "name"])]

def containerSpecs (ctx : Ctx) (w : Json) (wi : Iri) (pulled : BTreeMap (List String)) : List Triple :=
  match podSpec w with
  | none => []
  | some ps =>
      let ns := (namespaceOf w).getD "default"
      let sa := ((s ps ["serviceAccountName"]).or (s ps ["serviceAccount"])).getD "default"
      ((arr ps ["containers"]).flatMap (containerTriples ctx w wi pulled false))
      ++ ((arr ps ["initContainers"]).flatMap (containerTriples ctx w wi pulled true))
      ++ ((arr ps ["volumes"]).flatMap (volumeTriples ctx wi ns))
      ++ ((arr w ["spec", "volumeClaimTemplates"]).filterMap fun t =>
          (s t ["spec", "storageClassName"]).map fun sc =>
            addIri wi (k8s "usesStorageClass") (ctx.objIri "StorageClass" none sc))
      ++ [addIri wi (k8s "usesServiceAccount") (ctx.objIri "ServiceAccount" (some ns) sa)]

/-! ## Objects -/

def ownerTriples (oi : Iri) : Option String → List Triple
  | some ow =>
      let on := Iri.owner ow
      [addType on (k8s "Owner"), addStr on (k8s "name") ow, addIri oi (k8s "ownedBy") on]
  | none => [addBool oi (k8s "ownerUnknown") true]

def namespaceTriples (ctx : Ctx) (oi : Iri) (o : Json) : List Triple :=
  [addType oi (k8s "Namespace")] ++ addLabels oi (labels o)
  ++ ownerTriples oi (ctx.owner (labels o) (annotations o) none)

def replicasOf (w : String) (o : Json) : Option Int :=
  match w with
  | "DaemonSet" => i o ["status", "desiredNumberScheduled"]
  | "CronJob" => none
  | "Job" => (i o ["spec", "parallelism"]).or (some 1)
  | _ => (i o ["spec", "replicas"]).or (some 1)

def readyOf (w : String) (o : Json) : Option Int :=
  match w with
  | "DaemonSet" => i o ["status", "numberReady"]
  | "Job" => i o ["status", "succeeded"]
  | _ => i o ["status", "readyReplicas"]

def workloadTriples (ctx : Ctx) (counts : KeyMap (BTreeMap Int)) (digests : KeyMap (BTreeMap (List String)))
    (key : Key) (nsopt : Option String) (oi : Iri) (o : Json) : List Triple :=
  let ann := annotations o
  [addType oi (k8s "Workload"), addType oi (k8s key.kind)] ++ addLabels oi (labels o)
  ++ ((replicasOf key.kind o).toList.map fun r => addInt oi (k8s "replicas") r)
  ++ ((readyOf key.kind o).toList.map fun r => addInt oi (k8s "readyReplicas") r)
  ++ ((counts[key]?.getD ∅).toList.flatMap fun e =>
      [addIri oi (k8s "scheduledOn") (Iri.k8sNode ctx.cid e.1),
        addStr oi (k8s "replicasOnNode") (e.1 ++ ":" ++ toString e.2)])
  ++ containerSpecs ctx o oi (digests[key]?.getD ∅)
  ++ ownerTriples oi (ctx.owner (labels o) ann nsopt)
  ++ ((ctx.costCenter (labels o) ann nsopt).toList.map fun cc => addStr oi (k8s "costCenter") cc)
  ++ (if ann[ctx.cfg.exemptSingleDomainAnnotation]? = some "true" then
      [addBool oi (k8s "exemptSingleDomain") true] else [])
  ++ ((ctx.ofKind "PodDisruptionBudget").filter fun pdb =>
      (namespaceOf pdb).getD "default" = key.ns ∧
        selectorMatches (pdb.path? ["spec", "selector"]) (podLabels o) false).map fun pdb =>
      addIri oi (k8s "hasPDB") (ctx.objIri "PodDisruptionBudget" nsopt (name pdb))

def serviceTriples (ctx : Ctx) (ns : String) (nsopt : Option String) (oi : Iri) (o : Json) : List Triple :=
  [addType oi (k8s "Service")]
  ++ ((ctx.workloadsIn ns).filter fun w =>
      plainSelectorMatches (map o ["spec", "selector"]) (podLabels w)).map fun w =>
      addIri oi (k8s "selects") (ctx.objIri (kind w) nsopt (name w))

def ingressTriples (ctx : Ctx) (nsopt : Option String) (oi : Iri) (o : Json) : List Triple :=
  let svcs := btreeSet ((s o ["spec", "defaultBackend", "service", "name"]).toList
    ++ ((arr o ["spec", "rules"]).flatMap fun r => (arr r ["http", "paths"]).filterMap fun p =>
      s p ["backend", "service", "name"]))
  [addType oi (k8s "Ingress")]
  ++ svcs.map fun sv => addIri oi (k8s "routesTo") (ctx.objIri "Service" nsopt sv)

def budgetTriples (oi : Iri) (o : Json) : List Triple :=
  [addType oi (k8s "PodDisruptionBudget")]
  ++ ["minAvailable", "maxUnavailable"].filterMap fun field => (o.path? ["spec", field]).map fun v =>
      addStr oi (k8s field) (Text.trim (· = '"') v.print)

def storageClassTriples (ctx : Ctx) (oi : Iri) (o : Json) : List Triple :=
  (s o ["spec", "storageClassName"]).toList.map fun sc =>
    addIri oi (k8s "usesStorageClass") (ctx.objIri "StorageClass" none sc)

def claimTriples (ctx : Ctx) (oi : Iri) (o : Json) : List Triple :=
  [addType oi (k8s "PersistentVolumeClaim")] ++ storageClassTriples ctx oi o
  ++ (s o ["spec", "volumeName"]).toList.map fun pv =>
    addIri oi (k8s "boundTo") (ctx.objIri "PersistentVolume" none pv)

def volumeObjectTriples (ctx : Ctx) (oi : Iri) (o : Json) : List Triple :=
  [addType oi (k8s "PersistentVolume")] ++ storageClassTriples ctx oi o
  ++ (arr o ["spec", "nodeAffinity", "required", "nodeSelectorTerms"]).flatMap fun term =>
    ((arr term ["matchExpressions"]).filter fun e =>
      s e ["key"] = some "kubernetes.io/hostname" ∧ s e ["operator"] = some "In").flatMap fun e =>
      ((arr e ["values"]).filterMap Json.asStr?).map fun nn =>
        addIri oi (k8s "pinnedToNode") (Iri.k8sNode ctx.cid nn)

/-! ## Network policies -/

def policyTypes (o : Json) : List String :=
  let types := (arr o ["spec", "policyTypes"]).filterMap Json.asStr?
  if types.isEmpty then ["Ingress"] else types

/-- The peers of a rule stand under `from` or under `to`. -/
def rulePeers (rule : Json) : List Json := arr rule ["from"] ++ arr rule ["to"]

/-- The namespaces a peer covers: those its selector matches, and the policy's own without one. -/
def peerNamespaces (ctx : Ctx) (ns : String) (peer : Json) : List String :=
  match peer.get? "namespaceSelector" with
  | some sel => (ctx.nsMeta.toList.filter fun e => selectorMatches (some sel) e.2.1 true).map Prod.fst
  | none => [ns]

def peerTriples (ctx : Ctx) (ns : String) (oi prop : Iri) (peer : Json) : List Triple :=
  (peerNamespaces ctx ns peer).flatMap fun pns =>
    match peer.get? "podSelector" with
    | some ps =>
        ((ctx.workloadsIn pns).filter fun w => selectorMatches (some ps) (podLabels w) true).map fun w =>
          addIri oi prop (ctx.objIri (kind w) (some pns) (name w))
    | none => [addIri oi prop (Iri.k8sNamespace ctx.cid pns)]

def ruleTriples (ctx : Ctx) (ns : String) (oi prop allProp : Iri) (rule : Json) : List Triple :=
  if (rulePeers rule).isEmpty then [addBool oi allProp true]
  else (rulePeers rule).flatMap (peerTriples ctx ns oi prop)

def policyTriples (ctx : Ctx) (ns : String) (nsopt : Option String) (oi : Iri) (o : Json) : List Triple :=
  let types := policyTypes o
  [addType oi (k8s "NetworkPolicy")]
  ++ (types.map fun t => addStr oi (k8s "policyType") t)
  ++ (((ctx.workloadsIn ns).filter fun w =>
      selectorMatches (o.path? ["spec", "podSelector"]) (podLabels w) true).map fun w =>
      addIri oi (k8s "appliesTo") (ctx.objIri (kind w) nsopt (name w)))
  ++ (if "Ingress" ∈ types then
      (arr o ["spec", "ingress"]).flatMap
        (ruleTriples ctx ns oi (k8s "allowsIngressFrom") (k8s "allowsAllIngress")) else [])
  ++ (if "Egress" ∈ types then
      (arr o ["spec", "egress"]).flatMap
        (ruleTriples ctx ns oi (k8s "allowsEgressTo") (k8s "allowsAllEgress")) else [])

/-! ## Roles -/

def ruleGroups (rule : Json) : List String :=
  let groups := (arr rule ["apiGroups"]).filterMap Json.asStr?
  if groups.isEmpty then [""] else groups

def permissionTriples (ctx : Ctx) (oi : Iri) (g : String) (r v : Json) : List Triple :=
  let r := r.asStr?.getD ""
  let v := v.asStr?.getD ""
  let pi := Iri.k8sPermission ctx.cid g r v
  [addType pi (k8s "Permission"), addStr pi (k8s "apiGroup") g, addStr pi (k8s "resource") r,
    addStr pi (k8s "verb") v, addIri oi (k8s "permits") pi]

def roleTriples (ctx : Ctx) (key : Key) (oi : Iri) (o : Json) : List Triple :=
  [addType oi (if key.kind = "Role" then k8s "Role" else k8s "ClusterRole")]
  ++ ((arr o ["rules"]).flatMap fun rule => (ruleGroups rule).flatMap fun g =>
      (arr rule ["resources"]).flatMap fun r => (arr rule ["verbs"]).flatMap fun v =>
        permissionTriples ctx oi g r v)
  ++ (if key.kind = "ClusterRole" then
      (arr o ["aggregationRule", "clusterRoleSelectors"]).flatMap fun sel =>
        ((ctx.ofKind "ClusterRole").filter fun other =>
          name other ≠ key.name ∧ selectorMatches (some sel) (labels other) false).map fun other =>
          addIri oi (k8s "aggregates") (ctx.objIri "ClusterRole" none (name other)) else [])

def subjectTriples (ctx : Ctx) (nsopt : Option String) (oi : Iri) (sub : Json) : List Triple :=
  let sn := (s sub ["name"]).getD ""
  match (s sub ["kind"]).getD "" with
  | "ServiceAccount" =>
      let sns := ((s sub ["namespace"]).or nsopt).getD "default"
      [addIri oi (k8s "subjectOf") (ctx.objIri "ServiceAccount" (some sns) sn)]
  | "User" =>
      let u := ctx.objIri "user" none sn
      [addType u (k8s "User"), addStr u (k8s "name") sn, addIri oi (k8s "subjectOf") u]
  | _ =>
      let g := ctx.objIri "group" none sn
      [addType g (k8s "Group"), addStr g (k8s "name") sn, addIri oi (k8s "subjectOf") g]

def bindingTriples (ctx : Ctx) (key : Key) (nsopt : Option String) (oi : Iri) (o : Json) : List Triple :=
  let rn := (s o ["roleRef", "name"]).getD ""
  let role := if (s o ["roleRef", "kind"]).getD "" = "ClusterRole" then ctx.objIri "ClusterRole" none rn
    else ctx.objIri "Role" nsopt rn
  [addType oi (if key.kind = "RoleBinding" then k8s "RoleBinding" else k8s "ClusterRoleBinding"),
    addIri oi (k8s "grants") role]
  ++ (arr o ["subjects"]).flatMap (subjectTriples ctx nsopt oi)

/-! ## The snapshot -/

/-- What is said of an object on account of its kind. -/
def kindTriples (ctx : Ctx) (counts : KeyMap (BTreeMap Int)) (digests : KeyMap (BTreeMap (List String)))
    (key : Key) (nsopt : Option String) (oi : Iri) (o : Json) : List Triple :=
  match key.kind with
  | "Node" => []
  | "Namespace" => namespaceTriples ctx oi o
  | "Deployment" | "StatefulSet" | "DaemonSet" | "Job" | "CronJob" =>
      workloadTriples ctx counts digests key nsopt oi o
  | "Service" => serviceTriples ctx key.ns nsopt oi o
  | "Ingress" => ingressTriples ctx nsopt oi o
  | "ConfigMap" => [addType oi (k8s "ConfigMap")]
  | "Secret" => [addType oi (k8s "Secret")]
  | "ServiceAccount" => [addType oi (k8s "ServiceAccount")]
  | "StorageClass" => [addType oi (k8s "StorageClass")]
  | "PodDisruptionBudget" => budgetTriples oi o
  | "PersistentVolumeClaim" => claimTriples ctx oi o
  | "PersistentVolume" => volumeObjectTriples ctx oi o
  | "NetworkPolicy" => policyTriples ctx key.ns nsopt oi o
  | "Role" | "ClusterRole" => roleTriples ctx key oi o
  | "RoleBinding" | "ClusterRoleBinding" => bindingTriples ctx key nsopt oi o
  | _ => []

def nsOption (ns : String) : Option String := if ns = "" then none else some ns

/-- The entity of an indexed object. -/
def Ctx.iriOf (ctx : Ctx) (key : Key) : Iri := ctx.objIri key.kind (nsOption key.ns) key.name

def objectTriples (ctx : Ctx) (counts : KeyMap (BTreeMap Int)) (digests : KeyMap (BTreeMap (List String)))
    (snap : Iri) (e : Key × Json) : List Triple :=
  let oi := ctx.iriOf e.1
  [addIri snap (k8s "contains") oi, addStr oi (k8s "name") e.1.name, addStr oi (k8s "kind") e.1.kind]
  ++ ((s e.2 ["apiVersion"]).toList.map fun av => addStr oi (k8s "apiVersion") av)
  ++ [addIri oi (k8s "inCluster") (Iri.k8sCluster ctx.cid)]
  ++ ((nsOption e.1.ns).toList.map fun ns =>
      addIri oi (k8s "inNamespace") (Iri.k8sNamespace ctx.cid ns))
  ++ kindTriples ctx counts digests e.1 (nsOption e.1.ns) oi e.2

/-- Replica sets serve to attribute pods only. -/
def countedObjects (ctx : Ctx) : List (Key × Json) :=
  ctx.index.toList.filter fun e => e.1.kind ≠ "ReplicaSet"

def snapshotHead (ctx : Ctx) (input : SnapshotInput) (state : StateKind) (snap : Iri) : List Triple :=
  let cluster := Iri.k8sCluster ctx.cid
  [addType snap (k8s "Snapshot"),
    addIri snap (k8s "snapshotKind") (match state with
      | .live => k8s "liveState"
      | .desired => k8s "desiredState"),
    addIri snap (k8s "ofCluster") cluster, addType cluster (k8s "Cluster"),
    addStr cluster (k8s "clusterId") ctx.cid]
  ++ (if input.failedKinds.isEmpty then [] else
      addBool snap (k8s "partial") true
        :: input.failedKinds.map fun fk => addStr snap (k8s "failedKind") fk)
  ++ (nodeNames ctx).map fun nn => addIri snap (k8s "contains") (Iri.k8sNode ctx.cid nn)

/-- The snapshot under its pending name. -/
def pendingSnapshot (ctx : Ctx) (input : SnapshotInput) (state : StateKind) : Fragment :=
  let kind := FragmentKind.k8sSnapshot ctx.cid placeholder
  Fragment.ofTriples kind
    (snapshotHead ctx input state kind.graph
      ++ (countedObjects ctx).flatMap
        (objectTriples ctx (placement ctx input.pods) (pulled ctx input.pods) kind.graph))

/-- The placeholder is replaced wherever it stands in the text of a term. -/
def rehashTerm (real : String) : Term → Term
  | .iri i => .iri (Text.replace placeholder real i)
  | .bnode l => .bnode (Text.replace placeholder real l)
  | .literal v dt => .literal (Text.replace placeholder real v) (Text.replace placeholder real dt)
  | .lang v tag => .lang (Text.replace placeholder real v) (Text.replace placeholder real tag)

def rehashTriple (real : String) (t : Triple) : Triple :=
  ⟨rehashTerm real t.s, Text.replace placeholder real t.p, rehashTerm real t.o⟩

/-- Replace the placeholder graph hash with the real one in every quad. -/
def rehash (f : Fragment) (real : String) : Finset Triple := f.lines.image (rehashTriple real)

def contentHash (x : Extern) (f : Fragment) : String := x.sha256Hex (Encoding.utf8 f.toNquads)

/-- The snapshot of some objects. The time is the current one where none is given. -/
def buildSnapshot (x : Extern) (now : String) (input : SnapshotInput) (opts : SnapshotOptions) :
    SnapshotOutput :=
  let ctx := ctxOf input opts
  let nodesFrag := nodesFragment ctx opts
  let nodesHash := contentHash x nodesFrag
  let f := pendingSnapshot ctx input opts.state
  let snapshotHash := contentHash x f
  let snapshot : Fragment := ⟨.k8sSnapshot ctx.cid snapshotHash, rehash f snapshotHash⟩
  let observedAt := opts.observedAt.getD now
  { snapshot
    nodes := ⟨.k8sNodes ctx.cid nodesHash, rehash nodesFrag nodesHash⟩
    observed := Fragment.ofTriples (.k8sObserved ctx.cid snapshotHash observedAt)
      [addTyped snapshot.graph (k8s "observedAt") observedAt (xsd "dateTime"),
        addIri snapshot.graph (nix "hasFragment") (Iri.k8sNodesFragment ctx.cid nodesHash)]
    snapshotIri := snapshot.graph
    snapshotHash
    nodesHash
    objects := (countedObjects ctx).length }

end Nix2Rdf.K8s
