import Nix2Rdf.Packs.Syntax

/-!
# The k8s pack

Structural rules between what was built and what runs, and the deployment policies. Every property
that a rule body uses is copied once into a narrow relation.
-/

namespace Nix2Rdf.Packs

def k8sNarrow : List DRule :=
  [narrowTo .kWorkload rdfType (iri (k8s "Workload")),
    narrowTo .kStatefulSet rdfType (iri (k8s "StatefulSet")),
    narrowTo .kContainer rdfType (iri (k8s "ContainerSpec")),
    narrowTo .kNamespace rdfType (iri (k8s "Namespace")),
    narrowTo .kServiceAccount rdfType (iri (k8s "ServiceAccount")),
    narrowTo .kClusterRoleBinding rdfType (iri (k8s "ClusterRoleBinding")),
    narrowTo .kSnapshot rdfType (iri (k8s "Snapshot")),
    narrow .kInNamespace (k8s "inNamespace"), narrow .kInCluster (k8s "inCluster"),
    narrow .kName (k8s "name"), narrow .kLabel (k8s "label"),
    narrow .kHasContainer (k8s "hasContainer"), narrow .kRunsImage (k8s "runsImage"),
    narrow .kUnresolvedImage (k8s "unresolvedImage"), narrow .kScheduledOn (k8s "scheduledOn"),
    narrow .kReplicas (k8s "replicas"), narrow .kHasPDB (k8s "hasPDB"),
    narrow .kMounts (k8s "mounts"), narrow .kBoundTo (k8s "boundTo"),
    narrow .kPinnedToNode (k8s "pinnedToNode"), narrowTo .kOwnerUnknown (k8s "ownerUnknown") yes,
    narrowTo .kExempt (k8s "exemptSingleDomain") yes, narrowAny .kLimitsCpu (k8s "limitsCpu"),
    narrowAny .kLimitsMemory (k8s "limitsMemory"), narrow .kInFailureDomain (k8s "inFailureDomain"),
    narrow .kDomainKind (k8s "domainKind"), narrow .kHostGeneration (k8s "hostGeneration"),
    narrow .kNodeRole (k8s "nodeRole"), narrow .kKernelVersion (k8s "kernelVersion"),
    narrow .kAppliesTo (k8s "appliesTo"), narrow .kPolicyType (k8s "policyType"),
    narrow .kAllowsIngressFrom (k8s "allowsIngressFrom"),
    narrowTo .kAllowsAllIngress (k8s "allowsAllIngress") yes, narrow .kGrants (k8s "grants"),
    narrow .kSubjectOf (k8s "subjectOf"), narrow .kAggregates (k8s "aggregates"),
    narrow .kPermits (k8s "permits"), narrow .kVerb (k8s "verb"), narrow .kResource (k8s "resource"),
    narrow .kSnapshotKind (k8s "snapshotKind"), narrow .kOfCluster (k8s "ofCluster"),
    narrowAny .nImageDigest (nix "digest"), narrow .nRuntimeClosure (nix "runtimeClosureContains"),
    narrow .nClosure (nix "closureContains"), narrow .nHasOutput (nix "hasOutput"),
    narrow .iVulnerableTo (ids "vulnerableTo"), narrow .iSeverityRank (ids "severityRank")]

/-- Production namespaces. -/
def k8sProduction : List DRule :=
  [clause (atom .prodNs [var "ns"])
      [atom .kNamespace [var "ns"], atom .kLabel [var "ns", str "environment=production"]],
    clause (atom .prodNs [var "ns"])
      [atom .kNamespace [var "ns"], atom .kLabel [var "ns", str "env=prod"]],
    clause (atom .prodNs [var "ns"])
      [atom .kNamespace [var "ns"], atom .kLabel [var "ns", str "nix2rdf.io/production=true"]],
    clause (tr (var "ns") (k8s "production") yes) [atom .prodNs [var "ns"]],
    clause (atom .prodWorkload [var "w"])
      [atom .kWorkload [var "w"], atom .kInNamespace [var "w", var "ns"], atom .prodNs [var "ns"]]]

/-- From what was built to what runs. Images without layer data fall back to their build closure. -/
def k8sRunning : List DRule :=
  [clause (atom .wImage [var "w", var "img"])
      [atom .kHasContainer [var "w", var "c"], atom .kRunsImage [var "c", var "img"]],
    clause (atom .imgDrv [var "img", var "d"])
      [atom .nRuntimeClosure [var "img", var "o"], atom .nHasOutput [var "d", var "o"]],
    clause (tr (var "w") (k8s "runningClosure") (var "d"))
      [atom .wImage [var "w", var "img"], atom .imgDrv [var "img", var "d"]],
    clause (atom .hasRuntime [var "img"]) [atom .nRuntimeClosure [var "img", var "o"]],
    clause (ou (var "w") (k8s "runningClosure") (var "d"))
      [atom .wImage [var "w", var "img"], .neg (atom .hasRuntime [var "img"]),
        atom .nClosure [var "img", var "d"]],
    clause (atom .running [var "w", var "d"])
      [atom .wImage [var "w", var "img"], atom .imgDrv [var "img", var "d"]],
    clause (atom .running [var "w", var "d"]) [ou (var "w") (k8s "runningClosure") (var "d")],
    clause (ou (var "c") (k8s "unknownImage") (var "img"))
      [atom .kRunsImage [var "c", var "img"], .neg (atom .nImageDigest [var "img"])],
    clause (atom .runningOnNode [var "n", var "d"])
      [atom .running [var "w", var "d"], atom .kScheduledOn [var "w", var "n"]],
    clause (atom .runningOnNode [var "n", var "d"])
      [atom .kHostGeneration [var "n", var "g"], atom .nClosure [var "g", var "d"]],
    clause (ou (var "n") (k8s "runningOnNode") (var "d")) [atom .runningOnNode [var "n", var "d"]],
    clause (ou (var "cl") (k8s "runningOn") (var "d"))
      [atom .running [var "w", var "d"], atom .kInCluster [var "w", var "cl"]],
    clause (ou (var "cl") (k8s "runningOn") (var "d"))
      [atom .runningOnNode [var "n", var "d"], atom .kInCluster [var "n", var "cl"]]]

/-- Effective reachability, ingress side. Where no policy selects the target, everything is allowed. -/
def k8sReachability : List DRule :=
  [clause (atom .ingressPolicy [var "np"]) [atom .kPolicyType [var "np", str "Ingress"]],
    clause (atom .hasIngressPolicy [var "w"])
      [atom .kAppliesTo [var "np", var "w"], atom .ingressPolicy [var "np"]],
    clause (atom .wCluster [var "w", var "cl"])
      [atom .kWorkload [var "w"], atom .kInCluster [var "w", var "cl"]],
    clause (atom .sameCluster [var "a", var "b"])
      [atom .wCluster [var "a", var "cl"], atom .wCluster [var "b", var "cl"]],
    clause (ou (var "a") (k8s "effectiveReachability") (var "b"))
      [atom .sameCluster [var "a", var "b"], .neg (atom .hasIngressPolicy [var "b"])],
    clause (ou (var "a") (k8s "effectiveReachability") (var "b"))
      [atom .kAppliesTo [var "np", var "b"], atom .ingressPolicy [var "np"],
        atom .kAllowsIngressFrom [var "np", var "a"], atom .kWorkload [var "a"]],
    clause (ou (var "a") (k8s "effectiveReachability") (var "b"))
      [atom .kAppliesTo [var "np", var "b"], atom .ingressPolicy [var "np"],
        atom .kAllowsIngressFrom [var "np", var "ns"], atom .kNamespace [var "ns"],
        atom .kInNamespace [var "a", var "ns"], atom .kWorkload [var "a"]],
    clause (ou (var "a") (k8s "effectiveReachability") (var "b"))
      [atom .kAppliesTo [var "np", var "b"], atom .ingressPolicy [var "np"],
        atom .kAllowsAllIngress [var "np"], atom .sameCluster [var "a", var "b"]]]

def k8sPermissions : List DRule :=
  [clause (atom .roleOf [var "b", var "r"]) [atom .kGrants [var "b", var "r"]],
    clause (atom .roleOf [var "b", var "r2"])
      [atom .roleOf [var "b", var "r"], atom .kAggregates [var "r", var "r2"]],
    clause (atom .effPerm [var "subj", var "perm"])
      [atom .kSubjectOf [var "b", var "subj"], atom .roleOf [var "b", var "r"],
        atom .kPermits [var "r", var "perm"]],
    clause (tr (var "subj") (k8s "effectivePermission") (var "perm"))
      [atom .effPerm [var "subj", var "perm"]]]

def numeral (n : Nat) : Nix2Rdf.Term := .literal (toString n) (xsd "integer")

/-- Failure-domain spread. -/
def k8sSpread : List DRule :=
  [clause (atom .zone [var "d"]) [atom .kDomainKind [var "d", str "zone"]],
    clause (atom .spread [var "w", var "d"])
      [atom .kScheduledOn [var "w", var "n"], atom .kInFailureDomain [var "n", var "d"],
        atom .zone [var "d"]],
    clause (tr (var "w") (k8s "spreadsOver") (var "d")) [atom .spread [var "w", var "d"]],
    clause (atom .domainCount [var "w", var "c"])
      [atom .spread [var "w", var "d0"], .count numeral "c" "d" (atom .spread [var "w", var "d"])],
    clause (ou (var "w") (k8s "failureDomainCount") (var "c"))
      [atom .domainCount [var "w", var "c"]]]

/-- A `Drift` node for two snapshots and a workload. -/
def driftNode (name kind : String) (source : DAtom) : DRule where
  head := [ou (var "x") rdfType (iri (k8s "Drift")), ou (var "x") (k8s "desiredSnapshot") (var "d"),
    ou (var "x") (k8s "liveSnapshot") (var "l"), ou (var "x") (k8s "workload") (var "w"),
    ou (var "x") (k8s "driftKind") (str kind)]
  body := [source]
  name := name
  nulls := ["x"]

def liveRule : DRule :=
  clause (atom .live [var "s"]) [atom .kSnapshotKind [var "s", iri (k8s "liveState")]]

def desiredRule : DRule :=
  clause (atom .desired [var "s"]) [atom .kSnapshotKind [var "s", iri (k8s "desiredState")]]

def imgInRule : DRule :=
  clause (atom .imgIn [var "s", var "w", var "img"])
    [qd (var "s") (var "w") (k8s "hasContainer") (var "c"),
      qd (var "s") (var "c") (k8s "runsImage") (var "img")]

def pairRule : DRule :=
  clause (atom .pair [var "d", var "l"])
    [atom .desired [var "d"], atom .live [var "l"], atom .kOfCluster [var "d", var "cl"],
      atom .kOfCluster [var "l", var "cl"]]

def imageDriftRule : DRule :=
  clause (atom .imageDrift [var "d", var "l", var "w"])
    [atom .pair [var "d", var "l"], atom .imgIn [var "d", var "w", var "i1"],
      atom .imgIn [var "l", var "w", var "i2"], ne (var "i1") (var "i2")]

def imageNodeRule : DRule :=
  driftNode "image-drift" "image" (atom .imageDrift [var "d", var "l", var "w"])

def replicaNodeRule : DRule :=
  driftNode "replica-drift" "replicas" (atom .replicaDrift [var "d", var "l", var "w"])

/-- Drift between desired and live state of one cluster. -/
def k8sDrift : List DRule :=
  [liveRule, desiredRule, imgInRule,
    clause (atom .replIn [var "s", var "w", var "r"])
      [qd (var "s") (var "w") (k8s "replicas") (var "r")],
    pairRule, imageDriftRule,
    clause (atom .replicaDrift [var "d", var "l", var "w"])
      [atom .pair [var "d", var "l"], atom .replIn [var "d", var "w", var "r1"],
        atom .replIn [var "l", var "w", var "r2"], ne (var "r1") (var "r2")],
    imageNodeRule, replicaNodeRule]

/-! ## Policies -/

/-- A violation node: the policy, its subject and further facts. -/
def violation (name policy : String) (subject : DTerm) (more : List DAtom) (body : List DLiteral) :
    DRule where
  head := [ou (var "v") rdfType (iri (nix "Violation")),
    ou (var "v") (nix "violates") (iri (policyBase ++ "k8s/" ++ policy)),
    ou (var "v") (nix "subject") subject] ++ more
  body := body
  name := name
  nulls := ["v"]

def message (m : DTerm) : DAtom := ou (var "v") (nix "message") m

variable (b : Builtins)

/-- A production workload runs a derivation that a severe vulnerability affects. -/
def cveInProduction : List DRule :=
  [fact (atom .minSeverityRank [int 3]),
    clause (atom .cveHit [var "w", var "msg"])
      [atom .prodWorkload [var "w"], atom .running [var "w", var "d"],
        atom .iVulnerableTo [var "d", var "vuln"], atom .iSeverityRank [var "vuln", var "r"],
        atom .minSeverityRank [var "min"], holds b.atLeast (var "r") (var "min"),
        concatFull b (var "msg") (var "d") " vulnerable to " (var "vuln")],
    violation "cve" "cve-in-production" (var "w") [message (var "msg")]
      [atom .cveHit [var "w", var "msg"]]]

/-- A typed reference whose target is not in the same snapshot. -/
def danglingReference : List DRule :=
  clause (atom .typedIn [var "s", var "x"]) [qd (var "s") (var "x") rdfType (var "c")]
  :: (["mounts", "usesServiceAccount", "boundTo", "usesStorageClass", "grants", "routesTo",
        "subjectOf"].map fun p =>
      clause (atom .refIn [var "s", var "from", var "to"]) [qd (var "s") (var "from") (k8s p) (var "to")])
  ++ [clause (atom .dangling [var "s", var "from", var "msg"])
        [atom .refIn [var "s", var "from", var "to"], atom .kSnapshot [var "s"],
          .neg (atom .typedIn [var "s", var "to"]), fullStr b (var "msg") (var "to")],
      clause (ou (var "from") (k8s "danglingRef") (var "msg"))
        [atom .dangling [var "s", var "from", var "msg"]],
      violation "dangling" "dangling-reference" (var "from")
        [ou (var "v") (nix "inSnapshot") (var "s"), message (var "msg")]
        [atom .dangling [var "s", var "from", var "msg"]]]

/-- Nodes of one role run different generations, or a kernel is below the minimum. -/
def hostContainerMismatch : List DRule :=
  [fact (atom .minKernel [str "6.6"]),
    clause (atom .roleGen [var "n", var "role", var "cl", var "g"])
      [atom .kNodeRole [var "n", var "role"], atom .kInCluster [var "n", var "cl"],
        atom .kHostGeneration [var "n", var "g"]],
    clause (atom .genMismatch [var "n"])
      [atom .roleGen [var "n", var "role", var "cl", var "g1"],
        atom .roleGen [var "m", var "role", var "cl", var "g2"], ne (var "g1") (var "g2")],
    violation "generation" "host-container-mismatch" (var "n")
      [message (str "generation differs from a node with the same role")]
      [atom .genMismatch [var "n"]],
    clause (atom .oldKernel [var "n"])
      [atom .kKernelVersion [var "n", var "kv"], atom .minKernel [var "min"],
        holds b.less (var "kv") (var "min")],
    violation "kernel" "host-container-mismatch" (var "n") [message (str "kernel below minimum")]
      [atom .oldKernel [var "n"]]]

def missingLimits : List DRule :=
  [violation "limits-cpu" "missing-limits" (var "c") []
      [atom .kContainer [var "c"], .neg (atom .kLimitsCpu [var "c"])],
    violation "limits-memory" "missing-limits" (var "c") []
      [atom .kContainer [var "c"], .neg (atom .kLimitsMemory [var "c"])],
    violation "owner" "missing-owner" (var "w") []
      [atom .kWorkload [var "w"], atom .kOwnerUnknown [var "w"]]]

/-- A production workload of several replicas without a disruption budget. -/
def noPdb : List DRule :=
  [clause (atom .hasPdb [var "w"]) [atom .kHasPDB [var "w", var "p"]],
    violation "pdb" "no-pdb" (var "w") []
      [atom .prodWorkload [var "w"], atom .kReplicas [var "w", var "r"],
        holds b.less (int 1) (var "r"), .neg (atom .hasPdb [var "w"])]]

/-- A service account outside `kube-*` namespaces that is as good as an administrator. -/
def privilegePath : List DRule :=
  [clause (atom .systemNs [var "ns"])
      [atom .kNamespace [var "ns"], atom .kName [var "ns", var "n"],
        holds b.strStarts (var "n") (str "kube-")],
    clause (atom .userSa [var "sa"])
      [atom .kServiceAccount [var "sa"], atom .kInNamespace [var "sa", var "ns"],
        .neg (atom .systemNs [var "ns"])],
    clause (atom .adminPerm [var "p"])
      [atom .kVerb [var "p", str "*"], atom .kResource [var "p", str "*"]],
    clause (atom .secretRead [var "p"])
      [atom .kResource [var "p", str "secrets"], atom .kVerb [var "p", str "get"]],
    clause (atom .secretRead [var "p"])
      [atom .kResource [var "p", str "secrets"], atom .kVerb [var "p", str "list"]],
    clause (atom .secretRead [var "p"])
      [atom .kResource [var "p", str "secrets"], atom .kVerb [var "p", str "*"]],
    clause (atom .secretRead [var "p"])
      [atom .kResource [var "p", str "*"], atom .kVerb [var "p", str "get"]],
    clause (atom .clusterWide [var "sa", var "perm"])
      [atom .kClusterRoleBinding [var "b"], atom .kSubjectOf [var "b", var "sa"],
        atom .roleOf [var "b", var "r"], atom .kPermits [var "r", var "perm"]],
    violation "admin" "privilege-path" (var "sa") [message (str "cluster-admin-equivalent")]
      [atom .userSa [var "sa"], atom .effPerm [var "sa", var "p"], atom .adminPerm [var "p"]],
    violation "secrets" "privilege-path" (var "sa") [message (str "reads secrets cluster-wide")]
      [atom .userSa [var "sa"], atom .clusterWide [var "sa", var "p"], atom .secretRead [var "p"]]]

/-- Replicas all in one zone, or a volume pinned to a node, without an exemption. -/
def singleFailureDomain : List DRule :=
  [violation "zone" "single-failure-domain" (var "w") []
      [atom .kReplicas [var "w", var "r"], holds b.less (int 1) (var "r"),
        atom .domainCount [var "w", int 1], .neg (atom .kExempt [var "w"])],
    clause (atom .pinnedVolume [var "w"])
      [atom .kStatefulSet [var "w"], atom .kMounts [var "w", var "pvc"],
        atom .kBoundTo [var "pvc", var "pv"], atom .kPinnedToNode [var "pv", var "n"]],
    violation "volume" "single-failure-domain" (var "w") [message (str "volume pinned to a node")]
      [atom .pinnedVolume [var "w"], .neg (atom .kExempt [var "w"])]]

def unresolvedImage : List DRule :=
  [violation "unresolved" "unresolved-image" (var "c") [message (var "ref")]
      [atom .kUnresolvedImage [var "c", var "ref"]]]

/-- Only active when some attestation is loaded. -/
def unsignedImage : List DRule :=
  [clause (atom .signed [var "img"]) [tr (var "img") (attest "verifiedBy") (var "who")],
    clause (atom .attestationsLoaded [int 1]) [atom .signed [var "img"]],
    violation "unsigned" "unsigned-image" (var "img") []
      [atom .attestationsLoaded [int 1], atom .kRunsImage [var "c", var "img"],
        .neg (atom .signed [var "img"])]]

def k8sPolicies : List DRule :=
  cveInProduction b ++ danglingReference b ++ hostContainerMismatch b ++ missingLimits ++ noPdb b
  ++ privilegePath b ++ singleFailureDomain b ++ unresolvedImage ++ unsignedImage

def k8sPack : List DRule :=
  k8sNarrow ++ k8sProduction ++ k8sRunning ++ k8sReachability ++ k8sPermissions ++ k8sSpread ++ k8sDrift
  ++ k8sPolicies b

end Nix2Rdf.Packs
