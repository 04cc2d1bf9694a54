import Nix2Rdf.Nix
import Mathlib.Order.Compare

/-!
# Kubernetes objects

Helpers over raw objects, which are JSON values as the API server or a manifest gives them.
-/

namespace Nix2Rdf.K8s

abbrev Labels := BTreeMap String

def s (v : Json) (path : List String) : Option String := (v.path? path).bind Json.asStr?

def i (v : Json) (path : List String) : Option Int := (v.path? path).bind Json.asI64?

def arr (v : Json) (path : List String) : List Json := ((v.path? path).bind Json.asArr?).getD []

/-- The members of an object that are strings. -/
def map (v : Json) (path : List String) : Labels :=
  match v.path? path with
  | some o => .ofList (o.entries.filterMap fun kv => kv.2.asStr?.map fun t => (kv.1, t)) compare
  | none => ∅

def kind (v : Json) : String := (s v ["kind"]).getD ""

def name (v : Json) : String := (s v ["metadata", "name"]).getD ""

def namespaceOf (v : Json) : Option String := s v ["metadata", "namespace"]

def labels (v : Json) : Labels := map v ["metadata", "labels"]

def annotations (v : Json) : Labels := map v ["metadata", "annotations"]

def workloadKinds : List String := ["Deployment", "StatefulSet", "DaemonSet", "Job", "CronJob"]

def clusterKinds : List String :=
  ["Node", "Namespace", "PersistentVolume", "StorageClass", "ClusterRole", "ClusterRoleBinding"]

/-- The pod template spec of a workload. -/
def podSpec (w : Json) : Option Json :=
  if kind w = "CronJob" then w.path? ["spec", "jobTemplate", "spec", "template", "spec"]
  else w.path? ["spec", "template", "spec"]

def podLabels (w : Json) : Labels :=
  if kind w = "CronJob" then
    map w ["spec", "jobTemplate", "spec", "template", "metadata", "labels"]
  else map w ["spec", "template", "metadata", "labels"]

/-! ## Selectors -/

/-- One of the `matchExpressions`. -/
def expressionMatches (labels : Labels) (e : Json) : Bool :=
  let values := (arr e ["values"]).filterMap Json.asStr?
  let value := labels[(s e ["key"]).getD ""]?
  match (s e ["operator"]).getD "" with
  | "In" => (value.map fun h => decide (h ∈ values)).getD false
  | "NotIn" => (value.map fun h => decide (h ∉ values)).getD true
  | "Exists" => value.isSome
  | "DoesNotExist" => value.isNone
  | _ => false

/-- A label selector. One that is missing or empty matches everything or nothing, as the caller says. -/
def selectorMatches (sel : Option Json) (labels : Labels) (emptyMatchesAll : Bool) : Bool :=
  match sel with
  | none => emptyMatchesAll
  | some sel =>
      let ml := map sel ["matchLabels"]
      let exprs := arr sel ["matchExpressions"]
      if ml.isEmpty && exprs.isEmpty then emptyMatchesAll
      else (ml.toList.all fun kv => labels[kv.1]? = some kv.2) && exprs.all (expressionMatches labels)

/-- Service selectors are plain label maps. -/
def plainSelectorMatches (sel labels : Labels) : Bool :=
  !sel.isEmpty && sel.toList.all fun kv => labels[kv.1]? = some kv.2

/-! ## Images -/

/-- Split an image reference into (repository, tag, digest). -/
def parseImageRef (r : String) : String × Option String × Option String :=
  let parts := match Text.splitOnce '@' r with
    | some p => (p.1, some p.2)
    | none => (r, none)
  -- a ':' before the last '/' belongs to a registry port
  let last := Text.lastPart '/' parts.1
  match Text.rsplitOnce ':' last with
  | some p =>
      (String.ofList (parts.1.toList.take (parts.1.toList.length - last.toList.length)) ++ p.1,
        some p.2, parts.2)
  | none => (parts.1, none, parts.2)

def isHexDigit (c : Char) : Bool := c.isDigit || ('a' ≤ c && c ≤ 'f') || ('A' ≤ c && c ≤ 'F')

def digestHex (d : String) : Option String :=
  (Text.stripPrefix? "sha256:" d).bind fun h =>
    if h.toList.length = 64 ∧ h.toList.all isHexDigit then some (String.ofList (h.toList.map Char.toLower))
    else none

/-! ## Normalization -/

def volatileFields : List String :=
  ["resourceVersion", "uid", "managedFields", "creationTimestamp", "generation", "selfLink", "deletionTimestamp",
    "deletionGracePeriodSeconds"]

def volatileAnnotations : List String :=
  ["kubectl.kubernetes.io/last-applied-configuration", "deployment.kubernetes.io/revision"]

def secretFields : List String := ["data", "stringData"]

/-- The metadata without what changes when the state does not. -/
def normalizeMetadata (metadata : Json) : Json :=
  (metadata.without volatileFields).modify "annotations" (·.without volatileAnnotations)

/-- Strip fields that change without the state changing. Secrets lose their data unconditionally. -/
def normalize (v : Json) : Json :=
  let v := v.modify "metadata" normalizeMetadata
  if kind v = "Secret" then v.without secretFields else v

theorem s_eq_bind (v : Json) (k : String) (ks : List String) :
    s v (k :: ks) = (v.get? k).bind fun x => s x ks := by
  rw [s, Json.path?_cons, Option.bind_assoc]
  rfl

theorem kind_normalize (v : Json) : kind (normalize v) = kind v := by
  have hmodify : kind (v.modify "metadata" normalizeMetadata) = kind v := by
    rw [kind, kind, s_eq_bind, s_eq_bind, Json.get?_modify, if_neg (by decide)]
  rw [normalize]
  split
  · rw [kind, s_eq_bind, Json.get?_without, if_neg (by decide), ← s_eq_bind, ← kind, hmodify]
  · exact hmodify

/-! ## Configuration -/

/-- Which labels and annotations carry ownership, cost and topology. -/
structure LabelConfig where
  ownerKeys : List String := ["nix2rdf.io/owner", "owner", "team"]
  costCenterKeys : List String := ["nix2rdf.io/cost-center", "cost-center"]
  zoneKeys : List String :=
    ["topology.kubernetes.io/zone", "failure-domain.beta.kubernetes.io/zone"]
  regionKeys : List String :=
    ["topology.kubernetes.io/region", "failure-domain.beta.kubernetes.io/region"]
  rackKey : String := "topology.nix2rdf.io/rack"
  siteKey : String := "topology.nix2rdf.io/site"
  generationAnnotation : String := "nix2rdf.io/generation"
  exemptSingleDomainAnnotation : String := "nix2rdf.io/exempt-single-domain"

/-! ## Keys of objects -/

/-- An object is known by its kind, its namespace and its name. -/
structure Key where
  kind : String
  ns : String
  name : String
  deriving DecidableEq, Repr

/-- By kind, then by namespace, then by name. -/
def Key.cmp : Key → Key → Ordering :=
  compareLex (compareOn Key.kind) (compareLex (compareOn Key.ns) (compareOn Key.name))

instance : Std.TransCmp Key.cmp := inferInstanceAs (Std.TransCmp (compareLex _ _))

instance : Std.LawfulEqCmp Key.cmp where
  eq_of_compare {a b} h := by
    simp only [Key.cmp, compareLex_eq_eq, compareOn, Std.LawfulEqCmp.compare_eq_iff_eq] at h
    obtain ⟨h1, h2, h3⟩ := h
    cases a
    cases b
    cases h1
    cases h2
    cases h3
    rfl

abbrev KeyMap (α : Type) := Std.ExtTreeMap Key α Key.cmp

end Nix2Rdf.K8s
