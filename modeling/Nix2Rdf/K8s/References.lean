import Nix2Rdf.K8s.Edges
import Nix2Rdf.K8s.Rehash

/-!
# References between objects

An object names the objects it refers to. A snapshot has an edge for each reference, to the entity that an
object of that kind, namespace and name would have.
-/

namespace Nix2Rdf.K8s

open Text (slash)
open Triple

/-! ## What stands in an object -/

/-- The names that stand under some paths, with the kinds of what they name. -/
def namesAt (v : Json) (paths : List (String × List String)) : List (String × String) :=
  paths.filterMap fun p => (s v p.2).map fun nm => (p.1, nm)

def containerMounts (c : Json) : List (String × String) :=
  ((arr c ["env"]).flatMap fun e => namesAt e
    [("ConfigMap", ["valueFrom", "configMapKeyRef", "name"]), ("Secret", ["valueFrom", "secretKeyRef", "name"])])
  ++ (arr c ["envFrom"]).flatMap fun e => namesAt e
    [("ConfigMap", ["configMapRef", "name"]), ("Secret", ["secretRef", "name"])]

def volumeMounts (v : Json) : List (String × String) :=
  namesAt v [("ConfigMap", ["configMap", "name"]), ("Secret", ["secret", "secretName"]),
    ("PersistentVolumeClaim", ["persistentVolumeClaim", "claimName"])]
  ++ (arr v ["projected", "sources"]).flatMap fun src => namesAt src
    [("ConfigMap", ["configMap", "name"]), ("Secret", ["secret", "name"])]

/-- Config maps, secrets and volume claims of a pod. -/
def podMounts (ps : Json) : List (String × String) :=
  ((arr ps ["containers"] ++ arr ps ["initContainers"]).flatMap containerMounts) ++
    (arr ps ["volumes"]).flatMap volumeMounts

def podAccount (ps : Json) : String := ((s ps ["serviceAccountName"]).or (s ps ["serviceAccount"])).getD "default"

/-- The storage classes of the claims a workload makes itself. -/
def templateClasses (w : Json) : List String :=
  (arr w ["spec", "volumeClaimTemplates"]).filterMap fun t => s t ["spec", "storageClassName"]

def backends (o : Json) : List String :=
  (s o ["spec", "defaultBackend", "service", "name"]).toList
  ++ (arr o ["spec", "rules"]).flatMap fun r => (arr r ["http", "paths"]).filterMap fun p =>
    s p ["backend", "service", "name"]

def classNames (o : Json) : List String := (s o ["spec", "storageClassName"]).toList

def volumeNames (o : Json) : List String := (s o ["spec", "volumeName"]).toList

/-- A reference as it is spelled. -/
structure Ref where
  kind : String
  ns : Option String
  name : String
  deriving DecidableEq

/-- A subject that is no service account is a user or stands for a group. -/
def subjectRef (nsopt : Option String) (sub : Json) : Ref :=
  let sn := (s sub ["name"]).getD ""
  match (s sub ["kind"]).getD "" with
  | "ServiceAccount" => ⟨"ServiceAccount", some (((s sub ["namespace"]).or nsopt).getD "default"), sn⟩
  | "User" => ⟨"user", none, sn⟩
  | _ => ⟨"group", none, sn⟩

/-- The references of a pod, made in a namespace. -/
def podEdges (w : Json) (ps : Json) : List (String × Ref) :=
  let ns := (namespaceOf w).getD "default"
  ((podMounts ps).map fun m => ("mounts", ⟨m.1, some ns, m.2⟩))
  ++ ((templateClasses w).map fun sc => ("usesStorageClass", ⟨"StorageClass", none, sc⟩))
  ++ [("usesServiceAccount", ⟨"ServiceAccount", some ns, podAccount ps⟩)]

def roleRef (nsopt : Option String) (o : Json) : Ref :=
  let rn := (s o ["roleRef", "name"]).getD ""
  if (s o ["roleRef", "kind"]).getD "" = "ClusterRole" then ⟨"ClusterRole", none, rn⟩ else ⟨"Role", nsopt, rn⟩

/-- The references of an object, with the properties that state them. -/
def edges (o : Json) : List (String × Ref) :=
  let nsopt := nsOption (keyOf o).ns
  match kind o with
  | "Deployment" | "StatefulSet" | "DaemonSet" | "Job" | "CronJob" => ((podSpec o).map (podEdges o)).getD []
  | "Ingress" => (backends o).map fun sv => ("routesTo", ⟨"Service", nsopt, sv⟩)
  | "PersistentVolumeClaim" =>
      ((classNames o).map fun sc => ("usesStorageClass", ⟨"StorageClass", none, sc⟩))
      ++ (volumeNames o).map fun pv => ("boundTo", ⟨"PersistentVolume", none, pv⟩)
  | "PersistentVolume" => (classNames o).map fun sc => ("usesStorageClass", ⟨"StorageClass", none, sc⟩)
  | "RoleBinding" | "ClusterRoleBinding" =>
      ("grants", roleRef nsopt o) :: (arr o ["subjects"]).map fun sub => ("subjectOf", subjectRef nsopt sub)
  | _ => []

/-- The kinds of objects that refer to others. -/
def referringKinds : List String :=
  workloadKinds ++ ["Ingress", "PersistentVolumeClaim", "PersistentVolume", "RoleBinding", "ClusterRoleBinding"]

/-- The kinds of objects that are referred to. -/
def targetKinds : List String :=
  ["ConfigMap", "Secret", "PersistentVolumeClaim", "PersistentVolume", "StorageClass", "ServiceAccount", "Role",
    "ClusterRole", "Service"]

def Key.ref (k : Key) : Ref := ⟨k.kind, nsOption k.ns, k.name⟩

/-- The entity of what is referred to. -/
def Ctx.refIri (ctx : Ctx) (r : Ref) : Iri := ctx.objIri r.kind r.ns r.name

def refTerms : List String :=
  ["mounts", "usesServiceAccount", "boundTo", "usesStorageClass", "grants", "routesTo", "subjectOf"]

/-! ## Edges -/

section Edges

variable {ctx : Ctx} {counts : KeyMap (BTreeMap Int)} {digests : KeyMap (BTreeMap (List String))} {key : Key}
  {nsopt : Option String} {oi : Iri} {o : Json} {t : Triple}

/-- The properties of references. -/
def refProps : List Iri := refTerms.map k8s

@[simp] theorem k8s_mem_refProps {w : String} : k8s w ∈ refProps ↔ w ∈ refTerms := by simp [refProps]

@[simp] theorem rdfType_not_mem_refProps : rdfType ∉ refProps := by simp [refProps]

theorem not_mem_of_avoids {ps : List Iri} {l : List Triple} (h : Avoids ps l) (hp : t.p ∈ ps) : t ∉ l :=
  fun ht => h t ht hp

theorem mem_append_left_of_avoids {ps : List Iri} {l l' : List Triple} (h : Avoids ps l') (hp : t.p ∈ ps) :
    t ∈ l ++ l' ↔ t ∈ l := by
  rw [List.mem_append, or_iff_left (not_mem_of_avoids h hp)]

theorem mem_append_right_of_avoids {ps : List Iri} {l l' : List Triple} (h : Avoids ps l) (hp : t.p ∈ ps) :
    t ∈ l ++ l' ↔ t ∈ l' := by
  rw [List.mem_append, or_iff_right (not_mem_of_avoids h hp)]

theorem exists_mem_flatMap {α β : Type} {l : List α} {f : α → List β} {p : β → Prop} :
    (∃ b ∈ l.flatMap f, p b) ↔ ∃ a ∈ l, ∃ b ∈ f a, p b := by
  simp only [List.mem_flatMap]
  constructor
  · rintro ⟨b, ⟨a, ha, hb⟩, h⟩
    exact ⟨a, ha, b, hb, h⟩
  · rintro ⟨a, ha, b, hb, h⟩
    exact ⟨b, ⟨a, ha, hb⟩, h⟩

theorem mem_mountTriples {ns : String} {v : Json} {paths : List (String × List String)} :
    t ∈ mountTriples ctx oi ns v paths ↔
      ∃ m ∈ namesAt v paths, t = addIri oi (k8s "mounts") (ctx.objIri m.1 (some ns) m.2) := by
  simp only [mountTriples, namesAt, List.mem_filterMap, Option.map_eq_some_iff]
  constructor
  · rintro ⟨p, hp, nm, hnm, rfl⟩
    exact ⟨(p.1, nm), ⟨p, hp, nm, hnm, rfl⟩, rfl⟩
  · rintro ⟨m, ⟨p, hp, nm, hnm, rfl⟩, rfl⟩
    exact ⟨p, hp, nm, hnm, rfl⟩

theorem containerTriples_edges {pulled : BTreeMap (List String)} {init : Bool} {c : Json} (hp : t.p ∈ refProps) :
    t ∈ containerTriples ctx o oi pulled init c ↔ ∃ m ∈ containerMounts c,
      t = addIri oi (k8s "mounts") (ctx.objIri m.1 (some ((namespaceOf o).getD "default")) m.2) := by
  have hlimits : ∀ (ci : Iri), Avoids refProps
    ([("requestsCpu", ["requests", "cpu"]), ("requestsMemory", ["requests", "memory"]),
      ("limitsCpu", ["limits", "cpu"]), ("limitsMemory", ["limits", "memory"])].filterMap fun r =>
      (s c ("resources" :: r.2)).map fun v => addStr ci (k8s r.1) v) := by
    intro ci
    refine avoids_filterMap fun r hr t ht => ?_
    obtain ⟨_, _, rfl⟩ := Option.map_eq_some_iff.mp ht
    have hterms : ∀ r ∈ [("requestsCpu", ["requests", "cpu"]), ("requestsMemory", ["requests", "memory"]),
      ("limitsCpu", ["limits", "cpu"]), ("limitsMemory", ["limits", "memory"])], r.1 ∉ refTerms := by decide
    simpa using hterms r hr
  have hinit : ∀ ci : Iri, Avoids refProps (if init then [addBool ci (k8s "initContainer") true] else []) := by
    intro ci
    split
    · simp [refTerms]
    · exact avoids_nil
  have himage : ∀ (ci : Iri) (image : String) (ds : List String),
      Avoids refProps (if ds.isEmpty then [addStr ci (k8s "unresolvedImage") image] else []) := by
    intro ci image ds
    split
    · simp [refTerms]
    · exact avoids_nil
  rw [containerTriples, List.mem_append, List.mem_append, or_assoc, or_iff_right]
  · simp only [List.mem_flatMap, mem_mountTriples]
    simp only [containerMounts, List.mem_append, or_and_right, exists_or, exists_mem_flatMap]
  · refine not_mem_of_avoids ?_ hp
    simp only [avoids_append, avoids_cons, avoids_nil, avoids_map, addType_p, addStr_p, addIri_p, hlimits,
      hinit, himage, k8s_mem_refProps, rdfType_not_mem_refProps, not_false_eq_true, and_true, true_and]
    simp [refTerms]

theorem volumeTriples_edges {ns : String} {v : Json} : t ∈ volumeTriples ctx oi ns v ↔
    ∃ m ∈ volumeMounts v, t = addIri oi (k8s "mounts") (ctx.objIri m.1 (some ns) m.2) := by
  simp only [volumeTriples, List.mem_append, List.mem_flatMap, mem_mountTriples]
  simp only [volumeMounts, List.mem_append, or_and_right, exists_or, exists_mem_flatMap]

/-- The triples of some references. -/
def IsEdge (ctx : Ctx) (oi : Iri) (es : List (String × Ref)) (t : Triple) : Prop :=
  ∃ e ∈ es, t = addIri oi (k8s e.1) (ctx.refIri e.2)

@[simp] theorem isEdge_nil : ¬ IsEdge ctx oi [] t := by simp [IsEdge]

@[simp] theorem isEdge_append {es es' : List (String × Ref)} :
    IsEdge ctx oi (es ++ es') t ↔ IsEdge ctx oi es t ∨ IsEdge ctx oi es' t := by
  simp only [IsEdge, List.mem_append, or_and_right, exists_or]

@[simp] theorem isEdge_cons {e : String × Ref} {es : List (String × Ref)} :
    IsEdge ctx oi (e :: es) t ↔ t = addIri oi (k8s e.1) (ctx.refIri e.2) ∨ IsEdge ctx oi es t := by
  simp only [IsEdge, List.mem_cons, or_and_right, exists_or, exists_eq_left]

theorem isEdge_map {α : Type} {l : List α} {f : α → String × Ref} : IsEdge ctx oi (l.map f) t ↔
    ∃ a ∈ l, t = addIri oi (k8s (f a).1) (ctx.refIri (f a).2) := by
  simp [IsEdge]

theorem storageClassTriples_edges : t ∈ storageClassTriples ctx oi o ↔
    IsEdge ctx oi ((classNames o).map fun sc => ("usesStorageClass", ⟨"StorageClass", none, sc⟩)) t := by
  simp only [storageClassTriples, classNames, List.mem_map, isEdge_map, eq_comm (b := t), Ctx.refIri]

theorem containerSpecs_edges (pulled : BTreeMap (List String)) (hp : t.p ∈ refProps) :
    t ∈ containerSpecs ctx o oi pulled ↔ IsEdge ctx oi (((podSpec o).map (podEdges o)).getD []) t := by
  rw [containerSpecs]
  cases podSpec o with
  | none => simp
  | some ps =>
      have hcontainer : ∀ init c, t ∈ containerTriples ctx o oi pulled init c ↔ ∃ m ∈ containerMounts c,
          t = addIri oi (k8s "mounts") (ctx.objIri m.1 (some ((namespaceOf o).getD "default")) m.2) :=
        fun _ _ => containerTriples_edges hp
      have hclasses : t ∈ ((arr o ["spec", "volumeClaimTemplates"]).filterMap fun t =>
          (s t ["spec", "storageClassName"]).map fun sc =>
            addIri oi (k8s "usesStorageClass") (ctx.objIri "StorageClass" none sc)) ↔
          ∃ sc ∈ templateClasses o, t = addIri oi (k8s "usesStorageClass") (ctx.objIri "StorageClass" none sc) := by
        simp only [templateClasses, List.mem_filterMap, Option.map_eq_some_iff]
        constructor
        · rintro ⟨c, hc, sc, hsc, rfl⟩
          exact ⟨sc, ⟨c, hc, hsc⟩, rfl⟩
        · rintro ⟨sc, ⟨c, hc, hsc⟩, rfl⟩
          exact ⟨c, hc, sc, hsc, rfl⟩
      simp only [List.mem_append, List.mem_flatMap, hcontainer, volumeTriples_edges, hclasses, List.mem_singleton]
      simp only [Option.map_some, Option.getD_some, podEdges, isEdge_append, isEdge_map, isEdge_cons,
        isEdge_nil, or_false, podMounts, podAccount, List.flatMap_append, List.mem_append, or_and_right,
        exists_or, exists_mem_flatMap, Ctx.refIri]

theorem workloadTriples_edges (hp : t.p ∈ refProps) : t ∈ workloadTriples ctx counts digests key nsopt oi o ↔
    IsEdge ctx oi (((podSpec o).map (podEdges o)).getD []) t := by
  have hexempt : Avoids refProps (if (annotations o)[ctx.cfg.exemptSingleDomainAnnotation]? = some "true" then
      [addBool oi (k8s "exemptSingleDomain") true] else []) := by
    split
    · simp [refTerms]
    · exact avoids_nil
  rw [workloadTriples, ← containerSpecs_edges (digests[key]?.getD ∅) hp,
    mem_append_left_of_avoids (by simp [refTerms]) hp, mem_append_left_of_avoids hexempt hp,
    mem_append_left_of_avoids (by simp [refTerms]) hp,
    mem_append_left_of_avoids (avoids_owner (by simp) (by simp [ownerTerms, refTerms]) _) hp,
    mem_append_right_of_avoids (by simp [addLabels, refTerms]) hp]

theorem ingressTriples_edges (hp : t.p ∈ refProps) : t ∈ ingressTriples ctx nsopt oi o ↔
    IsEdge ctx oi ((backends o).map fun sv => ("routesTo", ⟨"Service", nsopt, sv⟩)) t := by
  rw [ingressTriples, mem_append_right_of_avoids (by simp) hp]
  simp only [List.mem_map, mem_btreeSet, isEdge_map, eq_comm (b := t), backends, Ctx.refIri]

theorem claimTriples_edges (hp : t.p ∈ refProps) : t ∈ claimTriples ctx oi o ↔
    IsEdge ctx oi (((classNames o).map fun sc => ("usesStorageClass", ⟨"StorageClass", none, sc⟩))
      ++ (volumeNames o).map fun pv => ("boundTo", ⟨"PersistentVolume", none, pv⟩)) t := by
  rw [claimTriples, List.append_assoc, mem_append_right_of_avoids (by simp) hp, List.mem_append,
    storageClassTriples_edges, isEdge_append]
  simp only [volumeNames, List.mem_map, isEdge_map, eq_comm (b := t), Ctx.refIri]

theorem volumeObjectTriples_edges (hp : t.p ∈ refProps) : t ∈ volumeObjectTriples ctx oi o ↔
    IsEdge ctx oi ((classNames o).map fun sc => ("usesStorageClass", ⟨"StorageClass", none, sc⟩)) t := by
  rw [volumeObjectTriples, mem_append_left_of_avoids (by simp [refTerms]) hp, mem_append_right_of_avoids (by simp) hp,
    storageClassTriples_edges]

theorem subjectTriples_edges {sub : Json} (hp : t.p ∈ refProps) : t ∈ subjectTriples ctx nsopt oi sub ↔
    t = addIri oi (k8s "subjectOf") (ctx.refIri (subjectRef nsopt sub)) := by
  have htype : ∀ i cls, t ≠ addType i cls := by
    rintro i cls rfl
    simp at hp
  have hname : ∀ i v, t ≠ addStr i (k8s "name") v := by
    rintro i v rfl
    simp [refTerms] at hp
  unfold subjectTriples subjectRef
  generalize (s sub ["kind"]).getD "" = k
  by_cases haccount : k = "ServiceAccount"
  · subst haccount
    simp only [List.mem_singleton, Ctx.refIri]
  by_cases huser : k = "User"
  · subst huser
    simp only [List.mem_cons, List.not_mem_nil, or_false, Ctx.refIri, htype, hname, false_or]
  simp [Ctx.refIri, htype, hname]

theorem bindingTriples_edges (hp : t.p ∈ refProps) : t ∈ bindingTriples ctx key nsopt oi o ↔
    IsEdge ctx oi (("grants", roleRef nsopt o) :: (arr o ["subjects"]).map fun sub =>
      ("subjectOf", subjectRef nsopt sub)) t := by
  have htype : ∀ i cls, t ≠ addType i cls := by
    rintro i cls rfl
    simp at hp
  have hrole : ctx.refIri (roleRef nsopt o) = if (s o ["roleRef", "kind"]).getD "" = "ClusterRole" then
      ctx.objIri "ClusterRole" none ((s o ["roleRef", "name"]).getD "")
      else ctx.objIri "Role" nsopt ((s o ["roleRef", "name"]).getD "") := by
    unfold roleRef
    split <;> rfl
  simp only [bindingTriples, List.mem_append, List.mem_cons, List.not_mem_nil, or_false, htype, false_or,
    List.mem_flatMap, subjectTriples_edges hp, isEdge_cons, isEdge_map, hrole]

/-- On account of its kind an object has an edge for each of its references, and no other ones. -/
theorem kindTriples_edges (hkey : keyOf o = key) (hp : t.p ∈ refProps) :
    t ∈ kindTriples ctx counts digests key (nsOption key.ns) oi o ↔ IsEdge ctx oi (edges o) t := by
  subst hkey
  have hkind : (keyOf o).kind = kind o := rfl
  have hplain : ∀ l, Avoids refProps l → (t ∈ l ↔ IsEdge ctx oi [] t) := by
    intro l hl
    exact iff_of_false (not_mem_of_avoids hl hp) isEdge_nil
  by_cases hrefers : kind o ∈ referringKinds
  · simp only [referringKinds, workloadKinds, List.mem_append, List.mem_cons, List.not_mem_nil, or_false] at hrefers
    rcases hrefers with (hk | hk | hk | hk | hk) | hk | hk | hk | hk | hk
    all_goals simp only [kindTriples, edges, hkind, hk]
    · exact workloadTriples_edges hp
    · exact workloadTriples_edges hp
    · exact workloadTriples_edges hp
    · exact workloadTriples_edges hp
    · exact workloadTriples_edges hp
    · exact ingressTriples_edges hp
    · exact claimTriples_edges hp
    · exact volumeObjectTriples_edges hp
    · exact bindingTriples_edges hp
    · exact bindingTriples_edges hp
  · have hnone : edges o = [] := by
      unfold edges
      split
      all_goals simp_all [referringKinds, workloadKinds]
    have hterms : ∀ k ∈ termKinds, k ∉ referringKinds → ∀ w ∈ kindTerms k, w ∉ refTerms := by decide
    have havoids : ∀ w ∈ kindTerms (keyOf o).kind, k8s w ∉ refProps := by
      intro w hw
      rw [k8s_mem_refProps]
      exact hterms _ (mem_termKinds hw) hrefers w hw
    rw [hnone]
    exact hplain _ (avoids_kind (by simp) havoids _ _ _)

end Edges

end Nix2Rdf.K8s
