import Nix2Rdf.K8s.Edges
import Nix2Rdf.K8s.Manifests
import Nix2Rdf.K8s.Unchanged
import Nix2Rdf.Reason.Hosts
import Nix2Rdf.Reason.RunKey

/-!
# The bounds of disruption budgets

An unchanged cluster gives the same snapshot exactly when the bounds of its disruption budgets are
printed the same.
-/

namespace Nix2Rdf.K8s

open Triple
open Reason

def budgetFields : List String := ["minAvailable", "maxUnavailable"]

/-- A bound as it is printed. -/
def budgetText (o : Json) (field : String) : Option String :=
  (o.path? ["spec", field]).map fun v => Text.trim (· = '"') v.print

theorem budgetTriples_eq (oi : Iri) (o : Json) : budgetTriples oi o = [addType oi (k8s "PodDisruptionBudget")]
    ++ budgetFields.filterMap fun field => (budgetText o field).map fun text => addStr oi (k8s field) text := by
  simp only [budgetTriples, budgetFields, budgetText, Option.map_map]
  rfl

/-! ## Members in another order -/

theorem eq_of_sort {α : Type} {f : Json → α} (hf : ∀ v, f v.sort = f v) {o o' : Json} (h : o'.sort = o.sort) :
    f o' = f o := by
  rw [← hf o', h, hf]

variable {o o' : Json}

theorem firstOwner_of_sort (h : o'.sort = o.sort) : (firstOwner o').map ownerRef = (firstOwner o).map ownerRef := by
  refine eq_of_sort (f := fun o => (firstOwner o).map ownerRef) (fun v => ?_) h
  rw [firstOwner_sort, Option.map_map]
  congr 1
  funext r
  exact ownerRef_sort r

theorem contentAlike_of_sort (h : o'.sort = o.sort)
    (hbudget : kind o = "PodDisruptionBudget" → ∀ field ∈ budgetFields, budgetText o' field = budgetText o field) :
    ContentAlike o o' where
  namespaceOf := eq_of_sort namespaceOf_sort h
  labels := eq_of_sort labels_sort h
  annotations := eq_of_sort annotations_sort h
  podLabels := eq_of_sort podLabels_sort h
  owner := firstOwner_of_sort h
  selector ls e := eq_of_sort (f := fun o => selectorMatches (o.path? ["spec", "selector"]) ls e)
    (fun v => selectorMatches_path v _ ls e) h
  nodeInfo field := eq_of_sort (f := fun o => s o ["status", "nodeInfo", field]) (fun v => s_sort v _) h
  kindTriples ctx counts digests key nsopt oi hkey := by
    by_cases hpdb : key.kind = "PodDisruptionBudget"
    · have htexts := hbudget (hkey.symm.trans hpdb)
      have hbounds : budgetTriples oi o' = budgetTriples oi o := by
        rw [budgetTriples_eq, budgetTriples_eq]
        congr 1
        exact List.filterMap_congr fun field hfield => by rw [htexts field hfield]
      simpa only [kindTriples, hpdb] using hbounds
    · exact eq_of_sort (kindTriples_sort ctx counts digests key hpdb nsopt oi) h

theorem objectAlike_of_sort (h : o'.sort = o.sort)
    (hbudget : kind o = "PodDisruptionBudget" → ∀ field ∈ budgetFields, budgetText o' field = budgetText o field) :
    ObjectAlike o o' where
  key := eq_of_sort keyOf_sort h
  apiVersion := eq_of_sort (f := fun o => s o ["apiVersion"]) (fun v => s_sort v _) h
  content _ := contentAlike_of_sort h hbudget

theorem podAlike_of_sort (h : o'.sort = o.sort) : PodAlike o o' where
  owner := firstOwner_of_sort h
  namespaceOf := eq_of_sort namespaceOf_sort h
  nodeName := eq_of_sort (f := fun o => s o ["spec", "nodeName"]) (fun v => s_sort v _) h
  statuses := by
    refine eq_of_sort (f := fun o => (statusesOf o).map fun cs => (s cs ["imageID"], s cs ["name"])) (fun v => ?_) h
    rw [statusesOf, statusesOf, arr_sort, arr_sort, ← List.map_append, List.map_map]
    exact List.map_congr_left fun cs _ => by simp only [Function.comp_apply, s_sort]

/-! ## What is printed -/

theorem pendingSnapshot_graph (ctx : Ctx) (input : SnapshotInput) (state : StateKind) :
    (pendingSnapshot ctx input state).graph = Iri.k8sSnapshot ctx.cid placeholder := rfl

/-- The pending snapshot of objects of valid kinds is read back line by line. -/
theorem plain_pendingSnapshot {input : SnapshotInput} (opts : SnapshotOptions)
    (hkinds : ∀ o ∈ input.objects, Indexable o → kind o ≠ "ReplicaSet" → IriSyntax.valid (kind o) = true) :
    (pendingSnapshot (ctxOf input opts) input opts.state).Plain := by
  have hgraph : plainParse (Iri.k8sSnapshot opts.clusterId placeholder) = true :=
    accepts_snapshot plainParse_parses _ (transparent_word _ (by decide))
  refine ⟨plainText_of_plainParse hgraph, fun t ht => ?_⟩
  have hdescribed := pendingSnapshot_described ht
  have haccepted := accepted_described plainParse_parses (valid_counted hkinds) (fun g hg => by cases hg) hdescribed
  have hplain : ∀ i ∈ t.iris, PlainText i := fun i hi => plainText_of_plainParse (haccepted i hi)
  obtain ⟨⟨i, hs⟩, ho⟩ := hdescribed.terms
  refine ⟨⟨i, hs, hplain i (by simp [Triple.iris, hs, Term.iris])⟩, hplain _ (by simp [Triple.iris]), ?_⟩
  rcases ho with ⟨j, hj⟩ | ⟨v, dt, hj⟩
  · rw [hj]
    exact hplain j (by simp [Triple.iris, hj, Term.iris])
  · rw [hj]
    exact hplain dt (by simp [Triple.iris, hj, Term.iris])

/-- The bounds of a budget are what the snapshot says of its entity. -/
theorem mem_pending_bound {input : SnapshotInput} (opts : SnapshotOptions)
    (hdistinct : (input.objects.map keyOf).Nodup)
    {o : Json} (ho : o ∈ input.objects) (hkind : kind o = "PodDisruptionBudget") {field : String}
    (hfield : field ∈ budgetFields) {text : String} :
    addStr ((ctxOf input opts).iriOf (keyOf o)) (k8s field) text ∈
      (pendingSnapshot (ctxOf input opts) input opts.state).lines ↔ budgetText o field = some text := by
  have hok : Indexable o := by
    rw [Indexable, hkind]
    decide
  have hindex : (ctxOf input opts).index[keyOf o]? = some o := (indexOf_eq_some_iff hdistinct).mpr ⟨ho, rfl, hok⟩
  constructor
  · intro ht
    have hnot : ∀ field ∈ budgetFields, field ∉ headTerms ∧ field ∉ objectTerms := by decide
    obtain ⟨e, he, hterm, ht⟩ := exists_kindTriples rfl (hnot field hfield).1 (hnot field hfield).2 ht
    have hkinds : ∀ kind ∈ termKinds, ∀ field ∈ budgetFields, field ∈ kindTerms kind →
        kind = "PodDisruptionBudget" := by
      decide
    have hpdb := hkinds _ (mem_termKinds hterm) field hfield hterm
    have hbounds : kindTriples (ctxOf input opts) (placement (ctxOf input opts) input.pods)
        (pulled (ctxOf input opts) input.pods) e.1 (nsOption e.1.ns) ((ctxOf input opts).iriOf e.1) e.2 =
        budgetTriples ((ctxOf input opts).iriOf e.1) e.2 := by
      simp only [kindTriples, hpdb]
    rw [hbounds, budgetTriples_eq, List.mem_append, List.mem_singleton, List.mem_filterMap] at ht
    rcases ht with ht | ⟨field', hfield', ht⟩
    · exact absurd (congrArg Triple.p ht) (k8s_ne_rdfType field)
    · obtain ⟨text', htext, heq⟩ := Option.map_eq_some_iff.mp ht
      obtain ⟨hiri, hpred, rfl⟩ := addStr_inj.mp heq
      rw [k8s_inj] at hpred
      have hplain : PlainKind "PodDisruptionBudget" := by decide
      have hplain' : PlainKind (keyOf o).kind := by
        rw [show (keyOf o).kind = "PodDisruptionBudget" from hkind]
        exact hplain
      have hkey : e.1 = keyOf o := (iriOf_inj (hpdb ▸ hplain) hplain').mp hiri
      have he' := Std.ExtTreeMap.mem_toList_iff_getElem?_eq_some.mp (List.mem_of_mem_filter he)
      rw [hkey, hindex, Option.some.injEq] at he'
      rwa [he', ← hpred]
  · intro htext
    refine Fragment.mem_ofTriples.mpr (List.mem_append_right _ (List.mem_flatMap.mpr ⟨(keyOf o, o), ?_, ?_⟩))
    · refine List.mem_filter.mpr ⟨Std.ExtTreeMap.mem_toList_iff_getElem?_eq_some.mpr hindex, ?_⟩
      have hreplica : kind o ≠ "ReplicaSet" := by
        rw [hkind]
        decide
      exact decide_eq_true hreplica
    · refine List.mem_append_right _ ?_
      have hpdb : (keyOf o).kind = "PodDisruptionBudget" := hkind
      simp only [kindTriples, hpdb]
      rw [budgetTriples_eq]
      refine List.mem_append_right _ (List.mem_filterMap.mpr ⟨field, hfield, ?_⟩)
      rw [htext]
      rfl

/-! ## Unchanged clusters -/

theorem keyOf_normalize (v : Json) : keyOf (normalize v) = keyOf v := by
  have hmeta : ∀ k, k ∉ volatileFields → k ≠ "annotations" → s (normalize v) ["metadata", k] =
      s v ["metadata", k] := by
    intro k hk hann
    rw [s, s, path?_metadata_normalize v hk hann]
  rw [keyOf, keyOf, kind_normalize, namespaceOf, namespaceOf, hmeta "namespace" (by decide) (by decide), name, name,
    hmeta "name" (by decide) (by decide)]

theorem budgetText_normalize (v : Json) (field : String) : budgetText (normalize v) field = budgetText v field := by
  rw [budgetText, budgetText, Json.path?_cons, Json.path?_cons, get?_normalize v (by decide) (by decide)]

/-- The same object, but for the order of members and for what normalization removes. -/
def Unchanged (v w : Json) : Prop := (normalize w).sort = (normalize v).sort

/-- The same objects, pods and failures in any order. -/
structure SameCluster (a b : SnapshotInput) : Prop where
  objects : ∃ l, a.objects.Perm l ∧ List.Forall₂ Unchanged l b.objects
  pods : ∃ l, a.pods.Perm l ∧ List.Forall₂ Unchanged l b.pods
  failed : ∀ k, k ∈ b.failedKinds ↔ k ∈ a.failedKinds

/-- The objects and pods as they are listed or read. -/
def normalized (input : SnapshotInput) : SnapshotInput :=
  { input with objects := input.objects.map normalize, pods := input.pods.map normalize }

/-- The budgets of both print the same bounds. -/
def SameBounds (a b : SnapshotInput) : Prop :=
  ∀ v ∈ a.objects, ∀ w ∈ b.objects, keyOf w = keyOf v → kind v = "PodDisruptionBudget" →
    ∀ field ∈ budgetFields, budgetText w field = budgetText v field

theorem Unchanged.keyOf {v w : Json} (h : Unchanged v w) : keyOf w = keyOf v := by
  rw [← keyOf_normalize w, ← keyOf_normalize v]
  exact eq_of_sort keyOf_sort h

theorem map_keyOf_normalize (l : List Json) : (l.map normalize).map keyOf = l.map keyOf := by
  rw [List.map_map]
  exact List.map_congr_left fun v _ => keyOf_normalize v

theorem keys_of_unchanged {l l' : List Json} (h : List.Forall₂ Unchanged l l') : l'.map keyOf = l.map keyOf := by
  induction h with
  | nil => rfl
  | cons h _ ih => rw [List.map_cons, List.map_cons, h.keyOf, ih]

theorem objectsAlike_of_unchanged {l l' : List Json} (h : List.Forall₂ Unchanged l l')
    (hbounds : ∀ v ∈ l, ∀ w ∈ l', K8s.keyOf w = K8s.keyOf v → kind v = "PodDisruptionBudget" →
      ∀ field ∈ budgetFields, budgetText w field = budgetText v field) :
    List.Forall₂ ObjectAlike (l.map normalize) (l'.map normalize) := by
  induction h with
  | nil => exact .nil
  | @cons v w l l' h _ ih =>
      refine .cons (objectAlike_of_sort h fun hkind field hfield => ?_) (ih fun v' hv' w' hw' => ?_)
      · rw [kind_normalize] at hkind
        rw [budgetText_normalize, budgetText_normalize]
        exact hbounds v List.mem_cons_self w List.mem_cons_self h.keyOf hkind field hfield
      · exact hbounds v' (List.mem_cons_of_mem _ hv') w' (List.mem_cons_of_mem _ hw')

section Cluster

variable {a b : SnapshotInput} (h : SameCluster a b)

include h

theorem SameCluster.keys : (a.objects.map keyOf).Perm (b.objects.map keyOf) := by
  obtain ⟨l, hperm, hsame⟩ := h.objects
  rw [keys_of_unchanged hsame]
  exact hperm.map keyOf

/-- A cluster whose budgets print the same bounds gives the same snapshot, whatever the time. -/
theorem buildSnapshot_unchanged (hdistinct : (a.objects.map keyOf).Nodup) (hbounds : SameBounds a b) (x : Extern)
    (now now' : String) (opts : SnapshotOptions) (observedAt : Option String) :
    SameSnapshot (buildSnapshot x now (normalized a) opts)
      (buildSnapshot x now' (normalized b) (opts.at observedAt)) := by
  obtain ⟨l, hperm, hobjects⟩ := h.objects
  obtain ⟨pods, hpods, hpodsSame⟩ := h.pods
  have hrelisted : Relisted (normalized a) ⟨l.map normalize, pods.map normalize, b.failedKinds⟩ :=
    ⟨hperm.map normalize, hpods.map normalize, h.failed⟩
  have hkeys : ((normalized a).objects.map keyOf).Nodup := by
    rwa [normalized, map_keyOf_normalize]
  have halike : List.Forall₂ ObjectAlike (l.map normalize) (b.objects.map normalize) :=
    objectsAlike_of_unchanged hobjects fun v hv => hbounds v (hperm.mem_iff.mpr hv)
  have hpodsAlike : List.Forall₂ PodAlike (pods.map normalize) (b.pods.map normalize) := by
    rw [List.forall₂_map_left_iff, List.forall₂_map_right_iff]
    exact hpodsSame.imp fun _ _ hp => podAlike_of_sort hp
  have hsame := buildSnapshot_alike x now' (opts.at observedAt) b.failedKinds halike hpodsAlike
  have hlisted := buildSnapshot_relisted x now now' opts hrelisted hkeys observedAt
  rw [← hsame] at hlisted
  exact hlisted

theorem bounds_of_sameSnapshot {x : Extern} (hx : Function.Injective x.sha256Hex)
    (hdistinct : (a.objects.map keyOf).Nodup)
    (hkinds : ∀ o ∈ a.objects, Indexable o → kind o ≠ "ReplicaSet" → IriSyntax.valid (kind o) = true)
    {now now' : String} {opts : SnapshotOptions} {observedAt : Option String}
    (hsame : SameSnapshot (buildSnapshot x now (normalized a) opts)
      (buildSnapshot x now' (normalized b) (opts.at observedAt))) : SameBounds a b := by
  have hvalid : ∀ input : SnapshotInput, (∀ k ∈ input.objects.map keyOf, k ∈ a.objects.map keyOf) →
      ∀ o ∈ (normalized input).objects, Indexable o → kind o ≠ "ReplicaSet" → IriSyntax.valid (kind o) = true := by
    intro input hkeys o ho hok hreplica
    obtain ⟨w, hw, rfl⟩ := List.mem_map.mp ho
    obtain ⟨v, hv, hkey⟩ := List.mem_map.mp (hkeys _ (List.mem_map_of_mem hw))
    have hkind : kind w = kind v := congrArg Key.kind hkey.symm
    rw [Indexable, kind_normalize, hkind] at hok
    rw [kind_normalize, hkind] at hreplica ⊢
    exact hkinds v hv hok hreplica
  have hplain := plain_pendingSnapshot opts (hvalid a fun _ hk => hk)
  have hplain' := plain_pendingSnapshot (opts.at observedAt) (hvalid b fun _ hk => h.keys.mem_iff.mpr hk)
  have htext := Encoding.utf8_injective (hx hsame.snapshotHash)
  have hgraph : (pendingSnapshot (ctxOf (normalized b) (opts.at observedAt)) (normalized b)
    (opts.at observedAt).state).graph =
      (pendingSnapshot (ctxOf (normalized a) opts) (normalized a) opts.state).graph := by
    rw [pendingSnapshot_graph, pendingSnapshot_graph]
    rfl
  have hlines := Fragment.lines_eq_of_toNquads_eq hplain.printed hplain'.printed hgraph htext
  have hnodup : ((normalized a).objects.map keyOf).Nodup := by
    rwa [normalized, map_keyOf_normalize]
  have hnodup' : ((normalized b).objects.map keyOf).Nodup := by
    rw [normalized, map_keyOf_normalize]
    exact h.keys.nodup_iff.mp hdistinct
  intro v hv w hw hkey hkind field hfield
  have hkindw : kind w = "PodDisruptionBudget" := (congrArg Key.kind hkey).trans hkind
  apply Option.ext
  intro text
  rw [← budgetText_normalize v, ← budgetText_normalize w,
    ← mem_pending_bound (opts.at observedAt) hnodup' (List.mem_map_of_mem hw) (by rwa [kind_normalize]) hfield,
    ← mem_pending_bound opts hnodup (List.mem_map_of_mem hv) (by rwa [kind_normalize]) hfield, hlines,
    keyOf_normalize, keyOf_normalize, hkey]
  rfl

end Cluster

/-- An unchanged cluster gives the same snapshot exactly when its budgets print the same bounds. -/
theorem unchanged_iff {x : Extern} (hx : Function.Injective x.sha256Hex) {a b : SnapshotInput} (h : SameCluster a b)
    (hdistinct : (a.objects.map keyOf).Nodup)
    (hkinds : ∀ o ∈ a.objects, Indexable o → kind o ≠ "ReplicaSet" → IriSyntax.valid (kind o) = true)
    (now now' : String) (opts : SnapshotOptions) (observedAt : Option String) :
    SameSnapshot (buildSnapshot x now (normalized a) opts)
      (buildSnapshot x now' (normalized b) (opts.at observedAt)) ↔ SameBounds a b :=
  ⟨fun hsame => bounds_of_sameSnapshot h hx hdistinct hkinds hsame,
    fun hbounds => buildSnapshot_unchanged h hdistinct hbounds x now now' opts observedAt⟩

/-- A budget whose bound is an object. -/
def oddBudget (bound : List (String × Json)) : Json :=
  .obj [("kind", .str "PodDisruptionBudget"), ("metadata", .obj [("name", .str "web")]),
    ("spec", .obj [("minAvailable", .obj bound)])]

def oddCluster (bound : List (String × Json)) : SnapshotInput := { objects := [oddBudget bound] }

def oddOptions : SnapshotOptions := { clusterId := "home", state := .desired }

theorem normalize_oddBudget (bound : List (String × Json)) : normalize (oddBudget bound) = oddBudget bound := rfl

theorem unchanged_oddBudget {bound bound' : List (String × Json)}
    (h : (Json.obj bound').sort = (Json.obj bound).sort) : Unchanged (oddBudget bound) (oddBudget bound') := by
  rw [Unchanged, normalize_oddBudget, normalize_oddBudget]
  simp only [oddBudget, Json.sort, Json.sortMembers] at h ⊢
  rw [h]

theorem sort_oddBound : (Json.obj [("b", .bool true), ("a", .null)]).sort =
    (Json.obj [("a", .null), ("b", .bool true)]).sort := by
  simp [Json.sort, Json.sortMembers, List.mergeSort, List.MergeSort.Internal.splitInTwo]

theorem oddCluster_same : SameCluster (oddCluster [("a", .null), ("b", .bool true)])
    (oddCluster [("b", .bool true), ("a", .null)]) :=
  ⟨⟨_, .refl _, .cons (unchanged_oddBudget sort_oddBound) .nil⟩, ⟨_, .refl _, .nil⟩, fun _ => Iff.rfl⟩

theorem oddCluster_kinds (bound : List (String × Json)) : ∀ o ∈ (oddCluster bound).objects, Indexable o →
    kind o ≠ "ReplicaSet" → IriSyntax.valid (kind o) = true := by
  intro o ho _ _
  rw [List.mem_singleton.mp ho]
  have hvalid : IriSyntax.valid "PodDisruptionBudget" = true := by decide +kernel
  exact hvalid

theorem oddCluster_distinct (bound : List (String × Json)) : ((oddCluster bound).objects.map keyOf).Nodup :=
  List.nodup_singleton _

theorem oddCluster_bounds : ¬ SameBounds (oddCluster [("a", .null), ("b", .bool true)])
    (oddCluster [("b", .bool true), ("a", .null)]) := by
  intro h
  have htext := h _ (List.mem_singleton.mpr rfl) _ (List.mem_singleton.mpr rfl) rfl rfl "minAvailable" (by decide)
  revert htext
  decide

theorem unchanged_iff_odd :
    SameSnapshot (buildSnapshot wideExtern "t" (normalized (oddCluster [("a", .null), ("b", .bool true)])) oddOptions)
      (buildSnapshot wideExtern "t'" (normalized (oddCluster [("b", .bool true), ("a", .null)]))
        (oddOptions.at none)) ↔
      SameBounds (oddCluster [("a", .null), ("b", .bool true)]) (oddCluster [("b", .bool true), ("a", .null)]) :=
  unchanged_iff wideExtern_injective oddCluster_same (oddCluster_distinct _) (oddCluster_kinds _) "t"
    "t'" oddOptions none

/-- The members of a bound in another order give another snapshot. -/
theorem reordered_bound_changes : SameCluster (oddCluster [("a", .null), ("b", .bool true)])
      (oddCluster [("b", .bool true), ("a", .null)]) ∧
    ((oddCluster [("a", .null), ("b", .bool true)]).objects.map keyOf).Nodup ∧
    ¬ SameSnapshot (buildSnapshot wideExtern "t"
      (normalized (oddCluster [("a", .null), ("b", .bool true)])) oddOptions)
      (buildSnapshot wideExtern "t" (normalized (oddCluster [("b", .bool true), ("a", .null)]))
        (oddOptions.at none)) :=
  ⟨oddCluster_same, oddCluster_distinct _, fun hsame => oddCluster_bounds
    (bounds_of_sameSnapshot oddCluster_same wideExtern_injective (oddCluster_distinct _) (oddCluster_kinds _) hsame)⟩

end Nix2Rdf.K8s
