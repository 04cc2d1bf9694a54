import Nix2Rdf.K8s.References
import Nix2Rdf.K8s.Renaming
import Nix2Rdf.K8s.Policies

/-!
# What a snapshot gives a class

A reference is resolved where its target has some class in the snapshot. The target of a reference has one exactly
when it is an object of the snapshot.
-/

namespace Nix2Rdf.K8s

open Text (slash)
open Triple

/-! ## Classes -/

/-- Whatever the triples give a class is among some IRIs. -/
def TypesIn (S : Iri → Prop) (l : List Triple) : Prop := ∀ t ∈ l, t.p = rdfType → ∃ i, t.s = .iri i ∧ S i

section TypesIn

variable {S : Iri → Prop} {l l' : List Triple} {i p o v : String}

theorem typesIn_of_avoids (h : Avoids [rdfType] l) : TypesIn S l := fun t ht hp => absurd (by simp [hp]) (h t ht)

@[simp] theorem typesIn_nil : TypesIn S [] := by simp [TypesIn]

@[simp] theorem typesIn_append : TypesIn S (l ++ l') ↔ TypesIn S l ∧ TypesIn S l' := List.forall_mem_append

@[simp] theorem typesIn_type {cls : Iri} : TypesIn S (addType i cls :: l) ↔ S i ∧ TypesIn S l := by
  simp [TypesIn, addType, addIri, add]

@[simp] theorem typesIn_iri {w : String} : TypesIn S (addIri i (k8s w) o :: l) ↔ TypesIn S l := by
  simp [TypesIn]

@[simp] theorem typesIn_str {w : String} : TypesIn S (addStr i (k8s w) v :: l) ↔ TypesIn S l := by
  simp [TypesIn]

theorem typesIn_flatMap {α : Type} {as : List α} {f : α → List Triple} :
    TypesIn S (as.flatMap f) ↔ ∀ a ∈ as, TypesIn S (f a) := by
  simp only [TypesIn, List.mem_flatMap]
  constructor
  · intro h a ha t ht
    exact h t ⟨a, ha, ht⟩
  · intro h t ht
    obtain ⟨a, ha, ht⟩ := ht
    exact h a ha t ht

end TypesIn

/-! ## Targets -/

theorem plain_targetKinds : ∀ kind ∈ targetKinds, PlainKind kind := by decide

/-- No reference to an object has this IRI. -/
def Aside (ctx : Ctx) (i : Iri) : Prop := ∀ r : Ref, r.kind ∈ targetKinds → i ≠ ctx.refIri r

section Aside

variable {ctx : Ctx}

theorem aside_of_segs {xs : List String} (hne : xs ≠ []) (hxs : ∀ seg ∈ xs, '/' ∉ seg.toList)
    (h : xs.length < 4 ∨ ∃ w, xs[2]? = some w ∧ w ∉ targetKinds) : Aside ctx (id (slash xs)) := by
  intro r hr
  rw [Ctx.refIri, objIri_plain (plain_targetKinds _ hr)]
  refine id_slash_ne hne (by simp) hxs ?_ ?_
  · simp only [List.cons_append, List.nil_append, List.forall_mem_cons, List.forall_mem_append, List.forall_mem_map,
      List.not_mem_nil, false_implies, implies_true, and_true]
    exact ⟨by decide, slash_not_mem_encodeSegment _, (plain_targetKinds _ hr).1,
      fun _ _ => slash_not_mem_encodeSegment _,
      slash_not_mem_encodeSegment _⟩
  · rintro rfl
    rcases h with h | h
    · simp at h
      omega
    · obtain ⟨w, hw, hother⟩ := h
      cases hw
      exact hother hr

theorem aside_cluster : Aside ctx (Iri.k8sCluster ctx.cid) := by
  refine aside_of_segs (by simp) ?_ (.inl (by simp))
  simp only [List.forall_mem_cons, List.not_mem_nil, false_implies, implies_true, and_true]
  exact ⟨by decide, by decide, slash_not_mem_encodeSegment _⟩

theorem aside_pendingGraph : Aside ctx (pendingGraph ctx.cid "snapshot") := by
  exact aside_of_segs (by simp) (pendingGraph_segs (by simp) _) (.inr ⟨_, rfl, by decide⟩)

theorem aside_container {kind : String} (hkind : kind ∈ workloadKinds) (ns name cname : String) :
    Aside ctx (Iri.k8sContainer ctx.cid kind ns name cname) := by
  have hother : ∀ k ∈ workloadKinds, k ∉ targetKinds := by decide
  refine aside_of_segs (by simp) ?_ (.inr ⟨_, rfl, hother _ hkind⟩)
  simp only [List.forall_mem_cons, List.not_mem_nil, false_implies, implies_true, and_true]
  exact ⟨by decide, slash_not_mem_encodeSegment _, (plain_workloadKinds _ hkind).1, slash_not_mem_encodeSegment _,
    slash_not_mem_encodeSegment _, by decide, slash_not_mem_encodeSegment _⟩

theorem aside_permission (group resource verb : String) :
    Aside ctx (Iri.k8sPermission ctx.cid group resource verb) := by
  refine aside_of_segs (by simp) ?_ (.inr ⟨_, rfl, by decide⟩)
  simp only [List.forall_mem_cons, List.not_mem_nil, false_implies, implies_true, and_true]
  exact ⟨by decide, slash_not_mem_encodeSegment _, by decide, slash_not_mem_encodeSegment _,
    slash_not_mem_encodeSegment _,
    slash_not_mem_encodeSegment _⟩

theorem aside_owner (value : String) : Aside ctx (Iri.owner value) := by
  refine aside_of_segs (by simp) ?_ (.inl (by simp))
  simp only [List.forall_mem_cons, List.not_mem_nil, false_implies, implies_true, and_true]
  exact ⟨by decide, by decide, slash_not_mem_encodeSegment _⟩

theorem aside_namespace {k : Key} (hk : k.kind = "Namespace") : Aside ctx (ctx.iriOf k) := by
  have hiri : ctx.iriOf k = id (slash ["k8s", encodeSegment ctx.cid, "ns", encodeSegment k.name]) := by
    rw [Ctx.iriOf, hk]
    rfl
  rw [hiri]
  refine aside_of_segs (by simp) ?_ (.inr ⟨_, rfl, by decide⟩)
  simp only [List.forall_mem_cons, List.not_mem_nil, false_implies, implies_true, and_true]
  exact ⟨by decide, slash_not_mem_encodeSegment _, by decide, slash_not_mem_encodeSegment _⟩

theorem aside_objIri {kind : String} (hkind : PlainKind kind) (hother : kind ∉ targetKinds) (ns : Option String)
    (name : String) : Aside ctx (ctx.objIri kind ns name) := by
  intro r hr
  rw [Ctx.refIri, Ne, objIri_inj hkind (plain_targetKinds _ hr)]
  rintro ⟨rfl, _⟩
  exact hother hr

end Aside

/-! ## The classes of a snapshot -/

section Classes

variable {ctx : Ctx} {counts : KeyMap (BTreeMap Int)} {digests : KeyMap (BTreeMap (List String))} {key : Key}
  {nsopt : Option String} {oi : Iri} {o : Json}

/-- The object itself, or what no reference refers to. -/
def Own (ctx : Ctx) (oi i : Iri) : Prop := i = oi ∨ Aside ctx i

theorem typesIn_owner (ow : Option String) : TypesIn (Own ctx oi) (ownerTriples oi ow) := by
  cases ow with
  | none => exact typesIn_of_avoids (by simp [ownerTriples])
  | some ow => simp [ownerTriples, Own, aside_owner]

theorem typesIn_container (hw : kind o ∈ workloadKinds) (pulled : BTreeMap (List String)) (init : Bool) (c : Json) :
    TypesIn (Own ctx oi) (containerTriples ctx o oi pulled init c) := by
  have hcontainer : ∀ ns name cname, Own ctx oi (Iri.k8sContainer ctx.cid (kind o) ns name cname) :=
    fun ns name cname => .inr (aside_container hw ns name cname)
  have hmounts : ∀ ns v refs, TypesIn (Own ctx oi) (mountTriples ctx oi ns v refs) := fun ns v refs =>
    typesIn_of_avoids (avoids_mounts (by simp) ns v refs)
  have hlimits : ∀ (ci : Iri), Avoids [rdfType]
    ([("requestsCpu", ["requests", "cpu"]), ("requestsMemory", ["requests", "memory"]),
      ("limitsCpu", ["limits", "cpu"]), ("limitsMemory", ["limits", "memory"])].filterMap fun r =>
      (s c ("resources" :: r.2)).map fun v => addStr ci (k8s r.1) v) := by
    intro ci
    refine avoids_filterMap fun r _ t ht => ?_
    obtain ⟨_, _, rfl⟩ := Option.map_eq_some_iff.mp ht
    simp
  have hinit : ∀ ci : Iri, Avoids [rdfType] (if init then [addBool ci (k8s "initContainer") true] else []) := by
    intro ci
    split <;> simp
  have himage : ∀ (ci : Iri) (image : String) (ds : List String),
      Avoids [rdfType] (if ds.isEmpty then [addStr ci (k8s "unresolvedImage") image] else []) := by
    intro ci image ds
    split <;> simp
  simp only [containerTriples, typesIn_append, typesIn_type, typesIn_str, typesIn_iri, typesIn_nil,
    typesIn_flatMap, hcontainer, hmounts, typesIn_of_avoids (hlimits _), typesIn_of_avoids (hinit _),
    typesIn_of_avoids (himage _ _ _), implies_true, and_true, true_and]
  exact ⟨typesIn_of_avoids (by simp), typesIn_of_avoids (by simp)⟩

theorem typesIn_containers (hw : kind o ∈ workloadKinds) (pulled : BTreeMap (List String)) :
    TypesIn (Own ctx oi) (containerSpecs ctx o oi pulled) := by
  have hvolumes : ∀ ns v, TypesIn (Own ctx oi) (volumeTriples ctx oi ns v) := fun ns v =>
    typesIn_of_avoids (avoids_volume (by simp) ns v)
  have hclaims : Avoids [rdfType] ((arr o ["spec", "volumeClaimTemplates"]).filterMap fun t =>
      (s t ["spec", "storageClassName"]).map fun sc =>
        addIri oi (k8s "usesStorageClass") (ctx.objIri "StorageClass" none sc)) := by
    refine avoids_filterMap fun c _ t ht => ?_
    obtain ⟨_, _, rfl⟩ := Option.map_eq_some_iff.mp ht
    simp
  rw [containerSpecs]
  cases podSpec o with
  | none => exact typesIn_nil
  | some ps =>
      simp only [typesIn_append, typesIn_flatMap, typesIn_container hw, hvolumes,
        typesIn_of_avoids hclaims, typesIn_iri, typesIn_nil, implies_true, and_true]

/-- A class for the object and nothing else. -/
theorem typesIn_single {cls : Iri} {l : List Triple} (h : Avoids [rdfType] l) :
    TypesIn (Own ctx oi) ([addType oi cls] ++ l) := by
  simp only [typesIn_append, typesIn_type, typesIn_nil, and_true]
  exact ⟨.inl rfl, typesIn_of_avoids h⟩

theorem typesIn_workload (hw : kind o ∈ workloadKinds) :
    TypesIn (Own ctx oi) (workloadTriples ctx counts digests key nsopt oi o) := by
  have hexempt : Avoids [rdfType] (if (annotations o)[ctx.cfg.exemptSingleDomainAnnotation]? = some "true" then
      [addBool oi (k8s "exemptSingleDomain") true] else []) := by
    split <;> simp
  have hself : Own ctx oi oi := .inl rfl
  simp only [workloadTriples, typesIn_append, typesIn_type, typesIn_nil, hself, true_and, typesIn_containers hw,
    typesIn_owner, typesIn_of_avoids hexempt, and_true]
  refine ⟨⟨⟨⟨⟨?_, ?_⟩, ?_⟩, ?_⟩, ?_⟩, ?_⟩
  all_goals exact typesIn_of_avoids (by simp [addLabels])

theorem typesIn_policy (ns : String) : TypesIn (Own ctx oi) (policyTriples ctx ns nsopt oi o) := by
  intro t ht hp
  rcases mem_policyTriples.mp ht with rfl | ⟨_, _, rfl⟩ | ⟨_, _, _, rfl⟩ | ⟨d, _, rule, _, ht⟩
  · exact ⟨oi, rfl, .inl rfl⟩
  · simp at hp
  · simp at hp
  · have hne : d.allowsAll ≠ rdfType := by cases d <;> simp [Direction.allowsAll]
    rcases ruleTriples_p ht with h | h
    · exact absurd (h.symm.trans hp) d.allows_ne_rdfType
    · exact absurd (h.symm.trans hp) hne

theorem typesIn_role : TypesIn (Own ctx oi) (roleTriples ctx key oi o) := by
  have hpermission : ∀ g r v, Own ctx oi (Iri.k8sPermission ctx.cid g r v) :=
    fun g r v => .inr (aside_permission g r v)
  have haggregates : Avoids [rdfType] (if key.kind = "ClusterRole" then
      (arr o ["aggregationRule", "clusterRoleSelectors"]).flatMap fun sel =>
        ((ctx.ofKind "ClusterRole").filter fun other =>
          name other ≠ key.name ∧ selectorMatches (some sel) (labels other) false).map fun other =>
          addIri oi (k8s "aggregates") (ctx.objIri "ClusterRole" none (name other)) else []) := by
    split <;> simp
  have hself : Own ctx oi oi := .inl rfl
  simp only [roleTriples, permissionTriples, typesIn_append, typesIn_flatMap, typesIn_type, typesIn_str,
    typesIn_iri, typesIn_nil, hpermission, hself, typesIn_of_avoids haggregates, implies_true, and_true]

theorem typesIn_subject (sub : Json) : TypesIn (Own ctx oi) (subjectTriples ctx nsopt oi sub) := by
  have haside : ∀ k ∈ ["user", "group"], ∀ nm, Own ctx oi (ctx.objIri k none nm) := by
    have hplain : ∀ k ∈ ["user", "group"], PlainKind k ∧ k ∉ targetKinds := by decide
    exact fun k hk nm => .inr (aside_objIri (hplain k hk).1 (hplain k hk).2 none nm)
  unfold subjectTriples
  split
  · simp only [typesIn_iri, typesIn_nil]
  · simp only [typesIn_type, typesIn_str, typesIn_iri, typesIn_nil, haside "user" (by simp), and_true]
  · simp only [typesIn_type, typesIn_str, typesIn_iri, typesIn_nil, haside "group" (by simp), and_true]

theorem typesIn_binding : TypesIn (Own ctx oi) (bindingTriples ctx key nsopt oi o) := by
  have hself : Own ctx oi oi := .inl rfl
  simp only [bindingTriples, typesIn_append, typesIn_flatMap, typesIn_type, typesIn_iri, typesIn_nil,
    hself, typesIn_subject, implies_true, and_true]

/-- On account of its kind an object is given a class itself, and nothing that another object may refer to. -/
theorem typesIn_kind (hkind : kind o = key.kind) :
    TypesIn (Own ctx oi) (kindTriples ctx counts digests key nsopt oi o) := by
  have hsingle : ∀ cls, TypesIn (Own ctx oi) [addType oi cls] := fun cls => typesIn_single (l := []) avoids_nil
  have hworkload : key.kind ∈ workloadKinds →
      TypesIn (Own ctx oi) (workloadTriples ctx counts digests key nsopt oi o) :=
    fun h => typesIn_workload (hkind ▸ h)
  have hclass : Avoids [rdfType] (storageClassTriples ctx oi o) := avoids_storageClass (by simp)
  have hbounds : Avoids [rdfType] (["minAvailable", "maxUnavailable"].filterMap fun field =>
      (o.path? ["spec", field]).map fun v =>
      addStr oi (k8s field) (Text.trim (· = '"') v.print)) := by
    refine avoids_filterMap fun field _ t ht => ?_
    obtain ⟨_, _, rfl⟩ := Option.map_eq_some_iff.mp ht
    simp
  unfold kindTriples
  split
  all_goals rename_i hk
  · exact typesIn_nil
  · rw [namespaceTriples]
    exact typesIn_append.mpr ⟨typesIn_single (by simp [addLabels]), typesIn_owner _⟩
  · exact hworkload (hk ▸ by decide)
  · exact hworkload (hk ▸ by decide)
  · exact hworkload (hk ▸ by decide)
  · exact hworkload (hk ▸ by decide)
  · exact hworkload (hk ▸ by decide)
  · exact typesIn_single (by simp)
  · exact typesIn_single (by simp)
  · exact hsingle _
  · exact hsingle _
  · exact hsingle _
  · exact hsingle _
  · exact typesIn_single hbounds
  · rw [claimTriples, List.append_assoc]
    exact typesIn_single (avoids_append.mpr ⟨hclass, by simp⟩)
  · rw [volumeObjectTriples, List.append_assoc]
    exact typesIn_single (avoids_append.mpr ⟨hclass, by simp⟩)
  · exact typesIn_policy _
  · exact typesIn_role
  · exact typesIn_role
  · exact typesIn_binding
  · exact typesIn_binding
  · exact typesIn_nil

/-- Objects of the kinds that are referred to are given their class. -/
theorem type_of_target (h : key.kind ∈ targetKinds) :
    addType oi (k8s key.kind) ∈ kindTriples ctx counts digests key nsopt oi o := by
  simp only [targetKinds, List.mem_cons, List.not_mem_nil, or_false] at h
  rcases h with h | h | h | h | h | h | h | h | h
  all_goals simp [kindTriples, h, claimTriples, volumeObjectTriples, roleTriples, serviceTriples]

/-- Only kinds that are named by path are said more of, and namespaces. -/
theorem kind_of_mem_kindTriples {t : Triple} (ht : t ∈ kindTriples ctx counts digests key nsopt oi o) :
    key.kind = "Namespace" ∨ PlainKind key.kind := by
  unfold kindTriples at ht
  split at ht
  all_goals rename_i hk
  case h_1 => cases ht
  case h_2 => exact .inl hk
  case h_22 => cases ht
  all_goals exact .inr (hk ▸ by decide)

variable {input : SnapshotInput} {opts : SnapshotOptions}

theorem typesIn_head (state : StateKind) :
    TypesIn (Aside ctx) (snapshotHead ctx input state (Iri.k8sSnapshot ctx.cid placeholder)) := by
  have hsnap : Aside ctx (Iri.k8sSnapshot ctx.cid placeholder) := aside_pendingGraph
  have hfailed : Avoids [rdfType] (if input.failedKinds.isEmpty then [] else
      addBool (Iri.k8sSnapshot ctx.cid placeholder) (k8s "partial") true
        :: input.failedKinds.map fun fk => addStr (Iri.k8sSnapshot ctx.cid placeholder) (k8s "failedKind") fk) := by
    split <;> simp
  simp only [snapshotHead, typesIn_append, typesIn_type, typesIn_iri, typesIn_str, typesIn_nil, hsnap, aside_cluster,
    typesIn_of_avoids hfailed, and_true, true_and]
  exact typesIn_of_avoids (by simp)

/-- What a reference refers to has a class in the snapshot exactly when it is an object of it. -/
theorem typed_iff {r : Ref} (hr : r.kind ∈ targetKinds) :
    (∃ c, (⟨.iri ((ctxOf input opts).refIri r), rdfType, c⟩ : Triple) ∈
      (pendingSnapshot (ctxOf input opts) input opts.state).lines) ↔ ∃ o ∈ input.objects, (keyOf o).ref = r := by
  constructor
  · rintro ⟨c, ht⟩
    rw [pendingSnapshot, Fragment.mem_ofTriples, List.mem_append, List.mem_flatMap] at ht
    rcases ht with ht | ⟨e, he, ht⟩
    · obtain ⟨i, hi, haside⟩ := typesIn_head _ _ ht rfl
      exact absurd (Term.iri.inj hi).symm (haside r hr)
    · have hkinds := mem_objectTriples (by simp) ht
      have hindex := Std.ExtTreeMap.mem_toList_iff_getElem?_eq_some.mp (List.mem_of_mem_filter he)
      obtain ⟨hmem, hkey, _⟩ := of_mem_index hindex
      have hkind : kind e.2 = e.1.kind := congrArg Key.kind hkey
      obtain ⟨i, hi, hown⟩ := typesIn_kind hkind _ hkinds rfl
      cases hi
      rcases hown with hself | haside
      · refine ⟨e.2, hmem, ?_⟩
        rcases kind_of_mem_kindTriples hkinds with hns | hplain
        · exact absurd hself.symm (aside_namespace hns r hr)
        · rw [Ctx.refIri, Ctx.iriOf, objIri_inj (plain_targetKinds _ hr) hplain] at hself
          rw [hkey]
          obtain ⟨hk, hn, hm⟩ := hself
          rw [Key.ref, ← hk, ← hn, ← hm]
      · exact absurd rfl (haside r hr)
  · rintro ⟨o, ho, rfl⟩
    have hother : ∀ k ∈ targetKinds, k ≠ "" ∧ k ≠ "Pod" ∧ k ≠ "ReplicaSet" := by decide
    obtain ⟨hempty, hpod, hreplica⟩ := hother _ hr
    obtain ⟨o', ho'⟩ := exists_indexOf ho ⟨hempty, hpod⟩
    exact ⟨_, mem_pending ho' hreplica (kindTriples_subset (type_of_target hr))⟩

end Classes

end Nix2Rdf.K8s
