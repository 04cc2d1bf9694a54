import Nix2Rdf.K8s.Alike

/-!
# The order of members

Objects are read through paths, so that it does not matter in which order their members stand. The one
exception is a disruption budget, whose bounds are printed as they are.
-/

namespace Nix2Rdf.K8s

open Triple

/-! ## Paths -/

@[simp] theorem s_sort (v : Json) (path : List String) : s v.sort path = s v path := by
  rw [s, s, Json.path?_sort]
  cases v.path? path with
  | none => rfl
  | some x => exact x.asStr?_sort

@[simp] theorem i_sort (v : Json) (path : List String) : i v.sort path = i v path := by
  rw [i, i, Json.path?_sort]
  cases v.path? path with
  | none => rfl
  | some x => exact x.asI64?_sort

theorem arr_sort (v : Json) (path : List String) : arr v.sort path = (arr v path).map Json.sort := by
  rw [arr, arr, Json.path?_sort]
  cases v.path? path with
  | none => rfl
  | some x =>
      rw [Option.map_some, Option.bind_some, Option.bind_some, Json.asArr?_sort]
      cases x.asArr? <;> rfl

/-- The strings of an array. -/
theorem strs_sort (v : Json) (path : List String) :
    (arr v.sort path).filterMap Json.asStr? = (arr v path).filterMap Json.asStr? := by
  rw [arr_sort, List.filterMap_map]
  exact List.filterMap_congr fun x _ => x.asStr?_sort

/-- A label map holds the string members of the object. -/
theorem map_getElem? (v : Json) (path : List String) (k : String) :
    (map v path)[k]? = ((v.path? path).bind (·.get? k)).bind Json.asStr? := by
  rw [map]
  cases v.path? path with
  | none => exact Std.ExtTreeMap.getElem?_empty
  | some o =>
      have hkeys : (o.entries.filterMap fun kv => kv.2.asStr?.map fun t => (kv.1, t)) =
          o.keys.filterMap fun k => ((o.index k).asStr?).map fun t => (k, t) := by
        rw [Json.entries, List.filterMap_map]
        rfl
      rw [Option.bind_some]
      show (Std.ExtTreeMap.ofList (o.entries.filterMap fun kv => kv.2.asStr?.map fun t => (kv.1, t))
        compare : Labels)[k]? = _
      rw [hkeys, BTreeMap.getElem?_ofList_filterMap]
      by_cases hk : k ∈ o.keys
      · obtain ⟨x, hx⟩ := Json.mem_keys_iff.mp hk
        rw [if_pos hk, Json.index, hx]
        rfl
      · rw [if_neg hk]
        cases hx : o.get? k with
        | none => rfl
        | some x => exact absurd (Json.mem_keys_iff.mpr ⟨x, hx⟩) hk

@[simp] theorem map_sort (v : Json) (path : List String) : map v.sort path = map v path := by
  apply Std.ExtTreeMap.ext_getElem?
  intro k
  rw [map_getElem?, map_getElem?, Json.path?_sort]
  cases v.path? path with
  | none => rfl
  | some o =>
      rw [Option.map_some, Option.bind_some, Option.bind_some, Json.get?_sort]
      cases o.get? k with
      | none => rfl
      | some x => exact x.asStr?_sort

@[simp] theorem kind_sort (v : Json) : kind v.sort = kind v := by rw [kind, s_sort, ← kind]

@[simp] theorem name_sort (v : Json) : name v.sort = name v := by rw [name, s_sort, ← name]

@[simp] theorem namespaceOf_sort (v : Json) : namespaceOf v.sort = namespaceOf v := s_sort v _

@[simp] theorem labels_sort (v : Json) : labels v.sort = labels v := map_sort v _

@[simp] theorem annotations_sort (v : Json) : annotations v.sort = annotations v := map_sort v _

@[simp] theorem podLabels_sort (v : Json) : podLabels v.sort = podLabels v := by
  rw [podLabels, podLabels, kind_sort, map_sort, map_sort]

@[simp] theorem keyOf_sort (v : Json) : keyOf v.sort = keyOf v := by
  rw [keyOf, keyOf, kind_sort, namespaceOf_sort, name_sort]

theorem podSpec_sort (v : Json) : podSpec v.sort = (podSpec v).map Json.sort := by
  rw [podSpec, podSpec, kind_sort, Json.path?_sort, Json.path?_sort]
  split <;> rfl

@[simp] theorem expressionMatches_sort (ls : Labels) (e : Json) :
    expressionMatches ls e.sort = expressionMatches ls e := by
  simp only [expressionMatches, strs_sort, s_sort]

@[simp] theorem selectorMatches_sort (sel : Option Json) (ls : Labels) (e : Bool) :
    selectorMatches (sel.map Json.sort) ls e = selectorMatches sel ls e := by
  cases sel with
  | none => rfl
  | some sel =>
      simp only [selectorMatches, Option.map_some, map_sort, arr_sort, List.isEmpty_map, List.all_map]
      congr 3
      funext x
      exact expressionMatches_sort ls x

theorem selectorMatches_path (v : Json) (path : List String) (ls : Labels) (e : Bool) :
    selectorMatches (v.sort.path? path) ls e = selectorMatches (v.path? path) ls e := by
  rw [Json.path?_sort, selectorMatches_sort]

@[simp] theorem flatMap_arr_sort {α : Type} (v : Json) (path : List String) {f : Json → List α}
    (h : ∀ x, f x.sort = f x) : (arr v.sort path).flatMap f = (arr v path).flatMap f := by
  rw [arr_sort, List.flatMap_map]
  exact List.flatMap_congr fun x _ => h x

theorem firstOwner_sort (v : Json) : firstOwner v.sort = (firstOwner v).map Json.sort := by
  rw [firstOwner, firstOwner, arr_sort, List.head?_map]

theorem ownerRef_sort (r : Json) : ownerRef r.sort = ownerRef r := by
  rw [ownerRef, ownerRef, s_sort, s_sort]

/-! ## Objects -/

variable (ctx : Ctx)

theorem mountTriples_sort (wi : Iri) (ns : String) (v : Json) (refs : List (String × List String)) :
    mountTriples ctx wi ns v.sort refs = mountTriples ctx wi ns v refs := by
  simp only [mountTriples, s_sort]

theorem containerTriples_sort (w : Json) (wi : Iri) (pulled : BTreeMap (List String)) (init : Bool) (c : Json) :
    containerTriples ctx w.sort wi pulled init c.sort = containerTriples ctx w wi pulled init c := by
  simp only [containerTriples, s_sort, kind_sort, name_sort, namespaceOf_sort, mountTriples_sort, flatMap_arr_sort,
    implies_true]

theorem volumeTriples_sort (wi : Iri) (ns : String) (v : Json) :
    volumeTriples ctx wi ns v.sort = volumeTriples ctx wi ns v := by
  simp only [volumeTriples, mountTriples_sort, flatMap_arr_sort, implies_true]

theorem containerSpecs_sort (w : Json) (wi : Iri) (pulled : BTreeMap (List String)) :
    containerSpecs ctx w.sort wi pulled = containerSpecs ctx w wi pulled := by
  have hclaims : ((arr w.sort ["spec", "volumeClaimTemplates"]).filterMap fun t =>
      (s t ["spec", "storageClassName"]).map fun sc =>
        addIri wi (k8s "usesStorageClass") (ctx.objIri "StorageClass" none sc)) =
      (arr w ["spec", "volumeClaimTemplates"]).filterMap fun t => (s t ["spec", "storageClassName"]).map fun sc =>
        addIri wi (k8s "usesStorageClass") (ctx.objIri "StorageClass" none sc) := by
    rw [arr_sort, List.filterMap_map]
    exact List.filterMap_congr fun t _ => by simp only [Function.comp_apply, s_sort]
  have hcontainers : ∀ ps : Json, ∀ path init,
      (arr ps.sort path).flatMap (containerTriples ctx w.sort wi pulled init) =
        (arr ps path).flatMap (containerTriples ctx w wi pulled init) := by
    intro ps path init
    rw [arr_sort, List.flatMap_map]
    exact List.flatMap_congr fun c _ => containerTriples_sort ctx w wi pulled init c
  rw [containerSpecs, containerSpecs, podSpec_sort]
  cases podSpec w with
  | none => rfl
  | some ps =>
      simp only [Option.map_some, namespaceOf_sort, s_sort, hcontainers, hclaims, flatMap_arr_sort,
        volumeTriples_sort, implies_true]

theorem replicasOf_sort (kind : String) (o : Json) : replicasOf kind o.sort = replicasOf kind o := by
  simp only [replicasOf, i_sort]

theorem readyOf_sort (kind : String) (o : Json) : readyOf kind o.sort = readyOf kind o := by
  simp only [readyOf, i_sort]

theorem workloadTriples_sort (counts : KeyMap (BTreeMap Int)) (digests : KeyMap (BTreeMap (List String)))
    (key : Key) (nsopt : Option String) (oi : Iri) (o : Json) :
    workloadTriples ctx counts digests key nsopt oi o.sort = workloadTriples ctx counts digests key nsopt oi o := by
  simp only [workloadTriples, labels_sort, annotations_sort, podLabels_sort, replicasOf_sort, readyOf_sort,
    containerSpecs_sort]

theorem ingressTriples_sort (nsopt : Option String) (oi : Iri) (o : Json) :
    ingressTriples ctx nsopt oi o.sort = ingressTriples ctx nsopt oi o := by
  have hpaths : ∀ r : Json, ((arr r.sort ["http", "paths"]).filterMap fun p => s p ["backend", "service", "name"]) =
      (arr r ["http", "paths"]).filterMap fun p => s p ["backend", "service", "name"] := by
    intro r
    rw [arr_sort, List.filterMap_map]
    exact List.filterMap_congr fun p _ => s_sort p _
  simp only [ingressTriples, s_sort, flatMap_arr_sort, hpaths, implies_true]

theorem volumeObjectTriples_sort (oi : Iri) (o : Json) :
    volumeObjectTriples ctx oi o.sort = volumeObjectTriples ctx oi o := by
  have hterm : ∀ term : Json,
      (((arr term.sort ["matchExpressions"]).filter fun e =>
        s e ["key"] = some "kubernetes.io/hostname" ∧ s e ["operator"] = some "In").flatMap fun e =>
        ((arr e ["values"]).filterMap Json.asStr?).map fun nn =>
          addIri oi (k8s "pinnedToNode") (Iri.k8sNode ctx.cid nn)) =
      (((arr term ["matchExpressions"]).filter fun e =>
        s e ["key"] = some "kubernetes.io/hostname" ∧ s e ["operator"] = some "In").flatMap fun e =>
        ((arr e ["values"]).filterMap Json.asStr?).map fun nn =>
          addIri oi (k8s "pinnedToNode") (Iri.k8sNode ctx.cid nn)) := by
    intro term
    rw [arr_sort, List.filter_map, List.flatMap_map]
    simp only [Function.comp_def, s_sort, strs_sort]
  simp only [volumeObjectTriples, storageClassTriples, s_sort, flatMap_arr_sort, hterm, implies_true]

theorem peerTriples_sort (ns : String) (oi prop : Iri) (peer : Json) :
    peerTriples ctx ns oi prop peer.sort = peerTriples ctx ns oi prop peer := by
  have hns : peerNamespaces ctx ns peer.sort = peerNamespaces ctx ns peer := by
    rw [peerNamespaces, peerNamespaces, Json.get?_sort]
    cases peer.get? "namespaceSelector" with
    | none => rfl
    | some sel =>
        have hsel : ∀ ls, selectorMatches (some sel.sort) ls true = selectorMatches (some sel) ls true :=
          fun ls => selectorMatches_sort (some sel) ls true
        simp only [Option.map_some, hsel]
  rw [peerTriples, peerTriples, hns, Json.get?_sort]
  cases peer.get? "podSelector" with
  | none => rfl
  | some ps =>
      have hsel : ∀ ls, selectorMatches (some ps.sort) ls true = selectorMatches (some ps) ls true :=
        fun ls => selectorMatches_sort (some ps) ls true
      simp only [Option.map_some, hsel]

theorem ruleTriples_sort (ns : String) (oi prop allProp : Iri) (rule : Json) :
    ruleTriples ctx ns oi prop allProp rule.sort = ruleTriples ctx ns oi prop allProp rule := by
  have hpeers : rulePeers rule.sort = (rulePeers rule).map Json.sort := by
    rw [rulePeers, rulePeers, arr_sort, arr_sort, List.map_append]
  rw [ruleTriples, ruleTriples, hpeers, List.isEmpty_map, List.flatMap_map]
  simp only [peerTriples_sort]

theorem policyTriples_sort (ns : String) (nsopt : Option String) (oi : Iri) (o : Json) :
    policyTriples ctx ns nsopt oi o.sort = policyTriples ctx ns nsopt oi o := by
  have htypes : policyTypes o.sort = policyTypes o := by
    simp only [policyTypes, strs_sort]
  simp only [policyTriples, htypes, selectorMatches_path, flatMap_arr_sort, ruleTriples_sort, implies_true]

theorem roleTriples_sort (key : Key) (oi : Iri) (o : Json) :
    roleTriples ctx key oi o.sort = roleTriples ctx key oi o := by
  have hgroups : ∀ rule : Json, ruleGroups rule.sort = ruleGroups rule := by
    intro rule
    simp only [ruleGroups, strs_sort]
  have hperm : ∀ g (r v : Json), permissionTriples ctx oi g r.sort v.sort = permissionTriples ctx oi g r v := by
    intro g r v
    simp only [permissionTriples, Json.asStr?_sort]
  have hrule : ∀ rule : Json,
      ((ruleGroups rule.sort).flatMap fun g => (arr rule.sort ["resources"]).flatMap fun r =>
        (arr rule.sort ["verbs"]).flatMap fun v => permissionTriples ctx oi g r v) =
      (ruleGroups rule).flatMap fun g => (arr rule ["resources"]).flatMap fun r =>
        (arr rule ["verbs"]).flatMap fun v => permissionTriples ctx oi g r v := by
    intro rule
    simp only [hgroups, arr_sort, List.flatMap_map, hperm]
  have hsel : ∀ sel : Json, ((ctx.ofKind "ClusterRole").filter fun other =>
        name other ≠ key.name ∧ selectorMatches (some sel.sort) (labels other) false) =
      (ctx.ofKind "ClusterRole").filter fun other =>
        name other ≠ key.name ∧ selectorMatches (some sel) (labels other) false := by
    intro sel
    have hmatch : ∀ ls, selectorMatches (some sel.sort) ls false = selectorMatches (some sel) ls false :=
      fun ls => selectorMatches_sort (some sel) ls false
    simp only [hmatch]
  simp only [roleTriples, flatMap_arr_sort, hrule, hsel, implies_true]

theorem bindingTriples_sort (key : Key) (nsopt : Option String) (oi : Iri) (o : Json) :
    bindingTriples ctx key nsopt oi o.sort = bindingTriples ctx key nsopt oi o := by
  have hsub : ∀ sub : Json, subjectTriples ctx nsopt oi sub.sort = subjectTriples ctx nsopt oi sub := by
    intro sub
    simp only [subjectTriples, s_sort]
  simp only [bindingTriples, s_sort, flatMap_arr_sort, hsub, implies_true]

/-- What is said of an object does not depend on the order of its members, but for disruption budgets. -/
theorem kindTriples_sort (counts : KeyMap (BTreeMap Int)) (digests : KeyMap (BTreeMap (List String)))
    (key : Key) (hkey : key.kind ≠ "PodDisruptionBudget") (nsopt : Option String) (oi : Iri) (o : Json) :
    kindTriples ctx counts digests key nsopt oi o.sort = kindTriples ctx counts digests key nsopt oi o := by
  unfold kindTriples
  split
  case h_14 hpdb => exact absurd hpdb hkey
  all_goals simp only [namespaceTriples, serviceTriples, claimTriples, storageClassTriples, labels_sort,
    annotations_sort, s_sort, map_sort, workloadTriples_sort, ingressTriples_sort, volumeObjectTriples_sort,
    policyTriples_sort, roleTriples_sort, bindingTriples_sort]

end Nix2Rdf.K8s
