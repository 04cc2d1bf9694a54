import Nix2Rdf.K8s.Index

/-!
# Objects that read alike

What the builder reads of an object. Of a secret it is the key and the API version, of everything else
a handful of fields. Objects that agree on them give the same fragments.
-/

namespace Nix2Rdf.K8s

open Triple

/-- What an owner reference says. -/
def ownerRef (r : Json) : Option String × Option String := (s r ["kind"], s r ["name"])

/-- The fields that are read of an object other than a secret. -/
structure ContentAlike (o o' : Json) : Prop where
  namespaceOf : namespaceOf o' = namespaceOf o
  labels : labels o' = labels o
  annotations : annotations o' = annotations o
  podLabels : podLabels o' = podLabels o
  owner : (firstOwner o').map ownerRef = (firstOwner o).map ownerRef
  selector : ∀ ls e, selectorMatches (o'.path? ["spec", "selector"]) ls e =
    selectorMatches (o.path? ["spec", "selector"]) ls e
  nodeInfo : ∀ field, s o' ["status", "nodeInfo", field] = s o ["status", "nodeInfo", field]
  kindTriples : ∀ ctx counts digests (key : Key) nsopt oi, key.kind = kind o →
    kindTriples ctx counts digests key nsopt oi o' = kindTriples ctx counts digests key nsopt oi o

structure ObjectAlike (o o' : Json) : Prop where
  key : keyOf o' = keyOf o
  apiVersion : s o' ["apiVersion"] = s o ["apiVersion"]
  content : kind o ≠ "Secret" → ContentAlike o o'

theorem ContentAlike.refl (o : Json) : ContentAlike o o :=
  ⟨rfl, rfl, rfl, rfl, rfl, fun _ _ => rfl, fun _ => rfl, fun _ _ _ _ _ _ _ => rfl⟩

theorem ObjectAlike.refl (o : Json) : ObjectAlike o o := ⟨rfl, rfl, fun _ => ContentAlike.refl o⟩

theorem ObjectAlike.kind {o o' : Json} (h : ObjectAlike o o') : kind o' = kind o := congrArg Key.kind h.key

theorem ObjectAlike.name {o o' : Json} (h : ObjectAlike o o') : name o' = name o := congrArg Key.name h.key

theorem ObjectAlike.indexable {o o' : Json} (h : ObjectAlike o o') : Indexable o' ↔ Indexable o := by
  rw [Indexable, Indexable, h.kind]

/-! ## Two contexts -/

/-- Two contexts with the same keys, whose objects read alike. -/
structure CtxAlike (ctx ctx' : Ctx) (pairs : KeyMap (Json × Json)) : Prop where
  cid : ctx'.cid = ctx.cid
  cfg : ctx'.cfg = ctx.cfg
  nsMeta : ctx'.nsMeta = ctx.nsMeta
  left : ctx.index = pairs.map fun _ p => p.1
  right : ctx'.index = pairs.map fun _ p => p.2
  alike : ∀ (k : Key) (p : Json × Json), pairs[k]? = some p → keyOf p.1 = k ∧ ObjectAlike p.1 p.2

/-- The pairs of two lists of objects under their keys. -/
def pairIndex (pairs : List (Json × Json)) : KeyMap (Json × Json) :=
  pairs.foldl (fun m p => if Indexable p.1 then m.insert (keyOf p.1) p else m) ∅

theorem pairIndex_append_singleton (pairs : List (Json × Json)) (p : Json × Json) (k : Key) :
    (pairIndex (pairs ++ [p]))[k]? =
      if Indexable p.1 ∧ keyOf p.1 = k then some p else (pairIndex pairs)[k]? := by
  rw [pairIndex, List.foldl_append, List.foldl_cons, List.foldl_nil]
  by_cases hok : Indexable p.1
  · rw [if_pos hok, Std.ExtTreeMap.getElem?_insert]
    simp only [Std.LawfulEqCmp.compare_eq_iff_eq, hok, true_and]
    rfl
  · rw [if_neg hok, if_neg fun h => hok h.1]
    rfl

theorem of_mem_pairIndex {pairs : List (Json × Json)} {k : Key} {p : Json × Json}
    (h : (pairIndex pairs)[k]? = some p) : p ∈ pairs ∧ keyOf p.1 = k := by
  induction pairs using List.reverseRecOn with
  | nil =>
      rw [pairIndex, List.foldl_nil, Std.ExtTreeMap.getElem?_empty] at h
      cases h
  | append_singleton pairs p' ih =>
      rw [pairIndex_append_singleton] at h
      split at h
      · rename_i hnew
        cases h
        exact ⟨by simp, hnew.2⟩
      · obtain ⟨hmem, hkey⟩ := ih h
        exact ⟨List.mem_append_left _ hmem, hkey⟩

theorem indexOf_left (pairs : List (Json × Json)) :
    (indexOf (pairs.map Prod.fst)).1 = (pairIndex pairs).map fun _ p => p.1 := by
  apply Std.ExtTreeMap.ext_getElem?
  intro k
  rw [Std.ExtTreeMap.getElem?_map]
  induction pairs using List.reverseRecOn with
  | nil => simp [indexOf, pairIndex]
  | append_singleton pairs p ih =>
      rw [List.map_append, List.map_cons, List.map_nil, indexOf_append_singleton, pairIndex_append_singleton, ih]
      split <;> rfl

theorem indexOf_right {pairs : List (Json × Json)} (h : ∀ p ∈ pairs, ObjectAlike p.1 p.2) :
    (indexOf (pairs.map Prod.snd)).1 = (pairIndex pairs).map fun _ p => p.2 := by
  apply Std.ExtTreeMap.ext_getElem?
  intro k
  rw [Std.ExtTreeMap.getElem?_map]
  induction pairs using List.reverseRecOn with
  | nil => simp [indexOf, pairIndex]
  | append_singleton pairs p ih =>
      have hp : ObjectAlike p.1 p.2 := h p (by simp)
      rw [List.map_append, List.map_cons, List.map_nil, indexOf_append_singleton, pairIndex_append_singleton,
        ih fun q hq => h q (List.mem_append_left _ hq)]
      simp only [hp.indexable, hp.key]
      split <;> rfl

theorem nsMeta_alike {pairs : List (Json × Json)} (h : ∀ p ∈ pairs, ObjectAlike p.1 p.2) :
    (indexOf (pairs.map Prod.snd)).2 = (indexOf (pairs.map Prod.fst)).2 := by
  apply Std.ExtTreeMap.ext_getElem?
  intro n
  rw [nsMeta_eq, nsMeta_eq, indexOf_left, indexOf_right h, Std.ExtTreeMap.getElem?_map, Std.ExtTreeMap.getElem?_map]
  cases hp : (pairIndex pairs)[(⟨"Namespace", "", n⟩ : Key)]? with
  | none => rfl
  | some p =>
      obtain ⟨hmem, hkey⟩ := of_mem_pairIndex hp
      have hkind : kind p.1 = "Namespace" := congrArg Key.kind hkey
      have hcontent := (h p hmem).content (by rw [hkind]; decide)
      simp only [Option.map_some, hcontent.labels, hcontent.annotations]

/-- Lists of objects that read alike give such contexts. -/
theorem ctxAlike_of_forall₂ {input input' : SnapshotInput} (h : List.Forall₂ ObjectAlike input.objects input'.objects)
    (opts : SnapshotOptions) : ∃ pairs, CtxAlike (ctxOf input opts) (ctxOf input' opts) pairs := by
  obtain ⟨hlength, hzip⟩ := List.forall₂_iff_zip.mp h
  have hfst : (input.objects.zip input'.objects).map Prod.fst = input.objects := List.map_fst_zip hlength.le
  have hsnd : (input.objects.zip input'.objects).map Prod.snd = input'.objects := List.map_snd_zip hlength.ge
  have halike : ∀ p ∈ input.objects.zip input'.objects, ObjectAlike p.1 p.2 := fun p hp => hzip hp
  have hleft := indexOf_left (input.objects.zip input'.objects)
  have hright := indexOf_right halike
  have hns := nsMeta_alike halike
  rw [hfst] at hleft hns
  rw [hsnd] at hright hns
  refine ⟨pairIndex (input.objects.zip input'.objects), rfl, rfl, hns, hleft, hright, fun k p hp => ?_⟩
  obtain ⟨hmem, hkey⟩ := of_mem_pairIndex hp
  exact ⟨hkey, halike p hmem⟩

/-- The walk reads nothing of an owner but its reference. -/
theorem ownerFrom_succ (ctx : Ctx) (ns : String) (steps : Nat) (curKind curName : String) :
    ownerFrom ctx ns (steps + 1) curKind curName =
      if curKind ∈ workloadKinds then
        (if curKind = "Job" then ((ctx.get "Job" ns curName).bind firstOwner).map ownerRef else none).elim
          (some ⟨curKind, ns, curName⟩) fun r =>
            if r.1 = some "CronJob" then some ⟨"CronJob", ns, r.2.getD ""⟩ else some ⟨curKind, ns, curName⟩
      else if curKind = "ReplicaSet" then
        (((ctx.get "ReplicaSet" ns curName).bind firstOwner).map ownerRef).elim none fun r =>
          ownerFrom ctx ns steps (r.1.getD "") (r.2.getD "")
      else none := by
  rw [ownerFrom]
  by_cases hwork : curKind ∈ workloadKinds
  · rw [if_pos hwork, if_pos hwork]
    by_cases hjob : curKind = "Job"
    · rw [if_pos hjob, if_pos hjob]
      cases (ctx.get "Job" ns curName).bind firstOwner <;> rfl
    · rw [if_neg hjob, if_neg hjob]
      rfl
  · rw [if_neg hwork, if_neg hwork]
    by_cases hset : curKind = "ReplicaSet"
    · rw [if_pos hset, if_pos hset]
      cases (ctx.get "ReplicaSet" ns curName).bind firstOwner <;> rfl
    · rw [if_neg hset, if_neg hset]

namespace CtxAlike

variable {ctx ctx' : Ctx} {pairs : KeyMap (Json × Json)} (h : CtxAlike ctx ctx' pairs)

include h

theorem toList_left : ctx.index.toList = pairs.toList.map fun e => (e.1, e.2.1) := by
  rw [h.left, Std.ExtTreeMap.toList_map]

theorem toList_right : ctx'.index.toList = pairs.toList.map fun e => (e.1, e.2.2) := by
  rw [h.right, Std.ExtTreeMap.toList_map]

theorem alike_of_mem {e : Key × (Json × Json)} (he : e ∈ pairs.toList) :
    keyOf e.2.1 = e.1 ∧ ObjectAlike e.2.1 e.2.2 :=
  h.alike e.1 e.2 (Std.ExtTreeMap.mem_toList_iff_getElem?_eq_some.mp he)

/-- What is collected from chosen objects is the same where the choice and the collection read alike. -/
theorem flatMap_select {α : Type} (sel : Key → Bool) (hsel : ∀ k, sel k → k.kind ≠ "Secret")
    {p : Json → Bool} {f : Json → List α}
    (hp : ∀ o o', ObjectAlike o o' → ContentAlike o o' → p o' = p o ∧ f o' = f o) :
    (((ctx'.index.toList.filter fun e => sel e.1).map Prod.snd).filter p).flatMap f =
      (((ctx.index.toList.filter fun e => sel e.1).map Prod.snd).filter p).flatMap f := by
  rw [h.toList_left, h.toList_right]
  have hall : ∀ l : List (Key × (Json × Json)), (∀ e ∈ l, keyOf e.2.1 = e.1 ∧ ObjectAlike e.2.1 e.2.2) →
      ((((l.map fun e => (e.1, e.2.2)).filter fun e => sel e.1).map Prod.snd).filter p).flatMap f =
      ((((l.map fun e => (e.1, e.2.1)).filter fun e => sel e.1).map Prod.snd).filter p).flatMap f := by
    intro l hl
    induction l with
    | nil => rfl
    | cons e l ih =>
        have hrest := ih fun e' he' => hl e' (List.mem_cons_of_mem _ he')
        obtain ⟨hkey, halike⟩ := hl e List.mem_cons_self
        rw [List.map_cons, List.map_cons, List.filter_cons, List.filter_cons]
        by_cases hs : sel e.1
        · have hkind : kind e.2.1 ≠ "Secret" := by
            have hne := hsel e.1 hs
            rwa [← hkey] at hne
          obtain ⟨hpe, hfe⟩ := hp _ _ halike (halike.content hkind)
          simp only [hs, if_true, List.map_cons, List.filter_cons, hpe]
          split
          · rw [List.flatMap_cons, List.flatMap_cons, hfe, hrest]
          · exact hrest
        · simp only [hs, if_false, Bool.false_eq_true]
          exact hrest
  exact hall _ fun e he => h.alike_of_mem he

theorem get_map {α : Type} {kind ns name : String} (hkind : kind ≠ "Secret") {f : Json → α}
    (hf : ∀ o o', ObjectAlike o o' → ContentAlike o o' → f o' = f o) :
    (ctx'.get kind ns name).map f = (ctx.get kind ns name).map f := by
  rw [Ctx.get, Ctx.get, h.left, h.right, Std.ExtTreeMap.getElem?_map, Std.ExtTreeMap.getElem?_map]
  cases hp : pairs[(⟨kind, ns, name⟩ : Key)]? with
  | none => rfl
  | some p =>
      obtain ⟨hkey, halike⟩ := h.alike _ _ hp
      have hne : Nix2Rdf.K8s.kind p.1 ≠ "Secret" := by
        have hk : Nix2Rdf.K8s.kind p.1 = kind := congrArg Key.kind hkey
        rwa [hk]
      simp only [Option.map_some, hf _ _ halike (halike.content hne)]

theorem flatMap_ofKind {α : Type} (kind : String) (hkind : kind ≠ "Secret") {p : Json → Bool} {f : Json → List α}
    (hp : ∀ o o', ObjectAlike o o' → ContentAlike o o' → p o' = p o ∧ f o' = f o) :
    ((ctx'.ofKind kind).filter p).flatMap f = ((ctx.ofKind kind).filter p).flatMap f :=
  h.flatMap_select (fun k => k.kind = kind) (fun k hk => by simpa [of_decide_eq_true hk] using hkind) hp

theorem map_ofKind {α : Type} (kind : String) (hkind : kind ≠ "Secret") {p : Json → Bool} {f : Json → α}
    (hp : ∀ o o', ObjectAlike o o' → ContentAlike o o' → p o' = p o ∧ f o' = f o) :
    ((ctx'.ofKind kind).filter p).map f = ((ctx.ofKind kind).filter p).map f := by
  have hflat := h.flatMap_ofKind kind hkind (p := p) (f := fun o => [f o]) fun o o' hoo hcc =>
    ⟨(hp o o' hoo hcc).1, by rw [(hp o o' hoo hcc).2]⟩
  simpa only [← List.map_eq_flatMap] using hflat

theorem map_workloadsIn {α : Type} (ns : String) {p : Json → Bool} {f : Json → α}
    (hp : ∀ o o', ObjectAlike o o' → ContentAlike o o' → p o' = p o ∧ f o' = f o) :
    ((ctx'.workloadsIn ns).filter p).map f = ((ctx.workloadsIn ns).filter p).map f := by
  have hsel : ∀ k : Key, decide (k.kind ∈ workloadKinds ∧ k.ns = ns) → k.kind ≠ "Secret" := by
    intro k hk hsecret
    have hmem := (of_decide_eq_true hk).1
    rw [hsecret] at hmem
    exact absurd hmem (by decide)
  have hflat := h.flatMap_select (fun k => k.kind ∈ workloadKinds ∧ k.ns = ns) hsel (p := p) (f := fun o => [f o])
    fun o o' hoo hcc => ⟨(hp o o' hoo hcc).1, by rw [(hp o o' hoo hcc).2]⟩
  rw [← List.map_eq_flatMap, ← List.map_eq_flatMap] at hflat
  exact hflat

/-! ## The builder -/

theorem objIri_eq : ctx'.objIri = ctx.objIri := by
  funext kind ns name
  simp only [Ctx.objIri, h.cid]

theorem iriOf_eq : ctx'.iriOf = ctx.iriOf := by
  funext k
  simp only [Ctx.iriOf, h.objIri_eq]

theorem firstKeyOrNs_eq : ctx'.firstKeyOrNs = ctx.firstKeyOrNs := by
  funext keys labels ann ns
  simp only [Ctx.firstKeyOrNs, h.nsMeta]

theorem owner_eq : ctx'.owner = ctx.owner := by
  funext labels ann ns
  simp only [Ctx.owner, h.firstKeyOrNs_eq, h.cfg]

theorem costCenter_eq : ctx'.costCenter = ctx.costCenter := by
  funext labels ann ns
  simp only [Ctx.costCenter, h.firstKeyOrNs_eq, h.cfg]

theorem nodeTriples_eq (opts : SnapshotOptions) {o o' : Json} (ho : ObjectAlike o o') (hc : ContentAlike o o') :
    nodeTriples ctx' opts o' = nodeTriples ctx opts o := by
  simp only [nodeTriples, h.cid, h.cfg, ho.name, hc.labels, hc.annotations, hc.nodeInfo]

theorem nodesFragment_eq (opts : SnapshotOptions) : nodesFragment ctx' opts = nodesFragment ctx opts := by
  have hnodes : (ctx'.ofKind "Node").flatMap (nodeTriples ctx' opts) =
      (ctx.ofKind "Node").flatMap (nodeTriples ctx opts) := by
    have hsame : (ctx'.ofKind "Node").flatMap (nodeTriples ctx' opts) =
        (ctx'.ofKind "Node").flatMap (nodeTriples ctx opts) := by
      refine List.flatMap_congr fun o _ => ?_
      exact h.nodeTriples_eq opts (ObjectAlike.refl o) (ContentAlike.refl o)
    rw [hsame]
    have hread := h.flatMap_ofKind "Node" (by decide) (p := fun _ => true) (f := nodeTriples ctx opts)
      fun o o' ho hc => ⟨rfl, by rw [← h.nodeTriples_eq opts ho hc, ← h.nodeTriples_eq opts (.refl o') (.refl o')]⟩
    simpa using hread
  rw [nodesFragment, nodesFragment, hnodes]

theorem nodeNames_eq : nodeNames ctx' = nodeNames ctx := by
  have hnames := h.map_ofKind "Node" (by decide) (p := fun _ => true) (f := name) fun o o' ho _ => ⟨rfl, ho.name⟩
  rw [List.filter_true, List.filter_true] at hnames
  rw [nodeNames, nodeNames, hnames]

theorem firstOwner_eq {kind : String} (hkind : kind ≠ "Secret") (ns name : String) :
    ((ctx'.get kind ns name).bind firstOwner).map ownerRef =
      ((ctx.get kind ns name).bind firstOwner).map ownerRef := by
  have hmap : (ctx'.get kind ns name).map (fun o => (firstOwner o).map ownerRef) =
      (ctx.get kind ns name).map fun o => (firstOwner o).map ownerRef :=
    h.get_map hkind fun o o' _ hc => hc.owner
  rw [Option.map_bind, Option.map_bind]
  cases hget' : ctx'.get kind ns name with
  | none =>
      rw [hget', Option.map_none, eq_comm, Option.map_eq_none_iff] at hmap
      rw [hmap]
  | some o' =>
      rw [hget', Option.map_some, eq_comm, Option.map_eq_some_iff] at hmap
      obtain ⟨o, ho, heq⟩ := hmap
      rw [ho]
      exact heq.symm

theorem ownerFrom_eq (ns : String) (steps : Nat) (curKind curName : String) :
    ownerFrom ctx' ns steps curKind curName = ownerFrom ctx ns steps curKind curName := by
  induction steps generalizing curKind curName with
  | zero => rfl
  | succ steps ih =>
      have hjob : ((ctx'.get "Job" ns curName).bind firstOwner).map ownerRef =
          ((ctx.get "Job" ns curName).bind firstOwner).map ownerRef := h.firstOwner_eq (by decide) ns curName
      have hset : ((ctx'.get "ReplicaSet" ns curName).bind firstOwner).map ownerRef =
          ((ctx.get "ReplicaSet" ns curName).bind firstOwner).map ownerRef := h.firstOwner_eq (by decide) ns curName
      rw [ownerFrom_succ, ownerFrom_succ, hjob, hset]
      simp only [ih]

theorem mountTriples_eq : mountTriples ctx' = mountTriples ctx := by
  funext wi ns v refs
  simp only [mountTriples, h.objIri_eq]

theorem containerSpecs_eq (w : Json) (wi : Iri) (pulled : BTreeMap (List String)) :
    containerSpecs ctx' w wi pulled = containerSpecs ctx w wi pulled := by
  have hc : containerTriples ctx' = containerTriples ctx := by
    funext w wi pulled init c
    simp only [containerTriples, h.cid, h.mountTriples_eq]
  have hv : volumeTriples ctx' = volumeTriples ctx := by
    funext wi ns v
    simp only [volumeTriples, h.mountTriples_eq]
  simp only [containerSpecs, hc, hv, h.objIri_eq]

theorem workloadTriples_eq (counts : KeyMap (BTreeMap Int)) (digests : KeyMap (BTreeMap (List String)))
    (key : Key) (nsopt : Option String) (oi : Iri) (o : Json) :
    workloadTriples ctx' counts digests key nsopt oi o = workloadTriples ctx counts digests key nsopt oi o := by
  have hpdb := h.map_ofKind "PodDisruptionBudget" (by decide)
    (p := fun pdb => (namespaceOf pdb).getD "default" = key.ns ∧
        selectorMatches (pdb.path? ["spec", "selector"]) (podLabels o) false)
    (f := fun pdb => addIri oi (k8s "hasPDB") (ctx.objIri "PodDisruptionBudget" nsopt (name pdb)))
    fun o o' ho hc => ⟨by simp only [hc.namespaceOf, hc.selector], by simp only [ho.name]⟩
  simp only [workloadTriples, h.cid, h.cfg, h.containerSpecs_eq, h.owner_eq, h.costCenter_eq, h.objIri_eq]
  rw [hpdb]

theorem serviceTriples_eq (ns : String) (nsopt : Option String) (oi : Iri) (o : Json) :
    serviceTriples ctx' ns nsopt oi o = serviceTriples ctx ns nsopt oi o := by
  have hw := h.map_workloadsIn ns (p := fun w => plainSelectorMatches (map o ["spec", "selector"]) (podLabels w))
    (f := fun w => addIri oi (k8s "selects") (ctx.objIri (kind w) nsopt (name w)))
    fun o o' ho hc => ⟨by simp only [hc.podLabels], by simp only [ho.kind, ho.name]⟩
  simp only [serviceTriples, h.objIri_eq]
  rw [hw]

theorem peerTriples_eq : peerTriples ctx' = peerTriples ctx := by
  funext ns oi prop peer
  have hns : peerNamespaces ctx' = peerNamespaces ctx := by
    funext ns peer
    simp only [peerNamespaces, h.nsMeta]
  unfold peerTriples
  rw [hns]
  refine List.flatMap_congr fun pns _ => ?_
  cases peer.get? "podSelector" with
  | none => simp only [h.cid]
  | some ps =>
      have hw := h.map_workloadsIn pns (p := fun w => selectorMatches (some ps) (podLabels w) true)
        (f := fun w => addIri oi prop (ctx.objIri (kind w) (some pns) (name w)))
        fun o o' ho hc => ⟨by simp only [hc.podLabels], by simp only [ho.kind, ho.name]⟩
      simp only [h.objIri_eq]
      rw [hw]

theorem policyTriples_eq (ns : String) (nsopt : Option String) (oi : Iri) (o : Json) :
    policyTriples ctx' ns nsopt oi o = policyTriples ctx ns nsopt oi o := by
  have hrule : ruleTriples ctx' = ruleTriples ctx := by
    funext ns oi prop allProp rule
    simp only [ruleTriples, h.peerTriples_eq]
  have hw := h.map_workloadsIn ns (p := fun w => selectorMatches (o.path? ["spec", "podSelector"]) (podLabels w) true)
    (f := fun w => addIri oi (k8s "appliesTo") (ctx.objIri (kind w) nsopt (name w)))
    fun o o' ho hc => ⟨by simp only [hc.podLabels], by simp only [ho.kind, ho.name]⟩
  simp only [policyTriples, h.objIri_eq, hrule]
  rw [hw]

theorem roleTriples_eq (key : Key) (oi : Iri) (o : Json) :
    roleTriples ctx' key oi o = roleTriples ctx key oi o := by
  have hperm : permissionTriples ctx' = permissionTriples ctx := by
    funext oi g r v
    simp only [permissionTriples, h.cid]
  have hsel : ∀ sel : Json, (((ctx'.ofKind "ClusterRole").filter fun other =>
      name other ≠ key.name ∧ selectorMatches (some sel) (labels other) false).map fun other =>
        addIri oi (k8s "aggregates") (ctx.objIri "ClusterRole" none (name other))) =
      ((ctx.ofKind "ClusterRole").filter fun other =>
        name other ≠ key.name ∧ selectorMatches (some sel) (labels other) false).map fun other =>
          addIri oi (k8s "aggregates") (ctx.objIri "ClusterRole" none (name other)) := by
    intro sel
    exact h.map_ofKind "ClusterRole" (by decide) fun o o' ho hc =>
      ⟨by simp only [ho.name, hc.labels], by simp only [ho.name]⟩
  simp only [roleTriples, hperm, h.objIri_eq, hsel]

theorem kindTriples_eq (counts : KeyMap (BTreeMap Int)) (digests : KeyMap (BTreeMap (List String)))
    (key : Key) (nsopt : Option String) (oi : Iri) (o : Json) :
    kindTriples ctx' counts digests key nsopt oi o = kindTriples ctx counts digests key nsopt oi o := by
  have hsubjects : subjectTriples ctx' = subjectTriples ctx := by
    funext nsopt oi sub
    simp only [subjectTriples, h.objIri_eq]
  unfold kindTriples
  simp only [namespaceTriples, ingressTriples, claimTriples, volumeObjectTriples, storageClassTriples,
    bindingTriples, h.owner_eq, h.workloadTriples_eq, h.serviceTriples_eq, h.policyTriples_eq, h.roleTriples_eq,
      h.objIri_eq, h.cid, hsubjects]

theorem objectTriples_eq {counts : KeyMap (BTreeMap Int)} {digests : KeyMap (BTreeMap (List String))} {snap : Iri}
    {e : Key × (Json × Json)} (he : e ∈ pairs.toList) :
    objectTriples ctx' counts digests snap (e.1, e.2.2) = objectTriples ctx counts digests snap (e.1, e.2.1) := by
  obtain ⟨hkey, halike⟩ := h.alike_of_mem he
  have hkind : kind e.2.1 = e.1.kind := congrArg Key.kind hkey
  have hread : ∀ nsopt oi, kindTriples ctx counts digests e.1 nsopt oi e.2.2 =
      kindTriples ctx counts digests e.1 nsopt oi e.2.1 := by
    intro nsopt oi
    by_cases hsecret : e.1.kind = "Secret"
    · simp only [kindTriples, hsecret]
    · exact (halike.content (by rwa [hkind])).kindTriples _ _ _ _ _ _ hkind.symm
  simp only [objectTriples, h.iriOf_eq, h.cid, halike.apiVersion, h.kindTriples_eq, hread]

/-- The objects of the snapshot, pair by pair. -/
theorem countedObjects_eq : countedObjects ctx = (pairs.toList.filter fun e => e.1.kind ≠ "ReplicaSet").map
      (fun e => (e.1, e.2.1)) ∧
    countedObjects ctx' = (pairs.toList.filter fun e => e.1.kind ≠ "ReplicaSet").map fun e => (e.1, e.2.2) := by
  rw [countedObjects, countedObjects, h.toList_left, h.toList_right, List.filter_map, List.filter_map]
  exact ⟨rfl, rfl⟩

end CtxAlike

/-! ## Pods -/

def statusesOf (pod : Json) : List Json :=
  arr pod ["status", "containerStatuses"] ++ arr pod ["status", "initContainerStatuses"]

/-- The fields that are read of a pod. -/
structure PodAlike (p p' : Json) : Prop where
  owner : (firstOwner p').map ownerRef = (firstOwner p).map ownerRef
  namespaceOf : namespaceOf p' = namespaceOf p
  nodeName : s p' ["spec", "nodeName"] = s p ["spec", "nodeName"]
  statuses : (statusesOf p').map (fun cs => (s cs ["imageID"], s cs ["name"])) =
    (statusesOf p).map fun cs => (s cs ["imageID"], s cs ["name"])

theorem PodAlike.refl (p : Json) : PodAlike p p := ⟨rfl, rfl, rfl, rfl⟩

section Pods

variable {ctx ctx' : Ctx} {pairs : KeyMap (Json × Json)} (h : CtxAlike ctx ctx' pairs) {p p' : Json}

theorem podOwner_eq_map (ctx : Ctx) (pod : Json) : podOwner ctx pod =
    ((firstOwner pod).map ownerRef).bind fun r =>
      ownerFrom ctx ((namespaceOf pod).getD "default") 3 (r.1.getD "") (r.2.getD "") := by
  rw [podOwner, Option.bind_map]
  rfl

include h

theorem podOwner_alike (hp : PodAlike p p') : podOwner ctx' p' = podOwner ctx p := by
  rw [podOwner_eq_map, podOwner_eq_map, hp.owner, hp.namespaceOf]
  simp only [h.ownerFrom_eq]

theorem placed_alike (acc : KeyMap (BTreeMap Int)) (hp : PodAlike p p') :
    placed ctx' acc p' = placed ctx acc p := by
  rw [placed, placed, podOwner_alike h hp, hp.nodeName]

/-- What one status adds to the digests of an owner. -/
def addStatus (owner : Key) (acc : KeyMap (BTreeMap (List String))) (r : Option String × Option String) :
    KeyMap (BTreeMap (List String)) :=
  match r.1.bind pulledDigest with
  | none => acc
  | some hex =>
      let names := acc[owner]?.getD ∅
      let cname := r.2.getD ""
      acc.insert owner (names.insert cname (names[cname]?.getD [] ++ [hex]))

theorem pulledBy_alike (acc : KeyMap (BTreeMap (List String))) (hp : PodAlike p p') :
    pulledBy ctx' acc p' = pulledBy ctx acc p := by
  rw [pulledBy, pulledBy, podOwner_alike h hp]
  cases podOwner ctx p with
  | none => rfl
  | some owner =>
      have hfold : ∀ pod, (statusesOf pod).foldl
        (fun acc cs => addStatus owner acc (s cs ["imageID"], s cs ["name"])) acc =
          ((statusesOf pod).map fun cs => (s cs ["imageID"], s cs ["name"])).foldl (addStatus owner) acc := by
        intro pod
        rw [List.foldl_map]
      exact (hfold p').trans ((congrArg (fun l => l.foldl (addStatus owner) acc) hp.statuses).trans (hfold p).symm)

theorem placement_alike {pods pods' : List Json} (hpods : List.Forall₂ PodAlike pods pods') :
    placement ctx' pods' = placement ctx pods := by
  have hfold : ∀ acc, pods'.foldl (placed ctx') acc = pods.foldl (placed ctx) acc := by
    induction hpods with
    | nil => exact fun _ => rfl
    | cons hp _ ih =>
        intro acc
        rw [List.foldl_cons, List.foldl_cons, placed_alike h acc hp, ih]
  exact hfold ∅

theorem pulled_alike {pods pods' : List Json} (hpods : List.Forall₂ PodAlike pods pods') :
    pulled ctx' pods' = pulled ctx pods := by
  have hfold : ∀ acc, pods'.foldl (pulledBy ctx') acc = pods.foldl (pulledBy ctx) acc := by
    induction hpods with
    | nil => exact fun _ => rfl
    | cons hp _ ih =>
        intro acc
        rw [List.foldl_cons, List.foldl_cons, pulledBy_alike h acc hp, ih]
  exact hfold ∅

end Pods

/-! ## The snapshot -/

/-- Objects and pods that read alike give the same fragments and hashes. -/
theorem buildSnapshot_alike (x : Extern) (now : String) (opts : SnapshotOptions)
    {objects objects' pods pods' : List Json} (failed : List String)
    (hobjects : List.Forall₂ ObjectAlike objects objects') (hpods : List.Forall₂ PodAlike pods pods') :
    buildSnapshot x now ⟨objects', pods', failed⟩ opts = buildSnapshot x now ⟨objects, pods, failed⟩ opts := by
  obtain ⟨pairs, h⟩ : ∃ pairs, CtxAlike (ctxOf ⟨objects, pods, failed⟩ opts) (ctxOf ⟨objects', pods', failed⟩ opts)
      pairs := ctxAlike_of_forall₂ hobjects opts
  obtain ⟨hleft, hright⟩ := h.countedObjects_eq
  have hlength : (countedObjects (ctxOf ⟨objects', pods', failed⟩ opts)).length =
      (countedObjects (ctxOf ⟨objects, pods, failed⟩ opts)).length := by
    rw [hleft, hright, List.length_map, List.length_map]
  have hpending : pendingSnapshot (ctxOf ⟨objects', pods', failed⟩ opts) ⟨objects', pods', failed⟩ opts.state =
      pendingSnapshot (ctxOf ⟨objects, pods, failed⟩ opts) ⟨objects, pods, failed⟩ opts.state := by
    have hobj : ∀ counts digests snap,
        (countedObjects (ctxOf ⟨objects', pods', failed⟩ opts)).flatMap
          (objectTriples (ctxOf ⟨objects', pods', failed⟩ opts) counts digests snap) =
        (countedObjects (ctxOf ⟨objects, pods, failed⟩ opts)).flatMap
          (objectTriples (ctxOf ⟨objects, pods, failed⟩ opts) counts digests snap) := by
      intro counts digests snap
      rw [hleft, hright, List.flatMap_map, List.flatMap_map]
      refine List.flatMap_congr fun e he => ?_
      exact h.objectTriples_eq (List.mem_of_mem_filter he)
    simp only [pendingSnapshot, snapshotHead, h.cid, h.nodeNames_eq, placement_alike h hpods,
      pulled_alike h hpods, hobj]
  simp only [buildSnapshot, h.nodesFragment_eq, hpending, hlength, h.cid]

end Nix2Rdf.K8s
