import Nix2Rdf.K8s.Selectors
import Nix2Rdf.K8s.Unchanged

/-!
# The pods of a workload

A pod belongs to the workload at the end of its chain of controllers. The snapshot follows the first
owner reference instead, and through two replica sets at most.
-/

namespace Nix2Rdf.K8s

open Triple

/-! ## Chains of owners -/

/-- The owner reference that is marked as the controller. -/
def controllerRef (o : Json) : Option Json :=
  (arr o ["metadata", "ownerReferences"]).find? fun r => (r.get? "controller").bind Json.asBool? = some true

def refKind (r : Json) : String := (s r ["kind"]).getD ""

def refName (r : Json) : String := (s r ["name"]).getD ""

section Chains

variable (ctx : Ctx) (ref : Json → Option Json) (ns : String)

/-- The job has an owner that is a cron job. -/
def CronOwned (name : String) (o : Json) : Prop :=
  ∃ job, ctx.get "Job" ns name = some job ∧ ref job = some o ∧ s o ["kind"] = some "CronJob"

/-- An owner leads through so many replica sets to a workload. -/
inductive Leads : Nat → String → String → Key → Prop
  | workload {kind name : String} (hkind : kind ∈ workloadKinds)
      (hjob : kind = "Job" → ∀ o, ¬ CronOwned ctx ref ns name o) : Leads 0 kind name ⟨kind, ns, name⟩
  | cronJob {name : String} {o : Json} (hcron : CronOwned ctx ref ns name o) :
      Leads 0 "Job" name ⟨"CronJob", ns, refName o⟩
  | replicaSet {sets : Nat} {name : String} {rs o : Json} {owner : Key} (hrs : ctx.get "ReplicaSet" ns name = some rs)
      (href : ref rs = some o) (hleads : Leads sets (refKind o) (refName o) owner) :
      Leads (sets + 1) "ReplicaSet" name owner

end Chains

variable {ctx : Ctx}

theorem ownerFrom_iff {ns : String} {steps : Nat} {kind name : String} {owner : Key} :
    ownerFrom ctx ns steps kind name = some owner ↔ ∃ sets < steps, Leads ctx firstOwner ns sets kind name owner := by
  induction steps generalizing kind name with
  | zero => simp [ownerFrom]
  | succ steps ih =>
      rw [ownerFrom]
      constructor
      · intro h
        split at h
        · rename_i hkind
          split at h
          · rename_i o ho
            split at ho
            · rename_i hjob
              obtain ⟨job, hget, href⟩ := Option.bind_eq_some_iff.mp ho
              split at h
              · rename_i hcron
                cases h
                cases hjob
                exact ⟨0, Nat.succ_pos _, .cronJob ⟨job, hget, href, hcron⟩⟩
              · rename_i hcron
                cases h
                refine ⟨0, Nat.succ_pos _, .workload hkind fun _ o' hown => hcron ?_⟩
                obtain ⟨job', hget', href', hcron'⟩ := hown
                cases hget.symm.trans hget'
                cases href.symm.trans href'
                exact hcron'
            · cases ho
          · rename_i hnone
            cases h
            refine ⟨0, Nat.succ_pos _, .workload hkind fun hjob o' hown => ?_⟩
            obtain ⟨job', hget', href', _⟩ := hown
            rw [if_pos hjob, hget', Option.bind_some, href'] at hnone
            cases hnone
        · rename_i hkind
          split at h
          · rename_i hset
            cases hset
            split at h
            · rename_i o ho
              obtain ⟨rs, hget, href⟩ := Option.bind_eq_some_iff.mp ho
              obtain ⟨sets, hlt, hleads⟩ := ih.mp h
              exact ⟨sets + 1, Nat.succ_lt_succ hlt, .replicaSet hget href hleads⟩
            · cases h
          · cases h
      · rintro ⟨sets, hlt, hleads⟩
        cases hleads with
        | workload hkind hjob =>
            rw [if_pos hkind]
            split
            · rename_i o ho
              split at ho
              · rename_i hk
                obtain ⟨job, hget, href⟩ := Option.bind_eq_some_iff.mp ho
                have hcron : s o ["kind"] ≠ some "CronJob" := fun hcron => hjob hk o ⟨job, hget, href, hcron⟩
                rw [if_neg hcron]
              · cases ho
            · rfl
        | cronJob hcron =>
            obtain ⟨job, hget, href, hkind⟩ := hcron
            have hwork : "Job" ∈ workloadKinds := by decide
            rw [if_pos hwork, if_pos rfl, hget, Option.bind_some, href]
            exact if_pos hkind
        | replicaSet hrs href hleads =>
            have hwork : "ReplicaSet" ∉ workloadKinds := by decide
            rw [if_neg hwork, if_pos rfl, hrs, Option.bind_some, href]
            exact ih.mpr ⟨_, Nat.lt_of_succ_lt_succ hlt, hleads⟩

variable (ctx)

/-- The chain of controllers of a pod ends at the workload. -/
def ControlledBy (owner : Key) (pod : Json) : Prop :=
  ∃ r, controllerRef pod = some r ∧ ∃ sets, Leads ctx controllerRef ((namespaceOf pod).getD "default")
    sets (refKind r) (refName r) owner

/-- The first owner references of a pod lead to the workload, through two replica sets at most. -/
def CreditedTo (owner : Key) (pod : Json) : Prop :=
  ∃ r, firstOwner pod = some r ∧ ∃ sets ≤ 2, Leads ctx firstOwner ((namespaceOf pod).getD "default") sets (refKind r)
    (refName r) owner

variable {ctx}

theorem podOwner_iff {owner : Key} {pod : Json} : podOwner ctx pod = some owner ↔ CreditedTo ctx owner pod := by
  rw [podOwner, CreditedTo, Option.bind_eq_some_iff]
  refine exists_congr fun r => and_congr_right fun _ => ?_
  rw [ownerFrom_iff]
  exact exists_congr fun sets => and_congr_left' Nat.lt_succ_iff

/-! ## Counts -/

open Classical in
noncomputable def countPods (p : Json → Prop) (pods : List Json) : Nat := pods.countP fun pod => p pod

theorem countPods_append_singleton (p : Json → Prop) (pods : List Json) (pod : Json) [Decidable (p pod)] :
    countPods p (pods ++ [pod]) = countPods p pods + if p pod then 1 else 0 := by
  rw [countPods, countPods, List.countP_append, List.countP_singleton]
  split <;> simp_all

theorem countPods_congr {p q : Json → Prop} {pods : List Json} (h : ∀ pod, p pod ↔ q pod) :
    countPods p pods = countPods q pods := by
  have hpq : p = q := funext fun pod => propext (h pod)
  rw [hpq]

theorem countPods_pos {p : Json → Prop} {pods : List Json} : 0 < countPods p pods ↔ ∃ pod ∈ pods, p pod := by
  simp [countPods, List.countP_pos_iff]

/-- What satisfies one condition satisfies the other or does not. -/
theorem countPods_split (p q : Json → Prop) (pods : List Json) :
    countPods p pods = countPods (fun pod => p pod ∧ q pod) pods + countPods (fun pod => p pod ∧ ¬ q pod) pods := by
  induction pods using List.reverseRecOn with
  | nil => rfl
  | append_singleton pods pod ih =>
      classical
      rw [countPods_append_singleton, countPods_append_singleton, countPods_append_singleton, ih]
      by_cases hp : p pod <;> by_cases hq : q pod <;> simp [hp, hq] <;> omega

def OnNode (node : String) (pod : Json) : Prop := s pod ["spec", "nodeName"] = some node

theorem countAt_placement_eq (pods : List Json) (owner : Key) (node : String) :
    countAt (placement ctx pods) owner node =
      if countPods (fun pod => CreditedTo ctx owner pod ∧ OnNode node pod) pods = 0 then none
      else some (countPods (fun pod => CreditedTo ctx owner pod ∧ OnNode node pod) pods : Int) := by
  have hcounts : ∀ pod, CountsFor ctx owner node pod ↔ CreditedTo ctx owner pod ∧ OnNode node pod :=
    fun pod => and_congr_left' podOwner_iff
  rw [countAt_placement, ← countPods_congr hcounts]
  induction pods using List.reverseRecOn with
  | nil => rfl
  | append_singleton pods pod ih =>
      rw [List.foldl_append, ih, List.foldl_cons, List.foldl_nil, bump, countPods_append_singleton]
      split
      · split
        · rename_i hzero
          simp [hzero]
        · simp
      · simp

variable {input : SnapshotInput} {opts : SnapshotOptions} (w : Workload (ctxOf input opts))

/-- The pods on a node that are credited to the workload. -/
noncomputable def creditedOn (node : String) : Nat :=
  countPods (fun pod => CreditedTo (ctxOf input opts) w.key pod ∧ OnNode node pod) input.pods

theorem mem_counts_iff {node : String} {count : Int} :
    (node, count) ∈ ((placement (ctxOf input opts) input.pods)[w.key]?.getD ∅).toList ↔
      0 < creditedOn w node ∧ (creditedOn w node : Int) = count := by
  rw [Std.ExtTreeMap.mem_toList_iff_getElem?_eq_some]
  have hcount := @countAt_placement_eq (ctxOf input opts) input.pods w.key node
  rw [countAt] at hcount
  rw [hcount, creditedOn]
  split
  · simp_all
  · simp_all [Nat.pos_iff_ne_zero]

theorem countText_inj {node node' : String} {k k' : Nat} :
    node ++ ":" ++ toString k = node' ++ ":" ++ toString k' ↔ node = node' ∧ k = k' := by
  constructor
  · intro h
    have hsplit := Text.rsplitOnce_append (Text.not_mem_toString (c := ':') (by decide) k) node
    have hsplit' := Text.rsplitOnce_append (Text.not_mem_toString (c := ':') (by decide) k') node'
    have h : node ++ String.singleton ':' ++ toString k = node' ++ String.singleton ':' ++ toString k' := h
    rw [h, hsplit', Option.some.injEq, Prod.mk.injEq] at hsplit
    exact ⟨hsplit.1.symm, Text.toString_inj hsplit.2.symm⟩
  · rintro ⟨rfl, rfl⟩
    rfl

theorem replicasOnNode_iff {node : String} {k : Nat} :
    addStr ((ctxOf input opts).iriOf w.key) (k8s "replicasOnNode") (node ++ ":" ++ toString k) ∈
      (pendingSnapshot (ctxOf input opts) input opts.state).lines ↔ 0 < k ∧ creditedOn w node = k := by
  rw [mem_pending_workload rfl (by decide)]
  constructor
  · rintro ⟨w', ht⟩
    rcases workloadTriples_cases ht (by simp [workloadEdges, placementEdges]) with
      ⟨⟨node', count⟩, hmem, ht | ht⟩ | ⟨_, _, _, ht⟩ | ⟨hp, _⟩
    · exact absurd (congrArg Triple.p ht) (by simp)
    · obtain ⟨hs, _, htext⟩ := addStr_inj.mp ht
      cases Workload.obj_eq ((iriOf_inj w.plain w'.plain).mp hs)
      obtain ⟨hpos, rfl⟩ := (mem_counts_iff w).mp hmem
      obtain ⟨rfl, rfl⟩ := countText_inj.mp htext
      exact ⟨hpos, rfl⟩
    · exact absurd (congrArg Triple.p ht) (by simp)
    · exact absurd hp (by simp)
  · rintro ⟨hpos, rfl⟩
    have hmem := (@mem_counts_iff input opts w node _).mpr ⟨hpos, rfl⟩
    exact ⟨w, mem_workloadTriples_placed hmem (.inr rfl)⟩

theorem scheduledOn_iff {node : String} :
    Edge input opts ((ctxOf input opts).iriOf w.key) (k8s "scheduledOn") (Iri.k8sNode opts.clusterId node) ↔
      0 < creditedOn w node := by
  have hplain : PlainKind "node" := by decide
  rw [Edge, mem_pending_workload rfl (by decide)]
  constructor
  · rintro ⟨w', ht⟩
    rcases workloadTriples_cases ht (by simp [workloadEdges, placementEdges]) with
      ⟨⟨node', count⟩, hmem, ht | ht⟩ | ⟨_, _, _, ht⟩ | ⟨hp, _⟩
    · obtain ⟨hs, _, hnode⟩ := addIri_inj.mp ht
      cases Workload.obj_eq ((iriOf_inj w.plain w'.plain).mp hs)
      have hnode : (ctxOf input opts).objIri "node" none node = (ctxOf input opts).objIri "node" none node' := hnode
      rw [objIri_inj hplain hplain] at hnode
      rw [hnode.2.2]
      exact ((mem_counts_iff w).mp hmem).1
    · exact absurd (congrArg Triple.p ht) (by simp)
    · exact absurd (congrArg Triple.p ht) (by simp)
    · exact absurd hp (by simp)
  · intro hpos
    have hmem := (@mem_counts_iff input opts w node _).mpr ⟨hpos, rfl⟩
    exact ⟨w, mem_workloadTriples_placed hmem (.inl rfl)⟩

/-! ## Digests -/

def containersOf (w : Json) : List Json :=
  (podSpec w).toList.flatMap fun ps => arr ps ["containers"] ++ arr ps ["initContainers"]

def containerName (c : Json) : String := (s c ["name"]).getD ""

/-- The digest that the image of the container is pinned to. -/
def pinned (c : Json) : Option String := (parseImageRef ((s c ["image"]).getD "")).2.2.bind digestHex

/-- The pod says which digest was pulled for the container. -/
def PodReports (cname hex : String) (pod : Json) : Prop :=
  ∃ cs ∈ statusesOf pod, (s cs ["imageID"]).bind pulledDigest = some hex ∧ containerName cs = cname

def Workload.containerIri {ctx : Ctx} (w : Workload ctx) (cname : String) : Iri :=
  Iri.k8sContainer ctx.cid w.key.kind w.key.ns w.key.name cname

theorem containerIri_inj {w w' : Workload (ctxOf input opts)} {cname cname' : String} :
    w.containerIri cname = w'.containerIri cname' ↔ w = w' ∧ cname = cname' := by
  constructor
  · intro h
    have hslash : ∀ (w : Workload (ctxOf input opts)) (cname : String), ∀ seg ∈ ["k8s", encodeSegment opts.clusterId,
        w.key.kind, encodeSegment w.key.ns, encodeSegment w.key.name, "c", encodeSegment cname],
          '/' ∉ seg.toList := by
      intro w cname
      simp only [List.forall_mem_cons, slash_not_mem_encodeSegment, w.plain.1, not_false_eq_true, true_and]
      decide
    have h : Iri.k8sContainer opts.clusterId w.key.kind w.key.ns w.key.name cname =
        Iri.k8sContainer opts.clusterId w'.key.kind w'.key.ns w'.key.name cname' := h
    rw [Iri.k8sContainer, Iri.k8sContainer, id_inj,
      Text.slash_inj (by simp) (by simp) (hslash w cname) (hslash w' cname')] at h
    simp only [List.cons.injEq, encodeSegment_inj, true_and, and_true] at h
    obtain ⟨hkind, hns, hname, hcname⟩ := h
    refine ⟨Workload.obj_eq ?_, hcname⟩
    cases hk : w.key
    cases hk' : w'.key
    rw [hk, hk'] at hkind hns hname
    rw [Key.mk.injEq]
    exact ⟨hkind, hns, hname⟩
  · rintro ⟨rfl, rfl⟩
    rfl

theorem image_inj {hex hex' : String} : Iri.image hex = Iri.image hex' ↔ hex = hex' := by
  have himage : ∀ hex, Iri.image hex = id ("oci/sha256" ++ "/" ++ hex) := by
    intro hex
    rw [Iri.image, Text.slash_cons, Text.slash_pair]
    simp only [String.append_assoc]
    rfl
  rw [himage, himage, id_inj, String.append_right_inj]

theorem containerTriples_runsImage {ctx : Ctx} {w c : Json} {wi : Iri} {pulled : BTreeMap (List String)} {init : Bool}
    {t : Triple} (hp : t.p = k8s "runsImage") :
    t ∈ containerTriples ctx w wi pulled init c ↔
      ∃ d ∈ digestsOf ((s c ["image"]).getD "") (pulled[containerName c]?.getD []),
        t = addIri (Iri.k8sContainer ctx.cid (kind w) ((namespaceOf w).getD "default") (name w) (containerName c))
          (k8s "runsImage") (Iri.image d) := by
  have hother : ∀ {p : Iri}, p ≠ k8s "runsImage" → t.p = p → False := fun hne h => hne (h.symm.trans hp)
  have hmounts : ∀ ns v refs, Avoids [k8s "runsImage"] (mountTriples ctx wi ns v refs) := avoids_mounts (by simp)
  simp only [containerTriples, List.mem_append]
  constructor
  · intro ht
    rcases ht with (((((((ht | ht) | ht) | ht) | ht) | ht) | ht) | ht) | ht
    · simp only [List.mem_cons, List.not_mem_nil, or_false] at ht
      rcases ht with rfl | rfl | rfl <;> exact (hother (by simp) rfl).elim
    · split at ht
      · cases List.mem_singleton.mp ht
        exact (hother (by simp) rfl).elim
      · cases ht
    · simp only [List.mem_cons, List.not_mem_nil, or_false] at ht
      rcases ht with rfl | rfl <;> exact (hother (by simp) rfl).elim
    · obtain ⟨_, _, rfl⟩ := List.mem_map.mp ht
      exact (hother (by simp) rfl).elim
    · split at ht
      · cases List.mem_singleton.mp ht
        exact (hother (by simp) rfl).elim
      · cases ht
    · obtain ⟨d, hd, rfl⟩ := List.mem_map.mp ht
      exact ⟨d, hd, rfl⟩
    · obtain ⟨r, hr, hmap⟩ := List.mem_filterMap.mp ht
      obtain ⟨_, _, rfl⟩ := Option.map_eq_some_iff.mp hmap
      simp only [List.mem_cons, List.not_mem_nil, or_false] at hr
      rcases hr with rfl | rfl | rfl | rfl <;> exact (hother (by simp) rfl).elim
    · obtain ⟨_, _, ht⟩ := List.mem_flatMap.mp ht
      exact absurd (List.mem_singleton.mpr hp) (hmounts _ _ _ t ht)
    · obtain ⟨_, _, ht⟩ := List.mem_flatMap.mp ht
      exact absurd (List.mem_singleton.mpr hp) (hmounts _ _ _ t ht)
  · rintro ⟨d, hd, rfl⟩
    exact .inl (.inl (.inl (.inr (List.mem_map_of_mem hd))))

theorem containerSpecs_runsImage {ctx : Ctx} {w : Json} {wi : Iri} {pulled : BTreeMap (List String)} {t : Triple}
    (hp : t.p = k8s "runsImage") :
    t ∈ containerSpecs ctx w wi pulled ↔ ∃ c ∈ containersOf w,
      ∃ d ∈ digestsOf ((s c ["image"]).getD "") (pulled[containerName c]?.getD []),
        t = addIri (Iri.k8sContainer ctx.cid (kind w) ((namespaceOf w).getD "default") (name w) (containerName c))
          (k8s "runsImage") (Iri.image d) := by
  have hother : ∀ {p : Iri}, p ≠ k8s "runsImage" → t.p = p → False := fun hne h => hne (h.symm.trans hp)
  have hvolumes : ∀ ns v, Avoids [k8s "runsImage"] (volumeTriples ctx wi ns v) := avoids_volume (by simp)
  have hvolume : ∀ ns v, t ∉ volumeTriples ctx wi ns v :=
    fun ns v ht => hvolumes ns v t ht (List.mem_singleton.mpr hp)
  have hclass : t ∉ (arr w ["spec", "volumeClaimTemplates"]).filterMap fun t =>
      (s t ["spec", "storageClassName"]).map fun sc =>
        addIri wi (k8s "usesStorageClass") (ctx.objIri "StorageClass" none sc) := by
    intro ht
    obtain ⟨_, _, hmap⟩ := List.mem_filterMap.mp ht
    obtain ⟨_, _, rfl⟩ := Option.map_eq_some_iff.mp hmap
    exact hother (by simp) rfl
  have haccount : ∀ i, t ≠ addIri wi (k8s "usesServiceAccount") i := fun i ht => hother (by simp)
    (congrArg Triple.p ht)
  rw [containerSpecs, containersOf]
  cases podSpec w with
  | none => simp
  | some ps =>
      simp only [List.mem_append, List.mem_flatMap, containerTriples_runsImage hp, hvolume, and_false, exists_false,
        or_false, Option.toList_some, List.mem_singleton, exists_eq_left, or_and_right, exists_or, hclass, haccount]

theorem runsImage_iff {cname hex : String} :
    Edge input opts (w.containerIri cname) (k8s "runsImage") (Iri.image hex) ↔
      ∃ c ∈ containersOf w.obj, containerName c = cname ∧ (pinned c = some hex ∨
        ∃ pod ∈ input.pods, CreditedTo (ctxOf input opts) w.key pod ∧ PodReports cname hex pod) := by
  have hns : ∀ w : Workload (ctxOf input opts), (namespaceOf w.obj).getD "default" = w.key.ns := by
    intro w
    have hcluster : ∀ kind ∈ workloadKinds, kind ∉ clusterKinds := by decide
    have hkind : kind w.obj = w.key.kind := congrArg Key.kind w.keyOf_obj
    rw [← w.keyOf_obj, keyOf, hkind, if_neg (hcluster _ w.kind)]
  have hiri : ∀ (w : Workload (ctxOf input opts)) (cname : String),
    Iri.k8sContainer (ctxOf input opts).cid (kind w.obj)
      ((namespaceOf w.obj).getD "default") (name w.obj) cname = w.containerIri cname := by
    intro w cname
    have hkind : kind w.obj = w.key.kind := congrArg Key.kind w.keyOf_obj
    have hname : name w.obj = w.key.name := congrArg Key.name w.keyOf_obj
    rw [hkind, hns, hname, Workload.containerIri]
  have hdigests : ∀ (w : Workload (ctxOf input opts)) (c : Json),
      hex ∈ digestsOf ((s c ["image"]).getD "")
        (digestsAt (pulled (ctxOf input opts) input.pods) w.key (containerName c)) ↔ pinned c = some hex ∨
        ∃ pod ∈ input.pods, CreditedTo (ctxOf input opts) w.key pod ∧ PodReports (containerName c) hex pod := by
    intro w c
    rw [digestsOf, mem_btreeSet, List.mem_append, Option.mem_toList, mem_digestsAt_pulled]
    simp only [Reports, podOwner_iff]
    rfl
  rw [Edge, mem_pending_workload rfl (by decide)]
  constructor
  · rintro ⟨w', ht⟩
    rcases workloadTriples_cases ht (by simp [workloadEdges]) with ⟨_, _, ht | ht⟩ | ⟨_, _, _, ht⟩ | ⟨_, ht⟩
    · exact absurd (congrArg Triple.p ht) (by simp)
    · exact absurd (congrArg Triple.p ht) (by simp)
    · exact absurd (congrArg Triple.p ht) (by simp)
    · obtain ⟨c, hc, d, hd, ht⟩ := (containerSpecs_runsImage rfl).mp ht
      obtain ⟨hs, _, himage⟩ := addIri_inj.mp ht
      rw [hiri] at hs
      obtain ⟨rfl, rfl⟩ := containerIri_inj.mp hs
      cases image_inj.mp himage
      exact ⟨c, hc, rfl, (hdigests w c).mp hd⟩
  · rintro ⟨c, hc, rfl, hhex⟩
    refine ⟨w, mem_workloadTriples_specs
      ((containerSpecs_runsImage rfl).mpr ⟨c, hc, hex, (hdigests w c).mpr hhex, ?_⟩)⟩
    rw [hiri]

/-! ## Attribution -/

/-- The pods on a node whose controller chain ends at the workload. -/
noncomputable def controlledOn (node : String) : Nat :=
  countPods (fun pod => ControlledBy (ctxOf input opts) w.key pod ∧ OnNode node pod) input.pods

/-- Pods are counted for the workload that controls them, and so are the digests that they report. -/
structure PodsAttributed (input : SnapshotInput) (opts : SnapshotOptions) : Prop where
  counted : ∀ (w : Workload (ctxOf input opts)) (node : String) (k : Nat), 0 < k →
    (addStr ((ctxOf input opts).iriOf w.key) (k8s "replicasOnNode") (node ++ ":" ++ toString k) ∈
      (pendingSnapshot (ctxOf input opts) input opts.state).lines ↔ controlledOn w node = k)
  scheduled : ∀ (w : Workload (ctxOf input opts)) (node : String),
    Edge input opts ((ctxOf input opts).iriOf w.key) (k8s "scheduledOn") (Iri.k8sNode opts.clusterId node) ↔
      ∃ pod ∈ input.pods, ControlledBy (ctxOf input opts) w.key pod ∧ OnNode node pod
  pulled : ∀ (w : Workload (ctxOf input opts)) (cname hex : String),
    Edge input opts (w.containerIri cname) (k8s "runsImage") (Iri.image hex) →
    (∃ c ∈ containersOf w.obj, containerName c = cname ∧ pinned c = some hex) ∨
      ∃ pod ∈ input.pods, ControlledBy (ctxOf input opts) w.key pod ∧ PodReports cname hex pod

/-- As many pods are credited to a workload wrongly as are kept from it, on each node, and what the
former report is known otherwise. -/
structure PodsBalanced (input : SnapshotInput) (opts : SnapshotOptions) : Prop where
  counted : ∀ (w : Workload (ctxOf input opts)) (node : String),
    countPods (fun pod => (CreditedTo (ctxOf input opts) w.key pod ∧ OnNode node pod) ∧
      ¬ ControlledBy (ctxOf input opts) w.key pod) input.pods =
    countPods (fun pod => (ControlledBy (ctxOf input opts) w.key pod ∧ OnNode node pod) ∧
      ¬ CreditedTo (ctxOf input opts) w.key pod) input.pods
  reported : ∀ w : Workload (ctxOf input opts), ∀ c ∈ containersOf w.obj, ∀ pod ∈ input.pods,
    CreditedTo (ctxOf input opts) w.key pod → ¬ ControlledBy (ctxOf input opts) w.key pod →
    ∀ hex, PodReports (containerName c) hex pod →
    (∃ c' ∈ containersOf w.obj, containerName c' = containerName c ∧ pinned c' = some hex) ∨
      ∃ pod' ∈ input.pods, ControlledBy (ctxOf input opts) w.key pod' ∧ PodReports (containerName c) hex pod'

theorem creditedOn_eq_iff (node : String) : creditedOn w node = controlledOn w node ↔
    countPods (fun pod => (CreditedTo (ctxOf input opts) w.key pod ∧ OnNode node pod) ∧
      ¬ ControlledBy (ctxOf input opts) w.key pod) input.pods =
    countPods (fun pod => (ControlledBy (ctxOf input opts) w.key pod ∧ OnNode node pod) ∧
      ¬ CreditedTo (ctxOf input opts) w.key pod) input.pods := by
  have hcredited := countPods_split (fun pod => CreditedTo (ctxOf input opts) w.key pod ∧ OnNode node pod)
    (ControlledBy (ctxOf input opts) w.key) input.pods
  have hcontrolled := countPods_split (fun pod => ControlledBy (ctxOf input opts) w.key pod ∧ OnNode node pod)
    (CreditedTo (ctxOf input opts) w.key) input.pods
  have hboth : countPods (fun pod => (CreditedTo (ctxOf input opts) w.key pod ∧ OnNode node pod) ∧
      ControlledBy (ctxOf input opts) w.key pod) input.pods =
      countPods (fun pod => (ControlledBy (ctxOf input opts) w.key pod ∧ OnNode node pod) ∧
        CreditedTo (ctxOf input opts) w.key pod) input.pods := countPods_congr fun pod => by tauto
  rw [creditedOn, controlledOn, hcredited, hcontrolled, hboth]
  exact Nat.add_left_cancel_iff

/-- Pods are attributed to their controllers exactly when the wrong credits cancel. -/
theorem podsAttributed_iff (input : SnapshotInput) (opts : SnapshotOptions) :
    PodsAttributed input opts ↔ PodsBalanced input opts := by
  constructor
  · intro h
    refine ⟨fun w node => (creditedOn_eq_iff w node).mp ?_, fun w c hc pod hpod hcredited _ hex hreports => ?_⟩
    · rcases Nat.eq_zero_or_pos (controlledOn w node) with hzero | hpos
      · by_contra hne
        have hcredited : 0 < creditedOn w node := by omega
        have hcounted := (h.counted w node _ hcredited).mp ((replicasOnNode_iff w).mpr ⟨hcredited, rfl⟩)
        omega
      · exact ((replicasOnNode_iff w).mp ((h.counted w node _ hpos).mpr rfl)).2
    · exact h.pulled w _ hex ((runsImage_iff w).mpr ⟨c, hc, rfl, .inr ⟨pod, hpod, hcredited, hreports⟩⟩)
  · intro h
    have hcount : ∀ (w : Workload (ctxOf input opts)) node, creditedOn w node = controlledOn w node :=
      fun w node => (creditedOn_eq_iff w node).mpr (h.counted w node)
    refine ⟨fun w node k hk => ?_, fun w node => ?_, fun w cname hex hedge => ?_⟩
    · rw [replicasOnNode_iff, hcount, and_iff_right hk]
    · rw [scheduledOn_iff, hcount, controlledOn, countPods_pos]
    · obtain ⟨c, hc, rfl, hpinned | ⟨pod, hpod, hcredited, hreports⟩⟩ := (runsImage_iff w).mp hedge
      · exact .inl ⟨c, hc, rfl, hpinned⟩
      · by_cases hcontrolled : ControlledBy (ctxOf input opts) w.key pod
        · exact .inr ⟨pod, hpod, hcontrolled, hreports⟩
        · exact h.reported w c hc pod hpod hcredited hcontrolled hex hreports

/-- Nothing is lost where the first owner references lead where the controllers do. -/
theorem podsBalanced_of_agree (h : ∀ (w : Workload (ctxOf input opts)), ∀ pod ∈ input.pods,
    CreditedTo (ctxOf input opts) w.key pod ↔ ControlledBy (ctxOf input opts) w.key pod) :
    PodsBalanced input opts := by
  refine ⟨fun w node => ?_, fun w c _ pod hpod hcredited hnot => absurd ((h w pod hpod).mp hcredited) hnot⟩
  have hnone : ∀ {p : Json → Prop}, (∀ pod ∈ input.pods, ¬ p pod) → countPods p input.pods = 0 := by
    intro p hp
    rcases Nat.eq_zero_or_pos (countPods p input.pods) with hzero | hpos
    · exact hzero
    · obtain ⟨pod, hpod, hholds⟩ := countPods_pos.mp hpos
      exact absurd hholds (hp pod hpod)
  rw [hnone fun pod hpod hc => hc.2 ((h w pod hpod).mp hc.1.1),
    hnone fun pod hpod hc => hc.2 ((h w pod hpod).mpr hc.1.1)]

/-- A pod that is controlled by one deployment and lists another one as its first owner. -/
def sharedPod : Json :=
  .obj [("kind", .str "Pod"), ("metadata", .obj [("name", .str "web-0"), ("namespace", .str "shop"),
      ("ownerReferences", .arr [.obj [("kind", .str "Deployment"), ("name", .str "db")],
        .obj [("kind", .str "Deployment"), ("name", .str "web"), ("controller", .bool true)]])]),
    ("spec", .obj [("nodeName", .str "n1")])]

def sharedShop : SnapshotInput where
  objects := [deployment "web", deployment "db"]
  pods := [sharedPod]

/-- The pod is counted for its first owner, not for its controller. -/
theorem sharedShop_not_attributed : ¬ PodsAttributed sharedShop shopOptions := by
  intro h
  have hmem : deployment "web" ∈ sharedShop.objects := List.mem_cons_self
  have hweb : (ctxOf sharedShop shopOptions).index[keyOf (deployment "web")]? = some (deployment "web") :=
    (indexOf_eq_some_iff (by decide)).mpr ⟨hmem, rfl, by decide⟩
  let w : Workload (ctxOf sharedShop shopOptions) := ⟨keyOf (deployment "web"), _, hweb, List.mem_cons_self⟩
  have hcontrolled : ControlledBy (ctxOf sharedShop shopOptions) w.key sharedPod := by
    refine ⟨_, rfl, 0, .workload List.mem_cons_self fun hjob => ?_⟩
    exact absurd hjob (by decide)
  have hedge := (h.scheduled w "n1").mpr ⟨sharedPod, List.mem_singleton.mpr rfl, hcontrolled, rfl⟩
  obtain ⟨pod, hpod, hcredited, _⟩ := countPods_pos.mp ((scheduledOn_iff w).mp hedge)
  cases List.mem_singleton.mp hpod
  have hdb : podOwner (ctxOf sharedShop shopOptions) sharedPod = some ⟨"Deployment", "shop", "db"⟩ := rfl
  have howner := podOwner_iff.mpr hcredited
  rw [hdb, Option.some.injEq] at howner
  have hne : "db" ≠ "web" := by decide
  exact hne (congrArg Key.name howner)

end Nix2Rdf.K8s
