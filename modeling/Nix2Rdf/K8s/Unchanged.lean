import Nix2Rdf.K8s.Canonical
import Nix2Rdf.Hash
import Nix2Rdf.Nquads

/-!
# Unchanged clusters

The same cluster may be listed in another order, with its members in another order, and with other
values in the fields that normalization removes. What is built of it stays the same, but for the bounds
of disruption budgets, which are printed with their members as they stand.
-/

namespace Nix2Rdf.K8s

open Triple

/-! ## The order of objects -/

theorem indexOf_perm {objects objects' : List Json} (hperm : objects.Perm objects')
    (h : (objects.map keyOf).Nodup) : indexOf objects' = indexOf objects := by
  have h' : (objects'.map keyOf).Nodup := (hperm.map keyOf).nodup_iff.mp h
  have hindex : (indexOf objects').1 = (indexOf objects).1 := by
    apply Std.ExtTreeMap.ext_getElem?
    intro k
    apply Option.ext
    intro o
    rw [indexOf_eq_some_iff h', indexOf_eq_some_iff h, hperm.mem_iff]
  have hmeta : (indexOf objects').2 = (indexOf objects).2 := by
    apply Std.ExtTreeMap.ext_getElem?
    intro n
    rw [nsMeta_eq, nsMeta_eq, hindex]
  exact Prod.ext hindex hmeta

/-! ## The order of pods -/

section Pods

variable (ctx : Ctx)

/-- How many pods of an owner run on a node, when any do. -/
def countAt (acc : KeyMap (BTreeMap Int)) (owner : Key) (node : String) : Option Int :=
  (acc[owner]?.getD ∅)[node]?

/-- The pod counts for the owner on the node. -/
def CountsFor (owner : Key) (node : String) (pod : Json) : Prop :=
  podOwner ctx pod = some owner ∧ s pod ["spec", "nodeName"] = some node

instance (owner : Key) (node : String) (pod : Json) : Decidable (CountsFor ctx owner node pod) :=
  inferInstanceAs (Decidable (_ ∧ _))

def bump (owner : Key) (node : String) (count : Option Int) (pod : Json) : Option Int :=
  if CountsFor ctx owner node pod then some (count.getD 0 + 1) else count

theorem countAt_placed (acc : KeyMap (BTreeMap Int)) (pod : Json) (owner : Key) (node : String) :
    countAt (placed ctx acc pod) owner node = bump ctx owner node (countAt acc owner node) pod := by
  rw [placed, bump]
  cases howner : podOwner ctx pod with
  | none => simp [CountsFor, howner]
  | some o =>
      cases hnode : s pod ["spec", "nodeName"] with
      | none => simp [CountsFor, hnode]
      | some n =>
          have hcounts : CountsFor ctx owner node pod ↔ o = owner ∧ n = node := by
            rw [CountsFor, howner, hnode, Option.some.injEq, Option.some.injEq]
          simp only [hcounts, countAt, Std.ExtTreeMap.getElem?_insert, Std.LawfulEqCmp.compare_eq_iff_eq]
          by_cases ho : o = owner
          · subst ho
            simp only [if_true, Option.getD_some, Std.ExtTreeMap.getElem?_insert, Std.LawfulEqCmp.compare_eq_iff_eq,
              true_and]
            by_cases hn : n = node
            · simp [hn]
            · simp [hn]
          · simp [ho]

theorem countAt_placement (pods : List Json) (owner : Key) (node : String) :
    countAt (placement ctx pods) owner node = pods.foldl (bump ctx owner node) none := by
  have hfold : ∀ acc, countAt (pods.foldl (placed ctx) acc) owner node =
      pods.foldl (bump ctx owner node) (countAt acc owner node) := by
    induction pods with
    | nil => exact fun _ => rfl
    | cons pod pods ih =>
        intro acc
        rw [List.foldl_cons, List.foldl_cons, ih, countAt_placed]
  refine (hfold ∅).trans ?_
  simp [countAt]

theorem placement_perm {pods pods' : List Json} (h : pods.Perm pods') (owner : Key) :
    (placement ctx pods')[owner]?.getD ∅ = (placement ctx pods)[owner]?.getD ∅ := by
  apply Std.ExtTreeMap.ext_getElem?
  intro node
  have hcomm : RightCommutative (bump ctx owner node) := by
    constructor
    intro count p q
    unfold bump
    split <;> split <;> rfl
  exact (countAt_placement ctx pods' owner node).trans
    ((h.symm.foldl_eq none).trans (countAt_placement ctx pods owner node).symm)

/-- The digests that are known for a container of an owner. -/
def digestsAt (acc : KeyMap (BTreeMap (List String))) (owner : Key) (container : String) : List String :=
  (acc[owner]?.getD ∅)[container]?.getD []

/-- The pod of the owner reports that the container has pulled the digest. -/
def Reports (owner : Key) (container hex : String) (pod : Json) : Prop :=
  podOwner ctx pod = some owner ∧ ∃ cs ∈ statusesOf pod,
    (s cs ["imageID"]).bind pulledDigest = some hex ∧ (s cs ["name"]).getD "" = container

theorem mem_digestsAt_addStatus (owner : Key) (acc : KeyMap (BTreeMap (List String)))
    (r : Option String × Option String) (owner' : Key) (container hex : String) :
    hex ∈ digestsAt (addStatus owner acc r) owner' container ↔ hex ∈ digestsAt acc owner' container ∨
      (owner = owner' ∧ r.1.bind pulledDigest = some hex ∧ r.2.getD "" = container) := by
  rw [addStatus]
  cases hdigest : r.1.bind pulledDigest with
  | none => simp
  | some hex' =>
      simp only [digestsAt, Std.ExtTreeMap.getElem?_insert, Std.LawfulEqCmp.compare_eq_iff_eq]
      by_cases ho : owner = owner'
      · subst ho
        simp only [if_true, Option.getD_some, Std.ExtTreeMap.getElem?_insert, Std.LawfulEqCmp.compare_eq_iff_eq]
        by_cases hc : r.2.getD "" = container
        · simp [hc, eq_comm]
        · simp [hc]
      · simp [ho]

theorem mem_digestsAt_statuses (owner : Key) (l : List Json) (acc : KeyMap (BTreeMap (List String)))
    (owner' : Key) (container hex : String) :
    hex ∈ digestsAt (l.foldl (fun acc cs => addStatus owner acc (s cs ["imageID"], s cs ["name"])) acc)
      owner' container ↔ hex ∈ digestsAt acc owner' container ∨ (owner = owner' ∧ ∃ cs ∈ l,
        (s cs ["imageID"]).bind pulledDigest = some hex ∧ (s cs ["name"]).getD "" = container) := by
  induction l generalizing acc with
  | nil => simp
  | cons cs l ih =>
      rw [List.foldl_cons, ih, mem_digestsAt_addStatus]
      simp only [List.exists_mem_cons_iff, and_or_left, or_assoc]

theorem mem_digestsAt_pulledBy (acc : KeyMap (BTreeMap (List String))) (pod : Json) (owner : Key)
    (container hex : String) :
    hex ∈ digestsAt (pulledBy ctx acc pod) owner container ↔
      hex ∈ digestsAt acc owner container ∨ Reports ctx owner container hex pod := by
  rw [pulledBy, Reports]
  cases podOwner ctx pod with
  | none => simp
  | some o =>
      refine (mem_digestsAt_statuses o (statusesOf pod) acc owner container hex).trans ?_
      rw [Option.some.injEq]

theorem mem_digestsAt_pulled (pods : List Json) (owner : Key) (container hex : String) :
    hex ∈ digestsAt (pulled ctx pods) owner container ↔ ∃ pod ∈ pods, Reports ctx owner container hex pod := by
  have hfold : ∀ acc, hex ∈ digestsAt (pods.foldl (pulledBy ctx) acc) owner container ↔
      hex ∈ digestsAt acc owner container ∨ ∃ pod ∈ pods, Reports ctx owner container hex pod := by
    induction pods with
    | nil => simp
    | cons pod pods ih =>
        intro acc
        rw [List.foldl_cons, ih, mem_digestsAt_pulledBy, List.exists_mem_cons_iff, or_assoc]
  refine (hfold ∅).trans ?_
  simp [digestsAt]

end Pods

theorem btreeSet_congr {l l' : List String} (h : ∀ e, e ∈ l' ↔ e ∈ l) : btreeSet l' = btreeSet l := by
  have hset : Std.ExtTreeSet.ofList l' compare = Std.ExtTreeSet.ofList l compare := by
    apply Std.ExtTreeSet.ext_mem
    intro e
    simp only [Std.ExtTreeSet.mem_ofList, List.contains_iff_mem, h]
  rw [btreeSet, btreeSet, hset]

theorem containerSpecs_digests (ctx : Ctx) (w : Json) (wi : Iri) {pulled pulled' : BTreeMap (List String)}
    (h : ∀ container hex : String, hex ∈ pulled'[container]?.getD [] ↔ hex ∈ pulled[container]?.getD []) :
    containerSpecs ctx w wi pulled' = containerSpecs ctx w wi pulled := by
  have hdigests : ∀ image container : String, digestsOf image (pulled'[container]?.getD []) =
      digestsOf image (pulled[container]?.getD []) := by
    intro image container
    refine btreeSet_congr fun e => ?_
    rw [List.mem_append, List.mem_append, h]
  have hcontainer : containerTriples ctx w wi pulled' = containerTriples ctx w wi pulled := by
    funext init c
    simp only [containerTriples, hdigests]
  simp only [containerSpecs, hcontainer]

/-- The counts and digests of the pods enter through the owner only. -/
theorem objectTriples_pods (ctx : Ctx) {counts counts' : KeyMap (BTreeMap Int)}
    {digests digests' : KeyMap (BTreeMap (List String))}
    (hcounts : ∀ key : Key, counts'[key]?.getD ∅ = counts[key]?.getD ∅)
    (hdigests : ∀ key container hex, hex ∈ digestsAt digests' key container ↔ hex ∈ digestsAt digests key container)
    (snap : Iri) (e : Key × Json) : objectTriples ctx counts' digests' snap e =
      objectTriples ctx counts digests snap e := by
  have hspecs : ∀ (key : Key) w wi, containerSpecs ctx w wi (digests'[key]?.getD ∅) =
      containerSpecs ctx w wi (digests[key]?.getD ∅) :=
    fun key w wi => containerSpecs_digests ctx w wi (hdigests key)
  have hworkload : workloadTriples ctx counts' digests' = workloadTriples ctx counts digests := by
    funext key nsopt oi o
    simp only [workloadTriples, hcounts, hspecs]
  simp only [objectTriples, kindTriples, hworkload]

/-! ## The order of everything -/

theorem ofTriples_congr {kind : FragmentKind} {ts ts' : List Triple} (h : ∀ t, t ∈ ts' ↔ t ∈ ts) :
    Fragment.ofTriples kind ts' = Fragment.ofTriples kind ts := by
  rw [Fragment.ofTriples, Fragment.ofTriples, Fragment.mk.injEq]
  refine ⟨rfl, Finset.ext fun t => ?_⟩
  rw [List.mem_toFinset, List.mem_toFinset, h]

/-- The two inputs list the same objects, pods and failures. -/
structure Relisted (a b : SnapshotInput) : Prop where
  objects : a.objects.Perm b.objects
  pods : a.pods.Perm b.pods
  failed : ∀ k, k ∈ b.failedKinds ↔ k ∈ a.failedKinds

theorem mem_failed {snap : Iri} {failed : List String} {t : Triple} :
    t ∈ (if failed.isEmpty then [] else
      addBool snap (k8s "partial") true :: failed.map fun fk => addStr snap (k8s "failedKind") fk) ↔
    ∃ fk ∈ failed, t = addBool snap (k8s "partial") true ∨ t = addStr snap (k8s "failedKind") fk := by
  cases failed with
  | nil => simp
  | cons fk fks =>
      rw [List.isEmpty_cons, if_neg Bool.false_ne_true, List.mem_cons, List.mem_map]
      constructor
      · intro h
        rcases h with h | ⟨fk', hfk', rfl⟩
        · exact ⟨fk, List.mem_cons_self, .inl h⟩
        · exact ⟨fk', hfk', .inr rfl⟩
      · intro h
        obtain ⟨fk', hfk', h | h⟩ := h
        · exact .inl h
        · exact .inr ⟨fk', hfk', h.symm⟩

theorem mem_snapshotHead {ctx : Ctx} {a b : SnapshotInput} (h : ∀ k, k ∈ b.failedKinds ↔ k ∈ a.failedKinds)
    (state : StateKind) (snap : Iri) {t : Triple} :
    t ∈ snapshotHead ctx b state snap ↔ t ∈ snapshotHead ctx a state snap := by
  simp only [snapshotHead, List.mem_append, mem_failed, h]

theorem ctxOf_perm {a b : SnapshotInput} (h : a.objects.Perm b.objects) (hdistinct : (a.objects.map keyOf).Nodup)
    (opts : SnapshotOptions) : ctxOf b opts = ctxOf a opts := by
  show Ctx.mk opts.clusterId opts.labels (indexOf b.objects).1 (indexOf b.objects).2 =
    Ctx.mk opts.clusterId opts.labels (indexOf a.objects).1 (indexOf a.objects).2
  rw [indexOf_perm h hdistinct]

theorem pendingSnapshot_relisted {a b : SnapshotInput} (h : Relisted a b) (ctx : Ctx) (state : StateKind) :
    pendingSnapshot ctx b state = pendingSnapshot ctx a state := by
  have hdigests : ∀ key container hex, hex ∈ digestsAt (pulled ctx b.pods) key container ↔
      hex ∈ digestsAt (pulled ctx a.pods) key container := by
    intro key container hex
    rw [mem_digestsAt_pulled, mem_digestsAt_pulled]
    simp only [h.pods.mem_iff]
  have hobjects : objectTriples ctx (placement ctx b.pods) (pulled ctx b.pods) =
      objectTriples ctx (placement ctx a.pods) (pulled ctx a.pods) := by
    funext snap e
    exact objectTriples_pods ctx (placement_perm ctx h.pods) hdigests snap e
  simp only [pendingSnapshot, hobjects]
  refine ofTriples_congr fun t => ?_
  rw [List.mem_append, List.mem_append, mem_snapshotHead h.failed]

/-- The fragments and hashes of a snapshot, without the observation. -/
structure SameSnapshot (o o' : SnapshotOutput) : Prop where
  snapshot : o'.snapshot = o.snapshot
  nodes : o'.nodes = o.nodes
  snapshotHash : o'.snapshotHash = o.snapshotHash
  nodesHash : o'.nodesHash = o.nodesHash

/-- An observation at another time. -/
def SnapshotOptions.at (opts : SnapshotOptions) (observedAt : Option String) : SnapshotOptions :=
  { opts with observedAt }

variable {x : Extern} {now now' : String} {opts : SnapshotOptions}

/-- What the fragments and hashes are made of. -/
theorem sameSnapshot_of {a b : SnapshotInput} {opts' : SnapshotOptions} (hcid : opts'.clusterId = opts.clusterId)
    (hpending : pendingSnapshot (ctxOf b opts') b opts'.state = pendingSnapshot (ctxOf a opts) a opts.state)
    (hnodes : nodesFragment (ctxOf b opts') opts' = nodesFragment (ctxOf a opts) opts) :
    SameSnapshot (buildSnapshot x now a opts) (buildSnapshot x now' b opts') := by
  have hcid' : (ctxOf b opts').cid = (ctxOf a opts).cid := hcid
  have hsnapshot : ∀ f f' : Fragment, f' = f →
      (⟨.k8sSnapshot (ctxOf b opts').cid (contentHash x f'), rehash f' (contentHash x f')⟩ : Fragment) =
        ⟨.k8sSnapshot (ctxOf a opts).cid (contentHash x f), rehash f (contentHash x f)⟩ := by
    rintro f _ rfl
    rw [hcid']
  have hinventory : ∀ f f' : Fragment, f' = f →
      (⟨.k8sNodes (ctxOf b opts').cid (contentHash x f'), rehash f' (contentHash x f')⟩ : Fragment) =
        ⟨.k8sNodes (ctxOf a opts).cid (contentHash x f), rehash f (contentHash x f)⟩ := by
    rintro f _ rfl
    rw [hcid']
  exact ⟨hsnapshot _ _ hpending, hinventory _ _ hnodes, congrArg (contentHash x) hpending,
    congrArg (contentHash x) hnodes⟩

theorem buildSnapshot_relisted (x : Extern) (now now' : String) (opts : SnapshotOptions) {a b : SnapshotInput}
    (h : Relisted a b) (hdistinct : (a.objects.map keyOf).Nodup) (observedAt : Option String) :
    SameSnapshot (buildSnapshot x now a opts) (buildSnapshot x now' b (opts.at observedAt)) := by
  have hctx : ctxOf b (opts.at observedAt) = ctxOf a opts := ctxOf_perm h.objects hdistinct opts
  refine sameSnapshot_of ?_ ?_ ?_
  · rfl
  · rw [hctx]
    exact pendingSnapshot_relisted h _ _
  · rw [hctx]
    rfl

end Nix2Rdf.K8s
