import Nix2Rdf.Minting.Segments

/-!
# Minting the IRIs of a snapshot

The kind of an object and the generation of a node stand in IRIs as they are.
-/

namespace Nix2Rdf

open IriSyntax (valid Transparent)
open Text (slash)

namespace K8s

open Triple

theorem HexText.transparent {s : String} (hs : HexText s) : Transparent s := by
  refine IriSyntax.transparent_of_plain fun c hc => plain_alphanumeric ?_
  have hrange := hs c hc
  simp only [isAsciiAlphanumeric, Bool.or_eq_true, Bool.and_eq_true, decide_eq_true_eq]
  omega

theorem alphanumeric_terms : ∀ w ∈ "runsImage" :: "hostGeneration" :: snapshotTerms ++ classTerms,
    w.toList.all isAsciiAlphanumeric = true := by decide +kernel

variable {accepts : String → Bool} {ctx : Ctx}

theorem accepts_objIri (h : ParsesIris accepts) (kind : String) (ns : Option String) (name : String) :
    accepts (ctx.objIri kind ns name) = valid kind := by
  have hk8s := transparent_word "k8s" (by decide)
  have henc := transparent_encodeSegment
  have hraw : ∀ kind ns, accepts (Iri.k8sObj ctx.cid kind ns name) = valid kind := by
    intro kind ns
    have hpre : ∀ t ∈ ["k8s", encodeSegment ctx.cid], Transparent t := by simp [hk8s, henc]
    cases ns with
    | none =>
        have hpost : ∀ t ∈ [encodeSegment name], Transparent t := by simp [henc]
        have hsegs : ["k8s", encodeSegment ctx.cid, kind, encodeSegment name]
            = ["k8s", encodeSegment ctx.cid] ++ kind :: [encodeSegment name] := rfl
        rw [Iri.k8sObj, hsegs, h.id_slash hpre hpost]
    | some ns =>
        have hpost : ∀ t ∈ [encodeSegment ns, encodeSegment name], Transparent t := by simp [henc]
        have hsegs : ["k8s", encodeSegment ctx.cid, kind, encodeSegment ns, encodeSegment name]
            = ["k8s", encodeSegment ctx.cid] ++ kind :: [encodeSegment ns, encodeSegment name] := rfl
        rw [Iri.k8sObj, hsegs, h.id_slash hpre hpost]
  unfold Ctx.objIri
  split
  · rw [Iri.k8sNode, hraw]
    decide +kernel
  · rw [Iri.k8sNamespace, hraw]
    decide +kernel
  · exact hraw kind ns

theorem accepts_gen (h : ParsesIris accepts) (g : String) : accepts (Iri.gen g) = valid g := by
  have hsegs : ["gen", g] = ["gen"] ++ [g] := rfl
  rw [Iri.gen, hsegs, h.id_fixed ["gen"] (by decide) g]

theorem accepts_image (h : ParsesIris accepts) (d : String) : accepts (Iri.image d) = valid d := by
  have hsegs : ["oci", "sha256", d] = ["oci", "sha256"] ++ [d] := rfl
  rw [Iri.image, hsegs, h.id_fixed ["oci", "sha256"] (by decide) d]

theorem accepts_minted (h : ParsesIris accepts) (hkinds : ∀ e ∈ countedObjects ctx, valid e.1.kind = true) {i : Iri}
    (hi : Minted ctx i) : accepts i = true := by
  cases hi with
  | path segs => exact h.encoded segs
  | term hc => exact h.k8s (alphanumeric_terms _ (List.mem_append_right _ hc))
  | object he =>
      rw [Ctx.iriOf, accepts_objIri h]
      exact hkinds _ he

theorem accepted_described (h : ParsesIris accepts) (hkinds : ∀ e ∈ countedObjects ctx, valid e.1.kind = true)
    {gens : List String} (hgens : ∀ g ∈ gens, valid g = true) {t : Triple} (ht : Described ctx gens t) :
    t.Accepted accepts := by
  have hterm : ∀ w ∈ snapshotTerms, accepts (k8s w) = true := fun w hw =>
    h.k8s (alphanumeric_terms w (by simp [hw]))
  cases ht with
  | type hi hc => exact accepted_addIri.mpr ⟨accepts_minted h hkinds hi, h.rdfType,
      h.k8s (alphanumeric_terms _ (List.mem_append_right _ hc))⟩
  | lit hi hw hdt =>
      have hdatatype : ∀ dt ∈ ["string", "integer", "boolean"], dt.toList.all isAsciiAlphanumeric = true := by
        decide +kernel
      exact accepted_addTyped.mpr ⟨accepts_minted h hkinds hi, hterm _ hw, h.xsd (hdatatype _ hdt)⟩
  | ref hi hw ho => exact accepted_addIri.mpr ⟨accepts_minted h hkinds hi, hterm _ hw, accepts_minted h hkinds ho⟩
  | image hi hd =>
      refine accepted_addIri.mpr ⟨accepts_minted h hkinds hi, h.k8s (alphanumeric_terms _ (by simp)), ?_⟩
      rw [accepts_image h]
      exact hd.transparent.valid
  | generation hi hg =>
      refine accepted_addIri.mpr ⟨accepts_minted h hkinds hi, h.k8s (alphanumeric_terms _ (by simp)), ?_⟩
      rw [accepts_gen h]
      exact hgens _ hg

variable {x : Extern} {now : String} {input : SnapshotInput} {opts : SnapshotOptions}

/-- The graph of an inventory under a hash that is transparent. -/
theorem accepts_nodesFragment (h : ParsesIris accepts) (cluster : String) {hash : String} (hhash : Transparent hash) :
    accepts (Iri.k8sNodesFragment cluster hash) = true := by
  refine h.transparent fun s hs => ?_
  simp only [List.mem_cons, List.not_mem_nil, or_false] at hs
  rcases hs with rfl | rfl | rfl | rfl
  · exact transparent_word _ (by decide)
  · exact transparent_encodeSegment cluster
  · exact transparent_word _ (by decide)
  · exact hhash

theorem accepts_snapshot (h : ParsesIris accepts) (cluster : String) {hash : String} (hhash : Transparent hash) :
    accepts (Iri.k8sSnapshot cluster hash) = true := by
  refine h.transparent fun s hs => ?_
  simp only [List.mem_cons, List.not_mem_nil, or_false] at hs
  rcases hs with rfl | rfl | rfl | rfl
  · exact transparent_word _ (by decide)
  · exact transparent_encodeSegment cluster
  · exact transparent_word _ (by decide)
  · exact hhash

theorem accepts_observed (h : ParsesIris accepts) (cluster observedAt : String) {hash : String}
    (hhash : Transparent hash) : accepts (FragmentKind.k8sObserved cluster hash observedAt).graph = true := by
  have hrest : Transparent (slash [encodeSegment cluster, hash, encodeSegment observedAt]) := by
    refine transparent_slash fun s hs => ?_
    simp only [List.mem_cons, List.not_mem_nil, or_false] at hs
    rcases hs with rfl | rfl | rfl
    · exact transparent_encodeSegment cluster
    · exact hhash
    · exact transparent_encodeSegment observedAt
  refine h.transparent fun s hs => ?_
  simp only [List.mem_cons, List.not_mem_nil, or_false] at hs
  rcases hs with rfl | rfl | rfl
  · exact transparent_word _ (by decide)
  · exact transparent_word _ (by decide)
  · exact hrest

/-- What is minted for a snapshot, in the order it is. -/
theorem mintSnapshot_eq_ok : mintSnapshot accepts x now input opts = .ok (buildSnapshot x now input opts) ↔
    (accepts (nodesFragment (ctxOf input opts) opts).graph = true ∧
      ∀ t ∈ (nodesFragment (ctxOf input opts) opts).lines, t.Accepted accepts) ∧
    (accepts (pendingSnapshot (ctxOf input opts) input opts.state).graph = true ∧
      ∀ t ∈ (pendingSnapshot (ctxOf input opts) input opts.state).lines, t.Accepted accepts) ∧
    accepts (buildSnapshot x now input opts).snapshotIri = true ∧
    accepts (buildSnapshot x now input opts).observed.graph = true ∧
      ∀ t ∈ (buildSnapshot x now input opts).observed.lines, t.Accepted accepts := by
  simp only [mintSnapshot, Result.bind_eq_ok, mintFragment_eq_ok, nn_eq_ok, Result.pure_eq_ok]
  constructor
  · intro h
    obtain ⟨_, ⟨hnodes, _⟩, _, ⟨hpending, _⟩, _, ⟨hiri, _⟩, _, ⟨hobserved, _⟩, _⟩ := h
    exact ⟨hnodes, hpending, hiri, hobserved⟩
  · intro h
    obtain ⟨hnodes, hpending, hiri, hobserved⟩ := h
    exact ⟨_, ⟨hnodes, rfl⟩, _, ⟨hpending, rfl⟩, _, ⟨hiri, rfl⟩, _, ⟨hobserved, rfl⟩, trivial⟩

theorem valid_kind_of_accepted (h : ParsesIris accepts)
    (hlines : ∀ t ∈ (pendingSnapshot (ctxOf input opts) input opts.state).lines, t.Accepted accepts) {o : Json}
    (ho : o ∈ input.objects) (hok : Indexable o) (hkind : kind o ≠ "ReplicaSet") : valid (kind o) = true := by
  obtain ⟨o', ho'⟩ := exists_indexOf ho hok
  have he : (keyOf o, o') ∈ countedObjects (ctxOf input opts) := by
    refine List.mem_filter.mpr ⟨Std.ExtTreeMap.mem_toList_iff_getElem?_eq_some.mpr ho', ?_⟩
    exact decide_eq_true hkind
  have hmem : addIri (FragmentKind.k8sSnapshot (ctxOf input opts).cid placeholder).graph (k8s "contains")
      ((ctxOf input opts).iriOf (keyOf o)) ∈ (pendingSnapshot (ctxOf input opts) input opts.state).lines := by
    refine Fragment.mem_ofTriples.mpr (List.mem_append_right _ (List.mem_flatMap.mpr ⟨_, he, ?_⟩))
    simp only [objectTriples, List.mem_append, List.mem_cons, true_or]
  have hiri := (accepted_addIri.mp (hlines _ hmem)).2.2
  rw [Ctx.iriOf, accepts_objIri h] at hiri
  exact hiri

theorem valid_generation_of_accepted (h : ParsesIris accepts)
    (hlines : ∀ t ∈ (nodesFragment ctx opts).lines, t.Accepted accepts) {node : Json}
    (hnode : node ∈ ctx.ofKind "Node") {g : String} (hg : g ∈ generationOf ctx opts node) : valid g = true := by
  have hmem : addIri (Iri.k8sNode ctx.cid (name node)) (k8s "hostGeneration") (Iri.gen g)
      ∈ (nodesFragment ctx opts).lines := by
    refine Fragment.mem_ofTriples.mpr (List.mem_flatMap.mpr ⟨node, hnode, List.mem_append_right _ ?_⟩)
    exact List.mem_map_of_mem (Option.mem_toList.mpr hg)
  have hiri := (accepted_addIri.mp (hlines _ hmem)).2.2
  rw [accepts_gen h] at hiri
  exact hiri

theorem valid_counted (hkinds : ∀ o ∈ input.objects, Indexable o → kind o ≠ "ReplicaSet" → valid (kind o) = true) :
    ∀ e ∈ countedObjects (ctxOf input opts), valid e.1.kind = true := by
  intro e he
  obtain ⟨he, hreplica⟩ := List.mem_filter.mp he
  obtain ⟨ho, hkey, hok⟩ := of_mem_index (Std.ExtTreeMap.mem_toList_iff_getElem?_eq_some.mp he)
  have hkind := kind_of_mem_index he
  rw [← hkind]
  refine hkinds _ ho hok ?_
  rw [hkind]
  exact of_decide_eq_true hreplica

/-- A snapshot is built exactly when the kinds of its objects and the generations of its nodes are
valid segments. -/
theorem mintSnapshot_ok_iff (h : ParsesIris accepts) (hx : ∀ bs, HexText (x.sha256Hex bs)) :
    mintSnapshot accepts x now input opts = .ok (buildSnapshot x now input opts) ↔
      (∀ o ∈ input.objects, Indexable o → kind o ≠ "ReplicaSet" → valid (kind o) = true) ∧
      ∀ node ∈ (ctxOf input opts).ofKind "Node", ∀ g ∈ generationOf (ctxOf input opts) opts node, valid g = true := by
  rw [mintSnapshot_eq_ok]
  constructor
  · intro hall
    obtain ⟨⟨_, hnodes⟩, ⟨_, hpending⟩, _⟩ := hall
    exact ⟨fun o ho hok hkind => valid_kind_of_accepted h hpending ho hok hkind,
      fun node hnode g hg => valid_generation_of_accepted h hnodes hnode hg⟩
  · intro hall
    obtain ⟨hkinds, hgens⟩ := hall
    have hcounted : ∀ e ∈ countedObjects (ctxOf input opts), valid e.1.kind = true := valid_counted hkinds
    have hplaceholder : Transparent placeholder := transparent_word _ (by decide)
    have hhash : ∀ bs, Transparent (x.sha256Hex bs) := fun bs => (hx bs).transparent
    refine ⟨⟨accepts_nodesFragment h _ hplaceholder, fun t ht => ?_⟩,
      ⟨accepts_snapshot h _ hplaceholder, fun t ht => ?_⟩, accepts_snapshot h _ (hhash _),
      accepts_observed h _ _ (hhash _), fun t ht => ?_⟩
    · obtain ⟨node, hnode, ht⟩ := List.mem_flatMap.mp (Fragment.mem_ofTriples.mp ht)
      refine accepted_described h hcounted (fun g hg => hgens node hnode g ?_) (described_node ht)
      exact Option.mem_toList.mp hg
    · exact accepted_described h hcounted (fun g hg => by cases hg) (pendingSnapshot_described ht)
    · have hsnap := accepts_snapshot h (ctxOf input opts).cid (hhash
        (Encoding.utf8 (pendingSnapshot (ctxOf input opts) input opts.state).toNquads))
      simp only [buildSnapshot, Fragment.mem_ofTriples, List.mem_cons, List.not_mem_nil, or_false] at ht
      rcases ht with rfl | rfl
      · exact accepted_addTyped.mpr ⟨hsnap, h.k8s (by decide +kernel), h.xsd (by decide +kernel)⟩
      · exact accepted_addIri.mpr ⟨hsnap, h.nix (by decide +kernel), accepts_nodesFragment h _ (hhash _)⟩

end K8s

end Nix2Rdf
