import Nix2Rdf.Minting.Snapshots

/-!
# Minting the IRIs of lock graphs and images

The algorithm of a NAR hash and the digests of images stand in IRIs as they are. Everything else is
encoded, so that minting panics for nothing else.
-/

namespace Nix2Rdf

open IriSyntax (valid Transparent)

/-! ## Lock graphs -/

/-- The program has not panicked for an IRI. -/
def Mints {α : Type} (r : Result α) : Prop := r ≠ .error panicText

theorem ok_bind {α β : Type} (a : α) (f : α → Result β) : (Except.ok a : Result α) >>= f = f a := rfl

theorem error_bind {α β : Type} (e : String) (f : α → Result β) :
    (Except.error e : Result α) >>= f = .error e := rfl

theorem Mints.bind {α β : Type} {r : Result α} {f : α → Result β} (hr : Mints r)
    (hf : ∀ a, r = .ok a → Mints (f a)) : Mints (r >>= f) := by
  cases r with
  | ok a => exact hf a rfl
  | error e => exact fun h => hr (congrArg Except.error (Except.error.inj h))

theorem Mints.mapM {α β : Type} {f : α → Result β} {l : List α} (hf : ∀ a ∈ l, Mints (f a)) : Mints (l.mapM f) := by
  induction l with
  | nil => exact fun h => by cases h
  | cons a l ih =>
      rw [List.mapM_cons]
      refine (hf a List.mem_cons_self).bind fun b _ => Mints.bind ?_ fun bs _ h => by cases h
      exact ih fun a ha => hf a (List.mem_cons_of_mem _ ha)

section Lock

variable {accepts : String → Bool}

theorem mints_nn {is : List Iri} (h : ∀ i ∈ is, accepts i = true) : Mints (is.mapM (nn accepts)) := by
  refine Mints.mapM fun i hi => ?_
  rw [nn_eq_ok.mpr ⟨h i hi, rfl⟩]
  exact fun h => by cases h

theorem not_mints_nn {is : List Iri} {i : Iri} (hi : i ∈ is) (h : accepts i = false) :
    is.mapM (nn accepts) = .error panicText := by
  have hnn : ∀ i, accepts i = false → nn accepts i = .error panicText := by
    intro i h
    unfold nn
    rw [h]
    rfl
  induction is with
  | nil => cases hi
  | cons j is ih =>
      rw [List.mapM_cons]
      cases hj : accepts j with
      | false =>
          rw [hnn j hj]
          rfl
      | true =>
          rw [nn_eq_ok.mpr ⟨hj, rfl⟩]
          rcases List.mem_cons.mp hi with rfl | hi
          · rw [h] at hj
            cases hj
          · have hrest := ih hi
            exact congrArg (fun r => Except.ok j >>= fun _ => r >>= fun is => pure (j :: is)) hrest

end Lock

section Terms

open Triple

variable {accepts : String → Bool}

/-- The terms of lock graphs and of images. -/
def nixTerms : List String :=
  ["FlakePin", "narHash", "lockedType", "rev", "ref", "lockedOwner", "lockedRepo", "lockedUrl", "lockedDir",
    "lastModified", "FlakeInput", "name", "locksInput", "lockNodeId", "pinnedTo", "originalRef", "isFlake",
    "follows", "Image", "Snapshot", "digest", "imageTool", "imageName", "imageTag", "imageDerivation", "hasRoot",
    "closureContains", "hasLayer", "layerIndex", "Layer", "mediaType", "layerContains", "Output", "storePath"]

theorem alphanumeric_nixTerms : ∀ w ∈ nixTerms, w.toList.all isAsciiAlphanumeric = true := by decide

/-- A triple with one of these terms whose entities are accepted. -/
inductive NixTriple (accepts : String → Bool) : Triple → Prop
  | type {i : Iri} {c : String} : accepts i = true → c ∈ nixTerms → NixTriple accepts (addType i (nix c))
  | lit {i : Iri} {w v dt : String} : accepts i = true → w ∈ nixTerms → dt ∈ ["string", "integer", "boolean"] →
      NixTriple accepts (addTyped i (nix w) v (xsd dt))
  | ref {i o : Iri} {w : String} : accepts i = true → w ∈ nixTerms → accepts o = true →
      NixTriple accepts (addIri i (nix w) o)

theorem NixTriple.accepted (h : ParsesIris accepts) {t : Triple} (ht : NixTriple accepts t) : t.Accepted accepts := by
  cases ht with
  | type hi hc => exact accepted_addIri.mpr ⟨hi, h.rdfType, h.nix (alphanumeric_nixTerms _ hc)⟩
  | lit hi hw hdt =>
      have hdatatype : ∀ dt ∈ ["string", "integer", "boolean"], dt.toList.all isAsciiAlphanumeric = true := by
        decide
      exact accepted_addTyped.mpr ⟨hi, h.nix (alphanumeric_nixTerms _ hw), h.xsd (hdatatype _ hdt)⟩
  | ref hi hw ho => exact accepted_addIri.mpr ⟨hi, h.nix (alphanumeric_nixTerms _ hw), ho⟩

end Terms

namespace Flake

open Triple

section

variable {accepts : String → Bool}

/-- The NAR hash of a node that is locked. -/
def Lock.narOf (k : Lock) (nodeId : String) : Option String :=
  if nodeId = k.rootId then none else ((k.node nodeId).get? "locked").bind (strOf · "narHash")

theorem accepts_pin (h : ParsesIris accepts) (nar : String) : accepts (Iri.pin nar) = valid (narHashSegment nar) := by
  have hsegs : ["pin", narHashSegment nar] = ["pin"] ++ [narHashSegment nar] := rfl
  rw [Iri.pin, hsegs, h.id_fixed ["pin"] (by decide)]

theorem accepts_flakeInput (h : ParsesIris accepts) (nar nodeId name : String) :
    accepts (Iri.flakeInput nar nodeId name) = valid (narHashSegment nar) := by
  have hpre : ∀ t ∈ ["pin"], Transparent t := by simpa using transparent_word "pin" (by decide)
  have hpost : ∀ t ∈ ["input", encodeSegment nodeId, encodeSegment name], Transparent t := by
    simp [transparent_word "input" (by decide), transparent_encodeSegment]
  have hsegs : ["pin", narHashSegment nar, "input", encodeSegment nodeId, encodeSegment name]
      = ["pin"] ++ narHashSegment nar :: ["input", encodeSegment nodeId, encodeSegment name] := rfl
  rw [Iri.flakeInput, hsegs, h.id_slash hpre hpost]

theorem nixTriple_addPin {pin : Iri} (hpin : accepts pin = true) {locked : Json} {t : Triple}
    (ht : t ∈ addPin pin locked) : NixTriple accepts t := by
  simp only [addPin, List.mem_append, List.mem_cons, List.not_mem_nil, or_false, List.mem_map] at ht
  rcases ht with ((((((((rfl | ⟨_, _, rfl⟩) | ⟨_, _, rfl⟩) | ⟨_, _, rfl⟩) | ⟨_, _, rfl⟩) | ⟨_, _, rfl⟩) |
    ⟨_, _, rfl⟩) | ⟨_, _, rfl⟩) | ⟨_, _, rfl⟩) | ⟨_, _, rfl⟩
  · exact .type hpin (by decide)
  · exact .lit hpin (by decide) (by decide)
  · exact .lit hpin (by decide) (by decide)
  · exact .lit hpin (by decide) (by decide)
  · exact .lit hpin (by decide) (by decide)
  · exact .lit hpin (by decide) (by decide)
  · exact .lit hpin (by decide) (by decide)
  · exact .lit hpin (by decide) (by decide)
  · exact .lit hpin (by decide) (by decide)
  · exact .lit hpin (by decide) (by decide)

/-- The algorithms of the root and of every locked node are valid segments. -/
def Lock.PinsValid (k : Lock) : Prop :=
  (∀ algo, AlgorithmOf k.rootNar algo → valid algo = true) ∧
    ∀ nodeId ∈ k.nodes.keys, ∀ nar ∈ k.narOf nodeId, ∀ algo, AlgorithmOf nar algo → valid algo = true

variable {k : Lock} {depth : Nat}

theorem pinOf_eq_some {nodeId : String} {pin : Iri} (hpin : k.pinOf nodeId = some pin) :
    pin = Iri.pin k.rootNar ∨ ∃ nar ∈ k.narOf nodeId, pin = Iri.pin nar := by
  unfold Lock.pinOf at hpin
  split at hpin
  · cases hpin
  · split at hpin
    · exact .inl (Option.some.inj hpin).symm
    · rename_i hroot
      obtain ⟨nar, hnar, heq⟩ := Option.map_eq_some_iff.mp hpin
      refine .inr ⟨nar, ?_, heq.symm⟩
      rw [Lock.narOf, if_neg hroot]
      exact hnar

theorem pinOf_of_narOf {nodeId nar : String} (hkey : nodeId ∈ k.nodes.keys) (hnar : nar ∈ k.narOf nodeId) :
    k.pinOf nodeId = some (Iri.pin nar) := by
  unfold Lock.narOf at hnar
  split at hnar
  · cases hnar
  · rename_i hroot
    rw [Lock.pinOf, if_neg (not_not.mpr hkey), if_neg hroot, hnar]
    rfl

/-- What is minted for the pins is accepted. -/
theorem pins_accepted_iff (h : ParsesIris accepts) : k.PinsValid ↔
    ∀ i ∈ Iri.pin k.rootNar :: k.nodes.keys.filterMap k.pinOf, accepts i = true := by
  constructor
  · intro hv i hi
    have hroot : accepts (Iri.pin k.rootNar) = true := by
      rw [accepts_pin h]
      exact valid_narHashSegment.mpr hv.1
    rcases List.mem_cons.mp hi with rfl | hi
    · exact hroot
    · obtain ⟨nodeId, hkey, hpin⟩ := List.mem_filterMap.mp hi
      rcases pinOf_eq_some hpin with rfl | ⟨nar, hnar, rfl⟩
      · exact hroot
      · rw [accepts_pin h]
        exact valid_narHashSegment.mpr (hv.2 nodeId hkey nar hnar)
  · intro hall
    constructor
    · rw [← valid_narHashSegment, ← accepts_pin h]
      exact hall _ List.mem_cons_self
    · intro nodeId hkey nar hnar
      rw [← valid_narHashSegment, ← accepts_pin h]
      exact hall _ (List.mem_cons_of_mem _ (List.mem_filterMap.mpr ⟨nodeId, hkey, pinOf_of_narOf hkey hnar⟩))

/-- The IRIs that the triples of a lock graph are made of. -/
structure PinsAccepted (accepts : String → Bool) (k : Lock) : Prop where
  pin : ∀ nodeId pin, k.pinOf nodeId = some pin → accepts pin = true
  input : ∀ nodeId name, accepts (Iri.flakeInput k.rootNar nodeId name) = true

theorem pinsAccepted (h : ParsesIris accepts)
    (hall : ∀ i ∈ Iri.pin k.rootNar :: k.nodes.keys.filterMap k.pinOf, accepts i = true) :
    PinsAccepted accepts k where
  pin nodeId pin hpin := by
    have hkey : nodeId ∈ k.nodes.keys := by
      by_contra hkey
      rw [Lock.pinOf, if_pos hkey] at hpin
      cases hpin
    exact hall pin (List.mem_cons_of_mem _ (List.mem_filterMap.mpr ⟨nodeId, hkey, hpin⟩))
  input nodeId name := by
    rw [accepts_flakeInput h, ← accepts_pin h]
    exact hall _ List.mem_cons_self

theorem nixTriple_target (hp : PinsAccepted accepts k) {input : Iri} (hi : accepts input = true) {target : String}
    {t : Triple} (ht : t ∈ k.targetTriples input target) : NixTriple accepts t := by
  simp only [Lock.targetTriples, List.mem_cons, List.mem_append, List.mem_map, Option.mem_toList] at ht
  rcases ht with (rfl | ⟨tp, htp, rfl⟩) | ht
  · exact .lit hi (by decide) (by decide)
  · exact .ref hi (by decide) (hp.pin target tp htp)
  · split at ht
    · cases ht
    · simp only [List.mem_append, List.mem_map, Option.mem_toList] at ht
      rcases ht with ⟨_, _, rfl⟩ | ht
      · exact .lit hi (by decide) (by decide)
      · split at ht
        · rw [List.mem_singleton.mp ht]
          exact .lit hi (by decide) (by decide)
        · cases ht

theorem nixTriple_value (hp : PinsAccepted accepts k) {input : Iri} (hi : accepts input = true) {v : Json}
    {ts : List Triple} (h : k.valueTriples depth input v = .ok ts) {t : Triple} (ht : t ∈ ts) :
    NixTriple accepts t := by
  unfold Lock.valueTriples at h
  split at h
  · cases h
    exact nixTriple_target hp hi ht
  · unfold Lock.followsTriples at h
    split at h
    · cases h
    · cases h
      cases ht
    · cases h
      rw [List.mem_singleton.mp ht]
      exact .ref hi (by decide) (hp.input _ _)
  · cases h
    cases ht

theorem nixTriple_node (hp : PinsAccepted accepts k) {nodeId : String} {ts : List Triple}
    (h : k.nodeTriples depth nodeId = .ok ts) {t : Triple} (ht : t ∈ ts) : NixTriple accepts t := by
  unfold Lock.nodeTriples at h
  split at h
  · cases h
    cases ht
  · rename_i pin hpin
    have hpinOk := hp.pin nodeId pin hpin
    obtain ⟨inputs, hinputs, heq⟩ := Result.bind_eq_ok.mp h
    cases heq
    rcases List.mem_append.mp ht with ht | ht
    · cases hlocked : k.lockedOf nodeId with
      | none =>
          rw [hlocked] at ht
          cases ht
      | some locked =>
          rw [hlocked] at ht
          exact nixTriple_addPin hpinOk ht
    · obtain ⟨us, hus, ht⟩ := List.mem_flatten.mp ht
      obtain ⟨entry, _, hentry⟩ := Result.mem_of_mapM hinputs hus
      obtain ⟨target, htarget, heq⟩ := Result.bind_eq_ok.mp hentry
      cases heq
      have hi := hp.input nodeId entry.1
      simp only [List.cons_append, List.nil_append, List.mem_cons] at ht
      rcases ht with rfl | rfl | rfl | ht
      · exact .type hi (by decide)
      · exact .lit hi (by decide) (by decide)
      · exact .ref hpinOk (by decide) hi
      · exact nixTriple_value hp hi htarget ht

theorem mints_nodeTriples (nodeId : String) : Mints (k.nodeTriples depth nodeId) := by
  have hvalue : ∀ input v, Mints (k.valueTriples depth input v) := by
    intro input v
    unfold Lock.valueTriples
    split
    · exact fun h => by cases h
    · unfold Lock.followsTriples
      split
      · intro h
        have htext : "stack overflow" ≠ panicText := by decide
        exact htext (Except.error.inj h)
      · exact fun h => by cases h
      · exact fun h => by cases h
    · exact fun h => by cases h
  unfold Lock.nodeTriples
  split
  · exact fun h => by cases h
  · refine Mints.bind (Mints.mapM fun entry _ => ?_) fun _ _ h => by cases h
    exact (hvalue _ _).bind fun _ _ h => by cases h

theorem mints_lockOf (metadata : Json) (rootNar : String) : Mints (lockOf metadata rootNar) := by
  have hlocks : "flake metadata has no locks" ≠ panicText := by decide
  have hnodes : "flake.lock has no nodes" ≠ panicText := by decide
  unfold lockOf
  split
  · exact fun h => hlocks (Except.error.inj h)
  · split
    · exact fun h => hnodes (Except.error.inj h)
    · exact fun h => by cases h

theorem rootNar_of_lockOf {metadata : Json} {rootNar : String} (hk : lockOf metadata rootNar = .ok k) :
    k.rootNar = rootNar := by
  unfold lockOf at hk
  split at hk
  · cases hk
  · split at hk
    · cases hk
    · cases hk
      rfl

/-- A lock graph is written without a panic exactly when the algorithms of its NAR hashes are valid
segments. -/
theorem mintLockGraph_iff (h : ParsesIris accepts) {metadata : Json} {rootNar : String} :
    Mints (mintLockGraph accepts depth metadata rootNar) ↔
      ∀ k, lockOf metadata rootNar = .ok k → k.PinsValid := by
  unfold mintLockGraph
  constructor
  · intro hm k hk
    rw [pins_accepted_iff h]
    intro i hi
    cases hi' : accepts i with
    | true => rfl
    | false =>
        rw [rootNar_of_lockOf hk] at hi
        rw [hk, ok_bind, not_mints_nn hi hi', error_bind] at hm
        exact (hm rfl).elim
  · intro hv
    refine (mints_lockOf metadata rootNar).bind fun k hk => ?_
    have hpins := (pins_accepted_iff h).mp (hv k hk)
    have hp := pinsAccepted h hpins
    rw [rootNar_of_lockOf hk] at hpins
    refine (mints_nn hpins).bind fun _ _ => Mints.bind (Mints.mapM fun nodeId _ => ?_) fun _ _ h => by cases h
    refine (mints_nodeTriples nodeId).bind fun ts hts => Mints.bind (mints_nn fun i hi => ?_) fun _ _ h => by cases h
    obtain ⟨t, ht, hi⟩ := List.mem_flatMap.mp hi
    exact (nixTriple_node hp hts ht).accepted h i hi

end

end Flake

/-! ## Images -/

namespace Extract

open Triple

variable {accepts : String → Bool}

theorem accepts_layer (h : ParsesIris accepts) (d : String) : accepts (Iri.layer d) = valid d := by
  have hsegs : ["oci", "layer", "sha256", d] = ["oci", "layer", "sha256"] ++ [d] := rfl
  rw [Iri.layer, hsegs, h.id_fixed ["oci", "layer", "sha256"] (by decide)]

theorem accepts_drv (h : ParsesIris accepts) (hash : String) : accepts (Iri.drv hash) = valid hash := by
  have hsegs : ["drv", hash] = ["drv"] ++ [hash] := rfl
  rw [Iri.drv, hsegs, h.id_fixed ["drv"] (by decide)]

theorem accepts_out (h : ParsesIris accepts) {path hash : String} (hpath : storePathHash path = some hash) :
    accepts (Iri.out hash) = true := by
  have hsegs : ["out", hash] = ["out"] ++ [hash] := rfl
  rw [Iri.out, hsegs, h.id_fixed ["out"] (by decide)]
  obtain ⟨parts, _, hparts⟩ := Option.bind_eq_some_iff.mp hpath
  split at hparts
  · rename_i halnum
    cases hparts
    exact (transparent_alphanumeric halnum.2).valid
  · cases hparts

theorem nixTriple_layer (h : ParsesIris accepts) {img : Iri} (himg : accepts img = true) {layer : LayerDesc × Nat}
    (hl : valid layer.1.digestHex = true) {t : Triple} (ht : t ∈ layerTriples img layer) : NixTriple accepts t := by
  have hlayer : accepts (Iri.layer layer.1.digestHex) = true := by
    rw [accepts_layer h]
    exact hl
  simp only [layerTriples, List.mem_append, List.mem_cons, List.not_mem_nil, or_false, List.mem_map,
    List.mem_flatMap] at ht
  rcases ht with ((rfl | rfl | rfl | rfl) | ⟨_, _, rfl⟩) | ⟨p, _, ht⟩
  · exact .ref himg (by decide) hlayer
  · exact .lit himg (by decide) (by decide)
  · exact .type hlayer (by decide)
  · exact .lit hlayer (by decide) (by decide)
  · exact .lit hlayer (by decide) (by decide)
  · unfold storePathTriples at ht
    split at ht
    · cases ht
    · rename_i hash hhash
      have hout := accepts_out h hhash
      simp only [List.mem_cons, List.not_mem_nil, or_false] at ht
      rcases ht with rfl | rfl | rfl
      · exact .ref hlayer (by decide) hout
      · exact .type hout (by decide)
      · exact .lit hout (by decide) (by decide)

theorem nixTriple_digest {imageIdHex : String} (himg : accepts (Iri.image imageIdHex) = true) {desc : ImageDesc}
    {registryDigest : Option String} {t : Triple} (ht : t ∈ digestTriples imageIdHex desc registryDigest) :
    NixTriple accepts t := by
  simp only [digestTriples, List.mem_append, List.mem_cons, List.not_mem_nil, or_false, List.mem_map] at ht
  rcases ht with (((rfl | rfl | rfl) | ⟨_, _, rfl⟩) | ⟨_, _, rfl⟩) | rfl
  · exact .type himg (by decide)
  · exact .type himg (by decide)
  · exact .lit himg (by decide) (by decide)
  · exact .lit himg (by decide) (by decide)
  · exact .lit himg (by decide) (by decide)
  · exact .lit himg (by decide) (by decide)

variable {imageIdHex : String} {desc : ImageDesc} {imageDrv : Iri} {closure : List String}
  {registryDigest : Option String}

theorem nixTriple_image (h : ParsesIris accepts) (hdrv : accepts imageDrv = true) (hid : valid imageIdHex = true)
    (hclosure : ∀ d ∈ closure, valid d = true) (hlayers : ∀ l ∈ desc.layers, valid l.digestHex = true) {t : Triple}
    (ht : t ∈ (imageFragment imageIdHex desc imageDrv closure registryDigest).lines) : NixTriple accepts t := by
  have himg : accepts (Iri.image imageIdHex) = true := by
    rw [K8s.accepts_image h]
    exact hid
  simp only [imageFragment, Fragment.mem_ofTriples, List.mem_append, List.mem_cons, List.not_mem_nil, or_false,
    List.mem_map, List.mem_flatMap, tagTriples] at ht
  rcases ht with (((ht | ⟨_, _, rfl | rfl⟩) | rfl | rfl) | ⟨d, hd, rfl⟩) | ⟨layer, hlayer, ht⟩
  · exact nixTriple_digest himg ht
  · exact .lit himg (by decide) (by decide)
  · exact .lit himg (by decide) (by decide)
  · exact .ref himg (by decide) hdrv
  · exact .ref himg (by decide) hdrv
  · refine .ref himg (by decide) ?_
    rw [accepts_drv h]
    exact hclosure d hd
  · exact nixTriple_layer h himg (hlayers _ (List.fst_mem_of_mem_zipIdx hlayer)) ht

/-- An image is described exactly when its digest, those of its layers, and the hashes of its closure
are valid segments. -/
theorem mintImage_ok_iff (h : ParsesIris accepts) (hdrv : accepts imageDrv = true) :
    mintImage accepts imageIdHex desc imageDrv closure registryDigest
        = .ok (imageFragment imageIdHex desc imageDrv closure registryDigest) ↔
      valid imageIdHex = true ∧ (∀ d ∈ closure, valid d = true) ∧
        ∀ l ∈ desc.layers, valid l.digestHex = true := by
  rw [mintImage, mintFragment_eq_ok, and_iff_left rfl]
  constructor
  · intro hall
    obtain ⟨hgraph, hlines⟩ := hall
    refine ⟨?_, fun d hd => ?_, fun l hl => ?_⟩
    · rw [← K8s.accepts_image h]
      exact hgraph
    · have hmem : addIri (Iri.image imageIdHex) (nix "closureContains") (Iri.drv d)
          ∈ (imageFragment imageIdHex desc imageDrv closure registryDigest).lines :=
        Fragment.mem_ofTriples.mpr (List.mem_append_left _ (List.mem_append_right _ (List.mem_map_of_mem hd)))
      rw [← accepts_drv h]
      exact (accepted_addIri.mp (hlines _ hmem)).2.2
    · obtain ⟨i, hi⟩ := List.mem_iff_getElem?.mp hl
      have hindex : (l, i) ∈ desc.layers.zipIdx := List.mk_mem_zipIdx_iff_getElem?.mpr hi
      have hmem : addIri (Iri.image imageIdHex) (nix "hasLayer") (Iri.layer l.digestHex)
          ∈ (imageFragment imageIdHex desc imageDrv closure registryDigest).lines := by
        refine Fragment.mem_ofTriples.mpr (List.mem_append_right _ (List.mem_flatMap.mpr ⟨(l, i), hindex, ?_⟩))
        exact List.mem_append_left _ (List.mem_append_left _ List.mem_cons_self)
      rw [← accepts_layer h]
      exact (accepted_addIri.mp (hlines _ hmem)).2.2
  · intro hall
    obtain ⟨hid, hclosure, hlayers⟩ := hall
    refine ⟨?_, fun t ht => (nixTriple_image h hdrv hid hclosure hlayers ht).accepted h⟩
    rw [← K8s.accepts_image h] at hid
    exact hid

end Extract

/-! ## The claim of the comment -/

variable {accepts : String → Bool} {x : Extern}

/-- Minting does not panic exactly where the segments that stand in IRIs as they are are valid. -/
theorem minting_iff (h : ParsesIris accepts) (hx : ∀ bs, K8s.HexText (x.sha256Hex bs)) :
    (∀ (now : String) (input : K8s.SnapshotInput) (opts : K8s.SnapshotOptions),
      K8s.mintSnapshot accepts x now input opts = .ok (K8s.buildSnapshot x now input opts) ↔
        (∀ o ∈ input.objects, K8s.Indexable o → K8s.kind o ≠ "ReplicaSet" → valid (K8s.kind o) = true) ∧
        ∀ node ∈ (K8s.ctxOf input opts).ofKind "Node",
          ∀ g ∈ K8s.generationOf (K8s.ctxOf input opts) opts node, valid g = true) ∧
    (∀ (depth : Nat) (metadata : Json) (rootNar : String),
      Mints (Flake.mintLockGraph accepts depth metadata rootNar) ↔
        ∀ k, Flake.lockOf metadata rootNar = .ok k → k.PinsValid) ∧
    ∀ (imageIdHex : String) (desc : ImageDesc) (imageDrv : Iri) (closure : List String)
      (registryDigest : Option String), accepts imageDrv = true →
      (Extract.mintImage accepts imageIdHex desc imageDrv closure registryDigest
          = .ok (Extract.imageFragment imageIdHex desc imageDrv closure registryDigest) ↔
        valid imageIdHex = true ∧ (∀ d ∈ closure, valid d = true) ∧ ∀ l ∈ desc.layers, valid l.digestHex = true) :=
  ⟨fun _ _ _ => K8s.mintSnapshot_ok_iff h hx, fun _ _ _ => Flake.mintLockGraph_iff h,
    fun _ _ _ _ _ hdrv => Extract.mintImage_ok_iff h hdrv⟩

/-- Accept what is under the base by its grammar, and any vocabulary. -/
def parseIri (s : String) : Bool := ((Text.stripPrefix? idBase s).map valid).getD true

theorem parseIri_parses : ParsesIris parseIri := by
  have hother : ∀ ns ∈ [nixNs, k8sNs, xsdNs, rdfType], ¬ idBase.toList <+: ns.toList ∧
      idBase.toList.length ≤ ns.toList.length := by decide
  have hbeside : ∀ ns ∈ [nixNs, k8sNs, xsdNs, rdfType], ∀ w, parseIri (ns ++ w) = true := by
    intro ns hns w
    obtain ⟨hno, hlen⟩ := hother ns hns
    have hstrip : Text.stripPrefix? idBase (ns ++ w) = none := by
      unfold Text.stripPrefix?
      refine if_neg fun hpre => hno ?_
      rw [List.isPrefixOf_iff_prefix, String.toList_append] at hpre
      exact List.prefix_of_prefix_length_le hpre (List.prefix_append _ _) hlen
    rw [parseIri, hstrip]
    rfl
  refine ⟨fun path => ?_, fun w _ => ?_, ?_⟩
  · rw [parseIri, Text.stripPrefix?_append]
    rfl
  · exact ⟨hbeside _ (by simp) w, hbeside _ (by simp) w, hbeside _ (by simp) w⟩
  · have h := hbeside rdfType (by simp) ""
    rw [String.append_empty] at h
    exact h

def workerExtern : Extern where
  sha256Hex _ := "b42b55289dc7d173dd6f62cb75f39408fc9046faa8aded90685e139b3bf4e829"
  parseJson _ := none
  stack := 8

theorem workerExtern_hex (bs : List UInt8) : K8s.HexText (workerExtern.sha256Hex bs) := by
  have hall : ("b42b55289dc7d173dd6f62cb75f39408fc9046faa8aded90685e139b3bf4e829".toList.all fun c =>
      decide ((48 ≤ c.toNat ∧ c.toNat ≤ 57) ∨ (97 ≤ c.toNat ∧ c.toNat ≤ 102))) = true := by decide
  exact fun c hc => of_decide_eq_true (List.all_eq_true.mp hall c hc)

/-- A node whose annotation is read as its generation. -/
def annotatedNode (generation : String) : Json :=
  .obj [("kind", .str "Node"), ("metadata", .obj [("name", .str "worker"),
    ("annotations", .obj [("nix2rdf.io/generation", .str generation)])])]

def homeOptions : K8s.SnapshotOptions := { clusterId := "home", state := .live }

theorem home_nodes (g : String) :
    (K8s.ctxOf { objects := [annotatedNode g] } homeOptions).ofKind "Node" = [annotatedNode g] := rfl

theorem home_kinds (g : String) : ∀ o ∈ [annotatedNode g], K8s.Indexable o → K8s.kind o ≠ "ReplicaSet" →
    valid (K8s.kind o) = true := by
  intro o ho _ _
  rw [List.mem_singleton.mp ho]
  have hnode : valid "Node" = true := by decide +kernel
  exact hnode

/-- `nixpkgs`, locked with this NAR hash. -/
def lockedNixpkgs (nar : String) : Json :=
  .obj [("locks", .obj [("root", .str "root"), ("nodes", .obj [
    ("nixpkgs", .obj [("locked", .obj [("narHash", .str nar)])]),
    ("root", .obj [("inputs", .obj [("nixpkgs", .str "nixpkgs")])])])])]

def lockOfNixpkgs (nar : String) : Flake.Lock where
  nodes := .obj [("nixpkgs", .obj [("locked", .obj [("narHash", .str nar)])]),
    ("root", .obj [("inputs", .obj [("nixpkgs", .str "nixpkgs")])])]
  rootId := "root"
  rootNar := nar

theorem lockedNixpkgs_valid : ∀ k, Flake.lockOf (lockedNixpkgs "sha256-Q0ND") "sha256-Q0ND" = .ok k →
    k.PinsValid := by
  intro k hk
  have hlock : Flake.lockOf (lockedNixpkgs "sha256-Q0ND") "sha256-Q0ND" = .ok (lockOfNixpkgs "sha256-Q0ND") := rfl
  rw [hlock, Except.ok.injEq] at hk
  have hvalid : valid (narHashSegment "sha256-Q0ND") = true := by decide +kernel
  have hnar : ∀ nodeId ∈ (lockOfNixpkgs "sha256-Q0ND").nodes.keys,
      (lockOfNixpkgs "sha256-Q0ND").narOf nodeId ∈ [none, some "sha256-Q0ND"] := by decide
  rw [← hk]
  refine ⟨valid_narHashSegment.mp hvalid, fun nodeId hkey nar h => ?_⟩
  have hmem := hnar nodeId hkey
  rw [h] at hmem
  simp only [List.mem_cons, reduceCtorEq, Option.some.injEq, List.not_mem_nil, or_false, false_or] at hmem
  rw [hmem]
  exact valid_narHashSegment.mp hvalid

theorem minting_iff_home :
    K8s.mintSnapshot parseIri workerExtern "2026-01-01T00:00:00Z" { objects := [annotatedNode "9w5c0x"] } homeOptions
        = .ok (K8s.buildSnapshot workerExtern "2026-01-01T00:00:00Z" { objects := [annotatedNode "9w5c0x"] }
          homeOptions) ∧
      Mints (Flake.mintLockGraph parseIri 8 (lockedNixpkgs "sha256-Q0ND") "sha256-Q0ND") ∧
      Extract.mintImage parseIri "ab12" { tool := "nix2container", layers := [{ digestHex := "cd34" }] }
          (Iri.drv "9w5c0x") ["9w5c0x"] none
        = .ok (Extract.imageFragment "ab12" { tool := "nix2container", layers := [{ digestHex := "cd34" }] }
          (Iri.drv "9w5c0x") ["9w5c0x"] none) := by
  obtain ⟨hsnapshot, hlock, himage⟩ := minting_iff parseIri_parses workerExtern_hex
  refine ⟨(hsnapshot _ _ _).mpr ⟨home_kinds _, fun node hnode g hg => ?_⟩, (hlock _ _ _).mpr lockedNixpkgs_valid,
    (himage _ _ _ _ _ (by decide +kernel)).mpr ⟨by decide +kernel, by decide +kernel, by decide +kernel⟩⟩
  have hgen : K8s.generationOf (K8s.ctxOf { objects := [annotatedNode "9w5c0x"] } homeOptions) homeOptions
      (annotatedNode "9w5c0x") = some "9w5c0x" := by decide
  rw [home_nodes, List.mem_singleton] at hnode
  rw [hnode, hgen, Option.mem_some_iff] at hg
  rw [← hg]
  decide +kernel

/-- A space in the annotation of a node. -/
theorem generation_with_space_panics : ParsesIris parseIri ∧ (∀ bs, K8s.HexText (workerExtern.sha256Hex bs)) ∧
    K8s.mintSnapshot parseIri workerExtern "2026-01-01T00:00:00Z" { objects := [annotatedNode "system 42"] }
      homeOptions = .error panicText := by
  refine ⟨parseIri_parses, workerExtern_hex, ?_⟩
  have hgen : K8s.generationOf (K8s.ctxOf { objects := [annotatedNode "system 42"] } homeOptions) homeOptions
      (annotatedNode "system 42") = some "system 42" := by decide
  have hinvalid : valid "system 42" = false := by decide +kernel
  have hnodes : ¬ ∃ f, mintFragment parseIri
      (K8s.nodesFragment (K8s.ctxOf { objects := [annotatedNode "system 42"] } homeOptions) homeOptions) = .ok f := by
    intro h
    obtain ⟨f, hf⟩ := h
    have hnode : annotatedNode "system 42" ∈
        (K8s.ctxOf { objects := [annotatedNode "system 42"] } homeOptions).ofKind "Node" := by
      rw [home_nodes]
      exact List.mem_singleton_self _
    have hv := K8s.valid_generation_of_accepted parseIri_parses (mintFragment_eq_ok.mp hf).1.2 hnode hgen
    rw [hinvalid] at hv
    cases hv
  rw [K8s.mintSnapshot, mintFragment_panics hnodes]
  rfl

end Nix2Rdf
