import Nix2Rdf.Extract.Image
import Nix2Rdf.Packs.Program

/-!
# Images without layer data

What a workload runs is read off the runtime closure of its image, and where the image has none, off
its build closure. The outputs of an image's own derivation count as runtime closure.
-/

namespace Nix2Rdf.K8s

open Packs Triple Extract

/-- An image fragment, with the derivation fragments made for its closure. -/
structure ImageBuild (x : Extern) where
  imageIdHex : String
  desc : ImageDesc
  imageDrv : Iri
  closure : List String
  registryDigest : Option String
  drvs : List (String × DrvInfo)
  srcHashes : BTreeMap String
  drvFragments : List Fragment
  ok : drvs.mapM (fun d => derivationFragment x d.1 d.2 srcHashes) = .ok drvFragments

namespace ImageBuild

variable {x : Extern} (m : ImageBuild x)

def img : Iri := Iri.image m.imageIdHex

def fragment : Fragment :=
  imageFragment m.imageIdHex m.desc m.imageDrv m.closure m.registryDigest

/-- No layer names a store path. -/
def NoLayerData : Prop := ∀ l ∈ m.desc.layers, ∀ p ∈ l.storePaths, storePathHash p = none

/-- The quads of the fragments, beside those of a snapshot. -/
def quads (snapshot : Quad → Prop) (q : Quad) : Prop :=
  q ∈ m.fragment.quads ∨ (∃ f ∈ m.drvFragments, q ∈ f.quads) ∨ snapshot q

/-- A derivation has an output whose path is known. -/
def Produces (i o : Iri) : Prop :=
  ∃ d ∈ m.drvs, ∃ h, storePathHash d.1 = some h ∧ i = Iri.drv h ∧
    ∃ output ∈ d.2.outputs.toList, ∃ p, output.2.path = some p ∧
      ∃ oh, storePathHash p = some oh ∧ o = Iri.out oh

def DependsOn (i j : Iri) : Prop :=
  ∃ d ∈ m.drvs, ∃ h, storePathHash d.1 = some h ∧ i = Iri.drv h ∧
    ∃ dep ∈ d.2.inputDrvs.toList, ∃ ih, storePathHash dep.1 = some ih ∧ j = Iri.drv ih

/-- The build closure of the image: its derivation, what it was said to need, whatever produces the
same outputs, and all their inputs. -/
inductive BuildClosure : Iri → Prop
  | root : BuildClosure m.imageDrv
  | listed {h : String} : h ∈ m.closure → BuildClosure (Iri.drv h)
  | produces {i o : Iri} : m.Produces m.imageDrv o → m.Produces i o → BuildClosure i
  | input {i j : Iri} : BuildClosure i → m.DependsOn i j → BuildClosure j

/-- The image derivation has no known output, or everything in the build closure produces one of
its outputs. -/
def OutputsUnknownOrShared : Prop :=
  (∃ o, m.Produces m.imageDrv o) →
    ∀ i, m.BuildClosure i → ∃ o, m.Produces m.imageDrv o ∧ m.Produces i o

/-! ## What the fragments say -/

/-- The properties of the image fragment and the derivation fragments that the rules on closures do
not read. -/
def besides : List Iri :=
  [rdfType, nix "digest", nix "imageTool", nix "imageName", nix "imageTag", nix "imageDerivation",
    nix "hasLayer", nix "layerIndex", nix "mediaType", nix "storePath", nix "drvPath", nix "name",
    nix "system", nix "builder", nix "arg", nix "pname", nix "version", nix "envHash",
    nix "structuredAttrs", nix "contentAddressed", nix "inputDrvOutput", nix "inputSrc",
    nix "outputName"]

theorem mem_fragment (hlayers : m.NoLayerData) {t : Triple} (ht : t ∈ m.fragment.lines) :
    t.p ∈ besides ∨ t = addIri m.img (nix "hasRoot") m.imageDrv ∨
      ∃ h ∈ m.closure, t = addIri m.img (nix "closureContains") (Iri.drv h) := by
  simp only [fragment, imageFragment, Fragment.mem_ofTriples, List.mem_append, List.mem_map,
    List.mem_flatMap] at ht
  rcases ht with (((ht | ⟨tag, _, ht⟩) | ht) | ⟨h, hh, rfl⟩) | ⟨layer, hlayer, ht⟩
  · simp only [digestTriples, List.mem_append, List.mem_map] at ht
    rcases ht with ((ht | ⟨c, _, rfl⟩) | ⟨r, _, rfl⟩) | ht
    · simp only [List.mem_cons, List.not_mem_nil, or_false] at ht
      rcases ht with rfl | rfl | rfl <;> simp [besides]
    · simp [besides]
    · simp [besides]
    · cases List.mem_singleton.mp ht
      simp [besides]
  · simp only [tagTriples, List.mem_cons, List.not_mem_nil, or_false] at ht
    rcases ht with rfl | rfl <;> simp [besides]
  · simp only [List.mem_cons, List.not_mem_nil, or_false] at ht
    rcases ht with rfl | rfl
    · simp [besides]
    · exact .inr (.inl rfl)
  · exact .inr (.inr ⟨h, hh, rfl⟩)
  · simp only [layerTriples, List.mem_append, List.mem_map, List.mem_flatMap] at ht
    rcases ht with (ht | ⟨_, _, rfl⟩) | ⟨p, hp, ht⟩
    · simp only [List.mem_cons, List.not_mem_nil, or_false] at ht
      rcases ht with rfl | rfl | rfl | rfl <;> simp [besides]
    · simp [besides]
    · have hnone := hlayers layer.1 (List.fst_mem_of_mem_zipIdx hlayer) p hp
      simp [storePathTriples, hnone] at ht

variable {m}

theorem mem_derivationFragment {drv : String × DrvInfo} {f : Fragment} (hd : drv ∈ m.drvs)
    (hf : derivationFragment x drv.1 drv.2 m.srcHashes = .ok f) {t : Triple} (ht : t ∈ f.lines) :
    t.p ∈ besides ∨ (∃ i o, m.Produces i o ∧ t = addIri i (nix "hasOutput") o) ∨
      ∃ i j, m.DependsOn i j ∧ (t = addIri i (nix "inputDrv") j ∨ t = addIri i (nix "dependsOn") j) := by
  simp only [derivationFragment, Result.bind_eq_ok, Result.pure_eq_ok] at hf
  obtain ⟨h, hh, inputs, hinputs, srcs, hsrcs, outs, houts, rfl⟩ := hf
  have hh := storeHash_eq_ok.mp hh
  simp only [Fragment.mem_ofTriples, List.mem_append, List.mem_flatten] at ht
  rcases ht with ((ht | ⟨l, hl, ht⟩) | ⟨l, hl, ht⟩) | ⟨l, hl, ht⟩
  · left
    simp only [headTriples, List.mem_append, List.mem_map, List.mem_filterMap,
      Option.map_eq_some_iff] at ht
    rcases ht with ((ht | ⟨a, _, rfl⟩) | ⟨k, hk, v, _, rfl⟩) | ht
    · simp only [List.mem_cons, List.not_mem_nil, or_false] at ht
      rcases ht with rfl | rfl | rfl | rfl | rfl <;> simp [besides]
    · simp [besides]
    · by_cases hpname : k = "pname" <;> simp [besides, hpname]
    · simp only [List.mem_cons, List.not_mem_nil, or_false] at ht
      rcases ht with rfl | rfl | rfl <;> simp [besides]
  · obtain ⟨dep, hdep, hinput⟩ := Result.mem_of_mapM hinputs hl
    simp only [inputTriples, Result.bind_eq_ok, Result.pure_eq_ok] at hinput
    obtain ⟨ih, hih, rfl⟩ := hinput
    have hdepends : m.DependsOn (Iri.drv h) (Iri.drv ih) :=
      ⟨drv, hd, h, hh, rfl, dep, hdep, ih, storeHash_eq_ok.mp hih, rfl⟩
    simp only [List.mem_append, List.mem_cons, List.not_mem_nil, or_false, List.mem_map] at ht
    rcases ht with (rfl | rfl) | ⟨o, _, rfl⟩
    · exact .inr (.inr ⟨_, _, hdepends, .inl rfl⟩)
    · exact .inr (.inr ⟨_, _, hdepends, .inr rfl⟩)
    · simp [besides]
  · obtain ⟨src, _, hsrc⟩ := Result.mem_of_mapM hsrcs hl
    simp only [sourceTriples] at hsrc
    split at hsrc
    · cases hsrc
      cases List.mem_singleton.mp ht
      simp [besides]
    · cases hsrc
  · obtain ⟨output, houtput, hout⟩ := Result.mem_of_mapM houts hl
    simp only [outputTriples] at hout
    split at hout
    · cases hout
      cases ht
    · simp only [Result.bind_eq_ok, Result.pure_eq_ok] at hout
      obtain ⟨oh, hoh, rfl⟩ := hout
      simp only [List.mem_cons, List.not_mem_nil, or_false] at ht
      rcases ht with rfl | rfl | rfl | rfl
      · exact .inr (.inl ⟨_, _, ⟨drv, hd, h, hh, rfl, output, houtput, _, ‹_›, oh,
          storeHash_eq_ok.mp hoh, rfl⟩, rfl⟩)
      · simp [besides]
      · simp [besides]
      · simp [besides]

theorem hasOutput_mem {i o : Iri} (h : m.Produces i o) :
    ∃ f ∈ m.drvFragments, addIri i (nix "hasOutput") o ∈ f.lines := by
  obtain ⟨d, hd, h, hh, rfl, output, houtput, p, hp, oh, hoh, rfl⟩ := h
  obtain ⟨f, hf, hok⟩ := Result.mem_mapM m.ok hd
  refine ⟨f, hf, ?_⟩
  simp only [derivationFragment, Result.bind_eq_ok, Result.pure_eq_ok] at hok
  obtain ⟨h', hh', inputs, _, srcs, _, outs, houts, rfl⟩ := hok
  cases hh.symm.trans (storeHash_eq_ok.mp hh')
  obtain ⟨l, hl, hout⟩ := Result.mem_mapM houts houtput
  rw [outputTriples, hp] at hout
  simp only [storeHash_eq_ok.mpr hoh, Result.bind_eq_ok, Result.pure_eq_ok, Except.ok.injEq] at hout
  obtain ⟨_, rfl, rfl⟩ := hout
  rw [Fragment.mem_ofTriples]
  exact List.mem_append_right _ (List.mem_flatten.mpr ⟨_, hl, List.mem_cons_self⟩)

theorem dependsOn_mem {i j : Iri} (h : m.DependsOn i j) :
    ∃ f ∈ m.drvFragments, addIri i (nix "dependsOn") j ∈ f.lines := by
  obtain ⟨d, hd, h, hh, rfl, dep, hdep, ih, hih, rfl⟩ := h
  obtain ⟨f, hf, hok⟩ := Result.mem_mapM m.ok hd
  refine ⟨f, hf, ?_⟩
  simp only [derivationFragment, Result.bind_eq_ok, Result.pure_eq_ok] at hok
  obtain ⟨h', hh', inputs, hinputs, srcs, _, outs, _, rfl⟩ := hok
  cases hh.symm.trans (storeHash_eq_ok.mp hh')
  obtain ⟨l, hl, hinput⟩ := Result.mem_mapM hinputs hdep
  simp only [inputTriples, storeHash_eq_ok.mpr hih, Result.bind_eq_ok, Result.pure_eq_ok,
    Except.ok.injEq] at hinput
  obtain ⟨_, rfl, rfl⟩ := hinput
  rw [Fragment.mem_ofTriples]
  refine List.mem_append_left _ (List.mem_append_left _ (List.mem_append_right _ ?_))
  exact List.mem_flatten.mpr ⟨_, hl, by simp⟩

/-- The quads of a snapshot use the k8s vocabulary only, besides types. -/
def SnapshotQuads (snapshot : Quad → Prop) : Prop :=
  ∀ q, snapshot q → q.p = rdfType ∨ ∃ term, q.p = k8s term

theorem mem_quads {snapshot : Quad → Prop} (hlayers : m.NoLayerData) (hsnap : SnapshotQuads snapshot)
    {q : Quad} (hq : m.quads snapshot q) :
    q.p ∈ besides ∨ (∃ term, q.p = k8s term) ∨
      (⟨q.s, q.p, q.o⟩ : Triple) = addIri m.img (nix "hasRoot") m.imageDrv ∨
      (∃ h ∈ m.closure, (⟨q.s, q.p, q.o⟩ : Triple) = addIri m.img (nix "closureContains") (Iri.drv h)) ∨
      (∃ i o, m.Produces i o ∧ (⟨q.s, q.p, q.o⟩ : Triple) = addIri i (nix "hasOutput") o) ∨
      ∃ i j, m.DependsOn i j ∧ ((⟨q.s, q.p, q.o⟩ : Triple) = addIri i (nix "inputDrv") j ∨
        (⟨q.s, q.p, q.o⟩ : Triple) = addIri i (nix "dependsOn") j) := by
  rcases hq with hq | ⟨f, hf, hq⟩ | hq
  · rcases m.mem_fragment hlayers (Fragment.mem_quads.mp hq).2 with h | h | h
    · exact .inl h
    · exact .inr (.inr (.inl h))
    · exact .inr (.inr (.inr (.inl h)))
  · obtain ⟨drv, hd, hok⟩ := Result.mem_of_mapM m.ok hf
    rcases mem_derivationFragment hd hok (Fragment.mem_quads.mp hq).2 with h | h | h
    · exact .inl h
    · exact .inr (.inr (.inr (.inr (.inl h))))
    · exact .inr (.inr (.inr (.inr (.inr h))))
  · rcases hsnap q hq with h | h
    · rw [h]
      exact .inl (by simp [besides])
    · exact .inr (.inl h)

/-! ## What the core pack derives -/

variable {b : Builtins} {snapshot : Quad → Prop}

/-- The triple is in the working set of the core and k8s packs. -/
abbrev Holds (m : ImageBuild x) (b : Builtins) (snapshot : Quad → Prop) (s : Val) (p : Iri) (o : Val) :
    Prop :=
  (coreAndK8s b).Derived (m.quads snapshot) ⟨.t, [s, .const (.iri p), o]⟩

theorem holds_of_lines {f : Fragment} (hf : f = m.fragment ∨ f ∈ m.drvFragments) {s p o : Iri}
    (h : addIri s p o ∈ f.lines) : m.Holds b snapshot (.const (.iri s)) p (.const (.iri o)) := by
  have hq : m.quads snapshot ((addIri s p o).inGraph f.graph) := by
    have hmem : (addIri s p o).inGraph f.graph ∈ f.quads := Fragment.mem_quads.mpr ⟨rfl, h⟩
    rcases hf with rfl | hf
    · exact .inl hmem
    · exact .inr (.inl ⟨f, hf, hmem⟩)
  exact (coreAndK8s b).t_of_quad hq

theorem holds_root : m.Holds b snapshot (.const (.iri m.img)) (nix "hasRoot") (.const (.iri m.imageDrv)) :=
  holds_of_lines (.inl rfl) (by simp [fragment, imageFragment, img])

theorem holds_listed {h : String} (hh : h ∈ m.closure) :
    m.Holds b snapshot (.const (.iri m.img)) (nix "closureContains") (.const (.iri (Iri.drv h))) := by
  apply holds_of_lines (.inl rfl)
  rw [fragment, imageFragment, Fragment.mem_ofTriples]
  refine List.mem_append_left _ (List.mem_append_right _ ?_)
  exact List.mem_map.mpr ⟨h, hh, rfl⟩

variable (hlayers : m.NoLayerData) (hsnap : SnapshotQuads snapshot)

include hlayers hsnap in
/-- What is only asserted is there only if a fragment says it. -/
theorem not_holds {p : Iri} (hrules : (coreAndK8s b).rulesOfT p = [tRule])
    (hp : p ∉ nix "hasRoot" :: nix "closureContains" :: nix "hasOutput" :: nix "inputDrv" ::
      nix "dependsOn" :: besides) (hk8s : ∀ term, p ≠ k8s term) {s o : Val} :
    ¬ m.Holds b snapshot s p o := by
  intro h
  obtain ⟨q, hq, rfl, rfl, rfl⟩ := ((coreAndK8s b).t_iff_asserted hrules).mp h
  simp only [List.mem_cons, not_or] at hp
  obtain ⟨hroot, hlisted, hout, hin, hdep, hbesides⟩ := hp
  rcases mem_quads hlayers hsnap hq with h | ⟨term, h⟩ | h | ⟨_, _, h⟩ | ⟨_, _, _, h⟩ | ⟨_, _, _, h | h⟩
  · exact hbesides h
  · exact hk8s term h
  · exact hroot (congrArg Triple.p h)
  · exact hlisted (congrArg Triple.p h)
  · exact hout (congrArg Triple.p h)
  · exact hin (congrArg Triple.p h)
  · exact hdep (congrArg Triple.p h)

include hlayers hsnap in
theorem hasRoot_iff {s o : Val} : m.Holds b snapshot s (nix "hasRoot") o ↔
    s = .const (.iri m.img) ∧ o = .const (.iri m.imageDrv) := by
  constructor
  · intro h
    obtain ⟨q, hq, rfl, hp, rfl⟩ := ((coreAndK8s b).t_iff_asserted rfl).mp h
    rcases mem_quads hlayers hsnap hq with h | ⟨_, h⟩ | h | ⟨_, _, h⟩ | ⟨_, _, _, h⟩ | ⟨_, _, _, h | h⟩
    · simp [← hp, besides] at h
    · simp [← hp] at h
    · exact ⟨congrArg (fun t => Datalog.Value.const (Triple.s t)) h,
        congrArg (fun t => Datalog.Value.const (Triple.o t)) h⟩
    all_goals
      have := hp.trans (congrArg Triple.p h)
      simp at this
  · rintro ⟨rfl, rfl⟩
    exact holds_root

include hlayers hsnap in
theorem hasOutput_iff {s o : Val} : m.Holds b snapshot s (nix "hasOutput") o ↔
    ∃ i j, m.Produces i j ∧ s = .const (.iri i) ∧ o = .const (.iri j) := by
  constructor
  · intro h
    obtain ⟨q, hq, rfl, hp, rfl⟩ := ((coreAndK8s b).t_iff_asserted rfl).mp h
    rcases mem_quads hlayers hsnap hq with h | ⟨_, h⟩ | h | ⟨_, _, h⟩ | ⟨i, j, hij, h⟩ | ⟨_, _, _, h | h⟩
    · simp [← hp, besides] at h
    · simp [← hp] at h
    · simpa using hp.trans (congrArg Triple.p h)
    · simpa using hp.trans (congrArg Triple.p h)
    · exact ⟨i, j, hij, congrArg (fun t => Datalog.Value.const (Triple.s t)) h,
        congrArg (fun t => Datalog.Value.const (Triple.o t)) h⟩
    · simpa using hp.trans (congrArg Triple.p h)
    · simpa using hp.trans (congrArg Triple.p h)
  · rintro ⟨i, j, hij, rfl, rfl⟩
    obtain ⟨f, hf, hline⟩ := hasOutput_mem hij
    exact holds_of_lines (.inr hf) hline

include hlayers hsnap in
theorem dependsOn_iff {s o : Val} : m.Holds b snapshot s (nix "dependsOn") o ↔
    ∃ i j, m.DependsOn i j ∧ s = .const (.iri i) ∧ o = .const (.iri j) := by
  constructor
  · have hasserted : ∀ q, m.quads snapshot q → q.p = nix "dependsOn" ∨ q.p = nix "inputDrv" →
        ∃ i j, m.DependsOn i j ∧ (Datalog.Value.const q.s : Val) = .const (.iri i) ∧
          (Datalog.Value.const q.o : Val) = .const (.iri j) := by
      intro q hq hp
      rcases mem_quads hlayers hsnap hq with h | ⟨_, h⟩ | h | ⟨_, _, h⟩ | ⟨_, _, _, h⟩ | ⟨i, j, hij, h⟩
      · rcases hp with hp | hp <;> simp [hp, besides] at h
      · rcases hp with hp | hp <;> simp [hp] at h
      · rcases hp with hp | hp <;> simpa using hp.symm.trans (congrArg Triple.p h)
      · rcases hp with hp | hp <;> simpa using hp.symm.trans (congrArg Triple.p h)
      · rcases hp with hp | hp <;> simpa using hp.symm.trans (congrArg Triple.p h)
      · refine ⟨i, j, hij, ?_, ?_⟩
        · rcases h with h | h <;> exact congrArg (fun t => Datalog.Value.const (Triple.s t)) h
        · rcases h with h | h <;> exact congrArg (fun t => Datalog.Value.const (Triple.o t)) h
    intro h
    have hrules : (coreAndK8s b).rulesOfT (nix "dependsOn") =
      [tRule, clause (tr (var "a") (nix "dependsOn") (var "b")) [tr (var "a") (nix "inputDrv") (var "b")]] := rfl
    rw [Holds, (coreAndK8s b).derived_t_iff, hrules] at h
    simp only [List.mem_cons, List.not_mem_nil, or_false, exists_eq_or_imp, exists_eq_left,
      (coreAndK8s b).tRule_derives, copy_derives (show "a" ≠ "b" by decide)] at h
    rcases h with ⟨q, hq, hargs⟩ | h
    · simp only [List.cons.injEq, and_true, Datalog.Value.const.injEq, Term.iri.injEq] at hargs
      obtain ⟨rfl, hp, rfl⟩ := hargs
      exact hasserted q hq (.inl hp.symm)
    · obtain ⟨q, hq, rfl, hp, rfl⟩ := ((coreAndK8s b).t_iff_asserted rfl).mp h
      exact hasserted q hq (.inr hp.symm)
  · rintro ⟨i, j, hij, rfl, rfl⟩
    obtain ⟨f, hf, hline⟩ := dependsOn_mem hij
    exact holds_of_lines (.inr hf) hline

set_option maxRecDepth 2000 in
theorem rulesOfT_runtimeClosureContains :
    (coreAndK8s b).rulesOfT (nix "runtimeClosureContains") =
      [tRule,
        clause (tr (var "s") (nix "runtimeClosureContains") (var "o"))
          [tr (var "s") (nix "hasRoot") (var "d"), tr (var "d") (nix "hasOutput") (var "o")],
        clause (tr (var "s") (nix "runtimeClosureContains") (var "o2"))
          [tr (var "s") (nix "runtimeClosureContains") (var "o1"), tr (var "o1") (nix "references") (var "o2")],
        clause (tr (var "c") (nix "runtimeClosureContains") (var "o"))
          [tr (var "c") (nix "snapshot") (var "s"), tr (var "s") (nix "runtimeClosureContains") (var "o")],
        clause (tr (var "img") (nix "runtimeClosureContains") (var "o"))
          [tr (var "img") (nix "hasLayer") (var "l"), tr (var "l") (nix "layerContains") (var "o")]] := rfl

include hlayers hsnap in
/-- Without layer data the runtime closure is what the image derivation is known to produce. -/
theorem runtimeClosure_iff {s o : Val} : m.Holds b snapshot s (nix "runtimeClosureContains") o ↔
    s = .const (.iri m.img) ∧ ∃ j, m.Produces m.imageDrv j ∧ o = .const (.iri j) := by
  rw [Holds, (coreAndK8s b).derived_t_iff, rulesOfT_runtimeClosureContains]
  simp only [List.mem_cons, List.not_mem_nil, or_false, exists_eq_or_imp, exists_eq_left,
    (coreAndK8s b).tRule_derives, join_derives (show "s" ≠ "d" by decide) (show "s" ≠ "o" by decide)
      (show "d" ≠ "o" by decide), join_derives (show "s" ≠ "o1" by decide) (show "s" ≠ "o2" by decide)
      (show "o1" ≠ "o2" by decide), join_derives (show "c" ≠ "s" by decide) (show "c" ≠ "o" by decide)
      (show "s" ≠ "o" by decide), join_derives (show "img" ≠ "l" by decide) (show "img" ≠ "o" by decide)
      (show "l" ≠ "o" by decide)]
  constructor
  · rintro (⟨q, hq, hargs⟩ | ⟨d, hroot, hout⟩ | ⟨_, _, href⟩ | ⟨_, hcommit, _⟩ | ⟨_, _, hlayer⟩)
    · simp only [List.cons.injEq, and_true, Datalog.Value.const.injEq, Term.iri.injEq] at hargs
      obtain ⟨rfl, hp, rfl⟩ := hargs
      rcases mem_quads hlayers hsnap hq with h | ⟨_, h⟩ | h | ⟨_, _, h⟩ | ⟨_, _, _, h⟩ | ⟨_, _, _, h | h⟩
      · simp [← hp, besides] at h
      · simp [← hp] at h
      all_goals
        have := hp.trans (congrArg Triple.p h)
        simp at this
    · obtain ⟨rfl, rfl⟩ := (hasRoot_iff hlayers hsnap).mp hroot
      obtain ⟨i, j, hij, hi, rfl⟩ := (hasOutput_iff hlayers hsnap).mp hout
      cases hi
      exact ⟨rfl, j, hij, rfl⟩
    · exact absurd href (not_holds hlayers hsnap rfl (by simp [besides]) (by simp))
    · exact absurd hcommit (not_holds hlayers hsnap rfl (by simp [besides]) (by simp))
    · exact absurd hlayer (not_holds hlayers hsnap rfl (by simp [besides]) (by simp))
  · rintro ⟨rfl, j, hj, rfl⟩
    exact .inr (.inl ⟨_, holds_root, (hasOutput_iff hlayers hsnap).mpr ⟨_, _, hj, rfl, rfl⟩⟩)

set_option maxRecDepth 2000 in
theorem rulesOfT_closureContains :
    (coreAndK8s b).rulesOfT (nix "closureContains") =
      [tRule,
        clause (tr (var "s") (nix "closureContains") (var "d")) [tr (var "s") (nix "hasRoot") (var "d")],
        clause (tr (var "s") (nix "closureContains") (var "d2"))
          [tr (var "s") (nix "closureContains") (var "d1"), tr (var "d1") (nix "dependsOn") (var "d2")],
        clause (tr (var "c") (nix "closureContains") (var "d"))
          [tr (var "c") (nix "snapshot") (var "s"), tr (var "s") (nix "closureContains") (var "d")],
        clause (tr (var "img") (nix "closureContains") (var "d"))
          [tr (var "img") (nix "runtimeClosureContains") (var "o"), tr (var "d") (nix "hasOutput") (var "o")]] :=
  rfl

include hlayers hsnap in
theorem closure_sound {s o : Val} (h : m.Holds b snapshot s (nix "closureContains") o) :
    s = .const (.iri m.img) ∧ ∃ i, m.BuildClosure i ∧ o = .const (.iri i) := by
  refine (coreAndK8s b).induction_pos
    (motive := fun s o => s = .const (.iri m.img) ∧ ∃ i, m.BuildClosure i ∧ o = .const (.iri i)) rfl ?_ h
  rw [rulesOfT_closureContains]
  intro r hr s o hderives
  simp only [List.mem_cons, List.not_mem_nil, or_false] at hr
  rcases hr with rfl | rfl | rfl | rfl | rfl
  · obtain ⟨q, hq, hargs⟩ := (coreAndK8s b).tRule_derives.mp (hderives.mono rfl fun _ hf => hf.1)
    simp only [List.cons.injEq, and_true, Datalog.Value.const.injEq, Term.iri.injEq] at hargs
    obtain ⟨rfl, hp, rfl⟩ := hargs
    rcases mem_quads hlayers hsnap hq with h | ⟨_, h⟩ | h | ⟨hash, hh, h⟩ | ⟨_, _, _, h⟩ | ⟨_, _, _, h | h⟩
    · simp [← hp, besides] at h
    · simp [← hp] at h
    · simpa using hp.trans (congrArg Triple.p h)
    · exact ⟨congrArg (fun t => Datalog.Value.const (Triple.s t)) h, _, .listed hh,
        congrArg (fun t => Datalog.Value.const (Triple.o t)) h⟩
    · simpa using hp.trans (congrArg Triple.p h)
    · simpa using hp.trans (congrArg Triple.p h)
    · simpa using hp.trans (congrArg Triple.p h)
  · obtain ⟨hs, ho⟩ := (hasRoot_iff hlayers hsnap).mp ((copy_derives (by decide)).mp hderives).1
    exact ⟨hs, _, .root, ho⟩
  · obtain ⟨y, ⟨_, hy⟩, hdep, _⟩ := (join_derives (by decide) (by decide) (by decide)).mp hderives
    obtain ⟨hs, i, hi, rfl⟩ := hy _ _ rfl
    obtain ⟨i', j, hij, heq, rfl⟩ := (dependsOn_iff hlayers hsnap).mp hdep
    cases heq
    exact ⟨hs, j, .input hi hij, rfl⟩
  · obtain ⟨_, ⟨hcommit, _⟩, _⟩ := (join_derives (by decide) (by decide) (by decide)).mp hderives
    exact absurd hcommit (not_holds hlayers hsnap rfl (by simp [besides]) (by simp))
  · obtain ⟨_, ⟨hruntime, _⟩, hout, _⟩ := (meet_derives (by decide) (by decide) (by decide)).mp hderives
    obtain ⟨rfl, o', ho', rfl⟩ := (runtimeClosure_iff hlayers hsnap).mp hruntime
    obtain ⟨i, j, hij, rfl, heq⟩ := (hasOutput_iff hlayers hsnap).mp hout
    cases heq
    exact ⟨rfl, i, .produces ho' hij, rfl⟩

/-- One application of a rule for the build closure. -/
theorem closureContains_iff {s o : Val} : m.Holds b snapshot s (nix "closureContains") o ↔
    (∃ q, m.quads snapshot q ∧
      [s, .const (.iri (nix "closureContains")), o] = [.const q.s, .const (.iri q.p), .const q.o]) ∨
    m.Holds b snapshot s (nix "hasRoot") o ∨
    (∃ y, m.Holds b snapshot s (nix "closureContains") y ∧ m.Holds b snapshot y (nix "dependsOn") o) ∨
    (∃ y, m.Holds b snapshot s (nix "snapshot") y ∧ m.Holds b snapshot y (nix "closureContains") o) ∨
    ∃ y, m.Holds b snapshot s (nix "runtimeClosureContains") y ∧ m.Holds b snapshot o (nix "hasOutput") y := by
  rw [Holds, (coreAndK8s b).derived_t_iff, rulesOfT_closureContains]
  simp only [List.mem_cons, List.not_mem_nil, or_false, exists_eq_or_imp, exists_eq_left,
    (coreAndK8s b).tRule_derives, copy_derives (show "s" ≠ "d" by decide),
    join_derives (show "s" ≠ "d1" by decide) (show "s" ≠ "d2" by decide) (show "d1" ≠ "d2" by decide),
    join_derives (show "c" ≠ "s" by decide) (show "c" ≠ "d" by decide) (show "s" ≠ "d" by decide),
    meet_derives (show "img" ≠ "o" by decide) (show "img" ≠ "d" by decide) (show "o" ≠ "d" by decide)]

include hlayers hsnap in
theorem closure_complete {i : Iri} (h : m.BuildClosure i) :
    m.Holds b snapshot (.const (.iri m.img)) (nix "closureContains") (.const (.iri i)) := by
  induction h with
  | root => exact closureContains_iff.mpr (.inr (.inl holds_root))
  | listed hh => exact holds_listed hh
  | produces ho hi =>
      have hruntime := (runtimeClosure_iff (b := b) hlayers hsnap).mpr ⟨rfl, _, ho, rfl⟩
      have hout := (hasOutput_iff (b := b) hlayers hsnap).mpr ⟨_, _, hi, rfl, rfl⟩
      exact closureContains_iff.mpr (.inr (.inr (.inr (.inr ⟨_, hruntime, hout⟩))))
  | input hi hij ih =>
      have hdep := (dependsOn_iff (b := b) hlayers hsnap).mpr ⟨_, _, hij, rfl, rfl⟩
      exact closureContains_iff.mpr (.inr (.inr (.inl ⟨_, ih, hdep⟩)))

include hlayers hsnap in
theorem closure_iff {s o : Val} : m.Holds b snapshot s (nix "closureContains") o ↔
    s = .const (.iri m.img) ∧ ∃ i, m.BuildClosure i ∧ o = .const (.iri i) := by
  constructor
  · exact closure_sound hlayers hsnap
  · rintro ⟨rfl, i, hi, rfl⟩
    exact closure_complete hlayers hsnap hi

/-! ## What the k8s pack derives -/

/-- The workload runs the derivation. -/
def Running (m : ImageBuild x) (b : Builtins) (snapshot : Quad → Prop) (w d : Val) : Prop :=
  (coreAndK8s b).Derived (m.quads snapshot) ⟨.running, [w, d]⟩

/-- A container of the workload runs the image. -/
def RunsImage (m : ImageBuild x) (b : Builtins) (snapshot : Quad → Prop) (w img : Val) : Prop :=
  ∃ c, m.Holds b snapshot w (k8s "hasContainer") c ∧ m.Holds b snapshot c (k8s "runsImage") img

theorem wImage_iff {w img : Val} :
    (coreAndK8s b).Derived (m.quads snapshot) ⟨.wImage, [w, img]⟩ ↔ m.RunsImage b snapshot w img := by
  have hcont : ∀ a c, (coreAndK8s b).Derived (m.quads snapshot) ⟨.kHasContainer, [a, c]⟩ ↔
      m.Holds b snapshot a (k8s "hasContainer") c := fun a c => (coreAndK8s b).narrow_iff rfl (by simp)
  have hruns : ∀ a c, (coreAndK8s b).Derived (m.quads snapshot) ⟨.kRunsImage, [a, c]⟩ ↔
      m.Holds b snapshot a (k8s "runsImage") c := fun a c => (coreAndK8s b).narrow_iff rfl (by simp)
  rw [(coreAndK8s b).derived_iff_one (p := .wImage) rfl (by simp)]
  constructor
  · rintro ⟨σ, hbody, hhead⟩
    simp only [List.forall_mem_cons, Datalog.Literal.holds_pos, ground_atom, List.map_cons,
      List.map_nil, ground_var, hcont, hruns] at hbody
    simp only [ground_atom, List.map_cons, List.map_nil, ground_var, Datalog.Fact.mk.injEq,
      List.cons.injEq, and_true, true_and] at hhead
    obtain ⟨rfl, rfl⟩ := hhead
    exact ⟨σ "c", hbody.1, hbody.2.1⟩
  · rintro ⟨c, hc, hi⟩
    exact ⟨.of c [("w", w), ("img", img)], by simp [hcont, hruns, hc, hi], by simp⟩

theorem imgDrv_iff {img d : Val} :
    (coreAndK8s b).Derived (m.quads snapshot) ⟨.imgDrv, [img, d]⟩ ↔
      ∃ o, m.Holds b snapshot img (nix "runtimeClosureContains") o ∧ m.Holds b snapshot d (nix "hasOutput") o := by
  have hruntime : ∀ a c, (coreAndK8s b).Derived (m.quads snapshot) ⟨.nRuntimeClosure, [a, c]⟩ ↔
      m.Holds b snapshot a (nix "runtimeClosureContains") c :=
    fun a c => (coreAndK8s b).narrow_iff rfl (by simp)
  have hout : ∀ a c, (coreAndK8s b).Derived (m.quads snapshot) ⟨.nHasOutput, [a, c]⟩ ↔
      m.Holds b snapshot a (nix "hasOutput") c := fun a c => (coreAndK8s b).narrow_iff rfl (by simp)
  rw [(coreAndK8s b).derived_iff_one (p := .imgDrv) rfl (by simp)]
  constructor
  · rintro ⟨σ, hbody, hhead⟩
    simp only [List.forall_mem_cons, Datalog.Literal.holds_pos, ground_atom, List.map_cons,
      List.map_nil, ground_var, hruntime, hout] at hbody
    simp only [ground_atom, List.map_cons, List.map_nil, ground_var, Datalog.Fact.mk.injEq,
      List.cons.injEq, and_true, true_and] at hhead
    obtain ⟨rfl, rfl⟩ := hhead
    exact ⟨σ "o", hbody.1, hbody.2.1⟩
  · rintro ⟨o, hr, ho⟩
    exact ⟨.of o [("img", img), ("d", d)], by simp [hruntime, hout, hr, ho], by simp⟩

theorem hasRuntime_iff {img : Val} :
    (coreAndK8s b).Derived (m.quads snapshot) ⟨.hasRuntime, [img]⟩ ↔
      ∃ o, m.Holds b snapshot img (nix "runtimeClosureContains") o := by
  have hruntime : ∀ a c, (coreAndK8s b).Derived (m.quads snapshot) ⟨.nRuntimeClosure, [a, c]⟩ ↔
      m.Holds b snapshot a (nix "runtimeClosureContains") c :=
    fun a c => (coreAndK8s b).narrow_iff rfl (by simp)
  rw [(coreAndK8s b).derived_iff_one (p := .hasRuntime) rfl (by simp)]
  constructor
  · rintro ⟨σ, hbody, hhead⟩
    simp only [List.forall_mem_cons, Datalog.Literal.holds_pos, ground_atom, List.map_cons,
      List.map_nil, ground_var, hruntime] at hbody
    simp only [ground_atom, List.map_cons, List.map_nil, ground_var, Datalog.Fact.mk.injEq,
      List.cons.injEq, and_true, true_and] at hhead
    exact ⟨σ "o", by simpa [hhead] using hbody.1⟩
  · rintro ⟨o, ho⟩
    exact ⟨.of o [("img", img)], by simp [hruntime, ho], by simp⟩

def fallbackRule : DRule :=
  clause (ou (var "w") (k8s "runningClosure") (var "d"))
    [atom .wImage [var "w", var "img"], .neg (atom .hasRuntime [var "img"]), atom .nClosure [var "img", var "d"]]

set_option maxRecDepth 4000 in
theorem rulesOfOut_runningClosure :
    (coreAndK8s b).rulesOfOut (k8s "runningClosure") = [fallbackRule] := rfl

theorem fallback_iff {w d : Val} :
    (coreAndK8s b).Derived (m.quads snapshot) ⟨.out, [w, .const (.iri (k8s "runningClosure")), d]⟩ ↔
      ∃ img, m.RunsImage b snapshot w img ∧ (¬ ∃ o, m.Holds b snapshot img (nix "runtimeClosureContains") o) ∧
        m.Holds b snapshot img (nix "closureContains") d := by
  have hclosure : ∀ a c, (coreAndK8s b).Derived (m.quads snapshot) ⟨.nClosure, [a, c]⟩ ↔
      m.Holds b snapshot a (nix "closureContains") c := fun a c => (coreAndK8s b).narrow_iff rfl (by simp)
  rw [(coreAndK8s b).derived_out_iff, rulesOfOut_runningClosure]
  simp only [List.mem_singleton, exists_eq_left]
  simp only [fallbackRule, clause_derives, List.forall_mem_cons, Datalog.Literal.holds_pos,
    Datalog.Literal.holds_neg, ground_atom, ground_ou, List.map_cons, List.map_nil, ground_var, wImage_iff,
    hasRuntime_iff, hclosure, Datalog.Fact.mk.injEq, List.cons.injEq, and_true, true_and]
  constructor
  · rintro ⟨σ, ⟨hw, hno, hd, _⟩, rfl, rfl⟩
    exact ⟨σ "img", hw, hno, hd⟩
  · rintro ⟨img, hw, hno, hd⟩
    refine ⟨.of img [("w", w), ("d", d)], ?_, by simp⟩
    exact ⟨by simpa using hw, by simpa using hno, by simpa using hd, by simp⟩

theorem running_iff {w d : Val} : m.Running b snapshot w d ↔
    ∃ img, m.RunsImage b snapshot w img ∧
      ((∃ o, m.Holds b snapshot img (nix "runtimeClosureContains") o ∧ m.Holds b snapshot d (nix "hasOutput") o) ∨
        (¬ ∃ o, m.Holds b snapshot img (nix "runtimeClosureContains") o) ∧
          m.Holds b snapshot img (nix "closureContains") d) := by
  have hrules : (coreAndK8s b).rulesFor .running =
    [clause (atom .running [var "w", var "d"])
      [atom .wImage [var "w", var "img"], atom .imgDrv [var "img", var "d"]],
    clause (atom .running [var "w", var "d"]) [ou (var "w") (k8s "runningClosure") (var "d")]] := rfl
  rw [Running, (coreAndK8s b).derived_iff (by simp), hrules]
  simp only [List.mem_cons, List.not_mem_nil, or_false, exists_eq_or_imp, exists_eq_left]
  simp only [clause_derives, List.forall_mem_cons, Datalog.Literal.holds_pos, ground_atom, ground_ou,
    List.map_cons, List.map_nil, ground_var, wImage_iff, imgDrv_iff, fallback_iff, Datalog.Fact.mk.injEq,
    List.cons.injEq, and_true, true_and]
  constructor
  · rintro (⟨σ, ⟨hw, hd, _⟩, rfl, rfl⟩ | ⟨σ, ⟨⟨img, hw, hd⟩, _⟩, rfl, rfl⟩)
    · exact ⟨σ "img", hw, .inl hd⟩
    · exact ⟨img, hw, .inr hd⟩
  · rintro ⟨img, hw, hd | hd⟩
    · refine .inl ⟨.of img [("w", w), ("d", d)], ?_, by simp⟩
      exact ⟨by simpa using hw, by simpa using hd, by simp⟩
    · refine .inr ⟨.of d [("w", w)], ?_, by simp⟩
      exact ⟨⟨img, by simpa using hw, by simpa using hd⟩, by simp⟩

/-- A container of the workload runs the image, as the snapshot says. -/
def RecordedIn (m : ImageBuild x) (snapshot : Quad → Prop) (w : Nix2Rdf.Term) : Prop :=
  ∃ g g' c, snapshot ⟨g, w, k8s "hasContainer", c⟩ ∧ snapshot ⟨g', c, k8s "runsImage", .iri m.img⟩

theorem runsImage_of_recorded {w : Nix2Rdf.Term} (h : m.RecordedIn snapshot w) :
    m.RunsImage b snapshot (.const w) (.const (.iri m.img)) := by
  obtain ⟨g, g', c, hc, hi⟩ := h
  have hc : m.quads snapshot ⟨g, w, k8s "hasContainer", c⟩ := .inr (.inr hc)
  have hi : m.quads snapshot ⟨g', c, k8s "runsImage", .iri m.img⟩ := .inr (.inr hi)
  exact ⟨.const c, (coreAndK8s b).t_of_quad hc, (coreAndK8s b).t_of_quad hi⟩

include hlayers hsnap in
/-- What a workload of the image runs: what produces an output of the image derivation where that has a
known one, and the build closure where it has none. -/
theorem running_closure_iff {w : Nix2Rdf.Term} (hw : m.RecordedIn snapshot w) {i : Iri} :
    m.Running b snapshot (.const w) (.const (.iri i)) ↔
      (∃ o, m.Produces m.imageDrv o ∧ m.Produces i o) ∨
        (¬ ∃ o, m.Produces m.imageDrv o) ∧ m.BuildClosure i := by
  rw [running_iff]
  constructor
  · rintro ⟨img, _, ⟨o, hr, ho⟩ | ⟨hno, hd⟩⟩
    · obtain ⟨rfl, j, hj, rfl⟩ := (runtimeClosure_iff hlayers hsnap).mp hr
      obtain ⟨i', j', hij, hi, hj'⟩ := (hasOutput_iff hlayers hsnap).mp ho
      cases hi
      cases hj'
      exact .inl ⟨j, hj, hij⟩
    · obtain ⟨rfl, i', hi, heq⟩ := (closure_iff hlayers hsnap).mp hd
      cases heq
      refine .inr ⟨?_, hi⟩
      rintro ⟨o, ho⟩
      exact hno ⟨_, (runtimeClosure_iff hlayers hsnap).mpr ⟨rfl, o, ho, rfl⟩⟩
  · intro h
    refine ⟨_, runsImage_of_recorded hw, ?_⟩
    rcases h with ⟨o, ho, hi⟩ | ⟨hno, hi⟩
    · exact .inl ⟨_, (runtimeClosure_iff hlayers hsnap).mpr ⟨rfl, o, ho, rfl⟩,
        (hasOutput_iff hlayers hsnap).mpr ⟨i, o, hi, rfl, rfl⟩⟩
    · refine .inr ⟨?_, (closure_iff hlayers hsnap).mpr ⟨rfl, i, hi, rfl⟩⟩
      rintro ⟨o, ho⟩
      obtain ⟨_, j, hj, _⟩ := (runtimeClosure_iff hlayers hsnap).mp ho
      exact hno ⟨j, hj⟩

end ImageBuild

/-- The workload runs the whole build closure of its image exactly when the image derivation has no
known output, or every derivation of the closure has an output in common with it. -/
theorem runs_build_closure_iff {x : Extern} {m : ImageBuild x} {b : Builtins} {snapshot : Quad → Prop}
    {w : Nix2Rdf.Term} (hlayers : m.NoLayerData) (hsnap : ImageBuild.SnapshotQuads snapshot)
    (hw : m.RecordedIn snapshot w) :
    (∀ d, m.Holds b snapshot (.const (.iri m.img)) (nix "closureContains") d →
      m.Running b snapshot (.const w) d) ↔ m.OutputsUnknownOrShared := by
  constructor
  · intro h hknown i hi
    have hrun := h _ (ImageBuild.closure_complete hlayers hsnap hi)
    rcases (ImageBuild.running_closure_iff hlayers hsnap hw).mp hrun with hshared | ⟨hno, _⟩
    · exact hshared
    · exact absurd hknown hno
  · intro h d hd
    obtain ⟨_, i, hi, rfl⟩ := (ImageBuild.closure_iff hlayers hsnap).mp hd
    rw [ImageBuild.running_closure_iff hlayers hsnap hw]
    by_cases hknown : ∃ o, m.Produces m.imageDrv o
    · exact .inl (h hknown i hi)
    · exact .inr ⟨hknown, hi⟩

/-! ## An image and one dependency -/

def storePath (digit name : String) : String :=
  "/nix/store/" ++ String.join (List.replicate 32 digit) ++ "-" ++ name

def hashOf (digit : String) : String := String.join (List.replicate 32 digit)

def built (name : String) (out : Option String) : DrvInfo :=
  { name, system := "x86_64-linux", builder := "/bin/sh", outputs := .ofList [("out", { path := out })] compare }

/-- The derivation of an image, with or without a known output, and that of a package in it. -/
def imageAndPackage (imageOut : Option String) : List (String × DrvInfo) :=
  [(storePath "0" "image.drv", built "image" imageOut),
    (storePath "1" "hello.drv", built "hello" (some (storePath "2" "hello")))]

theorem exists_drvFragments (drvs : List (String × DrvInfo))
    (h : (drvs.mapM fun d => derivationFragment plainExtern d.1 d.2 ∅).isOk) :
    ∃ fs, drvs.mapM (fun d => derivationFragment plainExtern d.1 d.2 ∅) = .ok fs := by
  cases hok : drvs.mapM fun d => derivationFragment plainExtern d.1 d.2 ∅ with
  | error msg =>
      rw [hok] at h
      cases h
  | ok fs => exact ⟨fs, rfl⟩

def buildOf (imageOut : Option String) (fs : List Fragment)
    (ok : (imageAndPackage imageOut).mapM (fun d => derivationFragment plainExtern d.1 d.2 ∅) = .ok fs) :
    ImageBuild plainExtern :=
  ⟨"00", { tool := "dockerTools" }, Iri.drv (hashOf "0"), [hashOf "0", hashOf "1"], none,
    imageAndPackage imageOut, ∅, fs, ok⟩

/-- One container that runs the image. -/
def webSnapshot (q : Quad) : Prop :=
  q ∈ [(⟨"g", .iri "web", k8s "hasContainer", .iri "c"⟩ : Quad),
    ⟨"g", .iri "c", k8s "runsImage", .iri (Iri.image "00")⟩]

theorem webSnapshot_quads : ImageBuild.SnapshotQuads webSnapshot := by
  intro q hq
  simp only [webSnapshot, List.mem_cons, List.not_mem_nil, or_false] at hq
  rcases hq with rfl | rfl
  · exact .inr ⟨_, rfl⟩
  · exact .inr ⟨_, rfl⟩

theorem webSnapshot_recorded (imageOut : Option String) (fs : List Fragment) (ok) :
    (buildOf imageOut fs ok).RecordedIn webSnapshot (.iri "web") :=
  ⟨"g", "g", .iri "c", by simp [webSnapshot], by simp [webSnapshot, ImageBuild.img, buildOf]⟩

theorem buildOf_noLayerData (imageOut : Option String) (fs : List Fragment) (ok) :
    (buildOf imageOut fs ok).NoLayerData := by
  intro l hl
  cases hl

theorem produces_buildOf {imageOut : Option String} {fs : List Fragment} {ok} {i o : Iri}
    (h : (buildOf imageOut fs ok).Produces i o) :
    (i = Iri.drv (hashOf "0") ∧ ∃ p h, imageOut = some p ∧ storePathHash p = some h ∧ o = Iri.out h) ∨
      i = Iri.drv (hashOf "1") ∧ o = Iri.out (hashOf "2") := by
  have houtputs : ∀ name out, (built name out).outputs.toList = [("out", { path := out })] := fun _ _ => rfl
  obtain ⟨d, hd, h, hh, rfl, output, houtput, p, hp, oh, hoh, rfl⟩ := h
  simp only [buildOf, imageAndPackage, List.mem_cons, List.not_mem_nil, or_false] at hd
  rcases hd with rfl | rfl
  · rw [houtputs, List.mem_singleton] at houtput
    subst houtput
    have h0 : storePathHash (storePath "0" "image.drv") = some (hashOf "0") := by decide
    cases h0.symm.trans hh
    exact .inl ⟨rfl, p, oh, hp, hoh, rfl⟩
  · rw [houtputs, List.mem_singleton] at houtput
    subst houtput
    have h1 : storePathHash (storePath "1" "hello.drv") = some (hashOf "1") := by decide
    have h2 : storePathHash (storePath "2" "hello") = some (hashOf "2") := by decide
    cases h1.symm.trans hh
    cases hp
    cases h2.symm.trans hoh
    exact .inr ⟨rfl, rfl⟩

theorem runs_build_closure_iff_unbuilt : ∃ fs ok, let m := buildOf none fs ok
    ∀ d, m.Holds noBuiltins webSnapshot (.const (.iri m.img)) (nix "closureContains") d →
      m.Running noBuiltins webSnapshot (.const (.iri "web")) d := by
  obtain ⟨fs, ok⟩ := exists_drvFragments (imageAndPackage none) (by decide)
  refine ⟨fs, ok, (runs_build_closure_iff (buildOf_noLayerData _ _ _) webSnapshot_quads
    (webSnapshot_recorded _ _ _)).mpr ?_⟩
  rintro ⟨o, ho⟩
  rcases produces_buildOf ho with ⟨_, p, _, hp, _⟩ | ⟨hi, _⟩
  · cases hp
  · exact absurd (Iri.drv_inj.mp hi) (by decide)

/-- An image derivation with a known output hides the rest of the build closure. -/
theorem package_not_running : ∃ fs ok, let m := buildOf (some (storePath "3" "image")) fs ok
    m.Holds noBuiltins webSnapshot (.const (.iri m.img)) (nix "closureContains")
        (.const (.iri (Iri.drv (hashOf "1")))) ∧
      ¬ m.Running noBuiltins webSnapshot (.const (.iri "web")) (.const (.iri (Iri.drv (hashOf "1")))) := by
  obtain ⟨fs, ok⟩ := exists_drvFragments (imageAndPackage (some (storePath "3" "image")))
    (by decide)
  refine ⟨fs, ok, ImageBuild.holds_listed (by simp [buildOf]), ?_⟩
  rw [ImageBuild.running_closure_iff (buildOf_noLayerData _ _ _) webSnapshot_quads
    (webSnapshot_recorded _ _ _)]
  have h0 : storePathHash (storePath "0" "image.drv") = some (hashOf "0") := by decide
  have h3 : storePathHash (storePath "3" "image") = some (hashOf "3") := by decide
  have hknown : (buildOf _ fs ok).Produces (Iri.drv (hashOf "0")) (Iri.out (hashOf "3")) :=
    ⟨_, List.mem_cons_self, _, h0, rfl, ("out", { path := some (storePath "3" "image") }), List.mem_singleton.mpr rfl,
      _, rfl, _, h3, rfl⟩
  have h01 : Iri.drv (hashOf "1") ≠ Iri.drv (hashOf "0") := by
    rw [Ne, Iri.drv_inj]
    decide
  rintro (⟨o, ho, hi⟩ | ⟨hno, _⟩)
  · rcases produces_buildOf hi with ⟨h, _⟩ | ⟨_, rfl⟩
    · exact h01 h
    · rcases produces_buildOf ho with ⟨_, p, h, hp, hh, ho⟩ | ⟨h, _⟩
      · cases hp
        cases h3.symm.trans hh
        have hne : Iri.out (hashOf "2") ≠ Iri.out (hashOf "3") := by decide
        exact hne ho
      · exact h01 h.symm
  · exact hno ⟨_, hknown⟩

end Nix2Rdf.K8s
