import Nix2Rdf.Extract.Derivations

/-!
# An extraction has everything or fails

The sources are collected, their NAR hashes asked for, and the fragments built. The three passes see
the same paths: the extraction succeeds exactly when no hash is missing anywhere in the graph, and
then every source that a fragment points at has a fragment too.
-/

namespace Nix2Rdf

open Triple

/-- 32 letters and digits, a dash, and a name are the last part of the path. -/
def HasStoreHash (path : String) : Prop :=
  ∃ hash name, Text.splitOnce '-' (Text.lastPart '/' path) = some (hash, name) ∧ hash.toList.length = 32 ∧
    Alphanumeric hash

theorem hasStoreHash_iff {path : String} : HasStoreHash path ↔ ∃ h, storePathHash path = some h := by
  constructor
  · intro h
    obtain ⟨hash, name, hsplit, hlen, hall⟩ := h
    exact ⟨hash, by rw [storePathHash, hsplit, Option.bind_some, if_pos ⟨hlen, hall⟩]⟩
  · intro h
    obtain ⟨hash, h⟩ := h
    obtain ⟨parts, hsplit, h⟩ := Option.bind_eq_some_iff.mp h
    split at h
    · rename_i hok
      exact ⟨parts.1, parts.2, hsplit, hok.1, hok.2⟩
    · cases h

namespace Extract

variable {x : Extern} {src : NixSource} {drvs : BTreeMap DrvInfo} {env : EnvMode} {g : GraphExtraction}
  {infos : BTreeMap (Option PathInfo)} {srcHashes : BTreeMap String}

theorem mem_srcList {p : String} :
    p ∈ srcList drvs ↔ ∃ (path : String) (d : DrvInfo), drvs[path]? = some d ∧ p ∈ d.inputSrcs := by
  rw [srcList, mem_btreeSet, List.mem_flatMap]
  constructor
  · intro h
    obtain ⟨d, hd, hp⟩ := h
    obtain ⟨path, hpath⟩ := BTreeMap.mem_values.mp hd
    exact ⟨path, d, hpath, hp⟩
  · intro h
    obtain ⟨path, d, hpath, hp⟩ := h
    exact ⟨d, BTreeMap.mem_values.mpr ⟨path, hpath⟩, hp⟩

theorem exists_sourceHashes {srcs : List String} :
    (∃ m, sourceHashes infos srcs = .ok m) ↔ ∀ p ∈ srcs, ∃ nar, narHashOf infos p = some nar := by
  constructor
  · intro h p hp
    obtain ⟨m, hm⟩ := h
    exact narHashOf_isSome hm hp
  · intro h
    have hnone : srcs.filter (fun p => (narHashOf infos p).isNone) = [] := by
      rw [List.filter_eq_nil_iff]
      intro p hp
      obtain ⟨nar, hnar⟩ := h p hp
      simp [hnar]
    rw [sourceHashes, hnone]
    exact ⟨_, rfl⟩

/-! ## One derivation -/

/-- The fragments of a derivation: its own, and in full mode that of its environment. -/
def FragmentsOf (x : Extern) (env : EnvMode) (srcHashes : BTreeMap String) (drv : String × DrvInfo)
    (fs : List Fragment) : Prop :=
  ∃ f, derivationFragment x drv.1 drv.2 srcHashes = .ok f ∧
    ((env = .hashOnly ∧ fs = [f]) ∨ (env = .full ∧ ∃ e, envFragment drv.1 drv.2 = .ok e ∧ fs = [f, e]))

theorem drvFragments_eq_ok {drv : String × DrvInfo} {fs : List Fragment} :
    drvFragments x env srcHashes drv = .ok fs ↔ FragmentsOf x env srcHashes drv fs := by
  have hhash : ∀ {f}, derivationFragment x drv.1 drv.2 srcHashes = .ok f → ∃ h, storeHash drv.1 = .ok h :=
    fun hf => storeHash_ok.mpr (exists_derivationFragment.mp ⟨_, hf⟩).1
  simp only [drvFragments, FragmentsOf, Result.bind_eq_ok]
  cases env with
  | hashOnly =>
      simp only [Result.pure_eq_ok, true_and, reduceCtorEq, false_and, or_false]
      constructor
      · intro h
        obtain ⟨_, _, f, hf, h⟩ := h
        exact ⟨f, hf, h.symm⟩
      · intro h
        obtain ⟨f, hf, h⟩ := h
        obtain ⟨hash, hh⟩ := hhash hf
        exact ⟨hash, hh, f, hf, h.symm⟩
  | full =>
      simp only [Result.bind_eq_ok, Result.pure_eq_ok, reduceCtorEq, false_and, true_and, false_or]
      constructor
      · intro h
        obtain ⟨_, _, f, hf, e, he, h⟩ := h
        exact ⟨f, hf, e, he, h.symm⟩
      · intro h
        obtain ⟨f, hf, e, he, h⟩ := h
        obtain ⟨hash, hh⟩ := hhash hf
        exact ⟨hash, hh, f, hf, e, he, h.symm⟩

theorem exists_drvFragments {drv : String × DrvInfo} : (∃ fs, drvFragments x env srcHashes drv = .ok fs) ↔
    (∃ h, storePathHash drv.1 = some h) ∧ Hashed drv.2 srcHashes := by
  rw [← exists_derivationFragment (x := x)]
  simp only [drvFragments_eq_ok, FragmentsOf]
  constructor
  · intro h
    obtain ⟨_, f, hf, _⟩ := h
    exact ⟨f, hf⟩
  · intro h
    obtain ⟨f, hf⟩ := h
    cases env with
    | hashOnly => exact ⟨[f], f, hf, .inl ⟨rfl, rfl⟩⟩
    | full =>
        obtain ⟨hash, hhash⟩ := (exists_derivationFragment.mp ⟨f, hf⟩).1
        have henv : ∃ e, envFragment drv.1 drv.2 = .ok e := by
          rw [envFragment, storeHash_eq_ok.mpr hhash]
          exact ⟨_, rfl⟩
        obtain ⟨e, he⟩ := henv
        exact ⟨[f, e], f, hf, .inr ⟨rfl, e, he, rfl⟩⟩

/-! ## The whole graph -/

/-- No hash is missing: neither of a source, nor of a path. -/
structure NothingMissing (drvs : BTreeMap DrvInfo) (infos : BTreeMap (Option PathInfo)) : Prop where
  sources : ∀ (path : String) (d : DrvInfo), drvs[path]? = some d →
    ∀ p ∈ d.inputSrcs, ∃ nar, narHashOf infos p = some nar
  paths : ∀ (path : String) (d : DrvInfo), drvs[path]? = some d → HasStoreHash path
  inputs : ∀ (path : String) (d : DrvInfo), drvs[path]? = some d → ∀ p ∈ d.inputDrvs, HasStoreHash p
  outputs : ∀ (path : String) (d : DrvInfo), drvs[path]? = some d → ∀ (name : String) (o : OutputInfo) (p : String),
    d.outputs[name]? = some o → o.path = some p → HasStoreHash p

/-- One fragment for each source, with the NAR hash that Nix reports, and those of each derivation; each
source that a derivation points at is one of them. -/
structure ExactFragments (x : Extern) (drvs : BTreeMap DrvInfo) (infos : BTreeMap (Option PathInfo)) (env : EnvMode)
    (g : GraphExtraction) : Prop where
  sources : ∀ p nar : String, g.srcHashes[p]? = some nar ↔
    (∃ (path : String) (d : DrvInfo), drvs[path]? = some d ∧ p ∈ d.inputSrcs) ∧ narHashOf infos p = some nar
  fragments : ∃ perDrv, List.Forall₂ (FragmentsOf x env g.srcHashes) drvs.toList perDrv ∧
    g.fragments = g.srcHashes.toList.map (fun s => sourceFragment s.1 s.2) ++ perDrv.flatten
  edges : ∀ (path : String) (d : DrvInfo) (f : Fragment), drvs[path]? = some d →
    derivationFragment x path d g.srcHashes = .ok f → f ∈ g.fragments ∧
      ∀ t ∈ f.lines, t.p = nix "inputSrc" →
        ∃ p nar : String, g.srcHashes[p]? = some nar ∧ sourceFragment p nar ∈ g.fragments ∧
          t.o = .iri (sourceFragment p nar).graph

theorem extractFromDrvs_eq_ok (hinfos : sourceInfos src (srcList drvs) = .ok infos) :
    extractFromDrvs x src drvs env = .ok g ↔ ∃ m perDrv, sourceHashes infos (srcList drvs) = .ok m ∧
      drvs.toList.mapM (drvFragments x env m) = .ok perDrv ∧
        { drvHashes := .ofList (drvs.toList.filterMap fun d => (storePathHash d.1).map fun h => (d.1, h)) compare
          srcHashes := m
          fragments := m.toList.map (fun s => sourceFragment s.1 s.2) ++ perDrv.flatten
          drvs := drvs } = g := by
  simp only [extractFromDrvs, hinfos, Result.bind_eq_ok, Result.pure_eq_ok, Except.ok.injEq]
  constructor
  · intro h
    obtain ⟨_, rfl, m, hm, perDrv, hper, rfl⟩ := h
    exact ⟨m, perDrv, hm, hper, rfl⟩
  · intro h
    obtain ⟨m, perDrv, hm, hper, rfl⟩ := h
    exact ⟨infos, rfl, m, hm, perDrv, hper, rfl⟩

/-- The sources of every derivation of the graph are among those that were asked for. -/
theorem hashed_iff {m : BTreeMap String} (hm : sourceHashes infos (srcList drvs) = .ok m) {path : String}
    {d : DrvInfo} (hd : drvs[path]? = some d) : Hashed d m ↔ (∀ p ∈ d.inputDrvs, HasStoreHash p) ∧
      ∀ (name : String) (o : OutputInfo) (p : String), d.outputs[name]? = some o → o.path = some p →
        HasStoreHash p := by
  simp only [hasStoreHash_iff]
  refine ⟨fun h => ⟨h.inputs, h.outputs⟩, fun h => ⟨h.1, fun p hp => ?_, h.2⟩⟩
  have hmem : p ∈ srcList drvs := mem_srcList.mpr ⟨path, d, hd, hp⟩
  rw [sourceHashes_eq_ok hm, if_pos hmem]
  exact narHashOf_isSome hm hmem

theorem exists_extractFromDrvs (hinfos : sourceInfos src (srcList drvs) = .ok infos) :
    (∃ g, extractFromDrvs x src drvs env = .ok g) ↔ NothingMissing drvs infos := by
  constructor
  · intro h
    obtain ⟨g, hg⟩ := h
    obtain ⟨m, perDrv, hm, hper, _⟩ := (extractFromDrvs_eq_ok hinfos).mp hg
    have hdrv : ∀ {path : String} {d : DrvInfo}, drvs[path]? = some d →
        (∃ h, storePathHash path = some h) ∧ Hashed d m := by
      intro path d hd
      obtain ⟨fs, _, hfs⟩ := Result.mem_mapM hper (Std.ExtTreeMap.mem_toList_iff_getElem?_eq_some.mpr hd)
      have hok : ∃ fs, drvFragments x env m (path, d) = .ok fs := ⟨fs, hfs⟩
      rw [exists_drvFragments] at hok
      exact hok
    refine ⟨fun path d hd p hp => ?_, fun path d hd => hasStoreHash_iff.mpr (hdrv hd).1,
      fun path d hd => ((hashed_iff hm hd).mp (hdrv hd).2).1, fun path d hd => ((hashed_iff hm hd).mp (hdrv hd).2).2⟩
    exact narHashOf_isSome hm (mem_srcList.mpr ⟨path, d, hd, hp⟩)
  · intro h
    have hsources : ∀ p ∈ srcList drvs, ∃ nar, narHashOf infos p = some nar := by
      intro p hp
      obtain ⟨path, d, hd, hp⟩ := mem_srcList.mp hp
      exact h.sources path d hd p hp
    obtain ⟨m, hm⟩ := exists_sourceHashes.mpr hsources
    have hdrvs : ∀ drv ∈ drvs.toList, ∃ fs, drvFragments x env m drv = .ok fs := by
      intro drv hdrv
      have hd := Std.ExtTreeMap.mem_toList_iff_getElem?_eq_some.mp hdrv
      have hashed : Hashed drv.2 m := (hashed_iff hm hd).mpr ⟨h.inputs _ _ hd, h.outputs _ _ hd⟩
      rw [exists_drvFragments]
      exact ⟨hasStoreHash_iff.mp (h.paths _ _ hd), hashed⟩
    obtain ⟨perDrv, hper⟩ := Result.exists_mapM hdrvs
    exact ⟨_, (extractFromDrvs_eq_ok hinfos).mpr ⟨m, perDrv, hm, hper, rfl⟩⟩

theorem exactFragments (hinfos : sourceInfos src (srcList drvs) = .ok infos)
    (hg : extractFromDrvs x src drvs env = .ok g) : ExactFragments x drvs infos env g := by
  obtain ⟨m, perDrv, hm, hper, rfl⟩ := (extractFromDrvs_eq_ok hinfos).mp hg
  have hsource : ∀ p nar : String, m[p]? = some nar ↔
      (∃ (path : String) (d : DrvInfo), drvs[path]? = some d ∧ p ∈ d.inputSrcs) ∧ narHashOf infos p = some nar := by
    intro p nar
    rw [sourceHashes_eq_ok hm, ← mem_srcList]
    by_cases hp : p ∈ srcList drvs <;> simp [hp]
  have hall : List.Forall₂ (FragmentsOf x env m) drvs.toList perDrv :=
    (Result.mapM_eq_ok.mp hper).imp fun _ _ h => drvFragments_eq_ok.mp h
  refine ⟨hsource, ⟨perDrv, hall, rfl⟩, fun path d f hd hf => ⟨?_, fun t ht hp => ?_⟩⟩
  · obtain ⟨fs, hfs, hok⟩ := Result.mem_mapM hper (Std.ExtTreeMap.mem_toList_iff_getElem?_eq_some.mpr hd)
    obtain ⟨f', hf', hcases⟩ := drvFragments_eq_ok.mp hok
    cases hf'.symm.trans hf
    refine List.mem_append_right _ (List.mem_flatten.mpr ⟨fs, hfs, ?_⟩)
    rcases hcases with ⟨_, rfl⟩ | ⟨_, e, _, rfl⟩ <;> exact List.mem_cons_self
  · obtain ⟨hash, _, _, hlines⟩ := mem_derivationFragment hf
    obtain ⟨p, nar, _, hnar, rfl⟩ := ((hlines t).mp ht).inputSrc hp
    refine ⟨p, nar, hnar, List.mem_append_left _ (List.mem_map.mpr ⟨(p, nar), ?_, rfl⟩), rfl⟩
    exact Std.ExtTreeMap.mem_toList_iff_getElem?_eq_some.mpr hnar

/-- An extraction succeeds exactly when nothing is missing, and then it has exactly the fragments of the
graph. -/
theorem extraction_all_or_nothing (hinfos : sourceInfos src (srcList drvs) = .ok infos) :
    ((∃ g, extractFromDrvs x src drvs env = .ok g) ↔ NothingMissing drvs infos) ∧
      ∀ g, extractFromDrvs x src drvs env = .ok g → ExactFragments x drvs infos env g :=
  ⟨exists_extractFromDrvs hinfos, fun _ => exactFragments hinfos⟩

/-- The answer for the sources of a graph of one derivation. -/
def twoHashes : BTreeMap (Option PathInfo) :=
  .ofList ([("/nix/store/a", "sha256-QUFB"), ("/nix/store/b", "sha256-QkJC")].map fun h =>
    (h.1, some { narHash := some h.2 })) compare

theorem extraction_all_or_nothing_two :
    ((∃ g, extractFromDrvs plainExtern (hashSource [("/nix/store/a", "sha256-QUFB"), ("/nix/store/b", "sha256-QkJC")])
      twoSources .full = .ok g) ↔ NothingMissing twoSources twoHashes) ∧
    ∀ g, extractFromDrvs plainExtern (hashSource [("/nix/store/a", "sha256-QUFB"), ("/nix/store/b", "sha256-QkJC")])
      twoSources .full = .ok g → ExactFragments plainExtern twoSources twoHashes .full g :=
  extraction_all_or_nothing (by rw [sourceInfos, if_neg (by decide)]; rfl)

end Extract

end Nix2Rdf
