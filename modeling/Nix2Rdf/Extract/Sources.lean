import Nix2Rdf.Extract.History
import Nix2Rdf.Identity

/-!
# Sources in a store

A source is identified by its NAR hash, and its fragment says at which store path it is. Two store
paths can have one NAR hash; the store then keeps the fragment of the first one.
-/

namespace Nix2Rdf

open Triple Store Reason

/-! ## The sources of an extraction -/

/-- An extraction from a derivation graph that has succeeded. -/
structure SourceRun (x : Extern) where
  src : NixSource
  drvs : BTreeMap DrvInfo
  env : EnvMode
  result : GraphExtraction
  ok : Extract.extractFromDrvs x src drvs env = .ok result

namespace SourceRun

variable {x : Extern}

/-- An input source with the NAR hash that Nix reports for it. -/
def Source (r : SourceRun x) (p nar : String) : Prop :=
  p ∈ Extract.srcList r.drvs ∧ ∃ infos, Extract.sourceInfos r.src (Extract.srcList r.drvs) = .ok infos ∧
    Extract.narHashOf infos p = some nar

end SourceRun

/-- The file of the source states where it is and what it is called. -/
def Store.StatesSource {Bytes : Type} (c : Codec Bytes) (st : Store Bytes) (p nar : String) : Prop :=
  (addStr (Iri.src nar) (nix "storePath") p).inGraph (Iri.src nar) ∈ st.quadsAt c (pathOf (.src nar)) ∧
    ∀ n ∈ storePathName p, (addStr (Iri.src nar) (nix "name") n).inGraph (Iri.src nar) ∈
      st.quadsAt c (pathOf (.src nar))

/-- Every input source of the run is stated. -/
def Store.KeepsSources {Bytes : Type} {x : Extern} (c : Codec Bytes) (st : Store Bytes) (r : SourceRun x) :
    Prop :=
  ∀ p ∈ Extract.srcList r.drvs, ∃ nar, r.Source p nar ∧ st.StatesSource c p nar

namespace Extract

theorem sourceHashes_eq_ok {infos : BTreeMap (Option PathInfo)} {srcs : List String} {m : BTreeMap String}
    (h : sourceHashes infos srcs = .ok m) (p : String) :
    m[p]? = if p ∈ srcs then narHashOf infos p else none := by
  unfold sourceHashes at h
  split at h
  · cases h
    exact BTreeMap.getElem?_ofList_filterMap (narHashOf infos) srcs p
  · cases h

/-- An extraction that succeeds has a NAR hash for every source. -/
theorem narHashOf_isSome {infos : BTreeMap (Option PathInfo)} {srcs : List String} {m : BTreeMap String}
    (h : sourceHashes infos srcs = .ok m) {p : String} (hp : p ∈ srcs) : ∃ nar, narHashOf infos p = some nar := by
  unfold sourceHashes at h
  split at h
  · rename_i hnone
    rw [List.filter_eq_nil_iff] at hnone
    exact Option.isSome_iff_exists.mp (by simpa [Option.isSome_iff_ne_none] using hnone p hp)
  · cases h

theorem drvFragments_kind {x : Extern} {env : EnvMode} {m : BTreeMap String} {drv : String × DrvInfo}
    {fs : List Fragment} (h : drvFragments x env m drv = .ok fs) {f : Fragment} (hf : f ∈ fs) :
    ∃ hash, storePathHash drv.1 = some hash ∧ (f.kind = .drv hash ∨ f.kind = .env hash) := by
  have hdrv : ∀ g, derivationFragment x drv.1 drv.2 m = .ok g →
      ∃ hash, storePathHash drv.1 = some hash ∧ g.kind = .drv hash := by
    intro g hg
    simp only [derivationFragment, Result.bind_eq_ok, Result.pure_eq_ok] at hg
    obtain ⟨hash, hhash, _, _, _, _, _, _, rfl⟩ := hg
    exact ⟨hash, storeHash_eq_ok.mp hhash, rfl⟩
  simp only [drvFragments, Result.bind_eq_ok] at h
  obtain ⟨_, _, g, hg, h⟩ := h
  obtain ⟨hash, hhash, hkind⟩ := hdrv g hg
  cases env with
  | hashOnly =>
      simp only [Result.pure_eq_ok] at h
      rw [← h, List.mem_singleton] at hf
      exact ⟨hash, hhash, .inl (by rw [hf, hkind])⟩
  | full =>
      simp only [Result.bind_eq_ok, Result.pure_eq_ok] at h
      obtain ⟨e, he, rfl⟩ := h
      simp only [List.mem_cons, List.not_mem_nil, or_false] at hf
      cases hf with
      | inl hf => exact ⟨hash, hhash, .inl (by rw [hf, hkind])⟩
      | inr hf =>
          simp only [envFragment, Result.bind_eq_ok, Result.pure_eq_ok] at he
          obtain ⟨hash', hhash', rfl⟩ := he
          exact ⟨hash', storeHash_eq_ok.mp hhash', .inr (by rw [hf]; rfl)⟩

end Extract

namespace SourceRun

variable {x : Extern} (r : SourceRun x)

theorem source_iff {p nar : String} : r.Source p nar ↔ r.result.srcHashes[p]? = some nar := by
  obtain ⟨src, drvs, env, result, hok⟩ := r
  have hext := hok
  simp only [Extract.extractFromDrvs, Result.bind_eq_ok, Result.pure_eq_ok] at hext
  obtain ⟨infos, hinfos, m, hm, perDrv, _, rfl⟩ := hext
  rw [Extract.sourceHashes_eq_ok hm]
  constructor
  · intro h
    obtain ⟨hp, infos', hinfos', hnar⟩ := h
    have heq : infos' = infos := Except.ok.inj (hinfos'.symm.trans hinfos)
    rw [if_pos hp, ← hnar, heq]
  · intro h
    by_cases hp : p ∈ Extract.srcList drvs
    · rw [if_pos hp] at h
      exact ⟨hp, infos, hinfos, h⟩
    · rw [if_neg hp] at h
      cases h

/-- Every input source has a NAR hash. -/
theorem exists_source {p : String} (hp : p ∈ Extract.srcList r.drvs) : ∃ nar, r.Source p nar := by
  have hext := r.ok
  simp only [Extract.extractFromDrvs, Result.bind_eq_ok] at hext
  obtain ⟨infos, hinfos, m, hm, _⟩ := hext
  obtain ⟨nar, hnar⟩ := Extract.narHashOf_isSome hm hp
  exact ⟨nar, hp, infos, hinfos, hnar⟩

theorem sourceFragment_mem {p nar : String} (h : r.Source p nar) :
    Extract.sourceFragment p nar ∈ r.result.fragments := by
  have hmem := Std.ExtTreeMap.mem_toList_iff_getElem?_eq_some.mpr (r.source_iff.mp h)
  have hext := r.ok
  simp only [Extract.extractFromDrvs, Result.bind_eq_ok, Result.pure_eq_ok] at hext
  obtain ⟨_, _, m, _, _, _, hres⟩ := hext
  rw [← hres] at hmem ⊢
  exact List.mem_append_left _ (List.mem_map.mpr ⟨(p, nar), hmem, rfl⟩)

/-- A fragment of the run is about a source or about a derivation. -/
theorem fragment_cases {f : Fragment} (hf : f ∈ r.result.fragments) :
    (∃ p nar, r.Source p nar ∧ f = Extract.sourceFragment p nar) ∨
      ∃ drv hash, storePathHash drv = some hash ∧ (f.kind = .drv hash ∨ f.kind = .env hash) := by
  have hsources : ∀ p nar, r.result.srcHashes[p]? = some nar → r.Source p nar := fun _ _ => r.source_iff.mpr
  have hext := r.ok
  simp only [Extract.extractFromDrvs, Result.bind_eq_ok, Result.pure_eq_ok] at hext
  obtain ⟨_, _, m, _, perDrv, hper, hres⟩ := hext
  rw [← hres] at hf hsources
  simp only [List.mem_append, List.mem_map, List.mem_flatten] at hf
  cases hf with
  | inl hf =>
      obtain ⟨s, hs, rfl⟩ := hf
      exact .inl ⟨s.1, s.2, hsources _ _ (Std.ExtTreeMap.mem_toList_iff_getElem?_eq_some.mp hs), rfl⟩
  | inr hf =>
      obtain ⟨fs, hfs, hf⟩ := hf
      obtain ⟨drv, _, hok⟩ := Result.mem_of_mapM hper hfs
      obtain ⟨hash, hhash, hkind⟩ := Extract.drvFragments_kind hok hf
      exact .inr ⟨drv.1, hash, hhash, hkind⟩

theorem source_unique {r : SourceRun x} {p nar nar' : String} (h : r.Source p nar) (h' : r.Source p nar') :
    nar = nar' :=
  Option.some.inj ((r.source_iff.mp h).symm.trans (r.source_iff.mp h'))

end SourceRun

/-! ## Which fragment has the file of a source -/

theorem alphanumeric_of_storePathHash {path hash : String} (h : storePathHash path = some hash) :
    Alphanumeric hash := by
  rw [storePathHash, Option.bind_eq_some_iff] at h
  obtain ⟨parts, _, hparts⟩ := h
  split at hparts
  · rename_i hall
    cases hparts
    exact hall.2
  · cases hparts

theorem pathOf_src_inj {nar nar' : String} (h : CanonicalSri nar) (h' : CanonicalSri nar')
    (heq : pathOf (.src nar) = pathOf (.src nar')) : nar = nar' := by
  have hwf : (FragmentKind.src nar).WellFormed := h
  have hwf' : (FragmentKind.src nar').WellFormed := h'
  have hcomp := (FragmentKind.pathOf_eq_iff hwf hwf').mp heq
  have hseg : narHashSegment nar = narHashSegment nar' := by
    simpa [FragmentKind.components, FragmentKind.placed, FragmentKind.dir, FragmentKind.mid,
      FragmentKind.rest, FragmentKind.place, Paths.Dropped] using hcomp
  rw [← decodeNar_narHashSegment h, hseg, decodeNar_narHashSegment h']

theorem pathOf_src_ne {nar hash : String} (h : CanonicalSri nar) (hhash : Alphanumeric hash) :
    pathOf (.src nar) ≠ pathOf (.drv hash) ∧ pathOf (.src nar) ≠ pathOf (.env hash) := by
  have hwf : (FragmentKind.src nar).WellFormed := h
  constructor
  · intro heq
    have hdrv : (FragmentKind.drv hash).WellFormed := hhash
    have hcomp := (FragmentKind.pathOf_eq_iff hwf hdrv).mp heq
    simp [FragmentKind.components, FragmentKind.placed, FragmentKind.dir, FragmentKind.mid,
      FragmentKind.rest, FragmentKind.place, Paths.Dropped] at hcomp
  · intro heq
    have henv : (FragmentKind.env hash).WellFormed := hhash
    have hcomp := (FragmentKind.pathOf_eq_iff hwf henv).mp heq
    simp [FragmentKind.components, FragmentKind.placed, FragmentKind.dir, FragmentKind.mid,
      FragmentKind.rest, FragmentKind.place, Paths.Dropped] at hcomp

section History

variable {x : Extern} {Bytes : Type} {c : Codec Bytes} {st : Store Bytes} {runs : List (SourceRun x)}

def SourceRun.fragments (r : SourceRun x) : List Fragment := r.result.fragments

/-- Nix reports every NAR hash in its canonical form. -/
def CanonicalHashes (runs : List (SourceRun x)) : Prop :=
  ∀ r ∈ runs, ∀ p nar, r.Source p nar → CanonicalSri nar

/-- Only fragments about the same contents have the file of a source. -/
theorem source_of_path (hsri : CanonicalHashes runs) {nar : String} (hnar : CanonicalSri nar) {f : Fragment}
    (hf : f ∈ (runs.map SourceRun.fragments).flatten) (hpath : pathOf f.kind = pathOf (.src nar)) :
    ∃ r ∈ runs, ∃ p, r.Source p nar ∧ f = Extract.sourceFragment p nar := by
  simp only [List.mem_flatten, List.mem_map] at hf
  obtain ⟨_, ⟨r, hr, rfl⟩, hf⟩ := hf
  rcases r.fragment_cases hf with ⟨p, nar', hsource, rfl⟩ | ⟨drv, hash, hhash, hkind⟩
  · have heq := pathOf_src_inj (hsri r hr p nar' hsource) hnar hpath
    rw [heq] at hsource
    exact ⟨r, hr, p, hsource, by rw [heq]⟩
  · obtain ⟨hdrv, henv⟩ := pathOf_src_ne hnar (alphanumeric_of_storePathHash hhash)
    cases hkind with
    | inl hkind => exact absurd (hkind ▸ hpath).symm hdrv
    | inr hkind => exact absurd (hkind ▸ hpath).symm henv

theorem statesSource_iff_sourceFragment {p p' nar : String} {st : Store Bytes}
    (h : st.quadsAt c (pathOf (.src nar)) = (Extract.sourceFragment p' nar).quads) :
    st.StatesSource c p nar ↔ p' = p := by
  have hline : ∀ t : Triple, t.inGraph (Iri.src nar) ∈ (Extract.sourceFragment p' nar).quads ↔
      t ∈ (Extract.sourceFragment p' nar).lines := by
    intro t
    rw [Fragment.mem_quads]
    exact and_iff_right rfl
  rw [Store.StatesSource, h, hline]
  constructor
  · intro hstates
    have hmem := hstates.1
    simp only [Extract.sourceFragment, Fragment.mem_ofTriples, List.mem_append, List.mem_cons, List.mem_map,
      List.not_mem_nil, or_false] at hmem
    rcases hmem with (hmem | hmem | hmem) | ⟨n, _, hmem⟩
    · exact absurd (congrArg Triple.p hmem) (by simp)
    · exact absurd (congrArg Triple.p hmem) (by simp)
    · exact (addStr_inj.mp hmem).2.2.symm
    · exact absurd (congrArg Triple.p hmem) (by simp)
  · rintro rfl
    refine ⟨by simp [Extract.sourceFragment], fun n hn => (hline _).mpr ?_⟩
    simp only [Extract.sourceFragment, Fragment.mem_ofTriples, List.mem_append, List.mem_map]
    exact .inr ⟨n, Option.mem_toList.mpr hn, rfl⟩

/-- The file of a source holds the fragment of the first store path with its contents. -/
theorem first_source (hsri : CanonicalHashes runs) {r : SourceRun x} (hr : r ∈ runs) {p nar : String}
    (hsource : r.Source p nar) (hnone : st.file? (pathOf (.src nar)) = none) :
    ∃ r₀ ∈ runs, ∃ p₀, r₀.Source p₀ nar ∧
      (afterRuns c st (runs.map SourceRun.fragments)).quadsAt c (pathOf (.src nar)) =
        (Extract.sourceFragment p₀ nar).quads := by
  have hmem : Extract.sourceFragment p nar ∈ (runs.map SourceRun.fragments).flatten :=
    List.mem_flatten.mpr ⟨_, List.mem_map_of_mem hr, r.sourceFragment_mem hsource⟩
  rw [afterRuns_eq, quadsAt_writeAll, hnone]
  cases hfind : (runs.map SourceRun.fragments).flatten.find? fun f => pathOf f.kind = pathOf (.src nar) with
  | none =>
      rw [List.find?_eq_none] at hfind
      have hne : pathOf (.src nar) ≠ pathOf (.src nar) := by simpa [Extract.sourceFragment] using hfind _ hmem
      exact absurd rfl hne
  | some f =>
      have hpath : pathOf f.kind = pathOf (.src nar) := by simpa using List.find?_some hfind
      obtain ⟨r₀, hr₀, p₀, hsource₀, rfl⟩ :=
        source_of_path hsri (hsri r hr p nar hsource) (List.mem_of_find?_eq_some hfind) hpath
      exact ⟨r₀, hr₀, p₀, hsource₀, rfl⟩

theorem keepsSources_after {done rest : List (SourceRun x)} {r : SourceRun x} (hruns : runs = done ++ r :: rest) :
    (afterRuns c st ((done ++ [r]).map SourceRun.fragments)).KeepsSources c r ↔
      ∀ p nar, r.Source p nar →
        (afterRuns c st (runs.map SourceRun.fragments)).StatesSource c p nar := by
  have hsame : ∀ p nar, r.Source p nar →
      ((afterRuns c st ((done ++ [r]).map SourceRun.fragments)).StatesSource c p nar ↔
        (afterRuns c st (runs.map SourceRun.fragments)).StatesSource c p nar) := by
    intro p nar hsource
    have hquads := quadsAt_afterRuns c st (done.map SourceRun.fragments) (rest.map SourceRun.fragments)
      (r.sourceFragment_mem hsource)
    rw [Extract.sourceFragment, Fragment.ofTriples_kind] at hquads
    simp only [Store.StatesSource, hruns, List.map_append, List.map_cons, List.map_nil,
      SourceRun.fragments] at hquads ⊢
    rw [hquads]
  constructor
  · intro hkeeps p nar hsource
    obtain ⟨nar', hsource', hstates⟩ := hkeeps p hsource.1
    cases SourceRun.source_unique hsource hsource'
    exact (hsame p nar hsource).mp hstates
  · intro hall p hp
    obtain ⟨nar, hsource⟩ := r.exists_source hp
    exact ⟨nar, hsource, (hsame p nar hsource).mpr (hall p nar hsource)⟩

/-- After every run each input source of that run is stated exactly when a file that was there before
states it, and elsewhere no two store paths have the same contents. -/
theorem sources_kept_iff (c : Codec Bytes) (st : Store Bytes) (runs : List (SourceRun x))
    (hsri : CanonicalHashes runs) :
    (∀ done r rest, runs = done ++ r :: rest →
      (afterRuns c st ((done ++ [r]).map SourceRun.fragments)).KeepsSources c r) ↔
    ∀ r ∈ runs, ∀ p nar, r.Source p nar →
      ((st.file? (pathOf (.src nar))).isSome → st.StatesSource c p nar) ∧
      (st.file? (pathOf (.src nar)) = none → ∀ r' ∈ runs, ∀ p', r'.Source p' nar → p' = p) := by
  have hpresent : ∀ p nar, (st.file? (pathOf (.src nar))).isSome →
      ((afterRuns c st (runs.map SourceRun.fragments)).StatesSource c p nar ↔ st.StatesSource c p nar) := by
    intro p nar hsome
    rw [Store.StatesSource, Store.StatesSource, afterRuns_eq, quadsAt_writeAll, if_pos hsome]
  constructor
  · intro hall
    have hfinal : ∀ r ∈ runs, ∀ p nar, r.Source p nar →
        (afterRuns c st (runs.map SourceRun.fragments)).StatesSource c p nar := by
      intro r hr
      obtain ⟨done, rest, hruns⟩ := List.append_of_mem hr
      exact (keepsSources_after hruns).mp (hall done r rest hruns)
    intro r hr p nar hsource
    refine ⟨fun hsome => (hpresent p nar hsome).mp (hfinal r hr p nar hsource), ?_⟩
    intro hnone r' hr' p' hsource'
    obtain ⟨_, _, p₀, _, hquads⟩ := first_source hsri hr hsource hnone
    have hp := (statesSource_iff_sourceFragment hquads).mp (hfinal r hr p nar hsource)
    have hp' := (statesSource_iff_sourceFragment hquads).mp (hfinal r' hr' p' nar hsource')
    exact hp'.symm.trans hp
  · intro hcond done r rest hruns
    have hr : r ∈ runs := by simp [hruns]
    refine (keepsSources_after hruns).mpr fun p nar hsource => ?_
    obtain ⟨hsome, hnone⟩ := hcond r hr p nar hsource
    cases hfile : st.file? (pathOf (.src nar)) with
    | some b =>
        have hthere : (st.file? (pathOf (.src nar))).isSome := by rw [hfile]; rfl
        exact (hpresent p nar hthere).mpr (hsome hthere)
    | none =>
        obtain ⟨r₀, hr₀, p₀, hsource₀, hquads⟩ := first_source (c := c) hsri hr hsource hfile
        exact (statesSource_iff_sourceFragment hquads).mpr (hnone hfile r₀ hr₀ p₀ hsource₀)

end History

/-! ### One derivation with two sources -/

/-- Reports the NAR hashes that are listed. -/
def hashSource (hashes : List (String × String)) : NixSource where
  derivationShow _ _ := .ok ∅
  pathInfo _ := .ok (.ofList (hashes.map fun h => (h.1, some { narHash := some h.2 })) compare)
  flakeMetadata _ := .ok .null
  evalJson _ := .ok .null
  buildJson _ := .ok []
  flakeShow _ := .ok .null

def twoSources : BTreeMap DrvInfo :=
  (∅ : BTreeMap DrvInfo).insert "/nix/store/00000000000000000000000000000000-x.drv"
    { name := "x", system := "any", builder := "sh", inputSrcs := ["/nix/store/a", "/nix/store/b"] }

/-- An extraction whose sources and hashes are known. -/
theorem exists_sourceRun (hashes : List (String × String))
    (h : (Extract.extractFromDrvs plainExtern (hashSource hashes) twoSources .hashOnly).toOption.map
      (fun g => g.srcHashes.toList) = some hashes) :
    ∃ r : SourceRun plainExtern, ∀ p nar, r.Source p nar ↔ (p, nar) ∈ hashes := by
  cases hok : Extract.extractFromDrvs plainExtern (hashSource hashes) twoSources .hashOnly with
  | error msg =>
      rw [hok] at h
      cases h
  | ok result =>
      rw [hok] at h
      have hlist : result.srcHashes.toList = hashes := Option.some.inj h
      refine ⟨⟨_, _, _, result, hok⟩, fun p nar => ?_⟩
      have hmem : (p, nar) ∈ result.srcHashes.toList ↔ result.srcHashes[p]? = some nar :=
        Std.ExtTreeMap.mem_toList_iff_getElem?_eq_some
      rw [SourceRun.source_iff, ← hmem, hlist]

theorem canonicalSri_QUFB : CanonicalSri "sha256-QUFB" :=
  ⟨"sha256", [65, 65, 65], by decide, by decide, by decide⟩

theorem canonicalSri_QkJC : CanonicalSri "sha256-QkJC" :=
  ⟨"sha256", [66, 66, 66], by decide, by decide, by decide⟩

theorem sources_kept_iff_apart : ∃ r : SourceRun plainExtern,
    ∀ done r' rest, [r] = done ++ r' :: rest →
      (afterRuns Codec.plain .empty ((done ++ [r']).map SourceRun.fragments)).KeepsSources Codec.plain r' := by
  obtain ⟨r, hr⟩ := exists_sourceRun
    [("/nix/store/a", "sha256-QUFB"), ("/nix/store/b", "sha256-QkJC")] (by decide)
  have hsri : CanonicalHashes [r] := by
    intro r' hr' p nar h
    rw [List.mem_singleton.mp hr', hr] at h
    simp only [List.mem_cons, Prod.mk.injEq, List.not_mem_nil, or_false] at h
    rcases h with ⟨_, rfl⟩ | ⟨_, rfl⟩
    · exact canonicalSri_QUFB
    · exact canonicalSri_QkJC
  refine ⟨r, (sources_kept_iff Codec.plain .empty [r] hsri).mpr fun r' hr' p nar h => ⟨?_, ?_⟩⟩
  · intro hsome
    rw [file?_empty] at hsome
    cases hsome
  · intro _ r'' hr'' p' h'
    rw [List.mem_singleton.mp hr', hr] at h
    rw [List.mem_singleton.mp hr'', hr] at h'
    simp only [List.mem_cons, Prod.mk.injEq, List.not_mem_nil, or_false] at h h'
    rcases h with ⟨rfl, rfl⟩ | ⟨rfl, rfl⟩ <;> simpa using h'

/-- Two store paths have the same contents, and only the first one is recorded. -/
theorem second_path_dropped : ∃ r : SourceRun plainExtern, CanonicalHashes [r] ∧
    ¬ (afterRuns Codec.plain .empty [r.fragments]).KeepsSources Codec.plain r := by
  obtain ⟨r, hr⟩ := exists_sourceRun
    [("/nix/store/a", "sha256-QUFB"), ("/nix/store/b", "sha256-QUFB")] (by decide)
  have hsri : CanonicalHashes [r] := by
    intro r' hr' p nar h
    rw [List.mem_singleton.mp hr', hr] at h
    simp only [List.mem_cons, Prod.mk.injEq, List.not_mem_nil, or_false] at h
    rcases h with ⟨_, rfl⟩ | ⟨_, rfl⟩ <;> exact canonicalSri_QUFB
  refine ⟨r, hsri, fun hkeeps => ?_⟩
  have hone : [r] = [] ++ r :: [] := rfl
  have hall := (keepsSources_after hone).mp hkeeps
  have ha := (hr "/nix/store/a" "sha256-QUFB").mpr (by simp)
  have hb := (hr "/nix/store/b" "sha256-QUFB").mpr (by simp)
  obtain ⟨_, _, p₀, _, hquads⟩ := first_source (c := Codec.plain) hsri (List.mem_singleton_self r) ha (file?_empty _)
  have hpa := (statesSource_iff_sourceFragment hquads).mp (hall _ _ ha)
  have hpb := (statesSource_iff_sourceFragment hquads).mp (hall _ _ hb)
  rw [hpa] at hpb
  simp at hpb

end Nix2Rdf
