import Nix2Rdf.Extract.Flake

/-!
# Flake extractions into one store

A store keeps the first fragment written at a path. The fragment of a pin has two makers, the lock
graph of a flake that locks it and the extraction of the flake itself, and only the second one types
it `nix:Snapshot`.
-/

namespace Nix2Rdf

open Triple

/-! ## Which fragment is a snapshot -/

/-- The triple types its subject `nix:Snapshot`. -/
def Triple.SaysSnapshot (t : Triple) : Prop := t.p = rdfType ∧ t.o = .iri (nix "Snapshot")

def Fragment.SaysSnapshot (f : Fragment) : Prop := ∃ t ∈ f.lines, t.SaysSnapshot

@[simp] theorem addType_saysSnapshot (s : Iri) (c : String) :
    (addType s (nix c)).SaysSnapshot ↔ c = "Snapshot" := by
  simp [SaysSnapshot]

theorem not_saysSnapshot_of_p {t : Triple} {term : String} (h : t.p = nix term) : ¬ t.SaysSnapshot := by
  rintro ⟨hp, _⟩
  exact nix_ne_rdfType term (h.symm.trans hp)

@[simp] theorem addIri_not_saysSnapshot (s o : Iri) (term : String) :
    ¬ (addIri s (nix term) o).SaysSnapshot := not_saysSnapshot_of_p rfl

@[simp] theorem addTyped_not_saysSnapshot (s d : Iri) (term v : String) :
    ¬ (addTyped s (nix term) v d).SaysSnapshot := not_saysSnapshot_of_p rfl

@[simp] theorem addStr_not_saysSnapshot (s : Iri) (term v : String) :
    ¬ (addStr s (nix term) v).SaysSnapshot := not_saysSnapshot_of_p rfl

@[simp] theorem addInt_not_saysSnapshot (s : Iri) (term : String) (v : Int) :
    ¬ (addInt s (nix term) v).SaysSnapshot := not_saysSnapshot_of_p rfl

@[simp] theorem addBool_not_saysSnapshot (s : Iri) (term : String) (v : Bool) :
    ¬ (addBool s (nix term) v).SaysSnapshot := not_saysSnapshot_of_p rfl

theorem Fragment.ofTriples_not_saysSnapshot {k : FragmentKind} {ts : List Triple}
    (h : ∀ t ∈ ts, ¬ t.SaysSnapshot) : ¬ (Fragment.ofTriples k ts).SaysSnapshot := by
  rintro ⟨t, ht, hs⟩
  exact h t (Fragment.mem_ofTriples.mp ht) hs

theorem sourceFragment_not_saysSnapshot (p n : String) :
    ¬ (Extract.sourceFragment p n).SaysSnapshot := by
  refine Fragment.ofTriples_not_saysSnapshot fun t ht => ?_
  simp only [List.mem_append, List.mem_cons, List.not_mem_nil, or_false, List.mem_map] at ht
  rcases ht with (rfl | rfl | rfl) | ⟨n, _, rfl⟩ <;> simp

theorem headTriples_not_saysSnapshot {x : Extern} {p : String} {d : DrvInfo} {s : Iri} {t : Triple}
    (ht : t ∈ Extract.headTriples x p d s) : ¬ t.SaysSnapshot := by
  simp only [Extract.headTriples, List.mem_append, List.mem_cons, List.not_mem_nil, or_false,
    List.mem_map, List.mem_filterMap, Option.map_eq_some_iff] at ht
  rcases ht with (((rfl | rfl | rfl | rfl | rfl) | ⟨_, _, rfl⟩) | ⟨k, _, _, _, rfl⟩) | rfl | rfl | rfl
  all_goals try simp
  split <;> simp

theorem inputTriples_not_saysSnapshot {s : Iri} {input : String × InputDrv} {ts : List Triple}
    (h : Extract.inputTriples s input = .ok ts) {t : Triple} (ht : t ∈ ts) : ¬ t.SaysSnapshot := by
  simp only [Extract.inputTriples, Result.bind_eq_ok, Result.pure_eq_ok] at h
  obtain ⟨ih, _, rfl⟩ := h
  simp only [List.mem_append, List.mem_cons, List.not_mem_nil, or_false, List.mem_map] at ht
  rcases ht with (rfl | rfl) | ⟨o, _, rfl⟩ <;> simp

theorem sourceTriples_not_saysSnapshot {p src : String} {m : BTreeMap String} {s : Iri}
    {ts : List Triple} (h : Extract.sourceTriples p m s src = .ok ts) {t : Triple} (ht : t ∈ ts) :
    ¬ t.SaysSnapshot := by
  unfold Extract.sourceTriples at h
  split at h
  · cases h
    simp only [List.mem_cons, List.not_mem_nil, or_false] at ht
    subst ht
    simp
  · cases h

theorem outputTriples_not_saysSnapshot {s : Iri} {o : String × OutputInfo} {ts : List Triple}
    (h : Extract.outputTriples s o = .ok ts) {t : Triple} (ht : t ∈ ts) : ¬ t.SaysSnapshot := by
  unfold Extract.outputTriples at h
  split at h
  · cases h
    cases ht
  · simp only [Result.bind_eq_ok, Result.pure_eq_ok] at h
    obtain ⟨oh, _, rfl⟩ := h
    simp only [List.mem_cons, List.not_mem_nil, or_false] at ht
    rcases ht with rfl | rfl | rfl | rfl <;> simp

theorem derivationFragment_not_saysSnapshot {x : Extern} {p : String} {d : DrvInfo}
    {m : BTreeMap String} {f : Fragment} (h : Extract.derivationFragment x p d m = .ok f) :
    ¬ f.SaysSnapshot := by
  simp only [Extract.derivationFragment, Result.bind_eq_ok, Result.pure_eq_ok] at h
  obtain ⟨hash, _, inputs, hinputs, srcs, hsrcs, outs, houts, rfl⟩ := h
  refine Fragment.ofTriples_not_saysSnapshot fun t ht => ?_
  simp only [List.mem_append, List.mem_flatten] at ht
  rcases ht with ((ht | ⟨ts, hts, ht⟩) | ⟨ts, hts, ht⟩) | ⟨ts, hts, ht⟩
  · exact headTriples_not_saysSnapshot ht
  · obtain ⟨_, _, hok⟩ := Result.mem_of_mapM hinputs hts
    exact inputTriples_not_saysSnapshot hok ht
  · obtain ⟨_, _, hok⟩ := Result.mem_of_mapM hsrcs hts
    exact sourceTriples_not_saysSnapshot hok ht
  · obtain ⟨_, _, hok⟩ := Result.mem_of_mapM houts hts
    exact outputTriples_not_saysSnapshot hok ht

theorem envFragment_not_saysSnapshot {p : String} {d : DrvInfo} {f : Fragment}
    (h : Extract.envFragment p d = .ok f) : ¬ f.SaysSnapshot := by
  simp only [Extract.envFragment, Result.bind_eq_ok, Result.pure_eq_ok] at h
  obtain ⟨hash, _, rfl⟩ := h
  refine Fragment.ofTriples_not_saysSnapshot fun t ht => ?_
  obtain ⟨kv, _, rfl⟩ := List.mem_map.mp ht
  simp

theorem drvFragments_not_saysSnapshot {x : Extern} {env : EnvMode} {m : BTreeMap String}
    {drv : String × DrvInfo} {fs : List Fragment} (h : Extract.drvFragments x env m drv = .ok fs)
    {f : Fragment} (hf : f ∈ fs) : ¬ f.SaysSnapshot := by
  simp only [Extract.drvFragments, Result.bind_eq_ok] at h
  obtain ⟨_, _, g, hg, h⟩ := h
  cases env with
  | hashOnly =>
      simp only [Result.pure_eq_ok] at h
      subst h
      rw [List.mem_singleton.mp hf]
      exact derivationFragment_not_saysSnapshot hg
  | full =>
      simp only [Result.bind_eq_ok, Result.pure_eq_ok] at h
      obtain ⟨e, he, rfl⟩ := h
      simp only [List.mem_cons, List.not_mem_nil, or_false] at hf
      rcases hf with rfl | rfl
      · exact derivationFragment_not_saysSnapshot hg
      · exact envFragment_not_saysSnapshot he

theorem extractFromDrvs_not_saysSnapshot {x : Extern} {src : NixSource} {drvs : BTreeMap DrvInfo}
    {env : EnvMode} {g : GraphExtraction} (h : Extract.extractFromDrvs x src drvs env = .ok g)
    {f : Fragment} (hf : f ∈ g.fragments) : ¬ f.SaysSnapshot := by
  simp only [Extract.extractFromDrvs, Result.bind_eq_ok] at h
  obtain ⟨infos, _, srcHashes, _, perDrv, hper, h⟩ := h
  obtain rfl := Result.pure_eq_ok.mp h
  simp only [List.mem_append, List.mem_map, List.mem_flatten] at hf
  rcases hf with ⟨s, _, rfl⟩ | ⟨fs, hfs, hf⟩
  · exact sourceFragment_not_saysSnapshot _ _
  · obtain ⟨drv, _, hdrv⟩ := Result.mem_of_mapM hper hfs
    exact drvFragments_not_saysSnapshot hdrv hf

namespace Flake

theorem addPin_not_saysSnapshot {pin : Iri} {locked : Json} {t : Triple} (ht : t ∈ addPin pin locked) :
    ¬ t.SaysSnapshot := by
  simp only [addPin, List.mem_append, List.mem_cons, List.not_mem_nil, or_false, List.mem_map] at ht
  rcases ht with ((((((((rfl | ⟨_, _, rfl⟩) | ⟨_, _, rfl⟩) | ⟨_, _, rfl⟩) | ⟨_, _, rfl⟩) | ⟨_, _, rfl⟩) |
    ⟨_, _, rfl⟩) | ⟨_, _, rfl⟩) | ⟨_, _, rfl⟩) | ⟨_, _, rfl⟩ <;> simp

theorem nodeFragment_not_saysSnapshot {k : Lock} {id : String} {f : Fragment}
    (h : k.nodeFragment id = some f) : ¬ f.SaysSnapshot := by
  simp only [Lock.nodeFragment, Option.bind_eq_some_iff, Option.map_eq_some_iff] at h
  obtain ⟨pin, _, locked, _, rfl⟩ := h
  exact Fragment.ofTriples_not_saysSnapshot fun t ht => addPin_not_saysSnapshot ht

theorem lockGraph_not_saysSnapshot {depth : Nat} {metadata : Json} {rootNar : String}
    {lock : List Fragment × List Triple} (h : lockGraph depth metadata rootNar = .ok lock)
    {f : Fragment} (hf : f ∈ lock.1) : ¬ f.SaysSnapshot := by
  simp only [lockGraph, Result.bind_eq_ok, Result.pure_eq_ok] at h
  obtain ⟨k, _, triples, _, rfl⟩ := h
  obtain ⟨id, _, hid⟩ := List.mem_filterMap.mp hf
  exact nodeFragment_not_saysSnapshot hid

theorem commitFragment_not_saysSnapshot (c : CommitInfo) (s : Iri) :
    ¬ (commitFragment c s).SaysSnapshot := by
  refine Fragment.ofTriples_not_saysSnapshot fun t ht => ?_
  simp only [List.mem_cons, List.not_mem_nil, or_false] at ht
  rcases ht with rfl | rfl | rfl | rfl | rfl <;> simp

/-! ## What an extraction returns -/

theorem extractFlake_eq_ok {x : Extern} {src : NixSource} {o : FlakeOptions} {e : FlakeExtraction}
    (h : extractFlake x src o = .ok e) :
    ∃ metadata locked rootNar lock graph rootDrvs drvs,
      lockGraph x.stack metadata rootNar = .ok lock ∧
      Extract.extractFromDrvs x src drvs o.env = .ok graph ∧
      e = assemble src o metadata locked rootNar lock graph rootDrvs := by
  simp only [extractFlake, Extract.extractGraph, Result.bind_eq_ok, Result.pure_eq_ok] at h
  obtain ⟨metadata, _, rootNar, _, lock, hlock, attrs, _, roots, _, graph, ⟨drvs, _, hgraph⟩, rfl⟩ := h
  exact ⟨_, _, _, _, _, _, _, hlock, hgraph, rfl⟩

variable {x : Extern} {src : NixSource} {o : FlakeOptions} {e : FlakeExtraction} {f : Fragment}

theorem rootFrag_kind (h : extractFlake x src o = .ok e) : e.rootFrag.kind = .pin e.rootNarHash := by
  obtain ⟨_, _, _, _, _, _, _, _, _, rfl⟩ := extractFlake_eq_ok h
  rfl

theorem snapshot_eq (h : extractFlake x src o = .ok e) : e.snapshot = Iri.pin e.rootNarHash := by
  obtain ⟨_, _, _, _, _, _, _, _, _, rfl⟩ := extractFlake_eq_ok h
  rfl

theorem rootFrag_graph (h : extractFlake x src o = .ok e) : e.rootFrag.graph = e.snapshot := by
  rw [Fragment.graph, rootFrag_kind h, snapshot_eq h]
  rfl

theorem rootFrag_mem (h : extractFlake x src o = .ok e) : e.rootFrag ∈ e.fragments := by
  obtain ⟨_, _, _, _, _, _, _, _, _, rfl⟩ := extractFlake_eq_ok h
  simp [assemble]

theorem rootFrag_saysSnapshot (h : extractFlake x src o = .ok e) : e.rootFrag.SaysSnapshot := by
  obtain ⟨_, _, rootNar, _, _, _, _, _, _, rfl⟩ := extractFlake_eq_ok h
  refine ⟨addType (Iri.pin rootNar) (nix "Snapshot"), ?_, by simp⟩
  simp [assemble, rootTriples]

/-- Only the root fragment of an extraction describes a snapshot. -/
theorem eq_rootFrag_of_saysSnapshot (h : extractFlake x src o = .ok e) (hf : f ∈ e.fragments)
    (hs : f.SaysSnapshot) : f = e.rootFrag := by
  obtain ⟨metadata, locked, rootNar, lock, graph, rootDrvs, drvs, hlock, hgraph, rfl⟩ :=
    extractFlake_eq_ok h
  simp only [assemble, List.mem_append, List.mem_cons, List.not_mem_nil, or_false, List.mem_map] at hf
  rcases hf with ((hf | hf) | rfl) | ⟨c, _, rfl⟩
  · exact absurd hs (lockGraph_not_saysSnapshot hlock hf)
  · exact absurd hs (extractFromDrvs_not_saysSnapshot hgraph hf)
  · rfl
  · exact absurd hs (commitFragment_not_saysSnapshot c _)

end Flake

/-! ## Histories -/

/-- An extraction that has succeeded. -/
structure Extracted (x : Extern) where
  src : NixSource
  opts : FlakeOptions
  result : FlakeExtraction
  ok : Flake.extractFlake x src opts = .ok result

/-- An extraction and how many of its fragments were written before its run ended. -/
structure Attempt (x : Extern) extends Extracted x where
  reached : Nat

variable {x : Extern} {Bytes : Type}

def Extracted.path (e : Extracted x) : String := Store.pathOf (.pin e.result.rootNarHash)

def Attempt.written (a : Attempt x) : List Fragment := a.result.fragments.take a.reached

/-- `write_all` has returned `Ok`. -/
def Extracted.complete (e : Extracted x) : Attempt x := ⟨e, e.result.fragments.length⟩

/-- The store after a sequence of extractions was written into it. -/
def storeAfter (c : Codec Bytes) (st : Store Bytes) : List (Attempt x) → Store Bytes
  | [] => st
  | a :: as => storeAfter c (writeAll c st a.written).1 as

/-- The first fragment for the path of `e` is the root fragment of an extraction of the same pin that
records all that `e` records; if the store had a file there before, that file records it. -/
def RecordedFirst (c : Codec Bytes) (st : Store Bytes) (before : List (Attempt x)) (e : Extracted x) :
    Prop :=
  match st.file? e.path with
  | some b => e.result.rootFrag.quads ⊆ (c.decode b).getD ∅
  | none => ∃ pre post, ∃ r ∈ before.map Attempt.toExtracted ++ [e],
      before.flatMap Attempt.written ++ e.result.fragments = pre ++ r.result.rootFrag :: post ∧
      (∀ f ∈ pre, Store.pathOf f.kind ≠ e.path) ∧ r.result.snapshot = e.result.snapshot ∧
      e.result.rootFrag.lines ⊆ r.result.rootFrag.lines

theorem storeAfter_eq (c : Codec Bytes) (st : Store Bytes) (as : List (Attempt x)) :
    storeAfter c st as = (writeAll c st (as.flatMap Attempt.written)).1 := by
  induction as generalizing st with
  | nil => rfl
  | cons a as ih => rw [storeAfter, ih, List.flatMap_cons, Store.writeAll_append]

theorem Extracted.complete_written (e : Extracted x) : e.complete.written = e.result.fragments :=
  List.take_length

theorem Extracted.pathOf_rootFrag (e : Extracted x) :
    Store.pathOf e.result.rootFrag.kind = e.path := by
  rw [Flake.rootFrag_kind e.ok]
  rfl

theorem Extracted.pathOf_eq_of_snapshot {r e : Extracted x} (h : r.result.snapshot = e.result.snapshot) :
    Store.pathOf r.result.rootFrag.kind = e.path := by
  rw [Flake.snapshot_eq r.ok, Flake.snapshot_eq e.ok] at h
  simp only [Flake.rootFrag_kind r.ok, Store.pathOf, FragmentKind.relativePath, Iri.pin_inj.mp h,
    Extracted.path]

theorem find?_root (before : List (Attempt x)) (e : Extracted x) (after : List (Attempt x)) :
    ((before ++ e.complete :: after).flatMap Attempt.written).find?
        (fun f => Store.pathOf f.kind = e.path) =
      (before.flatMap Attempt.written ++ e.result.fragments).find?
        fun f => Store.pathOf f.kind = e.path := by
  have hsome : ((before.flatMap Attempt.written ++ e.result.fragments).find?
      fun f => Store.pathOf f.kind = e.path).isSome := by
    rw [List.find?_isSome]
    exact ⟨_, List.mem_append_right _ (Flake.rootFrag_mem e.ok), by simp [e.pathOf_rootFrag]⟩
  rw [List.flatMap_append, List.flatMap_cons, e.complete_written, ← List.append_assoc,
    List.find?_append]
  exact Option.or_of_isSome hsome

/-- A fragment that holds the quads of a root fragment is a root fragment of the same pin. -/
theorem root_of_quads_subset {before : List (Attempt x)} {e : Extracted x} {f : Fragment}
    (hf : f ∈ before.flatMap Attempt.written ++ e.result.fragments)
    (hsub : e.result.rootFrag.quads ⊆ f.quads) :
    ∃ r ∈ before.map Attempt.toExtracted ++ [e], f = r.result.rootFrag ∧
      r.result.snapshot = e.result.snapshot ∧ e.result.rootFrag.lines ⊆ f.lines := by
  have hlines : ∀ t ∈ e.result.rootFrag.lines, f.graph = e.result.rootFrag.graph ∧ t ∈ f.lines := by
    intro t ht
    have hq := hsub (Fragment.mem_quads.mpr ⟨rfl, ht⟩ :
      (⟨e.result.rootFrag.graph, t.s, t.p, t.o⟩ : Quad) ∈ _)
    obtain ⟨hg, hmem⟩ := Fragment.mem_quads.mp hq
    exact ⟨hg.symm, hmem⟩
  obtain ⟨t, ht, hsnap⟩ := Flake.rootFrag_saysSnapshot e.ok
  have hgraph := (hlines t ht).1
  have hf' : ∃ r ∈ before.map Attempt.toExtracted ++ [e], f ∈ r.result.fragments := by
    rcases List.mem_append.mp hf with hf | hf
    · obtain ⟨a, ha, hfa⟩ := List.mem_flatMap.mp hf
      exact ⟨a.toExtracted, by simp [List.mem_map_of_mem ha], List.mem_of_mem_take hfa⟩
    · exact ⟨e, by simp, hf⟩
  obtain ⟨r, hr, hfr⟩ := hf'
  have hroot := Flake.eq_rootFrag_of_saysSnapshot r.ok hfr ⟨t, (hlines t ht).2, hsnap⟩
  refine ⟨r, hr, hroot, ?_, fun t ht => (hlines t ht).2⟩
  rw [← Flake.rootFrag_graph r.ok, ← Flake.rootFrag_graph e.ok, ← hroot, hgraph]

/-- The file of a pin holds the root fragment of an extraction exactly when what was first written
there records all of it. -/
theorem root_quads_subset_iff (c : Codec Bytes) (st : Store Bytes) (before after : List (Attempt x))
    (e : Extracted x) :
    e.result.rootFrag.quads ⊆ (storeAfter c st (before ++ e.complete :: after)).quadsAt c e.path ↔
      RecordedFirst c st before e := by
  unfold RecordedFirst
  rw [Store.quadsAt, storeAfter_eq, Store.file?_writeAll]
  cases hst : st.file? e.path with
  | some b => simp
  | none =>
      rw [find?_root, Option.none_or]
      constructor
      · intro hsub
        cases hfind : (before.flatMap Attempt.written ++ e.result.fragments).find?
            fun f => Store.pathOf f.kind = e.path with
        | none =>
            rw [List.find?_eq_none] at hfind
            have := hfind _ (List.mem_append_right _ (Flake.rootFrag_mem e.ok))
            simp [e.pathOf_rootFrag] at this
        | some f =>
            simp only [hfind, Option.map_some, Option.bind_some, c.decode_encode,
              Option.getD_some] at hsub
            obtain ⟨_, pre, post, hsplit, hpre⟩ := List.find?_eq_some_iff_append.mp hfind
            have hf : f ∈ before.flatMap Attempt.written ++ e.result.fragments := by
              simp [hsplit]
            obtain ⟨r, hr, rfl, hsnap, hlines⟩ := root_of_quads_subset hf hsub
            exact ⟨pre, post, r, hr, hsplit, by simpa using hpre, hsnap, hlines⟩
      · rintro ⟨pre, post, r, hr, hsplit, hpre, hsnap, hlines⟩
        have hfind : (before.flatMap Attempt.written ++ e.result.fragments).find?
            (fun f => Store.pathOf f.kind = e.path) = some r.result.rootFrag := by
          rw [List.find?_eq_some_iff_append]
          exact ⟨by simp [Extracted.pathOf_eq_of_snapshot hsnap], pre, post, hsplit, by simpa using hpre⟩
        simp only [hfind, Option.map_some, Option.bind_some, c.decode_encode, Option.getD_some]
        intro q hq
        obtain ⟨hg, ht⟩ := Fragment.mem_quads.mp hq
        refine Fragment.mem_quads.mpr ⟨?_, hlines ht⟩
        rw [hg, Flake.rootFrag_graph e.ok, Flake.rootFrag_graph r.ok, hsnap]

def flakeMetadata (nar : String) (nodes : List (String × Json)) : Json :=
  .obj [("locked", .obj [("narHash", .str nar)]),
    ("locks", .obj [("nodes", .obj nodes), ("root", .str "root")])]

/-- Two flakes, of which `app` locks `lib`. -/
def appAndLib : NixSource where
  derivationShow _ _ := .ok ∅
  pathInfo _ := .ok ∅
  flakeMetadata ref := .ok <|
    if ref = "app" then
      Nix2Rdf.flakeMetadata "sha256-QUFB"
        [("root", .obj [("inputs", .obj [("lib", .str "lib")])]),
          ("lib", .obj [("locked", .obj [("narHash", .str "sha256-QkJC")])])]
    else Nix2Rdf.flakeMetadata "sha256-QkJC" [("root", .obj [])]
  evalJson _ := .error "no meta"
  buildJson _ := .ok []
  flakeShow _ := .ok .null

def optionsOf (ref : String) : FlakeOptions :=
  ⟨ref, ["default"], "x86_64-linux", none, false, .hashOnly⟩

/-- The pin and the kinds of the fragments of an extraction. -/
def outline (ref : String) : Option (String × List FragmentKind) :=
  (Flake.extractFlake plainExtern appAndLib (optionsOf ref)).toOption.map fun e =>
    (e.rootNarHash, e.fragments.map Fragment.kind)

theorem exists_extracted (ref nar : String) (kinds : List FragmentKind)
    (h : outline ref = some (nar, kinds)) :
    ∃ e : Extracted plainExtern, e.result.rootNarHash = nar ∧ e.result.fragments.map Fragment.kind = kinds := by
  unfold outline at h
  cases hok : Flake.extractFlake plainExtern appAndLib (optionsOf ref) with
  | error msg =>
      rw [hok] at h
      cases h
  | ok result =>
      rw [hok] at h
      cases h
      exact ⟨⟨_, _, result, hok⟩, rfl, rfl⟩

/-- Extracting `app` first leaves the small fragment of `lib` where its snapshot should be. -/
theorem root_snapshot_dropped :
    ¬ ∀ (x : Extern) (before after : List (Attempt x)) (e : Extracted x),
      e.result.rootFrag.quads ⊆
        (storeAfter Codec.plain Store.empty (before ++ e.complete :: after)).quadsAt Codec.plain e.path := by
  intro hclaim
  obtain ⟨app, hnar, hkinds⟩ := exists_extracted "app" "sha256-QUFB"
    [.pin "sha256-QkJC", .pin "sha256-QUFB"] (by decide)
  obtain ⟨lib, hlib, _⟩ := exists_extracted "lib" "sha256-QkJC"
    [.pin "sha256-QkJC"] (by decide)
  obtain ⟨nested, rest, hfrags, hnested, _⟩ := List.map_eq_cons_iff.mp hkinds
  have hplain : ¬ nested.SaysSnapshot := by
    intro hs
    have hroot := Flake.eq_rootFrag_of_saysSnapshot app.ok (by simp [hfrags]) hs
    have hkind := Flake.rootFrag_kind app.ok
    rw [← hroot, hnested, hnar] at hkind
    exact absurd hkind (by decide)
  have hpath : Store.pathOf nested.kind = lib.path := by rw [hnested, Extracted.path, hlib]
  have hfile : (storeAfter Codec.plain Store.empty [app.complete, lib.complete]).quadsAt Codec.plain
      lib.path = nested.quads := by
    rw [Store.quadsAt, storeAfter_eq, Store.file?_writeAll]
    simp [app.complete_written, hfrags, hpath, Codec.plain]
  have hsub := hclaim plainExtern [app.complete] [] lib
  rw [List.singleton_append, hfile] at hsub
  obtain ⟨t, ht, hs⟩ := Flake.rootFrag_saysSnapshot lib.ok
  have hq := hsub (Fragment.mem_quads.mpr ⟨rfl, ht⟩ :
    (⟨lib.result.rootFrag.graph, t.s, t.p, t.o⟩ : Quad) ∈ _)
  exact hplain ⟨t, (Fragment.mem_quads.mp hq).2, hs⟩

end Nix2Rdf
