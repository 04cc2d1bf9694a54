import Nix2Rdf.Extract.Flake
import Nix2Rdf.Extract.Image
import Nix2Rdf.Extract.Jobs
import Nix2Rdf.Extract.Nixos
import Nix2Rdf.Extract.Sources

/-!
# Interrupted writes

A batch of fragments is written one file after the other, and the writing may end anywhere. What a
snapshot refers to is written before it, so that the store is referentially closed at every point.
-/

namespace Nix2Rdf

open Triple Store Extract

/-! ## Closed stores -/

/-- The terms by which a snapshot names derivations. -/
def rootTerms : List Iri := [nix "hasRoot", nix "closureContains", nix "evaluatesTo"]

/-- The file states that something is a snapshot. -/
def Store.IsSnapshot {Bytes : Type} (c : Codec Bytes) (st : Store Bytes) (p : String) : Prop :=
  ∃ q ∈ st.quadsAt c p, q.p = rdfType ∧ q.o = .iri (nix "Snapshot")

/-- What the snapshots name, and the sources of what they name, is there. -/
structure Store.Closed {Bytes : Type} (c : Codec Bytes) (st : Store Bytes) : Prop where
  derivations : ∀ p, st.IsSnapshot c p → ∀ q ∈ st.quadsAt c p, q.p ∈ rootTerms →
    ∀ hash, q.o = .iri (Iri.drv hash) → (st.file? (pathOf (.drv hash))).isSome
  sources : ∀ hash, ∀ q ∈ st.quadsAt c (pathOf (.drv hash)), q.p = nix "inputSrc" →
    ∀ nar, q.o = .iri (Iri.src nar) → (st.file? (pathOf (.src nar))).isSome

/-- The fragment refers to what has its file at the path. -/
def Fragment.Needs (f : Fragment) (p : String) : Prop :=
  ∃ t ∈ f.lines, (t.p ∈ rootTerms ∧ ∃ hash, t.o = .iri (Iri.drv hash) ∧ p = pathOf (.drv hash)) ∨
    (t.p = nix "inputSrc" ∧ ∃ nar, t.o = .iri (Iri.src nar) ∧ p = pathOf (.src nar))

/-- One of the fragments has its file at the path. -/
def Supplies (fs : List Fragment) (p : String) : Prop := ∃ f ∈ fs, pathOf f.kind = p

/-- Every fragment comes after those it refers to. -/
inductive Ordered : List Fragment → Prop where
  | nil : Ordered []
  | snoc {fs : List Fragment} {f : Fragment} (h : Ordered fs) (hf : ∀ p, f.Needs p → Supplies fs p) :
      Ordered (fs ++ [f])

theorem Supplies.append_left {fs : List Fragment} {p : String} (gs : List Fragment) (h : Supplies fs p) :
    Supplies (fs ++ gs) p := by
  obtain ⟨f, hf, hp⟩ := h
  exact ⟨f, List.mem_append_left _ hf, hp⟩

theorem Supplies.append_right {gs : List Fragment} {p : String} (fs : List Fragment) (h : Supplies gs p) :
    Supplies (fs ++ gs) p := by
  obtain ⟨g, hg, hp⟩ := h
  exact ⟨g, List.mem_append_right _ hg, hp⟩

theorem Ordered.concat {fs gs : List Fragment} (h : Ordered fs) (hgs : Ordered gs) : Ordered (fs ++ gs) := by
  induction hgs with
  | nil => rwa [List.append_nil]
  | snoc _ hf ih =>
      rw [← List.append_assoc]
      exact .snoc ih fun p hp => (hf p hp).append_right fs

theorem Ordered.append {fs gs : List Fragment} (h : Ordered fs) (hgs : ∀ g ∈ gs, ∀ p, g.Needs p → Supplies fs p) :
    Ordered (fs ++ gs) := by
  induction gs using List.reverseRecOn with
  | nil => rwa [List.append_nil]
  | append_singleton gs g ih =>
      rw [← List.append_assoc]
      have hfs : Ordered (fs ++ gs) := ih fun g' hg' => hgs g' (List.mem_append_left _ hg')
      exact .snoc hfs fun p hp => (hgs g (by simp) p hp).append_left gs

theorem Ordered.of_free {fs : List Fragment} (h : ∀ f ∈ fs, ∀ p, ¬ f.Needs p) : Ordered fs := by
  have hfs : Ordered ([] ++ fs) := Ordered.nil.append fun f hf p hp => absurd hp (h f hf p)
  rwa [List.nil_append] at hfs

theorem Ordered.take {fs : List Fragment} (h : Ordered fs) (n : Nat) : Ordered (fs.take n) := by
  induction h with
  | nil =>
      rw [List.take_nil]
      exact .nil
  | @snoc fs f h hf ih =>
      by_cases hn : n ≤ fs.length
      · rwa [List.take_append_of_le_length hn]
      · rw [List.take_of_length_le (by simp; omega)]
        exact .snoc h hf

section Writing

variable {Bytes : Type} {c : Codec Bytes} {st : Store Bytes}

theorem quadsAt_write (f : Fragment) (p : String) :
    ((st.write c f).1).quadsAt c p =
      if (st.file? p).isSome then st.quadsAt c p else if pathOf f.kind = p then f.quads else ∅ := by
  have hone : (st.write c f).1 = (writeAll c st [f]).1 := rfl
  rw [hone, quadsAt_writeAll, List.find?_cons, List.find?_nil]
  by_cases hp : pathOf f.kind = p <;> simp [hp]

theorem isSome_write {p : String} (f : Fragment) (h : (st.file? p).isSome) :
    (((st.write c f).1).file? p).isSome := by
  rw [file?_write]
  obtain ⟨b, hb⟩ := Option.isSome_iff_exists.mp h
  rw [hb]
  rfl

/-- A quad of a file after a write was there before, or it is a line of the fragment. -/
theorem mem_quadsAt_write {f : Fragment} {p : String} {q : Quad} (h : q ∈ ((st.write c f).1).quadsAt c p) :
    ((st.write c f).1).quadsAt c p = st.quadsAt c p ∨ ⟨q.s, q.p, q.o⟩ ∈ f.lines := by
  rw [quadsAt_write] at h ⊢
  by_cases hsome : (st.file? p).isSome
  · exact .inl (if_pos hsome)
  · rw [if_neg hsome] at h
    by_cases hp : pathOf f.kind = p
    · rw [if_pos hp] at h
      exact .inr (Fragment.mem_quads.mp h).2
    · rw [if_neg hp] at h
      simp at h

/-- A fragment that finds what it refers to leaves the store closed. -/
theorem closed_write {f : Fragment} (hst : st.Closed c) (hf : ∀ p, f.Needs p → (st.file? p).isSome) :
    ((st.write c f).1).Closed c := by
  constructor
  · intro p hsnap q hq hterm hash ho
    cases mem_quadsAt_write hq with
    | inl hsame =>
        rw [Store.IsSnapshot, hsame] at hsnap
        rw [hsame] at hq
        exact isSome_write f (hst.derivations p hsnap q hq hterm hash ho)
    | inr hline => exact isSome_write f (hf _ ⟨_, hline, .inl ⟨hterm, hash, ho, rfl⟩⟩)
  · intro hash q hq hterm nar ho
    cases mem_quadsAt_write hq with
    | inl hsame =>
        rw [hsame] at hq
        exact isSome_write f (hst.sources hash q hq hterm nar ho)
    | inr hline => exact isSome_write f (hf _ ⟨_, hline, .inr ⟨hterm, nar, ho, rfl⟩⟩)

theorem isSome_writeAll {fs : List Fragment} {p : String} (h : Supplies fs p) :
    (((writeAll c st fs).1).file? p).isSome := by
  obtain ⟨f, hf, hp⟩ := h
  have hfind : (fs.find? fun f => pathOf f.kind = p).isSome := List.find?_isSome.mpr ⟨f, hf, by simp [hp]⟩
  obtain ⟨g, hg⟩ := Option.isSome_iff_exists.mp hfind
  rw [file?_writeAll, hg]
  cases st.file? p <;> rfl

/-- Fragments in order leave the store closed. -/
theorem closed_writeAll {fs : List Fragment} (h : Ordered fs) (hst : st.Closed c) :
    ((writeAll c st fs).1).Closed c := by
  induction h with
  | nil => exact hst
  | @snoc fs f h hf ih =>
      rw [writeAll_append]
      exact closed_write ih fun p hp => isSome_writeAll (hf p hp)

end Writing

/-! ## What the fragments refer to -/

def referringTerms : List Iri := nix "inputSrc" :: rootTerms

@[simp] theorem nix_mem_referringTerms {i : String} :
    nix i ∈ referringTerms ↔ i = "inputSrc" ∨ i = "hasRoot" ∨ i = "closureContains" ∨ i = "evaluatesTo" := by
  simp [referringTerms, rootTerms]

@[simp] theorem rdfType_not_mem_referringTerms : rdfType ∉ referringTerms := by
  simp [referringTerms, rootTerms]

theorem avoids_flatten_mapM {α : Type} {l : List α} {g : α → Result (List Triple)} {tss : List (List Triple)}
    (h : l.mapM g = .ok tss) (hg : ∀ a ts, g a = .ok ts → Avoids referringTerms ts) :
    Avoids referringTerms tss.flatten := by
  rw [avoids_flatten]
  intro ts hts
  obtain ⟨a, _, ha⟩ := Result.mem_of_mapM h hts
  exact hg a ts ha

/-- A fragment of such triples refers to nothing. -/
theorem not_needs_of_avoids {k : FragmentKind} {ts : List Triple} (h : Avoids referringTerms ts) (p : String) :
    ¬ (Fragment.ofTriples k ts).Needs p := by
  intro hp
  obtain ⟨t, ht, hterm⟩ := hp
  have hnot := h t (Fragment.mem_ofTriples.mp ht)
  rcases hterm with ⟨hterm, _⟩ | ⟨hterm, _⟩
  · exact hnot (List.mem_cons_of_mem _ hterm)
  · exact hnot (List.mem_cons.mpr (.inl hterm))

/-- The only fragments the triples refer to are those of the derivations with the hashes. -/
def NamesOnly (hashes : List String) (ts : List Triple) : Prop :=
  ∀ t ∈ ts, t.p ∈ referringTerms → t.p ≠ nix "inputSrc" ∧ ∃ hash ∈ hashes, t.o = .iri (Iri.drv hash)

theorem Avoids.namesOnly {ts : List Triple} (h : Avoids referringTerms ts) (hashes : List String) :
    NamesOnly hashes ts :=
  fun t ht hterm => absurd hterm (h t ht)

@[simp] theorem namesOnly_append {hashes : List String} {ts us : List Triple} :
    NamesOnly hashes (ts ++ us) ↔ NamesOnly hashes ts ∧ NamesOnly hashes us :=
  List.forall_mem_append

theorem namesOnly_flatMap {α : Type} {l : List α} {g : α → List Triple} {hashes : List String}
    (h : ∀ a ∈ l, NamesOnly hashes (g a)) : NamesOnly hashes (l.flatMap g) := by
  intro t ht
  obtain ⟨a, ha, ht⟩ := List.mem_flatMap.mp ht
  exact h a ha t ht

theorem namesOnly_edge {hashes : List String} {hash : String} (h : hash ∈ hashes) (s : Iri) {term : String}
    (hterm : term ≠ "inputSrc") : NamesOnly hashes [addIri s (nix term) (Iri.drv hash)] := by
  intro t ht _
  rw [List.mem_singleton.mp ht]
  exact ⟨by simpa using hterm, hash, h, rfl⟩

theorem namesOnly_closure (hashes : List String) (s : Iri) {term : String} (hterm : term ≠ "inputSrc") :
    NamesOnly hashes (hashes.map fun h => addIri s (nix term) (Iri.drv h)) := by
  intro t ht _
  obtain ⟨hash, hhash, rfl⟩ := List.mem_map.mp ht
  exact ⟨by simpa using hterm, hash, hhash, rfl⟩

theorem needs_of_namesOnly {k : FragmentKind} {ts : List Triple} {hashes : List String} (h : NamesOnly hashes ts)
    {p : String} (hp : (Fragment.ofTriples k ts).Needs p) : ∃ hash ∈ hashes, p = pathOf (.drv hash) := by
  obtain ⟨t, ht, hterm⟩ := hp
  have hnames := h t (Fragment.mem_ofTriples.mp ht)
  rcases hterm with ⟨hterm, hash, ho, hpath⟩ | ⟨hterm, _⟩
  · obtain ⟨_, hash', hhash', ho'⟩ := hnames (List.mem_cons_of_mem _ hterm)
    have heq : hash = hash' := Iri.drv_inj.mp (Term.iri.inj (ho.symm.trans ho'))
    exact ⟨hash', hhash', by rw [hpath, heq]⟩
  · exact absurd hterm (hnames (List.mem_cons.mpr (.inl hterm))).1

/-! ## The derivation graph -/

/-- The fragments of a graph come in order, and there is one for each of its hashes. -/
structure GraphExtraction.Complete (g : GraphExtraction) : Prop where
  ordered : Ordered g.fragments
  supplies : ∀ hash ∈ g.drvHashes.values, Supplies g.fragments (pathOf (.drv hash))

theorem GraphExtraction.Complete.namesOnly {g : GraphExtraction} (hg : g.Complete) {k : FragmentKind}
    {ts : List Triple} (h : NamesOnly g.drvHashes.values ts) {p : String}
    (hp : (Fragment.ofTriples k ts).Needs p) : Supplies g.fragments p := by
  obtain ⟨hash, hhash, rfl⟩ := needs_of_namesOnly h hp
  exact hg.supplies hash hhash

theorem GraphExtraction.mem_hashes {g : GraphExtraction} {p : String} {d : Iri} (h : g.drvIri p = some d) :
    ∃ hash ∈ g.drvHashes.values, d = Iri.drv hash := by
  obtain ⟨hash, hhash, rfl⟩ := Option.map_eq_some_iff.mp h
  exact ⟨hash, BTreeMap.mem_values.mpr ⟨p, hhash⟩, rfl⟩

variable {x : Extern} {src : NixSource}

theorem avoids_inputTriples {s : Iri} {input : String × InputDrv} {ts : List Triple}
    (h : inputTriples s input = .ok ts) : Avoids referringTerms ts := by
  simp only [inputTriples, Result.bind_eq_ok, Result.pure_eq_ok] at h
  obtain ⟨ih, _, rfl⟩ := h
  simp

theorem avoids_outputTriples {s : Iri} {output : String × OutputInfo} {ts : List Triple}
    (h : outputTriples s output = .ok ts) : Avoids referringTerms ts := by
  unfold outputTriples at h
  split at h
  · cases h
    simp
  · simp only [Result.bind_eq_ok, Result.pure_eq_ok] at h
    obtain ⟨oh, _, rfl⟩ := h
    simp

theorem avoids_headTriples (drvPath : String) (d : DrvInfo) (s : Iri) :
    Avoids referringTerms (headTriples x drvPath d s) := by
  simp only [headTriples, avoids_append, avoids_cons, avoids_map, avoids_nil]
  refine ⟨⟨⟨by simp, by simp⟩, ?_⟩, by simp⟩
  intro t ht
  obtain ⟨k, _, ht⟩ := List.mem_filterMap.mp ht
  obtain ⟨v, _, rfl⟩ := Option.map_eq_some_iff.mp ht
  split <;> simp

/-- A derivation refers to its sources. -/
theorem source_of_needs {drvPath : String} {d : DrvInfo} {srcHashes : BTreeMap String} {f : Fragment}
    (h : derivationFragment x drvPath d srcHashes = .ok f) {p : String} (hp : f.Needs p) :
    ∃ path nar : String, srcHashes[path]? = some nar ∧ p = pathOf (.src nar) := by
  simp only [derivationFragment, Result.bind_eq_ok, Result.pure_eq_ok] at h
  obtain ⟨hash, _, inputs, hinputs, srcs, hsrcs, outs, houts, rfl⟩ := h
  obtain ⟨t, ht, hterm⟩ := hp
  simp only [Fragment.mem_ofTriples, List.mem_append] at ht
  have hrefers : t.p ∈ referringTerms := by
    cases hterm with
    | inl hterm => exact List.mem_cons_of_mem _ hterm.1
    | inr hterm => exact List.mem_cons.mpr (.inl hterm.1)
  rcases ht with ((ht | ht) | ht) | ht
  · exact absurd hrefers (avoids_headTriples _ _ _ t ht)
  · exact absurd hrefers (avoids_flatten_mapM hinputs (fun _ _ => avoids_inputTriples) t ht)
  · obtain ⟨ts, hts, ht⟩ := List.mem_flatten.mp ht
    obtain ⟨path, _, hpath⟩ := Result.mem_of_mapM hsrcs hts
    unfold sourceTriples at hpath
    split at hpath
    · rename_i nar hnar
      cases hpath
      rw [List.mem_singleton.mp ht] at hterm
      rcases hterm with ⟨hterm, _⟩ | ⟨_, nar', ho, rfl⟩
      · simp [rootTerms] at hterm
      · have hseg := Iri.src_inj.mp (Term.iri.inj ho)
        exact ⟨path, nar, hnar, by simp only [pathOf, FragmentKind.relativePath, hseg]⟩
    · cases hpath
  · exact absurd hrefers (avoids_flatten_mapM houts (fun _ _ => avoids_outputTriples) t ht)

theorem avoids_sourceFragment (storePath nar p : String) : ¬ (sourceFragment storePath nar).Needs p :=
  not_needs_of_avoids (by simp) p

/-- The fragments of a derivation refer to sources with a known hash. -/
theorem source_of_drvFragments {env : EnvMode} {srcHashes : BTreeMap String} {drv : String × DrvInfo}
    {fs : List Fragment} (h : drvFragments x env srcHashes drv = .ok fs) {f : Fragment} (hf : f ∈ fs) {p : String}
    (hp : f.Needs p) : ∃ path nar : String, srcHashes[path]? = some nar ∧ p = pathOf (.src nar) := by
  simp only [drvFragments, Result.bind_eq_ok] at h
  obtain ⟨_, _, g, hg, h⟩ := h
  cases env with
  | hashOnly =>
      cases h
      cases List.mem_singleton.mp hf
      exact source_of_needs hg hp
  | full =>
      simp only [envFragment, Result.bind_eq_ok, Result.pure_eq_ok] at h
      obtain ⟨_, ⟨_, _, rfl⟩, rfl⟩ := h
      simp only [List.mem_cons, List.not_mem_nil, or_false] at hf
      rcases hf with rfl | rfl
      · exact source_of_needs hg hp
      · exact absurd hp (not_needs_of_avoids (by simp) p)

theorem exists_drvFragment {env : EnvMode} {srcHashes : BTreeMap String} {drv : String × DrvInfo}
    {fs : List Fragment} (h : drvFragments x env srcHashes drv = .ok fs) {hash : String}
    (hhash : storePathHash drv.1 = some hash) : ∃ f ∈ fs, f.kind = .drv hash := by
  simp only [drvFragments, Result.bind_eq_ok] at h
  obtain ⟨_, _, g, hg, h⟩ := h
  have hkind : g.kind = .drv hash := by
    simp only [derivationFragment, Result.bind_eq_ok, Result.pure_eq_ok] at hg
    obtain ⟨hash', hhash', _, _, _, _, _, _, rfl⟩ := hg
    rw [Fragment.ofTriples_kind, Option.some.inj ((storeHash_eq_ok.mp hhash').symm.trans hhash)]
  cases env with
  | hashOnly =>
      cases h
      exact ⟨g, List.mem_singleton_self g, hkind⟩
  | full =>
      simp only [Result.bind_eq_ok, Result.pure_eq_ok] at h
      obtain ⟨e, _, rfl⟩ := h
      exact ⟨g, List.mem_cons_self, hkind⟩

theorem drvHashes_eq (drvs : BTreeMap DrvInfo) (p : String) :
    (Std.ExtTreeMap.ofList (drvs.toList.filterMap fun d => (storePathHash d.1).map fun h => (d.1, h)) compare :
      BTreeMap String)[p]? = if p ∈ drvs then storePathHash p else none := by
  have hkeys : (drvs.toList.filterMap fun d => (storePathHash d.1).map fun h => (d.1, h)) =
      drvs.keys.filterMap fun p => (storePathHash p).map fun h => (p, h) := by
    rw [← Std.ExtTreeMap.map_fst_toList_eq_keys, List.filterMap_map]
    rfl
  rw [hkeys, BTreeMap.getElem?_ofList_filterMap]
  simp only [Std.ExtTreeMap.mem_keys]

theorem complete_extractFromDrvs {drvs : BTreeMap DrvInfo} {env : EnvMode} {g : GraphExtraction}
    (h : extractFromDrvs x src drvs env = .ok g) : g.Complete := by
  simp only [extractFromDrvs, Result.bind_eq_ok, Result.pure_eq_ok] at h
  obtain ⟨_, _, srcHashes, _, perDrv, hper, rfl⟩ := h
  constructor
  · apply Ordered.append
    · apply Ordered.of_free
      intro f hf p
      obtain ⟨s, _, rfl⟩ := List.mem_map.mp hf
      exact avoids_sourceFragment s.1 s.2 p
    · intro f hf p hp
      obtain ⟨fs, hfs, hf⟩ := List.mem_flatten.mp hf
      obtain ⟨drv, _, hdrv⟩ := Result.mem_of_mapM hper hfs
      obtain ⟨path, nar, hnar, rfl⟩ := source_of_drvFragments hdrv hf hp
      have hmem := Std.ExtTreeMap.mem_toList_iff_getElem?_eq_some.mpr hnar
      exact ⟨sourceFragment path nar, List.mem_map.mpr ⟨(path, nar), hmem, rfl⟩, rfl⟩
  · intro hash hhash
    obtain ⟨path, hpath⟩ := BTreeMap.mem_values.mp hhash
    rw [drvHashes_eq] at hpath
    split at hpath
    · rename_i hmem
      have hentry := Std.ExtTreeMap.mem_toList_iff_getElem?_eq_some.mpr (Std.ExtTreeMap.getElem?_eq_some_getElem hmem)
      obtain ⟨fs, hfs, hdrv⟩ := Result.mem_mapM hper hentry
      obtain ⟨f, hf, hkind⟩ := exists_drvFragment hdrv hpath
      exact ⟨f, List.mem_append_right _ (List.mem_flatten.mpr ⟨fs, hfs, hf⟩), by rw [hkind]⟩
    · cases hpath

theorem complete_extractGraph {installables : List String} {env : EnvMode} {g : GraphExtraction}
    (h : extractGraph x src installables env = .ok g) : g.Complete := by
  simp only [extractGraph, Result.bind_eq_ok] at h
  obtain ⟨drvs, _, h⟩ := h
  exact complete_extractFromDrvs h

/-! ## Flakes -/

section FlakeFragments

open Flake

theorem avoids_addPin (pin : Iri) (locked : Json) : Avoids referringTerms (addPin pin locked) := by
  simp [addPin]

theorem avoids_targetTriples (k : Lock) (input : Iri) (target : String) :
    Avoids referringTerms (k.targetTriples input target) := by
  unfold Lock.targetTriples
  split
  · simp
  · split <;> simp

theorem avoids_valueTriples {k : Lock} {depth : Nat} {input : Iri} {v : Json} {ts : List Triple}
    (h : k.valueTriples depth input v = .ok ts) : Avoids referringTerms ts := by
  unfold Lock.valueTriples at h
  split at h
  · cases h
    exact avoids_targetTriples k input _
  · unfold Lock.followsTriples at h
    split at h
    · cases h
    · cases h
      simp
    · cases h
      simp
  · cases h
    simp

theorem avoids_nodeTriples {k : Lock} {depth : Nat} {node : String} {ts : List Triple}
    (h : k.nodeTriples depth node = .ok ts) : Avoids referringTerms ts := by
  unfold Lock.nodeTriples at h
  split at h
  · cases h
    simp
  · rename_i pin _
    simp only [Result.bind_eq_ok, Result.pure_eq_ok] at h
    obtain ⟨inputs, hinputs, rfl⟩ := h
    rw [avoids_append]
    constructor
    · cases k.lockedOf node with
      | none => simp
      | some locked => exact avoids_addPin pin locked
    · refine avoids_flatten_mapM hinputs fun entry ts hts => ?_
      simp only [Lock.inputTriples, Result.bind_eq_ok, Result.pure_eq_ok] at hts
      obtain ⟨target, htarget, rfl⟩ := hts
      simp [avoids_valueTriples htarget]

theorem avoids_lockGraph {depth : Nat} {metadata : Json} {rootNar : String} {lock : List Fragment × List Triple}
    (h : lockGraph depth metadata rootNar = .ok lock) : Avoids referringTerms lock.2 ∧
      ∀ f ∈ lock.1, ∀ p, ¬ f.Needs p := by
  simp only [lockGraph, Result.bind_eq_ok, Result.pure_eq_ok] at h
  obtain ⟨k, _, triples, htriples, rfl⟩ := h
  refine ⟨avoids_flatten_mapM htriples fun _ _ => avoids_nodeTriples, fun f hf p => ?_⟩
  obtain ⟨node, _, hnode⟩ := List.mem_filterMap.mp hf
  obtain ⟨pin, _, hpin⟩ := Option.bind_eq_some_iff.mp hnode
  obtain ⟨locked, _, rfl⟩ := Option.map_eq_some_iff.mp hpin
  exact not_needs_of_avoids (avoids_addPin pin locked) p

theorem avoids_metaTriples (d : Iri) (m : Meta) : Avoids referringTerms (metaTriples d m) := by
  simp only [metaTriples, avoids_append, avoids_map]
  refine ⟨⟨⟨⟨by simp, ?_⟩, by simp⟩, by simp⟩, by simp⟩
  split <;> simp

theorem namesOnly_attrTriples (o : FlakeOptions) (rootNar : String) (graph : GraphExtraction)
    (attr drvPath : String) :
    NamesOnly graph.drvHashes.values (attrTriples src o rootNar graph attr drvPath) := by
  unfold attrTriples
  cases hd : graph.drvIri drvPath with
  | none => exact avoids_nil.namesOnly _
  | some d =>
      obtain ⟨hash, hhash, rfl⟩ := GraphExtraction.mem_hashes hd
      have hhead : Avoids referringTerms [addType (Iri.pinAttr rootNar attr) (nix "Attribute"),
          addStr (Iri.pinAttr rootNar attr) (nix "attrPath") attr] := by simp
      have hlisted : Avoids referringTerms [addIri (Iri.pin rootNar) (nix "hasAttribute")
        (Iri.pinAttr rootNar attr)] := by simp
      have hmeta : Avoids referringTerms (if o.withMeta then
          ((metaFor src o.flakeRef attr).map (metaTriples (Iri.drv hash))).getD [] else []) := by
        split
        · cases metaFor src o.flakeRef attr with
          | none => exact avoids_nil
          | some m => exact avoids_metaTriples _ m
        · exact avoids_nil
      refine namesOnly_append.mpr ⟨?_, hmeta.namesOnly _⟩
      exact namesOnly_append.mpr ⟨hhead.namesOnly _, namesOnly_append.mpr ⟨namesOnly_edge hhash _ (by decide),
        namesOnly_append.mpr ⟨hlisted.namesOnly _, namesOnly_edge hhash _ (by decide)⟩⟩⟩

theorem ordered_extractFlake {o : FlakeOptions} {e : FlakeExtraction} (h : extractFlake x src o = .ok e) :
    Ordered e.fragments := by
  simp only [extractFlake, Result.bind_eq_ok, Result.pure_eq_ok] at h
  obtain ⟨metadata, _, rootNar, _, lock, hlock, attrs, _, roots, _, graph, hgraph, rfl⟩ := h
  obtain ⟨hpins, hfree⟩ := avoids_lockGraph hlock
  have hg := complete_extractGraph hgraph
  have hnames : NamesOnly graph.drvHashes.values
      (rootTriples metadata ((metadata.get? "locked").getD .null) rootNar ++ lock.2
        ++ (rootDrvsOf src attrs (attrs.map fun a => o.flakeRef ++ "#" ++ a) roots).toList.flatMap
          (fun ap => attrTriples src o rootNar graph ap.1 ap.2)
        ++ graph.drvHashes.values.map fun h => addIri (Iri.pin rootNar) (nix "closureContains") (Iri.drv h)) := by
    have hroot : Avoids referringTerms (rootTriples metadata ((metadata.get? "locked").getD .null) rootNar) := by
      simp [rootTriples, avoids_addPin]
    refine namesOnly_append.mpr
      ⟨namesOnly_append.mpr ⟨namesOnly_append.mpr ⟨hroot.namesOnly _, hpins.namesOnly _⟩, ?_⟩,
      namesOnly_closure _ _ (by decide)⟩
    exact namesOnly_flatMap fun ap _ => namesOnly_attrTriples o rootNar graph ap.1 ap.2
  apply Ordered.append
  · apply Ordered.append ((Ordered.of_free hfree).concat hg.ordered)
    intro f hf p hp
    rw [List.mem_singleton.mp hf] at hp
    exact (hg.namesOnly hnames hp).append_right _
  · intro f hf p hp
    obtain ⟨commit, _, rfl⟩ := List.mem_map.mp hf
    exact absurd hp (not_needs_of_avoids (by simp) p)

end FlakeFragments

/-! ## Images, generations and revisions -/

/-- A fragment of outputs refers to nothing. -/
theorem not_needs_outputsFragment {e : Evidence} {f : Fragment} (h : outputsFragment e = .ok f) (p : String) :
    ¬ f.Needs p := by
  simp only [outputsFragment, Result.bind_eq_ok, Result.pure_eq_ok] at h
  obtain ⟨hash, _, outs, houts, rfl⟩ := h
  refine not_needs_of_avoids (avoids_flatten_mapM houts fun output ts hts => ?_) p
  simp only [builtTriples, Result.bind_eq_ok, Result.pure_eq_ok] at hts
  obtain ⟨oh, _, rfl⟩ := hts
  simp only [avoids_append, avoids_cons, avoids_flatMap, avoids_nil]
  refine ⟨by simp, fun info _ => ?_⟩
  rw [infoTriples, avoids_append]
  refine ⟨by simp, fun t ht => ?_⟩
  obtain ⟨r, _, hr⟩ := List.mem_filterMap.mp ht
  split at hr
  · cases hr
  · obtain ⟨rh, _, rfl⟩ := Option.map_eq_some_iff.mp hr
    simp

theorem not_needs_runtimeClosure {turns : Nat} {roots : List String} {outs : List Fragment × BTreeMap PathInfo}
    (h : extractRuntimeClosure src turns roots = .ok outs) {f : Fragment} (hf : f ∈ outs.1) (p : String) :
    ¬ f.Needs p := by
  simp only [extractRuntimeClosure, Result.bind_eq_ok, Result.pure_eq_ok] at h
  obtain ⟨seen, _, fs, hfs, rfl⟩ := h
  obtain ⟨e, _, he⟩ := Result.mem_of_mapM hfs hf
  exact not_needs_outputsFragment he p

theorem avoids_layerTriples (img : Iri) (layer : LayerDesc × Nat) :
    Avoids referringTerms (layerTriples img layer) := by
  have hpaths : ∀ ln p, Avoids referringTerms (storePathTriples ln p) := by
    intro ln p
    unfold storePathTriples
    split <;> simp
  simp [layerTriples, hpaths]

theorem ordered_extractImage {readImageArtifact : String → Result ImageDesc} {turns : Nat} {o : ImageOptions}
    {e : List Fragment × Iri} (h : extractImage x src readImageArtifact turns o = .ok e) : Ordered e.1 := by
  simp only [extractImage, Result.bind_eq_ok] at h
  obtain ⟨b, _, out, _, desc, _, graph, hgraph, h⟩ := h
  have hg := complete_extractGraph hgraph
  split at h
  · cases h
  · rename_i imageDrv hdrv
    obtain ⟨imageId, _, h⟩ := Result.bind_eq_ok.mp h
    cases h
    obtain ⟨hash, hhash, rfl⟩ := GraphExtraction.mem_hashes hdrv
    apply Ordered.append
    · apply Ordered.append hg.ordered
      intro f hf p hp
      rw [List.mem_singleton.mp hf] at hp
      have hdigest : Avoids referringTerms (digestTriples imageId desc o.digest) := by simp [digestTriples]
      have htags : Avoids referringTerms
        (desc.repoTags.flatMap (tagTriples (Iri.image imageId))) := by simp [tagTriples]
      have hbuilt : Avoids referringTerms [addIri (Iri.image imageId) (nix "imageDerivation")
        (Iri.drv hash)] := by simp
      have hlayers : Avoids referringTerms (desc.layers.zipIdx.flatMap (layerTriples (Iri.image imageId))) := by
        simp [avoids_layerTriples]
      refine hg.namesOnly (namesOnly_append.mpr ⟨namesOnly_append.mpr ⟨namesOnly_append.mpr
        ⟨namesOnly_append.mpr ⟨hdigest.namesOnly _, htags.namesOnly _⟩, ?_⟩,
        namesOnly_closure _ _ (by decide)⟩, hlayers.namesOnly _⟩) hp
      exact namesOnly_append.mpr ⟨hbuilt.namesOnly _, namesOnly_edge hhash _ (by decide)⟩
    · intro f hf p hp
      dsimp only [layerOutputs] at hf
      split at hf
      · cases hf
      · split at hf
        · rename_i outs seen hclosure
          exact absurd hp (not_needs_runtimeClosure hclosure hf p)
        · cases hf

section NixosFragments

open Nixos

theorem avoids_valueLiteral (subject : Iri) {prop : Iri} (hprop : prop ∉ referringTerms) (v : Json) :
    (valueLiteral x subject prop v).p ∉ referringTerms := by
  unfold valueLiteral
  split
  · simpa using hprop
  · simp

theorem avoids_optionTriples (genHash : String) (r : OptRecord) :
    Avoids referringTerms (optionTriples x genHash r) := by
  have hdefs : ∀ ov d, Avoids referringTerms (definitionTriples x genHash r.path ov d) := by
    intro ov d
    simp [definitionTriples, avoids_valueLiteral]
  simp [optionTriples, hdefs, avoids_valueLiteral]

theorem not_needs_optionValues {r : OptRecord} {f : Fragment} (hf : f ∈ optionValues x r) (p : String) :
    ¬ f.Needs p := by
  obtain ⟨v, _, hv⟩ := List.mem_filterMap.mp hf
  unfold sideValue at hv
  split at hv
  · cases hv
  · cases hv
    exact not_needs_of_avoids (by simp) p

theorem not_needs_runtimeOutputs {turns : Nat} {o : NixosOptions} {outPath : Option String} {f : Fragment}
    (hf : f ∈ runtimeOutputs src turns o outPath) (p : String) : ¬ f.Needs p := by
  unfold runtimeOutputs at hf
  split at hf
  · split at hf
    · rename_i hclosure
      exact not_needs_runtimeClosure hclosure hf p
    · cases hf
  · cases hf

theorem ordered_extractNixos {turns : Nat} {o : NixosOptions} {fs : List Fragment}
    (h : extractNixos x src turns o = .ok fs) : Ordered fs := by
  simp only [extractNixos, Result.bind_eq_ok] at h
  obtain ⟨metadata, _, rootNar, _, graph, hgraph, top, _, h⟩ := h
  have hg := complete_extractGraph hgraph
  split at h
  · cases h
  · rename_i topHash htop
    obtain ⟨records, _, h⟩ := Result.bind_eq_ok.mp h
    cases h
    have hhash : topHash ∈ graph.drvHashes.values := BTreeMap.mem_values.mpr ⟨top.1, htop⟩
    have hbefore : Ordered (graph.fragments ++ records.flatMap (optionValues x)) := by
      apply Ordered.append hg.ordered
      intro f hf p hp
      obtain ⟨r, _, hr⟩ := List.mem_flatMap.mp hf
      exact absurd hp (not_needs_optionValues hr p)
    apply Ordered.append
    · exact hbefore.append fun f hf p hp => absurd hp (not_needs_runtimeOutputs hf p)
    · intro f hf p hp
      rw [List.mem_singleton.mp hf] at hp
      have hgeneration : NamesOnly graph.drvHashes.values (generationTriples
          (((outPathOf top.2).bind storePathHash).getD topHash) rootNar o.name (Iri.drv topHash)
            (outPathOf top.2)) := by
        intro t ht hterm
        simp only [generationTriples, List.mem_append, List.mem_cons, List.mem_map, List.not_mem_nil, or_false] at ht
        rcases ht with ((rfl | rfl | rfl | rfl) | ⟨path, _, rfl⟩) | rfl | rfl | rfl | rfl
        · simp at hterm
        · simp at hterm
        · exact namesOnly_edge hhash _ (by decide) _ (List.mem_singleton_self _) hterm
        · simp at hterm
        · simp at hterm
        · simp at hterm
        · simp at hterm
        · simp at hterm
        · simp at hterm
      have hoptions : Avoids referringTerms (records.flatMap (optionTriples x
          (((outPathOf top.2).bind storePathHash).getD topHash))) := by
        simp [avoids_optionTriples]
      exact (hg.namesOnly (namesOnly_append.mpr ⟨namesOnly_append.mpr ⟨hgeneration,
        namesOnly_closure _ _ (by decide)⟩, hoptions.namesOnly _⟩) hp).append_left _ |>.append_left _

end NixosFragments

theorem namesOnly_attributeTriples {hashes : List String} {hash : String} (h : hash ∈ hashes) (rev attr : String)
    (m : Meta) : NamesOnly hashes (Nixpkgs.attributeTriples rev attr (Iri.drv hash) m) := by
  intro t ht hterm
  simp only [Nixpkgs.attributeTriples, List.mem_append, List.mem_cons, List.not_mem_nil, or_false] at ht
  rcases ht with (rfl | rfl | rfl | rfl | rfl) | ht
  · simp at hterm
  · simp at hterm
  · exact namesOnly_edge h _ (by decide) _ (List.mem_singleton_self _) hterm
  · simp at hterm
  · exact namesOnly_edge h _ (by decide) _ (List.mem_singleton_self _) hterm
  · exact absurd hterm (avoids_metaTriples _ m t ht)

theorem ordered_fragmentsFromJobs {readDrvFile : String → Result DrvInfo} {turns : Nat} {o : EvalOptions}
    {jobs : List EvalJob} {fs : List Fragment}
    (h : Nixpkgs.fragmentsFromJobs x src readDrvFile turns o jobs = .ok fs) : Ordered fs := by
  simp only [Nixpkgs.fragmentsFromJobs, Result.bind_eq_ok, Result.pure_eq_ok] at h
  obtain ⟨drvs, _, graph, hgraph, rfl⟩ := h
  have hg := complete_extractFromDrvs hgraph
  apply hg.ordered.append
  intro f hf p hp
  rw [List.mem_singleton.mp hf] at hp
  have hnode : Avoids referringTerms (Nixpkgs.revisionNode o.revision none) := by
    simp only [Nixpkgs.revisionNode, avoids_append, avoids_cons, avoids_map, avoids_nil]
    refine ⟨⟨⟨by simp, ?_⟩, ?_⟩, by simp⟩
    · split <;> simp
    · split <;> simp
  have hsnapshot : Avoids referringTerms [addType (Iri.nixpkgs o.revision.rev) (nix "Snapshot")] := by simp
  refine hg.namesOnly (namesOnly_append.mpr ⟨namesOnly_append.mpr ⟨namesOnly_append.mpr
    ⟨hnode.namesOnly _, hsnapshot.namesOnly _⟩, ?_⟩, namesOnly_closure _ _ (by decide)⟩) hp
  refine namesOnly_flatMap fun entry _ => ?_
  unfold Nixpkgs.attributeOf
  cases hd : graph.drvIri entry.1 with
  | none => exact avoids_nil.namesOnly _
  | some d =>
      obtain ⟨hash, hhash, rfl⟩ := GraphExtraction.mem_hashes hd
      exact namesOnly_attributeTriples hhash _ _ _

/-! ## Every front-end -/

/-- The fragments that a successful extraction hands over to be written. -/
inductive FrontEndResult (x : Extern) : List Fragment → Prop where
  | flake {src : NixSource} {o : FlakeOptions} {e : FlakeExtraction} (h : Flake.extractFlake x src o = .ok e) :
      FrontEndResult x e.fragments
  | image {src : NixSource} {readImageArtifact : String → Result ImageDesc} {turns : Nat} {o : ImageOptions}
      {fs : List Fragment} {img : Iri} (h : extractImage x src readImageArtifact turns o = .ok (fs, img)) :
      FrontEndResult x fs
  | nixos {src : NixSource} {turns : Nat} {o : NixosOptions} {fs : List Fragment}
      (h : Nixos.extractNixos x src turns o = .ok fs) : FrontEndResult x fs
  | jobs {src : NixSource} {readDrvFile : String → Result DrvInfo} {turns : Nat} {o : EvalOptions}
      {jobs : List EvalJob} {fs : List Fragment}
      (h : Nixpkgs.fragmentsFromJobs x src readDrvFile turns o jobs = .ok fs) : FrontEndResult x fs

theorem FrontEndResult.ordered {fs : List Fragment} (h : FrontEndResult x fs) : Ordered fs := by
  cases h with
  | flake h => exact ordered_extractFlake h
  | image h => exact ordered_extractImage h
  | nixos h => exact ordered_extractNixos h
  | jobs h => exact ordered_fragmentsFromJobs h

/-- However many of its fragments were written, an extraction leaves a closed store closed. -/
theorem closed_interrupted {Bytes : Type} {c : Codec Bytes} {st : Store Bytes} (hst : st.Closed c)
    {fs : List Fragment} (h : FrontEndResult x fs) (n : Nat) : ((writeAll c st (fs.take n)).1).Closed c :=
  closed_writeAll (h.ordered.take n) hst

theorem closed_empty {Bytes : Type} (c : Codec Bytes) : (Store.empty : Store Bytes).Closed c := by
  constructor
  · intro p _ q hq
    simp [quadsAt] at hq
  · intro hash q hq
    simp [quadsAt] at hq

theorem closed_interrupted_hello : ∃ fs,
    Nixpkgs.fragmentsFromJobs plainExtern Nixpkgs.helloSource (fun _ => .ok Nixpkgs.helloDrv) 8
      (Nixpkgs.helloOptions false) [Nixpkgs.helloJob "hello"] = .ok fs ∧
    ∀ n, ((writeAll Codec.plain .empty (fs.take n)).1).Closed Codec.plain := by
  cases hok : Nixpkgs.fragmentsFromJobs plainExtern Nixpkgs.helloSource (fun _ => .ok Nixpkgs.helloDrv) 8
      (Nixpkgs.helloOptions false) [Nixpkgs.helloJob "hello"] with
  | error msg =>
      have hrun : (Nixpkgs.fragmentsFromJobs plainExtern Nixpkgs.helloSource (fun _ => .ok Nixpkgs.helloDrv) 8
        (Nixpkgs.helloOptions false) [Nixpkgs.helloJob "hello"]).isOk := by decide
      rw [hok] at hrun
      cases hrun
  | ok fs => exact ⟨fs, rfl, closed_interrupted (closed_empty _) (.jobs hok)⟩

end Nix2Rdf
