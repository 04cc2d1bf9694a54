import Nix2Rdf.Extract.NixpkgsIndex
import Nix2Rdf.Minting.Locks

/-!
# Minting revisions

A revision stands in its IRI as it is. Releases and versions are encoded.
-/

namespace Nix2Rdf.Extract

open Triple
open IriSyntax (valid Transparent)
open Nixpkgs (revisionNode)

variable {accepts : String → Bool} {x : Extern}

/-- The fragment of the index, with the IRIs minted that it is built of. -/
def mintIndex (accepts : String → Bool) (x : Extern) (readers : IndexReaders) (files : IndexFiles) :
    Result Fragment := do
  let f ← indexFragment x readers files
  mintFragment accepts f

/-- Every revision that the files mention. -/
def Index.revs (d : Index) : List String :=
  d.revisions.map Revision.rev ++ d.releases.toList.map fun rel => rel.2.rev

/-! ## What is accepted -/

theorem transparent_nixpkgs : Transparent "nixpkgs" := IriSyntax.transparent_of_plain (by decide +kernel)

theorem accepts_nixpkgs (h : ParsesIris accepts) (rev : String) : accepts (Iri.nixpkgs rev) = valid rev := by
  have hsegs : ["nixpkgs", rev] = ["nixpkgs"] ++ rev :: [] := rfl
  rw [Iri.nixpkgs, hsegs, h.id_slash (by simpa using transparent_nixpkgs) (by simp)]

theorem accepts_release (h : ParsesIris accepts) (name : String) : accepts (Iri.release name) = true := by
  have hword : Transparent "release" := IriSyntax.transparent_of_plain (by decide +kernel)
  refine h.transparent fun s hs => ?_
  rw [List.mem_cons, List.mem_singleton] at hs
  rcases hs with rfl | rfl
  · exact hword
  · exact transparent_encodeSegment name

theorem accepts_packageVersion (h : ParsesIris accepts) (attr version : String) :
    accepts (Iri.packageVersion attr version) = true := by
  have hword : Transparent "pkgver" := IriSyntax.transparent_of_plain (by decide +kernel)
  refine h.transparent fun s hs => ?_
  simp only [List.mem_cons, List.not_mem_nil, or_false] at hs
  rcases hs with rfl | rfl | rfl
  · exact hword
  · exact transparent_encodeSegment attr
  · exact transparent_encodeSegment version

theorem accepts_index (h : ParsesIris accepts) {hash : String} (hhash : Transparent hash) :
    accepts (FragmentKind.index hash).graph = true := by
  have hword : Transparent "nixpkgs-multiverse-" := IriSyntax.transparent_of_plain (by decide +kernel)
  have hindex : Transparent "index" := IriSyntax.transparent_of_plain (by decide +kernel)
  refine h.transparent fun s hs => ?_
  simp only [List.mem_cons, List.not_mem_nil, or_false] at hs
  rcases hs with rfl | rfl | rfl
  · exact transparent_word "fragment" (by decide)
  · exact hindex
  · exact hword.append hhash

section Accepted

variable {i o : Iri} {w v dt : String}

theorem accepted_type (h : ParsesIris accepts) (hi : accepts i = true)
    (hw : w.toList.all isAsciiAlphanumeric = true) : (addType i (nix w)).Accepted accepts :=
  accepted_addIri.mpr ⟨hi, h.rdfType, h.nix hw⟩

theorem accepted_value (h : ParsesIris accepts) (hi : accepts i = true) (hw : w.toList.all isAsciiAlphanumeric = true)
    (hdt : dt.toList.all isAsciiAlphanumeric = true) : (addTyped i (nix w) v (xsd dt)).Accepted accepts :=
  accepted_addTyped.mpr ⟨hi, h.nix hw, h.xsd hdt⟩

theorem accepted_reference (h : ParsesIris accepts) (hi : accepts i = true)
    (hw : w.toList.all isAsciiAlphanumeric = true) (ho : accepts o = true) : (addIri i (nix w) o).Accepted accepts :=
  accepted_addIri.mpr ⟨hi, h.nix hw, ho⟩

end Accepted

theorem accepted_revisionNode (h : ParsesIris accepts) {r : Revision} (hr : valid r.rev = true) {offset : Option Nat}
    {t : Triple} (ht : t ∈ revisionNode r offset) : t.Accepted accepts := by
  have hnode : accepts (Iri.nixpkgs r.rev) = true := by rwa [accepts_nixpkgs h]
  simp only [revisionNode, List.mem_append, List.mem_cons, List.not_mem_nil, or_false, List.mem_ite_nil_left,
    List.mem_map] at ht
  rcases ht with (((rfl | rfl | rfl) | ⟨_, rfl⟩) | ⟨_, rfl⟩) | ⟨_, _, rfl⟩
  · exact accepted_type h hnode (by decide)
  · exact accepted_value h hnode (by decide) (by decide)
  · exact accepted_value h hnode (by decide) (by decide)
  · exact accepted_value h hnode (by decide) (by decide)
  · exact accepted_value h hnode (by decide) (by decide)
  · exact accepted_value h hnode (by decide) (by decide)

theorem accepted_releaseTriples (h : ParsesIris accepts) {name : String} {rel : Release} (hr : valid rel.rev = true)
    {t : Triple} (ht : t ∈ releaseTriples name rel) : t.Accepted accepts := by
  have hnode : accepts (Iri.nixpkgs rel.rev) = true := by rwa [accepts_nixpkgs h]
  have hrel := accepts_release h name
  simp only [releaseTriples, List.mem_append, List.mem_cons, List.not_mem_nil, or_false, List.mem_ite_nil_left,
    List.mem_map] at ht
  rcases ht with ((((rfl | rfl | rfl) | ⟨_, _, rfl⟩) | ⟨_, rfl⟩) | ht) | rfl
  · exact accepted_type h hrel (by decide)
  · exact accepted_value h hrel (by decide) (by decide)
  · exact accepted_value h hrel (by decide) (by decide)
  · exact accepted_value h hrel (by decide) (by decide)
  · exact accepted_value h hrel (by decide) (by decide)
  · exact accepted_revisionNode h hr ht
  · exact accepted_reference h hrel (by decide) hnode

namespace Index

variable {d : Index}

theorem accepted_versionTriples (h : ParsesIris accepts) (hall : ∀ r ∈ d.revisions, valid r.rev = true)
    {attr version : String} {offset : Option Nat} {t : Triple} (ht : t ∈ d.versionTriples attr version offset) :
    t.Accepted accepts := by
  have hpv := accepts_packageVersion h attr version
  simp only [versionTriples, List.mem_append, List.mem_cons, List.not_mem_nil, or_false, List.mem_ite_nil_right,
    List.mem_map] at ht
  rcases ht with ((rfl | rfl | rfl) | ⟨_, rfl⟩) | ⟨r, hr, rfl⟩
  · exact accepted_type h hpv (by decide)
  · exact accepted_value h hpv (by decide) (by decide)
  · exact accepted_value h hpv (by decide) (by decide)
  · exact accepted_value h hpv (by decide) (by decide)
  · have hmem : r ∈ d.revisions := by
      cases offset with
      | none => exact List.mem_of_getLast? (Option.mem_toList.mp hr)
      | some n => exact List.mem_of_getElem? (Option.mem_toList.mp hr)
    refine accepted_reference h hpv (by decide) ?_
    rw [accepts_nixpkgs h]
    exact hall r hmem

/-- Minting does not panic exactly if every revision is a valid segment. -/
theorem accepted_triples_iff (h : ParsesIris accepts) :
    (∀ t ∈ d.triples, t.Accepted accepts) ↔ ∀ rev ∈ d.revs, valid rev = true := by
  constructor
  · intro hall rev hrev
    rw [← accepts_nixpkgs h]
    rw [revs, List.mem_append, List.mem_map, List.mem_map] at hrev
    rcases hrev with ⟨r, hr, rfl⟩ | ⟨rel, hrel, rfl⟩
    · obtain ⟨n, hn⟩ := List.mem_iff_getElem?.mp hr
      have hnode : addType (Iri.nixpkgs r.rev) (nix "NixpkgsRevision") ∈ revisionNode r (some n) :=
        List.mem_append_left _ (List.mem_append_left _ (List.mem_append_left _ List.mem_cons_self))
      have hmem : addType (Iri.nixpkgs r.rev) (nix "NixpkgsRevision") ∈ d.triples := by
        refine List.mem_append_left _ (List.mem_append_left _ (List.mem_flatMap.mpr ⟨(r, n), ?_, hnode⟩))
        exact List.mk_mem_zipIdx_iff_getElem?.mpr hn
      exact (accepted_addIri.mp (hall _ hmem)).1
    · have hmem : addIri (Iri.release rel.1) (nix "releasePinnedTo") (Iri.nixpkgs rel.2.rev) ∈ d.triples := by
        refine List.mem_append_left _ (List.mem_append_right _ (List.mem_flatMap.mpr ⟨rel, hrel, ?_⟩))
        exact List.mem_append_right _ (List.mem_singleton.mpr rfl)
      exact (accepted_addIri.mp (hall _ hmem)).2.2
  · intro hall t ht
    have hrevisions : ∀ r ∈ d.revisions, valid r.rev = true := fun r hr =>
      hall _ (List.mem_append_left _ (List.mem_map_of_mem hr))
    rw [triples, List.mem_append, List.mem_append, List.mem_flatMap, List.mem_flatMap, List.mem_flatMap] at ht
    rcases ht with (⟨r, hr, ht⟩ | ⟨rel, hrel, ht⟩) | ⟨a, _, ht⟩
    · exact accepted_revisionNode h (hrevisions _ (List.fst_mem_of_mem_zipIdx hr)) ht
    · have hmem : rel.2.rev ∈ d.revs :=
        List.mem_append_right _ (List.mem_map_of_mem (f := fun rel : String × Release => rel.2.rev) hrel)
      exact accepted_releaseTriples h (hall _ hmem) ht
    · obtain ⟨v, _, ht⟩ := List.mem_flatMap.mp ht
      exact accepted_versionTriples h hrevisions ht

end Index

theorem mintIndex_of_read {readers : IndexReaders} {files : IndexFiles} {d : Index}
    (hread : readers.read files = .ok d) : mintIndex accepts x readers files =
      mintFragment accepts (Fragment.ofTriples (.index (files.contentHash x)) d.triples) := by
  rw [mintIndex, indexFragment, hread]
  rfl

/-- Files that can be parsed resolve every version exactly if they are in step and every revision is a
valid segment. -/
theorem mintIndex_resolves_iff (h : ParsesIris accepts) (hx : ∀ bs, K8s.HexText (x.sha256Hex bs))
    {readers : IndexReaders} {files : IndexFiles} {d : Index} (hread : readers.read files = .ok d) :
    (∃ f, mintIndex accepts x readers files = .ok f ∧ d.Resolves f.lines) ↔
      d.InStep ∧ ∀ rev ∈ d.revs, valid rev = true := by
  have hgraph := accepts_index h (hx (Framing.frames [files.revisions, files.releases, files.versions])).transparent
  rw [mintIndex_of_read hread]
  constructor
  · intro hok
    obtain ⟨f, hf, hresolves⟩ := hok
    obtain ⟨⟨_, hall⟩, rfl⟩ := mintFragment_eq_ok.mp hf
    refine ⟨Index.resolves_iff.mp hresolves, (Index.accepted_triples_iff h).mp fun t ht => ?_⟩
    exact hall t (Fragment.mem_ofTriples.mpr ht)
  · intro hok
    obtain ⟨hstep, hall⟩ := hok
    refine ⟨_, mintFragment_eq_ok.mpr ⟨⟨hgraph, fun t ht => ?_⟩, rfl⟩, Index.resolves_iff.mpr hstep⟩
    exact (Index.accepted_triples_iff h).mpr hall t (Fragment.mem_ofTriples.mp ht)

/-! ## An index read while it is updated -/

def helloFiles (count : String) : IndexFiles where
  revisions := Encoding.utf8 ("[\x7b\"rev\":\"a\",\"date\":\"2025-01-01\"\x7d,"
    ++ "\x7b\"rev\":\"b\",\"date\":\"2025-01-02\"\x7d]")
  releases := Encoding.utf8 "\x7b\x7d"
  versions := Encoding.utf8
    ("\x7b\"attrs\":\x7b\"git\":\x7b\"2.47\":1\x7d,\"hello\":\x7b\"2.10\":0,\"2.12\":null\x7d\x7d,"
    ++ "\"revisionCount\":" ++ count ++ "\x7d")

def helloIndex (count : Nat) : Index where
  revisions := [{ rev := "a", date := "2025-01-01" }, { rev := "b", date := "2025-01-02" }]
  releases := ∅
  versions := {
    attrs := ((∅ : BTreeMap _).insert "git" ((∅ : BTreeMap _).insert "2.47" (some 1))).insert "hello"
      (((∅ : BTreeMap _).insert "2.10" (some 0)).insert "2.12" none)
    revisionCount := count }

/-- What the parsers make of these files. -/
def helloReaders (count : Nat) : IndexReaders where
  revisions bs :=
    if bs = (helloFiles (toString count)).revisions then .ok (helloIndex count).revisions else .error "json"
  releases bs :=
    if bs = (helloFiles (toString count)).releases then .ok (helloIndex count).releases else .error "json"
  versions bs :=
    if bs = (helloFiles (toString count)).versions then .ok (helloIndex count).versions else .error "json"

theorem helloReaders_read (count : Nat) :
    (helloReaders count).read (helloFiles (toString count)) = .ok (helloIndex count) := by
  simp only [IndexReaders.read, helloReaders, if_true]
  rfl

theorem helloIndex_lists (count : Nat) : (helloIndex count).Lists "hello" "2.12" none :=
  ⟨_, Std.ExtTreeMap.getElem?_insert_self, Std.ExtTreeMap.getElem?_insert_self⟩

theorem mintIndex_resolves_iff_hello :
    (∃ f, mintIndex parseIri workerExtern (helloReaders 2) (helloFiles "2") = .ok f ∧
      (helloIndex 2).Resolves f.lines) ↔
      (helloIndex 2).InStep ∧ ∀ rev ∈ (helloIndex 2).revs, valid rev = true :=
  mintIndex_resolves_iff parseIri_parses workerExtern_hex (helloReaders_read 2)

/-- The versions were computed from one revision, and there are two by now. -/
theorem hello_not_resolved : (helloReaders 1).read (helloFiles "1") = .ok (helloIndex 1) ∧
    (helloIndex 1).Lists "hello" "2.12" none ∧
    (helloIndex 1).meant none = some { rev := "a", date := "2025-01-01" } ∧
    addIri (Iri.packageVersion "hello" "2.12") (nix "lastSeenIn") (Iri.nixpkgs "b") ∈ (helloIndex 1).triples ∧
    ¬ ∃ f, mintIndex parseIri workerExtern (helloReaders 1) (helloFiles "1") = .ok f ∧
      (helloIndex 1).Resolves f.lines := by
  have hlists := helloIndex_lists 1
  have hread : (helloReaders 1).read (helloFiles "1") = .ok (helloIndex 1) := helloReaders_read 1
  refine ⟨hread, hlists, rfl, (Index.lastSeenIn_iff hlists _).mpr ⟨_, rfl, rfl⟩, fun h => ?_⟩
  obtain ⟨f, hf, hresolves⟩ := h
  rw [mintIndex_of_read hread] at hf
  obtain ⟨_, rfl⟩ := mintFragment_eq_ok.mp hf
  obtain ⟨r, last, hr, hlast, hsame⟩ := Index.resolves_iff.mp hresolves "hello" "2.12" none hlists
  have hrev : last.rev = r.rev := hsame rfl
  obtain rfl := Option.some.inj hr
  obtain rfl := Option.some.inj hlast
  exact absurd hrev (by decide)

end Nix2Rdf.Extract
