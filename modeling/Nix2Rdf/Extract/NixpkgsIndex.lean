import Nix2Rdf.Extract.Nixpkgs
import Nix2Rdf.Hash

/-!
# The index of nixpkgs

Layer 0: the revisions, the releases, and for each version of an attribute the last revision it shipped
in, with no evaluation. The three files are joined by position.
-/

namespace Nix2Rdf.Extract

open Triple
open Nixpkgs (revisionNode)

structure Release where
  build : Option Int := none
  date : String
  name : String := ""
  narHash : String := ""
  rev : String

structure Versions where
  /-- For each attribute its versions, each at the offset of the last revision that ships it. A version
  that the newest revision ships has none. -/
  attrs : BTreeMap (BTreeMap (Option Nat))
  revisionCount : Nat := 0

structure IndexFiles where
  revisions : List UInt8
  releases : List UInt8
  versions : List UInt8

def IndexFiles.contentHash (x : Extern) (files : IndexFiles) : String :=
  hashItems x [files.revisions, files.releases, files.versions]

/-- How the files are parsed. -/
structure IndexReaders where
  revisions : List UInt8 → Result (List Revision)
  releases : List UInt8 → Result (BTreeMap Release)
  versions : List UInt8 → Result Versions

/-- What the files say. -/
structure Index where
  revisions : List Revision
  releases : BTreeMap Release
  versions : Versions

def IndexReaders.read (readers : IndexReaders) (files : IndexFiles) : Result Index := do
  let revisions ← readers.revisions files.revisions
  let releases ← readers.releases files.releases
  let versions ← readers.versions files.versions
  return ⟨revisions, releases, versions⟩

def releaseTriples (name : String) (rel : Release) : List Triple :=
  let rn := Iri.release name
  [addType rn (nix "Release"), addStr rn (nix "name") name, addTyped rn (nix "date") rel.date (xsd "date")]
  ++ rel.build.toList.map (fun b => addInt rn (nix "releaseBuild") b)
  ++ (if rel.name = "" then [] else [addStr rn (nix "channelName") rel.name])
  ++ revisionNode ⟨rel.rev, rel.date, rel.name, rel.narHash⟩ none
  ++ [addIri rn (nix "releasePinnedTo") (Iri.nixpkgs rel.rev)]

/-- The revision that an offset is taken for. -/
def Index.revisionAt (d : Index) : Option Nat → Option Revision
  | some o => d.revisions[o]?
  | none => d.revisions.getLast?

def Index.versionTriples (d : Index) (attr version : String) (offset : Option Nat) : List Triple :=
  let pv := Iri.packageVersion attr version
  [addType pv (nix "PackageVersion"), addStr pv (nix "attrPath") attr, addStr pv (nix "version") version]
  ++ (if offset = none then [addBool pv (nix "currentAtIndexTip") true] else [])
  ++ (d.revisionAt offset).toList.map fun r => addIri pv (nix "lastSeenIn") (Iri.nixpkgs r.rev)

def Index.triples (d : Index) : List Triple :=
  d.revisions.zipIdx.flatMap (fun r => revisionNode r.1 (some r.2))
  ++ d.releases.toList.flatMap (fun rel => releaseTriples rel.1 rel.2)
  ++ d.versions.attrs.toList.flatMap fun a => a.2.toList.flatMap fun v => d.versionTriples a.1 v.1 v.2

def indexFragment (x : Extern) (readers : IndexReaders) (files : IndexFiles) : Result Fragment := do
  let d ← readers.read files
  return Fragment.ofTriples (.index (files.contentHash x)) d.triples

/-! ## What is stated of a version -/

namespace Index

variable {d : Index}

/-- The version of an attribute and its offset stand in the versions file. -/
def Lists (d : Index) (attr version : String) (offset : Option Nat) : Prop :=
  ∃ versions, d.versions.attrs[attr]? = some versions ∧ versions[version]? = some offset

/-- The revision that an offset means: for the newest the last one that the versions were computed from. -/
def meant (d : Index) : Option Nat → Option Revision
  | some o => d.revisions[o]?
  | none => if d.versions.revisionCount = 0 then none else d.revisions[d.versions.revisionCount - 1]?

/-- The triples of a version state its attribute, itself, one revision and whether it is the newest. -/
structure States (ts : Finset Triple) (attr version : String) (offset : Option Nat) (r : Revision) : Prop where
  described : addType (Iri.packageVersion attr version) (nix "PackageVersion") ∈ ts
  ofAttribute : ∀ o, add (Iri.packageVersion attr version) (nix "attrPath") o ∈ ts ↔ o = .literal attr (xsd "string")
  ofVersion : ∀ o, add (Iri.packageVersion attr version) (nix "version") o ∈ ts ↔ o = .literal version (xsd "string")
  lastSeenIn : ∀ o, add (Iri.packageVersion attr version) (nix "lastSeenIn") o ∈ ts ↔ o = .iri (Iri.nixpkgs r.rev)
  currentAtIndexTip : ∀ o, add (Iri.packageVersion attr version) (nix "currentAtIndexTip") o ∈ ts ↔
    offset = none ∧ o = .literal "true" (xsd "boolean")

/-- Every version is stated to be last seen in the revision that its offset means. -/
def Resolves (d : Index) (ts : Finset Triple) : Prop :=
  ∀ attr version offset, d.Lists attr version offset → ∃ r, d.meant offset = some r ∧ States ts attr version offset r

/-- Every offset means a revision, which for the newest is the last one there is. -/
def InStep (d : Index) : Prop :=
  ∀ attr version offset, d.Lists attr version offset →
    ∃ r last, d.meant offset = some r ∧ d.revisions.getLast? = some last ∧ (offset = none → last.rev = r.rev)

def versionTerms : List Iri := [nix "attrPath", nix "version", nix "lastSeenIn", nix "currentAtIndexTip"]

theorem avoids_revisionNode (r : Revision) (offset : Option Nat) : Avoids versionTerms (revisionNode r offset) := by
  simp only [revisionNode, avoids_append, avoids_cons, avoids_nil, and_true, avoids_map]
  refine ⟨⟨⟨by simp [versionTerms], ?_⟩, ?_⟩, by simp [versionTerms]⟩
  · split <;> simp [versionTerms]
  · split <;> simp [versionTerms]

theorem avoids_releaseTriples (name : String) (rel : Release) : Avoids versionTerms (releaseTriples name rel) := by
  simp only [releaseTriples, avoids_append, avoids_cons, avoids_nil, and_true, avoids_map, avoids_revisionNode]
  refine ⟨⟨⟨by simp [versionTerms], by simp [versionTerms]⟩, ?_⟩, by simp [versionTerms]⟩
  split <;> simp [versionTerms]

theorem subject_versionTriples {attr version : String} {offset : Option Nat} {t : Triple}
    (h : t ∈ d.versionTriples attr version offset) : t.s = .iri (Iri.packageVersion attr version) := by
  simp only [versionTriples, List.mem_append, List.mem_cons, List.not_mem_nil, or_false, List.mem_map] at h
  rcases h with ((rfl | rfl | rfl) | h) | ⟨r, _, rfl⟩
  · rfl
  · rfl
  · rfl
  · split at h
    · rw [List.mem_singleton] at h
      rw [h]
      rfl
    · cases h
  · rfl

theorem versionTriples_subset {attr version : String} {offset : Option Nat}
    (h : d.Lists attr version offset) {t : Triple}
    (ht : t ∈ d.versionTriples attr version offset) : t ∈ d.triples := by
  obtain ⟨versions, hattr, hversion⟩ := h
  refine List.mem_append_right _ (List.mem_flatMap.mpr ⟨(attr, versions), ?_, ?_⟩)
  · exact Std.ExtTreeMap.mem_toList_iff_getElem?_eq_some.mpr hattr
  · refine List.mem_flatMap.mpr ⟨(version, offset), ?_, ht⟩
    exact Std.ExtTreeMap.mem_toList_iff_getElem?_eq_some.mpr hversion

/-- No other revision, release or version speaks of a version. -/
theorem mem_triples_version {attr version : String} {offset : Option Nat} (h : d.Lists attr version offset) {p : Iri}
    (hp : p ∈ versionTerms) (o : Term) : add (Iri.packageVersion attr version) p o ∈ d.triples ↔
      add (Iri.packageVersion attr version) p o ∈ d.versionTriples attr version offset := by
  refine ⟨fun ht => ?_, versionTriples_subset h⟩
  rw [triples, List.mem_append, List.mem_append, List.mem_flatMap, List.mem_flatMap, List.mem_flatMap] at ht
  rcases ht with (⟨r, _, ht⟩ | ⟨rel, _, ht⟩) | ⟨a, ha, ht⟩
  · exact absurd hp (avoids_revisionNode _ _ _ ht)
  · exact absurd hp (avoids_releaseTriples _ _ _ ht)
  · obtain ⟨v, hv, ht⟩ := List.mem_flatMap.mp ht
    have hsubject : Iri.packageVersion attr version = Iri.packageVersion a.1 v.1 :=
      Term.iri.inj (subject_versionTriples ht)
    obtain ⟨hattr, hversion⟩ := Iri.packageVersion_inj.mp hsubject
    obtain ⟨versions, hversions, hoffset⟩ := h
    have ha' := Std.ExtTreeMap.mem_toList_iff_getElem?_eq_some.mp ha
    have hv' := Std.ExtTreeMap.mem_toList_iff_getElem?_eq_some.mp hv
    rw [← hattr, hversions] at ha'
    rw [← hversion, ← Option.some.inj ha', hoffset] at hv'
    rwa [← hattr, ← hversion, ← Option.some.inj hv'] at ht

section Version

variable {attr version : String} {offset : Option Nat}

theorem mem_versionTriples (p : Iri) (o : Term) :
    add (Iri.packageVersion attr version) p o ∈ d.versionTriples attr version offset ↔
      (p = rdfType ∧ o = .iri (nix "PackageVersion")) ∨ (p = nix "attrPath" ∧ o = .literal attr (xsd "string")) ∨
        (p = nix "version" ∧ o = .literal version (xsd "string")) ∨
        (p = nix "currentAtIndexTip" ∧ offset = none ∧ o = .literal "true" (xsd "boolean")) ∨
        (p = nix "lastSeenIn" ∧ ∃ r, d.revisionAt offset = some r ∧ o = .iri (Iri.nixpkgs r.rev)) := by
  have htip : add (Iri.packageVersion attr version) p o
        ∈ (if offset = none then [addBool (Iri.packageVersion attr version) (nix "currentAtIndexTip") true] else []) ↔
      p = nix "currentAtIndexTip" ∧ offset = none ∧ o = .literal "true" (xsd "boolean") := by
    split
    · simp [addBool, addTyped, add, *]
    · simp [*]
  have hlast : add (Iri.packageVersion attr version) p o
        ∈ (d.revisionAt offset).toList.map (fun r =>
            addIri (Iri.packageVersion attr version) (nix "lastSeenIn") (Iri.nixpkgs r.rev)) ↔
      p = nix "lastSeenIn" ∧ ∃ r, d.revisionAt offset = some r ∧ o = .iri (Iri.nixpkgs r.rev) := by
    simp [addIri, add, eq_comm, and_left_comm]
  rw [versionTriples, List.mem_append, List.mem_append, htip, hlast]
  simp [addType, addIri, addStr, addTyped, add, or_assoc]

/-- What is stated of the revision of a version is what the code takes its offset for. -/
theorem lastSeenIn_iff (h : d.Lists attr version offset) (o : Term) :
    add (Iri.packageVersion attr version) (nix "lastSeenIn") o ∈ d.triples ↔
      ∃ r, d.revisionAt offset = some r ∧ o = .iri (Iri.nixpkgs r.rev) := by
  rw [mem_triples_version h (by simp [versionTerms]), mem_versionTriples]
  simp

theorem attrPath_iff (h : d.Lists attr version offset) (o : Term) :
    add (Iri.packageVersion attr version) (nix "attrPath") o ∈ d.triples ↔ o = .literal attr (xsd "string") := by
  rw [mem_triples_version h (by simp [versionTerms]), mem_versionTriples]
  simp

theorem version_iff (h : d.Lists attr version offset) (o : Term) :
    add (Iri.packageVersion attr version) (nix "version") o ∈ d.triples ↔ o = .literal version (xsd "string") := by
  rw [mem_triples_version h (by simp [versionTerms]), mem_versionTriples]
  simp

theorem currentAtIndexTip_iff (h : d.Lists attr version offset) (o : Term) :
    add (Iri.packageVersion attr version) (nix "currentAtIndexTip") o ∈ d.triples ↔
      offset = none ∧ o = .literal "true" (xsd "boolean") := by
  rw [mem_triples_version h (by simp [versionTerms]), mem_versionTriples]
  simp

end Version

/-- The versions are resolved exactly if the three files are in step. -/
theorem resolves_iff : d.Resolves d.triples.toFinset ↔ d.InStep := by
  constructor
  · intro h attr version offset hlist
    obtain ⟨r, hmeant, hstates⟩ := h attr version offset hlist
    have hlast := hstates.lastSeenIn (.iri (Iri.nixpkgs r.rev))
    rw [List.mem_toFinset, lastSeenIn_iff hlist, iff_true_right rfl] at hlast
    obtain ⟨last, htaken, hsame⟩ := hlast
    have hrev : r.rev = last.rev := Iri.nixpkgs_inj.mp (Term.iri.inj hsame)
    cases offset with
    | none => exact ⟨r, last, hmeant, htaken, fun _ => hrev.symm⟩
    | some n =>
        have hne : d.revisions ≠ [] := List.ne_nil_of_mem (List.mem_of_getElem? hmeant)
        exact ⟨r, d.revisions.getLast hne, hmeant, List.getLast?_eq_some_getLast hne, nofun⟩
  · intro h attr version offset hlist
    obtain ⟨r, last, hmeant, hgetLast, hsame⟩ := h attr version offset hlist
    have htaken : ∃ taken, d.revisionAt offset = some taken ∧ taken.rev = r.rev := by
      cases offset with
      | none => exact ⟨last, hgetLast, hsame rfl⟩
      | some n => exact ⟨r, hmeant, rfl⟩
    obtain ⟨taken, htaken, hrev⟩ := htaken
    refine ⟨r, hmeant, ?_, fun o => ?_, fun o => ?_, fun o => ?_, fun o => ?_⟩
    · rw [List.mem_toFinset]
      exact versionTriples_subset hlist List.mem_cons_self
    · rw [List.mem_toFinset, attrPath_iff hlist]
    · rw [List.mem_toFinset, version_iff hlist]
    · rw [List.mem_toFinset, lastSeenIn_iff hlist, htaken, ← hrev]
      simp
    · rw [List.mem_toFinset, currentAtIndexTip_iff hlist]

end Index

end Nix2Rdf.Extract
