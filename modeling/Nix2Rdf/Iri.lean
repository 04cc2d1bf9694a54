import Nix2Rdf.Rdf
import Nix2Rdf.Lib.Encoding

/-!
# The IRI scheme

Two namespaces hold vocabulary (`nix:`, `k8s:`); every instance lives under the single base
`https://w3id.org/nix2rdf/id/`, partitioned by the first path segment.
-/

namespace Nix2Rdf

open Text (slash)

def nixNs : String := "https://w3id.org/nix2rdf/ns#"
def k8sNs : String := "https://w3id.org/nix2rdf/k8s#"
def idBase : String := "https://w3id.org/nix2rdf/id/"
def policyBase : String := "https://w3id.org/nix2rdf/policy/"
def rdfType : Iri := "http://www.w3.org/1999/02/22-rdf-syntax-ns#type"
def xsdNs : String := "http://www.w3.org/2001/XMLSchema#"

/-- The prefixes every program and query may use. -/
def prefixes : List (String × String) :=
  [("nix", nixNs), ("k8s", k8sNs), ("nixid", idBase),
    ("git", "https://w3id.org/nix2rdf/id/git/"), ("oci", "https://w3id.org/nix2rdf/id/oci/"),
    ("pack", "https://w3id.org/nix2rdf/id/pack/"), ("derived", "https://w3id.org/nix2rdf/id/derived/"),
    ("frag", "https://w3id.org/nix2rdf/id/fragment/"), ("k8sid", "https://w3id.org/nix2rdf/id/k8s/"),
    ("org", "https://w3id.org/nix2rdf/id/org/"), ("policy", policyBase),
    ("rdf", "http://www.w3.org/1999/02/22-rdf-syntax-ns#"),
    ("rdfs", "http://www.w3.org/2000/01/rdf-schema#"), ("owl", "http://www.w3.org/2002/07/owl#"),
    ("xsd", xsdNs), ("prov", "http://www.w3.org/ns/prov#"),
    ("spdx", "https://spdx.org/rdf/3.0.1/terms/Core/")]

/-! ## Segments -/

/-- The bytes `encodeSegment` keeps: letters, digits and `- . _ ~ @ + ! , = :`. -/
def segmentSafe (b : UInt8) : Bool :=
  (65 ≤ b && b ≤ 90) || (97 ≤ b && b ≤ 122) || (48 ≤ b && b ≤ 57) ||
    b == 45 || b == 46 || b == 95 || b == 126 || b == 64 || b == 43 || b == 33 || b == 44 ||
    b == 61 || b == 58

def encodeSegment (s : String) : String := Encoding.percentEncode segmentSafe s

/-- A NAR hash as an IRI segment: the SRI form becomes Base64url without padding. -/
def narHashSegment (sri : String) : String :=
  match Text.splitOnce '-' sri with
  | some (algo, b64) =>
      match Encoding.unbase64 b64.toList with
      | some bytes => algo ++ "-" ++ String.ofList (Encoding.base64Url bytes)
      | none => encodeSegment sri
  | none => encodeSegment sri

def isAsciiAlphanumeric (c : Char) : Bool :=
  (65 ≤ c.toNat && c.toNat ≤ 90) || (97 ≤ c.toNat && c.toNat ≤ 122) || (48 ≤ c.toNat && c.toNat ≤ 57)

/-- The 32-character hash part of a store path. -/
def storePathHash (path : String) : Option String :=
  (Text.splitOnce '-' (Text.lastPart '/' path)).bind fun p =>
    if p.1.toList.length = 32 ∧ p.1.toList.all isAsciiAlphanumeric then some p.1 else none

/-- The name part of a store path, after the hash and the dash. -/
def storePathName (path : String) : Option String :=
  (Text.splitOnce '-' (Text.lastPart '/' path)).map Prod.snd

/-! ## Vocabulary and instances -/

def id (path : String) : Iri := idBase ++ path
def nix (term : String) : Iri := nixNs ++ term
def k8s (term : String) : Iri := k8sNs ++ term
def xsd (t : String) : Iri := xsdNs ++ t

namespace Iri

def drv (storeHash : String) : Iri := id (slash ["drv", storeHash])
def out (storeHash : String) : Iri := id (slash ["out", storeHash])
def src (narHash : String) : Iri := id (slash ["src", narHashSegment narHash])
def pin (narHash : String) : Iri := id (slash ["pin", narHashSegment narHash])
def flakeInput (rootNarHash parentNodeId inputName : String) : Iri :=
  id (slash ["pin", narHashSegment rootNarHash, "input", encodeSegment parentNodeId,
    encodeSegment inputName])
def pinAttr (rootNarHash attrPath : String) : Iri :=
  id (slash ["pin", narHashSegment rootNarHash, "attr", encodeSegment attrPath])
def nixpkgs (rev : String) : Iri := id (slash ["nixpkgs", rev])
def nixpkgsAttr (rev attrPath : String) : Iri :=
  id (slash ["nixpkgs", rev, "attr", encodeSegment attrPath])
def packageVersion (attrPath version : String) : Iri :=
  id (slash ["pkgver", encodeSegment attrPath, encodeSegment version])
def release (name : String) : Iri := id (slash ["release", encodeSegment name])
def commit (repo sha : String) : Iri := id (slash ["git", encodeSegment repo, sha])
def gen (systemHash : String) : Iri := id (slash ["gen", systemHash])
def nixosConfiguration (flakeNarHash name : String) : Iri :=
  id (slash ["pin", narHashSegment flakeNarHash, "nixosConfigurations", encodeSegment name])
def option (path : String) : Iri := id (slash ["option", encodeSegment path])
def optionValue (genHash path : String) : Iri := id (slash ["gen", genHash, "opt", encodeSegment path])
def optionDefinition (genHash path : String) (index : Nat) : Iri :=
  id (slash ["gen", genHash, "opt", encodeSegment path, "def", toString index])
def value (hash : String) : Iri := id (slash ["value", hash])
def image (sha256Hex : String) : Iri := id (slash ["oci", "sha256", sha256Hex])
def layer (sha256Hex : String) : Iri := id (slash ["oci", "layer", "sha256", sha256Hex])
def pack (contentHash : String) : Iri := id (slash ["pack", contentHash])
def derived (rulesetHash inputHash : String) : Iri :=
  id (slash ["derived", rulesetHash ++ ":" ++ inputHash])
def fragment (kind ident : String) : Iri := id (slash ["fragment", kind, ident])

def k8sCluster (cluster : String) : Iri := id (slash ["k8s", "cluster", encodeSegment cluster])
def k8sObj (cluster kind : String) (ns : Option String) (name : String) : Iri :=
  match ns with
  | some ns => id (slash ["k8s", encodeSegment cluster, kind, encodeSegment ns, encodeSegment name])
  | none => id (slash ["k8s", encodeSegment cluster, kind, encodeSegment name])
def k8sNode (cluster name : String) : Iri := k8sObj cluster "node" none name
def k8sNamespace (cluster name : String) : Iri := k8sObj cluster "ns" none name
def k8sContainer (cluster kind ns name container : String) : Iri :=
  id (slash ["k8s", encodeSegment cluster, kind, encodeSegment ns, encodeSegment name, "c",
    encodeSegment container])
def k8sSnapshot (cluster contentHash : String) : Iri :=
  id (slash ["k8s", encodeSegment cluster, "snapshot", contentHash])
def k8sNodesFragment (cluster contentHash : String) : Iri :=
  id (slash ["k8s", encodeSegment cluster, "nodes", contentHash])
def k8sFailureDomain (cluster kind value : String) : Iri :=
  id (slash ["k8s", encodeSegment cluster, "domain", kind, encodeSegment value])
def k8sPermission (cluster apiGroup resource verb : String) : Iri :=
  id (slash ["k8s", encodeSegment cluster, "permission",
    encodeSegment (if apiGroup = "" then "core" else apiGroup), encodeSegment resource,
    encodeSegment verb])
def owner (labelValue : String) : Iri := id (slash ["org", "owner", encodeSegment labelValue])

end Iri

/-! ## Injectivity -/

theorem segmentSafe_escapes : Encoding.Escapes segmentSafe := by
  unfold Encoding.Escapes
  decide

theorem encodeSegment_injective : Function.Injective encodeSegment :=
  Encoding.percentEncode_injective segmentSafe_escapes

@[simp] theorem encodeSegment_inj {s t : String} : encodeSegment s = encodeSegment t ↔ s = t :=
  encodeSegment_injective.eq_iff

theorem segmentSafe_ne_slash : ∀ n < 256, segmentSafe (UInt8.ofNat n) → Char.ofNat n ≠ '/' := by
  decide +kernel

theorem upperHex_ne_slash : ∀ n < 16, '/' ≠ Encoding.upperHex n := by decide

/-- An encoded segment holds no slash, so that it stays one segment of its path. -/
theorem slash_not_mem_encodeSegment (s : String) : '/' ∉ (encodeSegment s).toList := by
  intro h
  rw [encodeSegment, Encoding.percentEncode, String.toList_ofList] at h
  rcases Encoding.mem_percentBytes h with ⟨b, _, hb, hc⟩ | hc | ⟨n, hn, hc⟩
  · exact segmentSafe_ne_slash b.toNat (UInt8.toNat_lt_size b) (by simpa using hb) hc.symm
  · cases hc
  · exact upperHex_ne_slash n hn hc

theorem segmentSafe_ascii : ∀ n < 256, segmentSafe (UInt8.ofNat n) → n < 128 := by decide +kernel

/-- Encoding brings in nothing but escapes. -/
theorem mem_encodeSegment {s : String} {c : Char} (h : c ∈ (encodeSegment s).toList) :
    c ∈ s.toList ∨ c = '%' ∨ ∃ n < 16, c = Encoding.upperHex n := by
  rw [encodeSegment, Encoding.percentEncode, String.toList_ofList] at h
  rcases Encoding.mem_percentBytes h with ⟨b, hmem, hb, hc⟩ | hc | hc
  · have hlt := segmentSafe_ascii b.toNat (UInt8.toNat_lt_size b) (by simpa using hb)
    rw [hc]
    exact .inl (Encoding.mem_of_mem_utf8 hmem hlt)
  · exact .inr (.inl hc)
  · exact .inr (.inr hc)

@[simp] theorem id_inj {a b : String} : id a = id b ↔ a = b := String.append_right_inj idBase

theorem Iri.pin_inj {m n : String} : Iri.pin m = Iri.pin n ↔ narHashSegment m = narHashSegment n := by
  simp [Iri.pin, Text.slash_pair]

@[simp] theorem Iri.flakeInput_inj {nar id id' name name' : String} :
    Iri.flakeInput nar id name = Iri.flakeInput nar id' name' ↔ id = id' ∧ name = name' := by
  simp only [Iri.flakeInput, id_inj, Text.slash_cons "pin", Text.slash_cons (narHashSegment nar),
    Text.slash_cons "input", String.append_right_inj]
  rw [Text.slash_inj (by simp) (by simp)]
  · simp
  · simp [slash_not_mem_encodeSegment]
  · simp [slash_not_mem_encodeSegment]

theorem Iri.drv_inj {h h' : String} : Iri.drv h = Iri.drv h' ↔ h = h' := by
  simp [Iri.drv, Text.slash_pair]

theorem Iri.src_inj {nar nar' : String} : Iri.src nar = Iri.src nar' ↔ narHashSegment nar = narHashSegment nar' := by
  simp [Iri.src, Text.slash_pair]

theorem Iri.nixpkgsAttr_inj {rev attr attr' : String} :
    Iri.nixpkgsAttr rev attr = Iri.nixpkgsAttr rev attr' ↔ attr = attr' := by
  simp [Iri.nixpkgsAttr, Text.slash_cons, Text.slash_singleton]

theorem Iri.nixpkgs_inj {rev rev' : String} : Iri.nixpkgs rev = Iri.nixpkgs rev' ↔ rev = rev' := by
  simp [Iri.nixpkgs, Text.slash_pair]

theorem Iri.packageVersion_inj {attr attr' version version' : String} :
    Iri.packageVersion attr version = Iri.packageVersion attr' version' ↔ attr = attr' ∧ version = version' := by
  simp only [Iri.packageVersion, id_inj, Text.slash_cons "pkgver", String.append_right_inj]
  rw [Text.slash_inj (by simp) (by simp)]
  · simp
  · simp [slash_not_mem_encodeSegment]
  · simp [slash_not_mem_encodeSegment]

theorem Iri.nixpkgsAttr_ne_nixpkgs (rev attr : String) :
    Iri.nixpkgsAttr rev attr ≠ Iri.nixpkgs rev := by
  intro h
  have := congrArg String.length h
  simp [Iri.nixpkgsAttr, Iri.nixpkgs, id, Text.slash_cons, Text.slash_singleton] at this
  have : "/".length = 1 := rfl
  omega

@[simp] theorem nix_inj {a b : String} : nix a = nix b ↔ a = b := String.append_right_inj nixNs

@[simp] theorem k8s_inj {a b : String} : k8s a = k8s b ↔ a = b := String.append_right_inj k8sNs

@[simp] theorem nix_ne_k8s (a b : String) : nix a ≠ k8s b := by
  intro h
  have := congrArg (fun s => s.toList.drop 25) h
  simp [nix, k8s, nixNs, k8sNs, String.toList_append] at this

@[simp] theorem k8s_ne_nix (a b : String) : k8s a ≠ nix b := (nix_ne_k8s b a).symm

@[simp] theorem rdfType_ne_nix (a : String) : rdfType ≠ nix a := by
  intro h
  have := congrArg (fun s => s.toList.drop 4) h
  simp [rdfType, nix, nixNs, String.toList_append] at this

@[simp] theorem rdfType_ne_k8s (a : String) : rdfType ≠ k8s a := by
  intro h
  have := congrArg (fun s => s.toList.drop 4) h
  simp [rdfType, k8s, k8sNs, String.toList_append] at this

@[simp] theorem k8s_ne_id (a path : String) : k8s a ≠ id path := by
  intro h
  have := congrArg (fun s => s.toList.drop 25) h
  simp [id, idBase, k8s, k8sNs, String.toList_append] at this

@[simp] theorem nix_ne_rdfType (a : String) : nix a ≠ rdfType := (rdfType_ne_nix a).symm

@[simp] theorem k8s_ne_rdfType (a : String) : k8s a ≠ rdfType := (rdfType_ne_k8s a).symm

end Nix2Rdf
