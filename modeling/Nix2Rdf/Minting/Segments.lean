import Nix2Rdf.Lib.IriSyntax
import Nix2Rdf.Extract.Flake
import Nix2Rdf.Extract.Image
import Nix2Rdf.K8s.Minted

/-!
# Minting IRIs

Every IRI is built from a base and segments, and minting one that is not valid panics. Most segments
are encoded. Kinds, generations, digests and the algorithm of a NAR hash stand in the path as they are.
-/

namespace Nix2Rdf

open IriSyntax (valid Transparent)
open Text (slash)

def panicText : String := "IRIs built here are always valid"

/-- What `NamedNode::new` does with the strings that the program mints. -/
structure ParsesIris (accepts : String → Bool) : Prop where
  entity : ∀ path, accepts (idBase ++ path) = valid path
  term : ∀ w, w.toList.all isAsciiAlphanumeric = true →
    accepts (nixNs ++ w) = true ∧ accepts (k8sNs ++ w) = true ∧ accepts (xsdNs ++ w) = true
  rdfType : accepts rdfType = true

def Term.iris : Term → List Iri
  | .iri i => [i]
  | .literal _ dt => [dt]
  | _ => []

def Triple.iris (t : Triple) : List Iri := t.s.iris ++ t.p :: t.o.iris

section

variable (accepts : String → Bool)

def nn (s : String) : Result Iri := if accepts s then .ok s else .error panicText

/-- Mint the graph of a fragment and whatever its triples are built of. -/
def mintFragment (f : Fragment) : Result Fragment :=
  if accepts f.graph = true ∧ ∀ t ∈ f.lines, ∀ i ∈ t.iris, accepts i = true then .ok f
  else .error panicText

/-- A snapshot, with the IRIs minted that it is built of. -/
def K8s.mintSnapshot (x : Extern) (now : String) (input : K8s.SnapshotInput) (opts : K8s.SnapshotOptions) :
    Result K8s.SnapshotOutput := do
  let ctx := K8s.ctxOf input opts
  let _ ← mintFragment accepts (K8s.nodesFragment ctx opts)
  let _ ← mintFragment accepts (K8s.pendingSnapshot ctx input opts.state)
  let out := K8s.buildSnapshot x now input opts
  let _ ← nn accepts out.snapshotIri
  let _ ← mintFragment accepts out.observed
  return out

/-- A lock graph: the pins are minted first, and then what each node mentions. -/
def Flake.mintLockGraph (depth : Nat) (metadata : Json) (rootNar : String) :
    Result (List Fragment × List Triple) := do
  let k ← lockOf metadata rootNar
  let _ ← (Iri.pin rootNar :: k.nodes.keys.filterMap k.pinOf).mapM (nn accepts)
  let triples ← k.nodes.keys.mapM fun nodeId => do
    let ts ← k.nodeTriples depth nodeId
    let _ ← (ts.flatMap Triple.iris).mapM (nn accepts)
    return ts
  return (k.nodes.keys.filterMap k.nodeFragment, triples.flatten)

def Extract.mintImage (imageIdHex : String) (desc : ImageDesc) (imageDrv : Iri) (closure : List String)
    (registryDigest : Option String) : Result Fragment :=
  mintFragment accepts (imageFragment imageIdHex desc imageDrv closure registryDigest)

end

/-! ## Segments -/

theorem transparent_encodeSegment (s : String) : Transparent (encodeSegment s) := by
  have hall : ∀ n < 256, segmentSafe (UInt8.ofNat n) = true → IriSyntax.plain (Char.ofNat n) = true := by
    decide +kernel
  refine IriSyntax.transparent_percentEncode (fun b hb => ?_) s
  have h := hall b.toNat b.toNat_lt
  rw [UInt8.ofNat_toNat] at h
  exact h hb

theorem plain_alphanumeric {c : Char} (h : isAsciiAlphanumeric c = true) : IriSyntax.plain c = true := by
  simp only [isAsciiAlphanumeric, Bool.or_eq_true, Bool.and_eq_true, decide_eq_true_eq] at h
  simp only [IriSyntax.plain, IriSyntax.alphanumeric, IriSyntax.within, Bool.or_eq_true, Bool.and_eq_true,
    decide_eq_true_eq]
  omega

theorem transparent_alphanumeric {s : String} (h : s.toList.all isAsciiAlphanumeric = true) : Transparent s :=
  IriSyntax.transparent_of_plain fun c hc => plain_alphanumeric (List.all_eq_true.mp h c hc)

theorem transparent_slash {segs : List String} (h : ∀ s ∈ segs, Transparent s) : Transparent (slash segs) := by
  have hone : Transparent "/" := fun _ => rfl
  induction segs with
  | nil => exact fun _ => rfl
  | cons s segs ih =>
      have hrest := ih fun t ht => h t (List.mem_cons_of_mem _ ht)
      have hs := h s List.mem_cons_self
      cases segs with
      | nil =>
          rw [Text.slash_singleton]
          exact hs
      | cons t segs =>
          rw [Text.slash_cons]
          exact (hs.append hone).append hrest

/-- What is encoded around a segment does not matter. -/
theorem valid_slash {pre post : List String} {s : String} (hpre : ∀ t ∈ pre, Transparent t)
    (hpost : ∀ t ∈ post, Transparent t) : valid (slash (pre ++ s :: post)) = valid s := by
  have hempty : Transparent "" := fun _ => rfl
  have hone : Transparent "/" := fun _ => rfl
  induction pre with
  | nil =>
      cases post with
      | nil => rw [List.nil_append, Text.slash_singleton]
      | cons t post =>
          have hrest : Transparent ("/" ++ slash (t :: post)) := hone.append (transparent_slash hpost)
          have hs : slash (s :: t :: post) = "" ++ s ++ ("/" ++ slash (t :: post)) := by
            rw [Text.slash_cons, String.empty_append, String.append_assoc]
          rw [List.nil_append, hs, IriSyntax.valid_between hempty hrest]
          intro c hc
          rw [String.toList_append] at hc
          cases hc
          rfl
  | cons t pre ih =>
      have ht := (hpre t List.mem_cons_self).append hone
      cases hsegs : pre ++ s :: post with
      | nil => simp at hsegs
      | cons u segs =>
          have hs : slash (t :: u :: segs) = t ++ "/" ++ slash (u :: segs) ++ "" := by
            rw [Text.slash_cons, String.append_empty]
          rw [List.cons_append, hsegs, hs, IriSyntax.valid_between ht hempty (fun c hc => by cases hc), ← hsegs]
          exact ih fun u hu => hpre u (List.mem_cons_of_mem _ hu)

theorem plain_base64Url {bs : List UInt8} {c : Char} (h : c ∈ Encoding.base64Url bs) :
    IriSyntax.plain c = true := by
  have hdigit : ∀ n < 64, IriSyntax.plain (Encoding.base64Digit '-' '_' n) = true := by decide
  obtain ⟨n, hn, rfl⟩ := Encoding.mem_base64Url h
  exact hdigit n hn

/-- The algorithm of a NAR hash in the SRI form, which stands in the path as it is. -/
def AlgorithmOf (sri algo : String) : Prop :=
  ∃ b64, Text.splitOnce '-' sri = some (algo, b64) ∧ (Encoding.unbase64 b64.toList).isSome = true

theorem valid_narHashSegment {sri : String} :
    valid (narHashSegment sri) = true ↔ ∀ algo, AlgorithmOf sri algo → valid algo = true := by
  have hother : (¬ ∃ algo, AlgorithmOf sri algo) → narHashSegment sri = encodeSegment sri →
      (valid (narHashSegment sri) = true ↔ ∀ algo, AlgorithmOf sri algo → valid algo = true) := by
    intro hnone hseg
    rw [hseg]
    exact ⟨fun _ algo h => (hnone ⟨algo, h⟩).elim, fun _ => (transparent_encodeSegment sri).valid⟩
  cases hsplit : Text.splitOnce '-' sri with
  | none =>
      refine hother ?_ (by simp only [narHashSegment, hsplit])
      intro h
      obtain ⟨algo, b64, h, _⟩ := h
      rw [hsplit] at h
      cases h
  | some parts =>
      obtain ⟨algo, b64⟩ := parts
      cases hbytes : Encoding.unbase64 b64.toList with
      | none =>
          refine hother ?_ (by simp only [narHashSegment, hsplit, hbytes])
          intro h
          obtain ⟨algo', b64', h, hsome⟩ := h
          rw [hsplit] at h
          cases h
          rw [hbytes] at hsome
          cases hsome
      | some bytes =>
          have hurl : Transparent ("-" ++ String.ofList (Encoding.base64Url bytes)) := by
            refine IriSyntax.transparent_of_plain fun c hc => ?_
            rw [String.toList_append, List.mem_append] at hc
            rcases hc with hc | hc
            · cases List.mem_singleton.mp hc
              rfl
            · rw [String.toList_ofList] at hc
              exact plain_base64Url hc
          have hseg : narHashSegment sri = "" ++ algo ++ ("-" ++ String.ofList (Encoding.base64Url bytes)) := by
            simp only [narHashSegment, hsplit, hbytes, String.empty_append, String.append_assoc]
          rw [hseg, IriSyntax.valid_between (fun _ => rfl) hurl]
          · constructor
            · intro h algo' halgo
              obtain ⟨b64', hsplit', _⟩ := halgo
              rw [hsplit] at hsplit'
              cases hsplit'
              exact h
            · intro h
              exact h algo ⟨b64, hsplit, by rw [hbytes]; rfl⟩
          · intro c hc
            rw [String.toList_append] at hc
            cases hc
            rfl

/-- The fixed segments of paths. -/
def fixedSegments : List String :=
  ["k8s", "oci", "layer", "sha256", "gen", "pin", "drv", "out", "input", "nodes", "snapshot", "fragment",
    "k8s-observed", "PENDINGHASH"]

theorem transparent_word : ∀ w ∈ fixedSegments, Transparent w := by
  have hplain : ∀ w ∈ fixedSegments, w.toList.all IriSyntax.plain = true := by decide +kernel
  exact fun w hw => IriSyntax.transparent_of_plain (List.all_eq_true.mp (hplain w hw))

/-! ## What is accepted -/

def Triple.Accepted (accepts : String → Bool) (t : Triple) : Prop := ∀ i ∈ t.iris, accepts i = true

section Accepted

variable {accepts : String → Bool}

open Triple

theorem accepted_addIri {s p o : Iri} :
    (addIri s p o).Accepted accepts ↔ accepts s = true ∧ accepts p = true ∧ accepts o = true := by
  simp [Accepted, Triple.iris, addIri, add, Term.iris]

theorem accepted_addTyped {s p dt : Iri} {v : String} :
    (addTyped s p v dt).Accepted accepts ↔ accepts s = true ∧ accepts p = true ∧ accepts dt = true := by
  simp [Accepted, Triple.iris, addTyped, add, Term.iris]

theorem nn_eq_ok {s : String} {i : Iri} : nn accepts s = .ok i ↔ accepts s = true ∧ s = i := by
  unfold nn
  split
  · rename_i h
    simp [h]
  · rename_i h
    simp [h]

theorem mintFragment_eq_ok {f g : Fragment} : mintFragment accepts f = .ok g ↔
    (accepts f.graph = true ∧ ∀ t ∈ f.lines, t.Accepted accepts) ∧ f = g := by
  unfold mintFragment
  split
  · rename_i h
    have h' : accepts f.graph = true ∧ ∀ t ∈ f.lines, t.Accepted accepts := h
    simp only [Except.ok.injEq, and_iff_right h']
  · rename_i h
    have h' : ¬ (accepts f.graph = true ∧ ∀ t ∈ f.lines, t.Accepted accepts) := h
    simp [h']

/-- Nothing else stops a fragment. -/
theorem mintFragment_panics {f : Fragment} (h : ¬ ∃ g, mintFragment accepts f = .ok g) :
    mintFragment accepts f = .error panicText := by
  unfold mintFragment at h ⊢
  split
  · rename_i hall
    rw [if_pos hall] at h
    exact (h ⟨f, rfl⟩).elim
  · rfl

namespace ParsesIris

variable (h : ParsesIris accepts)

include h

theorem id_eq (path : String) : accepts (id path) = valid path := h.entity path

theorem nix {w : String} (hw : w.toList.all isAsciiAlphanumeric = true) : accepts (nix w) = true := (h.term w hw).1

theorem k8s {w : String} (hw : w.toList.all isAsciiAlphanumeric = true) : accepts (k8s w) = true := (h.term w hw).2.1

theorem xsd {w : String} (hw : w.toList.all isAsciiAlphanumeric = true) : accepts (xsd w) = true := (h.term w hw).2.2

/-- An IRI with one segment that is not encoded is as valid as that segment. -/
theorem id_slash {pre post : List String} {s : String} (hpre : ∀ t ∈ pre, Transparent t)
    (hpost : ∀ t ∈ post, Transparent t) : accepts (id (slash (pre ++ s :: post))) = valid s := by
  rw [h.id_eq, valid_slash hpre hpost]

/-- One segment after fixed ones. -/
theorem id_fixed (pre : List String) (hpre : ∀ t ∈ pre, t ∈ fixedSegments) (s : String) :
    accepts (id (slash (pre ++ [s]))) = valid s :=
  h.id_slash (fun t ht => transparent_word t (hpre t ht)) fun t ht => by cases ht

theorem transparent {segs : List String} (hsegs : ∀ s ∈ segs, Transparent s) : accepts (id (slash segs)) = true := by
  rw [h.id_eq]
  exact (transparent_slash hsegs).valid

theorem encoded (segs : List String) : accepts (id (slash (segs.map encodeSegment))) = true := by
  refine h.transparent fun s hs => ?_
  obtain ⟨t, _, rfl⟩ := List.mem_map.mp hs
  exact transparent_encodeSegment t

end ParsesIris

end Accepted

end Nix2Rdf
