import Nix2Rdf.K8s.Rehash
import Nix2Rdf.K8s.Names
import Nix2Rdf.Reason.Select
import Nix2Rdf.Identity
import Nix2Rdf.Minting.Locks

/-!
# The hosts of a cluster snapshot

The closure of a snapshot follows the images it runs. The generations of its hosts are in the node
inventory, a fragment that only the observation names.
-/

namespace Nix2Rdf.Reason

open K8s Paths

/-! ## What a snapshot mentions -/

variable {x : Extern} {now : String} {input : SnapshotInput} {opts : SnapshotOptions}

variable {Bytes : Type} (r : FragmentReader Bytes) (d : Disk Bytes)

/-- The snapshot says that a container runs this image. -/
def RunsImage (f : Fragment) (digest : String) : Prop :=
  ∃ ci, (⟨ci, k8s "runsImage", .iri (Iri.image digest)⟩ : Triple) ∈ f.lines

variable {r d}

section Stored

variable (r d) (out : SnapshotOutput)

/-- The fragment of this kind, and what its closure follows. -/
def Closure (k : FragmentKind) (p : FragmentPath) : Prop := (fragmentGraph r d true).Reach [pathOfKind k] p

end Stored

theorem Closure.exists {k : FragmentKind} {p : FragmentPath} (h : Closure r d k p)
    (hk : d.exists? (pathOfKind k) = true) : d.exists? p = true := by
  cases h with
  | root hp =>
      rw [List.mem_singleton.mp hp]
      exact hk
  | next _ hexp hn =>
      obtain ⟨b, refs, _, _, _, rfl⟩ := expand_eq_some.mp hexp
      exact (List.mem_filter.mp hn).2

section Built

variable {out : SnapshotOutput}

end Built

/-- Accept what is plain and parses. -/
def plainParse (s : String) : Bool := plainIri s && parseIri s

theorem plainText_of_plainParse {s : String} (h : plainParse s = true) : PlainText s := by
  rw [plainParse, Bool.and_eq_true] at h
  exact plainIri_iff.mp h.1

theorem plainParse_parses : ParsesIris plainParse := by
  have hplain : ∀ {s}, PlainText s → plainParse s = parseIri s := by
    intro s hs
    rw [plainParse, plainIri_iff.mpr hs, Bool.true_and]
  have hbases : ∀ ns ∈ [idBase, nixNs, k8sNs, xsdNs, rdfType], plainIri ns = true := by decide
  have hbase : ∀ ns ∈ [idBase, nixNs, k8sNs, xsdNs, rdfType], PlainText ns := fun ns hns =>
    plainIri_iff.mp (hbases ns hns)
  refine ⟨fun path => ?_, fun w hw => ?_, ?_⟩
  · cases hvalid : IriSyntax.valid path with
    | true =>
        have hpath := plainText_append (hbase idBase (by simp)) (plainText_of_valid hvalid)
        rw [hplain hpath, parseIri_parses.entity, hvalid]
    | false => rw [plainParse, parseIri_parses.entity, hvalid, Bool.and_false]
  · have hword : PlainText w := fun c hc =>
      iriExcluded_of_plain (plain_alphanumeric (List.all_eq_true.mp hw c hc))
    have hterm := parseIri_parses.term w hw
    rw [hplain (plainText_append (hbase nixNs (by simp)) hword),
      hplain (plainText_append (hbase k8sNs (by simp)) hword), hplain
        (plainText_append (hbase xsdNs (by simp)) hword)]
    exact hterm
  · rw [hplain (hbase rdfType (by simp)), parseIri_parses.rdfType]

end Nix2Rdf.Reason
