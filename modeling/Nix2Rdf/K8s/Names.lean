import Nix2Rdf.K8s.Index

/-!
# Names of objects

The entity of an object is a path below its cluster. Replacing the placeholder in the text of a
snapshot leaves the part of the path that names the object as it is.
-/

namespace Nix2Rdf.K8s

open Text (slash)

/-- What Kubernetes accepts as the name of an object. -/
def DnsName (s : String) : Prop :=
  s ≠ "" ∧ ∀ c ∈ s.toList, c.isLower ∨ c.isDigit ∨ c = '-' ∨ c = '.'

/-- An IRI as it stands in a fragment after the placeholder has been replaced. -/
def renamed (real : String) (i : Iri) : Iri := Text.replace placeholder real i

def pathOf (cid : String) (segs : List String) : Iri := id (slash ("k8s" :: encodeSegment cid :: segs))

/-- The letter `G` stands for the placeholder, which holds one. -/
structure Plain (segs : List String) : Prop where
  ne_nil : segs ≠ []
  no_slash : ∀ s ∈ segs, '/' ∉ s.toList
  no_g : ∀ s ∈ segs, 'G' ∉ s.toList

theorem renamed_of_no_g {real i : String} (h : 'G' ∉ i.toList) : renamed real i = i := by
  apply Text.replace_of_not_occurs
  intro hoccurs
  exact h (hoccurs.subset (by decide))

theorem pathOf_eq (cid : String) {segs : List String} (h : segs ≠ []) :
    pathOf cid segs = id (slash ["k8s", encodeSegment cid]) ++ String.singleton '/' ++ slash segs := by
  cases segs with
  | nil => exact absurd rfl h
  | cons a segs =>
      rw [pathOf, Text.slash_cons, Text.slash_cons, Text.slash_pair, id, id]
      simp only [String.append_assoc]
      rfl

theorem renamed_pathOf (real cid : String) {segs : List String} (h : Plain segs) :
    renamed real (pathOf cid segs) =
      renamed real (id (slash ["k8s", encodeSegment cid])) ++ String.singleton '/' ++ slash segs := by
  have hplain : renamed real (slash segs) = slash segs := by
    apply renamed_of_no_g
    intro hg
    rcases Text.mem_slash hg with hg | ⟨s, hs, hg⟩
    · exact absurd hg (by decide)
    · exact h.no_g s hs hg
  rw [pathOf_eq cid h.ne_nil, renamed, Text.replace_append_cons (by decide) (by decide)]
  exact congrArg _ hplain

theorem renamed_pathOf_inj {real cid : String} {segs segs' : List String} (h : Plain segs)
    (h' : Plain segs') :
    renamed real (pathOf cid segs) = renamed real (pathOf cid segs') ↔ segs = segs' := by
  rw [renamed_pathOf real cid h, renamed_pathOf real cid h', String.append_right_inj,
    Text.slash_inj h.ne_nil h'.ne_nil h.no_slash h'.no_slash]

/-! ## Keys -/

theorem DnsName.no_g {n : String} (h : DnsName n) : 'G' ∉ n.toList := by
  intro hg
  rcases h.2 _ hg with h | h | h | h <;> exact absurd h (by decide)

theorem DnsName.encoded_no_g {n : String} (h : DnsName n) : 'G' ∉ (encodeSegment n).toList := by
  intro hg
  rcases mem_encodeSegment hg with hg | hg | ⟨d, hd, hg⟩
  · exact h.no_g hg
  · exact absurd hg (by decide)
  · have hall : ∀ d < 16, 'G' ≠ Encoding.upperHex d := by decide
    exact hall d hd hg

/-- The kinds of objects that a reachability question is about. -/
def policyKinds : List String := "Namespace" :: "NetworkPolicy" :: workloadKinds

/-- A key as a cluster has it: a namespace stands in none, and everything else in one. -/
structure ValidKey (k : Key) : Prop where
  kind : k.kind ∈ policyKinds
  name : DnsName k.name
  ns : if k.kind = "Namespace" then k.ns = "" else DnsName k.ns

/-- The path that names an object in its cluster. -/
def segsOf (k : Key) : List String :=
  if k.kind = "Namespace" then ["ns", encodeSegment k.name]
  else [k.kind, encodeSegment k.ns, encodeSegment k.name]

theorem policyKinds_plain : ∀ kind ∈ policyKinds, '/' ∉ kind.toList ∧ 'G' ∉ kind.toList := by decide

theorem ValidKey.plain {k : Key} (h : ValidKey k) : Plain (segsOf k) := by
  have hns := h.ns
  obtain ⟨hslash, hg⟩ := policyKinds_plain _ h.kind
  unfold segsOf
  split
  · refine ⟨by simp, ?_, ?_⟩
    · simp [slash_not_mem_encodeSegment]
    · simp [h.name.encoded_no_g]
  · rw [if_neg ‹_›] at hns
    refine ⟨by simp, ?_, ?_⟩
    · simp [hslash, slash_not_mem_encodeSegment]
    · simp [hg, hns.encoded_no_g, h.name.encoded_no_g]

theorem ValidKey.iriOf {ctx : Ctx} {k : Key} (h : ValidKey k) : ctx.iriOf k = pathOf ctx.cid (segsOf k) := by
  obtain ⟨kind, ns, name⟩ := k
  have hkind := h.kind
  have hns := h.ns
  simp only [policyKinds, workloadKinds, List.mem_cons, List.not_mem_nil, or_false] at hkind
  rcases hkind with rfl | rfl | rfl | rfl | rfl | rfl | rfl
  · rfl
  all_goals
    have hne : ns ≠ "" := hns.1
    simp only [Ctx.iriOf, nsOption, hne, if_false]
    rfl

theorem segsOf_inj {k k' : Key} (h : ValidKey k) (h' : ValidKey k') : segsOf k = segsOf k' ↔ k = k' := by
  refine ⟨fun heq => ?_, fun heq => by rw [heq]⟩
  obtain ⟨kind, ns, name⟩ := k
  obtain ⟨kind', ns', name'⟩ := k'
  have hns := h.ns
  have hns' := h'.ns
  unfold segsOf at heq
  dsimp only at heq hns hns'
  split at heq
  · split at heq
    · rename_i hk hk'
      rw [if_pos hk] at hns
      rw [if_pos hk'] at hns'
      simp only [List.cons.injEq, encodeSegment_inj, and_true, true_and] at heq
      rw [hk, hk', hns, hns', heq]
    · simp at heq
  · split at heq
    · simp at heq
    · simp only [List.cons.injEq, encodeSegment_inj, and_true] at heq
      obtain ⟨hk, hn, hm⟩ := heq
      rw [hk, hn, hm]

/-- Different objects keep different names. -/
theorem renamed_iriOf_inj {ctx : Ctx} {real : String} {k k' : Key} (h : ValidKey k) (h' : ValidKey k') :
    renamed real (ctx.iriOf k) = renamed real (ctx.iriOf k') ↔ k = k' := by
  rw [h.iriOf, h'.iriOf, renamed_pathOf_inj h.plain h'.plain, segsOf_inj h h']

end Nix2Rdf.K8s
