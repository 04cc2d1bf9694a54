import Nix2Rdf.Packs.Program

/-!
# Drift of images

The k8s pack compares the images of a desired and a live snapshot by a join: it looks for an image of
the one and a different image of the other, whatever containers run them.
-/

namespace Nix2Rdf.K8s

open Packs

/-- The containers of a workload with their images, as a graph records them. -/
def imagePairs (quads : Quad → Prop) (s : Iri) (w : Nix2Rdf.Term) : Set (Nix2Rdf.Term × Nix2Rdf.Term) :=
  {ci | quads ⟨s, w, k8s "hasContainer", ci.1⟩ ∧ quads ⟨s, ci.1, k8s "runsImage", ci.2⟩}

/-- The images of a workload, as a graph records them. -/
def images (quads : Quad → Prop) (s : Iri) (w : Nix2Rdf.Term) : Set Nix2Rdf.Term :=
  Prod.snd '' imagePairs quads s w

/-- A desired and a live snapshot of one cluster. -/
structure SnapshotPair (quads : Quad → Prop) (d l : Iri) : Prop where
  desired : ∃ g, quads ⟨g, .iri d, k8s "snapshotKind", .iri (k8s "desiredState")⟩
  live : ∃ g, quads ⟨g, .iri l, k8s "snapshotKind", .iri (k8s "liveState")⟩
  cluster : ∃ g g' cl, quads ⟨g, .iri d, k8s "ofCluster", cl⟩ ∧ quads ⟨g', .iri l, k8s "ofCluster", cl⟩

/-- The pack derives an image drift node for two snapshots and a workload. -/
def DerivesImageDrift (b : Builtins) (quads : Quad → Prop) (d l : Iri) (w : Nix2Rdf.Term) : Prop :=
  let holds := fun (x : Val) (p : Iri) (v : Nix2Rdf.Term) =>
    (k8sWithDeps b).Derived quads ⟨.out, [x, .const (.iri p), .const v]⟩
  ∃ x, holds x rdfType (.iri (k8s "Drift")) ∧ holds x (k8s "desiredSnapshot") (.iri d) ∧
    holds x (k8s "liveSnapshot") (.iri l) ∧ holds x (k8s "workload") w ∧
    holds x (k8s "driftKind") (.literal "image" (xsd "string"))

variable {b : Builtins} {quads : Quad → Prop}

/-! ## The rules -/

theorem imgIn_iff {vs vw vi : Val} :
    (k8sWithDeps b).Derived quads ⟨.imgIn, [vs, vw, vi]⟩ ↔ ∃ s w img,
      vs = .const (.iri s) ∧ vw = .const w ∧ vi = .const img ∧ img ∈ images quads s w := by
  rw [(k8sWithDeps b).derived_iff_one (p := .imgIn) rfl (by simp)]
  constructor
  · rintro ⟨σ, hbody, hhead⟩
    obtain ⟨x, hx, hs, hw, hp, hc⟩ := (k8sWithDeps b).quad_iff.mp (hbody _ List.mem_cons_self)
    obtain ⟨y, hy, hs', hc', hp', hi⟩ := (k8sWithDeps b).quad_iff.mp
      (hbody _ (List.mem_cons_of_mem _ List.mem_cons_self))
    simp only [ground_atom, List.map_cons, List.map_nil, ground_var, Datalog.Fact.mk.injEq,
      List.cons.injEq, and_true, true_and] at hs hw hc hs' hc' hi hhead
    obtain ⟨hgraph, hnode⟩ : x.g = y.g ∧ x.o = y.s := by
      rw [hs] at hs'
      rw [hc] at hc'
      simpa using And.intro hs' hc'
    obtain ⟨rfl, rfl, rfl⟩ := hhead
    refine ⟨x.g, x.s, y.o, hs, hw, hi, (x.o, y.o), ⟨?_, ?_⟩, rfl⟩
    · rwa [hp]
    · rwa [hp', hgraph, hnode]
  · rintro ⟨s, w, _, rfl, rfl, rfl, ⟨c, img⟩, ⟨hc, hi⟩, rfl⟩
    refine ⟨.of (.const c) [("s", .const (.iri s)), ("w", .const w), ("img", .const img)], ?_, by simp⟩
    simp only [List.forall_mem_cons, Datalog.Literal.holds_pos, ground_qd, ground_var,
      (k8sWithDeps b).quad_iff]
    exact ⟨⟨_, hc, by simp⟩, ⟨_, hi, by simp⟩, by simp⟩

theorem pair_of_snapshotPair {d l : Iri} (h : SnapshotPair quads d l) :
    (k8sWithDeps b).Derived quads ⟨.pair, [.const (.iri d), .const (.iri l)]⟩ := by
  have hkind : ∀ a o, (k8sWithDeps b).Derived quads ⟨.kSnapshotKind, [a, o]⟩ ↔
      (k8sWithDeps b).Derived quads ⟨.t, [a, .const (.iri (k8s "snapshotKind")), o]⟩ :=
    fun a o => (k8sWithDeps b).narrow_iff rfl (by simp)
  have hcluster : ∀ a o, (k8sWithDeps b).Derived quads ⟨.kOfCluster, [a, o]⟩ ↔
      (k8sWithDeps b).Derived quads ⟨.t, [a, .const (.iri (k8s "ofCluster")), o]⟩ :=
    fun a o => (k8sWithDeps b).narrow_iff rfl (by simp)
  obtain ⟨⟨_, hd⟩, ⟨_, hl⟩, _, _, cl, hdc, hlc⟩ := h
  have hdesired : (k8sWithDeps b).Derived quads ⟨.desired, [.const (.iri d)]⟩ := by
    refine ((k8sWithDeps b).derived_iff_one rfl (by simp)).mpr ⟨.of (.const (.iri d)) [], ?_, by simp⟩
    simpa [hkind] using (k8sWithDeps b).t_of_quad hd
  have hlive : (k8sWithDeps b).Derived quads ⟨.live, [.const (.iri l)]⟩ := by
    refine ((k8sWithDeps b).derived_iff_one rfl (by simp)).mpr ⟨.of (.const (.iri l)) [], ?_, by simp⟩
    simpa [hkind] using (k8sWithDeps b).t_of_quad hl
  refine ((k8sWithDeps b).derived_iff_one rfl (by simp)).mpr
    ⟨.of (.const cl) [("d", .const (.iri d)), ("l", .const (.iri l))], ?_, by simp⟩
  simpa [hdesired, hlive, hcluster] using
    And.intro ((k8sWithDeps b).t_of_quad hdc) ((k8sWithDeps b).t_of_quad hlc)

theorem imageDrift_iff {d l : Iri} {w : Nix2Rdf.Term} (h : SnapshotPair quads d l) :
    (k8sWithDeps b).Derived quads ⟨.imageDrift, [.const (.iri d), .const (.iri l), .const w]⟩ ↔
      ∃ i ∈ images quads d w, ∃ j ∈ images quads l w, i ≠ j := by
  rw [(k8sWithDeps b).derived_iff_one (p := .imageDrift) rfl (by simp)]
  constructor
  · rintro ⟨σ, hbody, hhead⟩
    simp only [List.forall_mem_cons, Datalog.Literal.holds_pos, ground_atom, List.map_cons,
      List.map_nil, ground_var, ne, Datalog.Literal.holds_test, imgIn_iff] at hbody
    simp only [ground_atom, List.map_cons, List.map_nil, ground_var, Datalog.Fact.mk.injEq,
      List.cons.injEq, and_true, true_and] at hhead
    obtain ⟨hd, hl, hw⟩ := hhead
    rw [hd, hl, hw] at hbody
    obtain ⟨_, ⟨s, v, i, hs, hv, hi, himg⟩, ⟨s', v', j, hs', hv', hj, himg'⟩,
      ⟨_, _, hij, hne⟩, _⟩ := hbody
    cases hs
    cases hv
    cases hs'
    cases hv'
    obtain ⟨rfl, rfl⟩ : σ "i1" = _ ∧ σ "i2" = _ := by simpa using hij
    refine ⟨i, himg, j, himg', ?_⟩
    rintro rfl
    exact hne (hi.trans hj.symm)
  · rintro ⟨i, hi, j, hj, hij⟩
    refine ⟨.of (.const w) [("d", .const (.iri d)), ("l", .const (.iri l)), ("i1", .const i),
      ("i2", .const j)], ?_, by simp⟩
    simp only [List.forall_mem_cons, Datalog.Literal.holds_pos, ground_atom, List.map_cons,
      List.map_nil, ground_var, ne, Datalog.Literal.holds_test, imgIn_iff]
    refine ⟨?_, ⟨d, w, i, rfl, by simp, rfl, hi⟩, ⟨l, w, j, rfl, by simp, rfl, hj⟩, ?_, by simp⟩
    · simpa using pair_of_snapshotPair h
    · exact ⟨_, _, rfl, by simpa using hij⟩

/-! ## The node -/

theorem driftNode_frontier (name kind : String) (source : DAtom) :
    (driftNode name kind source).frontier = ["d", "l", "w"] := rfl

theorem driftNode_subject {name kind : String} {source : DAtom} {σ : Datalog.Valuation Nix2Rdf.Term}
    {x p v : Val} (h : ∃ a ∈ (driftNode name kind source).head, a.ground σ = ⟨.out, [x, p, v]⟩) :
    σ "x" = x := by
  obtain ⟨a, ha, hground⟩ := h
  simp only [driftNode, List.mem_cons, List.not_mem_nil, or_false] at ha
  rcases ha with rfl | rfl | rfl | rfl | rfl <;>
    simp only [ground_ou, ground_var, Datalog.Fact.mk.injEq, List.cons.injEq] at hground <;>
    exact hground.2.1

/-- A fact about a drift node comes from one of the two rules that mint such nodes. -/
theorem drift_inv {p : Iri} (hp : (k8sWithDeps b).rulesOfOut p = [imageNodeRule, replicaNodeRule])
    {x v : Val} (h : (k8sWithDeps b).Derived quads ⟨.out, [x, .const (.iri p), v]⟩) :
    ∃ r ∈ [imageNodeRule, replicaNodeRule], ∃ σ, x = .null r.name "x" [σ "d", σ "l", σ "w"] ∧
      (∀ lit ∈ r.body, lit.Holds ((k8sWithDeps b).Derived quads) σ) ∧
      ∃ a ∈ r.head, a.ground σ = ⟨.out, [x, .const (.iri p), v]⟩ := by
  obtain ⟨r, hr, σ, hfresh, hbody, hhead⟩ := (k8sWithDeps b).derived_out_iff.mp h
  rw [hp] at hr
  refine ⟨r, hr, σ, ?_, hbody, hhead⟩
  simp only [List.mem_cons, List.not_mem_nil, or_false] at hr
  rcases hr with rfl | rfl
  · rw [← driftNode_subject hhead]
    simpa [imageNodeRule, driftNode_frontier] using hfresh "x" List.mem_cons_self
  · rw [← driftNode_subject hhead]
    simpa [replicaNodeRule, driftNode_frontier] using hfresh "x" List.mem_cons_self

section

set_option maxRecDepth 4000

theorem out_driftKind : (k8sWithDeps b).rulesOfOut (k8s "driftKind") = [imageNodeRule, replicaNodeRule] :=
  rfl

theorem out_desiredSnapshot :
    (k8sWithDeps b).rulesOfOut (k8s "desiredSnapshot") = [imageNodeRule, replicaNodeRule] := rfl

theorem out_liveSnapshot :
    (k8sWithDeps b).rulesOfOut (k8s "liveSnapshot") = [imageNodeRule, replicaNodeRule] := rfl

theorem out_workload : (k8sWithDeps b).rulesOfOut (k8s "workload") = [imageNodeRule, replicaNodeRule] :=
  rfl

end

/-- A node of image drift is the null of its snapshots and its workload. -/
theorem eq_null_of_image {x : Val} (h : (k8sWithDeps b).Derived quads
      ⟨.out, [x, .const (.iri (k8s "driftKind")), .const (.literal "image" (xsd "string"))]⟩) :
    ∃ d l w, x = .null "image-drift" "x" [d, l, w] ∧
      (k8sWithDeps b).Derived quads ⟨.imageDrift, [d, l, w]⟩ := by
  obtain ⟨r, hr, σ, hx, hbody, a, ha, hground⟩ := drift_inv out_driftKind h
  simp only [List.mem_cons, List.not_mem_nil, or_false] at hr
  rcases hr with rfl | rfl
  · refine ⟨_, _, _, hx, ?_⟩
    simpa using hbody _ List.mem_cons_self
  · simp only [replicaNodeRule, driftNode, List.mem_cons, List.not_mem_nil, or_false] at ha
    rcases ha with rfl | rfl | rfl | rfl | rfl <;> simp at hground

/-- What else is said of such a node comes from the same rule, for the same values. -/
theorem image_node_inv {p : Iri}
    (hp : (k8sWithDeps b).rulesOfOut p = [imageNodeRule, replicaNodeRule]) {d l w v : Val}
    (h : (k8sWithDeps b).Derived quads
      ⟨.out, [.null "image-drift" "x" [d, l, w], .const (.iri p), v]⟩) :
    (p = k8s "desiredSnapshot" → v = d) ∧ (p = k8s "liveSnapshot" → v = l) ∧
      (p = k8s "workload" → v = w) := by
  obtain ⟨r, hr, σ, hx, _, a, ha, hground⟩ := drift_inv hp h
  simp only [Datalog.Value.null.injEq, List.cons.injEq, and_true, true_and] at hx
  obtain ⟨hname, rfl, rfl, rfl⟩ := hx
  simp only [List.mem_cons, List.not_mem_nil, or_false] at hr
  rcases hr with rfl | rfl
  · simp only [imageNodeRule, driftNode, List.mem_cons, List.not_mem_nil, or_false] at ha
    rcases ha with rfl | rfl | rfl | rfl | rfl <;>
      simp only [ground_ou, ground_var, Datalog.Fact.mk.injEq, List.cons.injEq, and_true, true_and,
        Datalog.Value.const.injEq, Term.iri.injEq] at hground <;>
      obtain ⟨_, rfl, rfl⟩ := hground <;> simp
  · simp [replicaNodeRule, driftNode] at hname

/-- The node exists exactly when the two graphs record different images of the workload. -/
theorem derivesImageDrift_iff {d l : Iri} {w : Nix2Rdf.Term} (h : SnapshotPair quads d l) :
    DerivesImageDrift b quads d l w ↔ ∃ i ∈ images quads d w, ∃ j ∈ images quads l w, i ≠ j := by
  rw [← imageDrift_iff h (b := b)]
  constructor
  · rintro ⟨x, _, hd, hl, hw, hkind⟩
    obtain ⟨d', l', w', rfl, hdrift⟩ := eq_null_of_image hkind
    obtain rfl := (image_node_inv out_desiredSnapshot hd).1 rfl
    obtain rfl := (image_node_inv out_liveSnapshot hl).2.1 rfl
    obtain rfl := (image_node_inv out_workload hw).2.2 rfl
    exact hdrift
  · intro hdrift
    have hnode : ∀ a ∈ imageNodeRule.head, (k8sWithDeps b).Derived quads (a.ground
        (.of (.null "image-drift" "x" [.const (.iri d), .const (.iri l), .const w])
          [("d", .const (.iri d)), ("l", .const (.iri l)), ("w", .const w)])) := by
      intro a ha
      have hr : imageNodeRule ∈ program (k8sWithDeps b).rules := by
        simp [program, k8sWithDeps, Ruleset.append, k8sRules, k8sPack, k8sDrift]
      refine (k8sWithDeps b).derive hr ⟨_, ?_, ?_, a, ha, rfl⟩
      · intro y hy
        obtain rfl := List.mem_singleton.mp hy
        have hfrontier : imageNodeRule.frontier = ["d", "l", "w"] := rfl
        have hname : imageNodeRule.name = "image-drift" := rfl
        simp [hfrontier, hname]
      · intro lit hlit
        obtain rfl := List.mem_singleton.mp hlit
        simpa using hdrift
    refine ⟨.null "image-drift" "x" [.const (.iri d), .const (.iri l), .const w], ?_⟩
    simpa [imageNodeRule, driftNode] using hnode

theorem exists_ne_iff {A B : Set Nix2Rdf.Term} (hA : A.Nonempty) (hB : B.Nonempty) :
    (∃ i ∈ A, ∃ j ∈ B, i ≠ j) ↔ ¬ (A ∪ B).Subsingleton := by
  constructor
  · rintro ⟨i, hi, j, hj, hij⟩ hsub
    exact hij (hsub (Or.inl hi) (Or.inr hj))
  · intro hsub
    by_contra hall
    push Not at hall
    obtain ⟨i, hi⟩ := hA
    obtain ⟨j, hj⟩ := hB
    have heq : ∀ x ∈ A ∪ B, x = i := by
      rintro x (hx | hx)
      · exact (hall x hx j hj).trans (hall i hi j hj).symm
      · exact (hall i hi x hx).symm
    exact hsub fun x hx y hy => (heq x hx).trans (heq y hy).symm

/-- For workloads with a recorded image on both sides, a drift node stands for a difference of the
recorded containers and images exactly if they differ just where more than one image is recorded. -/
theorem imageDrift_exact_iff (b : Builtins) (quads : Quad → Prop) {d l : Iri} {w : Nix2Rdf.Term}
    (h : SnapshotPair quads d l) (hd : (images quads d w).Nonempty) (hl : (images quads l w).Nonempty) :
    (DerivesImageDrift b quads d l w ↔ imagePairs quads d w ≠ imagePairs quads l w) ↔
      (imagePairs quads d w = imagePairs quads l w ↔
        (images quads d w ∪ images quads l w).Subsingleton) := by
  rw [derivesImageDrift_iff h, exists_ne_iff hd hl]
  tauto

/-! ## Two containers -/

/-- What a graph records of the containers of `w` and their images. -/
def containersIn (g : Iri) (containers : List (Iri × Iri)) : List Quad :=
  containers.flatMap fun ci =>
    [⟨g, .iri "w", k8s "hasContainer", .iri ci.1⟩, ⟨g, .iri ci.1, k8s "runsImage", .iri ci.2⟩]

/-- The desired and the live state of one cluster. -/
def twoSnapshots (desired live : List (Iri × Iri)) : List Quad :=
  [⟨"d", .iri "d", k8s "snapshotKind", .iri (k8s "desiredState")⟩,
    ⟨"l", .iri "l", k8s "snapshotKind", .iri (k8s "liveState")⟩,
    ⟨"d", .iri "d", k8s "ofCluster", .iri "c"⟩, ⟨"l", .iri "l", k8s "ofCluster", .iri "c"⟩]
  ++ containersIn "d" desired ++ containersIn "l" live

def recorded (desired live : List (Iri × Iri)) (x : Quad) : Prop := x ∈ twoSnapshots desired live

section

variable {desired live : List (Iri × Iri)} {ci : Iri × Iri}

theorem recorded_pair (desired live : List (Iri × Iri)) : SnapshotPair (recorded desired live) "d" "l" where
  desired := ⟨"d", by simp [recorded, twoSnapshots]⟩
  live := ⟨"l", by simp [recorded, twoSnapshots]⟩
  cluster := ⟨"d", "l", .iri "c", by simp [recorded, twoSnapshots], by simp [recorded, twoSnapshots]⟩

theorem mem_containersIn (g : Iri) {cs : List (Iri × Iri)} (h : ci ∈ cs) :
    ⟨g, .iri "w", k8s "hasContainer", .iri ci.1⟩ ∈ containersIn g cs ∧
      ⟨g, .iri ci.1, k8s "runsImage", .iri ci.2⟩ ∈ containersIn g cs :=
  ⟨List.mem_flatMap.mpr ⟨ci, h, by simp⟩, List.mem_flatMap.mpr ⟨ci, h, by simp⟩⟩

theorem mem_images_desired (h : ci ∈ desired) : Term.iri ci.2 ∈ images (recorded desired live) "d" (.iri "w") := by
  obtain ⟨hcontainer, himage⟩ := mem_containersIn "d" h
  exact ⟨(.iri ci.1, .iri ci.2), ⟨List.mem_append_left _ (List.mem_append_right _ hcontainer),
    List.mem_append_left _ (List.mem_append_right _ himage)⟩, rfl⟩

theorem mem_images_live (h : ci ∈ live) : Term.iri ci.2 ∈ images (recorded desired live) "l" (.iri "w") := by
  obtain ⟨hcontainer, himage⟩ := mem_containersIn "l" h
  exact ⟨(.iri ci.1, .iri ci.2), ⟨List.mem_append_right _ hcontainer, List.mem_append_right _ himage⟩, rfl⟩

theorem imagePairs_same (cs : List (Iri × Iri)) :
    imagePairs (recorded cs cs) "d" (.iri "w") = imagePairs (recorded cs cs) "l" (.iri "w") := by
  ext ⟨c, i⟩
  simp [imagePairs, recorded, twoSnapshots, containersIn]

end

/-- One of two containers runs another image than it should. -/
theorem imageDrift_exact_iff_twoContainers :
    (DerivesImageDrift noBuiltins (recorded [("a", "i"), ("b", "j")] [("a", "i"), ("b", "k")]) "d" "l" (.iri "w") ↔
      imagePairs (recorded [("a", "i"), ("b", "j")] [("a", "i"), ("b", "k")]) "d" (.iri "w") ≠
        imagePairs (recorded [("a", "i"), ("b", "j")] [("a", "i"), ("b", "k")]) "l" (.iri "w")) ↔
      (imagePairs (recorded [("a", "i"), ("b", "j")] [("a", "i"), ("b", "k")]) "d" (.iri "w") =
          imagePairs (recorded [("a", "i"), ("b", "j")] [("a", "i"), ("b", "k")]) "l" (.iri "w") ↔
        (images (recorded [("a", "i"), ("b", "j")] [("a", "i"), ("b", "k")]) "d" (.iri "w") ∪
          images (recorded [("a", "i"), ("b", "j")] [("a", "i"), ("b", "k")]) "l" (.iri "w")).Subsingleton) :=
  imageDrift_exact_iff noBuiltins _ (recorded_pair _ _)
    ⟨_, mem_images_desired List.mem_cons_self⟩ ⟨_, mem_images_live List.mem_cons_self⟩

/-- Two snapshots that record the same two containers, with different images, drift. -/
theorem equal_images_drift :
    ¬ ∀ (b : Builtins) (quads : Quad → Prop) (d l : Iri) (w : Nix2Rdf.Term), SnapshotPair quads d l →
      (images quads d w).Nonempty → (images quads l w).Nonempty →
      (DerivesImageDrift b quads d l w ↔ imagePairs quads d w ≠ imagePairs quads l w) := by
  intro hclaim
  have hi : ("a", "i") ∈ [("a", "i"), ("b", "j")] := List.mem_cons_self
  have hj : ("b", "j") ∈ [("a", "i"), ("b", "j")] := List.mem_cons_of_mem _ List.mem_cons_self
  have hpair := recorded_pair [("a", "i"), ("b", "j")] [("a", "i"), ("b", "j")]
  have hdrift : DerivesImageDrift noBuiltins (recorded [("a", "i"), ("b", "j")] [("a", "i"), ("b", "j")])
      "d" "l" (.iri "w") := by
    refine (derivesImageDrift_iff hpair).mpr ⟨_, mem_images_desired hi, _, mem_images_live hj, ?_⟩
    simp
  refine (hclaim _ _ _ _ _ hpair ⟨_, mem_images_desired hi⟩ ⟨_, mem_images_live hi⟩).mp hdrift ?_
  exact imagePairs_same _

end Nix2Rdf.K8s
