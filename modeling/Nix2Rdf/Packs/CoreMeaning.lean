import Nix2Rdf.Lib.Reachability
import Nix2Rdf.Packs.Closures

/-!
# The meaning of the core pack

What the core rules derive from any quads, with commits and images: the closures of a snapshot, of a commit that
stands for one and of an image that ships layers, and the dependencies between derivations.
-/

namespace Nix2Rdf.Packs

open Relation (ReflTransGen TransGen)
open Reachability (Reaches)

section Meaning

variable {quads : Quad → Prop} {s d o a b : Val}

/-! ## Runtime closures -/

/-- What is in a runtime closure at the start: outputs of the roots and what the layers hold. -/
def ShipsFirst (quads : Quad → Prop) (s o : Val) : Prop :=
  Asserts quads s (nix "runtimeClosureContains") o ∨
    (∃ d, Asserts quads s (nix "hasRoot") d ∧ Asserts quads d (nix "hasOutput") o) ∨
    ∃ l, Asserts quads s (nix "hasLayer") l ∧ Asserts quads l (nix "layerContains") o

/-- The runtime closure of a snapshot, of a commit or of an image. -/
abbrev Ships (quads : Quad → Prop) : Val → Val → Prop :=
  Reaches (Asserts quads · (nix "snapshot") ·) (ShipsFirst quads) (Asserts quads · (nix "references") ·)

theorem coreDerives_layerContains :
    CoreDerives quads s (nix "layerContains") o ↔ Asserts quads s (nix "layerContains") o :=
  coreRules.t_iff_asserted rfl

/-- One application of a rule for the runtime closure. -/
theorem runtimeClosureContains_iff : CoreDerives quads s (nix "runtimeClosureContains") o ↔
    Asserts quads s (nix "runtimeClosureContains") o ∨
    (∃ d, Asserts quads s (nix "hasRoot") d ∧ Asserts quads d (nix "hasOutput") o) ∨
    (∃ y, CoreDerives quads s (nix "runtimeClosureContains") y ∧ Asserts quads y (nix "references") o) ∨
    (∃ y, Asserts quads s (nix "snapshot") y ∧ CoreDerives quads y (nix "runtimeClosureContains") o) ∨
    ∃ l, Asserts quads s (nix "hasLayer") l ∧ Asserts quads l (nix "layerContains") o := by
  simp only [← coreDerives_hasRoot, ← coreDerives_hasOutput, ← coreDerives_references,
    ← coreDerives_snapshot, ← coreDerives_hasLayer, ← coreDerives_layerContains]
  rw [CoreDerives, coreRules.derived_t_iff, coreRules_runtimeClosureContains]
  simp only [List.mem_cons, List.not_mem_nil, or_false, exists_eq_or_imp, exists_eq_left, tRule_asserts,
    join_derives (show "s" ≠ "d" by decide) (show "s" ≠ "o" by decide) (show "d" ≠ "o" by decide),
    join_derives (show "s" ≠ "o1" by decide) (show "s" ≠ "o2" by decide) (show "o1" ≠ "o2" by decide),
    join_derives (show "c" ≠ "s" by decide) (show "c" ≠ "o" by decide) (show "s" ≠ "o" by decide),
    join_derives (show "img" ≠ "l" by decide) (show "img" ≠ "o" by decide) (show "l" ≠ "o" by decide)]
  exact Iff.rfl

theorem ships_sound (h : CoreDerives quads s (nix "runtimeClosureContains") o) : Ships quads s o := by
  refine coreRules.induction_pos (motive := Ships quads) rfl ?_ h
  rw [coreRules_runtimeClosureContains]
  intro r hr s o hderives
  simp only [List.mem_cons, List.not_mem_nil, or_false] at hr
  rcases hr with rfl | rfl | rfl | rfl | rfl
  · exact .of_base (.inl (tRule_asserts.mp (hderives.mono rfl fun _ hf => hf.1)))
  · obtain ⟨d, ⟨hroot, _⟩, hout, _⟩ := (join_derives (by decide) (by decide) (by decide)).mp hderives
    exact .of_base (.inr (.inl ⟨d, coreDerives_hasRoot.mp hroot, coreDerives_hasOutput.mp hout⟩))
  · obtain ⟨y, ⟨_, hy⟩, href, _⟩ := (join_derives (by decide) (by decide) (by decide)).mp hderives
    exact (hy _ _ rfl).tail (coreDerives_references.mp href)
  · obtain ⟨y, ⟨hsnap, _⟩, _, hy⟩ := (join_derives (by decide) (by decide) (by decide)).mp hderives
    exact .head (coreDerives_snapshot.mp hsnap) (hy _ _ rfl)
  · obtain ⟨l, ⟨hlayer, _⟩, hholds, _⟩ := (join_derives (by decide) (by decide) (by decide)).mp hderives
    exact .of_base (.inr (.inr ⟨l, coreDerives_hasLayer.mp hlayer, coreDerives_layerContains.mp hholds⟩))

/-- A runtime closure has, up from a commit to what it stands for, outputs of roots and contents of layers, and all
that these reference. -/
theorem ships_iff : CoreDerives quads s (nix "runtimeClosureContains") o ↔ Ships quads s o := by
  refine ⟨ships_sound, Reaches.least (R := fun s o => CoreDerives quads s (nix "runtimeClosureContains") o) ?_ ?_ ?_⟩
  · intro s o h
    rcases h with h | h | h
    · exact runtimeClosureContains_iff.mpr (.inl h)
    · exact runtimeClosureContains_iff.mpr (.inr (.inl h))
    · exact runtimeClosureContains_iff.mpr (.inr (.inr (.inr (.inr h))))
  · exact fun h href => runtimeClosureContains_iff.mpr (.inr (.inr (.inl ⟨_, h, href⟩)))
  · exact fun hsnap h => runtimeClosureContains_iff.mpr (.inr (.inr (.inr (.inl ⟨_, hsnap, h⟩))))

/-! ## Build closures -/

/-- What is in a build closure at the start: the roots, and whatever produces something that is shipped. -/
def ContainsFirst (quads : Quad → Prop) (s d : Val) : Prop :=
  Asserts quads s (nix "closureContains") d ∨ Asserts quads s (nix "hasRoot") d ∨
    ∃ o, Ships quads s o ∧ Asserts quads d (nix "hasOutput") o

/-- The build closure of a snapshot, of a commit or of an image. -/
abbrev Contains (quads : Quad → Prop) : Val → Val → Prop :=
  Reaches (Asserts quads · (nix "snapshot") ·) (ContainsFirst quads) (Needs quads)

theorem contains_sound (h : CoreDerives quads s (nix "closureContains") d) : Contains quads s d := by
  refine coreRules.induction_pos (motive := Contains quads) rfl ?_ h
  rw [coreRules_closureContains]
  intro r hr s d hderives
  simp only [List.mem_cons, List.not_mem_nil, or_false] at hr
  rcases hr with rfl | rfl | rfl | rfl | rfl
  · exact .of_base (.inl (tRule_asserts.mp (hderives.mono rfl fun _ hf => hf.1)))
  · obtain ⟨hroot, _⟩ := (copy_derives (by decide)).mp hderives
    exact .of_base (.inr (.inl (coreDerives_hasRoot.mp hroot)))
  · obtain ⟨y, ⟨_, hy⟩, hdep, _⟩ := (join_derives (by decide) (by decide) (by decide)).mp hderives
    exact (hy _ _ rfl).tail (coreDerives_dependsOn.mp hdep)
  · obtain ⟨y, ⟨hsnap, _⟩, _, hy⟩ := (join_derives (by decide) (by decide) (by decide)).mp hderives
    exact .head (coreDerives_snapshot.mp hsnap) (hy _ _ rfl)
  · obtain ⟨y, ⟨hruntime, _⟩, hout, _⟩ := (meet_derives (by decide) (by decide) (by decide)).mp hderives
    exact .of_base (.inr (.inr ⟨y, ships_sound hruntime, coreDerives_hasOutput.mp hout⟩))

/-- A build closure has, up from a commit to what it stands for, roots and producers of what is shipped, and all that
these depend on. -/
theorem contains_iff : CoreDerives quads s (nix "closureContains") d ↔ Contains quads s d := by
  refine ⟨contains_sound, Reaches.least (R := fun s d => CoreDerives quads s (nix "closureContains") d) ?_ ?_ ?_⟩
  · intro s d h
    rcases h with h | h | ⟨o, ho, h⟩
    · exact closureContains_iff.mpr (.inl h)
    · exact closureContains_iff.mpr (.inr (.inl h))
    · exact closureContains_iff.mpr (.inr (.inr (.inr (.inr ⟨o, ships_iff.mpr ho, h⟩))))
  · exact fun h hneeds => closureContains_iff.mpr (.inr (.inr (.inl ⟨_, h, hneeds⟩)))
  · exact fun hsnap h => closureContains_iff.mpr (.inr (.inr (.inr (.inl ⟨_, hsnap, h⟩))))

/-! ## Dependencies -/

theorem coreRules_dependsOnTransitively : coreRules.rulesOfT (nix "dependsOnTransitively") =
    [tRule,
      clause (tr (var "a") (nix "dependsOnTransitively") (var "b")) [tr (var "a") (nix "dependsOn") (var "b")],
      clause (tr (var "a") (nix "dependsOnTransitively") (var "c"))
        [tr (var "a") (nix "dependsOnTransitively") (var "b"), tr (var "b") (nix "dependsOn") (var "c")]] := rfl

/-- Dependencies of dependencies, from what is asserted on. -/
theorem dependsOnTransitively_iff : CoreDerives quads a (nix "dependsOnTransitively") b ↔
    ∃ m, (Asserts quads a (nix "dependsOnTransitively") m ∨ Needs quads a m) ∧ ReflTransGen (Needs quads) m b := by
  have hone : ∀ {a b}, CoreDerives quads a (nix "dependsOnTransitively") b ↔
      Asserts quads a (nix "dependsOnTransitively") b ∨ Needs quads a b ∨
      ∃ y, CoreDerives quads a (nix "dependsOnTransitively") y ∧ Needs quads y b := by
    intro a b
    simp only [← coreDerives_dependsOn]
    rw [CoreDerives, coreRules.derived_t_iff, coreRules_dependsOnTransitively]
    simp only [List.mem_cons, List.not_mem_nil, or_false, exists_eq_or_imp, exists_eq_left, tRule_asserts,
      copy_derives (show "a" ≠ "b" by decide),
      join_derives (show "a" ≠ "b" by decide) (show "a" ≠ "c" by decide) (show "b" ≠ "c" by decide)]
    exact Iff.rfl
  constructor
  · intro h
    refine coreRules.induction_pos (motive := fun a b => ∃ m,
      (Asserts quads a (nix "dependsOnTransitively") m ∨ Needs quads a m) ∧ ReflTransGen (Needs quads) m b) rfl ?_ h
    rw [coreRules_dependsOnTransitively]
    intro r hr a b hderives
    simp only [List.mem_cons, List.not_mem_nil, or_false] at hr
    rcases hr with rfl | rfl | rfl
    · exact ⟨b, .inl (tRule_asserts.mp (hderives.mono rfl fun _ hf => hf.1)), .refl⟩
    · obtain ⟨hdep, _⟩ := (copy_derives (by decide)).mp hderives
      exact ⟨b, .inr (coreDerives_dependsOn.mp hdep), .refl⟩
    · obtain ⟨y, ⟨_, hy⟩, hdep, _⟩ := (join_derives (by decide) (by decide) (by decide)).mp hderives
      obtain ⟨m, hm, hpath⟩ := hy _ _ rfl
      exact ⟨m, hm, hpath.tail (coreDerives_dependsOn.mp hdep)⟩
  · rintro ⟨m, hm, hpath⟩
    induction hpath with
    | refl => exact hone.mpr (hm.imp_right .inl)
    | tail _ hlast ih => exact hone.mpr (.inr (.inr ⟨_, ih, hlast⟩))

/-! ### After a build -/

theorem coreRules_refT : coreRules.rulesFor .refT =
    [clause (atom .refT [var "x", var "y"]) [tr (var "x") (nix "references") (var "y")],
      clause (atom .refT [var "x", var "z"])
        [atom .refT [var "x", var "y"], tr (var "y") (nix "references") (var "z")]] := rfl

theorem refT_derives {N : Datalog.Interp Pred Nix2Rdf.Term} {x z : Val} :
    (clause (atom .refT [var "x", var "y"]) [tr (var "x") (nix "references") (var "y")]).Derives N ⟨.refT, [x, z]⟩ ↔
      N ⟨.t, [x, .const (.iri (nix "references")), z]⟩ := by
  rw [clause_derives]
  constructor
  · rintro ⟨σ, hbody, hhead⟩
    have href := hbody _ List.mem_cons_self
    simp only [ground_atom, List.map_cons, List.map_nil, ground_var, Datalog.Fact.mk.injEq, List.cons.injEq, and_true,
      true_and] at hhead
    simpa [hhead] using href
  · intro h
    exact ⟨.of z [("x", x)], by simpa using h, by simp⟩

theorem refT_join_derives {N : Datalog.Interp Pred Nix2Rdf.Term} {x z : Val} :
    (clause (atom .refT [var "x", var "z"])
      [atom .refT [var "x", var "y"], tr (var "y") (nix "references") (var "z")]).Derives N ⟨.refT, [x, z]⟩ ↔
      ∃ y, N ⟨.refT, [x, y]⟩ ∧ N ⟨.t, [y, .const (.iri (nix "references")), z]⟩ := by
  rw [clause_derives]
  constructor
  · rintro ⟨σ, hbody, hhead⟩
    have hrest := hbody _ List.mem_cons_self
    have href := hbody _ (List.mem_cons_of_mem _ List.mem_cons_self)
    simp only [ground_atom, List.map_cons, List.map_nil, ground_var, Datalog.Fact.mk.injEq, List.cons.injEq, and_true,
      true_and] at hhead
    exact ⟨σ "y", by simpa [hhead] using hrest, by simpa using hhead.2 ▸ href⟩
  · rintro ⟨y, hrest, href⟩
    refine ⟨.of y [("x", x), ("z", z)], ?_, by simp⟩
    simpa using And.intro hrest href

/-- The reference closure between outputs. -/
theorem refT_iff {x z : Val} : coreRules.Derived quads ⟨.refT, [x, z]⟩ ↔
    TransGen (Asserts quads · (nix "references") ·) x z := by
  constructor
  · intro h
    refine coreRules.induction_for (p := .refT) (by simp) (motive := fun args => ∀ x z, args = [x, z] →
      TransGen (Asserts quads · (nix "references") ·) x z) ?_ h x z rfl
    rw [coreRules_refT]
    simp only [List.forall_mem_cons, List.not_mem_nil, false_implies, implies_true, and_true]
    constructor
    · intro σ hbody _ a ha _ x z hargs
      cases List.mem_singleton.mp ha
      have href := hbody _ List.mem_cons_self
      simp only [ground_atom, List.map_cons, List.map_nil, ground_var, List.cons.injEq, and_true] at hargs
      exact .single (hargs.1 ▸ hargs.2 ▸ coreDerives_references.mp href)
    · intro σ hbody hih a ha _ x z hargs
      cases List.mem_singleton.mp ha
      have href := hbody _ (List.mem_cons_of_mem _ List.mem_cons_self)
      simp only [ground_atom, List.map_cons, List.map_nil, ground_var, List.cons.injEq, and_true] at hargs
      have hpath := hih _ List.mem_cons_self rfl (σ "x") (σ "y") rfl
      exact hargs.1 ▸ hargs.2 ▸ hpath.tail (coreDerives_references.mp href)
  · intro h
    have hone : ∀ {x z}, coreRules.Derived quads ⟨.refT, [x, z]⟩ ↔ Asserts quads x (nix "references") z ∨
        ∃ y, coreRules.Derived quads ⟨.refT, [x, y]⟩ ∧ Asserts quads y (nix "references") z := by
      intro x z
      simp only [← coreDerives_references]
      rw [coreRules.derived_iff (by simp), coreRules_refT]
      simp only [List.mem_cons, List.not_mem_nil, or_false, exists_eq_or_imp, exists_eq_left, refT_derives,
        refT_join_derives]
      exact Iff.rfl
    induction h with
    | single href => exact hone.mpr (.inl href)
    | tail _ href ih => exact hone.mpr (.inr ⟨_, ih, href⟩)

theorem coreRules_runtimeDependsOn : coreRules.rulesOfT (nix "runtimeDependsOn") =
    [tRule,
      clause (tr (var "a") (nix "runtimeDependsOn") (var "b"))
        [tr (var "a") (nix "hasOutput") (var "oa"), atom .refT [var "oa", var "ob"],
          tr (var "b") (nix "hasOutput") (var "ob"), ne (var "a") (var "b")]] := rfl

/-- Another derivation is needed at run time when an output of this one references an output of it, however far. -/
theorem runtimeDependsOn_iff : CoreDerives quads a (nix "runtimeDependsOn") b ↔
    Asserts quads a (nix "runtimeDependsOn") b ∨
      a ≠ b ∧ ∃ oa ob, Asserts quads a (nix "hasOutput") oa ∧ Asserts quads b (nix "hasOutput") ob ∧
        TransGen (Asserts quads · (nix "references") ·) oa ob := by
  rw [CoreDerives, coreRules.derived_t_iff, coreRules_runtimeDependsOn]
  simp only [List.mem_cons, List.not_mem_nil, or_false, exists_eq_or_imp, exists_eq_left, tRule_asserts]
  refine or_congr_right ?_
  rw [clause_derives]
  simp only [List.forall_mem_cons, List.not_mem_nil, false_implies, implies_true, and_true, Datalog.Literal.holds_pos,
    ground_tr, ground_atom, List.map_cons, List.map_nil, ground_var, refT_iff, Datalog.Fact.mk.injEq, List.cons.injEq,
    true_and]
  constructor
  · rintro ⟨σ, ⟨ha, href, hb, hne⟩, rfl, rfl⟩
    obtain ⟨v, w, hvw, hne⟩ := hne
    cases hvw
    exact ⟨hne, σ "oa", σ "ob", coreDerives_hasOutput.mp ha, coreDerives_hasOutput.mp hb, href⟩
  · rintro ⟨hne, oa, ob, ha, hb, href⟩
    refine ⟨.of ob [("a", a), ("b", b), ("oa", oa)], ⟨?_, ?_, ?_, ?_⟩, ?_, ?_⟩
    · simpa [CoreDerives] using coreDerives_hasOutput.mpr ha
    · simpa using href
    · simpa [CoreDerives] using coreDerives_hasOutput.mpr hb
    · exact ⟨a, b, by simp, hne⟩
    · simp
    · simp

/-- What the core pack derives about closures, in snapshots, commits and images. -/
theorem closures_exact (quads : Quad → Prop) : ∀ s x,
    (CoreDerives quads s (nix "runtimeClosureContains") x ↔ Ships quads s x) ∧
      (CoreDerives quads s (nix "closureContains") x ↔ Contains quads s x) :=
  fun _ _ => ⟨ships_iff, contains_iff⟩

/-- What it derives about dependencies between derivations. -/
theorem dependencies_exact (quads : Quad → Prop) : ∀ a b,
    (CoreDerives quads a (nix "dependsOnTransitively") b ↔ ∃ m,
      (Asserts quads a (nix "dependsOnTransitively") m ∨ Needs quads a m) ∧ ReflTransGen (Needs quads) m b) ∧
    (CoreDerives quads a (nix "runtimeDependsOn") b ↔ Asserts quads a (nix "runtimeDependsOn") b ∨
      a ≠ b ∧ ∃ oa ob, Asserts quads a (nix "hasOutput") oa ∧ Asserts quads b (nix "hasOutput") ob ∧
        TransGen (Asserts quads · (nix "references") ·) oa ob) :=
  fun _ _ => ⟨dependsOnTransitively_iff, runtimeDependsOn_iff⟩

end Meaning

end Nix2Rdf.Packs
