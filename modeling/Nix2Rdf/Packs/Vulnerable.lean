import Nix2Rdf.Packs.Running

/-!
# Vulnerable derivations

The identifiers pack guesses PURLs and CPEs from what a derivation says of itself, and a feed names what it affects by
them. A CPE comes from the table; only for a name that is not in the table the home page is asked.
-/

namespace Nix2Rdf.Packs.Deployed

def plain (s : String) : Val := .const (.literal s (xsd "string"))

section Meaning

variable (b : Builtins) (quads : Quad → Prop)

/-- The values are put together to the text. -/
def Spells (parts : List Val) (u : Val) : Prop := (b.concat parts).map .const = some u

def HasVersion (d n v : Val) : Prop := Asserts quads d (nix "pname") n ∧ Asserts quads d (nix "version") v

/-- An attribute of a package set with packages from elsewhere evaluates to the derivation. -/
def FromEcosystem (d : Val) (type : String) : Prop :=
  ∃ a path, ∃ e ∈ ecosystems, e.2 = type ∧ Asserts quads a (nix "attrPath") path ∧
    Asserts quads a (nix "evaluatesTo") d ∧ b.strStarts path (plain e.1) = true

def HasPurl (d u : Val) : Prop :=
  Asserts quads d (ids "purl") u ∨ ∃ n v, HasVersion quads d n v ∧
    (Spells b [plain "pkg:nix/", n, plain "@", v] u ∨
      ∃ type, FromEcosystem b quads d type ∧ Spells b [plain "pkg:", plain type, plain "/", n, plain "@", v] u)

/-- The vendor and the product under which a name is listed. -/
def Listed (n : Val) (vendor product : String) : Prop := ∃ e ∈ cpes, n = plain e.1 ∧ e.2 = (vendor, product)

def HasCpe (d c : Val) : Prop :=
  Asserts quads d (ids "cpe") c ∨ ∃ n v, HasVersion quads d n v ∧
    ((∃ vendor product, Listed n vendor product ∧
      Spells b [plain "cpe:2.3:a:", plain vendor, plain ":", plain product,
        plain ":", v, plain ":*:*:*:*:*:*:*"] c) ∨
      (∀ vendor product, ¬ Listed n vendor product) ∧
        (∃ h, Asserts quads d (nix "homepage") h ∧ b.contains h (plain "gnu.org") = true) ∧
        Spells b [plain "cpe:2.3:a:gnu:", n, plain ":", v, plain ":*:*:*:*:*:*:*"] c)

/-- A feed says that a PURL or a CPE of the derivation is affected. -/
def Vulnerable (d v : Val) : Prop :=
  Asserts quads d (ids "vulnerableTo") v ∨ (∃ u, HasPurl b quads d u ∧ Asserts quads v (ids "affectsPurl") u) ∨
    ∃ c, HasCpe b quads d c ∧ Asserts quads v (ids "affectsCpe") c

def Ranked (v r : Val) : Prop :=
  Asserts quads v (ids "severityRank") r ∨ ∃ e ∈ ranks, Asserts quads v (ids "severity") (plain e.1) ∧
    r = .const (numeral e.2)

end Meaning

section Rules

variable {b : Builtins} {quads : Quad → Prop}

/-! ## Tables -/

theorem table_iff {α : Type} {p : Pred} (table : List α) (args : α → List Nix2Rdf.Term)
    (h : (k8sWithDeps b).rulesFor p = table.map fun e => fact (atom p ((args e).map .const)))
    (hp : p ≠ .raw) {xs : List Val} :
    (k8sWithDeps b).Derived quads ⟨p, xs⟩ ↔ ∃ e ∈ table, xs = (args e).map .const := by
  have hground : ∀ σ : Datalog.Valuation Nix2Rdf.Term, ∀ cs : List Nix2Rdf.Term,
      (cs.map Datalog.Term.const).map (Datalog.Term.ground σ) = cs.map .const := by
    intro σ cs
    rw [List.map_map]
    rfl
  rw [(k8sWithDeps b).derived_iff hp, h]
  simp only [List.mem_map, exists_exists_and_eq_and]
  constructor
  · rintro ⟨e, he, hderives⟩
    obtain ⟨σ, _, hhead⟩ := clause_derives.mp hderives
    rw [ground_atom, hground, Datalog.Fact.mk.injEq] at hhead
    exact ⟨e, he, hhead.2.symm⟩
  · rintro ⟨e, he, rfl⟩
    refine ⟨e, he, clause_derives.mpr ⟨.of (.const (.iri "")) [], by simp, ?_⟩⟩
    rw [ground_atom, hground]

theorem ecosystem_iff {x y : Val} : (k8sWithDeps b).Derived quads ⟨.ecosystem, [x, y]⟩ ↔
    ∃ e ∈ ecosystems, x = plain e.1 ∧ y = plain e.2 := by
  rw [table_iff ecosystems (fun e => [.literal e.1 (xsd "string"), .literal e.2 (xsd "string")]) rfl (by simp)]
  simp [plain]

theorem cpe_iff {x y z : Val} : (k8sWithDeps b).Derived quads ⟨.cpe, [x, y, z]⟩ ↔
    ∃ vendor product, Listed x vendor product ∧ y = plain vendor ∧ z = plain product := by
  rw [table_iff cpes (fun e => [.literal e.1 (xsd "string"), .literal e.2.1 (xsd "string"),
    .literal e.2.2 (xsd "string")]) rfl (by simp)]
  simp only [Listed, List.map_cons, List.map_nil, List.cons.injEq, and_true]
  constructor
  · rintro ⟨e, he, hx, hy, hz⟩
    exact ⟨e.2.1, e.2.2, ⟨e, he, hx, rfl⟩, hy, hz⟩
  · rintro ⟨vendor, product, ⟨e, he, hx, hlisted⟩, hy, hz⟩
    exact ⟨e, he, hx, by rw [hlisted]; exact hy, by rw [hlisted]; exact hz⟩

theorem rank_iff {x y : Val} : (k8sWithDeps b).Derived quads ⟨.rank, [x, y]⟩ ↔
    ∃ e ∈ ranks, x = plain e.1 ∧ y = .const (numeral e.2) := by
  rw [table_iff ranks (fun e => [.literal e.1 (xsd "string"), numeral e.2]) rfl (by simp)]
  simp [plain]

theorem inTable_iff {n : Val} : (k8sWithDeps b).Derived quads ⟨.inTable, [n]⟩ ↔
    ∃ vendor product, Listed n vendor product := by
  rw [(k8sWithDeps b).derived_iff_one (p := .inTable) rfl (by simp)]
  simp only [List.forall_mem_cons, Datalog.Literal.holds_pos, ground_atom, List.map_cons, List.map_nil,
    ground_var, cpe_iff, Datalog.Fact.mk.injEq, List.cons.injEq, and_true, true_and]
  constructor
  · rintro ⟨σ, ⟨⟨vendor, product, hlisted, _⟩, _⟩, rfl⟩
    exact ⟨vendor, product, hlisted⟩
  · rintro ⟨vendor, product, hlisted⟩
    exact ⟨.of n [("v", plain vendor), ("p", plain product)],
      ⟨⟨vendor, product, by simpa using hlisted, by simp, by simp⟩,
      by simp⟩, by simp⟩

/-! ## What a derivation says of itself -/

variable (hsub : NoSubProperty quads)

include hsub

theorem pv_iff {d n v : Val} : (k8sWithDeps b).Derived quads ⟨.pv, [d, n, v]⟩ ↔ HasVersion quads d n v := by
  have hname : ∀ x y, (k8sWithDeps b).Derived quads ⟨.t, [x, .const (.iri (nix "pname")), y]⟩ ↔
      Asserts quads x (nix "pname") y :=
    fun x y => stated_iff hsub (by simp [statedProps])
  have hversion : ∀ x y, (k8sWithDeps b).Derived quads ⟨.t, [x, .const (.iri (nix "version")), y]⟩ ↔
      Asserts quads x (nix "version") y := fun x y => stated_iff hsub (by simp [statedProps])
  rw [(k8sWithDeps b).derived_iff_one (p := .pv) rfl (by simp)]
  simp only [List.forall_mem_cons, Datalog.Literal.holds_pos, ground_atom, ground_tr, List.map_cons,
    List.map_nil, ground_var, hname, hversion, Datalog.Fact.mk.injEq, List.cons.injEq, and_true, true_and]
  constructor
  · rintro ⟨σ, ⟨hn, hv, _⟩, rfl, rfl, rfl⟩
    exact ⟨hn, hv⟩
  · rintro ⟨hn, hv⟩
    exact ⟨.of v [("d", d), ("n", n)], ⟨by simpa using hn, by simpa using hv, by simp⟩, by simp⟩

theorem attrOf_iff {d path : Val} : (k8sWithDeps b).Derived quads ⟨.attrOf, [d, path]⟩ ↔
    ∃ a, Asserts quads a (nix "attrPath") path ∧ Asserts quads a (nix "evaluatesTo") d := by
  have hpath : ∀ x y, (k8sWithDeps b).Derived quads ⟨.t, [x, .const (.iri (nix "attrPath")), y]⟩ ↔
      Asserts quads x (nix "attrPath") y := fun x y => stated_iff hsub (by simp [statedProps])
  have hevaluates : ∀ x y, (k8sWithDeps b).Derived quads ⟨.t, [x, .const (.iri (nix "evaluatesTo")), y]⟩ ↔
      Asserts quads x (nix "evaluatesTo") y := fun x y => stated_iff hsub (by simp [statedProps])
  rw [(k8sWithDeps b).derived_iff_one (p := .attrOf) rfl (by simp)]
  simp only [List.forall_mem_cons, Datalog.Literal.holds_pos, ground_atom, ground_tr, List.map_cons,
    List.map_nil, ground_var, hpath, hevaluates, Datalog.Fact.mk.injEq, List.cons.injEq, and_true, true_and]
  constructor
  · rintro ⟨σ, ⟨hp, he, _⟩, rfl, rfl⟩
    exact ⟨σ "a", hp, he⟩
  · rintro ⟨a, hp, he⟩
    exact ⟨.of a [("d", d), ("path", path)], ⟨by simpa using hp, by simpa using he, by simp⟩, by simp⟩

theorem ecoOf_iff {d t : Val} : (k8sWithDeps b).Derived quads ⟨.ecoOf, [d, t]⟩ ↔
    ∃ type, t = plain type ∧ FromEcosystem b quads d type := by
  rw [(k8sWithDeps b).derived_iff_one (p := .ecoOf) rfl (by simp)]
  simp only [holds, List.forall_mem_cons, Datalog.Literal.holds_pos, Datalog.Literal.holds_test, ground_atom,
    List.map_cons, List.map_nil, ground_var, attrOf_iff hsub, ecosystem_iff, Datalog.Fact.mk.injEq,
    List.cons.injEq, and_true, true_and]
  constructor
  · rintro ⟨σ, ⟨⟨a, hp, he⟩, ⟨e, hmem, hprefix, htype⟩, ⟨x, y, ⟨rfl, rfl⟩, hstarts⟩, _⟩, rfl, rfl⟩
    exact ⟨e.2, htype, a, σ "path", e, hmem, rfl, hp, he, hprefix ▸ hstarts⟩
  · rintro ⟨type, rfl, a, path, e, hmem, rfl, hp, he, hstarts⟩
    refine ⟨.of path [("d", d), ("type", plain e.2), ("prefix", plain e.1)],
      ⟨⟨a, ?_, ?_⟩, ⟨e, hmem, ?_⟩, ⟨_, _, ⟨rfl, rfl⟩, ?_⟩, ?_⟩, ?_⟩
    · simpa using hp
    · simpa using he
    · simp
    · simpa using hstarts
    · simp
    · simp

theorem gnuHome_iff {d : Val} : (k8sWithDeps b).Derived quads ⟨.gnuHome, [d]⟩ ↔
    ∃ h, Asserts quads d (nix "homepage") h ∧ b.contains h (plain "gnu.org") = true := by
  have hhome : ∀ x y, (k8sWithDeps b).Derived quads ⟨.t, [x, .const (.iri (nix "homepage")), y]⟩ ↔
      Asserts quads x (nix "homepage") y := fun x y => stated_iff hsub (by simp [statedProps])
  rw [(k8sWithDeps b).derived_iff_one (p := .gnuHome) rfl (by simp)]
  simp only [holds, List.forall_mem_cons, Datalog.Literal.holds_pos, Datalog.Literal.holds_test,
    ground_atom, ground_tr, List.map_cons, List.map_nil, ground_var, ground_str, hhome, Datalog.Fact.mk.injEq,
    List.cons.injEq, and_true, true_and]
  constructor
  · rintro ⟨σ, ⟨hh, ⟨x, y, ⟨rfl, rfl⟩, hcontains⟩, _⟩, rfl⟩
    exact ⟨_, hh, hcontains⟩
  · rintro ⟨h, hh, hcontains⟩
    exact ⟨.of h [("d", d)],
      ⟨by simpa using hh, ⟨_, _, ⟨rfl, rfl⟩, by simpa [plain] using hcontains⟩, by simp⟩, by simp⟩

/-! ## PURLs, CPEs and vulnerabilities -/

omit hsub in
/-- What is put together is one of the values that a rule binds. -/
theorem concat_holds {N : Datalog.Interp Pred Nix2Rdf.Term} {σ : Datalog.Valuation Nix2Rdf.Term} {u : String}
    {parts : List DTerm} :
    (concat b (var u) parts).Holds N σ ↔ Spells b (parts.map (Datalog.Term.ground σ)) (σ u) := by
  simp only [concat, Datalog.Literal.holds_test, List.map_cons, ground_var, List.cons.injEq, Spells]
  constructor
  · rintro ⟨r, rest, ⟨rfl, rfl⟩, h⟩
    exact h
  · exact fun h => ⟨_, _, ⟨rfl, rfl⟩, h⟩

theorem purl_iff {d u : Val} : (k8sWithDeps b).Derived quads ⟨.t, [d, .const (.iri (ids "purl")), u]⟩ ↔
    HasPurl b quads d u := by
  have hrules : (k8sWithDeps b).rulesOfT (ids "purl") =
    [tRule,
      clause (tr (var "d") (ids "purl") (var "u"))
        [atom .pv [var "d", var "n", var "v"], concat b (var "u") [str "pkg:nix/", var "n", str "@", var "v"]],
      clause (tr (var "d") (ids "purl") (var "u"))
        [atom .ecoOf [var "d", var "type"], atom .pv [var "d", var "n", var "v"],
          concat b (var "u") [str "pkg:", var "type", str "/", var "n", str "@", var "v"]],
      rdfs7Rule] := rfl
  rw [(k8sWithDeps b).derived_t_iff, hrules]
  simp only [List.mem_cons, List.not_mem_nil, or_false, exists_eq_or_imp, exists_eq_left, tRule_asserts,
    rdfs7_idle hsub]
  simp only [clause_derives, List.forall_mem_cons, Datalog.Literal.holds_pos, concat_holds, ground_atom,
    ground_tr, List.map_cons, List.map_nil, ground_var, ground_str, pv_iff hsub, ecoOf_iff hsub,
    Datalog.Fact.mk.injEq, List.cons.injEq, and_true, true_and]
  refine or_congr_right ?_
  constructor
  · rintro (⟨σ, ⟨hpv, hspells, _⟩, rfl, rfl⟩ | ⟨σ, ⟨⟨type, htype, hfrom⟩, hpv, hspells, _⟩, rfl, rfl⟩)
    · exact ⟨σ "n", σ "v", hpv, .inl hspells⟩
    · exact ⟨σ "n", σ "v", hpv, .inr ⟨type, hfrom, htype ▸ hspells⟩⟩
  · rintro ⟨n, v, hpv, hspells | ⟨type, hfrom, hspells⟩⟩
    · exact .inl ⟨.of u [("d", d), ("n", n), ("v", v)],
        ⟨by simpa using hpv, by simpa [plain] using hspells, by simp⟩, by simp⟩
    · refine .inr ⟨.of u [("d", d), ("n", n), ("v", v), ("type", plain type)],
        ⟨⟨type, by simp, by simpa using hfrom⟩, ?_, ?_, by simp⟩,
        by simp⟩
      · simpa using hpv
      · simpa [plain] using hspells

theorem cpeOf_iff {d c : Val} : (k8sWithDeps b).Derived quads ⟨.t, [d, .const (.iri (ids "cpe")), c]⟩ ↔
    HasCpe b quads d c := by
  have hrules : (k8sWithDeps b).rulesOfT (ids "cpe") =
    [tRule,
      clause (tr (var "d") (ids "cpe") (var "c"))
        [atom .pv [var "d", var "n", var "v"], atom .cpe [var "n", var "vendor", var "product"],
          concat b (var "c") [str "cpe:2.3:a:", var "vendor", str ":", var "product", str ":", var "v",
            str ":*:*:*:*:*:*:*"]],
      clause (tr (var "d") (ids "cpe") (var "c"))
        [atom .pv [var "d", var "n", var "v"], .neg (atom .inTable [var "n"]), atom .gnuHome [var "d"],
          concat b (var "c") [str "cpe:2.3:a:gnu:", var "n", str ":", var "v", str ":*:*:*:*:*:*:*"]],
      rdfs7Rule] := rfl
  rw [(k8sWithDeps b).derived_t_iff, hrules]
  simp only [List.mem_cons, List.not_mem_nil, or_false, exists_eq_or_imp, exists_eq_left, tRule_asserts,
    rdfs7_idle hsub]
  simp only [clause_derives, List.forall_mem_cons, Datalog.Literal.holds_pos, Datalog.Literal.holds_neg,
    concat_holds, ground_atom, ground_tr, List.map_cons, List.map_nil, ground_var, ground_str, pv_iff hsub,
    cpe_iff, inTable_iff, gnuHome_iff hsub, Datalog.Fact.mk.injEq, List.cons.injEq, and_true, true_and]
  refine or_congr_right ?_
  constructor
  · rintro (⟨σ, ⟨hpv, ⟨vendor, product, hlisted, hvendor, hproduct⟩, hspells, _⟩, rfl, rfl⟩ |
      ⟨σ, ⟨hpv, hunlisted, hhome, hspells, _⟩, rfl, rfl⟩)
    · exact ⟨σ "n", σ "v", hpv, .inl ⟨vendor, product, hlisted, hvendor ▸ hproduct ▸ hspells⟩⟩
    · exact ⟨σ "n", σ "v", hpv, .inr ⟨fun vendor product h => hunlisted ⟨vendor, product, h⟩, hhome, hspells⟩⟩
  · rintro ⟨n, v, hpv, ⟨vendor, product, hlisted, hspells⟩ | ⟨hunlisted, hhome, hspells⟩⟩
    · refine .inl ⟨.of c [("d", d), ("n", n), ("v", v), ("vendor", plain vendor), ("product", plain product)],
        ⟨?_, ⟨vendor, product, ?_, by simp, by simp⟩, ?_, by simp⟩, by simp⟩
      · simpa using hpv
      · simpa using hlisted
      · simpa [plain] using hspells
    · refine .inr ⟨.of c [("d", d), ("n", n), ("v", v)], ⟨?_, ?_, ?_, ?_, by simp⟩, by simp⟩
      · simpa using hpv
      · simpa using hunlisted
      · simpa using hhome
      · simpa [plain] using hspells

theorem vulnerableTo_iff {d v : Val} :
    (k8sWithDeps b).Derived quads ⟨.t, [d, .const (.iri (ids "vulnerableTo")), v]⟩ ↔ Vulnerable b quads d v := by
  have hpurl : ∀ x y, (k8sWithDeps b).Derived quads ⟨.t, [x, .const (.iri (ids "affectsPurl")), y]⟩ ↔
      Asserts quads x (ids "affectsPurl") y := fun x y => stated_iff hsub (by simp [statedProps])
  have hcpe : ∀ x y, (k8sWithDeps b).Derived quads ⟨.t, [x, .const (.iri (ids "affectsCpe")), y]⟩ ↔
      Asserts quads x (ids "affectsCpe") y := fun x y => stated_iff hsub (by simp [statedProps])
  have hrules : (k8sWithDeps b).rulesOfT (ids "vulnerableTo") =
    [tRule,
      clause (tr (var "d") (ids "vulnerableTo") (var "vuln"))
        [tr (var "d") (ids "purl") (var "u"), tr (var "vuln") (ids "affectsPurl") (var "u")],
      clause (tr (var "d") (ids "vulnerableTo") (var "vuln"))
        [tr (var "d") (ids "cpe") (var "c"), tr (var "vuln") (ids "affectsCpe") (var "c")],
      rdfs7Rule] := rfl
  rw [(k8sWithDeps b).derived_t_iff, hrules]
  simp only [List.mem_cons, List.not_mem_nil, or_false, exists_eq_or_imp, exists_eq_left, tRule_asserts,
    rdfs7_idle hsub, meet_derives (show "d" ≠ "u" by decide) (show "d" ≠ "vuln" by decide)
    (show "u" ≠ "vuln" by decide),
    meet_derives (show "d" ≠ "c" by decide) (show "d" ≠ "vuln" by decide) (show "c" ≠ "vuln" by decide),
    purl_iff hsub, cpeOf_iff hsub, hpurl, hcpe]
  exact Iff.rfl

theorem severityRank_iff {v r : Val} :
    (k8sWithDeps b).Derived quads ⟨.t, [v, .const (.iri (ids "severityRank")), r]⟩ ↔ Ranked quads v r := by
  have hseverity : ∀ x y, (k8sWithDeps b).Derived quads ⟨.t, [x, .const (.iri (ids "severity")), y]⟩ ↔
      Asserts quads x (ids "severity") y := fun x y => stated_iff hsub (by simp [statedProps])
  have hrules : (k8sWithDeps b).rulesOfT (ids "severityRank") =
    [tRule,
      clause (tr (var "vuln") (ids "severityRank") (var "r"))
        [tr (var "vuln") (ids "severity") (var "s"), atom .rank [var "s", var "r"]],
      rdfs7Rule] := rfl
  rw [(k8sWithDeps b).derived_t_iff, hrules]
  simp only [List.mem_cons, List.not_mem_nil, or_false, exists_eq_or_imp, exists_eq_left, tRule_asserts,
    rdfs7_idle hsub]
  simp only [clause_derives, List.forall_mem_cons, Datalog.Literal.holds_pos, ground_atom, ground_tr,
    List.map_cons, List.map_nil, ground_var, hseverity, rank_iff, Datalog.Fact.mk.injEq, List.cons.injEq,
    and_true, true_and]
  refine or_congr_right ?_
  constructor
  · rintro ⟨σ, ⟨hs, ⟨e, he, hname, hrank⟩, _⟩, rfl, rfl⟩
    exact ⟨e, he, hname ▸ hs, hrank⟩
  · rintro ⟨e, he, hs, rfl⟩
    exact ⟨.of (plain e.1) [("vuln", v), ("r", .const (numeral e.2))],
      ⟨by simpa using hs, ⟨e, he, by simp, by simp⟩, by simp⟩, by simp⟩

end Rules

end Nix2Rdf.Packs.Deployed
