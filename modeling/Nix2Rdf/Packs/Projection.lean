import Nix2Rdf.Packs.Program
import Nix2Rdf.Lib.Datalog.Chase

/-!
# The projection packs

Ground truth seen as PROV-O and as SPDX 3.0.1. Their existential rules write into the working set
that all rules read, and match only where no null can come.
-/

namespace Nix2Rdf.Packs

def prov (t : String) : Iri := "http://www.w3.org/ns/prov#" ++ t
def spdx (t : String) : Iri := "https://spdx.org/rdf/3.0.1/terms/Core/" ++ t
def software (t : String) : Iri := "https://spdx.org/rdf/3.0.1/terms/Software/" ++ t
def licensing (t : String) : Iri := "https://spdx.org/rdf/3.0.1/terms/SimpleLicensing/" ++ t

/-! ## PROV-O -/

/-- `t(?s, rdf:type, c) :- t(?s, rdf:type, d)`. -/
def retype (c d : Iri) : DRule := clause (tr (var "s") rdfType (iri c)) [tr (var "s") rdfType (iri d)]

/-- `t(?s, p, ?o) :- t(?s, q, ?o)`. -/
def rename (p q : Iri) : DRule := clause (tr (var "s") p (var "o")) [tr (var "s") q (var "o")]

/-- `t(?o, p, ?s) :- t(?s, q, ?o)`. -/
def invert (p q : Iri) : DRule := clause (tr (var "o") p (var "s")) [tr (var "s") q (var "o")]

/-- The builder as an agent, one for each derivation. -/
def agentRule : DRule where
  head := [tr (var "a") rdfType (iri (prov "SoftwareAgent")), tr (var "a") (rdfs "label") (var "b"),
    tr (var "d") (prov "wasAssociatedWith") (var "a")]
  body := [tr (var "d") (nix "builder") (var "b")]
  name := "agent"
  nulls := ["a"]

/-- Builds and what they use. -/
def provBuilds : List DRule :=
  [retype (prov "Activity") (nix "Derivation"), retype (prov "Entity") (nix "Output"),
    retype (prov "Entity") (nix "Source"), invert (prov "wasGeneratedBy") (nix "hasOutput"),
    rename (prov "used") (nix "inputSrc"),
    clause (tr (var "d") (prov "used") (var "o"))
      [tr (var "d") (nix "inputDrv") (var "b"), tr (var "b") (nix "hasOutput") (var "o")],
    clause (tr (var "o") (prov "wasDerivedFrom") (var "i"))
      [tr (var "d") (nix "hasOutput") (var "o"), tr (var "d") (prov "used") (var "i")],
    agentRule]

/-- Commits and rule runs on the time axis. -/
def provRuns : List DRule :=
  [retype (prov "Entity") (nix "Commit"), rename (prov "generatedAtTime") (nix "committedAt"),
    retype (prov "Activity") (nix "RuleRun"), rename (prov "used") (nix "inputGraph"),
    rename (prov "endedAtTime") (nix "ranAt"), rename (prov "wasAssociatedWith") (nix "usesPack"),
    retype (prov "SoftwareAgent") (nix "OntologyPack")]

def provPack : List DRule := provBuilds ++ provRuns

/-! ## SPDX 3.0.1 -/

/-- Derivations as packages. -/
def spdxPackages : List DRule :=
  [retype (software "Package") (nix "Derivation"), rename (spdx "name") (nix "pname"),
    clause (tr (var "d") (spdx "name") (var "n"))
      [tr (var "d") (nix "name") (var "n"), tr (var "d") rdfType (iri (nix "Derivation"))],
    clause (tr (var "d") (software "packageVersion") (var "v"))
      [tr (var "d") (nix "version") (var "v"), tr (var "d") rdfType (iri (nix "Derivation"))],
    rename (software "homePage") (nix "homepage"), rename (spdx "description") (nix "description")]

/-- NAR hashes as hash nodes. -/
def hashRule : DRule where
  head := [tr (var "h") rdfType (iri (spdx "Hash")),
    tr (var "h") (spdx "algorithm") (iri (spdx "HashAlgorithm/sha256")),
    tr (var "h") (spdx "hashValue") (var "nar"), tr (var "x") (spdx "verifiedUsing") (var "h")]
  body := [tr (var "x") (nix "narHash") (var "nar"), tr (var "x") rdfType (iri (spdx "Artifact"))]
  name := "hash"
  nulls := ["h"]

/-- Outputs and sources as artifacts. -/
def spdxArtifacts : List DRule :=
  [retype (spdx "Artifact") (nix "Output"),
    clause (tr (var "o") (spdx "name") (var "p"))
      [tr (var "o") rdfType (iri (nix "Output")), tr (var "o") (nix "storePath") (var "p")],
    retype (spdx "Artifact") (nix "Source"),
    clause (tr (var "s") (software "primaryPurpose") (iri (software "SoftwarePurpose/source")))
      [tr (var "s") rdfType (iri (nix "Source"))],
    hashRule]

/-- A relationship node for every edge. -/
def relationship (kind : String) (p : Iri) : DRule where
  head := [tr (var "r") rdfType (iri (spdx "Relationship")), tr (var "r") (spdx "from") (var "a"),
    tr (var "r") (spdx "to") (var "b"),
    tr (var "r") (spdx "relationshipType") (iri (spdx ("RelationshipType/" ++ kind)))]
  body := [tr (var "a") p (var "b")]
  name := kind
  nulls := ["r"]

def spdxRelationships : List DRule :=
  [relationship "dependsOn" (nix "dependsOn"), relationship "generates" (nix "hasOutput"),
    relationship "hasInput" (nix "inputSrc")]

def licenseRefs : List (String × String) :=
  [("unfree", "LicenseRef-nixpkgs-unfree"),
    ("unfreeRedistributable", "LicenseRef-nixpkgs-unfreeRedistributable"),
    ("unfreeRedistributableFirmware", "LicenseRef-nixpkgs-unfreeRedistributableFirmware"),
    ("free", "LicenseRef-nixpkgs-free"), ("issl", "LicenseRef-nixpkgs-issl"),
    ("elastic", "LicenseRef-nixpkgs-elastic")]

def licenseRule : DRule where
  head := [tr (var "l") rdfType (iri (licensing "LicenseExpression")),
    tr (var "l") (licensing "licenseExpression") (var "e"),
    tr (var "d") (software "hasDeclaredLicense") (var "l")]
  body := [atom .licenseExpr [var "d", var "e"]]
  name := "license"
  nulls := ["l"]

/-- The SPDX id of a license, or the name of one that nixpkgs has no id for. -/
def spdxLicenses : List DRule :=
  [clause (atom .hasRef [var "id"]) [atom .licenseRef [var "id", var "ref"]],
    clause (atom .licenseExpr [var "d", var "ref"])
      [tr (var "d") (nix "license") (var "id"), atom .licenseRef [var "id", var "ref"]],
    clause (atom .licenseExpr [var "d", var "id"])
      [tr (var "d") (nix "license") (var "id"), .neg (atom .hasRef [var "id"])],
    licenseRule]

def spdxPack : List DRule :=
  spdxPackages ++ spdxArtifacts ++ spdxRelationships ++ spdxLicenses
  ++ licenseRefs.map fun e => fact (atom .licenseRef [str e.1, str e.2])

def provRules : Ruleset := ⟨provPack, rfl, rfl⟩

def spdxRules : Ruleset := ⟨spdxPack, rfl, rfl⟩

/-! ## Programs of projection packs -/

inductive ProjectionPack where
  | core | identifiers | prov | spdx3
  deriving DecidableEq, Repr

variable (b : Builtins)

def ProjectionPack.rules : ProjectionPack → List DRule
  | .core => Packs.core
  | .identifiers => Packs.identifiers b
  | .prov => provPack
  | .spdx3 => spdxPack

/-- The program of some of the packs. -/
def projection (ps : Finset ProjectionPack) : List DRule :=
  program (([.core, .identifiers, .prov, .spdx3].filter (· ∈ ps)).flatMap (ProjectionPack.rules b))

/-- A rule that computes an identifier. -/
structure Concat where
  prop : Iri
  x : String
  body : List DLiteral
  parts : List DTerm

def Concat.rule (c : Concat) : DRule :=
  clause (tr (var "d") c.prop (var c.x)) (c.body ++ [concat b (var c.x) c.parts])

/-- What the identifiers pack computes. -/
def concats : List Concat :=
  [⟨ids "purl", "u", [atom .pv [var "d", var "n", var "v"]], [str "pkg:nix/", var "n", str "@", var "v"]⟩,
    ⟨ids "purl", "u", [atom .ecoOf [var "d", var "type"], atom .pv [var "d", var "n", var "v"]],
      [str "pkg:", var "type", str "/", var "n", str "@", var "v"]⟩,
    ⟨ids "cpe", "c", [atom .pv [var "d", var "n", var "v"], atom .cpe [var "n", var "vendor", var "product"]],
      [str "cpe:2.3:a:", var "vendor", str ":", var "product", str ":", var "v", str ":*:*:*:*:*:*:*"]⟩,
    ⟨ids "cpe", "c",
      [atom .pv [var "d", var "n", var "v"], .neg (atom .inTable [var "n"]), atom .gnuHome [var "d"]],
      [str "cpe:2.3:a:gnu:", var "n", str ":", var "v", str ":*:*:*:*:*:*:*"]⟩]

/-- The rows of the tables. -/
def tableRules : List DRule :=
  (ecosystems.map fun e => fact (atom .ecosystem [str e.1, str e.2]))
  ++ (cpes.map fun e => fact (atom .cpe [str e.1, str e.2.1, str e.2.2]))
  ++ (ranks.map fun e => fact (atom .rank [str e.1, int e.2]))
  ++ licenseRefs.map fun e => fact (atom .licenseRef [str e.1, str e.2])

def properRules : List DRule :=
  program (core ++ purlRules b ++ cpeRules b ++ vulnerabilityRules ++ provPack
    ++ spdxPackages ++ spdxArtifacts ++ spdxRelationships ++ spdxLicenses)

theorem mem_projection {ps : Finset ProjectionPack} {r : DRule} (h : r ∈ projection b ps) :
    r ∈ properRules b ∨ r ∈ tableRules := by
  simp only [projection, program, List.mem_append] at h
  rcases h with (h | h) | h
  · exact .inl (List.mem_append_left _ (List.mem_append_left _ h))
  · obtain ⟨p, _, hr⟩ := List.mem_flatMap.mp h
    cases p with
    | core =>
        refine .inl (List.mem_append_left _ (List.mem_append_right _ ?_))
        simp only [ProjectionPack.rules] at hr
        simp only [List.mem_append, hr, true_or]
    | identifiers =>
        simp only [ProjectionPack.rules, identifiers, List.mem_append] at hr
        simp only [properRules, program, tableRules, List.mem_append]
        tauto
    | prov =>
        refine .inl (List.mem_append_left _ (List.mem_append_right _ ?_))
        simp only [ProjectionPack.rules] at hr
        simp only [List.mem_append, hr, true_or, or_true]
    | spdx3 =>
        simp only [ProjectionPack.rules, spdxPack, List.mem_append] at hr
        simp only [properRules, program, tableRules, List.mem_append]
        tauto
  · exact .inl (List.mem_append_right _ h)

/-! ## Where no null can come -/

/-- No rule puts a null beside one of these properties. -/
def bareProps : List Iri :=
  ["narHash", "dependsOn", "inputDrv", "hasOutput", "inputSrc", "license", "builder", "pname", "version",
    "attrPath", "evaluatesTo"].map nix

def barePreds : List Pred :=
  [.raw, .rawGraph, .q, .asserted, .pv, .attrOf, .ecosystem, .ecoOf, .cpe, .licenseRef, .licenseExpr]

/-- Where the property of a triple is not given, `vary` decides. -/
def tripleBare (vary : List DTerm → List DTerm) : List DTerm → List DTerm
  | [s, .const (.iri p), o] => if p ∈ bareProps then [s, o] else []
  | args => vary args

/-- The places of an atom that no null comes to. -/
def bareTerms (vary : List DTerm → List DTerm) (a : DAtom) : List DTerm :=
  if a.pred = .t then tripleBare vary a.args else if a.pred ∈ barePreds then a.args else []

/-- The places of a body atom that no null comes to, whatever its variables are. -/
def bodyBare : DAtom → List DTerm := bareTerms fun _ => []

/-- The places of a head atom that no null may come to, for some values of its variables. -/
def headBare : DAtom → List DTerm := bareTerms fun args => args

def literalBare : DLiteral → List DTerm
  | .pos a => bodyBare a
  | _ => []

def bareVars (r : DRule) : List String := r.body.flatMap fun l => (literalBare l).flatMap Datalog.Term.vars

def isVarOf (xs : List String) : DTerm → Bool
  | .var x => x ∈ xs
  | .const _ => false

/-- What the rule puts where no null may come, comes from where none can. -/
def keepsBare (r : DRule) : Bool := r.head.all fun a => (headBare a).all (isVarOf (bareVars r))

/-- An existential rule matches only where no null can come. -/
def matchesBare (r : DRule) : Bool :=
  r.nulls.isEmpty || (r.bodyVars.all (· ∈ bareVars r) && r.frontier.all (· ∈ r.bodyVars))

/-- The head has no variable that a test computes. -/
def computesNothing (r : DRule) : Bool := r.head.all fun a => a.vars.all fun x => x ∈ r.nulls || x ∈ r.posVars

theorem properRules_keepBare : (properRules b).all keepsBare = true := rfl

theorem properRules_matchBare : (properRules b).all matchesBare = true := rfl

theorem properRules_compute :
    (properRules b).filter (fun r => !computesNothing r) = concats.map (Concat.rule b) := rfl

theorem concats_bare : concats.all (fun c => (c.parts.flatMap Datalog.Term.vars).all (· ∈ bareVars (c.rule b))
    && "d" ∈ (c.rule b).posVars) = true := rfl

variable {b}

theorem keepsBare_of_mem {r : DRule} (hr : r ∈ properRules b) : keepsBare r = true :=
  List.all_eq_true.mp (properRules_keepBare b) r hr

theorem matchesBare_of_mem {r : DRule} (hr : r ∈ properRules b) (hnulls : r.nulls ≠ []) :
    (∀ x ∈ r.bodyVars, x ∈ bareVars r) ∧ ∀ y ∈ r.frontier, y ∈ r.bodyVars := by
  have hall := List.all_eq_true.mp (properRules_matchBare b) r hr
  rw [matchesBare, Bool.or_eq_true, Bool.and_eq_true, List.all_eq_true, List.all_eq_true] at hall
  obtain ⟨hbody, hfrontier⟩ := hall.resolve_left fun hempty => hnulls (List.isEmpty_iff.mp hempty)
  exact ⟨fun x hx => of_decide_eq_true (hbody x hx), fun y hy => of_decide_eq_true (hfrontier y hy)⟩

/-- The rules that compute something are those of the identifiers. -/
theorem exists_concat {r : DRule} (hr : r ∈ properRules b) (hcomputes : computesNothing r = false) :
    ∃ c ∈ concats, r = c.rule b := by
  have hmem : r ∈ (properRules b).filter fun r => !computesNothing r :=
    List.mem_filter.mpr ⟨hr, by rw [hcomputes]; rfl⟩
  rw [properRules_compute] at hmem
  obtain ⟨c, hc, heq⟩ := List.mem_map.mp hmem
  exact ⟨c, hc, heq.symm⟩

theorem concat_vars {c : Concat} (hc : c ∈ concats) :
    (∀ x ∈ c.parts.flatMap Datalog.Term.vars, x ∈ bareVars (c.rule b)) ∧ "d" ∈ (c.rule b).posVars := by
  have hall := List.all_eq_true.mp (concats_bare b) c hc
  rw [Bool.and_eq_true, List.all_eq_true, decide_eq_true_eq] at hall
  exact ⟨fun x hx => of_decide_eq_true (hall.1 x hx), hall.2⟩

/-! ## Values that are known -/

section Known

variable (quads : Finset Quad)

/-- The strings of the tables. -/
def tableStrings : List String :=
  (ecosystems.flatMap fun e => [e.1, e.2]) ++ (cpes.flatMap fun e => [e.1, e.2.1, e.2.2])
    ++ licenseRefs.flatMap fun e => [e.1, e.2]

/-- A term of some quad. -/
def InputTerm (c : Nix2Rdf.Term) : Prop := ∃ x ∈ quads, c = .iri x.g ∨ c = x.s ∨ c = .iri x.p ∨ c = x.o

/-- The terms of the input, and the strings of the tables. -/
def known : Set Val :=
  {v | ∃ c, v = .const c ∧ (InputTerm quads c ∨ ∃ s ∈ tableStrings, c = .literal s (xsd "string"))}

/-- What CONCAT gives for them. -/
def computed (b : Builtins) : Set Val :=
  {v | ∃ c ∈ concats, ∃ σ : Datalog.Valuation Nix2Rdf.Term,
    (∀ x ∈ c.parts.flatMap Datalog.Term.vars, σ x ∈ known quads) ∧
    (b.concat (c.parts.map (Datalog.Term.ground σ))).map Datalog.Value.const = some v}

theorem finite_known : (known quads).Finite := by
  have hcover : known quads ⊆ (Datalog.Value.const '' ⋃ x ∈ {x | x ∈ quads},
    {c | c ∈ [Term.iri x.g, x.s, .iri x.p, x.o]})
      ∪ (fun s => Datalog.Value.const (Term.literal s (xsd "string"))) '' {s | s ∈ tableStrings} := by
    intro v hv
    obtain ⟨c, rfl, hc⟩ := hv
    rcases hc with ⟨x, hx, hc⟩ | ⟨s, hs, rfl⟩
    · exact .inl ⟨c, Set.mem_biUnion hx (by simpa using hc), rfl⟩
    · exact .inr ⟨s, hs, rfl⟩
  refine Set.Finite.subset (((quads.finite_toSet.biUnion fun x _ => ?_).image _).union ?_) hcover
  · exact List.finite_toSet _
  · exact (List.finite_toSet tableStrings).image _

theorem concats_parts : ∀ c ∈ concats, c.parts.length ≤ 7 := by decide

theorem finite_computed : (computed quads b).Finite := by
  have hparts : (⋃ c ∈ {c | c ∈ concats}, {v : Val | ∃ t, Datalog.Term.const t ∈ c.parts ∧ v = .const t}).Finite := by
    refine (List.finite_toSet concats).biUnion fun c _ => ?_
    refine ((List.finite_toSet c.parts).image (Datalog.Term.ground fun _ => .null "" "" [])).subset fun v hv => ?_
    obtain ⟨t, ht, rfl⟩ := hv
    exact ⟨_, ht, rfl⟩
  have hlists := Datalog.finite_lists ((finite_known quads).union hparts) 7
  refine (hlists.image fun vs => ((b.concat vs).map Datalog.Value.const).getD (.null "" "" [])).subset fun v hv => ?_
  obtain ⟨c, hc, σ, hσ, hv⟩ := hv
  refine ⟨c.parts.map (Datalog.Term.ground σ), ⟨?_, fun w hw => ?_⟩, by dsimp only; rw [hv]; rfl⟩
  · rw [List.length_map]
    exact concats_parts c hc
  · obtain ⟨t, ht, rfl⟩ := List.mem_map.mp hw
    cases t with
    | var x => exact .inl (hσ x (List.mem_flatMap.mpr ⟨_, ht, List.mem_singleton_self x⟩))
    | const d => exact .inr (Set.mem_biUnion hc ⟨d, ht, rfl⟩)

end Known

/-! ## The places without nulls hold known values -/

/-- The values of a fact where no null comes. -/
def factBare (f : DFact) : List Val :=
  if f.pred = .t then
    match f.args with
    | [s, .const (.iri p), o] => if p ∈ bareProps then [s, o] else []
    | _ => []
  else if f.pred ∈ barePreds then f.args else []

section Places

variable {σ : Datalog.Valuation Nix2Rdf.Term}

theorem mem_factBare_of_body {a : DAtom} {t : DTerm} (h : t ∈ bodyBare a) :
    t ∈ a.args ∧ t.ground σ ∈ factBare (a.ground σ) := by
  unfold bodyBare bareTerms at h
  unfold factBare
  rw [Datalog.Atom.ground_pred]
  split_ifs at h ⊢ with ht hp
  · unfold tripleBare at h
    split at h
    · rename_i s p o hargs
      split_ifs at h with hbare
      · rw [Datalog.Atom.ground, hargs]
        simp only [List.map_cons, List.map_nil, Datalog.Term.ground_const, if_pos hbare]
        refine ⟨?_, List.mem_map_of_mem h⟩
        simp only [List.mem_cons, List.not_mem_nil, or_false] at h
        rcases h with rfl | rfl <;> simp
      · cases h
    · cases h
  · exact ⟨h, List.mem_map_of_mem h⟩
  · cases h

theorem exists_headBare {a : DAtom} {v : Val} (h : v ∈ factBare (a.ground σ)) : ∃ t ∈ headBare a, t.ground σ = v := by
  unfold headBare bareTerms
  unfold factBare at h
  rw [Datalog.Atom.ground_pred] at h
  split_ifs at h ⊢ with ht hp
  · unfold tripleBare
    split
    · rename_i s p o hargs
      rw [Datalog.Atom.ground, hargs] at h
      simp only [List.map_cons, List.map_nil, Datalog.Term.ground_const] at h
      split_ifs at h ⊢ with hbare
      · exact List.mem_map.mp h
      · cases h
    · have hargs : v ∈ (a.ground σ).args := by
        split at h
        · rename_i s p o hargs
          rw [hargs]
          split_ifs at h with hbare
          · simp only [List.mem_cons, List.not_mem_nil, or_false] at h
            rcases h with rfl | rfl <;> simp
          · cases h
        · cases h
      exact List.mem_map.mp hargs
  · exact List.mem_map.mp h
  · cases h

/-- A variable of a bare place has a value of one. -/
theorem exists_bare {r : DRule} {x : String} (hx : x ∈ bareVars r) :
    ∃ a, .pos a ∈ r.body ∧ x ∈ a.vars ∧ σ x ∈ factBare (a.ground σ) := by
  obtain ⟨l, hl, hx⟩ := List.mem_flatMap.mp hx
  obtain ⟨t, ht, hx⟩ := List.mem_flatMap.mp hx
  cases t with
  | const c => cases hx
  | var y =>
      rw [Datalog.Term.vars, List.mem_singleton] at hx
      rw [hx]
      cases l with
      | pos a =>
          obtain ⟨hargs, hvalue⟩ := mem_factBare_of_body (σ := σ) ht
          exact ⟨a, hl, List.mem_flatMap.mpr ⟨_, hargs, List.mem_singleton_self y⟩, hvalue⟩
      | neg a => cases ht
      | count numeral n z a => cases ht
      | test rel args => cases ht

theorem posVars_of_bareVars {r : DRule} {x : String} (hx : x ∈ bareVars r) : x ∈ r.posVars := by
  obtain ⟨a, ha, hx, _⟩ := exists_bare (σ := fun _ => .null "" "" []) hx
  exact List.mem_flatMap.mpr ⟨_, ha, hx⟩

/-- Where no null comes in the rows of a table, there is a string of the table. -/
theorem factBare_table {quads : Finset Quad} {r : DRule} (hr : r ∈ tableRules) {a : DAtom} (ha : a ∈ r.head) {v : Val}
    (hv : v ∈ factBare (a.ground σ)) : v ∈ known quads := by
  have hrow : ∀ ss : List String, (∀ s ∈ ss, s ∈ tableStrings) → ∀ w ∈ ss.map (fun s => (str s).ground σ),
      w ∈ known quads := by
    intro ss hss w hw
    obtain ⟨s, hs, rfl⟩ := List.mem_map.mp hw
    exact ⟨_, rfl, .inr ⟨s, hss s hs, rfl⟩⟩
  simp only [tableRules, List.mem_append, List.mem_map] at hr
  rcases hr with ((⟨e, he, rfl⟩ | ⟨e, he, rfl⟩) | ⟨e, he, rfl⟩) | ⟨e, he, rfl⟩ <;>
    rw [fact, clause, List.mem_singleton] at ha <;> rw [ha] at hv
  · refine hrow [e.1, e.2] (fun s hs => ?_) v hv
    exact List.mem_append_left _ (List.mem_append_left _ (List.mem_flatMap.mpr ⟨e, he, hs⟩))
  · refine hrow [e.1, e.2.1, e.2.2] (fun s hs => ?_) v hv
    exact List.mem_append_left _ (List.mem_append_right _ (List.mem_flatMap.mpr ⟨e, he, hs⟩))
  · cases hv
  · refine hrow [e.1, e.2] (fun s hs => ?_) v hv
    exact List.mem_append_right _ (List.mem_flatMap.mpr ⟨e, he, hs⟩)

end Places

/-! ## Runs -/

section Runs

open Datalog (Chase Feeding nullsOf nullFree)

variable {ps : Finset ProjectionPack} {quads : Finset Quad} {as : List (Datalog.Firing Pred Nix2Rdf.Term)}
  {N : Datalog.Interp Pred Nix2Rdf.Term}

theorem factBare_input {f : DFact} (hf : input (· ∈ quads) f) : ∀ v ∈ f.args, v ∈ known quads := by
  obtain ⟨x, hx, rfl⟩ := hf
  intro v hv
  simp only [rawFact, List.mem_cons, List.not_mem_nil, or_false] at hv
  rcases hv with rfl | rfl | rfl | rfl
  · exact ⟨_, rfl, .inl ⟨x, hx, .inl rfl⟩⟩
  · exact ⟨_, rfl, .inl ⟨x, hx, .inr (.inl rfl)⟩⟩
  · exact ⟨_, rfl, .inl ⟨x, hx, .inr (.inr (.inl rfl))⟩⟩
  · exact ⟨_, rfl, .inl ⟨x, hx, .inr (.inr (.inr rfl))⟩⟩

/-- No null comes where none can, in any run. -/
theorem known_of_bare (h : Chase (projection b ps) (input (· ∈ quads)) as N) {f : DFact} (hf : N f) {v : Val}
    (hv : v ∈ factBare f) : v ∈ known quads := by
  refine h.induction (motive := fun f => ∀ v ∈ factBare f, v ∈ known quads) (fun f hf v hv => ?_) ?_ hf v hv
  · obtain ⟨x, hx, rfl⟩ := hf
    exact factBare_input ⟨x, hx, rfl⟩ v hv
  · intro r hr σ _ hmatch a ha v hv
    rcases mem_projection b hr with hproper | htable
    · obtain ⟨t, ht, rfl⟩ := exists_headBare hv
      have hvar := List.all_eq_true.mp (List.all_eq_true.mp (keepsBare_of_mem hproper) a ha) t ht
      cases t with
      | const c => cases hvar
      | var x =>
          obtain ⟨b', hb', _, hvalue⟩ := exists_bare (σ := σ) (of_decide_eq_true hvar)
          exact (hmatch.pos b' hb').2 _ hvalue
    · exact factBare_table htable ha hv

theorem known_of_bareVars (h : Chase (projection b ps) (input (· ∈ quads)) as N) {r : DRule}
    {σ : Datalog.Valuation Nix2Rdf.Term} (hmatch : r.Matches N σ) {x : String} (hx : x ∈ bareVars r) :
    σ x ∈ known quads := by
  obtain ⟨a, ha, _, hvalue⟩ := exists_bare (σ := σ) hx
  exact known_of_bare h (hmatch.pos a ha) hvalue

theorem not_null_of_known {v : Val} (hv : v ∈ known quads) : ¬ v.IsNull := by
  obtain ⟨c, rfl, _⟩ := hv
  exact fun h => h

/-- A row has no variable and mints nothing. -/
theorem vars_table {r : DRule} (hr : r ∈ tableRules) : r.nulls = [] ∧ ∀ a ∈ r.head, a.vars = [] := by
  simp only [tableRules, List.mem_append, List.mem_map] at hr
  rcases hr with ((⟨e, _, rfl⟩ | ⟨e, _, rfl⟩) | ⟨e, _, rfl⟩) | ⟨e, _, rfl⟩ <;>
    exact ⟨rfl, fun a ha => by rw [List.mem_singleton.mp ha]; rfl⟩

/-- What the existential rules match. -/
theorem known_of_bodyVars (h : Chase (projection b ps) (input (· ∈ quads)) as N) {r : DRule}
    (hr : r ∈ projection b ps) (hnulls : r.nulls ≠ []) {σ : Datalog.Valuation Nix2Rdf.Term} (hmatch : r.Matches N σ)
    {x : String} (hx : x ∈ r.bodyVars) : σ x ∈ known quads := by
  rcases mem_projection b hr with hproper | htable
  · exact known_of_bareVars h hmatch ((matchesBare_of_mem hproper hnulls).1 x hx)
  · exact absurd (vars_table htable).1 hnulls

/-- A computed identifier. -/
theorem computed_of_matches (h : Chase (projection b ps) (input (· ∈ quads)) as N) {c : Concat} (hc : c ∈ concats)
    {σ : Datalog.Valuation Nix2Rdf.Term} (hmatch : (c.rule b).Matches N σ) : σ c.x ∈ computed quads b := by
  obtain ⟨v, rest, hargs, hvalue⟩ := hmatch.test _ _ (List.mem_append_right c.body List.mem_cons_self)
  rw [List.map_cons, List.cons.injEq] at hargs
  obtain ⟨hv, hrest⟩ := hargs
  refine ⟨c, hc, σ, fun x hx => known_of_bareVars h hmatch ((concat_vars hc).1 x hx), ?_⟩
  rw [hrest, hvalue, ← hv]
  rfl

/-- Where the values of a head come from. -/
theorem head_cases (h : Chase (projection b ps) (input (· ∈ quads)) as N) {r : DRule}
    (hr : r ∈ projection b ps) {σ : Datalog.Valuation Nix2Rdf.Term} (hmatch : r.Matches N σ) {a : DAtom}
    (ha : a ∈ r.head) {x : String} (hx : x ∈ a.vars) : x ∈ r.nulls ∨ x ∈ r.posVars ∨ σ x ∈ computed quads b := by
  rcases mem_projection b hr with hproper | htable
  · cases hcomputes : computesNothing r with
    | true =>
        have hvar := List.all_eq_true.mp (List.all_eq_true.mp hcomputes a ha) x hx
        rw [Bool.or_eq_true, decide_eq_true_eq, decide_eq_true_eq] at hvar
        exact hvar.imp_right .inl
    | false =>
        obtain ⟨c, hc, rfl⟩ := exists_concat hproper hcomputes
        have hhead : x ∈ ["d", c.x] := by
          rw [List.mem_singleton.mp ha] at hx
          exact hx
        simp only [List.mem_cons, List.not_mem_nil, or_false] at hhead
        rcases hhead with rfl | rfl
        · exact .inr (.inl (concat_vars hc).2)
        · exact .inr (.inr (computed_of_matches h hc hmatch))
  · rw [(vars_table htable).2 a ha] at hx
    cases hx

theorem frontier_bodyVars {r : DRule} (hr : r ∈ projection b ps) (hnulls : r.nulls ≠ []) :
    (∀ x ∈ r.bodyVars, x ∈ r.posVars) ∧ ∀ y ∈ r.frontier, y ∈ r.bodyVars := by
  rcases mem_projection b hr with hproper | htable
  · obtain ⟨hbody, hfrontier⟩ := matchesBare_of_mem hproper hnulls
    exact ⟨fun x hx => posVars_of_bareVars (hbody x hx), hfrontier⟩
  · exact absurd (vars_table htable).1 hnulls

theorem feeding : Feeding (projection b ps) (input (· ∈ quads)) (known quads) (computed quads b) := by
  intro as N h r hr σ _ hmatch a ha x hx
  rcases head_cases h hr hmatch ha hx with hnull | hrest
  · refine .inl ⟨hnull, fun y hy => ?_⟩
    have hnulls := List.ne_nil_of_mem hnull
    exact known_of_bodyVars h hr hnulls hmatch ((frontier_bodyVars hr hnulls).2 y hy)
  · exact .inr hrest

/-- The atoms that an existential rule matches have no nulls. -/
theorem mints (h : Chase (projection b ps) (input (· ∈ quads)) as N) {r : DRule} (hr : r ∈ projection b ps)
    {σ : Datalog.Valuation Nix2Rdf.Term} (hmatch : r.Matches N σ) : r.Mints N σ := by
  intro a ha x hx
  rcases head_cases h hr hmatch ha hx with hnull | hbound | hcomputed
  · refine .inl ⟨hnull, fun c hc => ⟨hmatch.pos c hc, fun v hv => ?_⟩, hmatch.test⟩
    obtain ⟨t, ht, rfl⟩ := List.mem_map.mp hv
    cases t with
    | const d => exact fun h => h
    | var y =>
        have hy : y ∈ r.bodyVars :=
          List.mem_flatMap.mpr ⟨_, hc, List.mem_flatMap.mpr ⟨_, ht, List.mem_singleton_self y⟩⟩
        exact not_null_of_known (known_of_bodyVars h hr (List.ne_nil_of_mem hnull) hmatch hy)
  · exact .inr (.inl hbound)
  · obtain ⟨c, _, σ', _, hvalue⟩ := hcomputed
    obtain ⟨t, _, ht⟩ := Option.map_eq_some_iff.mp hvalue
    refine .inr (.inr ?_)
    rw [← ht]
    exact fun h => h

theorem finite_input : {f | input (· ∈ quads) f}.Finite := by
  refine (quads.finite_toSet.image rawFact).subset fun f hf => ?_
  obtain ⟨x, hx, rfl⟩ := hf
  exact ⟨x, hx, rfl⟩

end Runs

/-- Runs of the projection packs end. An existential rule fires once on a match, and matches terms of the
input and strings of the tables and never a null, so that there are no more nulls than matches among the
facts without them. -/
theorem projection_terminates (b : Builtins) (ps : Finset ProjectionPack) (quads : Finset Quad) :
    (∀ as N, Datalog.Chase (projection b ps) (input (· ∈ quads)) as N →
      (as.Pairwise fun a a' => a.rule = a'.rule → a.rule.nulls ≠ [] → ∃ x ∈ a.rule.bodyVars, a.val x ≠ a'.val x) ∧
      (∀ a ∈ as, a.rule.nulls ≠ [] → ∀ x ∈ a.rule.bodyVars, a.val x ∈ known quads) ∧
      (Datalog.nullsOf N).Finite ∧ (Datalog.nullsOf N).ncard ≤
        ((projection b ps).map fun r => r.nulls.length * (r.matchesIn (Datalog.nullFree N)).ncard).sum) ∧
    ∃ k, ∀ as N, Datalog.Chase (projection b ps) (input (· ∈ quads)) as N → as.length ≤ k := by
  refine ⟨fun as N h => ⟨?_, fun a ha hnulls x hx => ?_, ?_⟩, ?_⟩
  · exact h.fires_once fun r hr hnulls => (frontier_bodyVars hr hnulls).2
  · obtain ⟨hr, _, hmatch⟩ := h.fired ha
    exact known_of_bodyVars h hr hnulls hmatch hx
  · exact h.ncard_nulls_le (h.finite feeding finite_input (finite_known quads) (finite_computed quads))
      (fun f hf v hv => not_null_of_known (factBare_input hf v hv)) (fun r hr σ _ hmatch => mints h hr hmatch)
      fun r hr hnulls => frontier_bodyVars hr hnulls
  · exact ⟨_, fun as N h => h.bounded feeding finite_input (finite_known quads) (finite_computed quads)⟩

end Nix2Rdf.Packs
