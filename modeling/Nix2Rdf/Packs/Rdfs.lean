import Nix2Rdf.Packs.CoreMeaning

/-!
# What RDFS entails

The rules of the RDFS pack over any quads whose vocabularies leave RDF's own properties alone: hierarchies of classes
and of properties, what holds of a property because it holds of a part of it, and the classes of a resource.
-/

namespace Nix2Rdf.Packs

open Relation (ReflTransGen TransGen)

/-- The properties that vocabularies are written in. -/
def metaProps : List Val :=
  [rdfType, rdfs "subClassOf", rdfs "subPropertyOf", rdfs "domain", rdfs "range"].map fun p => .const (.iri p)

/-- No vocabulary gives these properties a part, a whole, a domain or a range. -/
structure PlainSchema (quads : Quad → Prop) : Prop where
  part : ∀ {p q}, Asserts quads p (rdfs "subPropertyOf") q → p ∉ metaProps ∧ q ∉ metaProps
  domain : ∀ {p c}, Asserts quads p (rdfs "domain") c → p ∉ metaProps
  range : ∀ {p c}, Asserts quads p (rdfs "range") c → p ∉ metaProps

/-- The RDFS rules put the triple into the working set. -/
def RdfsDerives (quads : Quad → Prop) (s p o : Val) : Prop := rdfsRuleset.Derived quads ⟨.t, [s, p, o]⟩

/-- One step up in the hierarchy of properties. -/
abbrev PartOf (quads : Quad → Prop) : Val → Val → Prop := (Asserts quads · (rdfs "subPropertyOf") ·)

/-- One step up in the hierarchy of classes. -/
abbrev Below (quads : Quad → Prop) : Val → Val → Prop := (Asserts quads · (rdfs "subClassOf") ·)

/-- The triple is asserted, of this property or of a part of it. -/
def Entailed (quads : Quad → Prop) (x p y : Val) : Prop :=
  ∃ q, ReflTransGen (PartOf quads) (.const (.iri q)) p ∧ Asserts quads x q y

/-- The class is stated, or it is the domain or the range of a property. -/
def TypedFirst (quads : Quad → Prop) (x c : Val) : Prop :=
  Asserts quads x rdfType c ∨ (∃ p y, Asserts quads p (rdfs "domain") c ∧ Entailed quads x p y) ∨
    ∃ p y, Asserts quads p (rdfs "range") c ∧ Entailed quads y p x ∧ ∃ i, x = .const (.iri i)

section Rdfs

variable {quads : Quad → Prop} {s x y p q c o : Val}

theorem rdfs7_derives {N : Datalog.Interp Pred Nix2Rdf.Term} : rdfs7Rule.Derives N ⟨.t, [x, q, y]⟩ ↔
    ∃ p, N ⟨.t, [x, p, y]⟩ ∧ N ⟨.t, [p, .const (.iri (rdfs "subPropertyOf")), q]⟩ := by
  rw [rdfs7Rule, clause_derives]
  constructor
  · rintro ⟨σ, hbody, hhead⟩
    have hpart := hbody _ List.mem_cons_self
    have hstep := hbody _ (List.mem_cons_of_mem _ List.mem_cons_self)
    simp only [ground_atom, List.map_cons, List.map_nil, ground_var, Datalog.Fact.mk.injEq, List.cons.injEq, and_true,
      true_and] at hhead
    obtain ⟨rfl, rfl, rfl⟩ := hhead
    exact ⟨σ "p", hpart, hstep⟩
  · rintro ⟨p, hpart, hstep⟩
    refine ⟨.of y [("x", x), ("p", p), ("q", q)], ?_, by simp⟩
    simpa using And.intro hpart hstep

/-! ## Hierarchies -/

theorem rdfs_rulesOfT_subProperty :
    rdfsRuleset.rulesOfT (rdfs "subPropertyOf") = [tRule, rdfs5Rule, rdfs7Rule] := rfl

theorem partOf_meta (h : PlainSchema quads) (hpath : TransGen (PartOf quads) p q) : q ∉ metaProps := by
  cases hpath with
  | single hlast => exact (h.part hlast).2
  | tail _ hlast => exact (h.part hlast).2

theorem partOf_iff (h : PlainSchema quads) :
    RdfsDerives quads p (.const (.iri (rdfs "subPropertyOf"))) q ↔ TransGen (PartOf quads) p q := by
  constructor
  · intro hderived
    refine rdfsRuleset.induction_pos (motive := TransGen (PartOf quads)) (by rfl) ?_ hderived
    rw [rdfs_rulesOfT_subProperty]
    intro r hr p q hderives
    simp only [List.mem_cons, List.not_mem_nil, or_false] at hr
    rcases hr with rfl | rfl | rfl
    · exact .single (tRule_asserts.mp (hderives.mono rfl fun _ hf => hf.1))
    · obtain ⟨m, ⟨_, hlow⟩, _, hhigh⟩ := (join_derives (by decide) (by decide) (by decide)).mp hderives
      exact (hlow _ _ rfl).trans (hhigh _ _ rfl)
    · -- It would have to be part of the property that it is stated with.
      obtain ⟨m, _, _, hstep⟩ := rdfs7_derives.mp hderives
      exact absurd (by simp [metaProps]) (partOf_meta h (hstep _ _ rfl))
  · intro hpath
    have hstep : ∀ {p m q}, RdfsDerives quads p (.const (.iri (rdfs "subPropertyOf"))) m →
        RdfsDerives quads m (.const (.iri (rdfs "subPropertyOf"))) q →
        RdfsDerives quads p (.const (.iri (rdfs "subPropertyOf"))) q := by
      intro p m q hlow hhigh
      rw [RdfsDerives, rdfsRuleset.derived_t_iff, rdfs_rulesOfT_subProperty]
      refine ⟨rdfs5Rule, by simp, ?_⟩
      exact (join_derives (by decide) (by decide) (by decide)).mpr ⟨m, hlow, hhigh⟩
    induction hpath with
    | single hlast => exact rdfsRuleset.t_of_asserts hlast
    | tail _ hlast ih => exact hstep ih (rdfsRuleset.t_of_asserts hlast)

/-- No rule for parts applies to RDF's own properties. -/
theorem rdfs7_meta (h : PlainSchema quads) (hq : q ∈ metaProps) :
    ¬ rdfs7Rule.Derives (rdfsRuleset.Derived quads) ⟨.t, [x, q, y]⟩ := by
  intro hderives
  obtain ⟨p, _, hstep⟩ := rdfs7_derives.mp hderives
  exact partOf_meta h ((partOf_iff h).mp hstep) hq

/-- rdfs11. -/
def aboveRule : DRule :=
  clause (tr (var "a") (rdfs "subClassOf") (var "c"))
    [tr (var "a") (rdfs "subClassOf") (var "b"), tr (var "b") (rdfs "subClassOf") (var "c")]

/-- Where only RDFS derives subclasses, and no property is a part of this one, the hierarchy is what is stated. -/
theorem subclasses_iff {k : Ruleset} (hrules : k.rulesOfT (rdfs "subClassOf") = [tRule, aboveRule, rdfs7Rule])
    (hidle : ∀ {x y}, ¬ rdfs7Rule.Derives (k.Derived quads) ⟨.t, [x, .const (.iri (rdfs "subClassOf")), y]⟩) :
    k.Derived quads ⟨.t, [x, .const (.iri (rdfs "subClassOf")), y]⟩ ↔ TransGen (Below quads) x y := by
  constructor
  · intro hderived
    refine k.induction_pos (motive := TransGen (Below quads)) (by rw [hrules]; rfl) ?_ hderived
    rw [hrules]
    intro r hr x y hderives
    simp only [List.mem_cons, List.not_mem_nil, or_false] at hr
    rcases hr with rfl | rfl | rfl
    · exact .single (tRule_asserts.mp (hderives.mono rfl fun _ hf => hf.1))
    · obtain ⟨m, ⟨_, hlow⟩, _, hhigh⟩ := (join_derives (by decide) (by decide) (by decide)).mp hderives
      exact (hlow _ _ rfl).trans (hhigh _ _ rfl)
    · exact absurd (hderives.mono rfl fun _ hf => hf.1) hidle
  · intro hpath
    induction hpath with
    | single hlast => exact k.t_of_asserts hlast
    | tail _ hlast ih =>
        refine k.derived_t_iff.mpr ⟨aboveRule, by simp [hrules], ?_⟩
        exact (join_derives (by decide) (by decide) (by decide)).mpr ⟨_, ih, k.t_of_asserts hlast⟩

theorem below_iff (h : PlainSchema quads) :
    RdfsDerives quads x (.const (.iri (rdfs "subClassOf"))) y ↔ TransGen (Below quads) x y :=
  subclasses_iff rfl (rdfs7_meta h (by simp [metaProps]))

theorem schema_iff (h : PlainSchema quads) {w : Iri} (hrules : rdfsRuleset.rulesOfT w = [tRule, rdfs7Rule])
    (hw : .const (.iri w) ∈ metaProps) : RdfsDerives quads p (.const (.iri w)) c ↔ Asserts quads p w c := by
  rw [RdfsDerives, rdfsRuleset.derived_t_iff, hrules]
  simp only [List.mem_cons, List.not_mem_nil, or_false, exists_eq_or_imp, exists_eq_left, tRule_asserts,
    rdfs7_meta h hw]

theorem domain_iff (h : PlainSchema quads) :
    RdfsDerives quads p (.const (.iri (rdfs "domain"))) c ↔ Asserts quads p (rdfs "domain") c :=
  schema_iff h rfl (by simp [metaProps])

theorem range_iff (h : PlainSchema quads) :
    RdfsDerives quads p (.const (.iri (rdfs "range"))) c ↔ Asserts quads p (rdfs "range") c :=
  schema_iff h rfl (by simp [metaProps])

/-! ## Properties -/

/-- The rules that derive triples. -/
theorem rdfs_rulesFor_t : rdfsRuleset.rulesFor .t = tRule :: rdfsRules := rfl

theorem Entailed.part (h : Entailed quads x p y) (hstep : TransGen (PartOf quads) p q) : Entailed quads x q y := by
  obtain ⟨m, hpath, hasserted⟩ := h
  exact ⟨m, hpath.trans hstep.to_reflTransGen, hasserted⟩

theorem entailed_sound (h : PlainSchema quads) (hderived : RdfsDerives quads x p y) (hp : p ∉ metaProps) :
    Entailed quads x p y := by
  refine rdfsRuleset.induction_for (p := .t) (by simp)
    (motive := fun args => ∀ x p y, args = [x, p, y] → p ∉ metaProps → Entailed quads x p y) ?_ hderived x p y rfl hp
  rw [rdfs_rulesFor_t]
  -- Only what is asserted and what holds of a part is about other properties.
  have hmeta : ∀ {w : Iri} {a b : DTerm} {σ : Datalog.Valuation Nix2Rdf.Term} {x p y : Val},
      .const (.iri w) ∈ metaProps → ((tr a w b).ground σ).args = [x, p, y] → p ∉ metaProps →
        Entailed quads x p y := by
    intro w a b σ x p y hw hargs hp
    cases hargs
    exact absurd hw hp
  intro r hr σ hbody hih a ha _ x p y hargs hp
  simp only [rdfsRules, List.mem_cons, List.not_mem_nil, or_false] at hr
  rcases hr with rfl | rfl | rfl | rfl | rfl | rfl | rfl
  · cases List.mem_singleton.mp ha
    have hderives : tRule.Derives (rdfsRuleset.Derived quads) ⟨.t, [x, p, y]⟩ :=
      clause_derives.mpr ⟨σ, hbody, congrArg (Datalog.Fact.mk Pred.t) hargs⟩
    obtain ⟨q, hq, heq⟩ := rdfsRuleset.tRule_derives.mp hderives
    cases heq
    exact ⟨q.p, .refl, q, hq, rfl, rfl, rfl⟩
  · cases List.mem_singleton.mp ha
    exact hmeta (by simp [metaProps]) hargs hp
  · cases List.mem_singleton.mp ha
    exact hmeta (by simp [metaProps]) hargs hp
  · cases List.mem_singleton.mp ha
    exact hmeta (by simp [metaProps]) hargs hp
  · cases List.mem_singleton.mp ha
    have hpart := (partOf_iff h).mp (hbody _ (List.mem_cons_of_mem _ List.mem_cons_self))
    have hlow := hih _ List.mem_cons_self rfl (σ "x") (σ "p") (σ "y") rfl
    cases hargs
    refine (hlow ?_).part hpart
    cases TransGen.head'_iff.mp hpart with
    | intro m hm => exact (h.part hm.1).1
  · cases List.mem_singleton.mp ha
    exact hmeta (by simp [metaProps]) hargs hp
  · cases List.mem_singleton.mp ha
    exact hmeta (by simp [metaProps]) hargs hp

theorem entailed_complete (h : PlainSchema quads) (hentailed : Entailed quads x p y) : RdfsDerives quads x p y := by
  obtain ⟨q, hpath, hasserted⟩ := hentailed
  cases Relation.reflTransGen_iff_eq_or_transGen.mp hpath with
  | inl heq => exact heq ▸ rdfsRuleset.t_of_asserts hasserted
  | inr hstep =>
      refine (rdfsRuleset.derived_iff (by simp)).mpr ⟨rdfs7Rule, by rw [rdfs_rulesFor_t]; simp [rdfsRules], ?_⟩
      exact rdfs7_derives.mpr ⟨_, rdfsRuleset.t_of_asserts hasserted, (partOf_iff h).mpr hstep⟩

/-- A property holds exactly where a part of it is asserted. -/
theorem entailed_iff (h : PlainSchema quads) (hp : p ∉ metaProps) : RdfsDerives quads x p y ↔ Entailed quads x p y :=
  ⟨fun hderived => entailed_sound h hderived hp, entailed_complete h⟩

/-! ## Classes -/

def subclassRule : DRule :=
  clause (tr (var "x") rdfType (var "c2")) [tr (var "x") rdfType (var "c1"),
    tr (var "c1") (rdfs "subClassOf") (var "c2")]

def domainRule : DRule :=
  clause (tr (var "x") rdfType (var "c")) [tr (var "p") (rdfs "domain") (var "c"),
    atom .t [var "x", var "p", var "y"]]

def rangeRule : DRule :=
  clause (tr (var "y") rdfType (var "c"))
    [tr (var "p") (rdfs "range") (var "c"), atom .t [var "x", var "p", var "y"], isIri (var "y")]

theorem rdfs_rulesOfT_type : rdfsRuleset.rulesOfT rdfType =
    [tRule, subclassRule, rdfs7Rule, domainRule, rangeRule] := rfl

theorem domainRule_derives {N : Datalog.Interp Pred Nix2Rdf.Term} :
    domainRule.Derives N ⟨.t, [x, .const (.iri rdfType), c]⟩ ↔
    ∃ p y, N ⟨.t, [p, .const (.iri (rdfs "domain")), c]⟩ ∧ N ⟨.t, [x, p, y]⟩ := by
  rw [domainRule, clause_derives]
  simp only [List.forall_mem_cons, List.not_mem_nil, false_implies, implies_true, and_true, Datalog.Literal.holds_pos,
    ground_tr, ground_atom, List.map_cons, List.map_nil, ground_var, Datalog.Fact.mk.injEq, List.cons.injEq, true_and]
  constructor
  · rintro ⟨σ, ⟨hdomain, hstated⟩, rfl, rfl⟩
    exact ⟨σ "p", σ "y", hdomain, hstated⟩
  · rintro ⟨p, y, hdomain, hstated⟩
    refine ⟨.of y [("x", x), ("c", c), ("p", p)], ?_, by simp⟩
    simpa using And.intro hdomain hstated

theorem rangeRule_derives {N : Datalog.Interp Pred Nix2Rdf.Term} :
    rangeRule.Derives N ⟨.t, [x, .const (.iri rdfType), c]⟩ ↔
    ∃ p y, N ⟨.t, [p, .const (.iri (rdfs "range")), c]⟩ ∧ N ⟨.t, [y, p, x]⟩ ∧ ∃ i, x = .const (.iri i) := by
  rw [rangeRule, clause_derives]
  simp only [isIri, List.forall_mem_cons, List.not_mem_nil, false_implies, implies_true, and_true,
    Datalog.Literal.holds_pos, Datalog.Literal.holds_test, ground_tr, ground_atom, List.map_cons, List.map_nil,
    ground_var, Datalog.Fact.mk.injEq, List.cons.injEq, true_and]
  constructor
  · rintro ⟨σ, ⟨hrange, hstated, hiri⟩, rfl, rfl⟩
    exact ⟨σ "p", σ "x", hrange, hstated, hiri⟩
  · rintro ⟨p, y, hrange, hstated, hiri⟩
    refine ⟨.of y [("y", x), ("c", c), ("p", p)], ?_, by simp⟩
    simpa using And.intro hrange (And.intro hstated hiri)

/-- A resource has the classes that are stated, those of the properties that it has, and all above these. -/
theorem type_iff_below (h : PlainSchema quads) : RdfsDerives quads x (.const (.iri rdfType)) c ↔
    ∃ c₀, TypedFirst quads x c₀ ∧ ReflTransGen (Below quads) c₀ c := by
  constructor
  · intro hderived
    refine rdfsRuleset.induction_t (motive := fun f => ∀ x c, f = ⟨.t, [x, .const (.iri rdfType), c]⟩ →
      ∃ c₀, TypedFirst quads x c₀ ∧ ReflTransGen (Below quads) c₀ c) ?_ hderived x c rfl
    rw [rdfs_rulesOfT_type]
    intro r hr σ hbody hih a ha _ x c hf
    have hderives : ∀ {r' : DRule}, r = r' → (∀ x, x ∉ r'.nulls) → r'.Derives (rdfsRuleset.Derived quads)
        ⟨.t, [x, .const (.iri rdfType), c]⟩ := by
      rintro r' rfl hnulls
      exact ⟨σ, fun x hx => absurd hx (hnulls x), hbody, a, ha, hf⟩
    simp only [List.mem_cons, List.not_mem_nil, or_false] at hr
    rcases hr with hr | rfl | hr | hr | hr
    · exact ⟨c, .inl (tRule_asserts.mp (hderives hr (by simp [tRule, clause]))), .refl⟩
    · cases List.mem_singleton.mp ha
      obtain ⟨c₀, hfirst, hpath⟩ := hih _ List.mem_cons_self ⟨rfl, rfl⟩ (σ "x") (σ "c1") rfl
      have hstep := (below_iff h).mp (hbody _ (List.mem_cons_of_mem _ List.mem_cons_self))
      cases hf
      exact ⟨c₀, hfirst, hpath.trans hstep.to_reflTransGen⟩
    · exact absurd (hderives hr (by simp [rdfs7Rule, clause])) (rdfs7_meta h (by simp [metaProps]))
    · obtain ⟨p, y, hdom, hstated⟩ := domainRule_derives.mp (hderives hr (by simp [domainRule, clause]))
      have hstates := (domain_iff h).mp hdom
      exact ⟨c, .inr (.inl ⟨p, y, hstates, (entailed_iff h (h.domain hstates)).mp hstated⟩), .refl⟩
    · obtain ⟨p, y, hran, hstated, hiri⟩ := rangeRule_derives.mp (hderives hr (by simp [rangeRule, clause]))
      have hstates := (range_iff h).mp hran
      exact ⟨c, .inr (.inr ⟨p, y, hstates, (entailed_iff h (h.range hstates)).mp hstated, hiri⟩), .refl⟩
  · rintro ⟨c₀, hfirst, hpath⟩
    have hfire : ∀ r ∈ rdfsRuleset.rulesOfT rdfType, ∀ {c}, r.Derives (rdfsRuleset.Derived quads)
        ⟨.t, [x, .const (.iri rdfType), c]⟩ → RdfsDerives quads x (.const (.iri rdfType)) c :=
      fun r hr c hderives => rdfsRuleset.derived_t_iff.mpr ⟨r, hr, hderives⟩
    rw [rdfs_rulesOfT_type] at hfire
    have htyped : RdfsDerives quads x (.const (.iri rdfType)) c₀ := by
      rcases hfirst with hstated | ⟨p, y, hstates, hentailed⟩ | ⟨p, y, hstates, hentailed, hiri⟩
      · exact rdfsRuleset.t_of_asserts hstated
      · exact hfire domainRule (by simp)
          (domainRule_derives.mpr ⟨p, y, (domain_iff h).mpr hstates, entailed_complete h hentailed⟩)
      · exact hfire rangeRule (by simp)
          (rangeRule_derives.mpr ⟨p, y, (range_iff h).mpr hstates, entailed_complete h hentailed, hiri⟩)
    cases Relation.reflTransGen_iff_eq_or_transGen.mp hpath with
    | inl heq => exact heq ▸ htyped
    | inr hstep =>
        refine hfire subclassRule (by simp) ?_
        exact (join_derives (by decide) (by decide) (by decide)).mpr ⟨c₀, htyped, (below_iff h).mpr hstep⟩

/-- What the RDFS pack entails. -/
theorem rdfs_exact (h : PlainSchema quads) :
    (∀ x y, RdfsDerives quads x (.const (.iri (rdfs "subClassOf"))) y ↔ TransGen (Below quads) x y) ∧
    (∀ p q, RdfsDerives quads p (.const (.iri (rdfs "subPropertyOf"))) q ↔ TransGen (PartOf quads) p q) ∧
    (∀ p c, RdfsDerives quads p (.const (.iri (rdfs "domain"))) c ↔ Asserts quads p (rdfs "domain") c) ∧
    (∀ p c, RdfsDerives quads p (.const (.iri (rdfs "range"))) c ↔ Asserts quads p (rdfs "range") c) ∧
    (∀ x p y, p ∉ metaProps → (RdfsDerives quads x p y ↔ Entailed quads x p y)) ∧
    (∀ x c, RdfsDerives quads x (.const (.iri rdfType)) c ↔
      ∃ c₀, TypedFirst quads x c₀ ∧ ReflTransGen (Below quads) c₀ c) :=
  ⟨fun _ _ => below_iff h, fun _ _ => partOf_iff h, fun _ _ => domain_iff h, fun _ _ => range_iff h,
    fun _ _ _ hp => entailed_iff h hp, fun _ _ => type_iff_below h⟩

end Rdfs

/-- A part of a property that has a domain, and a class above the domain. -/
def smallSchema : List Quad :=
  [⟨"v", .iri "buys", rdfs "subPropertyOf", .iri "owns"⟩, ⟨"v", .iri "owns", rdfs "domain", .iri "Owner"⟩,
    ⟨"v", .iri "Owner", rdfs "subClassOf", .iri "Person"⟩, ⟨"g", .iri "a", "buys", .iri "b"⟩]

theorem rdfs_exact_small : RdfsDerives (· ∈ smallSchema) (.const (.iri "a")) (.const (.iri rdfType))
    (.const (.iri "Person")) := by
  have hwords : ∀ w ∈ ["buys", "owns", "Owner", "a"],
      w ∉ [rdfType, rdfs "subClassOf", rdfs "subPropertyOf", rdfs "domain", rdfs "range"] := by decide +kernel
  have hterms : ∀ w ∈ ["buys", "owns", "Owner", "a"], (.const (.iri w) : Val) ∉ metaProps := by
    intro w hw hin
    obtain ⟨p, hp, heq⟩ := List.mem_map.mp hin
    cases heq
    exact hwords _ hw hp
  have hplain : PlainSchema (· ∈ smallSchema) := by
    have hsubject : ∀ x ∈ smallSchema, (.const x.s : Val) ∉ metaProps := by
      simpa [smallSchema] using hterms
    constructor
    · rintro p q ⟨x, hx, rfl, hp, rfl⟩
      refine ⟨hsubject x hx, ?_⟩
      simp only [smallSchema, List.mem_cons, List.not_mem_nil, or_false] at hx
      rcases hx with rfl | rfl | rfl | rfl
      · exact hterms _ (by simp)
      · simp at hp
      · simp at hp
      · exact absurd (hp ▸ by simp) (hwords "buys" (by simp))
    · rintro p q ⟨x, hx, rfl, _, _⟩
      exact hsubject x hx
    · rintro p q ⟨x, hx, rfl, _, _⟩
      exact hsubject x hx
  have hstates : ∀ x ∈ smallSchema, Asserts (· ∈ smallSchema) (.const x.s) x.p (.const x.o) :=
    fun x hx => ⟨x, hx, rfl, rfl, rfl⟩
  simp only [smallSchema, List.forall_mem_cons, List.not_mem_nil, false_implies, implies_true, and_true] at hstates
  obtain ⟨hpart, hdomain, hclass, hbuys⟩ := hstates
  exact ((rdfs_exact hplain).2.2.2.2.2 _ _).mpr ⟨_, .inr (.inl ⟨_, _, hdomain, _, .single hpart, hbuys⟩),
    .single hclass⟩

end Nix2Rdf.Packs
