import Nix2Rdf.Packs.Policies

/-!
# Privilege paths

Which service accounts the k8s pack reports as good as an administrator, and what becomes of a report
when a permission is widened to a wildcard.
-/

namespace Nix2Rdf.Packs

open Datalog (Literal)
open Deployed

/-! ## What permissions allow, apart from all else -/

/-- The properties that say what a permission allows. -/
def accessProps : List Iri := [k8s "verb", k8s "resource"]

/-- The one property or the other, as a value. -/
def IsAccess (p : Val) : Prop := ∃ w ∈ accessProps, p = .const (.iri w)

/-- The other facts say everything that these say, but maybe other texts of what permissions allow. -/
structure Covers (quads quads' : Quad → Prop) : Prop where
  apart : ∀ {s o : Val} {p : Iri}, p ∉ accessProps → Asserts quads s p o → Asserts quads' s p o
  subject : ∀ {s o : Val} {p : Iri}, Asserts quads s p o → ∃ o', Asserts quads' s p o'
  iri : ∀ {s : Val} {p i : Iri}, Asserts quads s p (.const (.iri i)) → Asserts quads' s p (.const (.iri i))

/-- What the rules for triples read beside triples. -/
def tripleSources : List Pred :=
  [.refT, .pv, .attrOf, .ecosystem, .ecoOf, .cpe, .gnuHome, .rank, .kNamespace, .kLabel, .prodNs,
    .kHasContainer, .kRunsImage, .wImage, .nRuntimeClosure, .nHasOutput, .imgDrv, .kGrants, .kAggregates,
    .kSubjectOf, .kPermits, .roleOf, .effPerm, .kDomainKind, .kScheduledOn, .kInFailureDomain, .zone, .spread]

/-- Triples that do not say what a permission allows, and what they come from. -/
def Rest (f : DFact) : Prop :=
  f.pred ∈ tripleSources ∨ f.pred = .t ∧ ∀ w ∈ accessProps, f.args[1]? ≠ some (.const (.iri w))

/-- The literal asks for such facts, or whether a name is in the table. -/
def restLiteral : DLiteral → Bool
  | .pos a => tripleSources.contains a.pred || a.pred == .t && (Ruleset.property? a).any fun p =>
    !accessProps.contains p
  | .neg a => a.pred == .inTable
  | .count .. => false
  | .test .. => true

/-- The rule derives other facts, or from such literals only. -/
def tame (r : DRule) : Bool :=
  (r.head.all fun a => !(Pred.t :: tripleSources).contains a.pred) || r.body.all restLiteral

section Covered

variable {b : Builtins} {quads quads' : Quad → Prop} {σ : Datalog.Valuation Nix2Rdf.Term} {x y p : Val}

theorem rest_t : Rest ⟨.t, [x, p, y]⟩ ↔ ¬ IsAccess p := by
  simp [Rest, IsAccess, tripleSources]

/-- The rules that may ask for triples of any property are those of the prelude and of RDFS. -/
theorem tame_rules : ∀ r ∈ program (k8sWithDeps b).rules, r ∈ [tRule, rdfs7Rule, domainRule, rangeRule] ∨ tame r := by
  have hprelude : (prelude.take 3).all tame := by decide +kernel
  have hcore : core.all tame := by decide +kernel
  have hids : (identifiers b).all tame := by rfl
  have hrdfs : (rdfsRules.take 3).all tame := by decide +kernel
  have hk8s : k8sStructure.all tame := by decide +kernel
  have hpolicies : (k8sPolicies b).all tame := by rfl
  have hepilogue : epilogue.all tame := by decide +kernel
  have hfirst : ∀ r ∈ prelude, r = tRule ∨ r ∈ prelude.take 3 := by simp [prelude]
  have hlast : ∀ r ∈ rdfsRules, r ∈ [rdfs7Rule, domainRule, rangeRule] ∨ r ∈ rdfsRules.take 3 := by
    simp [rdfsRules, domainRule, rangeRule]
  intro r hr
  rw [program_k8sWithDeps] at hr
  simp only [List.mem_append] at hr
  rcases hr with (hr | ((hr | hr) | hr) | hr | hr) | hr
  · rcases hfirst r hr with rfl | hr
    · exact .inl List.mem_cons_self
    · exact .inr (List.all_eq_true.mp hprelude r hr)
  · exact .inr (List.all_eq_true.mp hcore r hr)
  · exact .inr (List.all_eq_true.mp hids r hr)
  · exact (hlast r hr).imp (List.mem_cons_of_mem _) (List.all_eq_true.mp hrdfs r)
  · exact .inr (List.all_eq_true.mp hk8s r hr)
  · exact .inr (List.all_eq_true.mp hpolicies r hr)
  · exact .inr (List.all_eq_true.mp hepilogue r hr)

/-- What the table lists does not depend on the facts. -/
theorem inTable_covered {args : List Val} (h : (k8sWithDeps b).Derived quads' ⟨.inTable, args⟩) :
    (k8sWithDeps b).Derived quads ⟨.inTable, args⟩ := by
  obtain ⟨σ, _, hhead⟩ := ((k8sWithDeps b).derived_iff_one (p := .inTable) rfl (by simp)).mp h
  cases hhead
  exact inTable_iff.mpr (inTable_iff.mp h)

theorem restLiteral_in {l : DLiteral} (h : restLiteral l) (hl : l.Holds ((k8sWithDeps b).Derived quads) σ) :
    l.In Rest σ ∨ l.Holds ((k8sWithDeps b).Derived quads') σ := by
  cases l with
  | pos a =>
      left
      simp only [restLiteral, Bool.or_eq_true, Bool.and_eq_true, List.contains_iff_mem, beq_iff_eq,
        Option.any_eq_true] at h
      rcases h with h | ⟨ht, w, hw, hother⟩
      · exact .inl h
      · refine .inr ⟨ht, fun v hv heq => ?_⟩
        rw [Datalog.Atom.ground, List.getElem?_map, Ruleset.property?_eq hw] at heq
        cases heq
        simp [hv] at hother
  | neg a =>
      right
      obtain ⟨k, args⟩ := a
      simp only [restLiteral, beq_iff_eq] at h
      cases h
      exact fun hlisted => hl (inTable_covered hlisted)
  | count numeral n x a => cases h
  | test rel args => exact .inl trivial

variable (hsub : NoSubProperty quads) (hsub' : NoSubProperty quads') (hcovers : Covers quads quads')

omit hsub hsub' hcovers in
theorem stated_access {w : Iri} (hw : w ∈ accessProps) : w ∈ statedProps := by
  simp only [accessProps, List.mem_cons, List.not_mem_nil, or_false] at hw
  rcases hw with rfl | rfl
  · simp [statedProps]
  · simp [statedProps]

include hcovers

omit hsub hsub' in
theorem asserts_meta {w : Iri} (hw : w ∈ [rdfs "domain", rdfs "range"]) (h : Asserts quads p w y) :
    Asserts quads' p w y := by
  refine hcovers.apart ?_ h
  simp only [List.mem_cons, List.not_mem_nil, or_false] at hw
  rcases hw with rfl | rfl
  · simp [accessProps]
  · simp [accessProps]

include hsub hsub'

/-- What a permission allows still says that it allows something. -/
theorem access_subject (hp : IsAccess p) (h : Working b quads x p y) : ∃ y', Working b quads' x p y' := by
  obtain ⟨w, hw, rfl⟩ := hp
  obtain ⟨y', hy'⟩ := hcovers.subject ((stated_iff hsub (stated_access hw)).mp h)
  exact ⟨y', (stated_iff hsub' (stated_access hw)).mpr hy'⟩

theorem access_iri (hp : IsAccess p) {i : Iri} (h : Working b quads x p (.const (.iri i))) :
    Working b quads' x p (.const (.iri i)) := by
  obtain ⟨w, hw, rfl⟩ := hp
  exact (stated_iff hsub' (stated_access hw)).mpr (hcovers.iri ((stated_iff hsub (stated_access hw)).mp h))

/-- The other facts put all the same triples into the working set, but those that say what permissions allow. -/
theorem working_covered (h : Working b quads x p y) (hp : ¬ IsAccess p) : Working b quads' x p y := by
  have hmeta : ∀ {w : Iri} {s o : Val}, w ∈ [rdfs "domain", rdfs "range"] → Rest ⟨.t, [s, .const (.iri w), o]⟩ := by
    intro w s o hw
    rw [rest_t]
    rintro ⟨v, hv, heq⟩
    cases heq
    simp only [List.mem_cons, List.not_mem_nil, or_false] at hw
    rcases hw with rfl | rfl
    · simp [accessProps] at hv
    · simp [accessProps] at hv
  refine Datalog.Model.le_of_region (R := Rest) (k8sWithDeps b).program_stratified
    (k8sWithDeps b).program_stratified ?_ ?_ h (rest_t.mpr hp)
  · rintro f hf ⟨q, _, rfl⟩
    rcases hf with hf | ⟨hf, _⟩
    · simp [tripleSources, rawFact] at hf
    · cases hf
  intro r hr σ hσ hbody a ha hrest
  have hderives : r.Derives ((k8sWithDeps b).Derived quads) (a.ground σ) := ⟨σ, hσ, hbody, a, ha, rfl⟩
  rcases tame_rules r hr with hmem | htame
  · simp only [List.mem_cons, List.not_mem_nil, or_false] at hmem
    rcases hmem with rfl | rfl | rfl | rfl
    · cases List.mem_singleton.mp ha
      obtain ⟨q, hq, hargs⟩ := (k8sWithDeps b).tRule_derives.mp hderives
      left
      have hground : (atom .t [var "s", var "p", var "o"]).ground σ =
          ⟨.t, [.const q.s, .const (.iri q.p), .const q.o]⟩ :=
        congrArg (Datalog.Fact.mk Pred.t) hargs
      rw [hground] at hrest ⊢
      refine (k8sWithDeps b).t_of_asserts (hcovers.apart (fun hin => ?_) ⟨q, hq, rfl, rfl, rfl⟩)
      exact rest_t.mp hrest ⟨q.p, hin, rfl⟩
    · exact absurd hderives (rdfs7_idle hsub)
    · -- A domain of what a permission allows is also one with another text.
      cases List.mem_singleton.mp ha
      have hdomain := hbody _ List.mem_cons_self
      have hholds := hbody _ (List.mem_cons_of_mem _ List.mem_cons_self)
      by_cases haccess : IsAccess (σ "p")
      · obtain ⟨y', hy'⟩ := access_subject hsub hsub' hcovers haccess hholds
        have hstated := asserts_meta hcovers (by simp) ((domain_stated hsub).mp hdomain)
        exact .inl (working_of_hasClass hsub' (.domain hstated hy'))
      · refine .inr ⟨hr, ?_⟩
        simp only [domainRule, clause, List.forall_mem_cons, List.not_mem_nil, false_implies, implies_true, and_true]
        exact ⟨.inl (hmeta (by simp)), .inl (rest_t.mpr haccess)⟩
    · cases List.mem_singleton.mp ha
      have hrange := hbody _ List.mem_cons_self
      have hholds := hbody _ (List.mem_cons_of_mem _ List.mem_cons_self)
      obtain ⟨i, hi⟩ := hbody _ (List.mem_cons_of_mem _ (List.mem_cons_of_mem _ List.mem_cons_self))
      simp only [List.map_cons, List.map_nil, ground_var, List.cons.injEq, and_true] at hi
      by_cases haccess : IsAccess (σ "p")
      · have hheld : Working b quads (σ "x") (σ "p") (σ "y") := hholds
        rw [hi] at hheld
        have hstated := asserts_meta hcovers (by simp) ((range_stated hsub).mp hrange)
        have hkept := access_iri hsub hsub' hcovers haccess hheld
        rw [← hi] at hkept
        exact .inl (working_of_hasClass hsub' (.range hstated hkept hi))
      · refine .inr ⟨hr, ?_⟩
        simp only [rangeRule, isIri, clause, List.forall_mem_cons, List.not_mem_nil, false_implies,
          implies_true, and_true]
        exact ⟨.inl (hmeta (by simp)), .inl (rest_t.mpr haccess), .inl trivial⟩
  · refine .inr ⟨hr, fun l hl => restLiteral_in ?_ (hbody l hl)⟩
    simp only [tame, Bool.or_eq_true, List.all_eq_true] at htame
    refine htame.resolve_left (fun hnone => ?_) l hl
    have hnot := hnone a ha
    simp only [List.contains_cons, Bool.not_eq_true', Bool.or_eq_false_iff, beq_eq_false_iff_ne] at hnot
    rcases hrest with hin | ⟨ht, _⟩
    · exact absurd (List.contains_iff_mem.mpr hin) (by simpa [Datalog.Atom.ground] using hnot.2)
    · exact hnot.1 ht

/-- So they say the same about classes. -/
theorem isA_covered {c : String} (h : IsA b quads x c) : IsA b quads' x c := by
  refine working_covered hsub hsub' hcovers h ?_
  rintro ⟨w, hw, heq⟩
  cases heq
  simp [accessProps] at hw

end Covered

/-! ## Who is reported -/

/-- The facts of a run, vocabularies included, none of which makes a property part of another. -/
structure RbacFacts where
  quads : Quad → Prop
  noSubProperty : NoSubProperty quads

section Access

variable (b : Builtins) (F : RbacFacts)

/-- Some binding gives the account the permission. -/
def Effective (sa p : Val) : Prop := ∃ bnd, Binds F.quads bnd sa p

/-- The permission comes through a binding for the whole cluster. -/
def ClusterWide (sa p : Val) : Prop := ∃ bnd, IsA b F.quads bnd "ClusterRoleBinding" ∧ Binds F.quads bnd sa p

/-- The account is as good as an administrator by this verb and resource of the permission. -/
structure Incriminates (sa p : Val) (verb resource : String) : Prop where
  account : OrdinaryAccount b F.quads sa
  permits : Permits F.quads p verb resource
  path : (Effective F sa p ∧ verb = "*" ∧ resource = "*") ∨ (ClusterWide b F sa p ∧ (verb, resource) ∈ secretReads)

/-- The policy reports the account. -/
def Flagged (sa : Val) : Prop := Reported b F.quads "privilege-path" sa

end Access

section Reports

variable {b : Builtins} {F : RbacFacts} {sa p : Val}

theorem offends_privilege_iff {quads : Quad → Prop} : Offends b quads "privilege-path" sa ↔
    ∃ p verb resource, OrdinaryAccount b quads sa ∧ Permits quads p verb resource ∧
      (((∃ bnd, Binds quads bnd sa p) ∧ verb = "*" ∧ resource = "*") ∨
        ((∃ bnd, IsA b quads bnd "ClusterRoleBinding" ∧ Binds quads bnd sa p) ∧ (verb, resource) ∈ secretReads)) := by
  constructor
  · intro h
    generalize hpolicy : "privilege-path" = policy at h
    cases h with
    | admin hsa hbinds hpermits => exact ⟨_, _, _, hsa, hpermits, .inl ⟨⟨_, hbinds⟩, rfl, rfl⟩⟩
    | secrets hsa hbnd hbinds hread hpermits => exact ⟨_, _, _, hsa, hpermits, .inr ⟨⟨_, hbnd, hbinds⟩, hread⟩⟩
    | _ => simp at hpolicy
  · rintro ⟨p, verb, resource, hsa, hpermits, ⟨⟨bnd, hbinds⟩, rfl, rfl⟩ | ⟨⟨bnd, hbnd, hbinds⟩, hread⟩⟩
    · exact .admin hsa hbinds hpermits
    · exact .secrets hsa hbnd hbinds hread hpermits

/-- The policy reports exactly the accounts that some permission incriminates. -/
theorem flagged_iff : Flagged b F sa ↔ ∃ p verb resource, Incriminates b F sa p verb resource := by
  have hreported : Flagged b F sa ↔ Offends b F.quads "privilege-path" sa := by
    rw [Flagged, reported_iff_fires]
    constructor
    · rintro ⟨e, he, hpolicy, σ, h, rfl⟩
      exact hpolicy ▸ offends_of_fires F.noSubProperty he h
    · exact fires_of_offends F.noSubProperty
  rw [hreported, offends_privilege_iff]
  constructor
  · rintro ⟨p, verb, resource, haccount, hpermits, hpath⟩
    exact ⟨p, verb, resource, haccount, hpermits, hpath⟩
  · rintro ⟨p, verb, resource, h⟩
    exact ⟨p, verb, resource, h.account, h.permits, h.path⟩

end Reports

/-! ## Wildcards -/

@[simp] theorem plain_inj {s s' : String} : plain s = plain s' ↔ s = s' := by simp [plain]

/-- Which parts of a permission are replaced by the wildcard. -/
inductive Widening where
  | resource
  | verb
  | both
  deriving DecidableEq, Repr

def text (s : String) : Nix2Rdf.Term := .literal s (xsd "string")

namespace Widening

def ofVerb : Widening → Bool
  | .resource => false
  | .verb | .both => true

def ofResource : Widening → Bool
  | .verb => false
  | .resource | .both => true

variable (w : Widening) (verb resource : String)

/-- The property loses this value. -/
def Replaces (p : Iri) (o : Nix2Rdf.Term) : Prop :=
  (w.ofVerb = true ∧ p = k8s "verb" ∧ o = text verb) ∨ (w.ofResource = true ∧ p = k8s "resource" ∧ o = text resource)

instance (p : Iri) (o : Nix2Rdf.Term) : Decidable (w.Replaces verb resource p o) :=
  inferInstanceAs (Decidable (_ ∨ _))

def quad (perm : Nix2Rdf.Term) (q : Quad) : Quad :=
  if q.s = perm ∧ w.Replaces verb resource q.p q.o then { q with o := text "*" } else q

theorem quad_p (perm : Nix2Rdf.Term) (q : Quad) : (w.quad verb resource perm q).p = q.p := by
  rw [quad]
  split <;> rfl

end Widening

/-- The facts with the verb or the resource of one permission replaced by the wildcard. -/
def RbacFacts.widen (F : RbacFacts) (w : Widening) (perm : Nix2Rdf.Term) (verb resource : String) : RbacFacts where
  quads q' := ∃ q, F.quads q ∧ q' = w.quad verb resource perm q
  noSubProperty := by
    rintro _ ⟨q, hq, rfl⟩
    rw [w.quad_p]
    exact F.noSubProperty q hq

section Widened

variable {b : Builtins} {F : RbacFacts} {w : Widening} {perm : Nix2Rdf.Term} {verb resource : String}

theorem asserts_widen {x y : Val} {p : Iri} : Asserts (F.widen w perm verb resource).quads x p y ↔
    (Asserts F.quads x p y ∧ ¬ (x = .const perm ∧ ∃ o, y = .const o ∧ w.Replaces verb resource p o)) ∨
      (x = .const perm ∧ y = plain "*" ∧ ∃ o, w.Replaces verb resource p o ∧ Asserts F.quads x p (.const o)) := by
  constructor
  · rintro ⟨q', ⟨q, hq, rfl⟩, hs, hp, ho⟩
    rw [Widening.quad] at hs hp ho
    split at hs
    · rename_i hreplaced
      rw [if_pos hreplaced] at hp ho
      subst hs hp ho
      exact .inr ⟨congrArg _ hreplaced.1, rfl, q.o, hreplaced.2, q, hq, rfl, rfl, rfl⟩
    · rename_i hkept
      rw [if_neg hkept] at hp ho
      subst hs hp ho
      refine .inl ⟨⟨q, hq, rfl, rfl, rfl⟩, ?_⟩
      rintro ⟨hs, o, ho, hreplaces⟩
      cases ho
      exact hkept ⟨Datalog.Value.const.inj hs, hreplaces⟩
  · rintro (⟨⟨q, hq, rfl, rfl, rfl⟩, hkept⟩ | ⟨hs, rfl, o, hreplaces, q, hq, rfl, rfl, ho⟩)
    · have hsame : w.quad verb resource perm q = q :=
        if_neg fun h => hkept ⟨congrArg _ h.1, q.o, rfl, h.2⟩
      exact ⟨_, ⟨q, hq, rfl⟩, by rw [hsame], by rw [hsame], by rw [hsame]⟩
    · have hreplaced : w.quad verb resource perm q = { q with o := text "*" } := by
        refine if_pos ⟨Datalog.Value.const.inj hs, ?_⟩
        rwa [← Datalog.Value.const.inj ho]
      exact ⟨_, ⟨q, hq, rfl⟩, by rw [hreplaced], by rw [hreplaced], by rw [hreplaced, plain, text]⟩

theorem asserts_widen_of_ne {x y : Val} {p : Iri} (h : x ≠ .const perm) :
    Asserts (F.widen w perm verb resource).quads x p y ↔ Asserts F.quads x p y := by
  simp [asserts_widen, h]

theorem asserts_widen_of_property {x y : Val} {p : Iri} (h : p ∉ accessProps) :
    Asserts (F.widen w perm verb resource).quads x p y ↔ Asserts F.quads x p y := by
  simp only [accessProps, List.mem_cons, List.not_mem_nil, or_false, not_or] at h
  simp [asserts_widen, Widening.Replaces, h]

/-- Nothing but texts of what a permission allows is lost. -/
theorem covers_widen : Covers F.quads (F.widen w perm verb resource).quads where
  apart hp h := (asserts_widen_of_property hp).mpr h
  subject := by
    intro x y p h
    by_cases hreplaced : x = .const perm ∧ ∃ o, y = .const o ∧ w.Replaces verb resource p o
    · obtain ⟨hx, o, rfl, hreplaces⟩ := hreplaced
      exact ⟨_, asserts_widen.mpr (.inr ⟨hx, rfl, o, hreplaces, h⟩)⟩
    · exact ⟨y, asserts_widen.mpr (.inl ⟨h, hreplaced⟩)⟩
  iri := by
    intro x p i h
    refine asserts_widen.mpr (.inl ⟨h, ?_⟩)
    rintro ⟨_, o, ho, ⟨_, _, rfl⟩ | ⟨_, _, rfl⟩⟩
    · cases ho
    · cases ho

/-- And nothing but such texts is new. -/
theorem widen_covers : Covers (F.widen w perm verb resource).quads F.quads where
  apart hp h := (asserts_widen_of_property hp).mp h
  subject := by
    intro x y p h
    rcases asserts_widen.mp h with ⟨h, _⟩ | ⟨_, _, o, _, h⟩
    · exact ⟨y, h⟩
    · exact ⟨_, h⟩
  iri := by
    intro x p i h
    rcases asserts_widen.mp h with ⟨h, _⟩ | ⟨_, hstar, _⟩
    · exact h
    · cases hstar

theorem isA_widen {x : Val} {c : String} : IsA b (F.widen w perm verb resource).quads x c ↔ IsA b F.quads x c :=
  ⟨isA_covered (F.widen w perm verb resource).noSubProperty F.noSubProperty widen_covers,
    isA_covered F.noSubProperty (F.widen w perm verb resource).noSubProperty covers_widen⟩

theorem ordinaryAccount_widen {sa : Val} :
    OrdinaryAccount b (F.widen w perm verb resource).quads sa ↔ OrdinaryAccount b F.quads sa := by
  have hname : k8s "name" ∉ accessProps := by simp [accessProps]
  have hnamespace : k8s "inNamespace" ∉ accessProps := by simp [accessProps]
  simp only [OrdinaryAccount, isA_widen, asserts_widen_of_property hname, asserts_widen_of_property hnamespace]

theorem binds_widen {bnd sa p : Val} : Binds (F.widen w perm verb resource).quads bnd sa p ↔
    Binds F.quads bnd sa p := by
  have hplain : ∀ p ∈ ["subjectOf", "grants", "aggregates", "permits"].map k8s, p ∉ accessProps := by
    simp [accessProps]
  simp only [List.map_cons, List.map_nil, List.forall_mem_cons, List.not_mem_nil, false_implies, implies_true,
    and_true] at hplain
  obtain ⟨hsubject, hgrants, haggregates, hpermits⟩ := hplain
  simp only [Binds, asserts_widen_of_property hsubject, asserts_widen_of_property hgrants,
    asserts_widen_of_property haggregates, asserts_widen_of_property hpermits]

theorem effective_widen {sa p : Val} : Effective (F.widen w perm verb resource) sa p ↔ Effective F sa p := by
  simp only [Effective, binds_widen]

theorem clusterWide_widen {sa p : Val} : ClusterWide b (F.widen w perm verb resource) sa p ↔
    ClusterWide b F sa p := by
  simp only [ClusterWide, isA_widen, binds_widen]

theorem incriminates_widen {sa p : Val} {v r : String} :
    Incriminates b (F.widen w perm verb resource) sa p v r ↔ OrdinaryAccount b F.quads sa ∧
      Permits (F.widen w perm verb resource).quads p v r ∧
      ((Effective F sa p ∧ v = "*" ∧ r = "*") ∨ (ClusterWide b F sa p ∧ (v, r) ∈ secretReads)) := by
  rw [← ordinaryAccount_widen (w := w), ← effective_widen (w := w), ← clusterWide_widen (w := w)]
  constructor
  · intro h
    exact ⟨h.account, h.permits, h.path⟩
  · rintro ⟨haccount, hpermits, hpath⟩
    exact ⟨haccount, hpermits, hpath⟩

theorem incriminates_widen_of_ne {sa p : Val} {v r : String} (h : p ≠ .const perm) :
    Incriminates b (F.widen w perm verb resource) sa p v r ↔ Incriminates b F sa p v r := by
  have hpermits : Permits (F.widen w perm verb resource).quads p v r ↔ Permits F.quads p v r := by
    simp only [Permits, asserts_widen_of_ne h]
  rw [incriminates_widen, hpermits]
  constructor
  · rintro ⟨haccount, hpermits, hpath⟩
    exact ⟨haccount, hpermits, hpath⟩
  · intro hinc
    exact ⟨hinc.account, hinc.permits, hinc.path⟩

/-- What the permission allows after it has been widened. -/
theorem permits_widen (h : Permits F.quads (.const perm) verb resource) (w : Widening) :
    Permits (F.widen w perm verb resource).quads (.const perm) (if w.ofVerb = true then "*" else verb)
      (if w.ofResource = true then "*" else resource) := by
  constructor
  · rw [asserts_widen]
    split
    · rename_i hw
      exact .inr ⟨rfl, rfl, text verb, .inl ⟨hw, rfl, rfl⟩, h.1⟩
    · rename_i hw
      exact .inl ⟨h.1, by simp [Widening.Replaces, hw]⟩
  · rw [asserts_widen]
    split
    · rename_i hw
      exact .inr ⟨rfl, rfl, text resource, .inr ⟨hw, rfl, rfl⟩, h.2⟩
    · rename_i hw
      exact .inl ⟨h.2, by simp [Widening.Replaces, hw]⟩

theorem ClusterWide.effective {sa p : Val} (h : ClusterWide b F sa p) : Effective F sa p := by
  obtain ⟨bnd, _, hbinds⟩ := h
  exact ⟨bnd, hbinds⟩

/-- Only the resource of a permission to list secrets leaves the rules when it is widened. -/
theorem widened_read {v r : String} (h : (v, r) ∈ secretReads) (w : Widening) :
    (v = "list" ∧ r = "secrets" ∧ w = .resource) ∨
    (if w.ofVerb = true then "*" else v, if w.ofResource = true then "*" else r) ∈ ("*", "*") :: secretReads := by
  revert w
  revert h
  simp only [secretReads, List.mem_cons, Prod.mk.injEq, List.not_mem_nil, or_false]
  rintro (⟨rfl, rfl⟩ | ⟨rfl, rfl⟩ | ⟨rfl, rfl⟩ | ⟨rfl, rfl⟩) w <;> cases w <;>
    simp [Widening.ofVerb, Widening.ofResource]

end Widened

/-- Every report that a permission causes outlasts the permission being widened. -/
def WildcardsRespected (b : Builtins) (F : RbacFacts) : Prop :=
  ∀ (sa : Val) (perm : Nix2Rdf.Term) (verb resource : String), Incriminates b F sa (.const perm) verb resource →
    ∀ w : Widening, Flagged b (F.widen w perm verb resource) sa

/-- Whoever may list all secrets is incriminated by another permission as well, or may get them by the
same one. -/
def ListingNeverAlone (b : Builtins) (F : RbacFacts) : Prop :=
  ∀ sa perm : Val, Incriminates b F sa perm "list" "secrets" →
    (∃ p verb resource, p ≠ perm ∧ Incriminates b F sa p verb resource) ∨
      Asserts F.quads perm (k8s "verb") (plain "get") ∨ Asserts F.quads perm (k8s "verb") (plain "*")

theorem flagged_widen_list_iff {b : Builtins} {F : RbacFacts} {sa : Val} {perm : Nix2Rdf.Term}
    (h : Incriminates b F sa (.const perm) "list" "secrets") :
    Flagged b (F.widen .resource perm "list" "secrets") sa ↔
      (∃ p verb resource, p ≠ .const perm ∧ Incriminates b F sa p verb resource) ∨
        Asserts F.quads (.const perm) (k8s "verb") (plain "get") ∨
        Asserts F.quads (.const perm) (k8s "verb") (plain "*") := by
  have hverb : ∀ {y}, Asserts (F.widen .resource perm "list" "secrets").quads (.const perm) (k8s "verb") y ↔
      Asserts F.quads (.const perm) (k8s "verb") y := by
    intro y
    simp [asserts_widen, Widening.Replaces, Widening.ofVerb]
  have hpermits := permits_widen h.permits .resource
  have hwide : ClusterWide b F sa (.const perm) := by
    rcases h.path with ⟨_, hlist, _⟩ | ⟨hwide, _⟩
    · exact absurd hlist (by decide)
    · exact hwide
  rw [flagged_iff]
  constructor
  · rintro ⟨p, v, r, hinc⟩
    by_cases hp : p = .const perm
    · subst hp
      obtain ⟨_, ⟨hv, hr⟩, hpath⟩ := incriminates_widen.mp hinc
      rw [hverb] at hv
      rcases hpath with ⟨_, rfl, _⟩ | ⟨_, hread⟩
      · exact .inr (.inr hv)
      · have hsecrets : r ≠ "secrets" := by
          rintro rfl
          rcases asserts_widen.mp hr with ⟨_, hkept⟩ | ⟨_, htext, _⟩
          · exact hkept ⟨rfl, _, rfl, .inr ⟨rfl, rfl, rfl⟩⟩
          · exact absurd (plain_inj.mp htext) (by decide)
        simp only [secretReads, List.mem_cons, Prod.mk.injEq, hsecrets, and_false, List.not_mem_nil, or_false,
          false_or] at hread
        rw [hread.1] at hv
        exact .inr (.inl hv)
    · exact .inl ⟨p, v, r, hp, (incriminates_widen_of_ne hp).mp hinc⟩
  · rintro (⟨p, v, r, hp, hinc⟩ | hget | hall)
    · exact ⟨p, v, r, (incriminates_widen_of_ne hp).mpr hinc⟩
    · exact ⟨.const perm, "get", "*", incriminates_widen.mpr
        ⟨h.account, ⟨hverb.mpr hget, hpermits.2⟩, .inr ⟨hwide, by decide⟩⟩⟩
    · exact ⟨.const perm, "*", "*", incriminates_widen.mpr
        ⟨h.account, ⟨hverb.mpr hall, hpermits.2⟩, .inl ⟨hwide.effective, rfl, rfl⟩⟩⟩

/-- Wildcards are respected exactly when no report rests on listing secrets alone. -/
theorem wildcardsRespected_iff (b : Builtins) (F : RbacFacts) : WildcardsRespected b F ↔ ListingNeverAlone b F := by
  constructor
  · rintro h sa perm hinc
    obtain ⟨q, _, rfl, _⟩ := hinc.permits.1
    exact (flagged_widen_list_iff hinc).mp (h sa q.s "list" "secrets" hinc .resource)
  · intro h sa perm verb resource hinc w
    have hpermits := permits_widen hinc.permits w
    rcases hinc.path with ⟨heff, rfl, rfl⟩ | ⟨hwide, hread⟩
    · refine flagged_iff.mpr ⟨.const perm, "*", "*", incriminates_widen.mpr ⟨hinc.account, ?_, .inl ⟨heff, rfl, rfl⟩⟩⟩
      simpa using hpermits
    · rcases widened_read hread w with ⟨rfl, rfl, rfl⟩ | hmem
      · exact (flagged_widen_list_iff hinc).mpr (h sa (.const perm) hinc)
      · refine flagged_iff.mpr ⟨.const perm, _, _, incriminates_widen.mpr ⟨hinc.account, hpermits, ?_⟩⟩
        rcases List.mem_cons.mp hmem with hstar | hmem
        · exact .inl ⟨hwide.effective, congrArg Prod.fst hstar, congrArg Prod.snd hstar⟩
        · exact .inr ⟨hwide, hmem⟩

/-! ## An account that lists secrets -/

/-- A service account is bound to a cluster role that may list secrets; the vocabulary is among the facts. -/
def listingQuads : List Quad :=
  [⟨"g", .iri "sa", rdfType, .iri (k8s "ServiceAccount")⟩, ⟨"g", .iri "sa", k8s "inNamespace", .iri "ns"⟩,
    ⟨"g", .iri "binding", rdfType, .iri (k8s "ClusterRoleBinding")⟩,
    ⟨"g", .iri "binding", k8s "subjectOf", .iri "sa"⟩, ⟨"g", .iri "binding", k8s "grants", .iri "role"⟩,
    ⟨"g", .iri "role", k8s "permits", .iri "perm"⟩, ⟨"g", .iri "perm", k8s "verb", text "list"⟩,
    ⟨"g", .iri "perm", k8s "resource", text "secrets"⟩,
    ⟨"vocab", .iri (k8s "StatefulSet"), rdfs "subClassOf", .iri (k8s "Workload")⟩]

def listingFacts : RbacFacts where
  quads q := q ∈ listingQuads
  noSubProperty := by
    simp only [NoSubProperty, listingQuads, List.forall_mem_cons, List.not_mem_nil, false_implies,
      implies_true, and_true]
    simp

theorem asserts_listing {x y : Val} {p : Iri} : Asserts listingFacts.quads x p y ↔
    ∃ q ∈ listingQuads, x = .const q.s ∧ p = q.p ∧ y = .const q.o := Iff.rfl

theorem listing_incriminates (b : Builtins) :
    Incriminates b listingFacts (.const (.iri "sa")) (.const (.iri "perm")) "list" "secrets" := by
  have hstated : ∀ q ∈ listingQuads, Asserts listingFacts.quads (.const q.s) q.p (.const q.o) :=
    fun q hq => ⟨q, hq, rfl, rfl, rfl⟩
  simp only [listingQuads, List.forall_mem_cons, List.not_mem_nil, false_implies, implies_true, and_true] at hstated
  obtain ⟨haccount, hnamespace, hbinding, hsubject, hgrants, hpermits, hverb, hresource, _⟩ := hstated
  refine ⟨⟨(k8sWithDeps b).t_of_asserts haccount, _, hnamespace, ?_⟩, ⟨hverb, hresource⟩, .inr ⟨?_, by decide⟩⟩
  · rintro ⟨_, name, hname, _⟩
    simp [asserts_listing, listingQuads] at hname
  · exact ⟨_, (k8sWithDeps b).t_of_asserts hbinding, hsubject, _, _, hgrants, .refl, hpermits⟩

/-- With all resources instead of secrets, the account is no longer reported. -/
theorem listing_widened_unnoticed : ¬ WildcardsRespected noBuiltins listingFacts := by
  intro h
  have hinc := listing_incriminates noBuiltins
  rcases (flagged_widen_list_iff hinc).mp (h _ _ _ _ hinc .resource) with ⟨p, v, r, hp, hother⟩ | hverb | hverb
  · have hperm : p = .const (.iri "perm") ∧ v = "list" := by
      simpa [asserts_listing, listingQuads, plain, text] using hother.permits.1
    exact hp hperm.1
  · simp [asserts_listing, listingQuads, plain, text] at hverb
  · simp [asserts_listing, listingQuads, plain, text] at hverb

end Nix2Rdf.Packs
