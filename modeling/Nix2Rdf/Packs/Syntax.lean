import Nix2Rdf.Lib.Datalog.Semantics
import Nix2Rdf.Iri

/-!
# The programs of the reasoner

The predicates of the packs, the shape of their rules, and the prelude and epilogue that every
generated program has around them.
-/

namespace Nix2Rdf.Packs

open Datalog (Value)

abbrev Val := Value Nix2Rdf.Term

inductive Pred where
  -- prelude and epilogue
  | raw | rawGraph | q | asserted | t | out | new
  -- core
  | refT
  -- identifiers
  | pv | attrOf | ecosystem | ecoOf | cpe | inTable | gnuHome | rank
  -- spdx3
  | licenseRef | hasRef | licenseExpr
  -- k8s: narrow relations
  | kWorkload | kStatefulSet | kContainer | kNamespace | kServiceAccount | kClusterRoleBinding
  | kSnapshot | kInNamespace | kInCluster | kName | kLabel | kHasContainer | kRunsImage
  | kUnresolvedImage | kScheduledOn | kReplicas | kHasPDB | kMounts | kBoundTo | kPinnedToNode
  | kOwnerUnknown | kExempt | kLimitsCpu | kLimitsMemory | kInFailureDomain | kDomainKind
  | kHostGeneration | kNodeRole | kKernelVersion | kAppliesTo | kPolicyType | kAllowsIngressFrom
  | kAllowsAllIngress | kGrants | kSubjectOf | kAggregates | kPermits | kVerb | kResource
  | kSnapshotKind | kOfCluster | nImageDigest | nRuntimeClosure | nClosure | nHasOutput
  | iVulnerableTo | iSeverityRank
  -- k8s: semantics
  | prodNs | prodWorkload | wImage | imgDrv | hasRuntime | running | runningOnNode | ingressPolicy
  | hasIngressPolicy | wCluster | sameCluster | roleOf | effPerm | zone | spread | domainCount | live
  | desired | imgIn | replIn | pair | imageDrift | replicaDrift
  -- k8s: policies
  | minSeverityRank | cveHit | typedIn | refIn | dangling | minKernel | roleGen | genMismatch
  | oldKernel | hasPdb | systemNs | userSa | adminPerm | secretRead | clusterWide | pinnedVolume
  | signed | attestationsLoaded
  -- policy-examples
  | pinnedWithRev
  deriving DecidableEq, Repr

abbrev DTerm := Datalog.Term Nix2Rdf.Term
abbrev DAtom := Datalog.Atom Pred Nix2Rdf.Term
abbrev DLiteral := Datalog.Literal Pred Nix2Rdf.Term
abbrev DRule := Datalog.Rule Pred Nix2Rdf.Term
abbrev DFact := Datalog.Fact Pred Nix2Rdf.Term

/-- The functions of the rule engine that rules call. They are undefined on some values. -/
structure Builtins where
  concat : List Val → Option Nix2Rdf.Term
  strStarts : Val → Val → Bool
  contains : Val → Val → Bool
  fullStr : Val → Option Nix2Rdf.Term
  /-- The order of numbers, and of strings. -/
  less : Val → Val → Bool
  atLeast : Val → Val → Bool

def noBuiltins : Builtins :=
  ⟨fun _ => none, fun _ _ => false, fun _ _ => false, fun _ => none, fun _ _ => false, fun _ _ => false⟩

/-! ## Terms and rules -/

def var (x : String) : DTerm := .var x
def iri (i : Iri) : DTerm := .const (.iri i)
def str (s : String) : DTerm := .const (.literal s (xsd "string"))
def int (n : Nat) : DTerm := .const (.literal (toString n) (xsd "integer"))
def yes : DTerm := .const (.literal "true" (xsd "boolean"))

def rdfs (t : String) : Iri := "http://www.w3.org/2000/01/rdf-schema#" ++ t

@[simp] theorem rdfs_inj {a b : String} : rdfs a = rdfs b ↔ a = b := String.append_right_inj _

theorem toList_rdfs (t : String) :
    (rdfs t).toList = "http://www.w3.org/2000/01/rdf-schema#".toList ++ t.toList :=
  String.toList_append

/-- The vocabulary of rdfs is under another scheme than those of this program. -/
theorem scheme_rdfs (t : String) : (rdfs t).toList[4]? = some ':' := by
  rw [toList_rdfs, List.getElem?_append_left (by decide)]
  decide

@[simp] theorem rdfs_ne_k8s (a b : String) : rdfs a ≠ k8s b := by
  intro h
  have hs : (k8s b).toList[4]? = some 's' := by
    rw [k8s, String.toList_append, List.getElem?_append_left (by decide)]
    decide
  rw [← h, scheme_rdfs] at hs
  cases hs

@[simp] theorem rdfs_ne_nix (a b : String) : rdfs a ≠ nix b := by
  intro h
  have hs : (nix b).toList[4]? = some 's' := by
    rw [nix, String.toList_append, List.getElem?_append_left (by decide)]
    decide
  rw [← h, scheme_rdfs] at hs
  cases hs

@[simp] theorem k8s_ne_rdfs (a b : String) : k8s a ≠ rdfs b := (rdfs_ne_k8s b a).symm

@[simp] theorem nix_ne_rdfs (a b : String) : nix a ≠ rdfs b := (rdfs_ne_nix b a).symm

@[simp] theorem rdfType_ne_rdfs (a : String) : rdfType ≠ rdfs a := by
  intro h
  have htype : rdfType.toList[19]? = some '9' := by decide
  have hrdfs : (rdfs a).toList[19]? = some '0' := by
    rw [toList_rdfs, List.getElem?_append_left (by decide)]
    decide
  rw [h, hrdfs] at htype
  cases htype

def ids (t : String) : Iri := "https://w3id.org/nix2rdf/identifiers#" ++ t
def attest (t : String) : Iri := "https://w3id.org/nix2rdf/attest#" ++ t

def atom (p : Pred) (args : List DTerm) : DAtom := ⟨p, args⟩

/-- `t(?s, p, ?o)`. -/
def tr (s : DTerm) (p : Iri) (o : DTerm) : DAtom := ⟨.t, [s, iri p, o]⟩

/-- `q(?g, ?s, p, ?o)`. -/
def qd (g s : DTerm) (p : Iri) (o : DTerm) : DAtom := ⟨.q, [g, s, iri p, o]⟩

/-- `out(?s, p, ?o)`. -/
def ou (s : DTerm) (p : Iri) (o : DTerm) : DAtom := ⟨.out, [s, iri p, o]⟩

instance : Coe DAtom DLiteral := ⟨.pos⟩

def clause (head : DAtom) (body : List DLiteral) : DRule := ⟨[head], body, "", []⟩

def fact (head : DAtom) : DRule := clause head []

section Ground

variable (σ : Datalog.Valuation Nix2Rdf.Term)

@[simp] theorem ground_var (x : String) : (var x).ground σ = σ x := rfl

@[simp] theorem ground_iri (i : Iri) : (iri i).ground σ = .const (.iri i) := rfl

@[simp] theorem ground_str (s : String) : (str s).ground σ = .const (.literal s (xsd "string")) := rfl

@[simp] theorem ground_yes : yes.ground σ = .const (.literal "true" (xsd "boolean")) := rfl

@[simp] theorem ground_atom (p : Pred) (args : List DTerm) :
    (atom p args).ground σ = ⟨p, args.map (Datalog.Term.ground σ)⟩ := rfl

@[simp] theorem ground_tr (s : DTerm) (p : Iri) (o : DTerm) :
    (tr s p o).ground σ = ⟨.t, [s.ground σ, .const (.iri p), o.ground σ]⟩ := rfl

@[simp] theorem ground_qd (g s : DTerm) (p : Iri) (o : DTerm) :
    (qd g s p o).ground σ = ⟨.q, [g.ground σ, s.ground σ, .const (.iri p), o.ground σ]⟩ := rfl

@[simp] theorem ground_ou (s : DTerm) (p : Iri) (o : DTerm) :
    (ou s p o).ground σ = ⟨.out, [s.ground σ, .const (.iri p), o.ground σ]⟩ := rfl

end Ground

theorem clause_derives {N : Datalog.Interp Pred Nix2Rdf.Term} {head : DAtom} {body : List DLiteral}
    {f : DFact} : (clause head body).Derives N f ↔
      ∃ σ, (∀ l ∈ body, l.Holds N σ) ∧ head.ground σ = f :=
  Datalog.Rule.derives_single

/-! ## Rules that copy and join triples -/

section Join

variable {N : Datalog.Interp Pred Nix2Rdf.Term} {p q r : Iri} {a b c : String} {x z : Val}

theorem copy_derives (hab : a ≠ b) :
    (clause (tr (var a) p (var b)) [tr (var a) q (var b)]).Derives N ⟨.t, [x, .const (.iri p), z]⟩ ↔
      N ⟨.t, [x, .const (.iri q), z]⟩ := by
  rw [clause_derives]
  constructor
  · rintro ⟨σ, hbody, hhead⟩
    have hcopy := hbody _ List.mem_cons_self
    simp only [ground_tr, ground_var, Datalog.Fact.mk.injEq, List.cons.injEq, and_true,
      true_and] at hhead
    simpa [hhead] using hcopy
  · intro h
    exact ⟨.of z [(a, x)], by simpa [hab.symm] using h, by simp [hab.symm]⟩

theorem join_derives (hab : a ≠ b) (hac : a ≠ c) (hbc : b ≠ c) :
    (clause (tr (var a) p (var c)) [tr (var a) q (var b), tr (var b) r (var c)]).Derives N
        ⟨.t, [x, .const (.iri p), z]⟩ ↔
      ∃ y, N ⟨.t, [x, .const (.iri q), y]⟩ ∧ N ⟨.t, [y, .const (.iri r), z]⟩ := by
  rw [clause_derives]
  constructor
  · rintro ⟨σ, hbody, hhead⟩
    have hfirst := hbody _ List.mem_cons_self
    have hsecond := hbody _ (List.mem_cons_of_mem _ List.mem_cons_self)
    simp only [ground_tr, ground_var, Datalog.Fact.mk.injEq, List.cons.injEq, and_true,
      true_and] at hhead
    exact ⟨σ b, by simpa [hhead] using hfirst, by simpa [hhead] using hsecond⟩
  · rintro ⟨y, hfirst, hsecond⟩
    refine ⟨.of y [(a, x), (c, z)], ?_, by simp [hac.symm]⟩
    simpa [hab.symm, hbc, hac.symm] using And.intro hfirst hsecond

/-- The object of the one triple is the object of the other. -/
theorem meet_derives (hab : a ≠ b) (hac : a ≠ c) (hbc : b ≠ c) :
    (clause (tr (var a) p (var c)) [tr (var a) q (var b), tr (var c) r (var b)]).Derives N
        ⟨.t, [x, .const (.iri p), z]⟩ ↔
      ∃ y, N ⟨.t, [x, .const (.iri q), y]⟩ ∧ N ⟨.t, [z, .const (.iri r), y]⟩ := by
  rw [clause_derives]
  constructor
  · rintro ⟨σ, hbody, hhead⟩
    have hfirst := hbody _ List.mem_cons_self
    have hsecond := hbody _ (List.mem_cons_of_mem _ List.mem_cons_self)
    simp only [ground_tr, ground_var, Datalog.Fact.mk.injEq, List.cons.injEq, and_true,
      true_and] at hhead
    exact ⟨σ b, by simpa [hhead] using hfirst, by simpa [hhead] using hsecond⟩
  · rintro ⟨y, hfirst, hsecond⟩
    refine ⟨.of y [(a, x), (c, z)], ?_, by simp [hac.symm]⟩
    simpa [hab.symm, hbc, hac.symm] using And.intro hfirst hsecond

end Join

/-- `k(?a, ?b) :- t(?a, p, ?b)`. -/
def narrow (k : Pred) (p : Iri) : DRule := clause (atom k [var "a", var "b"]) [tr (var "a") p (var "b")]

/-- `k(?a) :- t(?a, p, o)`. -/
def narrowTo (k : Pred) (p : Iri) (o : DTerm) : DRule := clause (atom k [var "a"]) [tr (var "a") p o]

/-- `k(?a) :- t(?a, p, ?b)`. -/
def narrowAny (k : Pred) (p : Iri) : DRule := clause (atom k [var "a"]) [tr (var "a") p (var "b")]

def ne (x y : DTerm) : DLiteral :=
  .test (fun vs => ∃ a b, vs = [a, b] ∧ a ≠ b) [x, y]

/-- `?u = CONCAT(..)`. -/
def concat (b : Builtins) (u : DTerm) (parts : List DTerm) : DLiteral :=
  .test (fun vs => ∃ r rest, vs = r :: rest ∧ (b.concat rest).map Value.const = some r) (u :: parts)

/-- `?u = CONCAT(fullStr(x), text, fullStr(y))`. -/
def concatFull (b : Builtins) (u x : DTerm) (text : String) (y : DTerm) : DLiteral :=
  .test (fun vs => ∃ r v w tv tw, vs = [r, v, w] ∧ b.fullStr v = some tv ∧ b.fullStr w = some tw ∧
    (b.concat [.const tv, .const (.literal text (xsd "string")), .const tw]).map Value.const = some r)
    [u, x, y]

def fullStr (b : Builtins) (u x : DTerm) : DLiteral :=
  .test (fun vs => ∃ r v, vs = [r, v] ∧ (b.fullStr v).map Value.const = some r) [u, x]

def holds (f : Val → Val → Bool) (x y : DTerm) : DLiteral :=
  .test (fun vs => ∃ a b, vs = [a, b] ∧ f a b = true) [x, y]

def isIri (x : DTerm) : DLiteral := .test (fun vs => ∃ i, vs = [.const (.iri i)]) [x]

/-! ## Prelude and epilogue -/

def rawGraphRule : DRule :=
  clause (atom .rawGraph [var "g"]) [atom .raw [var "g", var "s", var "p", var "o"]]

def qRule : DRule :=
  clause (atom .q [var "g", var "s", var "p", var "o"])
    [atom .raw [var "g", var "s", var "p", var "o"], atom .rawGraph [var "g"]]

def assertedRule : DRule :=
  clause (atom .asserted [var "s", var "p", var "o"]) [atom .q [var "g", var "s", var "p", var "o"]]

def tRule : DRule :=
  clause (atom .t [var "s", var "p", var "o"]) [atom .asserted [var "s", var "p", var "o"]]

/-- The quads come in through `raw`; `t` starts as the set of their triples. -/
def prelude : List DRule := [rawGraphRule, qRule, assertedRule, tRule]

/-- What is derived and not asserted is exported, and so is the final layer. -/
def epilogue : List DRule :=
  [clause (atom .new [var "s", var "p", var "o"])
      [atom .t [var "s", var "p", var "o"], .neg (atom .asserted [var "s", var "p", var "o"])],
    clause (atom .new [var "s", var "p", var "o"]) [atom .out [var "s", var "p", var "o"]]]

def program (body : List DRule) : List DRule := prelude ++ body ++ epilogue

/-- The import of quads. -/
def rawFact (x : Quad) : DFact :=
  ⟨.raw, [.const (.iri x.g), .const x.s, .const (.iri x.p), .const x.o]⟩

def input (quads : Quad → Prop) : Datalog.Interp Pred Nix2Rdf.Term :=
  fun f => ∃ x, quads x ∧ f = rawFact x

end Nix2Rdf.Packs
