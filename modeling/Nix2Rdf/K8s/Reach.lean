import Nix2Rdf.K8s.Edges
import Nix2Rdf.K8s.Policies
import Nix2Rdf.Packs.Program

/-!
# Effective reachability

Who may reach whom by the network policies of a cluster, and what the rules of the k8s pack make of its
snapshot. A peer that has only an `ipBlock` counts there as the namespace of the policy.
-/

namespace Nix2Rdf.K8s

open Packs Triple

/-! ## Selectors -/

def operator (e : Json) : String := (s e ["operator"]).getD ""

def operand (labels : Labels) (e : Json) : Option String := labels[(s e ["key"]).getD ""]?

def values (e : Json) : List String := (arr e ["values"]).filterMap Json.asStr?

/-- The labels meet one of the `matchExpressions`. -/
inductive Meets (labels : Labels) (e : Json) : Prop
  | isIn {v : String} : operator e = "In" → operand labels e = some v → v ∈ values e → Meets labels e
  | notIn : operator e = "NotIn" → (∀ v ∈ operand labels e, v ∉ values e) → Meets labels e
  | present {v : String} : operator e = "Exists" → operand labels e = some v → Meets labels e
  | absent : operator e = "DoesNotExist" → operand labels e = none → Meets labels e

theorem expressionMatches_iff {labels : Labels} {e : Json} : expressionMatches labels e ↔ Meets labels e := by
  have hoperator : (s e ["operator"]).getD "" = operator e := rfl
  have hoperand : labels[(s e ["key"]).getD ""]? = operand labels e := rfl
  have hvalues : (arr e ["values"]).filterMap Json.asStr? = values e := rfl
  simp only [expressionMatches, hoperator, hoperand, hvalues]
  constructor
  · intro h
    split at h
    · cases hv : operand labels e with
      | none => simp [hv] at h
      | some v => exact .isIn ‹_› hv (by simpa [hv] using h)
    · refine .notIn ‹_› fun v hv => ?_
      rw [Option.mem_def] at hv
      simpa [hv] using h
    · obtain ⟨v, hv⟩ := Option.isSome_iff_exists.mp h
      exact .present ‹_› hv
    · exact .absent ‹_› (Option.isNone_iff_eq_none.mp h)
    · cases h
  · intro h
    cases h with
    | isIn hop hv hmem => simp [hop, hv, hmem]
    | notIn hop hno =>
        rw [hop]
        cases hv : operand labels e with
        | none => rfl
        | some v => simpa [hv] using hno v hv
    | present hop hv => simp [hop, hv]
    | absent hop hv => simp [hop, hv]

/-- A label selector covers what has all its labels and meets all its expressions. No selector covers
everything. -/
def Covers (sel : Option Json) (labels : Labels) : Prop :=
  ∀ v ∈ sel, (∀ kv ∈ (map v ["matchLabels"]).toList, labels[kv.1]? = some kv.2) ∧
    ∀ e ∈ arr v ["matchExpressions"], Meets labels e

theorem selectorMatches_iff {sel : Option Json} {labels : Labels} :
    selectorMatches sel labels true ↔ Covers sel labels := by
  cases sel with
  | none => simp [selectorMatches, Covers]
  | some v =>
      have hcovers : Covers (some v) labels ↔
          (((map v ["matchLabels"]).toList.all fun kv => labels[kv.1]? = some kv.2) &&
            (arr v ["matchExpressions"]).all (expressionMatches labels)) := by
        simp [Covers, expressionMatches_iff]
      rw [hcovers, selectorMatches]
      split
      · rename_i hempty
        obtain ⟨hml, hexprs⟩ := Bool.and_eq_true_iff.mp hempty
        have hml : map v ["matchLabels"] = ∅ := Std.ExtTreeMap.isEmpty_iff.mp hml
        rw [List.isEmpty_iff.mp hexprs, hml]
        simp
      · rfl

/-! ## What the policies say -/

structure Workload (ctx : Ctx) where
  key : Key
  obj : Json
  mem : ctx.index[key]? = some obj
  kind : key.kind ∈ workloadKinds

/-- A network policy with the policy type `Ingress`. -/
structure IngressPolicy (ctx : Ctx) where
  key : Key
  obj : Json
  mem : ctx.index[key]? = some obj
  kind : key.kind = "NetworkPolicy"
  types : "Ingress" ∈ policyTypes obj

def Ctx.nsLabels (ctx : Ctx) (ns : String) : Labels :=
  ((ctx.index[(⟨"Namespace", "", ns⟩ : Key)]?).map labels).getD ∅

def IpBlockOnly (peer : Json) : Prop :=
  (peer.get? "ipBlock").isSome ∧ peer.get? "namespaceSelector" = none ∧ peer.get? "podSelector" = none

namespace IngressPolicy

variable {ctx : Ctx} (np : IngressPolicy ctx)

def rules : List Json := arr np.obj ["spec", "ingress"]

def Selects (w : Workload ctx) : Prop :=
  w.key.ns = np.key.ns ∧ Covers (np.obj.path? ["spec", "podSelector"]) (podLabels w.obj)

/-- The peer covers the namespace of the workload. -/
def PeerCoversNs (peer : Json) (w : Workload ctx) : Prop :=
  match peer.get? "namespaceSelector" with
  | some sel => Covers (some sel) (ctx.nsLabels w.key.ns)
  | none => w.key.ns = np.key.ns

def PeerSelects (peer : Json) (w : Workload ctx) : Prop :=
  ¬ IpBlockOnly peer ∧ np.PeerCoversNs peer w ∧ Covers (peer.get? "podSelector") (podLabels w.obj)

def Admits (w : Workload ctx) : Prop :=
  ∃ rule ∈ np.rules, rulePeers rule = [] ∨ ∃ peer ∈ rulePeers rule, np.PeerSelects peer w

/-- Some rule has a peer that has only an `ipBlock`. -/
def HasIpBlock : Prop := ∃ rule ∈ np.rules, ∃ peer ∈ rulePeers rule, IpBlockOnly peer

/-- What the snapshot has for `Admits`: an `ipBlock` is not looked at. -/
def Lists (w : Workload ctx) : Prop :=
  ∃ rule ∈ np.rules, rulePeers rule = [] ∨
    ∃ peer ∈ rulePeers rule, np.PeerCoversNs peer w ∧ Covers (peer.get? "podSelector") (podLabels w.obj)

theorem lists_iff {w : Workload ctx} :
    np.Lists w ↔ np.Admits w ∨ (w.key.ns = np.key.ns ∧ np.HasIpBlock) := by
  constructor
  · rintro ⟨rule, hrule, hall | ⟨peer, hpeer, hns, hpod⟩⟩
    · exact .inl ⟨rule, hrule, .inl hall⟩
    · by_cases hip : IpBlockOnly peer
      · rw [PeerCoversNs, hip.2.1] at hns
        exact .inr ⟨hns, rule, hrule, peer, hpeer, hip⟩
      · exact .inl ⟨rule, hrule, .inr ⟨peer, hpeer, hip, hns, hpod⟩⟩
  · rintro (⟨rule, hrule, hall | ⟨peer, hpeer, _, hns, hpod⟩⟩ | ⟨hns, rule, hrule, peer, hpeer, hip⟩)
    · exact ⟨rule, hrule, .inl hall⟩
    · exact ⟨rule, hrule, .inr ⟨peer, hpeer, hns, hpod⟩⟩
    · refine ⟨rule, hrule, .inr ⟨peer, hpeer, ?_, ?_⟩⟩
      · rw [PeerCoversNs, hip.2.1]
        exact hns
      · rw [hip.2.2]
        simp [Covers]

end IngressPolicy

/-- No policy selects the target, or one that does admits the source. -/
def Reachable {ctx : Ctx} (a b : Workload ctx) : Prop :=
  (∀ np : IngressPolicy ctx, ¬ np.Selects b) ∨ ∃ np : IngressPolicy ctx, np.Selects b ∧ np.Admits a

/-- Where a policy that selects the target has an `ipBlock` peer and the source is in its namespace, the
source is admitted anyway. -/
def IpBlocksHarmless {ctx : Ctx} (a b : Workload ctx) : Prop :=
  ∀ np : IngressPolicy ctx, np.Selects b → np.HasIpBlock → a.key.ns = np.key.ns →
    ∃ np' : IngressPolicy ctx, np'.Selects b ∧ np'.Admits a

theorem lists_iff_reachable {ctx : Ctx} {a b : Workload ctx} :
    (((∀ np : IngressPolicy ctx, ¬ np.Selects b) ∨ ∃ np : IngressPolicy ctx, np.Selects b ∧ np.Lists a) ↔
      Reachable a b) ↔ IpBlocksHarmless a b := by
  constructor
  · intro h np hsel hip hns
    have hlists : np.Lists a := np.lists_iff.mpr (.inr ⟨hns, hip⟩)
    rcases h.mp (.inr ⟨np, hsel, hlists⟩) with hnone | hadmits
    · exact absurd hsel (hnone np)
    · exact hadmits
  · intro h
    refine or_congr_right ⟨?_, ?_⟩
    · rintro ⟨np, hsel, hlists⟩
      rcases np.lists_iff.mp hlists with hadmits | ⟨hns, hip⟩
      · exact ⟨np, hsel, hadmits⟩
      · exact h np hsel hip hns
    · rintro ⟨np, hsel, hadmits⟩
      exact ⟨np, hsel, np.lists_iff.mpr (.inl hadmits)⟩

/-! ## The working set -/

section Facts

variable {x : Extern} {now : String} {input : SnapshotInput} {opts : SnapshotOptions} {b : Builtins}
  {vocab : Quad → Prop}

/-- The fragments of a snapshot, and the vocabularies of the packs. -/
def workingSet (out : SnapshotOutput) (vocab : Quad → Prop) (q : Quad) : Prop :=
  q ∈ out.snapshot.quads ∨ q ∈ out.nodes.quads ∨ q ∈ out.observed.quads ∨ vocab q

/-- The vocabularies declare no subproperties and describe no cluster. -/
def PlainVocab (vocab : Quad → Prop) : Prop :=
  ∀ q, vocab q → q.p ≠ rdfs "subPropertyOf" ∧ q.p ∉ reachProps

/-- The name of a snapshot. -/
def nameOf (x : Extern) (input : SnapshotInput) (opts : SnapshotOptions) : String :=
  contentHash x (pendingSnapshot (ctxOf input opts) input opts.state)

/-- The entity of an object in the snapshot. -/
def ent (x : Extern) (input : SnapshotInput) (opts : SnapshotOptions) (k : Key) : Val :=
  .const (.iri (renamed (nameOf x input opts) ((ctxOf input opts).iriOf k)))

abbrev Holds (x : Extern) (now : String) (input : SnapshotInput) (opts : SnapshotOptions) (b : Builtins)
    (vocab : Quad → Prop) : DFact → Prop :=
  (k8sWithDeps b).Derived (workingSet (buildSnapshot x now input opts) vocab)

theorem pending_props (h : ClusterObjects input.objects) {t : Triple}
    (ht : t ∈ (pendingSnapshot (ctxOf input opts) input opts.state).lines) :
    t.p ∈ reachProps ++ otherProps := by
  rw [List.mem_append]
  rcases pending_cases h ht with h | ⟨k, o, _, ⟨_, rfl⟩ | ⟨_, ht⟩⟩
  · exact .inr h
  · exact .inl (by simp [reachProps])
  · rcases policyTriples_cases ht with h | ⟨_, _, rfl⟩ | ⟨_, _, _, rfl⟩ | ⟨_, rule, _, ht⟩
    · exact .inr h
    · exact .inl (by simp [reachProps])
    · exact .inl (by simp [reachProps])
    · rcases ruleTriples_p ht with h | h <;> exact .inl (by simp [h, reachProps])

theorem props_not_subProperty : ∀ p ∈ reachProps ++ otherProps, p ≠ rdfs "subPropertyOf" := by
  simp [reachProps, otherProps]

theorem no_nodes (h : ClusterObjects input.objects) : (ctxOf input opts).ofKind "Node" = [] := by
  rw [Ctx.ofKind, List.map_eq_nil_iff, List.filter_eq_nil_iff]
  rintro ⟨k, o⟩ hmem hkind
  have hk := Std.ExtTreeMap.mem_toList_iff_getElem?_eq_some.mp hmem
  have hvalid := (h.validKey hk).kind
  rw [of_decide_eq_true hkind] at hvalid
  exact absurd hvalid (by decide)

/-- What reachability depends on is in the snapshot only. -/
theorem mem_workingSet (h : ClusterObjects input.objects) (hv : PlainVocab vocab) {q : Quad}
    (hq : workingSet (buildSnapshot x now input opts) vocab q) :
    q.p ≠ rdfs "subPropertyOf" ∧ (q.p ∈ reachProps →
      ∃ t ∈ (pendingSnapshot (ctxOf input opts) input opts.state).lines, t.p = q.p ∧
        q.s = rehashTerm (nameOf x input opts) t.s ∧ q.o = rehashTerm (nameOf x input opts) t.o) := by
  rcases hq with hq | hq | hq | hq
  · obtain ⟨t, ht, heq⟩ := Finset.mem_image.mp (Fragment.mem_quads.mp hq).2
    have hp := pending_props h ht
    have hsame : t.p = q.p := by
      have hrenamed : renamed (nameOf x input opts) t.p = t.p := renamed_of_no_g (props_no_g _ hp)
      rw [← hrenamed]
      exact congrArg Triple.p heq
    refine ⟨hsame ▸ props_not_subProperty _ hp, fun _ => ⟨t, ht, hsame, ?_, ?_⟩⟩
    · exact (congrArg Triple.s heq).symm
    · exact (congrArg Triple.o heq).symm
  · obtain ⟨t, ht, _⟩ := Finset.mem_image.mp (Fragment.mem_quads.mp hq).2
    rw [nodesFragment, Fragment.mem_ofTriples, no_nodes h] at ht
    cases ht
  · have hmem := (Fragment.mem_quads.mp hq).2
    simp only [buildSnapshot, Fragment.mem_ofTriples, List.mem_cons, List.not_mem_nil, or_false] at hmem
    rcases hmem with hmem | hmem
    · have hp : q.p = k8s "observedAt" := congrArg Triple.p hmem
      rw [hp]
      exact ⟨by simp, fun h => absurd h (by simp [reachProps])⟩
    · have hp : q.p = nix "hasFragment" := congrArg Triple.p hmem
      rw [hp]
      exact ⟨by simp, fun h => absurd h (by simp [reachProps])⟩
  · exact ⟨(hv q hq).1, fun hp => absurd hp (hv q hq).2⟩

theorem holds_of_pending {t : Triple} (ht : t ∈ (pendingSnapshot (ctxOf input opts) input opts.state).lines)
    (hp : 'G' ∉ t.p.toList) :
    Holds x now input opts b vocab ⟨.t, [.const (rehashTerm (nameOf x input opts) t.s),
      .const (.iri t.p), .const (rehashTerm (nameOf x input opts) t.o)]⟩ := by
  let snapshot := (buildSnapshot x now input opts).snapshot
  have hmem : rehashTriple (nameOf x input opts) t ∈ snapshot.lines := Finset.mem_image_of_mem _ ht
  have hquad : (rehashTriple (nameOf x input opts) t).inGraph snapshot.graph ∈ snapshot.quads :=
    Finset.mem_image_of_mem _ hmem
  have hfact : Holds x now input opts b vocab ⟨.t, _⟩ := (k8sWithDeps b).t_of_quad (.inl hquad)
  have hsame : renamed (nameOf x input opts) t.p = t.p := renamed_of_no_g hp
  rwa [← hsame]

set_option maxRecDepth 4000 in
theorem rulesOfT_subPropertyOf :
    (k8sWithDeps b).rulesOfT (rdfs "subPropertyOf") = [tRule, rdfs5Rule, rdfs7Rule] := rfl

/-- Nothing is derived to be a subproperty of anything. -/
theorem not_subProperty (h : ClusterObjects input.objects) (hv : PlainVocab vocab) {s o : Val} :
    ¬ Holds x now input opts b vocab ⟨.t, [s, .const (.iri (rdfs "subPropertyOf")), o]⟩ := by
  intro hholds
  refine (k8sWithDeps b).induction_pos (motive := fun _ _ => False) rfl ?_ hholds
  rw [rulesOfT_subPropertyOf]
  intro r hr s o hderives
  simp only [List.mem_cons, List.not_mem_nil, or_false] at hr
  rcases hr with rfl | rfl | rfl
  · obtain ⟨q, hq, hargs⟩ := (k8sWithDeps b).tRule_derives.mp (hderives.mono rfl fun _ hf => hf.1)
    simp only [List.cons.injEq, and_true, Datalog.Value.const.injEq, Term.iri.injEq] at hargs
    exact (mem_workingSet h hv hq).1 hargs.2.1.symm
  · obtain ⟨σ, hbody, _⟩ := clause_derives.mp hderives
    exact (hbody _ List.mem_cons_self).2 _ _ rfl
  · obtain ⟨σ, hbody, hhead⟩ := clause_derives.mp hderives
    have hsub := hbody _ (List.mem_cons_of_mem _ List.mem_cons_self)
    simp only [ground_atom, List.map_cons, List.map_nil, ground_var, Datalog.Fact.mk.injEq,
      List.cons.injEq, and_true, true_and] at hhead
    exact hsub.2 _ _ (by rw [ground_tr, ground_var, ground_var, hhead.2.1])

set_option maxRecDepth 4000 in
theorem rulesOfT_reachProps : ∀ p ∈ reachProps, (k8sWithDeps b).rulesOfT p = [tRule, rdfs7Rule] := by
  simp only [reachProps, List.forall_mem_cons, List.not_mem_nil, false_implies, implies_true, and_true]
  exact ⟨rfl, rfl, rfl, rfl, rfl⟩

/-- What reachability depends on is what the snapshot says. -/
theorem holds_iff (h : ClusterObjects input.objects) (hv : PlainVocab vocab) {p : Iri}
    (hp : p ∈ reachProps) {s o : Val} : Holds x now input opts b vocab ⟨.t, [s, .const (.iri p), o]⟩ ↔
      ∃ t ∈ (pendingSnapshot (ctxOf input opts) input opts.state).lines, t.p = p ∧
        s = .const (rehashTerm (nameOf x input opts) t.s) ∧
        o = .const (rehashTerm (nameOf x input opts) t.o) := by
  constructor
  · intro hholds
    obtain ⟨r, hr, hderives⟩ := (k8sWithDeps b).derived_t_iff.mp hholds
    rw [rulesOfT_reachProps p hp, List.mem_cons, List.mem_singleton] at hr
    rcases hr with rfl | rfl
    · obtain ⟨q, hq, hargs⟩ := (k8sWithDeps b).tRule_derives.mp hderives
      simp only [List.cons.injEq, and_true, Datalog.Value.const.injEq, Term.iri.injEq] at hargs
      obtain ⟨rfl, rfl, rfl⟩ := hargs
      obtain ⟨t, ht, hsame, hs, ho⟩ := (mem_workingSet h hv hq).2 hp
      exact ⟨t, ht, hsame, congrArg _ hs, congrArg _ ho⟩
    · obtain ⟨σ, hbody, hhead⟩ := clause_derives.mp hderives
      exact absurd (hbody _ (List.mem_cons_of_mem _ List.mem_cons_self)) (not_subProperty h hv)
  · rintro ⟨t, ht, rfl, rfl, rfl⟩
    exact holds_of_pending ht (props_no_g _ (List.mem_append_left _ hp))

/-! ## What the snapshot says -/

theorem Workload.valid (h : ClusterObjects input.objects) (w : Workload (ctxOf input opts)) :
    ValidKey w.key := h.validKey w.mem

theorem IngressPolicy.valid (h : ClusterObjects input.objects) (np : IngressPolicy (ctxOf input opts)) :
    ValidKey np.key := h.validKey np.mem

theorem workloadKinds_ne : ∀ kind ∈ workloadKinds, kind ≠ "Namespace" ∧ kind ≠ "NetworkPolicy" := by
  decide

/-- The namespace of a name. -/
def nsKey (ns : String) : Key := ⟨"Namespace", "", ns⟩

theorem validKey_nsKey {ns : String} (h : DnsName ns) : ValidKey (nsKey ns) :=
  ⟨List.mem_cons_self, h, rfl⟩

theorem Workload.objIri_eq (h : ClusterObjects input.objects) (w : Workload (ctxOf input opts)) :
    (ctxOf input opts).objIri (K8s.kind w.obj) (some w.key.ns) (name w.obj) = (ctxOf input opts).iriOf w.key := by
  obtain ⟨_, hkey, _⟩ := of_mem_index w.mem
  have hkind : K8s.kind w.obj = w.key.kind := congrArg Key.kind hkey
  have hname : name w.obj = w.key.name := congrArg Key.name hkey
  rw [Ctx.iriOf, h.nsOption_eq w.mem (workloadKinds_ne _ w.kind).1, hkind, hname]

/-- The workloads of a namespace, with what says that they are. -/
theorem mem_workloadsIn_iff {ns : String} {o : Json} : o ∈ (ctxOf input opts).workloadsIn ns ↔
    ∃ w : Workload (ctxOf input opts), w.obj = o ∧ w.key.ns = ns := by
  rw [mem_workloadsIn]
  constructor
  · rintro ⟨k, hk, hkind, hns, _⟩
    exact ⟨⟨k, o, hk, hkind⟩, rfl, hns⟩
  · rintro ⟨w, rfl, hns⟩
    obtain ⟨_, hkey, _⟩ := of_mem_index w.mem
    exact ⟨w.key, w.mem, w.kind, hns, congrArg Key.kind hkey, congrArg Key.name hkey⟩

theorem Workload.obj_eq {ctx : Ctx} {w w' : Workload ctx} (h : w.key = w'.key) : w = w' := by
  obtain ⟨k, o, hk, _⟩ := w
  obtain ⟨k', o', hk', _⟩ := w'
  cases h
  cases hk.symm.trans hk'
  rfl

/-- The statements on policies, by what they are about. -/
theorem says_cases (h : ClusterObjects input.objects) {t : Triple}
    (ht : t ∈ (pendingSnapshot (ctxOf input opts) input opts.state).lines) (hp : t.p ∈ reachProps) :
    let ctx := ctxOf input opts
    (∃ k o, ctx.index[k]? = some o ∧ k.kind ≠ "Namespace" ∧
      t = addIri (ctx.iriOf k) (k8s "inNamespace") (ctx.iriOf (nsKey k.ns))) ∨
    (∃ k o, ctx.index[k]? = some o ∧ k.kind = "NetworkPolicy" ∧ ∃ ty ∈ policyTypes o,
      t = addStr (ctx.iriOf k) (k8s "policyType") ty) ∨
    (∃ k o, ctx.index[k]? = some o ∧ k.kind = "NetworkPolicy" ∧ ∃ w : Workload ctx, w.key.ns = k.ns ∧
      Covers (o.path? ["spec", "podSelector"]) (podLabels w.obj) ∧
      t = addIri (ctx.iriOf k) (k8s "appliesTo") (ctx.iriOf w.key)) ∨
    ∃ np : IngressPolicy ctx, ∃ rule ∈ np.rules,
      (rulePeers rule = [] ∧ t = addBool (ctx.iriOf np.key) (k8s "allowsAllIngress") true) ∨
      ∃ peer ∈ rulePeers rule, ∃ ns ∈ peerNamespaces ctx np.key.ns peer,
        (∃ ps, peer.get? "podSelector" = some ps ∧ ∃ w : Workload ctx, w.key.ns = ns ∧
          Covers (some ps) (podLabels w.obj) ∧
          t = addIri (ctx.iriOf np.key) (k8s "allowsIngressFrom") (ctx.iriOf w.key)) ∨
        (peer.get? "podSelector" = none ∧
          t = addIri (ctx.iriOf np.key) (k8s "allowsIngressFrom") (ctx.iriOf (nsKey ns))) := by
  intro ctx
  rcases pending_cases h ht with hother | ⟨k, o, hk, ⟨hns, rfl⟩ | ⟨hkind, ht⟩⟩
  · exact absurd hp (reachProps_not_other _ hother)
  · exact .inl ⟨k, o, hk, hns, rfl⟩
  rcases policyTriples_cases ht with hother | ⟨ty, hty, rfl⟩ | ⟨w, hw, hsel, rfl⟩ |
    ⟨hingress, rule, hrule, ht⟩
  · exact absurd hp (reachProps_not_other _ hother)
  · exact .inr (.inl ⟨k, o, hk, hkind, ty, hty, rfl⟩)
  · obtain ⟨w, rfl, hns⟩ := mem_workloadsIn_iff.mp hw
    refine .inr (.inr (.inl ⟨k, o, hk, hkind, w, hns, selectorMatches_iff.mp hsel, ?_⟩))
    rw [← w.objIri_eq h, hns]
  · refine .inr (.inr (.inr ⟨⟨k, o, hk, hkind, hingress⟩, rule, hrule, ?_⟩))
    rcases mem_ruleTriples.mp ht with hall | ⟨peer, hpeer, ns, hns, ⟨ps, hps, w, hw, hsel, rfl⟩ | hnone⟩
    · exact .inl hall
    · obtain ⟨w, rfl, hnsw⟩ := mem_workloadsIn_iff.mp hw
      refine .inr ⟨peer, hpeer, ns, hns, .inl ⟨ps, hps, w, hnsw, selectorMatches_iff.mp hsel, ?_⟩⟩
      rw [← w.objIri_eq h, hnsw]
    · exact .inr ⟨peer, hpeer, ns, hns, .inr hnone⟩

theorem policyKinds_ne : ∀ kind ∈ policyKinds, kind ≠ "ReplicaSet" := by decide

theorem mem_pending_policy (h : ClusterObjects input.objects) {k : Key} {o : Json}
    (hk : (ctxOf input opts).index[k]? = some o) (hkind : k.kind = "NetworkPolicy") {t : Triple}
    (ht : t ∈ policyTriples (ctxOf input opts) k.ns (some k.ns) ((ctxOf input opts).iriOf k) o) :
    t ∈ (pendingSnapshot (ctxOf input opts) input opts.state).lines := by
  have hns : k.kind ≠ "Namespace" := by
    rw [hkind]
    decide
  apply mem_pending hk (policyKinds_ne _ (h.validKey hk).kind)
  apply kindTriples_subset
  rw [kindTriples, hkind, h.nsOption_eq hk hns]
  exact ht

theorem ent_inj {k k' : Key} (h : ValidKey k) (h' : ValidKey k') :
    ent x input opts k = ent x input opts k' ↔ k = k' := by
  rw [ent, ent, Datalog.Value.const.injEq, Term.iri.injEq, renamed_iriOf_inj h h']

/-- A statement on two objects, as the rules see it. -/
theorem holds_statement {k k' : Key} {p : Iri} (hp : p ∈ reachProps)
    (ht : addIri ((ctxOf input opts).iriOf k) p ((ctxOf input opts).iriOf k') ∈
      (pendingSnapshot (ctxOf input opts) input opts.state).lines) :
    Holds x now input opts b vocab ⟨.t, [ent x input opts k, .const (.iri p), ent x input opts k']⟩ :=
  holds_of_pending ht (props_no_g _ (List.mem_append_left _ hp))

theorem inNamespace_iff (h : ClusterObjects input.objects) (hv : PlainVocab vocab)
    (w : Workload (ctxOf input opts)) {v : Val} :
    Holds x now input opts b vocab ⟨.t, [ent x input opts w.key, .const (.iri (k8s "inNamespace")), v]⟩ ↔
      v = ent x input opts (nsKey w.key.ns) := by
  have hns : w.key.kind ≠ "Namespace" := (workloadKinds_ne _ w.kind).1
  constructor
  · intro hholds
    obtain ⟨t, ht, hp, hs, rfl⟩ := (holds_iff h hv (by simp [reachProps])).mp hholds
    rcases says_cases h ht (hp ▸ by simp [reachProps]) with ⟨k, o, hk, _, rfl⟩ |
      ⟨_, _, _, _, _, _, rfl⟩ | ⟨_, _, _, _, _, _, _, rfl⟩ |
      ⟨_, _, _, ⟨_, rfl⟩ | ⟨_, _, _, _, ⟨_, _, _, _, _, rfl⟩ | ⟨_, rfl⟩⟩⟩
    · obtain rfl := (ent_inj (w.valid h) (h.validKey hk)).mp hs
      rfl
    all_goals simp at hp
  · rintro rfl
    apply holds_statement (by simp [reachProps])
    apply mem_pending w.mem (policyKinds_ne _ (w.valid h).kind)
    simp only [objectTriples, List.mem_append]
    refine .inl (.inr ?_)
    rw [h.nsOption_eq w.mem hns]
    exact List.mem_singleton.mpr rfl

theorem appliesTo_iff (h : ClusterObjects input.objects) (hv : PlainVocab vocab)
    (w : Workload (ctxOf input opts)) {v : Val} :
    Holds x now input opts b vocab ⟨.t, [v, .const (.iri (k8s "appliesTo")), ent x input opts w.key]⟩ ↔
      ∃ k o, (ctxOf input opts).index[k]? = some o ∧ k.kind = "NetworkPolicy" ∧ v = ent x input opts k ∧
        w.key.ns = k.ns ∧ Covers (o.path? ["spec", "podSelector"]) (podLabels w.obj) := by
  constructor
  · intro hholds
    obtain ⟨t, ht, hp, rfl, ho⟩ := (holds_iff h hv (by simp [reachProps])).mp hholds
    rcases says_cases h ht (hp ▸ by simp [reachProps]) with ⟨_, _, _, _, rfl⟩ |
      ⟨_, _, _, _, _, _, rfl⟩ | ⟨k, o, hk, hkind, w', hns, hcovers, rfl⟩ |
      ⟨_, _, _, ⟨_, rfl⟩ | ⟨_, _, _, _, ⟨_, _, _, _, _, rfl⟩ | ⟨_, rfl⟩⟩⟩
    · simp at hp
    · simp at hp
    · cases Workload.obj_eq ((ent_inj (w.valid h) (w'.valid h)).mp ho)
      exact ⟨k, o, hk, hkind, rfl, hns, hcovers⟩
    all_goals simp at hp
  · rintro ⟨k, o, hk, hkind, rfl, hns, hcovers⟩
    apply holds_statement (by simp [reachProps])
    apply mem_pending_policy h hk hkind
    rw [← w.objIri_eq h, hns]
    exact mem_policyTriples_applies (mem_workloadsIn_iff.mpr ⟨w, rfl, hns⟩) (selectorMatches_iff.mpr hcovers)

def ingress : Nix2Rdf.Term := .literal "Ingress" (xsd "string")

theorem rehash_ingress {real ty : String} (hreal : 64 ≤ real.toList.length) :
    rehashTerm real (.literal ty (xsd "string")) = ingress ↔ ty = "Ingress" := by
  have hno : ¬ Text.Occurs placeholder "Ingress" := by
    intro hoccurs
    exact absurd (hoccurs.subset (show 'G' ∈ placeholder.toList by decide)) (by decide)
  have hxsd : Text.replace placeholder real (xsd "string") = xsd "string" :=
    renamed_of_no_g (by decide)
  have hshort : "Ingress".toList.length < real.toList.length := lt_of_lt_of_le (by decide) hreal
  simp only [rehashTerm, ingress, hxsd, Term.literal.injEq, and_true]
  exact Text.replace_eq_short (by decide) hno hshort

/-- Hashes are 64 hexadecimal digits. -/
def LongHashes (x : Extern) : Prop := ∀ bs, 64 ≤ (x.sha256Hex bs).toList.length

theorem policyType_iff (h : ClusterObjects input.objects) (hv : PlainVocab vocab) (hx : LongHashes x)
    {k : Key} {o : Json} (hk : (ctxOf input opts).index[k]? = some o) (hkind : k.kind = "NetworkPolicy") :
    Holds x now input opts b vocab ⟨.t, [ent x input opts k, .const (.iri (k8s "policyType")),
      .const ingress]⟩ ↔ "Ingress" ∈ policyTypes o := by
  constructor
  · intro hholds
    obtain ⟨t, ht, hp, hs, ho⟩ := (holds_iff h hv (by simp [reachProps])).mp hholds
    rcases says_cases h ht (hp ▸ by simp [reachProps]) with ⟨_, _, _, _, rfl⟩ |
      ⟨k', o', hk', _, ty, hty, rfl⟩ | ⟨_, _, _, _, _, _, _, rfl⟩ |
      ⟨_, _, _, ⟨_, rfl⟩ | ⟨_, _, _, _, ⟨_, _, _, _, _, rfl⟩ | ⟨_, rfl⟩⟩⟩
    · simp at hp
    · cases (ent_inj (h.validKey hk) (h.validKey hk')).mp hs
      cases hk.symm.trans hk'
      rwa [← (rehash_ingress (hx _)).mp (Datalog.Value.const.inj ho).symm]
    all_goals simp at hp
  · intro hty
    have hlit : rehashTerm (nameOf x input opts) (.literal "Ingress" (xsd "string")) = ingress :=
      (rehash_ingress (hx _)).mpr rfl
    rw [← hlit]
    exact holds_of_pending (mem_pending_policy h hk hkind (mem_policyTriples_type hty))
      (props_no_g (k8s "policyType") (by simp [reachProps]))

namespace IngressPolicy

variable (np : IngressPolicy (ctxOf input opts))

theorem obj_eq {np' : IngressPolicy (ctxOf input opts)} (h : np.key = np'.key) : np = np' := by
  obtain ⟨k, o, hk, _, _⟩ := np
  obtain ⟨k', o', hk', _, _⟩ := np'
  cases h
  cases hk.symm.trans hk'
  rfl

/-- What the policies of type `Ingress` say is in the snapshot. -/
theorem mem_pending_rule (h : ClusterObjects input.objects) {rule : Json} (hrule : rule ∈ np.rules)
    {t : Triple} (ht : t ∈ ruleTriples (ctxOf input opts) np.key.ns ((ctxOf input opts).iriOf np.key)
      (k8s "allowsIngressFrom") (k8s "allowsAllIngress") rule) :
    t ∈ (pendingSnapshot (ctxOf input opts) input opts.state).lines :=
  mem_pending_policy h np.mem np.kind (mem_policyTriples_rule np.types hrule ht)

theorem allowsAll_iff (h : ClusterObjects input.objects) (hv : PlainVocab vocab) :
    Holds x now input opts b vocab ⟨.t, [ent x input opts np.key, .const (.iri (k8s "allowsAllIngress")),
      .const (.literal "true" (xsd "boolean"))]⟩ ↔ ∃ rule ∈ np.rules, rulePeers rule = [] := by
  constructor
  · intro hholds
    obtain ⟨t, ht, hp, hs, _⟩ := (holds_iff h hv (by simp [reachProps])).mp hholds
    rcases says_cases h ht (hp ▸ by simp [reachProps]) with ⟨_, _, _, _, rfl⟩ |
      ⟨_, _, _, _, _, _, rfl⟩ | ⟨_, _, _, _, _, _, _, rfl⟩ |
      ⟨np', rule, hrule, ⟨hall, rfl⟩ | ⟨_, _, _, _, ⟨_, _, _, _, _, rfl⟩ | ⟨_, rfl⟩⟩⟩
    · simp at hp
    · simp at hp
    · simp at hp
    · cases np.obj_eq ((ent_inj (np.valid h) (np'.valid h)).mp hs)
      exact ⟨rule, hrule, hall⟩
    all_goals simp at hp
  · rintro ⟨rule, hrule, hall⟩
    have hlit : rehashTerm (nameOf x input opts) (.literal "true" (xsd "boolean"))
        = .literal "true" (xsd "boolean") :=
      congrArg₂ Term.literal (renamed_of_no_g (by decide)) (renamed_of_no_g (by decide))
    rw [← hlit]
    exact holds_of_pending (np.mem_pending_rule h hrule (mem_ruleTriples.mpr (.inl ⟨hall, rfl⟩)))
      (props_no_g (k8s "allowsAllIngress") (by simp [reachProps]))

/-- A rule has a peer for pods that covers the workload, or one for namespaces that covers its own. -/
theorem allowsFrom_iff (h : ClusterObjects input.objects) (hv : PlainVocab vocab) {v : Val} :
    Holds x now input opts b vocab
        ⟨.t, [ent x input opts np.key, .const (.iri (k8s "allowsIngressFrom")), v]⟩ ↔
      ∃ rule ∈ np.rules, ∃ peer ∈ rulePeers rule, ∃ ns ∈ peerNamespaces (ctxOf input opts) np.key.ns peer,
        (∃ ps, peer.get? "podSelector" = some ps ∧ ∃ w : Workload (ctxOf input opts), w.key.ns = ns ∧
          Covers (some ps) (podLabels w.obj) ∧ v = ent x input opts w.key) ∨
        (peer.get? "podSelector" = none ∧ v = ent x input opts (nsKey ns)) := by
  constructor
  · intro hholds
    obtain ⟨t, ht, hp, hs, rfl⟩ := (holds_iff h hv (by simp [reachProps])).mp hholds
    rcases says_cases h ht (hp ▸ by simp [reachProps]) with ⟨_, _, _, _, rfl⟩ |
      ⟨_, _, _, _, _, _, rfl⟩ | ⟨_, _, _, _, _, _, _, rfl⟩ |
      ⟨np', rule, hrule, ⟨_, rfl⟩ | ⟨peer, hpeer, ns, hns, ⟨ps, hps, w, hw, hcovers, rfl⟩ | ⟨hnone, rfl⟩⟩⟩
    · simp at hp
    · simp at hp
    · simp at hp
    · simp at hp
    · cases np.obj_eq ((ent_inj (np.valid h) (np'.valid h)).mp hs)
      exact ⟨rule, hrule, peer, hpeer, ns, hns, .inl ⟨ps, hps, w, hw, hcovers, rfl⟩⟩
    · cases np.obj_eq ((ent_inj (np.valid h) (np'.valid h)).mp hs)
      exact ⟨rule, hrule, peer, hpeer, ns, hns, .inr ⟨hnone, rfl⟩⟩
  · rintro ⟨rule, hrule, peer, hpeer, ns, hns, ⟨ps, hps, w, rfl, hcovers, rfl⟩ | ⟨hnone, rfl⟩⟩
    · apply holds_statement (by simp [reachProps])
      apply np.mem_pending_rule h hrule
      rw [← w.objIri_eq h]
      exact mem_ruleTriples.mpr (.inr ⟨peer, hpeer, _, hns, .inl ⟨ps, hps, w.obj,
        mem_workloadsIn_iff.mpr ⟨w, rfl, rfl⟩, selectorMatches_iff.mpr hcovers, rfl⟩⟩)
    · apply holds_statement (by simp [reachProps])
      apply np.mem_pending_rule h hrule
      exact mem_ruleTriples.mpr (.inr ⟨peer, hpeer, ns, hns, .inr ⟨hnone, rfl⟩⟩)

/-- Every namespace of a workload has its object, so that selectors for namespaces see it. -/
theorem mem_peerNamespaces (h : ClusterObjects input.objects) {peer : Json}
    {w : Workload (ctxOf input opts)} :
    w.key.ns ∈ peerNamespaces (ctxOf input opts) np.key.ns peer ↔ np.PeerCoversNs peer w := by
  rw [peerNamespaces, PeerCoversNs]
  cases peer.get? "namespaceSelector" with
  | none => exact List.mem_singleton
  | some sel =>
      obtain ⟨n, hn, _⟩ := h.namespace w.mem (workloadKinds_ne _ w.kind).1
      have hmeta : (ctxOf input opts).nsMeta[w.key.ns]? = some (labels n, annotations n) := by
        rw [ctxOf_nsMeta, hn]
        rfl
      have hlabels : (ctxOf input opts).nsLabels w.key.ns = labels n := by
        rw [Ctx.nsLabels, hn]
        rfl
      simp only [List.mem_map, List.mem_filter, Prod.exists, Std.ExtTreeMap.mem_toList_iff_getElem?_eq_some,
        hlabels, selectorMatches_iff]
      constructor
      · rintro ⟨ns, l, ann, ⟨hl, hcovers⟩, rfl⟩
        cases hl.symm.trans hmeta
        exact hcovers
      · intro hcovers
        exact ⟨_, _, _, ⟨hmeta, hcovers⟩, rfl⟩

theorem dnsName_of_peerNamespaces (h : ClusterObjects input.objects) {peer : Json} {ns : String}
    (hns : ns ∈ peerNamespaces (ctxOf input opts) np.key.ns peer) : DnsName ns := by
  have hkind : np.key.kind ≠ "Namespace" := by
    rw [np.kind]
    decide
  rw [peerNamespaces] at hns
  cases hsel : peer.get? "namespaceSelector" with
  | none =>
      rw [hsel, List.mem_singleton] at hns
      rw [hns]
      exact (h.namespace np.mem hkind).choose_spec.2
  | some sel =>
      simp only [hsel, List.mem_map, List.mem_filter, Prod.exists,
        Std.ExtTreeMap.mem_toList_iff_getElem?_eq_some, ctxOf_nsMeta, Option.map_eq_some_iff] at hns
      obtain ⟨_, _, _, ⟨⟨n, hn, _⟩, _⟩, rfl⟩ := hns
      exact (h.validKey hn).name

end IngressPolicy

/-! ## What the rules derive -/

section Rules

variable (h : ClusterObjects input.objects) (hv : PlainVocab vocab) (hx : LongHashes x)

theorem rename_k8s {term : String} (hterm : 'G' ∉ (k8s term).toList) :
    rehashTerm (nameOf x input opts) (.iri (k8s term)) = .iri (k8s term) :=
  congrArg Term.iri (renamed_of_no_g hterm)

include h in
theorem workload_holds (w : Workload (ctxOf input opts)) :
    Holds x now input opts b vocab ⟨.kWorkload, [ent x input opts w.key]⟩ := by
  have hrules : (k8sWithDeps b).rulesFor .kWorkload =
    [narrowTo .kWorkload rdfType (iri (k8s "Workload"))] := rfl
  rw [Holds, (k8sWithDeps b).narrowTo_iff hrules (by simp), ← rename_k8s (by decide)]
  refine holds_of_pending (t := addType _ _) ?_ (props_no_g rdfType (by simp [otherProps]))
  apply mem_pending w.mem (policyKinds_ne _ (w.valid h).kind)
  apply kindTriples_subset
  have hkind := w.kind
  simp only [workloadKinds, List.mem_cons, List.not_mem_nil, or_false] at hkind
  unfold kindTriples
  rcases hkind with hkind | hkind | hkind | hkind | hkind <;> rw [hkind] <;> simp [workloadTriples]

include h in
theorem namespace_holds (w : Workload (ctxOf input opts)) :
    Holds x now input opts b vocab ⟨.kNamespace, [ent x input opts (nsKey w.key.ns)]⟩ := by
  have hrules : (k8sWithDeps b).rulesFor .kNamespace =
    [narrowTo .kNamespace rdfType (iri (k8s "Namespace"))] := rfl
  rw [Holds, (k8sWithDeps b).narrowTo_iff hrules (by simp), ← rename_k8s (by decide)]
  obtain ⟨n, hn, _⟩ := h.namespace w.mem (workloadKinds_ne _ w.kind).1
  refine holds_of_pending (t := addType _ _) ?_ (props_no_g rdfType (by simp [otherProps]))
  refine mem_pending hn (by decide : "Namespace" ≠ "ReplicaSet") (kindTriples_subset ?_)
  simp only [kindTriples, namespaceTriples, List.append_assoc]
  exact List.mem_cons_self

include h in
theorem sameCluster_holds (a w : Workload (ctxOf input opts)) :
    Holds x now input opts b vocab ⟨.sameCluster, [ent x input opts a.key, ent x input opts w.key]⟩ := by
  let cluster : Val := .const (rehashTerm (nameOf x input opts) (.iri (Iri.k8sCluster opts.clusterId)))
  have hcluster : ∀ w : Workload (ctxOf input opts),
      Holds x now input opts b vocab ⟨.wCluster, [ent x input opts w.key, cluster]⟩ := by
    intro w
    have hin : (k8sWithDeps b).rulesFor .kInCluster = [narrow .kInCluster (k8s "inCluster")] := rfl
    have hrules : (k8sWithDeps b).rulesFor .wCluster = [clause (atom .wCluster [var "w", var "cl"])
      [atom .kWorkload [var "w"], atom .kInCluster [var "w", var "cl"]]] := rfl
    have hmember : Holds x now input opts b vocab ⟨.kInCluster, [ent x input opts w.key, cluster]⟩ := by
      rw [Holds, (k8sWithDeps b).narrow_iff hin (by simp)]
      refine holds_of_pending (t := addIri _ (k8s "inCluster") _) ?_
        (props_no_g (k8s "inCluster") (by simp [otherProps]))
      apply mem_pending w.mem (policyKinds_ne _ (w.valid h).kind)
      simp only [objectTriples, List.mem_append]
      exact .inl (.inl (.inr (List.mem_singleton.mpr rfl)))
    rw [Holds, (k8sWithDeps b).derived_iff_one hrules (by simp)]
    exact ⟨.of cluster [("w", ent x input opts w.key)], by simpa using ⟨workload_holds h w, hmember⟩, by simp⟩
  have hrules : (k8sWithDeps b).rulesFor .sameCluster = [clause (atom .sameCluster [var "a", var "b"])
    [atom .wCluster [var "a", var "cl"], atom .wCluster [var "b", var "cl"]]] := rfl
  rw [Holds, (k8sWithDeps b).derived_iff_one hrules (by simp)]
  refine ⟨.of cluster [("a", ent x input opts a.key), ("b", ent x input opts w.key)], ?_, by simp⟩
  simpa using ⟨hcluster a, hcluster w⟩

include h hv hx in
/-- A policy of type `Ingress` applies to the workload. -/
theorem selects_iff {w : Workload (ctxOf input opts)} {v : Val} :
    (Holds x now input opts b vocab ⟨.kAppliesTo, [v, ent x input opts w.key]⟩ ∧
        Holds x now input opts b vocab ⟨.ingressPolicy, [v]⟩) ↔
      ∃ np : IngressPolicy (ctxOf input opts), v = ent x input opts np.key ∧ np.Selects w := by
  have happlies : Holds x now input opts b vocab ⟨.kAppliesTo, [v, ent x input opts w.key]⟩ ↔
      Holds x now input opts b vocab ⟨.t, [v, .const (.iri (k8s "appliesTo")), ent x input opts w.key]⟩ :=
    (k8sWithDeps b).narrow_iff rfl (by simp)
  have htype : (k8sWithDeps b).rulesFor .kPolicyType = [narrow .kPolicyType (k8s "policyType")] := rfl
  have hrules : (k8sWithDeps b).rulesFor .ingressPolicy = [clause (atom .ingressPolicy [var "np"])
    [atom .kPolicyType [var "np", str "Ingress"]]] := rfl
  have hingress : ∀ v, Holds x now input opts b vocab ⟨.ingressPolicy, [v]⟩ ↔
      Holds x now input opts b vocab ⟨.t, [v, .const (.iri (k8s "policyType")), .const ingress]⟩ := by
    intro v
    rw [Holds, (k8sWithDeps b).derived_iff_one hrules (by simp), ← (k8sWithDeps b).narrow_iff htype (by simp)]
    constructor
    · rintro ⟨σ, hbody, hhead⟩
      simp only [ground_atom, List.map_cons, List.map_nil, ground_var, Datalog.Fact.mk.injEq,
        List.cons.injEq, and_true, true_and] at hhead
      simpa [hhead, ingress] using hbody _ List.mem_cons_self
    · intro htypes
      exact ⟨.of v [], by simpa [ingress] using htypes, by simp⟩
  rw [hingress, happlies, appliesTo_iff h hv]
  constructor
  · rintro ⟨⟨k, o, hk, hkind, rfl, hns, hcovers⟩, htypes⟩
    have htypes := (policyType_iff h hv hx hk hkind).mp htypes
    exact ⟨⟨k, o, hk, hkind, htypes⟩, rfl, hns, hcovers⟩
  · rintro ⟨np, rfl, hns, hcovers⟩
    exact ⟨⟨np.key, np.obj, np.mem, np.kind, rfl, hns, hcovers⟩,
      (policyType_iff h hv hx np.mem np.kind).mpr np.types⟩

include h hv in
/-- The peers of a policy cover the workload itself or its namespace, or the policy allows everyone. -/
theorem lists_iff_holds {np : IngressPolicy (ctxOf input opts)} {w : Workload (ctxOf input opts)} :
    np.Lists w ↔
      Holds x now input opts b vocab ⟨.t, [ent x input opts np.key, .const (.iri (k8s "allowsIngressFrom")),
        ent x input opts w.key]⟩ ∨
      Holds x now input opts b vocab ⟨.t, [ent x input opts np.key, .const (.iri (k8s "allowsIngressFrom")),
        ent x input opts (nsKey w.key.ns)]⟩ ∨
      Holds x now input opts b vocab ⟨.t, [ent x input opts np.key, .const (.iri (k8s "allowsAllIngress")),
        .const (.literal "true" (xsd "boolean"))]⟩ := by
  obtain ⟨_, _, hdns⟩ := h.namespace w.mem (workloadKinds_ne _ w.kind).1
  have hne : ∀ (w : Workload (ctxOf input opts)) (ns : String), w.key ≠ nsKey ns := by
    intro w ns heq
    exact (workloadKinds_ne _ w.kind).1 (congrArg Key.kind heq)
  rw [np.allowsFrom_iff h hv, np.allowsFrom_iff h hv, np.allowsAll_iff h hv]
  constructor
  · rintro ⟨rule, hrule, hall | ⟨peer, hpeer, hns, hcovers⟩⟩
    · exact .inr (.inr ⟨rule, hrule, hall⟩)
    · have hns := (np.mem_peerNamespaces h).mpr hns
      cases hps : peer.get? "podSelector" with
      | some ps =>
          exact .inl ⟨rule, hrule, peer, hpeer, _, hns, .inl ⟨ps, hps, w, rfl, hps ▸ hcovers, rfl⟩⟩
      | none => exact .inr (.inl ⟨rule, hrule, peer, hpeer, _, hns, .inr ⟨hps, rfl⟩⟩)
  · rintro (⟨rule, hrule, peer, hpeer, ns, hns, hsaid⟩ | ⟨rule, hrule, peer, hpeer, ns, hns, hsaid⟩ |
      ⟨rule, hrule, hall⟩)
    · refine ⟨rule, hrule, .inr ⟨peer, hpeer, ?_⟩⟩
      rcases hsaid with ⟨ps, hps, w', rfl, hcovers, hent⟩ | ⟨_, hent⟩
      · cases Workload.obj_eq ((ent_inj (w.valid h) (w'.valid h)).mp hent)
        exact ⟨(np.mem_peerNamespaces h).mp hns, hps ▸ hcovers⟩
      · have hvalid := validKey_nsKey (np.dnsName_of_peerNamespaces h hns)
        exact absurd ((ent_inj (w.valid h) hvalid).mp hent) (hne w ns)
    · refine ⟨rule, hrule, .inr ⟨peer, hpeer, ?_⟩⟩
      rcases hsaid with ⟨_, _, w', rfl, _, hent⟩ | ⟨hnone, hent⟩
      · exact absurd ((ent_inj (validKey_nsKey hdns) (w'.valid h)).mp hent).symm (hne w' _)
      · have hvalid := validKey_nsKey (np.dnsName_of_peerNamespaces h hns)
        have hsame : w.key.ns = ns := congrArg Key.name ((ent_inj (validKey_nsKey hdns) hvalid).mp hent)
        refine ⟨(np.mem_peerNamespaces h).mp (hsame ▸ hns), ?_⟩
        rw [hnone]
        simp [Covers]
    · exact ⟨rule, hrule, .inl hall⟩

/-- The effective reachability of the target from the source, in the final layer. -/
abbrev Reaches (x : Extern) (now : String) (input : SnapshotInput) (opts : SnapshotOptions) (b : Builtins)
    (vocab : Quad → Prop) (a c : Workload (ctxOf input opts)) : Prop :=
  Holds x now input opts b vocab ⟨.out, [ent x input opts a.key, .const (.iri (k8s "effectiveReachability")),
    ent x input opts c.key]⟩

set_option maxRecDepth 4000 in
theorem rulesOfOut_effectiveReachability :
    (k8sWithDeps b).rulesOfOut (k8s "effectiveReachability") = k8sReachability.drop 4 := rfl

include h hv hx in
theorem hasIngressPolicy_iff {w : Workload (ctxOf input opts)} :
    Holds x now input opts b vocab ⟨.hasIngressPolicy, [ent x input opts w.key]⟩ ↔
      ∃ np : IngressPolicy (ctxOf input opts), np.Selects w := by
  have hrules : (k8sWithDeps b).rulesFor .hasIngressPolicy = [clause (atom .hasIngressPolicy [var "w"])
    [atom .kAppliesTo [var "np", var "w"], atom .ingressPolicy [var "np"]]] := rfl
  rw [Holds, (k8sWithDeps b).derived_iff_one hrules (by simp)]
  constructor
  · rintro ⟨σ, hbody, hhead⟩
    simp only [List.forall_mem_cons, Datalog.Literal.holds_pos, ground_atom, List.map_cons,
      List.map_nil, ground_var, Datalog.Fact.mk.injEq, List.cons.injEq, and_true, true_and] at hbody hhead
    rw [hhead] at hbody
    obtain ⟨np, _, hsel⟩ := (selects_iff h hv hx).mp ⟨hbody.1, hbody.2.1⟩
    exact ⟨np, hsel⟩
  · rintro ⟨np, hsel⟩
    refine ⟨.of (ent x input opts np.key) [("w", ent x input opts w.key)], ?_, by simp⟩
    simpa using (selects_iff h hv hx).mpr ⟨np, rfl, hsel⟩

include h hv hx in
/-- The rules derive what the policies list. -/
theorem reaches_iff {a c : Workload (ctxOf input opts)} : Reaches x now input opts b vocab a c ↔
    (∀ np : IngressPolicy (ctxOf input opts), ¬ np.Selects c) ∨
      ∃ np : IngressPolicy (ctxOf input opts), np.Selects c ∧ np.Lists a := by
  have hall : ∀ v, Holds x now input opts b vocab ⟨.kAllowsAllIngress, [v]⟩ ↔ Holds x now input opts b vocab
      ⟨.t, [v, .const (.iri (k8s "allowsAllIngress")), .const (.literal "true" (xsd "boolean"))]⟩ :=
    fun _ => (k8sWithDeps b).narrowTo_iff rfl (by simp)
  have hfrom : ∀ v w, Holds x now input opts b vocab ⟨.kAllowsIngressFrom, [v, w]⟩ ↔
      Holds x now input opts b vocab ⟨.t, [v, .const (.iri (k8s "allowsIngressFrom")), w]⟩ :=
    fun _ _ => (k8sWithDeps b).narrow_iff rfl (by simp)
  have hin : ∀ v w, Holds x now input opts b vocab ⟨.kInNamespace, [v, w]⟩ ↔
      Holds x now input opts b vocab ⟨.t, [v, .const (.iri (k8s "inNamespace")), w]⟩ :=
    fun _ _ => (k8sWithDeps b).narrow_iff rfl (by simp)
  have hout : Reaches x now input opts b vocab a c ↔ ∃ r ∈ k8sReachability.drop 4,
      r.Derives (Holds x now input opts b vocab)
        ⟨.out, [ent x input opts a.key, .const (.iri (k8s "effectiveReachability")), ent x input opts c.key]⟩ := by
    rw [← rulesOfOut_effectiveReachability]
    exact (k8sWithDeps b).derived_out_iff
  rw [hout]
  simp only [k8sReachability, List.drop_succ_cons, List.drop_zero, List.mem_cons, List.not_mem_nil, or_false,
    exists_eq_or_imp, exists_eq_left]
  simp only [clause_derives, List.forall_mem_cons, Datalog.Literal.holds_pos, Datalog.Literal.holds_neg,
    ground_atom, ground_ou, List.map_cons, List.map_nil, ground_var, hall, hfrom, hin,
    Datalog.Fact.mk.injEq, List.cons.injEq, and_true, true_and]
  constructor
  · rintro (⟨σ, ⟨_, hnone, _⟩, _, hc⟩ | ⟨σ, ⟨happlies, hty, hsaid, _⟩, ha, hc⟩ |
      ⟨σ, ⟨happlies, hty, hsaid, _, hns, _⟩, ha, hc⟩ | ⟨σ, ⟨happlies, hty, hsaid, _⟩, _, hc⟩)
    · rw [hc, hasIngressPolicy_iff h hv hx] at hnone
      exact .inl fun np hsel => hnone ⟨np, hsel⟩
    all_goals
      rw [hc] at happlies
      obtain ⟨np, hnp, hsel⟩ := (selects_iff h hv hx).mp ⟨happlies, hty⟩
      rw [hnp] at hsaid
    · rw [ha] at hsaid
      exact .inr ⟨np, hsel, (lists_iff_holds h hv).mpr (.inl hsaid)⟩
    · rw [ha, inNamespace_iff h hv] at hns
      rw [hns] at hsaid
      exact .inr ⟨np, hsel, (lists_iff_holds h hv).mpr (.inr (.inl hsaid))⟩
    · exact .inr ⟨np, hsel, (lists_iff_holds h hv).mpr (.inr (.inr hsaid))⟩
  · rintro (hnone | ⟨np, hsel, hlists⟩)
    · refine .inl ⟨.of (ent x input opts c.key) [("a", ent x input opts a.key)], ?_, by simp⟩
      simp only [Datalog.Valuation.of_cons, Datalog.Valuation.of_nil]
      exact ⟨by simpa using sameCluster_holds h a c,
        by simpa [hasIngressPolicy_iff h hv hx] using hnone, by simp⟩
    · obtain ⟨happlies, hty⟩ := (selects_iff h hv hx).mpr ⟨np, rfl, hsel⟩
      rcases (lists_iff_holds h hv).mp hlists with hsaid | hsaid | hsaid
      · refine .inr (.inl ⟨.of (ent x input opts np.key) [("a", ent x input opts a.key),
          ("b", ent x input opts c.key)], ?_, by simp⟩)
        simpa using ⟨happlies, hty, hsaid, workload_holds h a⟩
      · refine .inr (.inr (.inl ⟨.of (ent x input opts np.key) [("a", ent x input opts a.key),
          ("b", ent x input opts c.key), ("ns", ent x input opts (nsKey a.key.ns))], ?_, by simp⟩))
        simpa using ⟨happlies, hty, hsaid, namespace_holds h a, (inNamespace_iff h hv a).mpr rfl,
          workload_holds h a⟩
      · refine .inr (.inr (.inr ⟨.of (ent x input opts np.key) [("a", ent x input opts a.key),
          ("b", ent x input opts c.key)], ?_, by simp⟩))
        simpa using ⟨happlies, hty, hsaid, sameCluster_holds h a c⟩

end Rules

end Facts

/-- Effective reachability is what the policies say exactly when no `ipBlock` makes a difference. -/
theorem reaches_exact_iff {x : Extern} {now : String} {input : SnapshotInput} {opts : SnapshotOptions}
    {b : Builtins} {vocab : Quad → Prop} (h : ClusterObjects input.objects) (hv : PlainVocab vocab)
    (hx : LongHashes x) (v w : Workload (ctxOf input opts)) :
    (Reaches x now input opts b vocab v w ↔ Reachable v w) ↔ IpBlocksHarmless v w := by
  rw [reaches_iff h hv hx]
  exact lists_iff_reachable

/-! ## A namespace with one policy -/

/-- The hash is that of the snapshot below; the empty text is that of a cluster without nodes. -/
def shopExtern (hash : String) : Extern where
  sha256Hex bs :=
    if bs.isEmpty then "e3b0c44298fc1c149afbf4c8996fb92427ae41e4649b934ca495991b7852b855" else hash
  parseJson _ := none
  stack := 8

theorem shopExtern_longHashes {hash : String} (h : hash.toList.length = 64) :
    LongHashes (shopExtern hash) := by
  intro bs
  simp only [shopExtern]
  split
  · decide
  · exact h.ge

/-- Part of the vocabulary of the k8s pack. -/
def shopVocab : List Quad :=
  [⟨"pack", .iri (k8s "inNamespace"), rdfs "range", .iri (k8s "Namespace")⟩,
    ⟨"pack", .iri (k8s "Deployment"), rdfs "subClassOf", .iri (k8s "Workload")⟩]

theorem shopVocab_plain : PlainVocab (· ∈ shopVocab) := by
  have hall : ∀ q ∈ shopVocab, q.p ≠ rdfs "subPropertyOf" ∧ q.p ∉ reachProps := by
    simp [shopVocab, reachProps]
  exact hall

def shopOptions : SnapshotOptions := { clusterId := "test", state := .desired }

def deployment (n : String) : Json :=
  .obj [("apiVersion", .str "apps/v1"), ("kind", .str "Deployment"),
    ("metadata", .obj [("name", .str n), ("namespace", .str "shop")]),
    ("spec", .obj [("template", .obj [("metadata", .obj [("labels", .obj [("app", .str n)])])])])]

def shopPolicy (peer : Json) : Json :=
  .obj [("kind", .str "NetworkPolicy"),
    ("metadata", .obj [("name", .str "db-ingress"), ("namespace", .str "shop")]),
    ("spec", .obj [("podSelector", .obj [("matchLabels", .obj [("app", .str "db")])]),
      ("policyTypes", .arr [.str "Ingress"]),
      ("ingress", .arr [.obj [("from", .arr [peer])]])])]

/-- A database that admits one peer, and something beside it. -/
def shop (peer : Json) : SnapshotInput where
  objects :=
    [.obj [("kind", .str "Namespace"), ("metadata", .obj [("name", .str "shop")])],
      deployment "web", deployment "db", shopPolicy peer]

def ipBlockPeer : Json := .obj [("ipBlock", .obj [("cidr", .str "10.0.0.0/8")])]

def podPeer : Json := .obj [("podSelector", .obj [("matchLabels", .obj [("app", .str "web")])])]

instance : DecidablePred DnsName := fun s =>
  @instDecidableAnd _ _ inferInstance (List.decidableBAll _ s.toList)

theorem shop_cluster {peer : Json} (h : peer = ipBlockPeer ∨ peer = podPeer) :
    ClusterObjects (shop peer).objects := by
  rcases h with rfl | rfl
  · exact ⟨by decide, by decide, by decide⟩
  · exact ⟨by decide, by decide, by decide⟩

theorem of_mem_shop {peer : Json} {k : Key} {o : Json}
    (hk : (ctxOf (shop peer) shopOptions).index[k]? = some o) :
    (k = ⟨"Namespace", "", "shop"⟩) ∨ (k = ⟨"Deployment", "shop", "web"⟩ ∧ o = deployment "web") ∨
      (k = ⟨"Deployment", "shop", "db"⟩ ∧ o = deployment "db") ∨
      (k = ⟨"NetworkPolicy", "shop", "db-ingress"⟩ ∧ o = shopPolicy peer) := by
  obtain ⟨hmem, hkey, _⟩ := of_mem_index hk
  simp only [shop, List.mem_cons, List.not_mem_nil, or_false] at hmem
  rcases hmem with rfl | rfl | rfl | rfl
  · exact .inl hkey.symm
  · exact .inr (.inl ⟨hkey.symm, rfl⟩)
  · exact .inr (.inr (.inl ⟨hkey.symm, rfl⟩))
  · exact .inr (.inr (.inr ⟨hkey.symm, rfl⟩))

theorem exists_shop_workload (peer : Json) {n : String} (hn : n = "web" ∨ n = "db") :
    ∃ w : Workload (ctxOf (shop peer) shopOptions), w.key = ⟨"Deployment", "shop", n⟩ ∧
      w.obj = deployment n := by
  have hmem : deployment n ∈ (shop peer).objects := by
    rcases hn with rfl | rfl <;> simp [shop]
  have hok : Indexable (deployment n) := by
    rcases hn with rfl | rfl <;> decide
  have hkey : keyOf (deployment n) = ⟨"Deployment", "shop", n⟩ := rfl
  obtain ⟨o, ho⟩ := exists_indexOf hmem hok
  rw [hkey] at ho
  refine ⟨⟨_, o, ho, List.mem_cons_self⟩, rfl, ?_⟩
  rcases of_mem_shop ho with h | ⟨h, rfl⟩ | ⟨h, rfl⟩ | ⟨h, _⟩
  · exact absurd (congrArg Key.kind h) (by simp)
  · exact congrArg deployment (congrArg Key.name h).symm
  · exact congrArg deployment (congrArg Key.name h).symm
  · exact absurd (congrArg Key.kind h) (by simp)

theorem exists_shop_ingressPolicy (peer : Json) :
    ∃ np : IngressPolicy (ctxOf (shop peer) shopOptions), np.key.ns = "shop" ∧ np.obj = shopPolicy peer := by
  have hmem : shopPolicy peer ∈ (shop peer).objects := by simp [shop]
  have hkind : kind (shopPolicy peer) = "NetworkPolicy" := rfl
  have hok : Indexable (shopPolicy peer) := by
    rw [Indexable, hkind]
    decide
  have hkey : keyOf (shopPolicy peer) = ⟨"NetworkPolicy", "shop", "db-ingress"⟩ := rfl
  obtain ⟨o, ho⟩ := exists_indexOf hmem hok
  rw [hkey] at ho
  rcases of_mem_shop ho with h | ⟨h, _⟩ | ⟨h, _⟩ | ⟨_, rfl⟩
  · exact absurd (congrArg Key.kind h) (by decide)
  · exact absurd (congrArg Key.kind h) (by decide)
  · exact absurd (congrArg Key.kind h) (by decide)
  · exact ⟨⟨_, _, ho, rfl, List.mem_cons_self⟩, rfl, rfl⟩

theorem shop_rules {peer : Json} (np : IngressPolicy (ctxOf (shop peer) shopOptions)) :
    np.rules = [.obj [("from", .arr [peer])]] := by
  rcases of_mem_shop np.mem with h | ⟨h, _⟩ | ⟨h, _⟩ | ⟨_, hobj⟩
  · exact absurd (np.kind.symm.trans (congrArg Key.kind h)) (by decide)
  · exact absurd (np.kind.symm.trans (congrArg Key.kind h)) (by decide)
  · exact absurd (np.kind.symm.trans (congrArg Key.kind h)) (by decide)
  · rw [IngressPolicy.rules, hobj]
    rfl

theorem mem_shop_peers {peer rule : Json} (hrule : rule ∈ [Json.obj [("from", .arr [peer])]]) :
    rulePeers rule = [peer] := by
  cases List.mem_singleton.mp hrule
  rfl

/-- A peer for pods leaves nothing to `ipBlock`s. -/
theorem reaches_exact_iff_shop : ∃ v w : Workload (ctxOf (shop podPeer) shopOptions),
    v.obj = deployment "web" ∧ w.obj = deployment "db" ∧
      (Reaches (shopExtern "ba413bccb05b8b98c055dc9e42ec38774c064b77c69d34c3b727fa4c2364654b")
        "2026-01-01T00:00:00Z" (shop podPeer) shopOptions noBuiltins (· ∈ shopVocab) v w ↔ Reachable v w) := by
  obtain ⟨v, _, hv⟩ := exists_shop_workload podPeer (.inl rfl)
  obtain ⟨w, _, hw⟩ := exists_shop_workload podPeer (.inr rfl)
  refine ⟨v, w, hv, hw, (reaches_exact_iff (shop_cluster (.inr rfl)) shopVocab_plain
    (shopExtern_longHashes (by decide)) v w).mpr ?_⟩
  rintro np - ⟨rule, hrule, peer, hpeer, _, _, hnone⟩
  rw [shop_rules] at hrule
  rw [mem_shop_peers hrule, List.mem_singleton] at hpeer
  rw [hpeer] at hnone
  cases hnone

/-- A workload beside the database reaches it, though the policy admits addresses only. -/
theorem reaches_through_ipBlock : ∃ v w : Workload (ctxOf (shop ipBlockPeer) shopOptions),
    Reaches (shopExtern "e18531ec03aba4f110aa30e19a3f0e50d3734bfb399261e071efd57cc860282a")
        "2026-01-01T00:00:00Z" (shop ipBlockPeer) shopOptions noBuiltins (· ∈ shopVocab) v w ∧
      ¬ Reachable v w := by
  obtain ⟨v, hvkey, _⟩ := exists_shop_workload ipBlockPeer (.inl rfl)
  obtain ⟨w, hwkey, hw⟩ := exists_shop_workload ipBlockPeer (.inr rfl)
  obtain ⟨np, hns, hobj⟩ := exists_shop_ingressPolicy ipBlockPeer
  have hselects : np.Selects w := by
    refine ⟨(congrArg Key.ns hwkey).trans hns.symm, selectorMatches_iff.mp ?_⟩
    rw [hobj, hw]
    decide
  refine ⟨v, w, ?_, ?_⟩
  · rw [reaches_iff (shop_cluster (.inl rfl)) shopVocab_plain (shopExtern_longHashes (by decide))]
    refine .inr ⟨np, hselects, np.lists_iff.mpr (.inr ⟨(congrArg Key.ns hvkey).trans hns.symm, ?_⟩)⟩
    rw [IngressPolicy.HasIpBlock, shop_rules]
    exact ⟨_, List.mem_cons_self, ipBlockPeer, List.mem_cons_self, rfl, rfl, rfl⟩
  · rintro (hnone | ⟨np', _, rule, hrule, hall | ⟨peer, hpeer, hip, _⟩⟩)
    · exact hnone np hselects
    · rw [shop_rules] at hrule
      rw [mem_shop_peers hrule] at hall
      cases hall
    · rw [shop_rules] at hrule
      rw [mem_shop_peers hrule, List.mem_singleton] at hpeer
      rw [hpeer] at hip
      exact hip ⟨rfl, rfl, rfl⟩

end Nix2Rdf.K8s
