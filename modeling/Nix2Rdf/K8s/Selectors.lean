import Nix2Rdf.K8s.Reach

/-!
# Label selectors

What a label selector means in Kubernetes, and the edges of a snapshot that go by one: disruption
budgets, aggregated roles, and the subjects and peers of network policies.
-/

namespace Nix2Rdf.K8s

open Text (slash)
open Triple

/-! ## Requirements -/

inductive Operator where
  | isIn
  | notIn
  | present
  | absent
  deriving DecidableEq, Repr

def Operator.text : Operator → String
  | .isIn => "In"
  | .notIn => "NotIn"
  | .present => "Exists"
  | .absent => "DoesNotExist"

structure Requirement where
  key : String
  operator : Operator
  values : List String

structure LabelSelector where
  matchLabels : Labels
  matchExpressions : List Requirement

def Requirement.Holds (labels : Labels) (r : Requirement) : Prop :=
  match r.operator with
  | .isIn => ∃ v ∈ r.values, labels[r.key]? = some v
  | .notIn => ∀ v ∈ r.values, labels[r.key]? ≠ some v
  | .present => ∃ v, labels[r.key]? = some v
  | .absent => labels[r.key]? = none

/-- All requirements hold; a selector without any holds of all labels. -/
def LabelSelector.Holds (sel : LabelSelector) (labels : Labels) : Prop :=
  (∀ kv ∈ sel.matchLabels.toList, labels[kv.1]? = some kv.2) ∧ ∀ r ∈ sel.matchExpressions, r.Holds labels

def LabelSelector.IsEmpty (sel : LabelSelector) : Prop := sel.matchLabels = ∅ ∧ sel.matchExpressions = []

structure Requirement.Encodes (e : Json) (r : Requirement) : Prop where
  key : s e ["key"] = some r.key
  operator : s e ["operator"] = some r.operator.text
  values : arr e ["values"] = r.values.map .str

/-- A JSON value that is a label selector. -/
structure Encodes (v : Json) (sel : LabelSelector) : Prop where
  isObj : v.isObj = true
  strings : ∀ o, v.get? "matchLabels" = some o → ∀ kv ∈ o.entries, ∃ t, kv.2 = .str t
  matchLabels : map v ["matchLabels"] = sel.matchLabels
  matchExpressions : List.Forall₂ Requirement.Encodes (arr v ["matchExpressions"]) sel.matchExpressions

variable {v : Json} {sel : LabelSelector} {labels : Labels}

theorem meets_iff {e : Json} {r : Requirement} (h : r.Encodes e) : Meets labels e ↔ r.Holds labels := by
  have hop : operator e = r.operator.text := by rw [operator, h.operator, Option.getD_some]
  have hoperand : operand labels e = labels[r.key]? := by rw [operand, h.key, Option.getD_some]
  have hvalues : values e = r.values := by
    rw [values, h.values, List.filterMap_map]
    exact List.filterMap_some
  unfold Requirement.Holds
  constructor
  · intro hm
    cases hm with
    | isIn hop' hv hmem =>
        rw [hop] at hop'
        rw [hoperand] at hv
        rw [hvalues] at hmem
        cases hr : r.operator <;> rw [hr] at hop' <;> first | exact ⟨_, hmem, hv⟩ | exact absurd hop' (by decide)
    | notIn hop' hno =>
        rw [hop] at hop'
        rw [hoperand, hvalues] at hno
        cases hr : r.operator <;> rw [hr] at hop' <;>
          first | exact fun v hv heq => hno v heq hv | exact absurd hop' (by decide)
    | present hop' hv =>
        rw [hop] at hop'
        rw [hoperand] at hv
        cases hr : r.operator <;> rw [hr] at hop' <;> first | exact ⟨_, hv⟩ | exact absurd hop' (by decide)
    | absent hop' hv =>
        rw [hop] at hop'
        rw [hoperand] at hv
        cases hr : r.operator <;> rw [hr] at hop' <;> first | exact hv | exact absurd hop' (by decide)
  · intro hr
    cases hcase : r.operator with
    | isIn =>
        rw [hcase] at hr hop
        obtain ⟨v, hmem, hv⟩ := hr
        exact .isIn hop (hoperand.trans hv) (hvalues ▸ hmem)
    | notIn =>
        rw [hcase] at hr hop
        exact .notIn hop fun v hv hmem => hr v (hvalues ▸ hmem) (hoperand ▸ hv)
    | present =>
        rw [hcase] at hr hop
        obtain ⟨v, hv⟩ := hr
        exact .present hop (hoperand.trans hv)
    | absent =>
        rw [hcase] at hr hop
        exact .absent hop (hoperand.trans hr)

theorem forall_forall₂_iff {α β : Type} {R : α → β → Prop} {p : α → Prop} {q : β → Prop} {l : List α} {m : List β}
    (h : List.Forall₂ R l m) (hpq : ∀ a b, R a b → (p a ↔ q b)) : (∀ a ∈ l, p a) ↔ ∀ b ∈ m, q b := by
  induction h with
  | nil => simp
  | cons hab _ ih => rw [List.forall_mem_cons, List.forall_mem_cons, hpq _ _ hab, ih]

theorem exists_forall₂_iff {α β : Type} {R : α → β → Prop} {p : α → Prop} {q : β → Prop} {l : List α} {m : List β}
    (h : List.Forall₂ R l m) (hpq : ∀ a b, R a b → (p a ↔ q b)) : (∃ a ∈ l, p a) ↔ ∃ b ∈ m, q b := by
  induction h with
  | nil => simp
  | cons hab _ ih => rw [List.exists_mem_cons_iff, List.exists_mem_cons_iff, hpq _ _ hab, ih]

theorem LabelSelector.IsEmpty.holds (h : sel.IsEmpty) : sel.Holds labels := by
  refine ⟨fun kv hkv => ?_, fun r hr => ?_⟩
  · have hnil : sel.matchLabels.toList = [] := by
      rw [h.1]
      rfl
    rw [hnil] at hkv
    cases hkv
  · rw [h.2] at hr
    cases hr

theorem selectorMatches_true (h : Encodes v sel) :
    selectorMatches (some v) labels true = true ↔ sel.Holds labels := by
  rw [selectorMatches_iff, Covers, LabelSelector.Holds]
  simp only [Option.mem_some_iff, forall_eq', h.matchLabels]
  exact and_congr_right fun _ => forall_forall₂_iff h.matchExpressions fun _ _ => meets_iff

theorem isEmpty_iff (h : Encodes v sel) :
    ((map v ["matchLabels"]).isEmpty && (arr v ["matchExpressions"]).isEmpty) = true ↔ sel.IsEmpty := by
  rw [Bool.and_eq_true, Std.ExtTreeMap.isEmpty_iff, List.isEmpty_iff, h.matchLabels, LabelSelector.IsEmpty]
  refine and_congr_right fun _ => ?_
  constructor
  · intro hnil
    have hexprs := h.matchExpressions
    rw [hnil, List.forall₂_nil_left_iff] at hexprs
    exact hexprs
  · intro hnil
    have hexprs := h.matchExpressions
    rw [hnil, List.forall₂_nil_right_iff] at hexprs
    exact hexprs

/-- Where empty is to match nothing, a selector without requirements matches nothing. -/
theorem selectorMatches_false (h : Encodes v sel) :
    selectorMatches (some v) labels false = true ↔ ¬ sel.IsEmpty ∧ sel.Holds labels := by
  rw [← selectorMatches_true h, ← isEmpty_iff h]
  simp only [selectorMatches]
  split
  · simp_all
  · simp_all

theorem selectorMatches_absent {sel : Option Json} (h : ∀ v ∈ sel, v = .null) :
    selectorMatches sel labels false = false := by
  cases sel with
  | none => rfl
  | some v =>
      rw [h v rfl]
      rfl

/-! ## Peers -/

/-- The selectors of a peer. -/
structure Peer where
  namespaces : Option LabelSelector
  pods : Option LabelSelector

structure Peer.Encodes (v : Json) (p : Peer) : Prop where
  namespaces : Option.Rel K8s.Encodes (v.get? "namespaceSelector") p.namespaces
  pods : Option.Rel K8s.Encodes (v.get? "podSelector") p.pods

/-- Without a selector for namespaces a peer stands for the policy's own. -/
def Peer.CoversNs (ctx : Ctx) (own ns : String) (p : Peer) : Prop :=
  match p.namespaces with
  | none => ns = own
  | some sel => ∃ o, ctx.index[(⟨"Namespace", "", ns⟩ : Key)]? = some o ∧ sel.Holds (K8s.labels o)

def Peer.SelectsPods (labels : Labels) (p : Peer) : Prop := ∃ sel, p.pods = some sel ∧ sel.Holds labels

def RuleEncodes (rule : Json) (peers : List Peer) : Prop := List.Forall₂ Peer.Encodes (rulePeers rule) peers

theorem Peer.Encodes.pods_none {p : Peer} (h : p.Encodes v) : v.get? "podSelector" = none ↔ p.pods = none := by
  have hpods := h.pods
  cases hv : v.get? "podSelector" <;> cases hp : p.pods <;> rw [hv, hp] at hpods
  · simp
  · cases hpods
  · cases hpods
  · simp

theorem Peer.Encodes.pods_some {p : Peer} (h : p.Encodes v) :
    (∃ ps, v.get? "podSelector" = some ps ∧ selectorMatches (some ps) labels true = true) ↔ p.SelectsPods labels := by
  have hpods := h.pods
  rw [Peer.SelectsPods]
  cases hv : v.get? "podSelector" <;> cases hp : p.pods <;> rw [hv, hp] at hpods
  · simp
  · cases hpods
  · cases hpods
  · cases hpods with
    | some hsel => simp [selectorMatches_true hsel]

variable {input : SnapshotInput} {opts : SnapshotOptions}

theorem mem_peerNamespaces_iff {own ns : String} {peer : Json} {p : Peer} (h : p.Encodes peer) :
    ns ∈ peerNamespaces (ctxOf input opts) own peer ↔ p.CoversNs (ctxOf input opts) own ns := by
  have hsel := h.namespaces
  rw [peerNamespaces, Peer.CoversNs]
  cases hpeer : peer.get? "namespaceSelector" with
  | none =>
      rw [hpeer] at hsel
      cases hp : p.namespaces with
      | none => exact List.mem_singleton
      | some sel =>
          rw [hp] at hsel
          cases hsel
  | some v =>
      rw [hpeer] at hsel
      cases hp : p.namespaces with
      | none =>
          rw [hp] at hsel
          cases hsel
      | some sel =>
          rw [hp] at hsel
          cases hsel with
          | some hsel =>
              simp only [List.mem_map, List.mem_filter, Prod.exists, exists_and_right, exists_eq_right,
                Std.ExtTreeMap.mem_toList_iff_getElem?_eq_some, ctxOf_nsMeta, Option.map_eq_some_iff,
                selectorMatches_true hsel, Prod.mk.injEq]
              constructor
              · rintro ⟨ls, ⟨anns, o, ho, rfl, rfl⟩, hholds⟩
                exact ⟨o, ho, hholds⟩
              · rintro ⟨o, ho, hholds⟩
                exact ⟨_, ⟨_, o, ho, rfl, rfl⟩, hholds⟩

/-! ## Edges -/

/-- An object of a kind as a snapshot indexes it. -/
structure ObjectOf (ctx : Ctx) (kind : String) where
  key : Key
  obj : Json
  mem : ctx.index[key]? = some obj
  kind_eq : key.kind = kind

namespace ObjectOf

variable {kind : String} (x y : ObjectOf (ctxOf input opts) kind)

theorem keyOf_obj : keyOf x.obj = x.key := (of_mem_index x.mem).2.1

theorem kind_obj : K8s.kind x.obj = kind := (congrArg Key.kind x.keyOf_obj).trans x.kind_eq

theorem name_obj : K8s.name x.obj = x.key.name := congrArg Key.name x.keyOf_obj

theorem ns_namespaced (h : kind ∉ clusterKinds) : x.key.ns = (namespaceOf x.obj).getD "default" := by
  rw [← x.keyOf_obj, keyOf, x.kind_obj, if_neg h]

theorem ns_cluster (h : kind ∈ clusterKinds) : x.key.ns = "" := by
  rw [← x.keyOf_obj, keyOf, x.kind_obj, if_pos h]

variable {x y}

theorem eq_of_names (hns : x.key.ns = y.key.ns) (hname : x.key.name = y.key.name) : x = y := by
  have hkind := x.kind_eq.trans y.kind_eq.symm
  obtain ⟨⟨_, _, _⟩, o, hk, _⟩ := x
  obtain ⟨⟨_, _, _⟩, o', hk', _⟩ := y
  cases hns
  cases hname
  cases hkind
  cases hk.symm.trans hk'
  rfl

theorem eq_of_iriOf (hplain : PlainKind kind)
    (h : (ctxOf input opts).iriOf x.key = (ctxOf input opts).iriOf y.key) : x = y := by
  have hkey := (iriOf_inj (x.kind_eq.symm ▸ hplain) (y.kind_eq.symm ▸ hplain)).mp h
  exact eq_of_names (congrArg Key.ns hkey) (congrArg Key.name hkey)

end ObjectOf

theorem mem_ofKind_iff {kind : String} {o : Json} :
    o ∈ (ctxOf input opts).ofKind kind ↔ ∃ x : ObjectOf (ctxOf input opts) kind, x.obj = o := by
  rw [mem_ofKind]
  constructor
  · rintro ⟨k, hk, hkind⟩
    exact ⟨⟨k, o, hk, hkind⟩, rfl⟩
  · rintro ⟨x, rfl⟩
    exact ⟨x.key, x.mem, x.kind_eq⟩

/-- A snapshot has an edge between two entities. -/
def Edge (input : SnapshotInput) (opts : SnapshotOptions) (s p o : Iri) : Prop :=
  addIri s p o ∈ (pendingSnapshot (ctxOf input opts) input opts.state).lines

section Edges

variable (w : Workload (ctxOf input opts))

theorem Workload.plain {ctx : Ctx} (w : Workload ctx) : PlainKind w.key.kind := plain_workloadKinds _ w.kind

theorem Workload.keyOf_obj : keyOf w.obj = w.key := (of_mem_index w.mem).2.1

theorem mem_pending_workload {t : Triple} {term : String} (hp : t.p = k8s term)
    (hterm : term ∈ ["hasPDB", "scheduledOn", "replicasOnNode", "runsImage"]) :
    t ∈ (pendingSnapshot (ctxOf input opts) input opts.state).lines ↔ ∃ w : Workload (ctxOf input opts),
      t ∈ workloadTriples (ctxOf input opts) (placement (ctxOf input opts) input.pods)
        (pulled (ctxOf input opts) input.pods) w.key (nsOption w.key.ns) ((ctxOf input opts).iriOf w.key) w.obj := by
  have hnot : ∀ term ∈ ["hasPDB", "scheduledOn", "replicasOnNode", "runsImage"], term ∉ headTerms ∧
      term ∉ objectTerms ∧ ∀ kind ∈ termKinds, term ∈ kindTerms kind → kind ∈ workloadKinds := by decide
  obtain ⟨hhead, hobject, hkinds⟩ := hnot term hterm
  rw [mem_pending_iff hhead hobject hkinds (by decide) hp]
  constructor
  · rintro ⟨k, o, hk, hkind, ht⟩
    rw [Says, kindTriples_workload hkind] at ht
    exact ⟨⟨k, o, hk, hkind⟩, ht⟩
  · rintro ⟨w, ht⟩
    refine ⟨w.key, w.obj, w.mem, w.kind, ?_⟩
    rwa [Says, kindTriples_workload w.kind]

theorem hasPDB_iff (pdb : ObjectOf (ctxOf input opts) "PodDisruptionBudget") :
    Edge input opts ((ctxOf input opts).iriOf w.key) (k8s "hasPDB") ((ctxOf input opts).iriOf pdb.key) ↔
      pdb.key.ns = w.key.ns ∧ selectorMatches (pdb.obj.path? ["spec", "selector"])
        (podLabels w.obj) false = true := by
  have hplain : PlainKind "PodDisruptionBudget" := by decide
  have hcluster : "PodDisruptionBudget" ∉ clusterKinds := by decide
  rw [Edge, mem_pending_workload rfl (by decide)]
  constructor
  · rintro ⟨w', ht⟩
    rcases workloadTriples_cases ht (by simp [workloadEdges, placementEdges]) with
      ⟨_, _, ht | ht⟩ | ⟨o, ho, ⟨hns, hsel⟩, ht⟩ | ⟨hp, _⟩
    · exact absurd (congrArg Triple.p ht) (by simp)
    · exact absurd (congrArg Triple.p ht) (by simp)
    · obtain ⟨hs, _, hpdb⟩ := addIri_inj.mp ht
      cases Workload.obj_eq ((iriOf_inj w.plain w'.plain).mp hs)
      obtain ⟨other, rfl⟩ := mem_ofKind_iff.mp ho
      rw [Ctx.iriOf, pdb.kind_eq, objIri_inj hplain hplain, nsOption_inj, other.name_obj] at hpdb
      obtain ⟨_, hsame, hname⟩ := hpdb
      rw [← other.ns_namespaced hcluster] at hns
      cases ObjectOf.eq_of_names (hsame.trans hns.symm) hname
      exact ⟨hsame, hsel⟩
    · exact absurd hp (by simp)
  · rintro ⟨hsame, hsel⟩
    refine ⟨w, ?_⟩
    have hiri : (ctxOf input opts).iriOf pdb.key =
        (ctxOf input opts).objIri "PodDisruptionBudget" (nsOption w.key.ns) (name pdb.obj) := by
      rw [Ctx.iriOf, pdb.kind_eq, hsame, pdb.name_obj]
    rw [hiri]
    apply mem_workloadTriples_budget (mem_ofKind_iff.mpr ⟨pdb, rfl⟩)
    exact ⟨(pdb.ns_namespaced hcluster).symm.trans hsame, hsel⟩

theorem aggregates_iff (c other : ObjectOf (ctxOf input opts) "ClusterRole") :
    Edge input opts ((ctxOf input opts).iriOf c.key) (k8s "aggregates") ((ctxOf input opts).iriOf other.key) ↔
      other.key.name ≠ c.key.name ∧ ∃ sel ∈ arr c.obj ["aggregationRule", "clusterRoleSelectors"],
        selectorMatches (some sel) (K8s.labels other.obj) false = true := by
  have hplain : PlainKind "ClusterRole" := by decide
  have hcluster : "ClusterRole" ∈ clusterKinds := by decide
  have hkinds : ∀ kind ∈ termKinds, "aggregates" ∈ kindTerms kind → kind ∈ ["Role", "ClusterRole"] := by decide
  have hrole : ∀ {k : Key}, k.kind ∈ ["Role", "ClusterRole"] → ∀ {o : Json} {t : Triple}, Says input opts k o t ↔
      t ∈ roleTriples (ctxOf input opts) k ((ctxOf input opts).iriOf k) o := by
    intro k hk o t
    simp only [List.mem_cons, List.not_mem_nil, or_false] at hk
    rcases hk with hk | hk <;> simp only [Says, kindTriples, hk]
  have hiri : (ctxOf input opts).iriOf other.key = (ctxOf input opts).objIri "ClusterRole" none (name other.obj) := by
    rw [Ctx.iriOf, other.kind_eq, other.ns_cluster hcluster, other.name_obj]
    rfl
  rw [Edge, mem_pending_iff (by decide) (by decide) hkinds (by decide) rfl]
  constructor
  · rintro ⟨k, o, hk, hkind, ht⟩
    obtain ⟨hkind, sel, hsel, o', ho', ⟨hname, hmatch⟩, ht⟩ := roleTriples_aggregates ((hrole hkind).mp ht) rfl
    obtain ⟨hs, _, hother⟩ := addIri_inj.mp ht
    cases ObjectOf.eq_of_iriOf (y := ⟨k, o, hk, hkind⟩) hplain hs
    obtain ⟨other', rfl⟩ := mem_ofKind_iff.mp ho'
    rw [hiri, objIri_inj hplain hplain, other.name_obj, other'.name_obj] at hother
    cases ObjectOf.eq_of_names ((other.ns_cluster hcluster).trans (other'.ns_cluster hcluster).symm) hother.2.2
    rw [other.name_obj] at hname
    exact ⟨hname, sel, hsel, hmatch⟩
  · rintro ⟨hname, sel, hsel, hmatch⟩
    have hkind : c.key.kind ∈ ["Role", "ClusterRole"] := by
      rw [c.kind_eq]
      decide
    refine ⟨c.key, c.obj, c.mem, hkind, (hrole hkind).mpr ?_⟩
    rw [hiri]
    rw [← other.name_obj] at hname
    exact mem_roleTriples_aggregates c.kind_eq hsel (mem_ofKind_iff.mpr ⟨other, rfl⟩) ⟨hname, hmatch⟩

section Policies

variable (np : ObjectOf (ctxOf input opts) "NetworkPolicy") (d : Direction)

theorem mem_pending_policyEdge {s p o : Iri}
    (hp : p ∈ [k8s "appliesTo", k8s "allowsIngressFrom", k8s "allowsEgressTo"]) :
    Edge input opts s p o ↔ ∃ np : ObjectOf (ctxOf input opts) "NetworkPolicy", addIri s p o ∈
      policyTriples (ctxOf input opts) np.key.ns (nsOption np.key.ns) ((ctxOf input opts).iriOf np.key) np.obj := by
  have hnot : ∀ term ∈ ["appliesTo", "allowsIngressFrom", "allowsEgressTo"], term ∉ headTerms ∧ term ∉ objectTerms ∧
      ∀ kind ∈ termKinds, term ∈ kindTerms kind → kind ∈ ["NetworkPolicy"] := by decide
  obtain ⟨term, hterm, rfl⟩ : ∃ term ∈ ["appliesTo", "allowsIngressFrom", "allowsEgressTo"], p = k8s term := by
    simpa using hp
  obtain ⟨hhead, hobject, hkinds⟩ := hnot term hterm
  have hpolicy : ∀ {k : Key}, k.kind = "NetworkPolicy" → ∀ {o : Json} {t : Triple}, Says input opts k o t ↔
      t ∈ policyTriples (ctxOf input opts) k.ns (nsOption k.ns) ((ctxOf input opts).iriOf k) o := by
    intro k hk o t
    simp only [Says, kindTriples, hk]
  rw [Edge, mem_pending_iff hhead hobject hkinds (by decide) rfl]
  constructor
  · rintro ⟨k, o, hk, hkind, ht⟩
    have hkind := List.mem_singleton.mp hkind
    exact ⟨⟨k, o, hk, hkind⟩, (hpolicy hkind).mp ht⟩
  · rintro ⟨np, ht⟩
    exact ⟨np.key, np.obj, np.mem, List.mem_singleton.mpr np.kind_eq, (hpolicy np.kind_eq).mpr ht⟩

theorem exists_workloadsIn {ns : String} {q : Json → String → String → Prop} :
    (∃ o ∈ (ctxOf input opts).workloadsIn ns, q o (kind o) (name o)) ↔
      ∃ w : Workload (ctxOf input opts), w.key.ns = ns ∧ q w.obj w.key.kind w.key.name := by
  have hnames : ∀ w : Workload (ctxOf input opts), kind w.obj = w.key.kind ∧ name w.obj = w.key.name :=
    fun w => ⟨congrArg Key.kind w.keyOf_obj, congrArg Key.name w.keyOf_obj⟩
  constructor
  · rintro ⟨o, ho, hq⟩
    obtain ⟨w, rfl, hns⟩ := mem_workloadsIn_iff.mp ho
    rw [(hnames w).1, (hnames w).2] at hq
    exact ⟨w, hns, hq⟩
  · rintro ⟨w, hns, hq⟩
    rw [← (hnames w).1, ← (hnames w).2] at hq
    exact ⟨w.obj, mem_workloadsIn_iff.mpr ⟨w, rfl, hns⟩, hq⟩

theorem appliesTo_edge_iff :
    Edge input opts ((ctxOf input opts).iriOf np.key) (k8s "appliesTo") ((ctxOf input opts).iriOf w.key) ↔
      w.key.ns = np.key.ns ∧ selectorMatches (np.obj.path? ["spec", "podSelector"])
        (podLabels w.obj) true = true := by
  have hplain : PlainKind "NetworkPolicy" := by decide
  have happlies : ∀ {np : ObjectOf (ctxOf input opts) "NetworkPolicy"} {s v : Iri},
      (∃ o ∈ (ctxOf input opts).workloadsIn np.key.ns,
        selectorMatches (np.obj.path? ["spec", "podSelector"]) (podLabels o) true = true ∧
          addIri s (k8s "appliesTo") v = addIri ((ctxOf input opts).iriOf np.key) (k8s "appliesTo")
            ((ctxOf input opts).objIri (kind o) (nsOption np.key.ns) (name o))) ↔
      ∃ w : Workload (ctxOf input opts), w.key.ns = np.key.ns ∧
        selectorMatches (np.obj.path? ["spec", "podSelector"]) (podLabels w.obj) true = true ∧
          addIri s (k8s "appliesTo") v = addIri ((ctxOf input opts).iriOf np.key) (k8s "appliesTo")
            ((ctxOf input opts).objIri w.key.kind (nsOption np.key.ns) w.key.name) := by
    intro np s v
    exact exists_workloadsIn (q := fun o kind name =>
      selectorMatches (np.obj.path? ["spec", "podSelector"]) (podLabels o) true = true ∧
        addIri s (k8s "appliesTo") v = addIri ((ctxOf input opts).iriOf np.key) (k8s "appliesTo")
          ((ctxOf input opts).objIri kind (nsOption np.key.ns) name))
  rw [mem_pending_policyEdge (by simp)]
  constructor
  · rintro ⟨np', ht⟩
    rcases mem_policyTriples.mp ht with ht | ⟨_, _, ht⟩ | ht | ⟨d, _, rule, _, ht⟩
    · exact absurd (congrArg Triple.p ht) (by simp)
    · exact absurd (congrArg Triple.p ht) (by simp)
    · obtain ⟨w', hns, hsel, ht⟩ := happlies.mp ht
      obtain ⟨hs, _, hw⟩ := addIri_inj.mp ht
      cases ObjectOf.eq_of_iriOf hplain hs
      rw [← hns] at hw
      cases Workload.obj_eq ((iriOf_inj w.plain w'.plain).mp hw)
      exact ⟨hns, hsel⟩
    · rcases ruleTriples_p ht with hp | hp
      · exact absurd hp.symm d.allows_ne_appliesTo
      · exact absurd hp.symm d.allowsAll_ne_appliesTo
  · rintro ⟨hns, hsel⟩
    refine ⟨np, mem_policyTriples.mpr (.inr (.inr (.inl (happlies.mpr ⟨w, hns, hsel, ?_⟩))))⟩
    rw [← hns]
    rfl

/-- What a direction of a policy admits are the peers of its rules. -/
theorem allows_edge_iff {v : Iri} :
    Edge input opts ((ctxOf input opts).iriOf np.key) d.allows v ↔ d.type ∈ policyTypes np.obj ∧
      ∃ rule ∈ arr np.obj ["spec", d.field], ∃ peer ∈ rulePeers rule,
        ∃ ns ∈ peerNamespaces (ctxOf input opts) np.key.ns peer,
          (∃ ps, peer.get? "podSelector" = some ps ∧ ∃ w : Workload (ctxOf input opts), w.key.ns = ns ∧
            selectorMatches (some ps) (podLabels w.obj) true = true ∧
            v = (ctxOf input opts).objIri w.key.kind (some ns) w.key.name) ∨
          (peer.get? "podSelector" = none ∧ v = Iri.k8sNamespace opts.clusterId ns) := by
  have hplain : PlainKind "NetworkPolicy" := by decide
  have hallows : d.allows ∈ [k8s "appliesTo", k8s "allowsIngressFrom", k8s "allowsEgressTo"] := by
    cases d <;> simp [Direction.allows]
  have hworkloads : ∀ {ns : String} {ps : Json}, (∃ o ∈ (ctxOf input opts).workloadsIn ns,
      selectorMatches (some ps) (podLabels o) true = true ∧
        v = (ctxOf input opts).objIri (kind o) (some ns) (name o)) ↔
      ∃ w : Workload (ctxOf input opts), w.key.ns = ns ∧ selectorMatches (some ps) (podLabels w.obj) true = true ∧
        v = (ctxOf input opts).objIri w.key.kind (some ns) w.key.name := by
    intro ns ps
    exact exists_workloadsIn (q := fun o kind name => selectorMatches (some ps) (podLabels o) true = true ∧
      v = (ctxOf input opts).objIri kind (some ns) name)
  rw [mem_pending_policyEdge hallows]
  constructor
  · rintro ⟨np', ht⟩
    rcases mem_policyTriples.mp ht with ht | ⟨_, _, ht⟩ | ⟨_, _, _, ht⟩ | ⟨d', htype, rule, hrule, ht⟩
    · exact absurd (congrArg Triple.p ht) d.allows_ne_rdfType
    · exact absurd (congrArg Triple.p ht) d.allows_ne_policyType
    · exact absurd (congrArg Triple.p ht) d.allows_ne_appliesTo
    · rcases mem_ruleTriples.mp ht with ⟨_, ht⟩ | ⟨peer, hpeer, ns, hns, hcase⟩
      · exact absurd (congrArg Triple.p ht) (Direction.allows_ne_allowsAll d d')
      · rcases hcase with ⟨ps, hps, o, ho, hsel, ht⟩ | ⟨hps, ht⟩
        · obtain ⟨hs, hd, hv⟩ := addIri_inj.mp ht
          cases ObjectOf.eq_of_iriOf hplain hs
          cases Direction.allows_inj.mp hd
          exact ⟨htype, rule, hrule, peer, hpeer, ns, hns, .inl ⟨ps, hps, hworkloads.mp ⟨o, ho, hsel, hv⟩⟩⟩
        · obtain ⟨hs, hd, hv⟩ := addIri_inj.mp ht
          cases ObjectOf.eq_of_iriOf hplain hs
          cases Direction.allows_inj.mp hd
          exact ⟨htype, rule, hrule, peer, hpeer, ns, hns, .inr ⟨hps, hv⟩⟩
  · rintro ⟨htype, rule, hrule, peer, hpeer, ns, hns, hcase⟩
    refine ⟨np, mem_policyTriples.mpr (.inr (.inr (.inr ⟨d, htype, rule, hrule,
      mem_ruleTriples.mpr (.inr ⟨peer, hpeer, ns, hns, ?_⟩)⟩)))⟩
    rcases hcase with ⟨ps, hps, hw⟩ | ⟨hps, hv⟩
    · obtain ⟨o, ho, hsel, hv⟩ := hworkloads.mpr hw
      exact .inl ⟨ps, hps, o, ho, hsel, by rw [hv]⟩
    · exact .inr ⟨hps, by rw [hv]; rfl⟩

end Policies

end Edges

/-! ## What the edges mean -/

/-- Every edge that goes by a label selector stands exactly where the selector holds. -/
structure SelectorsHonoured (input : SnapshotInput) (opts : SnapshotOptions) : Prop where
  budgets : ∀ (w : Workload (ctxOf input opts)) (pdb : ObjectOf (ctxOf input opts) "PodDisruptionBudget") (v : Json)
    (sel : LabelSelector), pdb.obj.path? ["spec", "selector"] = some v → Encodes v sel →
    (Edge input opts ((ctxOf input opts).iriOf w.key) (k8s "hasPDB") ((ctxOf input opts).iriOf pdb.key) ↔
      pdb.key.ns = w.key.ns ∧ sel.Holds (podLabels w.obj))
  unselective : ∀ (w : Workload (ctxOf input opts)) (pdb : ObjectOf (ctxOf input opts) "PodDisruptionBudget"),
    (∀ v ∈ pdb.obj.path? ["spec", "selector"], v = .null) →
    ¬ Edge input opts ((ctxOf input opts).iriOf w.key) (k8s "hasPDB") ((ctxOf input opts).iriOf pdb.key)
  aggregates : ∀ (c other : ObjectOf (ctxOf input opts) "ClusterRole") (sels : List LabelSelector),
    List.Forall₂ Encodes (arr c.obj ["aggregationRule", "clusterRoleSelectors"]) sels →
    (Edge input opts ((ctxOf input opts).iriOf c.key) (k8s "aggregates") ((ctxOf input opts).iriOf other.key) ↔
      other.key.name ≠ c.key.name ∧ ∃ sel ∈ sels, sel.Holds (K8s.labels other.obj))
  applies : ∀ (np : ObjectOf (ctxOf input opts) "NetworkPolicy") (w : Workload (ctxOf input opts)) (v : Json)
    (sel : LabelSelector), np.obj.path? ["spec", "podSelector"] = some v → Encodes v sel →
    (Edge input opts ((ctxOf input opts).iriOf np.key) (k8s "appliesTo") ((ctxOf input opts).iriOf w.key) ↔
      w.key.ns = np.key.ns ∧ sel.Holds (podLabels w.obj))
  peers : ∀ (np : ObjectOf (ctxOf input opts) "NetworkPolicy") (d : Direction) (rules : List (List Peer)),
    List.Forall₂ RuleEncodes (arr np.obj ["spec", d.field]) rules → ∀ w : Workload (ctxOf input opts),
    (Edge input opts ((ctxOf input opts).iriOf np.key) d.allows
        ((ctxOf input opts).objIri w.key.kind (some w.key.ns) w.key.name) ↔
      d.type ∈ policyTypes np.obj ∧ ∃ peers ∈ rules, ∃ p ∈ peers,
        p.CoversNs (ctxOf input opts) np.key.ns w.key.ns ∧ p.SelectsPods (podLabels w.obj))
  peerNamespaces : ∀ (np : ObjectOf (ctxOf input opts) "NetworkPolicy") (d : Direction) (rules : List (List Peer)),
    List.Forall₂ RuleEncodes (arr np.obj ["spec", d.field]) rules → ∀ ns : String,
    (Edge input opts ((ctxOf input opts).iriOf np.key) d.allows (Iri.k8sNamespace opts.clusterId ns) ↔
      d.type ∈ policyTypes np.obj ∧ ∃ peers ∈ rules, ∃ p ∈ peers,
        p.pods = none ∧ p.CoversNs (ctxOf input opts) np.key.ns ns)

/-- No budget beside a workload has a selector without requirements, and where a cluster role has one,
another of its selectors holds of every other cluster role. -/
structure SelectorsRequire (input : SnapshotInput) (opts : SnapshotOptions) : Prop where
  budgets : ∀ (w : Workload (ctxOf input opts)) (pdb : ObjectOf (ctxOf input opts) "PodDisruptionBudget") (v : Json)
    (sel : LabelSelector), pdb.key.ns = w.key.ns → pdb.obj.path? ["spec", "selector"] = some v → Encodes v sel →
    ¬ sel.IsEmpty
  roles : ∀ (c other : ObjectOf (ctxOf input opts) "ClusterRole") (sels : List LabelSelector),
    List.Forall₂ Encodes (arr c.obj ["aggregationRule", "clusterRoleSelectors"]) sels →
    other.key.name ≠ c.key.name → (∃ sel ∈ sels, sel.IsEmpty) →
    ∃ sel ∈ sels, ¬ sel.IsEmpty ∧ sel.Holds (K8s.labels other.obj)

theorem Workload.objIri_ne_namespace (w : Workload (ctxOf input opts)) (ns ns' : String) :
    (ctxOf input opts).objIri w.key.kind (some ns) w.key.name ≠ Iri.k8sNamespace opts.clusterId ns' := by
  intro heq
  have hns : PlainKind "ns" := by decide
  have heq : (ctxOf input opts).objIri w.key.kind (some ns) w.key.name =
    (ctxOf input opts).objIri "ns" none ns' := heq
  rw [objIri_inj w.plain hns] at heq
  cases heq.2.1

section Honoured

variable {np : ObjectOf (ctxOf input opts) "NetworkPolicy"} {d : Direction} {rules : List (List Peer)}
  (h : List.Forall₂ RuleEncodes (arr np.obj ["spec", d.field]) rules)

include h

theorem exists_peer_iff {p : Json → Prop} {q : Peer → Prop} (hpq : ∀ v peer, Peer.Encodes v peer → (p v ↔ q peer)) :
    (∃ rule ∈ arr np.obj ["spec", d.field], ∃ peer ∈ rulePeers rule, p peer) ↔
      ∃ peers ∈ rules, ∃ peer ∈ peers, q peer :=
  exists_forall₂_iff h fun _ _ hrule => exists_forall₂_iff hrule hpq

theorem peers_honoured (w : Workload (ctxOf input opts)) :
    Edge input opts ((ctxOf input opts).iriOf np.key) d.allows
        ((ctxOf input opts).objIri w.key.kind (some w.key.ns) w.key.name) ↔
      d.type ∈ policyTypes np.obj ∧ ∃ peers ∈ rules, ∃ p ∈ peers,
        p.CoversNs (ctxOf input opts) np.key.ns w.key.ns ∧ p.SelectsPods (podLabels w.obj) := by
  rw [allows_edge_iff, exists_peer_iff h]
  intro v peer hpeer
  constructor
  · rintro ⟨ns, hmem, ⟨ps, hps, w', hns, hsel, hw⟩ | ⟨_, hw⟩⟩
    · rw [objIri_inj w.plain w'.plain, Option.some.injEq] at hw
      have hkey : w.key = w'.key := by
        obtain ⟨hkind, hsame, hname⟩ := hw
        rw [← hns] at hsame
        cases hk : w.key
        cases hk' : w'.key
        rw [hk, hk'] at hkind hsame hname
        cases hkind
        cases hsame
        cases hname
        rfl
      cases Workload.obj_eq hkey
      exact ⟨(mem_peerNamespaces_iff hpeer).mp (hns ▸ hmem), hpeer.pods_some.mp ⟨ps, hps, hsel⟩⟩
    · exact absurd hw (w.objIri_ne_namespace _ _)
  · rintro ⟨hcovers, hselects⟩
    obtain ⟨ps, hps, hsel⟩ := hpeer.pods_some.mpr hselects
    exact ⟨w.key.ns, (mem_peerNamespaces_iff hpeer).mpr hcovers, .inl ⟨ps, hps, w, rfl, hsel, rfl⟩⟩

theorem peerNamespaces_honoured (ns : String) :
    Edge input opts ((ctxOf input opts).iriOf np.key) d.allows (Iri.k8sNamespace opts.clusterId ns) ↔
      d.type ∈ policyTypes np.obj ∧ ∃ peers ∈ rules, ∃ p ∈ peers,
        p.pods = none ∧ p.CoversNs (ctxOf input opts) np.key.ns ns := by
  rw [allows_edge_iff, exists_peer_iff h]
  intro v peer hpeer
  have hns : PlainKind "ns" := by decide
  constructor
  · rintro ⟨ns', hmem, ⟨_, _, w, _, _, hw⟩ | ⟨hnone, hw⟩⟩
    · exact absurd hw.symm (w.objIri_ne_namespace _ _)
    · have hw : (ctxOf input opts).objIri "ns" none ns = (ctxOf input opts).objIri "ns" none ns' := hw
      rw [objIri_inj hns hns] at hw
      rw [hw.2.2]
      exact ⟨hpeer.pods_none.mp hnone, (mem_peerNamespaces_iff hpeer).mp hmem⟩
  · rintro ⟨hnone, hcovers⟩
    exact ⟨ns, (mem_peerNamespaces_iff hpeer).mpr hcovers, .inr ⟨hpeer.pods_none.mpr hnone, rfl⟩⟩

end Honoured

theorem SelectorsHonoured.budget (h : SelectorsHonoured input opts) (w : Workload (ctxOf input opts))
    (pdb : ObjectOf (ctxOf input opts) "PodDisruptionBudget") (hns : pdb.key.ns = w.key.ns)
    (hv : pdb.obj.path? ["spec", "selector"] = some v) (hsel : Encodes v sel) : ¬ sel.IsEmpty := by
  intro hempty
  have hedge := (h.budgets w pdb v sel hv hsel).mpr ⟨hns, hempty.holds⟩
  rw [hasPDB_iff, hv, selectorMatches_false hsel] at hedge
  exact hedge.2.1 hempty

/-- The edges of a snapshot mean what the selectors say exactly when no selector that matters there is
without requirements. -/
theorem selectorsHonoured_iff (input : SnapshotInput) (opts : SnapshotOptions) :
    SelectorsHonoured input opts ↔ SelectorsRequire input opts := by
  constructor
  · intro h
    refine ⟨fun w pdb v sel hns hv hsel => h.budget w pdb hns hv hsel, fun c other sels hsels hname hempty => ?_⟩
    obtain ⟨sel, hsel, hempty⟩ := hempty
    have hedge := (h.aggregates c other sels hsels).mpr ⟨hname, sel, hsel, hempty.holds⟩
    rw [aggregates_iff, exists_forall₂_iff hsels fun _ _ hv => selectorMatches_false hv] at hedge
    exact hedge.2
  · intro h
    constructor
    case budgets =>
      intro w pdb v sel hv hsel
      rw [hasPDB_iff, hv, selectorMatches_false hsel]
      refine and_congr_right fun hns => and_iff_right ?_
      exact h.budgets w pdb v sel hns hv hsel
    case unselective =>
      intro w pdb hnull hedge
      rw [hasPDB_iff, selectorMatches_absent hnull] at hedge
      cases hedge.2
    case aggregates =>
      intro c other sels hsels
      rw [aggregates_iff, exists_forall₂_iff hsels fun _ _ hv => selectorMatches_false hv]
      refine and_congr_right fun hname => ?_
      constructor
      · rintro ⟨sel, hsel, _, hholds⟩
        exact ⟨sel, hsel, hholds⟩
      · rintro ⟨sel, hsel, hholds⟩
        by_cases hempty : sel.IsEmpty
        · exact h.roles c other sels hsels hname ⟨sel, hsel, hempty⟩
        · exact ⟨sel, hsel, hempty, hholds⟩
    case applies =>
      intro np w v sel hv hsel
      rw [appliesTo_edge_iff, hv, selectorMatches_true hsel]
    case peers => exact fun np d rules hrules w => peers_honoured hrules w
    case peerNamespaces => exact fun np d rules hrules ns => peerNamespaces_honoured hrules ns

/-- A budget for all pods of its namespace. -/
def wholeBudget : Json :=
  .obj [("kind", .str "PodDisruptionBudget"), ("metadata", .obj [("name", .str "all"), ("namespace", .str "shop")]),
    ("spec", .obj [("selector", .obj [])])]

def guardedShop : SnapshotInput where
  objects := [deployment "web", wholeBudget]

theorem guardedShop_index {o : Json} (ho : o ∈ guardedShop.objects) :
    (ctxOf guardedShop shopOptions).index[keyOf o]? = some o := by
  have hok : ∀ o ∈ guardedShop.objects, Indexable o := by decide
  exact (indexOf_eq_some_iff (by decide)).mpr ⟨ho, rfl, hok o ho⟩

/-- A selector without requirements, of a budget, protects nothing. -/
theorem guardedShop_not_honoured : ¬ SelectorsHonoured guardedShop shopOptions := by
  intro h
  have hempty : Encodes (.obj []) ⟨∅, []⟩ := by
    refine ⟨rfl, fun o ho => ?_, rfl, .nil⟩
    cases ho
  let w : Workload (ctxOf guardedShop shopOptions) :=
    ⟨keyOf (deployment "web"), _, guardedShop_index List.mem_cons_self, List.mem_cons_self⟩
  let pdb : ObjectOf (ctxOf guardedShop shopOptions) "PodDisruptionBudget" :=
    ⟨keyOf wholeBudget, wholeBudget, guardedShop_index (List.mem_cons_of_mem _ List.mem_cons_self), rfl⟩
  exact h.budget w pdb rfl rfl hempty ⟨rfl, rfl⟩

end Nix2Rdf.K8s
