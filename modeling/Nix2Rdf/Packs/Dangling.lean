import Nix2Rdf.K8s.Typed
import Nix2Rdf.Packs.Violations

/-!
# Dangling references

The policy reports a reference whose target has no class in the same graph. For a snapshot these are the references
to what is no object of it.
-/

namespace Nix2Rdf.Packs

open K8s Triple

variable {b : Builtins} {quads : Quad → Prop}

/-! ## The rules -/

theorem typedIn_iff {g x : Val} : (k8sWithDeps b).Derived quads ⟨.typedIn, [g, x]⟩ ↔
    ∃ c, (k8sWithDeps b).Derived quads ⟨.q, [g, x, .const (.iri rdfType), c]⟩ := by
  have hrules : (k8sWithDeps b).rulesFor .typedIn =
      [clause (atom .typedIn [var "s", var "x"]) [qd (var "s") (var "x") rdfType (var "c")]] := rfl
  rw [(k8sWithDeps b).derived_iff_one hrules (by simp)]
  constructor
  · rintro ⟨σ, hbody, hhead⟩
    have htype := hbody _ List.mem_cons_self
    simp only [ground_atom, List.map_cons, List.map_nil, ground_var, Datalog.Fact.mk.injEq, List.cons.injEq, and_true,
      true_and] at hhead
    exact ⟨σ "c", by simpa [hhead] using htype⟩
  · rintro ⟨c, h⟩
    exact ⟨.of c [("s", g), ("x", x)], by simpa using h, by simp⟩

theorem refIn_iff {g x y : Val} : (k8sWithDeps b).Derived quads ⟨.refIn, [g, x, y]⟩ ↔
    ∃ w ∈ refTerms, (k8sWithDeps b).Derived quads ⟨.q, [g, x, .const (.iri (k8s w)), y]⟩ := by
  have hrules : (k8sWithDeps b).rulesFor .refIn = refTerms.map fun w =>
      clause (atom .refIn [var "s", var "from", var "to"]) [qd (var "s") (var "from") (k8s w) (var "to")] := rfl
  have hcopy : ∀ w, (clause (atom .refIn [var "s", var "from", var "to"])
    [qd (var "s") (var "from") (k8s w) (var "to")]).Derives
      ((k8sWithDeps b).Derived quads) ⟨.refIn, [g, x, y]⟩ ↔
        (k8sWithDeps b).Derived quads ⟨.q, [g, x, .const (.iri (k8s w)), y]⟩ := by
    intro w
    rw [clause_derives]
    constructor
    · rintro ⟨σ, hbody, hhead⟩
      have hcopied := hbody _ List.mem_cons_self
      simp only [ground_atom, List.map_cons, List.map_nil, ground_var, Datalog.Fact.mk.injEq,
        List.cons.injEq, and_true, true_and] at hhead
      simpa [hhead] using hcopied
    · intro h
      exact ⟨.of y [("s", g), ("from", x)], by simpa using h, by simp⟩
  rw [(k8sWithDeps b).derived_iff (by simp), hrules]
  simp only [List.mem_map, exists_exists_and_eq_and, hcopy]

/-- What the rule for dangling references asks for. -/
def danglingBody (b : Builtins) : List DLiteral :=
  [atom .refIn [var "s", var "from", var "to"], atom .kSnapshot [var "s"], .neg (atom .typedIn [var "s", var "to"]),
    fullStr b (var "msg") (var "to")]

theorem dangling_iff {g x m : Val} : (k8sWithDeps b).Derived quads ⟨.dangling, [g, x, m]⟩ ↔
    (k8sWithDeps b).Derived quads ⟨.kSnapshot, [g]⟩ ∧ ∃ y, (k8sWithDeps b).Derived quads ⟨.refIn, [g, x, y]⟩ ∧
      ¬ (k8sWithDeps b).Derived quads ⟨.typedIn, [g, y]⟩ ∧ (b.fullStr y).map .const = some m := by
  have hrules : (k8sWithDeps b).rulesFor .dangling =
      [clause (atom .dangling [var "s", var "from", var "msg"]) (danglingBody b)] := rfl
  rw [(k8sWithDeps b).derived_iff_one hrules (by simp)]
  constructor
  · rintro ⟨σ, hbody, hhead⟩
    simp only [ground_atom, List.map_cons, List.map_nil, ground_var, Datalog.Fact.mk.injEq, List.cons.injEq, and_true,
      true_and] at hhead
    obtain ⟨rfl, rfl, rfl⟩ := hhead
    simp only [danglingBody, fullStr, List.forall_mem_cons, List.not_mem_nil, false_implies, implies_true, and_true,
      Datalog.Literal.holds_pos, Datalog.Literal.holds_neg, Datalog.Literal.holds_test, ground_atom, List.map_cons,
      List.map_nil, ground_var] at hbody
    obtain ⟨href, hsnap, htyped, r, v, heq, htext⟩ := hbody
    cases heq
    exact ⟨hsnap, σ "to", href, htyped, htext⟩
  · rintro ⟨hsnap, y, href, htyped, htext⟩
    refine ⟨.of m [("s", g), ("from", x), ("to", y)], ?_, by simp⟩
    have hmessage : ∃ t, m = .const t ∧ b.fullStr y = some t := by simpa [eq_comm, and_comm] using htext
    simpa [danglingBody, fullStr] using ⟨href, hsnap, htyped, hmessage⟩

/-! ## The reports -/

/-- The policy reports a reference of the subject in a graph, with a message. -/
def ReportsDangling (b : Builtins) (quads : Quad → Prop) (g x m : Val) : Prop :=
  let holds := fun (v : Val) (p : Iri) (y : Val) => (k8sWithDeps b).Derived quads ⟨.out, [v, .const (.iri p), y]⟩
  ∃ v, holds v rdfType (.const (.iri (nix "Violation"))) ∧
    holds v (nix "violates") (.const (.iri (policyBase ++ "k8s/dangling-reference"))) ∧ holds v (nix "subject") x ∧
    holds v (nix "inSnapshot") g ∧ holds v (nix "message") m

def danglingRule : DRule :=
  violation "dangling" "dangling-reference" (var "from") [ou (var "v") (nix "inSnapshot") (var "s"),
    message (var "msg")] [atom .dangling [var "s", var "from", var "msg"]]

set_option maxRecDepth 4000 in
theorem out_inSnapshot : (k8sWithDeps b).rulesOfOut (nix "inSnapshot") = [danglingRule] := rfl

set_option maxRecDepth 4000 in
theorem out_message : (k8sWithDeps b).rulesOfOut (nix "message") = (violationRules b).filter fun r =>
    r.head.length ≠ 3 := rfl

theorem mem_danglingRule : danglingRule ∈ violationRules b := by
  have hrules : violationRules b = [_, danglingRule, _, _, _, _, _, _, _, _, _, _, _, _] := rfl
  rw [hrules]
  simp

theorem frontier_danglingRule : danglingRule.frontier = ["from", "s", "msg"] := rfl

theorem danglingRule_ground {σ : Datalog.Valuation Nix2Rdf.Term} {a : DAtom} {v y : Val} {p : Iri}
    (ha : a ∈ danglingRule.head)
    (hground : a.ground σ = ⟨.out, [v, .const (.iri p), y]⟩) : v = σ "v" ∧ (p = nix "subject" → y = σ "from") ∧
      (p = nix "inSnapshot" → y = σ "s") ∧ (p = nix "message" → y = σ "msg") := by
  simp only [danglingRule, violation, message, List.cons_append, List.nil_append, List.mem_cons, List.not_mem_nil,
    or_false] at ha
  rcases ha with rfl | rfl | rfl | rfl | rfl
  all_goals
    simp only [ground_ou, ground_var, ground_iri, Datalog.Fact.mk.injEq, List.cons.injEq, Datalog.Value.const.injEq,
      Term.iri.injEq, and_true, true_and] at hground
    obtain ⟨rfl, rfl, rfl⟩ := hground
    simp

/-- What is said of the node of a dangling reference is said for one valuation. -/
theorem danglingRule_states {σ : Datalog.Valuation Nix2Rdf.Term} {p : Iri} {y : Val}
    (hp : ∀ r ∈ (k8sWithDeps b).rulesOfOut p, r ∈ violationRules b)
    (h : (k8sWithDeps b).Derived quads
      ⟨.out, [.null danglingRule.name "v" (danglingRule.frontier.map σ), .const (.iri p), y]⟩) :
    (p = nix "subject" → y = σ "from") ∧ (p = nix "message" → y = σ "msg") := by
  obtain ⟨r, hr, τ, hfresh, _, a, ha, hground⟩ := (k8sWithDeps b).derived_out_iff.mp h
  obtain ⟨policy, subject, more, body, _, hreports⟩ := violationRules_report b r (hp r hr)
  have hnode := (hreports.head ha hground).1
  have hnull : "v" ∈ r.nulls := by
    rw [hreports.eq]
    exact List.mem_cons_self
  rw [hfresh "v" hnull, Datalog.Value.null.injEq] at hnode
  obtain ⟨hname, _, hfrontier⟩ := hnode
  cases eq_of_name mem_danglingRule (hp r hr) hname
  rw [frontier_danglingRule, List.map_inj_left] at hfrontier
  obtain ⟨_, hsubject, _, hmessage⟩ := danglingRule_ground ha hground
  rw [hfrontier "from" (by simp), hfrontier "msg" (by simp)]
  exact ⟨hsubject, hmessage⟩

/-- A report is made exactly for what the rules call dangling. -/
theorem reportsDangling_iff {g x m : Val} : ReportsDangling b quads g x m ↔
    (k8sWithDeps b).Derived quads ⟨.dangling, [g, x, m]⟩ := by
  constructor
  · rintro ⟨v, _, _, hsubject, hsnapshot, hmessage⟩
    rw [(k8sWithDeps b).derived_out_iff, out_inSnapshot] at hsnapshot
    obtain ⟨r, hr, σ, hfresh, hbody, a, ha, hground⟩ := hsnapshot
    cases List.mem_singleton.mp hr
    obtain ⟨rfl, _, hg, _⟩ := danglingRule_ground ha hground
    rw [hfresh "v" (by simp [danglingRule, violation])] at hsubject hmessage
    have hx := (danglingRule_states (fun r hr => out_subject b ▸ hr) hsubject).1 rfl
    have hm := (danglingRule_states (fun r hr => (List.mem_filter.mp (out_message ▸ hr)).1) hmessage).2 rfl
    rw [hx, hg rfl, hm]
    simpa using hbody (atom .dangling [var "s", var "from", var "msg"]) (by simp [danglingRule, violation])
  · intro h
    have hmem : danglingRule ∈ program (k8sWithDeps b).rules := by
      have hpolicies : danglingRule ∈ k8sPolicies b := (List.mem_filter.mp mem_danglingRule).1
      simp only [program, k8sWithDeps, Ruleset.append, k8sRules, k8sPack, List.mem_append]
      exact .inl (.inr (.inr (.inr hpolicies)))
    let node : Val := .null danglingRule.name "v" [x, g, m]
    have hhead : ∀ a ∈ danglingRule.head, (k8sWithDeps b).Derived quads
        (a.ground (.of m [("v", node), ("from", x), ("s", g)])) := by
      intro a ha
      refine (k8sWithDeps b).derive hmem ⟨_, ?_, ?_, a, ha, rfl⟩
      · intro z hz
        cases List.mem_singleton.mp hz
        rw [frontier_danglingRule]
        simp [node]
      · simpa [danglingRule, violation] using h
    simp only [danglingRule, violation, message, List.cons_append, List.nil_append, List.forall_mem_cons,
      List.not_mem_nil, false_implies, implies_true, and_true, ground_ou, ground_var, ground_iri] at hhead
    obtain ⟨htype, hviolates, hsubject, hsnapshot, hmessage⟩ := hhead
    exact ⟨node, htype, hviolates, hsubject, hsnapshot, hmessage⟩

/-! ## The references of a snapshot -/

section Snapshot

variable {ctx : Ctx} {input : SnapshotInput} {opts : SnapshotOptions} {o : Json}

/-- The subjects of bindings may be users and groups, every other reference is to an object. -/
theorem target_or_subject {e : String × Ref} (he : e ∈ edges o) : e.2.kind ∈ targetKinds ∨
    kind o ∈ ["RoleBinding", "ClusterRoleBinding"] ∧ ∃ sub ∈ arr o ["subjects"],
      e.2 = subjectRef (nsOption (keyOf o).ns) sub := by
  have hnames : ∀ (v : Json) (paths : List (String × List String)), (∀ p ∈ paths, p.1 ∈ targetKinds) →
      ∀ m ∈ namesAt v paths, m.1 ∈ targetKinds := by
    intro v paths hpaths m hm
    obtain ⟨p, hp, hsome⟩ := List.mem_filterMap.mp hm
    obtain ⟨_, _, rfl⟩ := Option.map_eq_some_iff.mp hsome
    exact hpaths p hp
  have hmounts : ∀ ps, ∀ m ∈ podMounts ps, m.1 ∈ targetKinds := by
    intro ps m hm
    simp only [podMounts, containerMounts, volumeMounts, List.mem_append, List.mem_flatMap] at hm
    rcases hm with ⟨_, _, ⟨_, _, hm⟩ | ⟨_, _, hm⟩⟩ | ⟨_, _, hm | ⟨_, _, hm⟩⟩
    all_goals exact hnames _ _ (by decide) m hm
  have hpod : ∀ e ∈ ((podSpec o).map (podEdges o)).getD [], e.2.kind ∈ targetKinds := by
    cases podSpec o with
    | none => simp
    | some ps =>
        intro e he
        simp only [Option.map_some, Option.getD_some, podEdges, List.mem_append, List.mem_map,
          List.mem_singleton] at he
        rcases he with (⟨m, hm, rfl⟩ | ⟨_, _, rfl⟩) | rfl
        · exact hmounts ps m hm
        · simp [targetKinds]
        · simp [targetKinds]
  have hrole : (roleRef (nsOption (keyOf o).ns) o).kind ∈ targetKinds := by
    unfold roleRef
    split
    · simp [targetKinds]
    · simp [targetKinds]
  unfold edges at he
  split at he
  case h_1 | h_2 | h_3 | h_4 | h_5 => exact .inl (hpod e he)
  case h_9 | h_10 =>
    rename_i hkind
    simp only [List.mem_cons, List.mem_map] at he
    rcases he with rfl | ⟨sub, hsub, rfl⟩
    · exact .inl hrole
    · exact .inr ⟨by simp [hkind], sub, hsub, rfl⟩
  case h_6 | h_8 =>
    obtain ⟨_, _, rfl⟩ := List.mem_map.mp he
    simp [targetKinds]
  case h_7 =>
    simp only [List.mem_append, List.mem_map] at he
    rcases he with ⟨_, _, rfl⟩ | ⟨_, _, rfl⟩
    · simp [targetKinds]
    · simp [targetKinds]
  case h_11 => cases he

theorem plain_ref {e : String × Ref} (he : e ∈ edges o) : PlainKind e.2.kind ∧ e.2.kind ≠ "snapshot" := by
  have htargets : ∀ kind ∈ targetKinds, PlainKind kind ∧ kind ≠ "snapshot" := by decide
  have hsubject : ∀ kind ∈ ["user", "group"], PlainKind kind ∧ kind ≠ "snapshot" := by decide
  rcases target_or_subject he with h | ⟨_, sub, _, h⟩
  · exact htargets _ h
  · rw [h]
    unfold subjectRef
    split
    · exact htargets _ (by simp [targetKinds])
    · exact hsubject "user" (by simp)
    · exact hsubject "group" (by simp)

/-- Users and groups are given their class where they are referred to. -/
theorem typed_subject {nsopt : Option String} {oi : Iri} {sub : Json}
    (hother : (subjectRef nsopt sub).kind ∉ targetKinds) :
    ∃ c, addType (ctx.refIri (subjectRef nsopt sub)) c ∈ subjectTriples ctx nsopt oi sub := by
  unfold subjectRef subjectTriples
  unfold subjectRef at hother
  generalize (s sub ["kind"]).getD "" = k at hother ⊢
  by_cases haccount : k = "ServiceAccount"
  · subst haccount
    simp [targetKinds] at hother
  by_cases huser : k = "User"
  · subst huser
    exact ⟨k8s "User", by simp [Ctx.refIri]⟩
  exact ⟨k8s "Group", by simp [Ctx.refIri]⟩

theorem typed_of_edge {counts : KeyMap (BTreeMap Int)} {digests : KeyMap (BTreeMap (List String))} {oi : Iri}
    {e : String × Ref} (he : e ∈ edges o) (hother : e.2.kind ∉ targetKinds) :
    ∃ c, addType (ctx.refIri e.2) c ∈ kindTriples ctx counts digests (keyOf o) (nsOption (keyOf o).ns) oi o := by
  obtain ⟨hkind, sub, hsub, hsame⟩ := (target_or_subject he).resolve_left hother
  rw [hsame] at hother ⊢
  obtain ⟨c, hc⟩ := @typed_subject ctx _ oi _ hother
  have hbinding : addType (ctx.refIri (subjectRef (nsOption (keyOf o).ns) sub)) c
      ∈ bindingTriples ctx (keyOf o) (nsOption (keyOf o).ns) oi o :=
    List.mem_append_right _ (List.mem_flatMap.mpr ⟨sub, hsub, hc⟩)
  have hkey : (keyOf o).kind = kind o := rfl
  simp only [List.mem_cons, List.not_mem_nil, or_false] at hkind
  refine ⟨c, ?_⟩
  rcases hkind with h | h
  · simpa only [kindTriples, hkey, h] using hbinding
  · simpa only [kindTriples, hkey, h] using hbinding

theorem referring_of_edge {e : String × Ref} (he : e ∈ edges o) : kind o ∈ referringKinds := by
  unfold edges at he
  split at he
  case h_11 => cases he
  all_goals
    rename_i hkind
    rw [hkind]
    decide

theorem term_of_edge {e : String × Ref} (he : e ∈ edges o) : e.1 ∈ refTerms := by
  have hpod : ∀ e ∈ ((podSpec o).map (podEdges o)).getD [], e.1 ∈ refTerms := by
    cases podSpec o with
    | none => simp
    | some ps =>
        intro e he
        simp only [Option.map_some, Option.getD_some, podEdges, List.mem_append, List.mem_map,
          List.mem_singleton] at he
        rcases he with (⟨_, _, rfl⟩ | ⟨_, _, rfl⟩) | rfl
        all_goals simp [refTerms]
  unfold edges at he
  split at he
  case h_1 | h_2 | h_3 | h_4 | h_5 => exact hpod e he
  case h_6 | h_8 =>
    obtain ⟨_, _, rfl⟩ := List.mem_map.mp he
    simp [refTerms]
  case h_7 =>
    simp only [List.mem_append, List.mem_map] at he
    rcases he with ⟨_, _, rfl⟩ | ⟨_, _, rfl⟩
    all_goals simp [refTerms]
  case h_9 | h_10 =>
    simp only [List.mem_cons, List.mem_map] at he
    rcases he with rfl | ⟨_, _, rfl⟩
    all_goals simp [refTerms]
  case h_11 => cases he

/-- The references of the objects are the edges of the snapshot. -/
theorem pending_edge_iff {t : Triple} (hp : t.p ∈ refProps) :
    t ∈ (pendingSnapshot (ctxOf input opts) input opts.state).lines ↔
    ∃ k o, (ctxOf input opts).index[k]? = some o ∧ IsEdge (ctxOf input opts) ((ctxOf input opts).iriOf k)
      (edges o) t := by
  obtain ⟨w, hw, hterm⟩ := List.mem_map.mp hp
  have hterms : ∀ w ∈ refTerms, w ∉ headTerms ∧ w ∉ objectTerms ∧
      ∀ kind ∈ termKinds, w ∈ kindTerms kind → kind ∈ referringKinds := by decide
  obtain ⟨hhead, hobject, hkinds⟩ := hterms w hw
  rw [mem_pending_iff hhead hobject hkinds (by decide) hterm.symm]
  constructor
  · rintro ⟨k, o, hk, _, hsays⟩
    exact ⟨k, o, hk, (kindTriples_edges (of_mem_index hk).2.1 hp).mp hsays⟩
  · rintro ⟨k, o, hk, hedge⟩
    obtain ⟨_, hkey, _⟩ := of_mem_index hk
    obtain ⟨e, he, ht⟩ := hedge
    exact ⟨k, o, hk, hkey ▸ referring_of_edge he, (kindTriples_edges hkey hp).mpr ⟨e, he, ht⟩⟩

theorem objIri_ne_snapshot {kind : String} (hplain : PlainKind kind) (hkind : kind ≠ "snapshot")
    (ns : Option String) (name : String)
    {hash : String} (hslash : '/' ∉ hash.toList) : ctx.objIri kind ns name ≠ Iri.k8sSnapshot ctx.cid hash := by
  rw [objIri_plain hplain]
  refine id_slash_ne (by simp) (by simp) ?_ ?_ ?_
  · simp only [List.cons_append, List.nil_append, List.forall_mem_cons, List.forall_mem_append, List.forall_mem_map,
      List.not_mem_nil, false_implies, implies_true, and_true]
    exact ⟨by decide, slash_not_mem_encodeSegment _, hplain.1, fun _ _ => slash_not_mem_encodeSegment _,
      slash_not_mem_encodeSegment _⟩
  · simp only [List.forall_mem_cons, List.not_mem_nil, false_implies, implies_true, and_true]
    exact ⟨by decide, slash_not_mem_encodeSegment _, by decide, hslash⟩
  · cases ns <;> simp [hkind]

theorem ref_ne_snapshot {e : String × Ref} (he : e ∈ edges o) {hash : String} (hslash : '/' ∉ hash.toList) :
    ctx.refIri e.2 ≠ Iri.k8sSnapshot ctx.cid hash :=
  objIri_ne_snapshot (plain_ref he).1 (plain_ref he).2 _ _ hslash

theorem referrer_ne_snapshot {e : String × Ref} {k : Key} (hkey : keyOf o = k) (he : e ∈ edges o) {hash : String}
    (hslash : '/' ∉ hash.toList) : ctx.iriOf k ≠ Iri.k8sSnapshot ctx.cid hash := by
  have hkinds : ∀ kind ∈ referringKinds, PlainKind kind ∧ kind ≠ "snapshot" := by decide
  obtain ⟨hplain, hne⟩ := hkinds k.kind (hkey ▸ referring_of_edge he)
  exact objIri_ne_snapshot hplain hne _ _ hslash

/-- The references of an object that no object of the snapshot answers. -/
def Unresolved (input : SnapshotInput) (o : Json) (r : Ref) : Prop :=
  r ∈ (edges o).map Prod.snd ∧ r.kind ∈ targetKinds ∧ ∀ o' ∈ input.objects, (keyOf o').ref ≠ r

section Final

variable {f : Fragment} {real : String} (hrenames : Renames (pendingSnapshot (ctxOf input opts) input opts.state) f)

include hrenames

theorem final_snapshot : (⟨.iri f.graph, rdfType, .iri (k8s "Snapshot")⟩ : Triple) ∈ f.lines := by
  have hmem : addType (Iri.k8sSnapshot (ctxOf input opts).cid placeholder) (k8s "Snapshot")
      ∈ (pendingSnapshot (ctxOf input opts) input opts.state).lines :=
        mem_pendingSnapshot_head (by simp [snapshotHead])
  rw [hrenames.lines]
  refine Finset.mem_image.mpr ⟨_, hmem, ?_⟩
  have hs : renameTerm (Iri.k8sSnapshot (ctxOf input opts).cid placeholder) f.graph
      (.iri (Iri.k8sSnapshot (ctxOf input opts).cid placeholder)) = .iri f.graph := if_pos rfl
  have ho : renameTerm (Iri.k8sSnapshot (ctxOf input opts).cid placeholder) f.graph (.iri (k8s "Snapshot"))
      = .iri (k8s "Snapshot") := if_neg fun h => k8s_ne_id _ _ (Term.iri.inj h)
  exact congrArg₂ (fun s o => (⟨s, rdfType, o⟩ : Triple)) hs ho

theorem final_edge_iff {x y : Nix2Rdf.Term} : (∃ w ∈ refTerms, (⟨x, k8s w, y⟩ : Triple) ∈ f.lines) ↔
    ∃ k o, (ctxOf input opts).index[k]? = some o ∧ ∃ e ∈ edges o, x = .iri ((ctxOf input opts).iriOf k) ∧
      y = .iri ((ctxOf input opts).refIri e.2) := by
  have hpending : '/' ∉ placeholder.toList := by decide
  have hkept : ∀ k o, keyOf o = k → ∀ e ∈ edges o,
      renameTriple (Iri.k8sSnapshot (ctxOf input opts).cid placeholder) f.graph
        (addIri ((ctxOf input opts).iriOf k) (k8s e.1) ((ctxOf input opts).refIri e.2))
      = addIri ((ctxOf input opts).iriOf k) (k8s e.1) ((ctxOf input opts).refIri e.2) := by
    intro k o hkey e he
    have hs : renameTerm (Iri.k8sSnapshot (ctxOf input opts).cid placeholder) f.graph
      (.iri ((ctxOf input opts).iriOf k))
        = .iri ((ctxOf input opts).iriOf k) := if_neg fun h => referrer_ne_snapshot hkey he hpending (Term.iri.inj h)
    have ho : renameTerm (Iri.k8sSnapshot (ctxOf input opts).cid placeholder) f.graph
      (.iri ((ctxOf input opts).refIri e.2))
        = .iri ((ctxOf input opts).refIri e.2) := if_neg fun h => ref_ne_snapshot he hpending (Term.iri.inj h)
    simp only [renameTriple, addIri, add, hs, ho]
  rw [hrenames.lines]
  constructor
  · rintro ⟨w, hw, ht⟩
    obtain ⟨t, ht, heq⟩ := Finset.mem_image.mp ht
    have hp : t.p = k8s w := congrArg Triple.p heq
    obtain ⟨k, o, hk, e, he, rfl⟩ := (pending_edge_iff (by simp [hp, hw])).mp ht
    have hsame := (hkept k o (of_mem_index hk).2.1 e he).symm.trans heq
    exact ⟨k, o, hk, e, he, (congrArg Triple.s hsame).symm, (congrArg Triple.o hsame).symm⟩
  · rintro ⟨k, o, hk, e, he, rfl, rfl⟩
    have hw := term_of_edge he
    refine ⟨e.1, hw, Finset.mem_image.mpr ⟨_, (pending_edge_iff ?_).mpr ⟨k, o, hk, e, he, rfl⟩, ?_⟩⟩
    · simp [hw]
    · exact hkept k o (of_mem_index hk).2.1 e he

variable (hgraph : f.graph = Iri.k8sSnapshot (ctxOf input opts).cid real) (hslash : '/' ∉ real.toList)

include hgraph hslash

theorem final_typed_iff {e : String × Ref} {o : Json} (he : e ∈ edges o) :
    (∃ c, (⟨.iri ((ctxOf input opts).refIri e.2), rdfType, c⟩ : Triple) ∈ f.lines) ↔
    ∃ c, (⟨.iri ((ctxOf input opts).refIri e.2), rdfType, c⟩ : Triple) ∈
      (pendingSnapshot (ctxOf input opts) input opts.state).lines := by
  have hpending : '/' ∉ placeholder.toList := by decide
  have hkept : renameTerm (Iri.k8sSnapshot (ctxOf input opts).cid placeholder) f.graph
    (.iri ((ctxOf input opts).refIri e.2))
      = .iri ((ctxOf input opts).refIri e.2) := if_neg fun h => ref_ne_snapshot he hpending (Term.iri.inj h)
  rw [hrenames.lines]
  constructor
  · rintro ⟨c, ht⟩
    obtain ⟨t, ht, heq⟩ := Finset.mem_image.mp ht
    have hp : t.p = rdfType := congrArg Triple.p heq
    have hs : renameTerm (Iri.k8sSnapshot (ctxOf input opts).cid placeholder) f.graph t.s =
        .iri ((ctxOf input opts).refIri e.2) :=
      congrArg Triple.s heq
    refine ⟨t.o, ?_⟩
    unfold renameTerm at hs
    split at hs
    · rw [hgraph] at hs
      exact absurd (Term.iri.inj hs).symm (ref_ne_snapshot he hslash)
    · rwa [← hs, ← hp]
  · rintro ⟨c, ht⟩
    refine ⟨renameTerm (Iri.k8sSnapshot (ctxOf input opts).cid placeholder) f.graph c,
      Finset.mem_image.mpr ⟨_, ht, ?_⟩⟩
    rw [renameTriple]
    exact congrArg (fun s => (⟨s, _, _⟩ : Triple)) hkept

/-- A reference finds no class for its target in the graph exactly when it is unresolved. -/
theorem final_dangles_iff {k : Key} {o : Json} (hk : (ctxOf input opts).index[k]? = some o) {e : String × Ref}
    (he : e ∈ edges o) :
    (¬ ∃ c, (⟨.iri ((ctxOf input opts).refIri e.2), rdfType, c⟩ : Triple) ∈ f.lines) ↔ Unresolved input o e.2 := by
  obtain ⟨_, hkey, _⟩ := of_mem_index hk
  have hnamed : e.2 ∈ (edges o).map Prod.snd := List.mem_map_of_mem he
  rw [final_typed_iff hrenames hgraph hslash he]
  by_cases htarget : e.2.kind ∈ targetKinds
  · rw [typed_iff htarget]
    simp [Unresolved, hnamed, htarget]
  · refine iff_of_false (not_not_intro ?_) fun h => htarget h.2.1
    have hreferring : ∀ kind ∈ referringKinds, kind ≠ "ReplicaSet" := by decide
    obtain ⟨c, hc⟩ := typed_of_edge he htarget
    rw [hkey] at hc
    exact ⟨_, mem_pending hk (hreferring _ (hkey ▸ referring_of_edge he)) (kindTriples_subset hc)⟩

end Final

theorem q_graph_iff {f : Fragment} (hquads : ∀ q : Quad, q.g = f.graph →
    (quads q ↔ (⟨q.s, q.p, q.o⟩ : Triple) ∈ f.lines))
    {v y : Val} {p : Iri} : (k8sWithDeps b).Derived quads ⟨.q, [.const (.iri f.graph), v, .const (.iri p), y]⟩ ↔
      ∃ s o, v = .const s ∧ y = .const o ∧ (⟨s, p, o⟩ : Triple) ∈ f.lines := by
  rw [(k8sWithDeps b).quad_iff]
  constructor
  · rintro ⟨q, hq, hg, rfl, rfl, rfl⟩
    have hin : q.g = f.graph := (Term.iri.inj (Datalog.Value.const.inj hg)).symm
    exact ⟨q.s, q.o, rfl, rfl, (hquads q hin).mp hq⟩
  · rintro ⟨s, o, rfl, rfl, ht⟩
    exact ⟨⟨f.graph, s, p, o⟩, (hquads _ rfl).mpr ht, rfl, rfl, rfl, rfl⟩

/-- Exactly the references that no object of the snapshot answers are reported in its graph, each with its referrer. -/
theorem dangling_exact {x : Extern} {now : String} {v m : Val}
    (hhash : ∀ bs, HexText (x.sha256Hex bs) ∧ x.sha256Hex bs ≠ "")
    (hnames : NameOnly (pendingSnapshot (ctxOf input opts) input opts.state))
    (hquads : ∀ q : Quad, q.g = (buildSnapshot x now input opts).snapshot.graph →
      (quads q ↔ (⟨q.s, q.p, q.o⟩ : Triple) ∈ (buildSnapshot x now input opts).snapshot.lines)) :
    ReportsDangling b quads (.const (.iri (buildSnapshot x now input opts).snapshot.graph)) v m ↔
      ∃ k o, (ctxOf input opts).index[k]? = some o ∧ v = .const (.iri ((ctxOf input opts).iriOf k)) ∧
        ∃ r, Unresolved input o r ∧ (b.fullStr (.const (.iri ((ctxOf input opts).refIri r)))).map
          .const = some m := by
  have hrenames : Renames (pendingSnapshot (ctxOf input opts) input opts.state)
      (buildSnapshot x now input opts).snapshot :=
    (snapshot_renames_iff (hhash _).1 (hhash _).2).mpr hnames
  have hslash : ∀ bs, '/' ∉ (x.sha256Hex bs).toList := by
    intro bs hmem
    have hcode : ('/' : Char).toNat = 47 := rfl
    have hrange := (hhash bs).1 '/' hmem
    omega
  have hgraph : (buildSnapshot x now input opts).snapshot.graph = Iri.k8sSnapshot (ctxOf input opts).cid
      (contentHash x (pendingSnapshot (ctxOf input opts) input opts.state)) := rfl
  generalize (buildSnapshot x now input opts).snapshot = f at hrenames hquads hgraph ⊢
  have hsnapshot : (k8sWithDeps b).Derived quads ⟨.kSnapshot, [.const (.iri f.graph)]⟩ := by
    have hrules : (k8sWithDeps b).rulesFor .kSnapshot = [narrowTo .kSnapshot rdfType (iri (k8s "Snapshot"))] := rfl
    refine ((k8sWithDeps b).narrowTo_iff hrules (by simp)).mpr ?_
    exact (k8sWithDeps b).t_of_quad (x := ⟨f.graph, .iri f.graph, rdfType, .iri (k8s "Snapshot")⟩)
      ((hquads _ rfl).mpr (final_snapshot hrenames))
  rw [reportsDangling_iff, dangling_iff, and_iff_right hsnapshot]
  simp only [refIn_iff, typedIn_iff, q_graph_iff hquads]
  constructor
  · rintro ⟨y, ⟨w, hw, s, o', rfl, rfl, ht⟩, htyped, htext⟩
    obtain ⟨k, o, hk, e, he, rfl, rfl⟩ := (final_edge_iff hrenames).mp ⟨w, hw, ht⟩
    refine ⟨k, o, hk, rfl, e.2, (final_dangles_iff hrenames hgraph (hslash _) hk he).mp ?_, htext⟩
    rintro ⟨c, hc⟩
    exact htyped ⟨_, _, _, rfl, rfl, hc⟩
  · rintro ⟨k, o, hk, rfl, r, hr, htext⟩
    obtain ⟨e, he, rfl⟩ := List.mem_map.mp hr.1
    obtain ⟨w, hw, ht⟩ := (final_edge_iff hrenames).mpr ⟨k, o, hk, e, he, rfl, rfl⟩
    refine ⟨_, ⟨w, hw, _, _, rfl, rfl, ht⟩, ?_, htext⟩
    rintro ⟨c, s, o', hs, _, hc⟩
    cases hs
    exact (final_dangles_iff hrenames hgraph (hslash _) hk he).mpr hr ⟨o', hc⟩

end Snapshot

/-! A claim of a storage class that the cluster does not have. -/

instance decidableMarked : (t : Nix2Rdf.Term) → Decidable (Marked t)
  | .iri _ => inferInstanceAs (Decidable (_ <:+: _))
  | .bnode _ => inferInstanceAs (Decidable (_ <:+: _))
  | .literal _ _ => inferInstanceAs (Decidable (_ <:+: _ ∨ _ <:+: _))
  | .lang _ _ => inferInstanceAs (Decidable (_ <:+: _ ∨ _ <:+: _))

def storageClaim : Json :=
  .obj [("kind", .str "PersistentVolumeClaim"),
    ("metadata", .obj [("name", .str "data"), ("namespace", .str "shop")]),
    ("spec", .obj [("storageClassName", .str "fast")])]

def storageInput : SnapshotInput := { objects := [storageClaim] }

def storageSnapshot : Fragment :=
  (buildSnapshot workerExtern "2026-01-01T00:00:00Z" storageInput homeOptions).snapshot

/-- An IRI is put in angle brackets. -/
def bracketed : Builtins where
  __ := noBuiltins
  fullStr
    | .const (.iri i) => some (.literal ("<" ++ i ++ ">") (xsd "string"))
    | _ => none

theorem storage_nameOnly :
    NameOnly (pendingSnapshot (ctxOf storageInput homeOptions) storageInput homeOptions.state) := by
  have hall : ∀ t ∈ snapshotHead (ctxOf storageInput homeOptions) storageInput .live
    (Iri.k8sSnapshot "home" placeholder)
      ++ (countedObjects (ctxOf storageInput homeOptions)).flatMap (objectTriples (ctxOf storageInput homeOptions)
        (placement (ctxOf storageInput homeOptions) storageInput.pods)
          (pulled (ctxOf storageInput homeOptions) storageInput.pods)
        (Iri.k8sSnapshot "home" placeholder)),
      ∀ u ∈ [t.s, t.o], u = .iri (pendingGraph "home" "snapshot") ∨ ¬ Marked u := by decide +kernel
  exact fun t ht => hall t (Fragment.mem_ofTriples.mp ht)

theorem dangling_exact_storage : ReportsDangling bracketed
    (fun q => q.g = storageSnapshot.graph ∧ (⟨q.s, q.p, q.o⟩ : Triple) ∈ storageSnapshot.lines)
    (.const (.iri storageSnapshot.graph)) (.const (.iri (id "k8s/home/PersistentVolumeClaim/shop/data")))
    (.const (.literal ("<" ++ id "k8s/home/StorageClass/fast" ++ ">") (xsd "string"))) := by
  have hclaim : id "k8s/home/PersistentVolumeClaim/shop/data"
      = (ctxOf storageInput homeOptions).iriOf ⟨"PersistentVolumeClaim", "shop", "data"⟩ := by decide
  have hclass : (ctxOf storageInput homeOptions).refIri ⟨"StorageClass", none, "fast"⟩ =
    id "k8s/home/StorageClass/fast" := by decide
  have hindex : (ctxOf storageInput homeOptions).index[(⟨"PersistentVolumeClaim", "shop", "data"⟩ : Key)]? =
    some storageClaim := rfl
  refine (dangling_exact (fun bs => ⟨workerExtern_hex bs, workerExtern_ne bs⟩) storage_nameOnly
    fun q hq => and_iff_right hq).mpr
      ⟨_, _, hindex, ?_, ⟨"StorageClass", none, "fast"⟩, ⟨by decide, by decide, by decide⟩, ?_⟩
  · rw [hclaim]
  · rw [hclass]
    exact Option.map_some _ _

end Nix2Rdf.Packs
