import Nix2Rdf.Packs.Program

/-!
# Violations

A policy of the k8s pack reports a violation as a node of its own. The node stands for the rule and for
what the rule says of it, so that a report is traced back to one rule and one valuation.
-/

namespace Nix2Rdf.Packs

variable (b : Builtins)

/-- The rules that report violations. -/
def violationRules : List DRule := (k8sPolicies b).filter fun r => !r.nulls.isEmpty

/-- A violation of a policy is reported for the subject. -/
def Reported (quads : Quad → Prop) (policy : String) (subject : Val) : Prop :=
  let holds := fun (x : Val) (p : Iri) (v : Val) => (k8sWithDeps b).Derived quads ⟨.out, [x, .const (.iri p), v]⟩
  ∃ x, holds x rdfType (.const (.iri (nix "Violation"))) ∧
    holds x (nix "violates") (.const (.iri (policyBase ++ "k8s/" ++ policy))) ∧ holds x (nix "subject") subject

/-- A rule that reports the value of a variable. -/
structure ReportsFor (r : DRule) (policy subject : String) (more : List DAtom) (body : List DLiteral) : Prop where
  eq : r = violation r.name policy (var subject) more body
  elsewhere : ∀ a ∈ more, ∃ p o, a = ou (var "v") p o ∧ p ∉ [rdfType, nix "violates", nix "subject"]
  subject : subject ≠ "v"

set_option maxRecDepth 4000 in
theorem out_violates : (k8sWithDeps b).rulesOfOut (nix "violates") = violationRules b := rfl

set_option maxRecDepth 4000 in
theorem out_subject : (k8sWithDeps b).rulesOfOut (nix "subject") = violationRules b := rfl

/-- The names of the rules, with their policies. -/
def policyNames : List (String × String) :=
  [("cve", "cve-in-production"), ("dangling", "dangling-reference"), ("generation", "host-container-mismatch"),
    ("kernel", "host-container-mismatch"), ("limits-cpu", "missing-limits"), ("limits-memory", "missing-limits"),
    ("owner", "missing-owner"), ("pdb", "no-pdb"), ("admin", "privilege-path"), ("secrets", "privilege-path"),
    ("zone", "single-failure-domain"), ("volume", "single-failure-domain"), ("unresolved", "unresolved-image"),
    ("unsigned", "unsigned-image")]

theorem violationRules_names : (violationRules b).map Datalog.Rule.name = policyNames.map Prod.fst := rfl

section

variable {name policy subject : String} {body : List DLiteral} (h : subject ≠ "v")

include h

theorem reportsFor_plain : ReportsFor (violation name policy (var subject) [] body) policy subject [] body :=
  ⟨rfl, by simp, h⟩

theorem reportsFor_message (m : DTerm) :
    ReportsFor (violation name policy (var subject) [message m] body) policy subject [message m] body := by
  refine ⟨rfl, ?_, h⟩
  intro a ha
  cases List.mem_singleton.mp ha
  exact ⟨_, _, rfl, by simp⟩

theorem reportsFor_snapshot (g m : DTerm) :
    ReportsFor (violation name policy (var subject) [ou (var "v") (nix "inSnapshot") g, message m] body)
      policy subject [ou (var "v") (nix "inSnapshot") g, message m] body := by
  refine ⟨rfl, ?_, h⟩
  intro a ha
  rcases List.mem_cons.mp ha with rfl | ha
  · exact ⟨_, _, rfl, by simp⟩
  · cases List.mem_singleton.mp ha
    exact ⟨_, _, rfl, by simp⟩

end

theorem violationRules_report : ∀ r ∈ violationRules b, ∃ policy subject more body,
    (r.name, policy) ∈ policyNames ∧ ReportsFor r policy subject more body := by
  have hrules : violationRules b = [_, _, _, _, _, _, _, _, _, _, _, _, _, _] := rfl
  rw [hrules]
  simp only [List.forall_mem_cons, List.not_mem_nil, false_implies, implies_true, and_true]
  have hmem : ∀ np ∈ policyNames, ∀ r : DRule, r.name = np.1 → (r.name, np.2) ∈ policyNames := by
    intro np hnp r hname
    rw [hname]
    exact hnp
  exact ⟨⟨_, _, _, _, hmem ("cve", _) (by decide) _ rfl, reportsFor_message (by decide) _⟩,
    ⟨_, _, _, _, hmem ("dangling", _) (by decide) _ rfl, reportsFor_snapshot (by decide) _ _⟩,
    ⟨_, _, _, _, hmem ("generation", _) (by decide) _ rfl, reportsFor_message (by decide) _⟩,
    ⟨_, _, _, _, hmem ("kernel", _) (by decide) _ rfl, reportsFor_message (by decide) _⟩,
    ⟨_, _, _, _, hmem ("limits-cpu", _) (by decide) _ rfl, reportsFor_plain (by decide)⟩,
    ⟨_, _, _, _, hmem ("limits-memory", _) (by decide) _ rfl, reportsFor_plain (by decide)⟩,
    ⟨_, _, _, _, hmem ("owner", _) (by decide) _ rfl, reportsFor_plain (by decide)⟩,
    ⟨_, _, _, _, hmem ("pdb", _) (by decide) _ rfl, reportsFor_plain (by decide)⟩,
    ⟨_, _, _, _, hmem ("admin", _) (by decide) _ rfl, reportsFor_message (by decide) _⟩,
    ⟨_, _, _, _, hmem ("secrets", _) (by decide) _ rfl, reportsFor_message (by decide) _⟩,
    ⟨_, _, _, _, hmem ("zone", _) (by decide) _ rfl, reportsFor_plain (by decide)⟩,
    ⟨_, _, _, _, hmem ("volume", _) (by decide) _ rfl, reportsFor_message (by decide) _⟩,
    ⟨_, _, _, _, hmem ("unresolved", _) (by decide) _ rfl, reportsFor_message (by decide) _⟩,
    ⟨_, _, _, _, hmem ("unsigned", _) (by decide) _ rfl, reportsFor_plain (by decide)⟩⟩

variable {b} {quads : Quad → Prop}

theorem ReportsFor.head {r : DRule} {policy subject : String} {more : List DAtom} {body : List DLiteral}
    (h : ReportsFor r policy subject more body) {σ : Datalog.Valuation Nix2Rdf.Term} {x v : Val} {p : Iri} {a : DAtom}
    (ha : a ∈ r.head) (hground : a.ground σ = ⟨.out, [x, .const (.iri p), v]⟩) :
    x = σ "v" ∧ (p = nix "violates" → v = .const (.iri (policyBase ++ "k8s/" ++ policy))) ∧
      (p = nix "subject" → v = σ subject) := by
  rw [h.eq, violation, List.mem_append] at ha
  simp only [List.mem_cons, List.not_mem_nil, or_false] at ha
  rcases ha with (rfl | rfl | rfl) | ha
  · simp only [ground_ou, ground_var, Datalog.Fact.mk.injEq, List.cons.injEq, and_true, true_and,
      Datalog.Value.const.injEq, Term.iri.injEq] at hground
    obtain ⟨rfl, rfl, rfl⟩ := hground
    simp
  · simp only [ground_ou, ground_var, Datalog.Fact.mk.injEq, List.cons.injEq, and_true, true_and,
      Datalog.Value.const.injEq, Term.iri.injEq] at hground
    obtain ⟨rfl, rfl, rfl⟩ := hground
    simp [iri]
  · simp only [ground_ou, ground_var, Datalog.Fact.mk.injEq, List.cons.injEq, and_true, true_and,
      Datalog.Value.const.injEq, Term.iri.injEq] at hground
    obtain ⟨rfl, rfl, rfl⟩ := hground
    simp
  · obtain ⟨q, o, rfl, hq⟩ := h.elsewhere a ha
    simp only [ground_ou, ground_var, Datalog.Fact.mk.injEq, List.cons.injEq, and_true, true_and,
      Datalog.Value.const.injEq, Term.iri.injEq] at hground
    obtain ⟨rfl, rfl, _⟩ := hground
    simp only [List.mem_cons, List.not_mem_nil, or_false, not_or] at hq
    exact ⟨rfl, fun hp => absurd hp hq.2.1, fun hp => absurd hp hq.2.2⟩

/-- What a rule says of a violation node comes with the null of the rule. -/
theorem violation_inv {p : Iri} (hp : (k8sWithDeps b).rulesOfOut p = violationRules b) {x v : Val}
    (h : (k8sWithDeps b).Derived quads ⟨.out, [x, .const (.iri p), v]⟩) :
    ∃ r ∈ violationRules b, ∃ policy subject more body, ReportsFor r policy subject more body ∧ ∃ σ, r.Fresh σ ∧
      x = .null r.name "v" (r.frontier.map σ) ∧ (∀ l ∈ body, l.Holds ((k8sWithDeps b).Derived quads) σ) ∧
      (p = nix "violates" → v = .const (.iri (policyBase ++ "k8s/" ++ policy))) ∧
      (p = nix "subject" → v = σ subject) := by
  obtain ⟨r, hr, σ, hfresh, hbody, a, ha, hground⟩ := (k8sWithDeps b).derived_out_iff.mp h
  rw [hp] at hr
  obtain ⟨policy, subject, more, body, _, hreports⟩ := violationRules_report b r hr
  obtain ⟨rfl, hviolates, hsubject⟩ := hreports.head ha hground
  have hnull : "v" ∈ r.nulls := by
    rw [hreports.eq]
    exact List.mem_cons_self
  have hsame : r.body = body := congrArg Datalog.Rule.body hreports.eq
  exact ⟨r, hr, policy, subject, more, body, hreports, σ, hfresh, hfresh "v" hnull, hsame ▸ hbody,
    hviolates, hsubject⟩

theorem ReportsFor.subject_mem {r : DRule} {policy subject : String} {more : List DAtom} {body : List DLiteral}
    (h : ReportsFor r policy subject more body) : subject ∈ r.frontier := by
  rw [h.eq]
  simp only [Datalog.Rule.frontier, List.mem_dedup, List.mem_filter, List.mem_flatMap]
  refine ⟨⟨ou (var "v") (nix "subject") (var subject), ?_, var subject, ?_, ?_⟩, ?_⟩
  · simp [violation]
  · simp [ou]
  · simp [var, Datalog.Term.vars]
  · simpa [violation] using h.subject

theorem eq_of_name {r r' : DRule} (hr : r ∈ violationRules b) (hr' : r' ∈ violationRules b) (h : r.name = r'.name) :
    r = r' := by
  have hnodup : ((violationRules b).map Datalog.Rule.name).Nodup := by
    rw [violationRules_names]
    decide
  exact List.inj_on_of_nodup_map hnodup hr hr' h

theorem ReportsFor.unique {r : DRule} {policy policy' subject subject' : String} {more more' : List DAtom}
    {body body' : List DLiteral} (h : ReportsFor r policy subject more body)
    (h' : ReportsFor r policy' subject' more' body') : policy = policy' ∧ subject = subject' ∧ body = body' := by
  have heq := h.eq.symm.trans h'.eq
  simp only [violation, iri, var, ou, List.cons_append, List.nil_append, Datalog.Rule.mk.injEq, List.cons.injEq,
    Datalog.Atom.mk.injEq, Datalog.Term.const.injEq, Datalog.Term.var.injEq, Term.iri.injEq, String.append_right_inj,
    and_true, true_and] at heq
  obtain ⟨⟨hpolicy, hsubject, _⟩, hbody⟩ := heq
  exact ⟨hpolicy, hsubject, hbody⟩

/-- A violation is reported exactly when a rule of the policy fires for the subject. -/
theorem reported_iff {policy : String} {sv : Val} : Reported b quads policy sv ↔
    ∃ r ∈ violationRules b, ∃ subject more body, ReportsFor r policy subject more body ∧
      ∃ σ, r.Fresh σ ∧ (∀ l ∈ body, l.Holds ((k8sWithDeps b).Derived quads) σ) ∧ σ subject = sv := by
  constructor
  · rintro ⟨x, _, hviolates, hsubject⟩
    obtain ⟨r, hr, policy', subject, more, body, hreports, σ, hfresh, hx, hbody, hpolicy, _⟩ :=
      violation_inv (out_violates b) hviolates
    obtain ⟨r', hr', _, subject', _, _, hreports', σ', _, hx', _, _, hsv⟩ := violation_inv (out_subject b) hsubject
    rw [hx, Datalog.Value.null.injEq] at hx'
    obtain ⟨hname, _, hfrontier⟩ := hx'
    cases eq_of_name hr hr' hname
    obtain ⟨_, rfl, _⟩ := hreports.unique hreports'
    have hsame : policy' = policy := by
      have hiri := hpolicy rfl
      simpa using hiri.symm
    cases hsame
    refine ⟨r, hr, subject, more, body, hreports, σ, hfresh, hbody, ?_⟩
    rw [hsv rfl]
    exact List.map_inj_left.mp hfrontier subject hreports.subject_mem
  · rintro ⟨r, hr, subject, more, body, hreports, σ, hfresh, hbody, rfl⟩
    have hmem : r ∈ program (k8sWithDeps b).rules := by
      have hpolicies := (List.mem_filter.mp hr).1
      simp only [program, k8sWithDeps, Ruleset.append, k8sRules, k8sPack, List.mem_append]
      exact .inl (.inr (.inr (.inr hpolicies)))
    have hhead : ∀ a ∈ r.head, (k8sWithDeps b).Derived quads (a.ground σ) := by
      intro a ha
      refine (k8sWithDeps b).derive hmem ⟨σ, hfresh, ?_, a, ha, rfl⟩
      rw [hreports.eq]
      exact hbody
    rw [hreports.eq] at hhead
    refine ⟨σ "v", hhead (ou (var "v") rdfType (iri (nix "Violation"))) ?_,
      hhead (ou (var "v") (nix "violates") (iri (policyBase ++ "k8s/" ++ policy))) ?_,
      hhead (ou (var "v") (nix "subject") (var subject)) ?_⟩
    · simp [violation]
    · simp [violation]
    · simp [violation]

end Nix2Rdf.Packs
