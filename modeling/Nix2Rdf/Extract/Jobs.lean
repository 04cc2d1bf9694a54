import Nix2Rdf.Extract.Nixpkgs

/-!
# Evaluation results in any order

The jobs arrive from parallel workers, and several attribute paths may evaluate to one derivation.
Which of their facts survive is decided by the map from derivations to attributes: of the jobs of one
derivation path the last one is kept.
-/

namespace Nix2Rdf.Nixpkgs

open Triple Extract

/-! ## The map from derivations to attributes -/

theorem collect_of_evaluated {acc : List String × BTreeMap (String × Meta)} {j : EvalJob} {p : String}
    (h : evaluated j = some p) :
    collect acc j = (acc.1 ++ [p], acc.2.insert p (attrOf j, metaOf j)) := by
  rw [collect, h]

theorem collect_of_failed {acc : List String × BTreeMap (String × Meta)} {j : EvalJob}
    (h : evaluated j = none) : collect acc j = acc := by
  rw [collect, h]

theorem collected_append (jobs jobs' : List EvalJob) :
    collected (jobs ++ jobs') = jobs'.foldl collect (collected jobs) :=
  List.foldl_append

/-- The roots are the derivations of the jobs, in the order of the jobs. -/
theorem collected_fst (jobs : List EvalJob) : (collected jobs).1 = jobs.filterMap evaluated := by
  induction jobs using List.reverseRecOn with
  | nil => rfl
  | append_singleton jobs j ih =>
      rw [collected_append, List.filterMap_append, ← ih, List.foldl_cons, List.foldl_nil]
      cases h : evaluated j with
      | none => simp [collect_of_failed h, h]
      | some p => simp [collect_of_evaluated h, h]

theorem metas_append_singleton (jobs : List EvalJob) (j : EvalJob) (p : String) :
    (metas (jobs ++ [j]))[p]? =
      if evaluated j = some p then some (attrOf j, metaOf j) else (metas jobs)[p]? := by
  rw [metas, collected_append, List.foldl_cons, List.foldl_nil]
  cases h : evaluated j with
  | none =>
      rw [collect_of_failed h, if_neg nofun]
      rfl
  | some q =>
      rw [collect_of_evaluated h, Std.ExtTreeMap.getElem?_insert]
      simp only [Std.LawfulEqCmp.compare_eq_iff_eq, Option.some.injEq]
      rfl

/-- Of the jobs of one derivation path a job from the end of the list is kept. -/
theorem metas_append (jobs : List EvalJob) {jobs' : List EvalJob} {p : String}
    (h : ∃ j ∈ jobs', evaluated j = some p) :
    ∃ j ∈ jobs', evaluated j = some p ∧ (metas (jobs ++ jobs'))[p]? = some (attrOf j, metaOf j) := by
  induction jobs' using List.reverseRecOn with
  | nil =>
      obtain ⟨j, hj, _⟩ := h
      cases hj
  | append_singleton jobs' k ih =>
      rw [← List.append_assoc, metas_append_singleton]
      by_cases hk : evaluated k = some p
      · exact ⟨k, by simp, hk, if_pos hk⟩
      · have h' : ∃ j ∈ jobs', evaluated j = some p := by
          obtain ⟨j, hj, hp⟩ := h
          rcases List.mem_append.mp hj with hj | hj
          · exact ⟨j, hj, hp⟩
          · cases List.mem_singleton.mp hj
            exact absurd hp hk
        obtain ⟨j, hj, hp, hm⟩ := ih h'
        exact ⟨j, List.mem_append_left _ hj, hp, by rw [if_neg hk, hm]⟩

theorem job_of_metas {jobs : List EvalJob} {p : String} {v : String × Meta}
    (h : (metas jobs)[p]? = some v) : ∃ j ∈ jobs, evaluated j = some p ∧ v = (attrOf j, metaOf j) := by
  induction jobs using List.reverseRecOn with
  | nil =>
      rw [metas, collected, List.foldl_nil, Std.ExtTreeMap.getElem?_empty] at h
      cases h
  | append_singleton jobs k ih =>
      rw [metas_append_singleton] at h
      by_cases hk : evaluated k = some p
      · rw [if_pos hk] at h
        cases h
        exact ⟨k, by simp, hk, rfl⟩
      · rw [if_neg hk] at h
        obtain ⟨j, hj, hp, hv⟩ := ih h
        exact ⟨j, List.mem_append_left _ hj, hp, hv⟩

/-! ## The roots -/

theorem mem_roots {jobs : List EvalJob} {p : String} :
    p ∈ roots jobs ↔ ∃ j ∈ jobs, evaluated j = some p := by
  rw [roots, List.mem_dedup, mem_sorted, collected_fst, List.mem_filterMap]

theorem roots_perm {jobs jobs' : List EvalJob} (h : jobs.Perm jobs') : roots jobs = roots jobs' := by
  have hp : (collected jobs).1.Perm (collected jobs').1 := by
    rw [collected_fst, collected_fst]
    exact h.filterMap _
  have hs : sorted (collected jobs).1 = sorted (collected jobs').1 := by
    have hperm := ((List.perm_insertionSort (· ≤ ·) _).trans hp).trans
      (List.perm_insertionSort (· ≤ ·) _).symm
    exact hperm.eq_of_pairwise (fun a b _ _ => le_antisymm) (List.pairwise_insertionSort _ _)
      (List.pairwise_insertionSort _ _)
  rw [roots, roots, hs]

/-! ## The graph holds its roots -/

theorem flatten_toChunks_go {n : Nat} (xs : List String) (acc : Array String)
    (done : Array (List String)) :
    (List.toChunks.go n xs acc done).flatten = done.toList.flatten ++ acc.toList ++ xs := by
  induction xs generalizing acc done with
  | nil => simp [List.toChunks.go]
  | cons x xs ih =>
      rw [List.toChunks.go]
      split
      · rw [ih]
        simp
      · rw [ih]
        simp

theorem flatten_toChunks (n : Nat) (xs : List String) : (xs.toChunks (n + 1)).flatten = xs := by
  cases xs with
  | nil => rfl
  | cons x xs =>
      rw [List.toChunks, flatten_toChunks_go]
      · simp
      · exact Nat.succ_ne_zero n

/-- `nix derivation show` shows the derivations it is asked for. -/
def ShowsRoots (src : NixSource) : Prop :=
  ∀ installables m, src.derivationShow installables true = .ok m → ∀ p ∈ installables, p ∈ m

variable {x : Extern} {src : NixSource} {readDrvFile : String → Result DrvInfo} {turns : Nat}
  {o : EvalOptions}

theorem mem_batches (hshow : ShowsRoots src) {chunks : List (List String)} {all m : BTreeMap DrvInfo}
    (h : chunks.foldlM
      (fun all chunk => do
        let m ← src.derivationShow chunk true
        return all.insertMany m.toList)
      all = (.ok m : Result _)) {p : String} (hp : p ∈ all ∨ p ∈ chunks.flatten) : p ∈ m := by
  induction chunks generalizing all with
  | nil =>
      cases h
      exact hp.resolve_right List.not_mem_nil
  | cons chunk chunks ih =>
      simp only [List.foldlM_cons, Result.bind_eq_ok, Result.pure_eq_ok] at h
      obtain ⟨all', ⟨shown, hshown, rfl⟩, h⟩ := h
      have hin : p ∈ all ∨ p ∈ shown → p ∈ all.insertMany shown.toList := by
        intro hp
        rw [Std.ExtTreeMap.mem_insertMany_list]
        rcases hp with hp | hp
        · exact .inl hp
        · exact .inr (by simpa using hp)
      apply ih h
      rw [List.flatten_cons, List.mem_append] at hp
      rcases hp with hp | hp | hp
      · exact .inl (hin (.inl hp))
      · exact .inl (hin (.inr (hshow _ _ hshown p hp)))
      · exact .inr hp

theorem mem_readGraph (hshow : ShowsRoots src) {rs : List String} {m : BTreeMap DrvInfo}
    (h : readGraph src readDrvFile turns o rs = .ok m) {p : String} (hp : p ∈ rs) : p ∈ m := by
  rw [readGraph] at h
  split at h
  · exact DrvFile.mem_readClosure h hp
  · exact mem_batches hshow h (.inr (by rwa [flatten_toChunks]))

theorem drvHashes_getElem? {drvs : BTreeMap DrvInfo} {p hash : String} (hp : p ∈ drvs)
    (hhash : storePathHash p = some hash) :
    (Std.ExtTreeMap.ofList (drvs.toList.filterMap fun d =>
      (storePathHash d.1).map fun h => (d.1, h)) compare)[p]? = some hash := by
  apply Std.ExtTreeMap.getElem?_ofList_of_mem Std.ReflCmp.compare_self
  · rw [List.pairwise_filterMap]
    refine Std.ExtTreeMap.distinct_keys_toList.imp ?_
    intro a b hab a' ha b' hb
    obtain ⟨h, _, rfl⟩ := Option.map_eq_some_iff.mp ha
    obtain ⟨h', _, rfl⟩ := Option.map_eq_some_iff.mp hb
    exact hab
  · apply List.mem_filterMap.mpr
    refine ⟨(p, drvs[p]), ?_, by simp [hhash]⟩
    exact Std.ExtTreeMap.mem_toList_iff_getElem?_eq_some.mpr (Std.ExtTreeMap.getElem?_eq_some_getElem hp)

theorem extractFromDrvs_drvIri {drvs : BTreeMap DrvInfo} {env : EnvMode} {g : GraphExtraction}
    (h : extractFromDrvs x src drvs env = .ok g) {p : String} (hp : p ∈ drvs) :
    ∃ hash, storePathHash p = some hash ∧ g.drvIri p = some (Iri.drv hash) := by
  simp only [extractFromDrvs, Result.bind_eq_ok] at h
  obtain ⟨infos, _, srcHashes, _, perDrv, hper, h⟩ := h
  obtain rfl := Result.pure_eq_ok.mp h
  have hmem : (p, drvs[p]) ∈ drvs.toList :=
    Std.ExtTreeMap.mem_toList_iff_getElem?_eq_some.mpr (Std.ExtTreeMap.getElem?_eq_some_getElem hp)
  obtain ⟨fs, _, hfs⟩ := Result.mem_mapM hper hmem
  simp only [drvFragments, Result.bind_eq_ok] at hfs
  obtain ⟨hash, hhash, _⟩ := hfs
  have hsome := storeHash_eq_ok.mp hhash
  refine ⟨hash, hsome, ?_⟩
  rw [GraphExtraction.drvIri, drvHashes_getElem? hp hsome]
  rfl

/-! ## What the fragment says -/

/-- The fragment of the revision among the fragments of a run. -/
def nixpkgsFragment (rev : String) (frags : List Fragment) : Option Fragment :=
  frags.find? fun f => f.kind = .nixpkgs rev

theorem drvFragments_kind {env : EnvMode} {srcHashes : BTreeMap String} {drv : String × DrvInfo}
    {fs : List Fragment} (h : drvFragments x env srcHashes drv = .ok fs) {f : Fragment} (hf : f ∈ fs)
    (rev : String) : f.kind ≠ .nixpkgs rev := by
  have hd : ∀ {f : Fragment}, derivationFragment x drv.1 drv.2 srcHashes = .ok f →
      f.kind ≠ .nixpkgs rev := by
    intro f hf
    simp only [derivationFragment, Result.bind_eq_ok, Result.pure_eq_ok] at hf
    obtain ⟨_, _, _, _, _, _, _, _, rfl⟩ := hf
    exact FragmentKind.noConfusion
  simp only [drvFragments, Result.bind_eq_ok] at h
  obtain ⟨_, _, g, hg, h⟩ := h
  cases env with
  | hashOnly =>
      cases h
      cases List.mem_singleton.mp hf
      exact hd hg
  | full =>
      simp only [envFragment, Result.bind_eq_ok, Result.pure_eq_ok] at h
      obtain ⟨_, ⟨_, _, rfl⟩, rfl⟩ := h
      simp only [List.mem_cons, List.not_mem_nil, or_false] at hf
      rcases hf with rfl | rfl
      · exact hd hg
      · exact FragmentKind.noConfusion

theorem extractFromDrvs_kind {drvs : BTreeMap DrvInfo} {env : EnvMode} {g : GraphExtraction}
    (h : extractFromDrvs x src drvs env = .ok g) {f : Fragment} (hf : f ∈ g.fragments)
    (rev : String) : f.kind ≠ .nixpkgs rev := by
  simp only [extractFromDrvs, Result.bind_eq_ok] at h
  obtain ⟨infos, _, srcHashes, _, perDrv, hper, h⟩ := h
  obtain rfl := Result.pure_eq_ok.mp h
  simp only [List.mem_append, List.mem_map, List.mem_flatten] at hf
  rcases hf with ⟨s, _, rfl⟩ | ⟨fs, hfs, hf⟩
  · exact FragmentKind.noConfusion
  · obtain ⟨drv, _, hdrv⟩ := Result.mem_of_mapM hper hfs
    exact drvFragments_kind hdrv hf rev

theorem mem_revisionFragment {ms : BTreeMap (String × Meta)} {g : GraphExtraction} {t : Triple} :
    t ∈ (revisionFragment o ms g).lines ↔
      t ∈ revisionNode o.revision none
      ∨ t = addType (Iri.nixpkgs o.revision.rev) (nix "Snapshot")
      ∨ (∃ p v d, ms[p]? = some v ∧ g.drvIri p = some d ∧
          t ∈ attributeTriples o.revision.rev v.1 d v.2)
      ∨ ∃ h ∈ g.drvHashes.values, t = addIri (Iri.nixpkgs o.revision.rev) (nix "evaluatesTo") (Iri.drv h) := by
  have hattr : (∃ entry ∈ ms.toList, t ∈ attributeOf o.revision.rev g entry) ↔
      ∃ p v d, ms[p]? = some v ∧ g.drvIri p = some d ∧ t ∈ attributeTriples o.revision.rev v.1 d v.2 := by
    constructor
    · rintro ⟨⟨p, v⟩, hv, ht⟩
      cases hd : g.drvIri p with
      | none => simp [attributeOf, hd] at ht
      | some d =>
          rw [attributeOf, hd] at ht
          exact ⟨p, v, d, Std.ExtTreeMap.mem_toList_iff_getElem?_eq_some.mp hv, hd, ht⟩
    · rintro ⟨p, v, d, hv, hd, ht⟩
      refine ⟨(p, v), Std.ExtTreeMap.mem_toList_iff_getElem?_eq_some.mpr hv, ?_⟩
      rw [attributeOf, hd]
      exact ht
  rw [revisionFragment, Fragment.mem_ofTriples, List.mem_append, List.mem_append, List.mem_append,
    List.mem_singleton, List.mem_flatMap, hattr, List.mem_map, or_assoc, or_assoc]
  simp only [eq_comm]

/-- The attribute node of a job, its derivation and its meta facts are in the fragment. -/
def Kept (rev : String) (f : Fragment) (j : EvalJob) : Prop :=
  ∀ p, evaluated j = some p → ∃ hash, storePathHash p = some hash ∧
    addType (Iri.nixpkgsAttr rev (attrOf j)) (nix "Attribute") ∈ f.lines ∧
    addStr (Iri.nixpkgsAttr rev (attrOf j)) (nix "attrPath") (attrOf j) ∈ f.lines ∧
    addIri (Iri.nixpkgsAttr rev (attrOf j)) (nix "evaluatesTo") (Iri.drv hash) ∈ f.lines ∧
    addIri (Iri.nixpkgs rev) (nix "hasAttribute") (Iri.nixpkgsAttr rev (attrOf j)) ∈ f.lines ∧
    ∀ t ∈ metaTriples (Iri.drv hash) (metaOf j), t ∈ f.lines

def metaPredicates : List Iri :=
  [nix "license", nix "unfree", nix "homepage", nix "description", nix "sourceProvenance"]

theorem metaTriples_shape {d : Iri} {m : Meta} {t : Triple} (ht : t ∈ metaTriples d m) :
    t.s = .iri d ∧ t.p ∈ metaPredicates := by
  simp only [metaTriples, List.mem_append, List.mem_map] at ht
  rcases ht with (((⟨l, _, rfl⟩ | ht) | ⟨h, _, rfl⟩) | ⟨d, _, rfl⟩) | ⟨sp, _, rfl⟩
  · exact ⟨rfl, by simp [metaPredicates]⟩
  · split at ht
    · cases List.mem_singleton.mp ht
      exact ⟨rfl, by simp [metaPredicates]⟩
    · cases ht
  · exact ⟨rfl, by simp [metaPredicates]⟩
  · exact ⟨rfl, by simp [metaPredicates]⟩
  · exact ⟨rfl, by simp [metaPredicates]⟩

theorem metaTriples_retarget {d : Iri} {m : Meta} {t : Triple} (d' : Iri) (ht : t ∈ metaTriples d m) :
    { t with s := .iri d' } ∈ metaTriples d' m := by
  simp only [metaTriples, List.mem_append, List.mem_map] at ht ⊢
  rcases ht with (((⟨l, hl, rfl⟩ | ht) | ⟨h, hh, rfl⟩) | ⟨text, htext, rfl⟩) | ⟨sp, hsp, rfl⟩
  · exact .inl (.inl (.inl (.inl ⟨l, hl, rfl⟩)))
  · refine .inl (.inl (.inl (.inr ?_)))
    split at ht
    · cases List.mem_singleton.mp ht
      rw [if_pos ‹_›]
      exact List.mem_singleton.mpr rfl
    · cases ht
  · exact .inl (.inl (.inr ⟨h, hh, rfl⟩))
  · exact .inl (.inr ⟨text, htext, rfl⟩)
  · exact .inr ⟨sp, hsp, rfl⟩

theorem revisionNode_predicate {r : Revision} {t : Triple} (ht : t ∈ revisionNode r none) :
    t.p ∉ metaPredicates ∧ t.p ≠ nix "evaluatesTo" := by
  simp only [revisionNode, List.mem_append, List.mem_cons, List.not_mem_nil, or_false, Option.toList_none,
    List.map_nil] at ht
  rcases ht with ((rfl | rfl | rfl) | ht) | ht
  · simp [metaPredicates]
  · simp [metaPredicates]
  · simp [metaPredicates]
  · split at ht
    · cases ht
    · cases List.mem_singleton.mp ht
      simp [metaPredicates]
  · split at ht
    · cases ht
    · cases List.mem_singleton.mp ht
      simp [metaPredicates]

variable {ms : BTreeMap (String × Meta)} {g : GraphExtraction}

/-- An attribute node that evaluates to a derivation is there for an entry of the map. -/
theorem entry_of_evaluatesTo {attr : String} {d : Iri}
    (h : addIri (Iri.nixpkgsAttr o.revision.rev attr) (nix "evaluatesTo") d ∈ (revisionFragment o ms g).lines) :
    ∃ p v, ms[p]? = some v ∧ g.drvIri p = some d ∧ v.1 = attr := by
  rcases mem_revisionFragment.mp h with h | h | ⟨p, v, d', hv, hd, h⟩ | ⟨hash, _, h⟩
  · exact absurd rfl (revisionNode_predicate h).2
  · exact absurd (congrArg Triple.p h) (nix_ne_rdfType _)
  · rw [attributeTriples, List.mem_append] at h
    rcases h with h | h
    · simp only [List.mem_cons, List.not_mem_nil, or_false] at h
      rcases h with h | h | h | h | h
      · exact absurd (congrArg Triple.p h) (nix_ne_rdfType _)
      · simpa using congrArg Triple.p h
      · obtain ⟨ha, _, rfl⟩ := addIri_inj.mp h
        exact ⟨p, v, hv, hd, (Iri.nixpkgsAttr_inj.mp ha).symm⟩
      · simpa using congrArg Triple.p h
      · exact absurd (addIri_inj.mp h).1 (Iri.nixpkgsAttr_ne_nixpkgs _ _)
    · have := (metaTriples_shape h).2
      simp [metaPredicates] at this
  · exact absurd (addIri_inj.mp h).1 (Iri.nixpkgsAttr_ne_nixpkgs _ _)

/-- A meta fact about a derivation is there for an entry of the map. -/
theorem entry_of_meta {t : Triple} {d : Iri} {m : Meta} (ht : t ∈ metaTriples d m)
    (h : t ∈ (revisionFragment o ms g).lines) :
    ∃ p v, ms[p]? = some v ∧ g.drvIri p = some d ∧ t ∈ metaTriples d v.2 := by
  obtain ⟨hs, hp⟩ := metaTriples_shape ht
  rcases mem_revisionFragment.mp h with h | h | ⟨p, v, d', hv, hd, h⟩ | ⟨hash, _, h⟩
  · exact absurd hp (revisionNode_predicate h).1
  · rw [h] at hp
    simp [metaPredicates] at hp
  · rw [attributeTriples, List.mem_append] at h
    rcases h with h | h
    · simp only [List.mem_cons, List.not_mem_nil, or_false] at h
      rcases h with rfl | rfl | rfl | rfl | rfl <;> simp [metaPredicates] at hp
    · have hd' : d' = d := by
        have := (metaTriples_shape h).1.symm.trans hs
        simpa using this
      subst hd'
      exact ⟨p, v, hv, hd, h⟩
  · rw [h] at hp
    simp [metaPredicates] at hp

/-! ## A run and its permutations -/

/-- A run that succeeds does so for every order of its jobs, over one graph, which holds the
derivations of all jobs. -/
theorem fragmentsFromJobs_perm (hshow : ShowsRoots src) {jobs : List EvalJob} {frags : List Fragment}
    (h : fragmentsFromJobs x src readDrvFile turns o jobs = .ok frags) :
    ∃ g : GraphExtraction,
      (∀ jobs', jobs.Perm jobs' →
        ∃ frags', fragmentsFromJobs x src readDrvFile turns o jobs' = .ok frags' ∧
          nixpkgsFragment o.revision.rev frags' = some (revisionFragment o (metas jobs') g)) ∧
      ∀ j ∈ jobs, ∀ p, evaluated j = some p →
        ∃ hash, storePathHash p = some hash ∧ g.drvIri p = some (Iri.drv hash) := by
  simp only [fragmentsFromJobs, Result.bind_eq_ok] at h
  obtain ⟨drvs, hdrvs, g, hg, -⟩ := h
  refine ⟨g, fun jobs' hperm => ⟨g.fragments ++ [revisionFragment o (metas jobs') g], ?_, ?_⟩, ?_⟩
  · rw [roots_perm hperm] at hdrvs
    simp only [fragmentsFromJobs, Result.bind_eq_ok]
    exact ⟨drvs, hdrvs, g, hg, rfl⟩
  · rw [nixpkgsFragment, List.find?_append, List.find?_eq_none.mpr]
    · simp [revisionFragment]
    · intro f hf
      simpa using extractFromDrvs_kind hg hf o.revision.rev
  · intro j hj p hp
    exact extractFromDrvs_drvIri hg (mem_readGraph hshow hdrvs (mem_roots.mpr ⟨j, hj, hp⟩))

/-! ## Nothing is lost -/

/-- Some derivation path with the store hash of `p` has only jobs of the kind `P`. -/
def OnWholePath (jobs : List EvalJob) (p : String) (P : EvalJob → Prop) : Prop :=
  ∃ k ∈ jobs, ∃ q, evaluated k = some q ∧ storePathHash q = storePathHash p ∧
    ∀ l ∈ jobs, evaluated l = some q → P l

/-- The attribute path of a job and each of its meta facts are those of all jobs of a derivation path
with the hash of the job's own. -/
def NothingToLose (jobs : List EvalJob) : Prop :=
  ∀ j ∈ jobs, ∀ p, evaluated j = some p →
    OnWholePath jobs p (fun l => attrOf l = attrOf j) ∧
    ∀ d, ∀ t ∈ metaTriples d (metaOf j), OnWholePath jobs p fun l => t ∈ metaTriples d (metaOf l)

/-- Whatever the order of the jobs, the map keeps a job of the kind `P`. -/
theorem OnWholePath.kept {jobs jobs' : List EvalJob} {p : String} {P : EvalJob → Prop}
    (h : OnWholePath jobs p P) (hperm : jobs.Perm jobs') :
    ∃ j ∈ jobs, ∃ q, evaluated j = some q ∧ storePathHash q = storePathHash p ∧ P j ∧
      (metas jobs')[q]? = some (attrOf j, metaOf j) := by
  obtain ⟨k, hk, q, hq, hhash, hall⟩ := h
  obtain ⟨j, hj, hjq, hm⟩ := metas_append [] ⟨k, hperm.mem_iff.mp hk, hq⟩
  have hj := hperm.mem_iff.mpr hj
  exact ⟨j, hj, q, hjq, hhash, hall j hj hjq, hm⟩

/-- Otherwise some order of the jobs keeps none: the others are put last. -/
theorem exists_order_without {jobs : List EvalJob} {p : String} {P : EvalJob → Prop}
    (h : ¬ OnWholePath jobs p P) :
    ∃ jobs', jobs.Perm jobs' ∧ ∀ k ∈ jobs, ∀ q, evaluated k = some q → storePathHash q = storePathHash p →
      ∃ j, ¬ P j ∧ (metas jobs')[q]? = some (attrOf j, metaOf j) := by
  classical
  refine ⟨jobs.filter (fun j => P j) ++ jobs.filter (fun j => ¬ P j), ?_, ?_⟩
  · simpa using (List.filter_append_perm (fun j => decide (P j)) jobs).symm
  · intro k hk q hq hhash
    have hother : ∃ j ∈ jobs.filter (fun j => ¬ P j), evaluated j = some q := by
      by_contra hnone
      apply h
      refine ⟨k, hk, q, hq, hhash, fun l hl hlq => ?_⟩
      by_contra hP
      exact hnone ⟨l, by simpa using ⟨hl, hP⟩, hlq⟩
    obtain ⟨j, hj, _, hm⟩ := metas_append (jobs.filter fun j => P j) hother
    refine ⟨j, ?_, hm⟩
    simpa using (List.mem_filter.mp hj).2

/-- The derivations of the jobs are in the graph, under their store hashes. -/
def Graphed (g : GraphExtraction) (jobs : List EvalJob) : Prop :=
  ∀ j ∈ jobs, ∀ p, evaluated j = some p →
    ∃ hash, storePathHash p = some hash ∧ g.drvIri p = some (Iri.drv hash)

theorem Graphed.drvIri_eq_iff {jobs : List EvalJob} (hg : Graphed g jobs) {j k : EvalJob} {p q : String}
    (hj : j ∈ jobs) (hp : evaluated j = some p) (hk : k ∈ jobs) (hq : evaluated k = some q) :
    g.drvIri q = g.drvIri p ↔ storePathHash q = storePathHash p := by
  obtain ⟨hash, hhash, hd⟩ := hg j hj p hp
  obtain ⟨hash', hhash', hd'⟩ := hg k hk q hq
  rw [hhash, hhash', hd, hd', Option.some.injEq, Option.some.injEq, Iri.drv_inj]

/-- A job whose facts are on whole paths is kept in every order. -/
theorem kept_of_nothingToLose {jobs jobs' : List EvalJob} (hg : Graphed g jobs)
    (hlose : NothingToLose jobs) (hperm : jobs.Perm jobs') {j : EvalJob} (hj : j ∈ jobs) :
    Kept o.revision.rev (revisionFragment o (metas jobs') g) j := by
  intro p hp
  obtain ⟨hash, hhash, hd⟩ := hg j hj p hp
  obtain ⟨hattr, hmeta⟩ := hlose j hj p hp
  refine ⟨hash, hhash, ?_⟩
  obtain ⟨k, hk, q, hq, hqp, ha, hm⟩ := hattr.kept hperm
  have hdk := ((hg.drvIri_eq_iff hj hp hk hq).mpr hqp).trans hd
  have hin : ∀ t ∈ attributeTriples o.revision.rev (attrOf j) (Iri.drv hash) (metaOf k),
      t ∈ (revisionFragment o (metas jobs') g).lines := by
    intro t ht
    rw [← ha] at ht
    exact mem_revisionFragment.mpr (.inr (.inr (.inl ⟨q, _, _, hm, hdk, ht⟩)))
  refine ⟨hin _ (by simp [attributeTriples]), hin _ (by simp [attributeTriples]),
    hin _ (by simp [attributeTriples]), hin _ (by simp [attributeTriples]), fun t ht => ?_⟩
  obtain ⟨l, hl, r, hr, hrp, htl, hm⟩ := (hmeta _ t ht).kept hperm
  have hdl := ((hg.drvIri_eq_iff hj hp hl hr).mpr hrp).trans hd
  exact mem_revisionFragment.mpr (.inr (.inr (.inl
    ⟨r, _, _, hm, hdl, List.mem_append_right _ htl⟩)))

/-- The fragment of one order holds what the fragment of another order says, when all jobs are kept. -/
theorem revisionFragment_subset {jobs jobs' : List EvalJob} (hg : Graphed g jobs)
    (hperm : jobs.Perm jobs')
    (hkept : ∀ j ∈ jobs, Kept o.revision.rev (revisionFragment o (metas jobs') g) j) :
    (revisionFragment o (metas jobs) g).lines ⊆ (revisionFragment o (metas jobs') g).lines := by
  intro t ht
  rcases mem_revisionFragment.mp ht with ht | ht | ⟨p, v, d, hv, hd, ht⟩ | ht
  · exact mem_revisionFragment.mpr (.inl ht)
  · exact mem_revisionFragment.mpr (.inr (.inl ht))
  · obtain ⟨j, hj, hp, rfl⟩ := job_of_metas hv
    obtain ⟨hash, hhash, htype, hpath, heval, hhas, hmeta⟩ := hkept j hj p hp
    obtain ⟨hash', hhash', hd'⟩ := hg j hj p hp
    cases hhash.symm.trans hhash'
    cases hd.symm.trans hd'
    rw [attributeTriples, List.mem_append] at ht
    rcases ht with ht | ht
    · simp only [List.mem_cons, List.not_mem_nil, or_false] at ht
      rcases ht with rfl | rfl | rfl | rfl | rfl
      · exact htype
      · exact hpath
      · exact heval
      · exact hhas
      · obtain ⟨k, _, _, hm⟩ := metas_append [] ⟨j, hperm.mem_iff.mp hj, hp⟩
        exact mem_revisionFragment.mpr (.inr (.inr (.inl
          ⟨p, _, _, hm, hd, List.mem_append_left _ (by simp)⟩)))
    · exact hmeta t ht
  · exact mem_revisionFragment.mpr (.inr (.inr (.inr ht)))

theorem nothingToLose_of_kept {jobs : List EvalJob} (hg : Graphed g jobs)
    (hkept : ∀ jobs', jobs.Perm jobs' → ∀ j ∈ jobs,
      Kept o.revision.rev (revisionFragment o (metas jobs') g) j) : NothingToLose jobs := by
  intro j hj p hp
  obtain ⟨hash, hhash, hd⟩ := hg j hj p hp
  -- a kept fact comes from an entry of the map, and an order without jobs of that kind has none
  have hwhole : ∀ P : EvalJob → Prop,
      (∀ jobs', jobs.Perm jobs' → ∃ q v, (metas jobs')[q]? = some v ∧ g.drvIri q = some (Iri.drv hash) ∧
        ∀ k, v = (attrOf k, metaOf k) → P k) → OnWholePath jobs p P := by
    intro P h
    by_contra hnot
    obtain ⟨jobs', hperm, hout⟩ := exists_order_without hnot
    obtain ⟨q, v, hv, hdq, hP⟩ := h jobs' hperm
    obtain ⟨k, hk, hq, _⟩ := job_of_metas hv
    have hk := hperm.mem_iff.mpr hk
    have hqp := (hg.drvIri_eq_iff hj hp hk hq).mp (hdq.trans hd.symm)
    obtain ⟨l, hl, hm⟩ := hout k hk q hq hqp
    exact hl (hP l (Option.some.inj (hv.symm.trans hm)))
  constructor
  · apply hwhole
    intro jobs' hperm
    obtain ⟨hash', hhash', _, _, heval, _⟩ := hkept jobs' hperm j hj p hp
    cases hhash.symm.trans hhash'
    obtain ⟨q, v, hv, hdq, ha⟩ := entry_of_evaluatesTo heval
    refine ⟨q, v, hv, hdq, fun k hk => ?_⟩
    rw [← ha, hk]
  · intro d t ht
    apply hwhole
    intro jobs' hperm
    obtain ⟨hash', hhash', _, _, _, _, hmeta⟩ := hkept jobs' hperm j hj p hp
    cases hhash.symm.trans hhash'
    have ht' := metaTriples_retarget (Iri.drv hash) ht
    obtain ⟨q, v, hv, hdq, hvt⟩ := entry_of_meta ht' (hmeta _ ht')
    refine ⟨q, v, hv, hdq, fun k hk => ?_⟩
    have hback := metaTriples_retarget d hvt
    rw [← (metaTriples_shape ht).1, hk] at hback
    exact hback

/-- Where a store hash belongs to one derivation path, nothing is lost exactly when the jobs of a
derivation have one attribute path and the same meta facts. -/
theorem nothingToLose_iff_agree {jobs : List EvalJob}
    (hinj : ∀ j ∈ jobs, ∀ k ∈ jobs, ∀ p q, evaluated j = some p → evaluated k = some q →
      storePathHash p = storePathHash q → p = q) :
    NothingToLose jobs ↔ ∀ j ∈ jobs, ∀ k ∈ jobs, ∀ p, evaluated j = some p → evaluated k = some p →
      attrOf j = attrOf k ∧ ∀ d t, t ∈ metaTriples d (metaOf j) → t ∈ metaTriples d (metaOf k) := by
  constructor
  · intro h j hj k hk p hjp hkp
    have hall : ∀ {P : EvalJob → Prop}, OnWholePath jobs p P → P k := by
      intro P ⟨l, hl, q, hq, hqp, hP⟩
      cases hinj l hl j hj q p hq hjp hqp
      exact hP k hk hkp
    obtain ⟨hattr, hmeta⟩ := h j hj p hjp
    exact ⟨(hall hattr).symm, fun d t ht => hall (hmeta d t ht)⟩
  · intro h j hj p hp
    exact ⟨⟨j, hj, p, hp, rfl, fun l hl hlp => (h l hl j hj p hlp hp).1⟩,
      fun d t ht => ⟨j, hj, p, hp, rfl, fun l hl hlp => (h j hj l hl p hp hlp).2 d t ht⟩⟩

/-- The fragment of the revision is the same for every order of the jobs and keeps all of them
exactly when nothing is to be lost. -/
theorem jobs_kept_iff (hshow : ShowsRoots src) {jobs : List EvalJob} {frags : List Fragment}
    (h : fragmentsFromJobs x src readDrvFile turns o jobs = .ok frags) :
    (∃ f, (∀ jobs', jobs.Perm jobs' →
        ∃ frags', fragmentsFromJobs x src readDrvFile turns o jobs' = .ok frags' ∧
          nixpkgsFragment o.revision.rev frags' = some f) ∧
      ∀ j ∈ jobs, Kept o.revision.rev f j) ↔ NothingToLose jobs := by
  obtain ⟨g, hrun, hg⟩ := fragmentsFromJobs_perm hshow h
  constructor
  · rintro ⟨f, hf, hkept⟩
    apply nothingToLose_of_kept hg
    intro jobs' hperm
    obtain ⟨frags', hok, hf'⟩ := hf jobs' hperm
    obtain ⟨frags'', hok', hfrag⟩ := hrun jobs' hperm
    cases hok.symm.trans hok'
    cases hf'.symm.trans hfrag
    exact hkept
  · intro hlose
    have hkept : ∀ jobs', jobs.Perm jobs' → ∀ j ∈ jobs,
        Kept o.revision.rev (revisionFragment o (metas jobs') g) j :=
      fun jobs' hperm j hj => kept_of_nothingToLose hg hlose hperm hj
    refine ⟨revisionFragment o (metas jobs) g, fun jobs' hperm => ?_, hkept jobs (.refl _)⟩
    obtain ⟨frags', hok, hfrag⟩ := hrun jobs' hperm
    refine ⟨frags', hok, hfrag.trans (congrArg some ?_)⟩
    have hsub := revisionFragment_subset hg hperm (hkept jobs' hperm)
    have hg' : Graphed g jobs' := fun j hj => hg j (hperm.mem_iff.mpr hj)
    have hsub' := revisionFragment_subset hg' hperm.symm fun j hj =>
      hkept jobs (.refl _) j (hperm.mem_iff.mpr hj)
    have hlines : (revisionFragment o (metas jobs') g).lines = (revisionFragment o (metas jobs) g).lines :=
      Finset.Subset.antisymm hsub' hsub
    rw [revisionFragment, revisionFragment, Fragment.ofTriples, Fragment.ofTriples] at *
    rw [Fragment.mk.injEq]
    exact ⟨rfl, hlines⟩

/-! ## Two attribute paths of one derivation -/

def helloPath : String := "/nix/store/00000000000000000000000000000000-hello.drv"

def helloDrv : DrvInfo := { name := "hello", system := "x86_64-linux", builder := "/bin/sh" }

def helloSource : NixSource where
  derivationShow installables _ := .ok (.ofList (installables.map fun p => (p, helloDrv)) compare)
  pathInfo _ := .ok ∅
  flakeMetadata _ := .ok .null
  evalJson _ := .ok .null
  buildJson _ := .ok []
  flakeShow _ := .ok .null

def helloOptions (drvFiles : Bool) : EvalOptions :=
  { revision := { rev := "r", date := "2025-01-01" }, drvFiles }

def helloJob (attr : String) : EvalJob := { attr, drvPath := some helloPath }

theorem helloSource_shows : ShowsRoots helloSource := by
  intro installables m hm p hp
  cases hm
  simpa using hp

def greeterPath : String := "/nix/store/11111111111111111111111111111111-greeter.drv"

/-- A job that is reported twice, one of another derivation and one that failed. -/
def fourJobs : List EvalJob :=
  [helloJob "hello", { helloJob "greeter" with drvPath := some greeterPath }, helloJob "hello",
    { helloJob "broken" with error := some "infinite recursion encountered" }]

theorem fourJobs_alike : ∀ j ∈ fourJobs, ∀ l ∈ fourJobs, (evaluated j).isSome → evaluated l = evaluated j →
    attrOf l = attrOf j ∧ metaOf l = metaOf j := by
  decide

theorem jobs_kept_iff_fourJobs : ∃ frags,
    fragmentsFromJobs plainExtern helloSource (fun _ => .ok helloDrv) 8 (helloOptions false) fourJobs = .ok frags ∧
    ∃ f, (∀ jobs', fourJobs.Perm jobs' → ∃ frags',
        fragmentsFromJobs plainExtern helloSource (fun _ => .ok helloDrv) 8 (helloOptions false) jobs'
          = .ok frags' ∧ nixpkgsFragment "r" frags' = some f) ∧
      ∀ j ∈ fourJobs, Kept "r" f j := by
  cases hok : fragmentsFromJobs plainExtern helloSource (fun _ => .ok helloDrv) 8 (helloOptions false) fourJobs with
  | error msg =>
      have hrun : (fragmentsFromJobs plainExtern helloSource (fun _ => .ok helloDrv) 8 (helloOptions false)
        fourJobs).isOk := by decide +kernel
      rw [hok] at hrun
      cases hrun
  | ok frags =>
      refine ⟨frags, rfl, (jobs_kept_iff helloSource_shows hok).mpr ?_⟩
      intro j hj p hp
      have halike : ∀ l ∈ fourJobs, evaluated l = some p → attrOf l = attrOf j ∧ metaOf l = metaOf j :=
        fun l hl hlp => fourJobs_alike j hj l hl (by rw [hp]; rfl) (hlp.trans hp.symm)
      refine ⟨⟨j, hj, p, hp, rfl, fun l hl hlp => (halike l hl hlp).1⟩, fun d t ht =>
        ⟨j, hj, p, hp, rfl, fun l hl hlp => ?_⟩⟩
      show t ∈ metaTriples d (metaOf l)
      rw [(halike l hl hlp).2]
      exact ht

/-- Of two attribute paths that evaluate to one derivation, the first is lost. -/
theorem first_alias_lost : ∃ frags f,
    fragmentsFromJobs plainExtern helloSource (fun _ => .ok helloDrv) 8 (helloOptions true)
        [helloJob "hello", helloJob "greeter"] = .ok frags ∧
    nixpkgsFragment "r" frags = some f ∧ ¬ Kept "r" f (helloJob "hello") := by
  cases hok : fragmentsFromJobs plainExtern helloSource (fun _ => .ok helloDrv) 8 (helloOptions true)
      [helloJob "hello", helloJob "greeter"] with
  | error msg =>
      have hrun : (fragmentsFromJobs plainExtern helloSource (fun _ => .ok helloDrv) 8 (helloOptions true)
        [helloJob "hello", helloJob "greeter"]).isOk := by decide
      rw [hok] at hrun
      cases hrun
  | ok frags =>
      obtain ⟨g, hrun, _⟩ := fragmentsFromJobs_perm helloSource_shows hok
      obtain ⟨frags', hok', hfrag⟩ := hrun _ (.refl _)
      cases hok.symm.trans hok'
      refine ⟨frags, _, rfl, hfrag, fun hkept => ?_⟩
      obtain ⟨hash, _, _, _, heval, _⟩ := hkept helloPath rfl
      obtain ⟨p, v, hv, _, ha⟩ := entry_of_evaluatesTo (o := helloOptions true) heval
      have hlast := metas_append_singleton [helloJob "hello"] (helloJob "greeter") p
      rw [List.singleton_append, hv] at hlast
      by_cases hp : evaluated (helloJob "greeter") = some p
      · rw [if_pos hp, Option.some.injEq] at hlast
        rw [hlast] at ha
        exact absurd ha (by decide)
      · rw [if_neg hp] at hlast
        obtain ⟨j, hj, hjp, _⟩ := job_of_metas hlast.symm
        cases List.mem_singleton.mp hj
        exact hp hjp

end Nix2Rdf.Nixpkgs
