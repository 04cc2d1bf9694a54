import Nix2Rdf.Extract.RuntimeClosure
import Mathlib.Data.String.Basic

/-!
# What becomes of the paths of a runtime closure

The paths that the walk has come to are grouped by deriver and by the name in the path, and a group is
held against the outputs of its derivation. A path can be dropped at each step.
-/

namespace Nix2Rdf

open Triple Extract

namespace Extract

/-- The name under which a path is grouped. -/
def groupName (p : String) : String := (storePathName p).getD "out"

/-- The walk from the roots comes to the path, with this answer. -/
def InWalk (src : NixSource) (roots : List String) (p : String) (i : PathInfo) : Prop :=
  ∃ turns seen, closureLoop src turns roots ∅ = .ok seen ∧ seen[p]? = some i

/-- The path is the last one that the walk comes to of those with its deriver and its name. -/
def Survives (src : NixSource) (roots : List String) (drv p : String) : Prop :=
  (∃ i, InWalk src roots p i ∧ i.deriver = some drv) ∧
    ∀ q j, InWalk src roots q j → j.deriver = some drv → groupName q = groupName p → q ≤ p

/-- The derivation, as the source shows it, has an output at the path. -/
def Lists (src : NixSource) (drv p : String) : Prop :=
  ∃ m d, src.derivationShow [drv] false = .ok m ∧ m[drv]? = some d ∧
    ∃ (n : String) (o : OutputInfo), d.outputs[n]? = some o ∧ o.path = some p

/-- Every store path keeps its place in the groups, and is listed by its deriver if that lists any
path of the group. -/
def Regrouped (src : NixSource) (roots : List String) : Prop :=
  ∀ p i, InWalk src roots p i → (storePathHash p).isSome → ∃ drv, Survives src roots drv p ∧
    ((∃ q, Survives src roots drv q ∧ Lists src drv q) → Lists src drv p)

/-! ## Groups -/

/-- One path more in the group of its deriver. -/
def addToGroup (m : BTreeMap (BTreeMap String)) (entry : String × PathInfo) : BTreeMap (BTreeMap String) :=
  match entry.2.deriver with
  | none => m
  | some d => m.insert d ((m[d]?.getD ∅).insert (groupName entry.1) entry.1)

theorem getElem?_addToGroup (m : BTreeMap (BTreeMap String)) (e : String × PathInfo) (d n : String) :
    ((addToGroup m e)[d]?.getD ∅)[n]? =
      if e.2.deriver = some d ∧ groupName e.1 = n then some e.1 else (m[d]?.getD ∅)[n]? := by
  cases hd : e.2.deriver with
  | none => simp [addToGroup, hd]
  | some d' =>
      simp only [addToGroup, hd, Std.ExtTreeMap.getElem?_insert, compare_eq_iff_eq, Option.some.injEq]
      by_cases hdd : d' = d
      · subst hdd
        simp [Std.ExtTreeMap.getElem?_insert]
      · simp [hdd]

/-- The entry is the last of those with this deriver and name. -/
def LastOf (entries : List (String × PathInfo)) (d n p : String) : Prop :=
  (∃ i, (p, i) ∈ entries ∧ i.deriver = some d) ∧ groupName p = n ∧
    ∀ q j, (q, j) ∈ entries → j.deriver = some d → groupName q = n → q ≤ p

theorem getElem?_groups {entries : List (String × PathInfo)} (hsorted : entries.Pairwise fun a b => a.1 < b.1)
    {d n p : String} :
    ((entries.foldl addToGroup ∅)[d]?.getD ∅)[n]? = some p ↔ LastOf entries d n p := by
  induction entries using List.reverseRecOn generalizing p with
  | nil => simp [LastOf]
  | append_singleton entries e ih =>
      obtain ⟨hrest, _, hlast⟩ := List.pairwise_append.mp hsorted
      have hbelow : ∀ a ∈ entries, a.1 < e.1 := fun a ha => hlast a ha e List.mem_cons_self
      rw [List.foldl_append, List.foldl_cons, List.foldl_nil, getElem?_addToGroup]
      split
      · rename_i hnew
        constructor
        · intro h
          cases h
          refine ⟨⟨e.2, by simp, hnew.1⟩, hnew.2, fun q j hq _ _ => ?_⟩
          rcases List.mem_append.mp hq with hq | hq
          · exact (hbelow _ hq).le
          · rw [← List.mem_singleton.mp hq]
        · intro h
          obtain ⟨⟨i, hp, _⟩, _, hmax⟩ := h
          have hle : e.1 ≤ p := hmax e.1 e.2 (by simp) hnew.1 hnew.2
          rcases List.mem_append.mp hp with hp | hp
          · exact absurd hle (not_le.mpr (hbelow _ hp))
          · rw [← List.mem_singleton.mp hp]
      · rename_i hold
        rw [ih hrest]
        constructor
        · intro h
          obtain ⟨⟨i, hp, hi⟩, hn, hmax⟩ := h
          refine ⟨⟨i, List.mem_append_left _ hp, hi⟩, hn, fun q j hq hj hqn => ?_⟩
          rcases List.mem_append.mp hq with hq | hq
          · exact hmax q j hq hj hqn
          · rw [← List.mem_singleton.mp hq] at hold
            exact absurd ⟨hj, hqn⟩ hold
        · intro h
          obtain ⟨⟨i, hp, hi⟩, hn, hmax⟩ := h
          refine ⟨⟨i, ?_, hi⟩, hn, fun q j hq => hmax q j (List.mem_append_left _ hq)⟩
          rcases List.mem_append.mp hp with hp | hp
          · exact hp
          · rw [← List.mem_singleton.mp hp] at hold
            exact absurd ⟨hi, hn⟩ hold

theorem sorted_toList (seen : BTreeMap PathInfo) : seen.toList.Pairwise fun a b => a.1 < b.1 :=
  Std.ExtTreeMap.ordered_keys_toList.imp fun h => compare_lt_iff_lt.mp h

/-! ## Outputs -/

theorem getElem?_foldl_insert {l : List (String × String)} {m : BTreeMap String} {n p : String}
    (h : (l.foldl (fun m e => m.insert e.1 e.2) m)[n]? = some p) : (n, p) ∈ l ∨ m[n]? = some p := by
  induction l generalizing m with
  | nil => exact .inr h
  | cons e l ih =>
      cases ih h with
      | inl h => exact .inl (List.mem_cons_of_mem _ h)
      | inr h =>
          rw [Std.ExtTreeMap.getElem?_insert] at h
          split at h
          · rename_i he
            rw [compare_eq_iff_eq] at he
            cases h
            exact .inl (by rw [← he]; exact List.mem_cons_self)
          · exact .inr h

/-- The outputs of a derivation at the paths of a group. -/
def namedOf (d : DrvInfo) (outs : BTreeMap String) : List (String × String) :=
  d.outputs.toList.filterMap fun o => (o.2.path.filter (· ∈ outs.values)).map fun p => (o.1, p)

theorem mem_namedOf {d : DrvInfo} {outs : BTreeMap String} {n p : String} :
    (n, p) ∈ namedOf d outs ↔ p ∈ outs.values ∧ ∃ o, d.outputs[n]? = some o ∧ o.path = some p := by
  simp only [namedOf, List.mem_filterMap, Option.map_eq_some_iff, Option.filter_eq_some_iff, decide_eq_true_eq]
  constructor
  · intro h
    obtain ⟨o, ho, p', ⟨hpath, hp⟩, heq⟩ := h
    cases heq
    exact ⟨hp, o.2, Std.ExtTreeMap.mem_toList_iff_getElem?_eq_some.mp ho, hpath⟩
  · intro h
    obtain ⟨hp, o, ho, hpath⟩ := h
    exact ⟨(n, o), Std.ExtTreeMap.mem_toList_iff_getElem?_eq_some.mpr ho, p, ⟨hpath, hp⟩, rfl⟩

theorem getElem?_ofList_namedOf {d : DrvInfo} {outs : BTreeMap String} {n p : String} :
    (Std.ExtTreeMap.ofList (namedOf d outs) compare : BTreeMap String)[n]? = some p ↔ (n, p) ∈ namedOf d outs := by
  constructor
  · intro h
    rw [Std.ExtTreeMap.ofList_eq_foldl] at h
    cases getElem?_foldl_insert h with
    | inl h => exact h
    | inr h => simp at h
  · intro h
    refine Std.ExtTreeMap.getElem?_ofList_of_mem (compare_eq_iff_eq.mpr rfl) ?_ h
    refine List.Pairwise.filterMap _ (fun a b hab c hc c' hc' => ?_) Std.ExtTreeMap.distinct_keys_toList
    obtain ⟨_, _, rfl⟩ := Option.map_eq_some_iff.mp hc
    obtain ⟨_, _, rfl⟩ := Option.map_eq_some_iff.mp hc'
    exact hab

/-- The outputs of a group: those that its deriver lists, or all where it lists none. -/
theorem exists_namedOutputs {src : NixSource} {drv : String} {outs : BTreeMap String} {p : String} :
    (∃ n : String, (namedOutputs src drv outs)[n]? = some p) ↔
      p ∈ outs.values ∧ ((∃ q ∈ outs.values, Lists src drv q) → Lists src drv p) := by
  have hwhole : (¬ ∃ q ∈ outs.values, Lists src drv q) → ((∃ n : String, outs[n]? = some p) ↔
      p ∈ outs.values ∧ ((∃ q ∈ outs.values, Lists src drv q) → Lists src drv p)) := by
    intro hnone
    rw [BTreeMap.mem_values]
    exact (and_iff_left fun h => absurd h hnone).symm
  cases hshow : src.derivationShow [drv] false with
  | error msg =>
      have hall : namedOutputs src drv outs = outs := by rw [namedOutputs, hshow]
      rw [hall]
      refine hwhole fun h => ?_
      obtain ⟨_, _, _, _, hm, _⟩ := h
      rw [hshow] at hm
      cases hm
  | ok m =>
      cases hd : m[drv]? with
      | none =>
          have hall : namedOutputs src drv outs = outs := by simp only [namedOutputs, hshow, hd]
          rw [hall]
          refine hwhole fun h => ?_
          obtain ⟨_, _, _, _, hm, hd', _⟩ := h
          rw [hshow] at hm
          cases hm
          rw [hd] at hd'
          cases hd'
      | some d =>
          have hlists : ∀ q, Lists src drv q ↔
              ∃ (n : String) (o : OutputInfo), d.outputs[n]? = some o ∧ o.path = some q := by
            intro q
            constructor
            · intro h
              obtain ⟨m', d', hm, hd', h⟩ := h
              rw [hshow] at hm
              cases hm
              rw [hd, Option.some.injEq] at hd'
              exact hd' ▸ h
            · intro h
              exact ⟨m, d, hshow, hd, h⟩
          have hnamed : namedOutputs src drv outs =
              if (namedOf d outs).isEmpty then outs else .ofList (namedOf d outs) compare := by
            simp only [namedOutputs, hshow, hd]
            rfl
          rw [hnamed]
          by_cases hempty : namedOf d outs = []
          · rw [hempty, List.isEmpty_nil, if_pos rfl]
            refine hwhole fun h => ?_
            obtain ⟨q, hq, hlist⟩ := h
            obtain ⟨n, o, ho, hpath⟩ := (hlists q).mp hlist
            have hmem := mem_namedOf.mpr ⟨hq, o, ho, hpath⟩
            rw [hempty] at hmem
            cases hmem
          · have hfound : ∃ q ∈ outs.values, Lists src drv q := by
              obtain ⟨⟨n, q⟩, hmem⟩ := List.exists_mem_of_ne_nil _ hempty
              obtain ⟨hq, o, ho, hpath⟩ := mem_namedOf.mp hmem
              exact ⟨q, hq, (hlists q).mpr ⟨n, o, ho, hpath⟩⟩
            rw [if_neg (by simpa using hempty)]
            simp only [getElem?_ofList_namedOf, mem_namedOf, hlists p, exists_and_left]
            exact and_congr_right fun _ => (imp_iff_right hfound).symm

end Extract

/-- The fragment states where the path is, and each of its references to another store path. -/
def Fragment.Records (f : Fragment) (p : String) (i : PathInfo) : Prop :=
  ∃ oh, storePathHash p = some oh ∧ addStr (Iri.out oh) (nix "storePath") p ∈ f.lines ∧
    ∀ r ∈ i.references, r ≠ p → ∀ rh, storePathHash r = some rh →
      addIri (Iri.out oh) (nix "references") (Iri.out rh) ∈ f.lines

section Recorded

variable {src : NixSource} {turns : Nat} {roots : List String} {frags : List Fragment} {seen : BTreeMap PathInfo}

theorem inWalk_iff (h : closureLoop src turns roots ∅ = .ok seen) {p : String} {i : PathInfo} :
    InWalk src roots p i ↔ seen[p]? = some i := by
  constructor
  · intro hw
    obtain ⟨turns', seen', h', hp⟩ := hw
    rw [closureLoop_det h h']
    exact hp
  · intro hp
    exact ⟨turns, seen, h, hp⟩

theorem survives_iff (h : closureLoop src turns roots ∅ = .ok seen) {d p : String} :
    Survives src roots d p ↔ p ∈ ((byDeriver seen)[d]?.getD ∅).values := by
  have hgroup : ∀ n, ((byDeriver seen)[d]?.getD ∅)[n]? = some p ↔ LastOf seen.toList d n p :=
    fun n => getElem?_groups (sorted_toList seen)
  simp only [BTreeMap.mem_values, hgroup, LastOf, Survives, inWalk_iff h,
    Std.ExtTreeMap.mem_toList_iff_getElem?_eq_some]
  constructor
  · intro hp
    exact ⟨groupName p, hp.1, rfl, hp.2⟩
  · intro hp
    obtain ⟨n, hi, rfl, hmax⟩ := hp
    exact ⟨hi, hmax⟩

/-- A path is an output of some evidence when it keeps its place in the groups. -/
theorem exists_closureEvidence (h : closureLoop src turns roots ∅ = .ok seen) {p : String} :
    (∃ e ∈ closureEvidence src seen, ∃ n : String, e.outputs[n]? = some p) ↔
      ∃ drv, Survives src roots drv p ∧ ((∃ q, Survives src roots drv q ∧ Lists src drv q) → Lists src drv p) := by
  simp only [closureEvidence, List.mem_map, survives_iff h]
  constructor
  · intro he
    obtain ⟨_, ⟨g, hg, rfl⟩, n, hn⟩ := he
    have hget : (byDeriver seen)[g.1]?.getD ∅ = g.2 := by
      rw [Std.ExtTreeMap.mem_toList_iff_getElem?_eq_some.mp hg, Option.getD_some]
    refine ⟨g.1, ?_⟩
    rw [hget]
    exact exists_namedOutputs.mp ⟨n, hn⟩
  · intro hp
    obtain ⟨drv, hp⟩ := hp
    cases hg : (byDeriver seen)[drv]? with
    | none =>
        rw [hg, Option.getD_none, BTreeMap.mem_values] at hp
        obtain ⟨⟨n, hn⟩, _⟩ := hp
        simp at hn
    | some g =>
        rw [hg, Option.getD_some] at hp
        obtain ⟨n, hn⟩ := exists_namedOutputs.mpr hp
        exact ⟨_, ⟨(drv, g), Std.ExtTreeMap.mem_toList_iff_getElem?_eq_some.mpr hg, rfl⟩, n, hn⟩

/-- The fragment of some evidence records the paths that are outputs of it. -/
theorem records_iff {e : Evidence} (he : e ∈ closureEvidence src seen) {f : Fragment}
    (hf : outputsFragment e = .ok f) {p : String} {i : PathInfo} (hi : seen[p]? = some i)
    (hp : (storePathHash p).isSome) : f.Records p i ↔ ∃ n : String, e.outputs[n]? = some p := by
  obtain ⟨hash, hhash, _⟩ := outputsFragment_kind hf
  obtain ⟨oh, hoh⟩ := Option.isSome_iff_exists.mp hp
  obtain ⟨g, _, rfl⟩ := List.mem_map.mp he
  have hshows (fact : OutputFact) := @shows_iff _ _ hf _ hhash fact
  constructor
  · intro hr
    obtain ⟨oh', hoh', hstored, _⟩ := hr
    obtain ⟨n, hn⟩ := (hshows (.storedAt oh' p)).mp hstored
    exact ⟨n, hn.1⟩
  · intro hn
    obtain ⟨n, hn⟩ := hn
    refine ⟨oh, hoh, (hshows (.storedAt oh p)).mpr ⟨n, hn, hoh⟩, fun r hr hself rh hrh => ?_⟩
    refine (hshows (.references oh rh)).mpr ⟨n, p, i, ⟨hn, hoh⟩, ?_, r, hr, hself, hrh⟩
    simp [Evidence.info, Std.ExtTreeMap.getElem?_map, hi]

/-- Every store path of the closure is recorded exactly when all keep their places in the groups. -/
theorem closure_recorded_iff (h : extractRuntimeClosure src turns roots = .ok (frags, seen)) :
    (∀ p i, seen[p]? = some i → (storePathHash p).isSome → ∃ f ∈ frags, f.Records p i) ↔ Regrouped src roots := by
  obtain ⟨hseen, hfrags⟩ := extractRuntimeClosure_eq_ok.mp h
  have hrecorded : ∀ p i, seen[p]? = some i → (storePathHash p).isSome → ((∃ f ∈ frags, f.Records p i) ↔
      ∃ e ∈ closureEvidence src seen, ∃ n : String, e.outputs[n]? = some p) := by
    intro p i hi hp
    constructor
    · intro hf
      obtain ⟨f, hf, hr⟩ := hf
      obtain ⟨e, he, hok⟩ := Result.mem_of_mapM hfrags hf
      exact ⟨e, he, (records_iff he hok hi hp).mp hr⟩
    · intro he
      obtain ⟨e, he, hn⟩ := he
      obtain ⟨f, hf, hok⟩ := Result.mem_mapM hfrags he
      exact ⟨f, hf, (records_iff he hok hi hp).mpr hn⟩
  constructor
  · intro hall p i hw hp
    have hi := (inWalk_iff hseen).mp hw
    exact (exists_closureEvidence hseen).mp ((hrecorded p i hi hp).mp (hall p i hi hp))
  · intro hall p i hi hp
    exact (hrecorded p i hi hp).mpr ((exists_closureEvidence hseen).mpr (hall p i ((inWalk_iff hseen).mpr hi) hp))

end Recorded

def helloPath : String := "/nix/store/00000000000000000000000000000000-hello"

def helloDeriver : String := "/nix/store/11111111111111111111111111111111-hello.drv"

def helloBuild : DrvInfo :=
  { name := "hello", system := "", builder := "", outputs := .ofList [("out", { path := some helloPath })] compare }

/-- A source that knows of one path, with or without its deriver. -/
def helloStore (deriver : Option String) : NixSource :=
  recordedSource (.ofList [(helloPath, some { deriver })] compare) (.ofList [(helloDeriver, helloBuild)] compare)

theorem helloStore_seen {deriver : Option String} {frags : List Fragment} {seen : BTreeMap PathInfo}
    (h : extractRuntimeClosure (helloStore deriver) 3 [helloPath] = .ok (frags, seen)) :
    seen[helloPath]? = some { deriver } := by
  have hsrc : AnswersFrom (helloStore deriver) _ := recorded_answersFrom fun _ => rfl
  obtain ⟨all, hall, hw⟩ := closureLoop_ends hsrc (@Walked.start _ [helloPath]) (le_refl _)
  rw [closureLoop_det (extractRuntimeClosure_eq_ok.mp h).1 hall, hw.mem_iff]
  refine .root List.mem_cons_self ?_
  rw [Std.ExtTreeMap.getElem?_filterMap,
    Std.ExtTreeMap.getElem?_ofList_of_mem (compare_eq_iff_eq.mpr rfl) (List.pairwise_singleton _ _)
      List.mem_cons_self]
  rfl

theorem exists_frags {deriver : Option String} (h : deriver = none ∨ deriver = some helloDeriver) :
    ∃ frags seen, extractRuntimeClosure (helloStore deriver) 3 [helloPath] = .ok (frags, seen) := by
  have hok : (extractRuntimeClosure (helloStore deriver) 3 [helloPath]).isOk = true := by
    rcases h with rfl | rfl
    · decide
    · decide
  cases hrun : extractRuntimeClosure (helloStore deriver) 3 [helloPath] with
  | error msg =>
      rw [hrun] at hok
      cases hok
  | ok result => exact ⟨result.1, result.2, rfl⟩

theorem closure_recorded_iff_hello : ∃ frags seen,
    extractRuntimeClosure (helloStore (some helloDeriver)) 3 [helloPath] = .ok (frags, seen) ∧
      ((∀ p i, seen[p]? = some i → (storePathHash p).isSome → ∃ f ∈ frags, f.Records p i) ↔
        Regrouped (helloStore (some helloDeriver)) [helloPath]) := by
  obtain ⟨frags, seen, h⟩ := exists_frags (.inr rfl)
  exact ⟨frags, seen, h, closure_recorded_iff h⟩

/-- A path whose deriver is not known is in the closure and in no fragment. -/
theorem lonely_path_dropped : (∃ known, AnswersFrom (helloStore none) known) ∧
    ∃ frags seen i, extractRuntimeClosure (helloStore none) 3 [helloPath] = .ok (frags, seen) ∧
      seen[helloPath]? = some i ∧ (storePathHash helloPath).isSome ∧ ¬ ∃ f ∈ frags, f.Records helloPath i := by
  refine ⟨⟨_, recorded_answersFrom fun _ => rfl⟩, ?_⟩
  obtain ⟨frags, seen, h⟩ := exists_frags (.inl rfl)
  obtain ⟨hseen, hfrags⟩ := extractRuntimeClosure_eq_ok.mp h
  have hi := helloStore_seen h
  have hhash : (storePathHash helloPath).isSome := by decide
  refine ⟨frags, seen, _, h, hi, hhash, fun hf => ?_⟩
  obtain ⟨f, hf, hr⟩ := hf
  obtain ⟨e, he, hok⟩ := Result.mem_of_mapM hfrags hf
  obtain ⟨drv, ⟨⟨j, hj, hdrv⟩, _⟩, _⟩ :=
    (exists_closureEvidence hseen).mp ⟨e, he, (records_iff he hok hi hhash).mp hr⟩
  rw [inWalk_iff hseen, hi, Option.some.injEq] at hj
  rw [← hj] at hdrv
  cases hdrv

end Nix2Rdf
