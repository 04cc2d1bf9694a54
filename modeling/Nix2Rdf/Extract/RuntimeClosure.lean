import Nix2Rdf.Extract.Outputs

/-!
# The walk over a runtime closure

A round asks about all paths that the round before has brought up. Paths without an answer are never
marked as seen, and may be asked about again.
-/

namespace Nix2Rdf.Extract

/-- The source answers from fixed facts, and only for the paths that it is asked about. -/
def AnswersFrom (src : NixSource) (known : BTreeMap PathInfo) : Prop :=
  ∀ paths, ∃ infos, src.pathInfo paths = .ok infos ∧
    (∀ (p : String) (i : Option PathInfo), infos[p]? = some i → p ∈ paths) ∧
    ∀ p ∈ paths, (infos[p]?).bind (fun i => i) = known[p]?

/-- `path_info` of a recorded source: an entry for every path that is asked about. -/
def recordedPathInfo (recorded : BTreeMap (Option PathInfo)) (paths : List String) : BTreeMap (Option PathInfo) :=
  .ofList (paths.map fun p => (p, (recorded[p]?).bind fun i => i)) compare

/-- A recorded source answers from what it has recorded. -/
theorem recorded_answersFrom {src : NixSource} {recorded : BTreeMap (Option PathInfo)}
    (h : ∀ paths, src.pathInfo paths = .ok (recordedPathInfo recorded paths)) :
    AnswersFrom src (recorded.filterMap fun _ i => i) := by
  intro paths
  have hget : ∀ p : String, (recordedPathInfo recorded paths)[p]? =
      if p ∈ paths then some ((recorded[p]?).bind fun i => i) else none := by
    intro p
    have hfound := BTreeMap.getElem?_ofList_filterMap (fun p => some ((recorded[p]?).bind fun i => i)) paths p
    simp only [Option.map_some, List.filterMap_eq_map'] at hfound
    exact hfound
  refine ⟨_, h paths, fun p i hp => ?_, fun p hp => ?_⟩
  · rw [hget] at hp
    by_contra hno
    rw [if_neg hno] at hp
    cases hp
  · rw [hget, if_pos hp, Option.bind_some, Std.ExtTreeMap.getElem?_filterMap]
    cases recorded[p]? <;> rfl

/-- A path with a known answer that is reached from the roots through references. -/
inductive InRuntimeClosure (known : BTreeMap PathInfo) (roots : List String) : String → PathInfo → Prop
  | root {p : String} {i : PathInfo} : p ∈ roots → known[p]? = some i → InRuntimeClosure known roots p i
  | step {p r : String} {i j : PathInfo} : InRuntimeClosure known roots p i → r ∈ i.references →
      known[r]? = some j → InRuntimeClosure known roots r j

theorem InRuntimeClosure.known {known : BTreeMap PathInfo} {roots : List String} {p : String} {i : PathInfo}
    (h : InRuntimeClosure known roots p i) : known[p]? = some i := by
  cases h with
  | root _ hp => exact hp
  | step _ _ hp => exact hp

/-! ## One round -/

theorem not_contains_iff {seen : BTreeMap PathInfo} {p : String} : seen.contains p = false ↔ seen[p]? = none := by
  rw [Std.ExtTreeMap.contains_eq_isSome_getElem?, Option.isSome_eq_false_iff, Option.isNone_iff_eq_none]

/-- The paths that the next round asks about. -/
def nextFrontier (acc : List String × BTreeMap PathInfo) : List String :=
  (sorted acc.1).dedup.filter fun p => !acc.2.contains p

theorem closureLoop_cons {src : NixSource} {turns : Nat} {p : String} {frontier : List String}
    {seen : BTreeMap PathInfo} {infos : BTreeMap (Option PathInfo)}
    (h : src.pathInfo (p :: frontier) = .ok infos) :
    closureLoop src (turns + 1) (p :: frontier) seen =
      closureLoop src turns (nextFrontier (infos.toList.foldl visitInfo ([], seen)))
        (infos.toList.foldl visitInfo ([], seen)).2 := by
  rw [closureLoop, h]
  rfl

theorem contains_visitInfo {acc : List String × BTreeMap PathInfo} {e : String × Option PathInfo} {r : String} :
    (visitInfo acc e).2.contains r = (acc.2.contains r || (e.2.isSome && e.1 == r)) := by
  cases he : e.2 with
  | none => simp [visitInfo, he]
  | some i =>
      rw [Bool.eq_iff_iff]
      simp [visitInfo, he, Bool.or_comm]

theorem contains_foldl_visitInfo {entries : List (String × Option PathInfo)}
    {acc : List String × BTreeMap PathInfo} {r : String} :
    (entries.foldl visitInfo acc).2.contains r =
      (acc.2.contains r || entries.any fun e => e.2.isSome && e.1 == r) := by
  induction entries generalizing acc with
  | nil => simp
  | cons e entries ih => rw [List.foldl_cons, ih, contains_visitInfo, List.any_cons, Bool.or_assoc]

section Round

variable {known : BTreeMap PathInfo} {entries : List (String × Option PathInfo)}
  {acc : List String × BTreeMap PathInfo}

theorem seen_foldl_visitInfo (hentries : ∀ (p : String) (i : PathInfo), (p, some i) ∈ entries → known[p]? = some i)
    (hacc : ∀ (p : String) (i : PathInfo), acc.2[p]? = some i → known[p]? = some i) {p : String} {i : PathInfo} :
    (entries.foldl visitInfo acc).2[p]? = some i ↔ acc.2[p]? = some i ∨ (p, some i) ∈ entries := by
  induction entries generalizing acc with
  | nil => simp
  | cons e entries ih =>
      obtain ⟨q, answer⟩ := e
      have htail : ∀ (p : String) (i : PathInfo), (p, some i) ∈ entries → known[p]? = some i :=
        fun p i h => hentries p i (List.mem_cons_of_mem _ h)
      cases answer with
      | none =>
          have hskip : visitInfo acc (q, none) = acc := rfl
          rw [List.foldl_cons, hskip, ih htail hacc, List.mem_cons]
          simp
      | some j =>
          have hq : known[q]? = some j := hentries q j List.mem_cons_self
          have hstep : ∀ (p : String) (i : PathInfo), (visitInfo acc (q, some j)).2[p]? = some i ↔
              acc.2[p]? = some i ∨ (p = q ∧ i = j) := by
            intro p i
            simp only [visitInfo, Std.ExtTreeMap.getElem?_insert, compare_eq_iff_eq]
            by_cases hpq : q = p
            · subst hpq
              rw [if_pos rfl, Option.some.injEq]
              constructor
              · intro h
                exact .inr ⟨rfl, h.symm⟩
              · intro h
                cases h with
                | inl h => exact Option.some.inj (hq.symm.trans (hacc _ _ h))
                | inr h => exact h.2.symm
            · rw [if_neg hpq]
              simp [Ne.symm hpq]
          have hacc' : ∀ (p : String) (i : PathInfo), (visitInfo acc (q, some j)).2[p]? = some i →
              known[p]? = some i := by
            intro p i h
            cases (hstep p i).mp h with
            | inl h => exact hacc _ _ h
            | inr h => rw [h.1, h.2, hq]
          rw [List.foldl_cons, ih htail hacc', hstep, List.mem_cons, Prod.mk.injEq, Option.some.injEq, or_assoc]

theorem frontier_foldl_visitInfo {r : String} (hr : (entries.foldl visitInfo acc).2.contains r = false) :
    r ∈ (entries.foldl visitInfo acc).1 ↔
      r ∈ acc.1 ∨ ∃ p i, (p, some i) ∈ entries ∧ r ∈ i.references := by
  induction entries generalizing acc with
  | nil => simp
  | cons e entries ih =>
      obtain ⟨q, answer⟩ := e
      rw [List.foldl_cons] at hr
      rw [List.foldl_cons, ih hr]
      rw [contains_foldl_visitInfo, Bool.or_eq_false_iff, contains_visitInfo, Bool.or_eq_false_iff] at hr
      cases answer with
      | none => simp [visitInfo]
      | some j =>
          have hq : q ≠ r := by simpa using hr.1.2
          simp only [visitInfo, List.mem_append, List.mem_filter, hr.1.1, Bool.not_false, Bool.true_and,
            bne_iff_ne, ne_eq, hq.symm, not_false_eq_true, and_true, List.mem_cons, Prod.mk.injEq,
            Option.some.injEq, or_assoc]
          refine or_congr Iff.rfl ⟨fun h => ?_, fun h => ?_⟩
          · rcases h with h | ⟨p, i, hmem, h⟩
            · exact ⟨q, j, .inl ⟨rfl, rfl⟩, h⟩
            · exact ⟨p, i, .inr hmem, h⟩
          · obtain ⟨p, i, ⟨_, rfl⟩ | hmem, h⟩ := h
            · exact .inl h
            · exact .inr ⟨p, i, hmem, h⟩

end Round

/-! ## The walk -/

/-- What holds between two rounds. A reference without an answer may have been asked about already. -/
structure Walked (known : BTreeMap PathInfo) (roots frontier : List String) (seen : BTreeMap PathInfo) :
    Prop where
  seen_reached : ∀ (p : String) (i : PathInfo), seen[p]? = some i → InRuntimeClosure known roots p i
  frontier_reached : ∀ (p : String) (i : PathInfo), p ∈ frontier → known[p]? = some i →
    InRuntimeClosure known roots p i
  fresh : ∀ p ∈ frontier, seen[p]? = none
  root : ∀ (p : String) (i : PathInfo), p ∈ roots → known[p]? = some i → seen[p]? = some i ∨ p ∈ frontier
  reference : ∀ (p r : String) (i j : PathInfo), seen[p]? = some i → r ∈ i.references → known[r]? = some j →
    seen[r]? = some j ∨ r ∈ frontier

/-- The answers that the walk has not come to. -/
def unseen (known seen : BTreeMap PathInfo) : List String := known.keys.filter fun p => !seen.contains p

section Walk

variable {src : NixSource} {known : BTreeMap PathInfo} {roots frontier : List String} {seen : BTreeMap PathInfo}

theorem Walked.start : Walked known roots roots ∅ where
  seen_reached p i h := by simp at h
  frontier_reached p i hp hi := .root hp hi
  fresh p _ := Std.ExtTreeMap.getElem?_empty
  root p i hp _ := .inr hp
  reference p r i j h := by simp at h

/-- What one round does. -/
theorem round_spec (hsrc : AnswersFrom src known) (hw : Walked known roots frontier seen) :
    ∃ infos, src.pathInfo frontier = .ok infos ∧
      (∀ (p : String) (i : PathInfo), (infos.toList.foldl visitInfo ([], seen)).2[p]? = some i ↔
        seen[p]? = some i ∨ p ∈ frontier ∧ known[p]? = some i) ∧
      ∀ r, r ∈ nextFrontier (infos.toList.foldl visitInfo ([], seen)) ↔
        (infos.toList.foldl visitInfo ([], seen)).2[r]? = none ∧
          ∃ p i, p ∈ frontier ∧ known[p]? = some i ∧ r ∈ i.references := by
  obtain ⟨infos, hinfos, hasked, hanswer⟩ := hsrc frontier
  have hmem : ∀ (p : String) (i : PathInfo), (p, some i) ∈ infos.toList ↔ p ∈ frontier ∧ known[p]? = some i := by
    intro p i
    rw [Std.ExtTreeMap.mem_toList_iff_getElem?_eq_some]
    constructor
    · intro h
      have hp := hasked p (some i) h
      exact ⟨hp, by rw [← hanswer p hp, h, Option.bind_some]⟩
    · intro h
      have hsome := hanswer p h.1
      rw [h.2, Option.bind_eq_some_iff] at hsome
      obtain ⟨answer, hget, rfl⟩ := hsome
      exact hget
  refine ⟨infos, hinfos, fun p i => ?_, fun r => ?_⟩
  · have hentries : ∀ (p : String) (i : PathInfo), (p, some i) ∈ infos.toList → known[p]? = some i :=
      fun p i h => ((hmem p i).mp h).2
    rw [seen_foldl_visitInfo hentries (fun p i h => (hw.seen_reached p i h).known), hmem]
  · rw [nextFrontier, List.mem_filter, List.mem_dedup, mem_sorted, Bool.not_eq_true', and_comm,
      ← not_contains_iff]
    refine and_congr_right fun hr => ?_
    rw [frontier_foldl_visitInfo hr]
    simp only [List.not_mem_nil, false_or, hmem, and_assoc]

/-- A round keeps the invariant. -/
theorem Walked.round (hw : Walked known roots frontier seen) {acc : List String × BTreeMap PathInfo}
    (hseen : ∀ (p : String) (i : PathInfo), acc.2[p]? = some i ↔ seen[p]? = some i ∨ p ∈ frontier ∧
      known[p]? = some i)
    (hnext : ∀ r, r ∈ nextFrontier acc ↔
      acc.2[r]? = none ∧ ∃ p i, p ∈ frontier ∧ known[p]? = some i ∧ r ∈ i.references) :
    Walked known roots (nextFrontier acc) acc.2 where
  seen_reached p i h := by
    cases (hseen p i).mp h with
    | inl h => exact hw.seen_reached p i h
    | inr h => exact hw.frontier_reached p i h.1 h.2
  frontier_reached r j hr hj := by
    obtain ⟨_, p, i, hp, hi, href⟩ := (hnext r).mp hr
    exact .step (hw.frontier_reached p i hp hi) href hj
  fresh r hr := ((hnext r).mp hr).1
  root p i hp hi := by
    apply Or.inl
    rw [hseen]
    cases hw.root p i hp hi with
    | inl h => exact .inl h
    | inr h => exact .inr ⟨h, hi⟩
  reference p r i j h href hj := by
    by_cases hr : acc.2[r]? = some j
    · exact .inl hr
    · have hnone : acc.2[r]? = none := by
        cases hget : acc.2[r]? with
        | none => rfl
        | some k =>
            have hk : known[r]? = some k := by
              cases (hseen r k).mp hget with
              | inl h => exact (hw.seen_reached r k h).known
              | inr h => exact h.2
            rw [hget, ← hk, hj] at hr
            exact absurd rfl hr
      have hnew : ¬ (seen[r]? = some j ∨ r ∈ frontier) := by
        intro hold
        apply hr
        rw [hseen]
        exact hold.imp (fun h => h) fun h => ⟨h, hj⟩
      cases (hseen p i).mp h with
      | inl h => exact absurd (hw.reference p r i j h href hj) hnew
      | inr h => exact .inr ((hnext r).mpr ⟨hnone, p, i, h.1, h.2, href⟩)

/-- A round that brings up another one has come to an answer. -/
theorem unseen_round (hw : Walked known roots frontier seen) {acc : List String × BTreeMap PathInfo}
    (hseen : ∀ (p : String) (i : PathInfo), acc.2[p]? = some i ↔ seen[p]? = some i ∨ p ∈ frontier ∧
      known[p]? = some i)
    {p : String} {i : PathInfo} (hp : p ∈ frontier) (hi : known[p]? = some i) :
    (unseen known acc.2).length < (unseen known seen).length := by
  have hsub : (unseen known acc.2).Sublist (unseen known seen) := by
    apply List.monotone_filter_right
    intro q hq
    rw [Bool.not_eq_true', not_contains_iff] at hq ⊢
    cases hget : seen[q]? with
    | none => rfl
    | some j =>
        rw [(hseen q j).mpr (.inl hget)] at hq
        cases hq
  have hold : p ∈ unseen known seen := by
    have hkey : p ∈ known.keys := by
      rw [Std.ExtTreeMap.mem_keys, Std.ExtTreeMap.mem_iff_isSome_getElem?, hi]
      rfl
    have hfresh := not_contains_iff.mpr (hw.fresh p hp)
    exact List.mem_filter.mpr ⟨hkey, by rw [hfresh, Bool.not_false]⟩
  have hgone : p ∉ unseen known acc.2 := by
    intro h
    have hnone := (List.mem_filter.mp h).2
    rw [Bool.not_eq_true', not_contains_iff, (hseen p i).mpr (.inr ⟨hp, hi⟩)] at hnone
    cases hnone
  refine lt_of_le_of_ne hsub.length_le fun heq => hgone ?_
  rw [hsub.eq_of_length heq]
  exact hold

/-- With a turn for each answer still to come, and two more, the loop ends. -/
theorem closureLoop_ends (hsrc : AnswersFrom src known) {turns : Nat} (hw : Walked known roots frontier seen)
    (hturns : (unseen known seen).length + 2 ≤ turns) :
    ∃ seen', closureLoop src turns frontier seen = .ok seen' ∧ Walked known roots [] seen' := by
  induction turns generalizing frontier seen with
  | zero => omega
  | succ turns ih =>
      cases frontier with
      | nil => exact ⟨seen, rfl, hw⟩
      | cons q frontier =>
          obtain ⟨infos, hinfos, hseen, hnext⟩ := round_spec hsrc hw
          rw [closureLoop_cons hinfos]
          have hw' := hw.round hseen hnext
          cases hrest : nextFrontier (infos.toList.foldl visitInfo ([], seen)) with
          | nil =>
              obtain ⟨turns, rfl⟩ : ∃ t, turns = t + 1 := ⟨turns - 1, by omega⟩
              rw [hrest] at hw'
              exact ⟨_, rfl, hw'⟩
          | cons r rest =>
              obtain ⟨_, p, i, hp, hi, _⟩ := (hnext r).mp (hrest ▸ List.mem_cons_self)
              have hless := unseen_round hw hseen hp hi
              rw [← hrest]
              exact ih hw' (by omega)

/-- Once every path that was brought up has been asked about, the walk has come to all of the closure. -/
theorem Walked.mem_iff (hw : Walked known roots [] seen) {p : String} {i : PathInfo} :
    seen[p]? = some i ↔ InRuntimeClosure known roots p i := by
  constructor
  · exact hw.seen_reached p i
  · intro h
    induction h with
    | root hp hi => exact (hw.root _ _ hp hi).resolve_right List.not_mem_nil
    | step _ href hj ih => exact (hw.reference _ _ _ _ ih href hj).resolve_right List.not_mem_nil

end Walk

/-- More turns than are needed change nothing. -/
theorem closureLoop_mono {src : NixSource} {turns more : Nat} {frontier : List String}
    {seen seen' : BTreeMap PathInfo}
    (h : closureLoop src turns frontier seen = .ok seen') (hle : turns ≤ more) :
    closureLoop src more frontier seen = .ok seen' := by
  induction turns generalizing more frontier seen with
  | zero => cases h
  | succ turns ih =>
      obtain ⟨more, rfl⟩ : ∃ m, more = m + 1 := ⟨more - 1, by omega⟩
      cases frontier with
      | nil => exact h
      | cons p frontier =>
          cases hinfos : src.pathInfo (p :: frontier) with
          | error msg =>
              rw [closureLoop, hinfos] at h
              cases h
          | ok infos =>
              rw [closureLoop_cons hinfos] at h ⊢
              exact ih h (by omega)

theorem closureLoop_det {src : NixSource} {turns turns' : Nat} {frontier : List String}
    {seen s s' : BTreeMap PathInfo} (h : closureLoop src turns frontier seen = .ok s)
    (h' : closureLoop src turns' frontier seen = .ok s') : s = s' := by
  have hmore := closureLoop_mono h (Nat.le_max_left turns turns')
  rw [closureLoop_mono h' (Nat.le_max_right turns turns')] at hmore
  exact (Except.ok.inj hmore).symm

theorem extractRuntimeClosure_eq_ok {src : NixSource} {turns : Nat} {roots : List String} {frags : List Fragment}
    {seen : BTreeMap PathInfo} : extractRuntimeClosure src turns roots = .ok (frags, seen) ↔
      closureLoop src turns roots ∅ = .ok seen ∧ (closureEvidence src seen).mapM outputsFragment = .ok frags := by
  simp only [extractRuntimeClosure, Result.bind_eq_ok, Result.pure_eq_ok, Prod.mk.injEq]
  constructor
  · intro h
    obtain ⟨s, hs, fs, hfs, rfl, rfl⟩ := h
    exact ⟨hs, hfs⟩
  · intro h
    exact ⟨seen, h.1, frags, h.2, rfl, rfl⟩

/-- The walk ends, cycles and repetitions included, and comes to the runtime closure of the roots. -/
theorem closureLoop_reaches {src : NixSource} {known : BTreeMap PathInfo} (hsrc : AnswersFrom src known)
    (roots : List String) :
    ∃ seen, (∀ turns, known.keys.length + 2 ≤ turns → closureLoop src turns roots ∅ = .ok seen) ∧
      (∀ turns frags seen', extractRuntimeClosure src turns roots = .ok (frags, seen') → seen' = seen) ∧
      ∀ p i, seen[p]? = some i ↔ InRuntimeClosure known roots p i := by
  have hall : unseen known ∅ = known.keys := by
    rw [unseen, List.filter_eq_self]
    intro p _
    rw [Bool.not_eq_true', Std.ExtTreeMap.contains_empty]
  have hle : (unseen known ∅).length + 2 ≤ known.keys.length + 2 := by rw [hall]
  obtain ⟨seen, hseen, hw⟩ := closureLoop_ends hsrc Walked.start hle
  refine ⟨seen, fun turns hle => closureLoop_mono hseen hle, fun turns frags seen' h => ?_, fun p i => hw.mem_iff⟩
  exact closureLoop_det (extractRuntimeClosure_eq_ok.mp h).1 hseen

/-- A source that has recorded answers about store paths, and some derivations. -/
def recordedSource (recorded : BTreeMap (Option PathInfo)) (drvs : BTreeMap DrvInfo) : NixSource where
  derivationShow installables recursive :=
    .ok (if recursive then drvs
      else .ofList (installables.filterMap fun drv => (drvs[drv]?).map fun d => (drv, d)) compare)
  pathInfo paths := .ok (recordedPathInfo recorded paths)
  flakeMetadata _ := .error "not recorded"
  evalJson _ := .error "not recorded"
  buildJson _ := .error "not recorded"
  flakeShow _ := .error "not recorded"

/-- Two paths that refer to each other, to themselves and to a path without an answer. -/
def knot : BTreeMap (Option PathInfo) :=
  .ofList [("/nix/store/a", some { references := ["/nix/store/a", "/nix/store/b", "/nix/store/c"] }),
    ("/nix/store/b", some { references := ["/nix/store/c", "/nix/store/a"] }), ("/nix/store/c", none)] compare

theorem closureLoop_reaches_knot :
    ∃ seen, (∀ turns, (knot.filterMap fun _ i => i).keys.length + 2 ≤ turns →
        closureLoop (recordedSource knot ∅) turns ["/nix/store/a", "/nix/store/c", "/nix/store/a"] ∅ = .ok seen) ∧
      (∀ turns frags seen', extractRuntimeClosure (recordedSource knot ∅) turns
        ["/nix/store/a", "/nix/store/c", "/nix/store/a"] = .ok (frags, seen') → seen' = seen) ∧
      ∀ p i, seen[p]? = some i ↔ InRuntimeClosure (knot.filterMap fun _ i => i)
        ["/nix/store/a", "/nix/store/c", "/nix/store/a"] p i :=
  closureLoop_reaches (recorded_answersFrom fun _ => rfl) _

end Nix2Rdf.Extract
