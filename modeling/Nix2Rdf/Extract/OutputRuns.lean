import Nix2Rdf.Extract.Outputs
import Nix2Rdf.Extract.Sources

/-!
# Outputs fragments of one store

Builds and walks over runtime closures make outputs fragments for the same derivations, each from
what it happened to see. The store keeps the first one.
-/

namespace Nix2Rdf

open Triple Store Extract

inductive OutputsRun where
  /-- The outputs of a build are attached. -/
  | attach (src : NixSource) (built : List BuildResult)
  /-- The runtime closure of some paths is walked. -/
  | walk (src : NixSource) (turns : Nat) (roots : List String)

namespace OutputsRun

def fragments : OutputsRun → Result (List Fragment)
  | attach src built => extractOutputs src built
  | walk src turns roots => (extractRuntimeClosure src turns roots).map Prod.fst

/-- What the run has seen of each derivation. -/
def evidence : OutputsRun → Result (List Evidence)
  | attach src built => (builtInfos src built).map fun infos => built.map fun b => ⟨b.drvPath, b.outputs, infos⟩
  | walk src turns roots => (closureLoop src turns roots ∅).map (closureEvidence src)

theorem fragments_eq (r : OutputsRun) : r.fragments = r.evidence >>= fun es => es.mapM outputsFragment := by
  cases r with
  | attach src built =>
      cases hinfos : builtInfos src built with
      | error msg => simp [fragments, evidence, extractOutputs, hinfos, bind, Except.bind, Except.map]
      | ok infos =>
          simp only [fragments, evidence, extractOutputs, hinfos, bind, Except.bind, Except.map]
          rw [List.mapM_map]
          rfl
  | walk src turns roots =>
      cases hseen : closureLoop src turns roots ∅ with
      | error msg => simp [fragments, evidence, extractRuntimeClosure, hseen, bind, Except.bind, Except.map]
      | ok seen =>
          simp only [fragments, evidence, extractRuntimeClosure, hseen, bind, Except.bind, Except.map]
          cases (closureEvidence src seen).mapM outputsFragment with
          | error msg => rfl
          | ok fs => rfl

end OutputsRun

/-- A run that has succeeded. -/
structure FinishedRun where
  run : OutputsRun
  evidence : List Evidence
  fragments : List Fragment
  known : run.evidence = .ok evidence
  ok : run.fragments = .ok fragments

theorem FinishedRun.made (r : FinishedRun) :
    List.Forall₂ (fun e f => outputsFragment e = .ok f) r.evidence r.fragments := by
  have hok := r.ok
  rw [r.run.fragments_eq, r.known] at hok
  exact Result.mapM_eq_ok.mp hok

/-- All that the run has found out about outputs is in the store. -/
def Store.KeepsOutputs {Bytes : Type} (c : Codec Bytes) (st : Store Bytes) (r : FinishedRun) : Prop :=
  ∀ f ∈ r.fragments, ∀ t ∈ f.lines, t.p ∈ outputTerms.map nix →
    t.inGraph f.graph ∈ st.quadsAt c (pathOf f.kind)

/-- What the first run to reach the derivation has seen of it. -/
def firstEvidence (runs : List FinishedRun) (hash : String) : Option Evidence :=
  (runs.flatMap FinishedRun.evidence).find? fun e => storePathHash e.drvPath = some hash

theorem pathOf_out_inj {hash hash' : String} (h : Alphanumeric hash) (h' : Alphanumeric hash') :
    pathOf (.out hash) = pathOf (.out hash') ↔ hash = hash' := by
  have hwf : (FragmentKind.out hash).WellFormed := h
  have hwf' : (FragmentKind.out hash').WellFormed := h'
  rw [FragmentKind.pathOf_eq_iff hwf hwf']
  simp [FragmentKind.components, FragmentKind.placed, FragmentKind.dir, FragmentKind.mid,
    FragmentKind.rest, FragmentKind.place, Paths.Dropped]

/-- The first fragment for the file of a derivation is made of the first evidence for it. -/
theorem find?_made {es : List Evidence} {fs : List Fragment}
    (h : List.Forall₂ (fun e f => outputsFragment e = .ok f) es fs) {hash : String} (hhash : Alphanumeric hash) :
    (fs.find? fun f => pathOf f.kind = pathOf (.out hash)).map Except.ok =
      (es.find? fun e => storePathHash e.drvPath = some hash).map outputsFragment := by
  induction h with
  | nil => rfl
  | @cons e f es fs hok _ ih =>
      obtain ⟨hash', hhash', hkind⟩ := outputsFragment_kind hok
      have hiff : pathOf f.kind = pathOf (.out hash) ↔ storePathHash e.drvPath = some hash := by
        rw [hkind, pathOf_out_inj (alphanumeric_of_storePathHash hhash') hhash, hhash', Option.some.injEq]
      by_cases hsame : storePathHash e.drvPath = some hash
      · rw [List.find?_cons_of_pos (by simpa using hiff.mpr hsame), List.find?_cons_of_pos (by simpa using hsame),
          Option.map_some, Option.map_some, hok]
      · rw [List.find?_cons_of_neg (by simpa using mt hiff.mp hsame),
          List.find?_cons_of_neg (by simpa using hsame), ih]

theorem forall₂_flatMap (runs : List FinishedRun) :
    List.Forall₂ (fun e f => outputsFragment e = .ok f) (runs.flatMap FinishedRun.evidence)
      (runs.map FinishedRun.fragments).flatten := by
  induction runs with
  | nil => exact .nil
  | cons r runs ih =>
      rw [List.flatMap_cons, List.map_cons, List.flatten_cons]
      exact List.rel_append r.made ih

section History

variable {Bytes : Type} {c : Codec Bytes} {st : Store Bytes} {runs : List FinishedRun}

/-- The facts of the evidence are in the file of the derivation. -/
def Store.HoldsFacts (c : Codec Bytes) (st : Store Bytes) (e : Evidence) (hash : String) : Prop :=
  ∀ fact, e.Shows fact →
    (fact.triple hash).inGraph (FragmentKind.out hash).graph ∈ st.quadsAt c (pathOf (.out hash))

theorem exists_evidence {r : FinishedRun} {f : Fragment} (hf : f ∈ r.fragments) :
    ∃ e ∈ r.evidence, outputsFragment e = .ok f := by
  have hmapM : r.evidence.mapM outputsFragment = .ok r.fragments := Result.mapM_eq_ok.mpr r.made
  exact Result.mem_of_mapM hmapM hf

theorem exists_fragment {r : FinishedRun} {e : Evidence} (he : e ∈ r.evidence) :
    ∃ f ∈ r.fragments, outputsFragment e = .ok f := by
  have hmapM : r.evidence.mapM outputsFragment = .ok r.fragments := Result.mapM_eq_ok.mpr r.made
  exact Result.mem_mapM hmapM he

theorem keepsOutputs_iff {r : FinishedRun} : st.KeepsOutputs c r ↔
    ∀ e ∈ r.evidence, ∀ hash, storePathHash e.drvPath = some hash → st.HoldsFacts c e hash := by
  constructor
  · intro hkeeps e he hash hhash fact hshows
    obtain ⟨f, hf, hok⟩ := exists_fragment he
    obtain ⟨hash', hhash', hkind⟩ := outputsFragment_kind hok
    cases Option.some.inj (hhash.symm.trans hhash')
    have hmem := hkeeps f hf _ ((shows_iff hok hhash).mpr hshows) (fact_p fact hash)
    rwa [Fragment.graph, hkind] at hmem
  · intro hall f hf t ht hp
    obtain ⟨e, he, hok⟩ := exists_evidence hf
    obtain ⟨hash, hhash, hkind⟩ := outputsFragment_kind hok
    obtain ⟨fact, rfl⟩ := exists_fact hok hhash ht hp
    have hmem := hall e he hash hhash fact ((shows_iff hok hhash).mp ht)
    rwa [Fragment.graph, hkind]

theorem keepsOutputs_after {done rest : List FinishedRun} {r : FinishedRun} (hruns : runs = done ++ r :: rest) :
    (afterRuns c st ((done ++ [r]).map FinishedRun.fragments)).KeepsOutputs c r ↔
      (afterRuns c st (runs.map FinishedRun.fragments)).KeepsOutputs c r := by
  refine forall₂_congr fun f hf => ?_
  have hquads := quadsAt_afterRuns c st (done.map FinishedRun.fragments) (rest.map FinishedRun.fragments) hf
  simp only [hruns, List.map_append, List.map_cons, List.map_nil] at hquads ⊢
  rw [hquads]

/-- The file of a derivation holds the facts of the evidence exactly when the first evidence shows them. -/
theorem holdsFacts_iff {r : FinishedRun} (hr : r ∈ runs) {e : Evidence} (he : e ∈ r.evidence) {hash : String}
    (hhash : storePathHash e.drvPath = some hash) :
    (afterRuns c st (runs.map FinishedRun.fragments)).HoldsFacts c e hash ↔
      ((st.file? (pathOf (.out hash))).isSome → st.HoldsFacts c e hash) ∧
      (st.file? (pathOf (.out hash)) = none → ∀ e₀, firstEvidence runs hash = some e₀ →
        ∀ fact, e.Shows fact → e₀.Shows fact) := by
  have hfind := find?_made (forall₂_flatMap runs) (alphanumeric_of_storePathHash hhash)
  unfold Store.HoldsFacts
  rw [afterRuns_eq, quadsAt_writeAll]
  cases hfile : st.file? (pathOf (.out hash)) with
  | some b => simp
  | none =>
      have hmem : e ∈ runs.flatMap FinishedRun.evidence := List.mem_flatMap.mpr ⟨r, hr, he⟩
      cases hfirst : (runs.flatMap FinishedRun.evidence).find? fun e => storePathHash e.drvPath = some hash with
      | none =>
          rw [List.find?_eq_none] at hfirst
          exact absurd hhash (by simpa using hfirst e hmem)
      | some e₀ =>
          have hhash₀ : storePathHash e₀.drvPath = some hash := by simpa using List.find?_some hfirst
          rw [hfirst, Option.map_some, Option.map_eq_some_iff] at hfind
          obtain ⟨f, hf, hok⟩ := hfind
          obtain ⟨hash', hhash', hkind⟩ := outputsFragment_kind hok.symm
          cases Option.some.inj (hhash₀.symm.trans hhash')
          have hline : ∀ fact : OutputFact,
              (fact.triple hash).inGraph (FragmentKind.out hash).graph ∈ f.quads ↔ e₀.Shows fact := by
            intro fact
            rw [← shows_iff hok.symm hhash₀, Fragment.mem_quads, Fragment.graph, hkind]
            exact and_iff_right rfl
          simp [hf, firstEvidence, hfirst, hline]

/-- After every run the store has all that the run has found out exactly when, for each derivation,
the first run to reach it has seen all that a later one sees; a file that was there before has to
hold it. -/
theorem outputs_kept_iff (c : Codec Bytes) (st : Store Bytes) (runs : List FinishedRun) :
    (∀ done r rest, runs = done ++ r :: rest →
      (afterRuns c st ((done ++ [r]).map FinishedRun.fragments)).KeepsOutputs c r) ↔
    ∀ r ∈ runs, ∀ e ∈ r.evidence, ∀ hash, storePathHash e.drvPath = some hash →
      ((st.file? (pathOf (.out hash))).isSome → st.HoldsFacts c e hash) ∧
      (st.file? (pathOf (.out hash)) = none → ∀ e₀, firstEvidence runs hash = some e₀ →
        ∀ fact, e.Shows fact → e₀.Shows fact) := by
  constructor
  · intro hall r hr e he hash hhash
    obtain ⟨done, rest, hruns⟩ := List.append_of_mem hr
    have hkeeps := (keepsOutputs_after hruns).mp (hall done r rest hruns)
    exact (holdsFacts_iff hr he hhash).mp (keepsOutputs_iff.mp hkeeps e he hash hhash)
  · intro hcond done r rest hruns
    have hr : r ∈ runs := by simp [hruns]
    refine (keepsOutputs_after hruns).mpr (keepsOutputs_iff.mpr fun e he hash hhash => ?_)
    exact (holdsFacts_iff hr he hhash).mpr (hcond r hr e he hash hhash)

end History

/-! ### One derivation built twice -/

def outPath : String := "/nix/store/11111111111111111111111111111111-x"

def devPath : String := "/nix/store/22222222222222222222222222222222-x-dev"

def buildOf (outputs : List (String × String)) : BuildResult :=
  ⟨"/nix/store/00000000000000000000000000000000-x.drv", .ofList outputs compare⟩

def evidenceOf (outputs : List (String × String)) : Evidence :=
  ⟨(buildOf outputs).drvPath, (buildOf outputs).outputs, ∅⟩

theorem evidenceOf_hash (outputs : List (String × String)) :
    storePathHash (evidenceOf outputs).drvPath = some "00000000000000000000000000000000" := by
  have hhash : storePathHash "/nix/store/00000000000000000000000000000000-x.drv" =
      some "00000000000000000000000000000000" := by decide +kernel
  exact hhash

/-- A build with these outputs has been attached. -/
theorem exists_attached (outputs : List (String × String))
    (h : (OutputsRun.attach (hashSource []) [buildOf outputs]).fragments.toOption.isSome) :
    ∃ r : FinishedRun, r.evidence = [evidenceOf outputs] := by
  cases hok : (OutputsRun.attach (hashSource []) [buildOf outputs]).fragments with
  | error msg =>
      rw [hok] at h
      cases h
  | ok fs =>
      refine ⟨⟨_, _, fs, ?_, hok⟩, rfl⟩
      have hinfos : builtInfos (hashSource []) [buildOf outputs] = .ok ∅ := by
        unfold builtInfos
        dsimp only
        split
        · rfl
        · exact congrArg Except.ok Std.ExtTreeMap.ofList_nil
      rw [OutputsRun.evidence, hinfos]
      rfl

/-- The second build has one output more, and nothing about it is recorded. -/
theorem later_output_lost : ∃ first second : FinishedRun,
    ¬ (afterRuns Codec.plain .empty ([first, second].map FinishedRun.fragments)).KeepsOutputs Codec.plain second := by
  obtain ⟨first, hfirst⟩ := exists_attached [("out", outPath)] (by decide +kernel)
  obtain ⟨second, hsecond⟩ := exists_attached [("dev", devPath), ("out", outPath)] (by decide +kernel)
  refine ⟨first, second, fun hkeeps => ?_⟩
  have hmem : evidenceOf [("dev", devPath), ("out", outPath)] ∈ second.evidence := by
    rw [hsecond]
    exact List.mem_singleton_self _
  have hhash := evidenceOf_hash [("dev", devPath), ("out", outPath)]
  have hholds := keepsOutputs_iff.mp hkeeps _ hmem _ hhash
  have hcond := ((holdsFacts_iff (by simp) hmem hhash).mp hholds).2 (file?_empty _)
  have hone : firstEvidence [first, second] "00000000000000000000000000000000" =
      some (evidenceOf [("out", outPath)]) := by
    rw [firstEvidence, List.flatMap_cons, hfirst, List.singleton_append,
      List.find?_cons_of_pos (by simpa using evidenceOf_hash _)]
  have hdev : (evidenceOf [("dev", devPath), ("out", outPath)]).HasOutput "dev" devPath
      "22222222222222222222222222222222" := ⟨by decide +kernel, by decide +kernel⟩
  have hnone : (evidenceOf [("out", outPath)]).outputs["dev"]? = none := by decide +kernel
  obtain ⟨p, hp, _⟩ := hcond _ hone (.named _ "dev") ⟨devPath, hdev⟩
  rw [hnone] at hp
  cases hp

end Nix2Rdf
