import Nix2Rdf.Lib.Asking
import Nix2Rdf.Extract.RuntimeClosure
import Mathlib.Logic.Function.Basic

/-!
# Recording and replay

`--record` forwards every call to Nix and keeps the answers in a directory, `--from-recorded` answers the calls from
there. Few files are kept: most calls of one kind share one, and the later answer takes the place of the earlier.
-/

namespace Nix2Rdf

open Asking

/-- One map is put over another. -/
theorem BTreeMap.getElem?_extend {V : Type} (m r : BTreeMap V) (p : String) :
    (m.insertMany r.toList)[p]? = (r[p]?).or m[p]? := by
  cases h : r[p]? with
  | some v =>
      have hmem := Std.ExtTreeMap.mem_toList_iff_getElem?_eq_some.mpr h
      exact Std.ExtTreeMap.getElem?_insertMany_list_of_mem Std.ReflCmp.compare_self
        Std.ExtTreeMap.distinct_keys_toList hmem
  | none =>
      refine Std.ExtTreeMap.getElem?_insertMany_list_of_contains_eq_false ?_
      rw [← Bool.not_eq_true, List.contains_iff_mem, List.mem_map]
      rintro ⟨e, he, rfl⟩
      rw [Std.ExtTreeMap.mem_toList_iff_getElem?_eq_some.mp he] at h
      cases h

/-- The files of a recording. -/
inductive RecordedFile where
  | derivationShow | derivationShowRoots | pathInfo | flakeMetadata | flakeShow | build
  | eval (label : String)
  deriving DecidableEq

namespace RecordedFile

def name : RecordedFile → String
  | derivationShow => "derivation-show.json"
  | derivationShowRoots => "derivation-show-roots.json"
  | pathInfo => "path-info.json"
  | flakeMetadata => "flake-metadata.json"
  | flakeShow => "flake-show.json"
  | build => "build.json"
  | eval label => "eval/" ++ label ++ ".json"

/-- What a file holds, as it is read back. -/
abbrev Content : RecordedFile → Type
  | derivationShow | derivationShowRoots => BTreeMap DrvInfo
  | pathInfo => BTreeMap (Option PathInfo)
  | flakeMetadata | flakeShow | eval _ => Json
  | build => List BuildResult

end RecordedFile

/-- The directory of a recording. -/
abbrev RecordedDir := (f : RecordedFile) → Option f.Content

/-- The calls of a `NixSource`. -/
inductive NixCall where
  | derivationShow (installables : List String) (recursive : Bool)
  | pathInfo (paths : List String)
  | flakeMetadata (flakeRef : String)
  | evalJson (args : EvalArgs)
  | buildJson (installable : String)
  | flakeShow (flakeRef : String)

namespace NixCall

/-- The file that the answer goes to. -/
abbrev file : NixCall → RecordedFile
  | derivationShow _ true => .derivationShow
  | derivationShow _ false => .derivationShowRoots
  | pathInfo _ => .pathInfo
  | flakeMetadata _ => .flakeMetadata
  | evalJson a => .eval a.label
  | buildJson _ => .build
  | flakeShow _ => .flakeShow

abbrev Answer (c : NixCall) : Type := c.file.Content

/-- Later answers take the place of earlier ones. -/
def Overwrites : NixCall → Prop
  | derivationShow _ false | pathInfo _ => False
  | _ => True

end NixCall

/-- The answer of a source, without the text of an error. -/
def NixSource.answer (src : NixSource) : (c : NixCall) → Option c.Answer
  | .derivationShow is true => (src.derivationShow is true).toOption
  | .derivationShow is false => (src.derivationShow is false).toOption
  | .pathInfo paths => (src.pathInfo paths).toOption
  | .flakeMetadata r => (src.flakeMetadata r).toOption
  | .evalJson a => (src.evalJson a).toOption
  | .buildJson i => (src.buildJson i).toOption
  | .flakeShow r => (src.flakeShow r).toOption

/-! ## Recording -/

namespace Recording

/-- The answers about store paths are merged. The first answer about roots stays. -/
def write (d : RecordedDir) : (c : NixCall) → c.Answer → RecordedDir
  | .derivationShow is true, r => Function.update d (NixCall.derivationShow is true).file (some r)
  | .derivationShow _ false, r =>
      if (d .derivationShowRoots).isSome then d else Function.update d .derivationShowRoots (some r)
  | .pathInfo _, r => Function.update d .pathInfo (some (((d .pathInfo).getD ∅).insertMany r.toList))
  | .flakeMetadata ref, r => Function.update d (NixCall.flakeMetadata ref).file (some r)
  | .evalJson a, r => Function.update d (NixCall.evalJson a).file (some r)
  | .buildJson i, r => Function.update d (NixCall.buildJson i).file (some r)
  | .flakeShow ref, r => Function.update d (NixCall.flakeShow ref).file (some r)

def empty : RecordedDir := fun _ => none

/-- What is in the directory after some calls. -/
def after (src : NixSource) (d : RecordedDir) (calls : List NixCall) : RecordedDir :=
  calls.foldl (Program.note write src.answer) d

section

variable {src : NixSource} {d : RecordedDir} {c : NixCall}

theorem write_other {f : RecordedFile} (r : c.Answer) (hf : f ≠ c.file) : write d c r f = d f := by
  cases c with
  | derivationShow is recursive =>
      cases recursive with
      | true => exact Function.update_of_ne hf _ _
      | false =>
          rw [write]
          split
          · rfl
          · exact Function.update_of_ne hf _ _
  | pathInfo paths => exact Function.update_of_ne hf _ _
  | flakeMetadata r => exact Function.update_of_ne hf _ _
  | evalJson a => exact Function.update_of_ne hf _ _
  | buildJson i => exact Function.update_of_ne hf _ _
  | flakeShow r => exact Function.update_of_ne hf _ _

theorem write_overwrites (hc : c.Overwrites) (r : c.Answer) : write d c r c.file = some r := by
  cases c with
  | derivationShow is recursive =>
      cases recursive with
      | true => simp only [write, Function.update_self]
      | false => cases hc
  | pathInfo paths => cases hc
  | flakeMetadata r => simp only [write, Function.update_self]
  | evalJson a => simp only [write, Function.update_self]
  | buildJson i => simp only [write, Function.update_self]
  | flakeShow r => simp only [write, Function.update_self]

theorem note_other {f : RecordedFile} (hf : f ≠ c.file) : Program.note write src.answer d c f = d f := by
  unfold Program.note
  cases src.answer c with
  | none => rfl
  | some r => exact write_other r hf

theorem after_append (calls rest : List NixCall) : after src d (calls ++ rest) = after src (after src d calls) rest :=
  List.foldl_append

/-- A file that is kept for one question holds the answer to it. -/
theorem after_unique {calls : List NixCall} (hc : c.Overwrites) (hmem : c ∈ calls) (hnew : d c.file = none)
    (hunique : ∀ c' ∈ calls, c'.file = c.file → c' = c) : after src d calls c.file = src.answer c := by
  have hkept : ∀ calls : List NixCall, (∀ c' ∈ calls, c'.file = c.file → c' = c) → ∀ d : RecordedDir,
      d c.file = src.answer c → after src d calls c.file = src.answer c := by
    intro calls
    induction calls with
    | nil => exact fun _ d hd => hd
    | cons c' calls ih =>
        intro hunique d hd
        refine ih (fun c' hc' => hunique c' (List.mem_cons_of_mem _ hc')) _ ?_
        by_cases hfile : c'.file = c.file
        · cases hunique c' List.mem_cons_self hfile
          unfold Program.note
          cases hanswer : src.answer c with
          | none => exact hd.trans hanswer
          | some r => exact write_overwrites hc r
        · exact (note_other (Ne.symm hfile)).trans hd
  induction calls generalizing d with
  | nil => cases hmem
  | cons c' calls ih =>
      have htail : ∀ c' ∈ calls, c'.file = c.file → c' = c := fun c' hc' => hunique c' (List.mem_cons_of_mem _ hc')
      by_cases hfile : c'.file = c.file
      · cases hunique c' List.mem_cons_self hfile
        refine hkept calls htail _ ?_
        unfold Program.note
        cases src.answer c with
        | none => exact hnew
        | some r => exact write_overwrites hc r
      · refine ih ?_ ((note_other (Ne.symm hfile)).trans hnew) htail
        rcases List.mem_cons.mp hmem with rfl | hmem
        · exact absurd rfl hfile
        · exact hmem

theorem after_other {calls : List NixCall} {f : RecordedFile} (h : ∀ c ∈ calls, f ≠ c.file) :
    after src d calls f = d f := by
  induction calls generalizing d with
  | nil => rfl
  | cons c calls ih =>
      exact (ih fun c hc => h c (List.mem_cons_of_mem _ hc)).trans (note_other (h c List.mem_cons_self))

theorem note_roots {is : List String} {roots : BTreeMap DrvInfo} (hnew : d .derivationShowRoots = none)
    (hanswer : src.answer (.derivationShow is false) = some roots) :
    Program.note write src.answer d (.derivationShow is false) .derivationShowRoots = some roots := by
  have hfree : ¬ (d .derivationShowRoots).isSome := by simp [hnew]
  simp only [Program.note, hanswer, Option.elim_some, write, if_neg hfree, Function.update_self]

/-- The answer about roots that came first is kept. -/
theorem after_roots {calls : List NixCall} {roots : BTreeMap DrvInfo} (h : d .derivationShowRoots = some roots) :
    after src d calls .derivationShowRoots = some roots := by
  induction calls generalizing d with
  | nil => exact h
  | cons c calls ih =>
      refine ih ?_
      by_cases hfile : c.file = .derivationShowRoots
      · cases c with
        | derivationShow is recursive =>
            cases recursive with
            | true => cases hfile
            | false =>
                unfold Program.note
                cases src.answer (.derivationShow is false) with
                | none => exact h
                | some r =>
                    show write d (.derivationShow is false) r .derivationShowRoots = some roots
                    rw [write, if_pos (by rw [h]; rfl)]
                    exact h
        | pathInfo paths => cases hfile
        | flakeMetadata r => cases hfile
        | evalJson a => cases hfile
        | buildJson i => cases hfile
        | flakeShow r => cases hfile
      · exact (note_other (Ne.symm hfile)).trans h

/-! ## Store paths -/

/-- The source answers about store paths from fixed facts, each time for all paths that it is asked about. -/
def PathFacts (src : NixSource) (known : BTreeMap (Option PathInfo)) : Prop :=
  ∀ paths infos, src.pathInfo paths = .ok infos → infos = Extract.recordedPathInfo known paths

theorem getElem?_recordedPathInfo {known : BTreeMap (Option PathInfo)} {paths : List String} {p : String} :
    (Extract.recordedPathInfo known paths)[p]? = if p ∈ paths then some ((known[p]?).bind fun i => i) else none := by
  have hfound := BTreeMap.getElem?_ofList_filterMap (fun p => some ((known[p]?).bind fun i => i)) paths p
  simp only [Option.map_some, List.filterMap_eq_map'] at hfound
  exact hfound

/-- The record says of a path what is known of it. -/
def Knows (known : BTreeMap (Option PathInfo)) (d : RecordedDir) (p : String) : Prop :=
  ∃ m, d .pathInfo = some m ∧ m[p]? = some ((known[p]?).bind fun i => i)

variable {known : BTreeMap (Option PathInfo)} {p : String}

theorem knows_note (hsrc : PathFacts src known) {paths : List String} (h : p ∈ paths ∨ Knows known d p)
    (hanswer : (src.answer (.pathInfo paths)).isSome) :
    Knows known (Program.note write src.answer d (.pathInfo paths)) p := by
  obtain ⟨r, hr⟩ := Option.isSome_iff_exists.mp hanswer
  have hok : src.pathInfo paths = .ok r := by
    cases hcall : src.pathInfo paths with
    | error e => simp [NixSource.answer, hcall, Except.toOption] at hr
    | ok infos => simpa [NixSource.answer, hcall, Except.toOption] using hr
  cases hsrc paths r hok
  refine ⟨((d .pathInfo).getD ∅).insertMany (Extract.recordedPathInfo known paths).toList, ?_, ?_⟩
  · simp only [Program.note, hr, Option.elim_some, write, Function.update_self]
  · rw [BTreeMap.getElem?_extend, getElem?_recordedPathInfo]
    by_cases hp : p ∈ paths
    · rw [if_pos hp, Option.some_or]
    · obtain ⟨m, hm, hknown⟩ := h.resolve_left hp
      rw [if_neg hp, Option.none_or, hm, Option.getD_some, hknown]

theorem knows_kept (hsrc : PathFacts src known) (h : Knows known d p) :
    Knows known (Program.note write src.answer d c) p := by
  by_cases hfile : c.file = .pathInfo
  · cases c with
    | pathInfo paths =>
        cases hanswer : src.answer (.pathInfo paths) with
        | none =>
            unfold Program.note
            rw [hanswer]
            exact h
        | some r => exact knows_note hsrc (.inr h) (by rw [hanswer]; rfl)
    | derivationShow is recursive => cases recursive <;> cases hfile
    | flakeMetadata r => cases hfile
    | evalJson a => cases hfile
    | buildJson i => cases hfile
    | flakeShow r => cases hfile
  · obtain ⟨m, hm, hknown⟩ := h
    exact ⟨m, (note_other (Ne.symm hfile)).trans hm, hknown⟩

theorem knows_run (hsrc : PathFacts src known) {calls : List NixCall} (h : Knows known d p) :
    Knows known (after src d calls) p := by
  induction calls generalizing d with
  | nil => exact h
  | cons c calls ih => exact ih (knows_kept hsrc h)

/-- After some calls the record knows every path that was asked about. -/
theorem knows_after (hsrc : PathFacts src known) {calls : List NixCall} {paths : List String}
    (hmem : .pathInfo paths ∈ calls)
    (hanswer : (src.answer (.pathInfo paths)).isSome) (hp : p ∈ paths) : Knows known (after src d calls) p := by
  obtain ⟨before, rest, rfl⟩ := List.append_of_mem hmem
  rw [after_append]
  show Knows known (after src (Program.note write src.answer (after src d before) (.pathInfo paths)) rest) p
  exact knows_run hsrc (knows_note hsrc (.inl hp) hanswer)

end

end Recording

/-! ## Replay -/

namespace RecordedNix

variable (dir : String) (d : RecordedDir)

def readJson (f : RecordedFile) : Result f.Content :=
  match d f with
  | some v => .ok v
  | none => .error ("io error at " ++ dir ++ "/" ++ f.name ++ ": No such file or directory (os error 2)")

/-- Derivations that are asked for by path are looked up in the graph. -/
def derivationShow (installables : List String) (recursive : Bool) : Result (BTreeMap DrvInfo) := do
  let all ← readJson dir d .derivationShow
  if recursive then return all
  let wanted := installables.filter fun i => ".drv".toList.isSuffixOf i.toList
  if !wanted.isEmpty then return all.filter fun k _ => wanted.contains k
  return (d .derivationShowRoots).getD all

def source : NixSource where
  derivationShow := derivationShow dir d
  pathInfo paths := .ok (Extract.recordedPathInfo ((d .pathInfo).getD ∅) paths)
  flakeMetadata _ := readJson dir d .flakeMetadata
  evalJson a := readJson dir d (.eval a.label)
  buildJson _ := readJson dir d .build
  flakeShow _ := readJson dir d .flakeShow

theorem toOption_readJson (f : RecordedFile) : (readJson dir d f).toOption = d f := by
  unfold readJson
  cases d f <;> rfl

/-- Most calls are answered with what their file holds. -/
theorem answer_overwrites {c : NixCall} (hc : c.Overwrites) : (source dir d).answer c = d c.file := by
  cases c with
  | derivationShow is recursive =>
      cases recursive with
      | true =>
          show (derivationShow dir d is true).toOption = d .derivationShow
          rw [← toOption_readJson dir d .derivationShow, derivationShow]
          cases readJson dir d .derivationShow <;> rfl
      | false => cases hc
  | pathInfo paths => cases hc
  | flakeMetadata r => exact toOption_readJson dir d .flakeMetadata
  | evalJson a => exact toOption_readJson dir d (.eval a.label)
  | buildJson i => exact toOption_readJson dir d .build
  | flakeShow r => exact toOption_readJson dir d .flakeShow

/-- Derivations that are not asked for by path are the recorded roots. -/
theorem derivationShow_roots {is : List String} {all roots : BTreeMap DrvInfo} (hall : d .derivationShow = some all)
    (hroots : d .derivationShowRoots = some roots) (his : ∀ i ∈ is, ".drv".toList.isSuffixOf i.toList = false) :
    derivationShow dir d is false = .ok roots := by
  have hwanted : is.filter (fun i => ".drv".toList.isSuffixOf i.toList) = [] :=
    List.filter_eq_nil_iff.mpr fun i hi => by rw [his i hi]; exact Bool.false_ne_true
  have hread : readJson dir d .derivationShow = .ok all := by
    unfold readJson
    rw [hall]
  simp only [derivationShow, hread, hwanted, hroots]
  rfl

/-- Store paths that the record knows are answered from the same facts. -/
theorem pathInfo_source {known : BTreeMap (Option PathInfo)} {paths : List String}
    (h : ∀ p ∈ paths, Recording.Knows known d p) : (source dir d).pathInfo paths =
      .ok (Extract.recordedPathInfo known paths) := by
  have hsame : ∀ p ∈ paths, (((d .pathInfo).getD ∅)[p]?).bind (fun i => i) = (known[p]?).bind fun i => i := by
    intro p hp
    obtain ⟨m, hm, hknown⟩ := h p hp
    rw [hm, Option.getD_some, hknown, Option.bind_some]
  have hpairs : paths.map (fun p => (p, (((d .pathInfo).getD ∅)[p]?).bind fun i => i)) =
      paths.map fun p => (p, (known[p]?).bind fun i => i) :=
    List.map_congr_left fun p hp => by rw [hsame p hp]
  show Except.ok (Extract.recordedPathInfo ((d .pathInfo).getD ∅) paths) = _
  rw [Extract.recordedPathInfo, hpairs, Extract.recordedPathInfo]

end RecordedNix

end Nix2Rdf
