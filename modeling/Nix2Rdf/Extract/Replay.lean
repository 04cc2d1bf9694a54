import Nix2Rdf.Recorded
import Nix2Rdf.Extract.Flake

/-!
# Replay of a flake extraction

A flake is extracted once with a recording, and again from the recording. The steps are those of the extraction, as a
program that calls Nix: each definition is shown to run as the function of the same name.
-/

namespace Nix2Rdf

open Asking

/-- A program that calls Nix. -/
abbrev Asks (α : Type) := Program NixCall NixCall.Answer α

namespace Replay

open Triple

variable {src : NixSource}

/-! ## Calls -/

def showDerivations (installables : List String) : Asks (BTreeMap DrvInfo) :=
  .answerTo (NixCall.derivationShow installables false)

def showGraph (installables : List String) : Asks (BTreeMap DrvInfo) :=
  .answerTo (NixCall.derivationShow installables true)

def pathInfo (paths : List String) : Asks (BTreeMap (Option PathInfo)) := .answerTo (NixCall.pathInfo paths)

def flakeMetadata (flakeRef : String) : Asks Json := .answerTo (NixCall.flakeMetadata flakeRef)

def evalJson (args : EvalArgs) : Asks Json := .answerTo (NixCall.evalJson args)

def flakeShow (flakeRef : String) : Asks Json := .answerTo (NixCall.flakeShow flakeRef)

section Calls

@[simp] theorem run_showDerivations (is : List String) :
    (showDerivations is).run src.answer = (src.derivationShow is false).toOption :=
  Program.run_answerTo (NixCall.derivationShow is false)

@[simp] theorem run_showGraph (is : List String) :
    (showGraph is).run src.answer = (src.derivationShow is true).toOption :=
  Program.run_answerTo (NixCall.derivationShow is true)

@[simp] theorem run_pathInfo (paths : List String) : (pathInfo paths).run src.answer =
    (src.pathInfo paths).toOption :=
  Program.run_answerTo (NixCall.pathInfo paths)

@[simp] theorem run_flakeMetadata (r : String) : (flakeMetadata r).run src.answer = (src.flakeMetadata r).toOption :=
  Program.run_answerTo (NixCall.flakeMetadata r)

@[simp] theorem run_evalJson (a : EvalArgs) : (evalJson a).run src.answer = (src.evalJson a).toOption :=
  Program.run_answerTo (NixCall.evalJson a)

@[simp] theorem run_flakeShow (r : String) : (flakeShow r).run src.answer = (src.flakeShow r).toOption :=
  Program.run_answerTo (NixCall.flakeShow r)

variable {answer : (c : NixCall) → Option c.Answer}

@[simp] theorem asked_showDerivations (is : List String) : (showDerivations is).asked answer =
    [.derivationShow is false] :=
  Program.asked_answerTo (NixCall.derivationShow is false)

@[simp] theorem asked_showGraph (is : List String) : (showGraph is).asked answer = [.derivationShow is true] :=
  Program.asked_answerTo (NixCall.derivationShow is true)

@[simp] theorem asked_pathInfo (paths : List String) : (pathInfo paths).asked answer = [.pathInfo paths] :=
  Program.asked_answerTo (NixCall.pathInfo paths)

@[simp] theorem asked_flakeMetadata (r : String) : (flakeMetadata r).asked answer = [.flakeMetadata r] :=
  Program.asked_answerTo (NixCall.flakeMetadata r)

@[simp] theorem asked_evalJson (a : EvalArgs) : (evalJson a).asked answer = [.evalJson a] :=
  Program.asked_answerTo (NixCall.evalJson a)

@[simp] theorem asked_flakeShow (r : String) : (flakeShow r).asked answer = [.flakeShow r] :=
  Program.asked_answerTo (NixCall.flakeShow r)

end Calls

def ofResult {α : Type} (r : Result α) : Asks α := .ofOption r.toOption

/-- Two steps that may fail, without the texts. -/
theorem toOption_bind {α β : Type} (r : Result α) (f : α → Result β) :
    (r >>= f).toOption = r.toOption.bind fun a => (f a).toOption := by
  cases r <;> rfl

theorem toOption_eq_some {α : Type} {r : Result α} {a : α} : r.toOption = some a ↔ r = .ok a := by
  cases r <;> simp [Except.toOption]

@[simp] theorem run_ofResult {α : Type} (r : Result α) : (ofResult r).run src.answer = r.toOption :=
  Program.run_ofOption _

/-! ## Derivation graphs -/

def sourceInfos (srcs : List String) : Asks (BTreeMap (Option PathInfo)) :=
  if srcs.isEmpty then pure ∅ else pathInfo srcs

def extractFromDrvs (x : Extern) (drvs : BTreeMap DrvInfo) (env : EnvMode) : Asks GraphExtraction := do
  let infos ← sourceInfos (Extract.srcList drvs)
  let srcHashes ← ofResult (Extract.sourceHashes infos (Extract.srcList drvs))
  let perDrv ← ofResult (drvs.toList.mapM (Extract.drvFragments x env srcHashes))
  return {
    drvHashes := .ofList (drvs.toList.filterMap fun d =>
      (storePathHash d.1).map fun h => (d.1, h)) compare
    srcHashes := srcHashes
    fragments := srcHashes.toList.map (fun s => Extract.sourceFragment s.1 s.2) ++ perDrv.flatten
    drvs := drvs }

def extractGraph (x : Extern) (installables : List String) (env : EnvMode) : Asks GraphExtraction := do
  let drvs ← showGraph installables
  extractFromDrvs x drvs env

theorem run_sourceInfos (srcs : List String) : (sourceInfos srcs).run src.answer =
    (Extract.sourceInfos src srcs).toOption := by
  unfold sourceInfos Extract.sourceInfos
  split
  · rfl
  · exact run_pathInfo _

theorem run_extractFromDrvs (x : Extern) (drvs : BTreeMap DrvInfo) (env : EnvMode) :
    (extractFromDrvs x drvs env).run src.answer = (Extract.extractFromDrvs x src drvs env).toOption := by
  simp only [extractFromDrvs, Extract.extractFromDrvs, Program.run_bind, toOption_bind, run_sourceInfos, run_ofResult]
  rfl

theorem run_extractGraph (x : Extern) (installables : List String) (env : EnvMode) :
    (extractGraph x installables env).run src.answer = (Extract.extractGraph x src installables env).toOption := by
  simp only [extractGraph, Extract.extractGraph, Program.run_bind, toOption_bind, run_showGraph, run_extractFromDrvs]

/-! ## Flakes -/

def defaultAttrs (flakeRef system : String) : Asks (List String) := do
  let «show» ← flakeShow flakeRef
  let attrs := (((«show».get? "packages").bind (·.get? system)).map Json.keys).getD []
  if attrs.isEmpty then .fail else return attrs.map fun name => "packages." ++ system ++ "." ++ name

def selectedAttrs (o : FlakeOptions) : Asks (List String) :=
  if o.attrs.isEmpty then defaultAttrs o.flakeRef o.system else pure o.attrs

/-- The question about the metadata of an attribute. -/
def metaArgs (flakeRef attr : String) : EvalArgs where
  installable := some (flakeRef ++ "#" ++ attr ++ ".meta")
  apply := some ("m: \x7b license = m.license or null; homepage = m.homepage or null; "
    ++ "description = m.description or null; sourceProvenance = m.sourceProvenance or []; \x7d")
  label := "meta/" ++ encodeSegment attr

def metaFor (flakeRef attr : String) : Asks (Option Meta) := do
  let v ← (evalJson (metaArgs flakeRef attr)).attempt
  return v.map Meta.fromJson

def rootNarHash (metadata locked : Json) : Asks String :=
  match Flake.strOf locked "narHash" with
  | some n => pure n
  | none =>
      match Flake.strOf metadata "path" with
      | none => .fail
      | some path => do
          let infos ← pathInfo [path]
          .ofOption (Extract.narHashOf infos path)

/-- One attribute among several. -/
def askRoot (acc : BTreeMap String) (ai : String × String) : Asks (BTreeMap String) := do
  let m ← (showDerivations [ai.2]).attempt
  return ((m.bind fun m => m.keys.head?).map fun p => acc.insert ai.1 p).getD acc

def rootDrvsOf (attrs installables : List String) (roots : BTreeMap DrvInfo) : Asks (BTreeMap String) :=
  match attrs with
  | [attr] =>
      match roots.keys.head? with
      | some p => pure ((∅ : BTreeMap String).insert attr p)
      | none => pure ∅
  | _ => do
      let asked ← (attrs.zip installables).foldlM askRoot ∅
      return if asked.isEmpty then
        roots.keys.zipIdx.foldl (fun (acc : BTreeMap String) pi => acc.insert ((attrs[pi.2]?).getD pi.1) pi.1) ∅
      else asked

def attrTriples (o : FlakeOptions) (rootNar : String) (graph : GraphExtraction) (ap : String × String) :
    Asks (List Triple) :=
  match graph.drvIri ap.2 with
  | none => pure []
  | some d => do
      let rootPin := Iri.pin rootNar
      let a := Iri.pinAttr rootNar ap.1
      let m ← if o.withMeta then metaFor o.flakeRef ap.1 else pure none
      return [addType a (nix "Attribute"), addStr a (nix "attrPath") ap.1, addIri a (nix "evaluatesTo") d,
        addIri rootPin (nix "hasAttribute") a, addIri rootPin (nix "hasRoot") d]
        ++ (m.map (Extract.metaTriples d)).getD []

def assemble (o : FlakeOptions) (metadata locked : Json) (rootNar : String) (lock : List Fragment × List Triple)
    (graph : GraphExtraction) (rootDrvs : BTreeMap String) : Asks FlakeExtraction := do
  let rootPin := Iri.pin rootNar
  let perAttr ← rootDrvs.toList.mapM (attrTriples o rootNar graph)
  let rootFrag := Fragment.ofTriples (.pin rootNar)
    (Flake.rootTriples metadata locked rootNar ++ lock.2 ++ perAttr.flatten
      ++ graph.drvHashes.values.map fun h => addIri rootPin (nix "closureContains") (Iri.drv h))
  return {
    rootNarHash := rootNar
    snapshot := rootPin
    fragments := lock.1 ++ graph.fragments ++ [rootFrag]
      ++ o.commit.toList.map fun c => Flake.commitFragment c rootPin
    graph := graph
    rootDrvs := rootDrvs
    rootFrag := rootFrag }

/-- What is read before the first derivation. -/
structure FlakeHead where
  metadata : Json
  rootNar : String
  lock : List Fragment × List Triple
  attrs : List String

def FlakeHead.locked (h : FlakeHead) : Json := (h.metadata.get? "locked").getD .null

def FlakeHead.installables (h : FlakeHead) (o : FlakeOptions) : List String := h.attrs.map fun a =>
    o.flakeRef ++ "#" ++ a

def readHead (x : Extern) (o : FlakeOptions) : Asks FlakeHead := do
  let metadata ← flakeMetadata o.flakeRef
  let rootNar ← rootNarHash metadata ((metadata.get? "locked").getD .null)
  let lock ← ofResult (Flake.lockGraph x.stack metadata rootNar)
  let attrs ← selectedAttrs o
  return { metadata, rootNar, lock, attrs }

def extractFlake (x : Extern) (o : FlakeOptions) : Asks FlakeExtraction := do
  let h ← readHead x o
  let roots ← showDerivations (h.installables o)
  let graph ← extractGraph x (h.installables o) o.env
  let rootDrvs ← rootDrvsOf h.attrs (h.installables o) roots
  assemble o h.metadata h.locked h.rootNar h.lock graph rootDrvs

theorem run_selectedAttrs (o : FlakeOptions) : (selectedAttrs o).run src.answer =
    (Flake.selectedAttrs src o).toOption := by
  unfold selectedAttrs Flake.selectedAttrs
  split
  · simp only [defaultAttrs, Flake.defaultAttrs, Program.run_bind, toOption_bind, run_flakeShow]
    congr 1
    funext v
    split <;> rfl
  · rfl

theorem run_metaFor (flakeRef attr : String) : (metaFor flakeRef attr).run src.answer =
    some (Flake.metaFor src flakeRef attr) := by
  have hmeta : ∀ r, src.evalJson (metaArgs flakeRef attr) = r → Flake.metaFor src flakeRef attr =
      r.toOption.map Meta.fromJson := by
    intro r h
    unfold metaArgs at h
    unfold Flake.metaFor
    rw [h]
    cases r <;> rfl
  simp only [metaFor, Program.run_bind, Program.run_attempt, run_evalJson, Option.bind_some,
    Program.run_pure, hmeta _ rfl]

theorem run_rootNarHash (metadata locked : Json) :
    (rootNarHash metadata locked).run src.answer = (Flake.rootNarHash src metadata locked).toOption := by
  unfold rootNarHash Flake.rootNarHash
  cases Flake.strOf locked "narHash" with
  | some n => rfl
  | none =>
      cases Flake.strOf metadata "path" with
      | none => rfl
      | some path =>
          simp only [Program.run_bind, run_pathInfo, toOption_bind, Program.run_ofOption]
          congr 1
          funext infos
          cases Extract.narHashOf infos path <;> rfl

theorem run_askRoot (acc : BTreeMap String) (ai : String × String) : (askRoot acc ai).run src.answer = some
    (match src.derivationShow [ai.2] false with
      | .ok m =>
          match m.keys.head? with
          | some p => acc.insert ai.1 p
          | none => acc
      | .error _ => acc) := by
  simp only [askRoot, Program.run_bind, Program.run_attempt, run_showDerivations, Option.bind_some, Program.run_pure]
  cases src.derivationShow [ai.2] false with
  | error e => rfl
  | ok m =>
      show some (((m.keys.head?).map fun p => acc.insert ai.1 p).getD acc) = some
        (match m.keys.head? with
          | some p => acc.insert ai.1 p
          | none => acc)
      cases m.keys.head? <;> rfl

theorem foldlM_some {α β : Type} (f : β → α → β) (l : List α) (b : β) :
    l.foldlM (fun b a => some (f b a)) b = some (l.foldl f b) := by
  induction l generalizing b with
  | nil => rfl
  | cons a l ih => exact ih (f b a)

theorem run_rootDrvsOf (attrs installables : List String) (roots : BTreeMap DrvInfo) :
    (rootDrvsOf attrs installables roots).run src.answer = some (Flake.rootDrvsOf src attrs installables roots) := by
  rcases attrs with _ | ⟨attr, _ | ⟨attr', rest⟩⟩
  · conv_lhs => simp only [rootDrvsOf, Program.run_bind, Program.run_foldlM, run_askRoot, foldlM_some,
      Option.bind_some, Program.run_pure]
    rfl
  · simp only [rootDrvsOf, Flake.rootDrvsOf]
    cases roots.keys.head? <;> rfl
  · conv_lhs => simp only [rootDrvsOf, Program.run_bind, Program.run_foldlM, run_askRoot, foldlM_some,
      Option.bind_some, Program.run_pure]
    rfl

theorem run_attrTriples (o : FlakeOptions) (rootNar : String) (graph : GraphExtraction) (ap : String × String) :
    (attrTriples o rootNar graph ap).run src.answer = some (Flake.attrTriples src o rootNar graph ap.1 ap.2) := by
  unfold attrTriples Flake.attrTriples
  cases graph.drvIri ap.2 with
  | none => rfl
  | some d =>
      cases o.withMeta with
      | false => rfl
      | true => simp only [Program.run_bind, run_metaFor, if_true, Option.bind_some, Program.run_pure]

theorem mapM_some {α β : Type} (f : α → β) (l : List α) : l.mapM (fun a => some (f a)) = some (l.map f) := by
  induction l with
  | nil => rfl
  | cons a l ih =>
      rw [List.mapM_cons, ih]
      rfl

theorem run_assemble (o : FlakeOptions) (metadata locked : Json) (rootNar : String)
    (lock : List Fragment × List Triple)
    (graph : GraphExtraction) (rootDrvs : BTreeMap String) :
    (assemble o metadata locked rootNar lock graph rootDrvs).run src.answer
    = some (Flake.assemble src o metadata locked rootNar lock graph rootDrvs) := by
  simp only [assemble, Program.run_bind, Program.run_mapM, run_attrTriples, mapM_some, Option.bind_some,
    Program.run_pure]
  simp only [Flake.assemble, List.flatMap_def]

/-- The program is the extraction. -/
theorem run_extractFlake (x : Extern) (o : FlakeOptions) :
    (extractFlake x o).run src.answer = (Flake.extractFlake x src o).toOption := by
  simp only [extractFlake, readHead, Flake.extractFlake, Program.run_bind, toOption_bind, run_flakeMetadata,
    run_rootNarHash, run_ofResult, run_selectedAttrs, run_showDerivations, run_extractGraph, run_rootDrvsOf,
    run_assemble, Option.bind_some, Program.run_pure, Option.bind_assoc]
  rfl

/-! ## What is asked -/

theorem asked_readHead {x : Extern} {o : FlakeOptions} {c : NixCall} (hc : c ∈ (readHead x o).asked src.answer) :
    c = .flakeMetadata o.flakeRef ∨ c = .flakeShow o.flakeRef ∨ ∃ paths, c = .pathInfo paths := by
  have hnar : ∀ metadata locked, c ∈ (rootNarHash metadata locked).asked src.answer →
      ∃ paths, c = .pathInfo paths := by
    intro metadata locked hc
    unfold rootNarHash at hc
    split at hc
    · cases hc
    · split at hc
      · cases hc
      · rw [Program.mem_asked_bind] at hc
        rcases hc with hc | ⟨_, _, hc⟩
        · rw [asked_pathInfo, List.mem_singleton] at hc
          exact ⟨_, hc⟩
        · rw [Program.asked_ofOption] at hc
          cases hc
  have hattrs : c ∈ (selectedAttrs o).asked src.answer → c = .flakeShow o.flakeRef := by
    intro hc
    unfold selectedAttrs at hc
    split at hc
    · rw [defaultAttrs, Program.mem_asked_bind] at hc
      rcases hc with hc | ⟨_, _, hc⟩
      · rwa [asked_flakeShow, List.mem_singleton] at hc
      · dsimp only at hc
        split at hc <;> cases hc
    · cases hc
  simp only [readHead, Program.mem_asked_bind, asked_flakeMetadata, List.mem_singleton, ofResult,
    Program.asked_ofOption, List.not_mem_nil, false_or, Program.asked_pure, and_false, exists_false, or_false] at hc
  rcases hc with hc | ⟨_, _, hc | ⟨_, _, _, _, hc⟩⟩
  · exact .inl hc
  · exact .inr (.inr (hnar _ _ hc))
  · exact .inr (.inl (hattrs hc))

theorem asked_extractGraph {x : Extern} {is : List String} {env : EnvMode} {c : NixCall}
    (hc : c ∈ (extractGraph x is env).asked src.answer) : c = .derivationShow is true ∨
      ∃ paths, c = .pathInfo paths := by
  simp only [extractGraph, extractFromDrvs, Program.mem_asked_bind, asked_showGraph, List.mem_singleton, ofResult,
    Program.asked_ofOption, List.not_mem_nil, Program.asked_pure, and_false, exists_false, or_false] at hc
  rcases hc with hc | ⟨_, _, hc⟩
  · exact .inl hc
  · unfold sourceInfos at hc
    split at hc
    · cases hc
    · rw [asked_pathInfo, List.mem_singleton] at hc
      exact .inr ⟨_, hc⟩

theorem asked_rootDrvsOf {attrs is : List String} {roots : BTreeMap DrvInfo} {c : NixCall}
    (hc : c ∈ (rootDrvsOf attrs is roots).asked src.answer) : ∃ i, c = .derivationShow [i] false := by
  have hroot : ∀ acc ai, c ∈ (askRoot acc ai).asked src.answer → ∃ i, c = .derivationShow [i] false := by
    intro acc ai hc
    simp only [askRoot, Program.mem_asked_bind, Program.asked_attempt, asked_showDerivations, List.mem_singleton,
      Program.asked_pure, List.not_mem_nil, and_false, exists_false, or_false] at hc
    exact ⟨_, hc⟩
  unfold rootDrvsOf at hc
  split at hc
  · split at hc <;> cases hc
  · rw [Program.mem_asked_bind] at hc
    rcases hc with hc | ⟨_, _, hc⟩
    · obtain ⟨acc, ai, _, hc⟩ := Program.mem_asked_foldlM hc
      exact hroot acc ai hc
    · cases hc

theorem asked_assemble {o : FlakeOptions} {metadata locked : Json} {rootNar : String}
    {lock : List Fragment × List Triple} {graph : GraphExtraction} {rootDrvs : BTreeMap String} {c : NixCall}
    (hc : c ∈ (assemble o metadata locked rootNar lock graph rootDrvs).asked src.answer) :
    ∃ attr, c = .evalJson (metaArgs o.flakeRef attr) := by
  simp only [assemble, Program.mem_asked_bind, Program.asked_pure, List.not_mem_nil, and_false, exists_false,
    or_false] at hc
  obtain ⟨ap, _, hc⟩ := Program.mem_asked_mapM hc
  unfold attrTriples at hc
  split at hc
  · cases hc
  · dsimp only at hc
    split at hc
    · simp only [metaFor, Program.mem_asked_bind, Program.asked_attempt, asked_evalJson, List.mem_singleton,
        Program.asked_pure, List.not_mem_nil, and_false, exists_false, or_false] at hc
      exact ⟨_, hc⟩
    · simp at hc

/-- What is asked for one attribute after the other. -/
inductive FlakeCall (o : FlakeOptions) (installables : List String) : NixCall → Prop
  | metadata : FlakeCall o installables (.flakeMetadata o.flakeRef)
  | listing : FlakeCall o installables (.flakeShow o.flakeRef)
  | paths (paths : List String) : FlakeCall o installables (.pathInfo paths)
  | roots (is : List String) : FlakeCall o installables (.derivationShow is false)
  | graph : FlakeCall o installables (.derivationShow installables true)
  | info (attr : String) : FlakeCall o installables (.evalJson (metaArgs o.flakeRef attr))

/-- A file that is overwritten is only written for one question. -/
theorem FlakeCall.unique {o : FlakeOptions} {is : List String} {c c' : NixCall} (hc : FlakeCall o is c)
    (hc' : FlakeCall o is c') (hover : c.Overwrites) (hfile : c'.file = c.file) : c' = c := by
  cases hc with
  | paths paths => cases hover
  | roots is => cases hover
  | metadata => cases hc' <;> first | rfl | cases hfile
  | listing => cases hc' <;> first | rfl | cases hfile
  | graph => cases hc' <;> first | rfl | cases hfile
  | info attr =>
      cases hc' with
      | info attr' =>
          have hlabel : "meta/" ++ encodeSegment attr' = "meta/" ++ encodeSegment attr := RecordedFile.eval.inj hfile
          rw [encodeSegment_injective (String.append_right_inj _ |>.mp hlabel)]
      | metadata => cases hfile
      | listing => cases hfile
      | paths paths => cases hfile
      | roots is => cases hfile
      | graph => cases hfile

/-! ## The recording of a flake -/

/-- The recording that one extraction leaves. -/
def recordFlake (x : Extern) (src : NixSource) (o : FlakeOptions) : RecordedDir :=
  ((extractFlake x o).record Recording.write src.answer Recording.empty).2

/-- What a successful extraction has read. -/
structure FlakeRun (x : Extern) (src : NixSource) (o : FlakeOptions) (h : FlakeHead) (roots : BTreeMap DrvInfo)
    (graph : GraphExtraction) : Prop where
  head : (readHead x o).run src.answer = some h
  roots : src.derivationShow (h.installables o) false = .ok roots
  graph : (extractGraph x (h.installables o) o.env).run src.answer = some graph

variable {x : Extern} {o : FlakeOptions} {e : FlakeExtraction} {h : FlakeHead} {roots : BTreeMap DrvInfo}
  {graph : GraphExtraction}

theorem FlakeRun.result (r : FlakeRun x src o h roots graph) : Flake.extractFlake x src o = .ok
    (Flake.assemble src o h.metadata h.locked h.rootNar h.lock graph
      (Flake.rootDrvsOf src h.attrs (h.installables o) roots)) := by
  rw [← toOption_eq_some, ← run_extractFlake, extractFlake, Program.run_bind, r.head, Option.bind_some,
    Program.run_bind, run_showDerivations, r.roots]
  show (extractGraph x (h.installables o) o.env >>= _).run src.answer = _
  rw [Program.run_bind, r.graph, Option.bind_some, Program.run_bind, run_rootDrvsOf, Option.bind_some, run_assemble]

theorem exists_flakeRun (hlive : Flake.extractFlake x src o = .ok e) :
    ∃ h roots graph, FlakeRun x src o h roots graph := by
  rw [← toOption_eq_some, ← run_extractFlake, extractFlake, Program.run_bind_eq_some] at hlive
  obtain ⟨h, hhead, hlive⟩ := hlive
  rw [Program.run_bind_eq_some] at hlive
  obtain ⟨roots, hroots, hlive⟩ := hlive
  rw [Program.run_bind_eq_some] at hlive
  obtain ⟨graph, hgraph, _⟩ := hlive
  rw [run_showDerivations, toOption_eq_some] at hroots
  exact ⟨h, roots, graph, hhead, hroots, hgraph⟩

/-- The calls of an extraction, in order. -/
theorem FlakeRun.asked (r : FlakeRun x src o h roots graph) : (extractFlake x o).asked src.answer =
    (readHead x o).asked src.answer ++ .derivationShow (h.installables o) false ::
      ((extractGraph x (h.installables o) o.env).asked src.answer
        ++ ((rootDrvsOf h.attrs (h.installables o) roots).asked src.answer
          ++ (assemble o h.metadata h.locked h.rootNar h.lock graph
            (Flake.rootDrvsOf src h.attrs (h.installables o) roots)).asked src.answer)) := by
  have hroots : (src.derivationShow (h.installables o) false).toOption = some roots := toOption_eq_some.mpr r.roots
  simp only [extractFlake, Program.asked_bind, r.head, Option.elim_some, asked_showDerivations,
    run_showDerivations, hroots, r.graph, run_rootDrvsOf, List.singleton_append]

theorem FlakeRun.call (r : FlakeRun x src o h roots graph) {c : NixCall}
    (hc : c ∈ (extractFlake x o).asked src.answer) : FlakeCall o (h.installables o) c := by
  simp only [r.asked, List.mem_append, List.mem_cons] at hc
  rcases hc with hc | rfl | hc | hc | hc
  · rcases asked_readHead hc with rfl | rfl | ⟨paths, rfl⟩
    · exact .metadata
    · exact .listing
    · exact .paths paths
  · exact .roots _
  · rcases asked_extractGraph hc with rfl | ⟨paths, rfl⟩
    · exact .graph
    · exact .paths paths
  · obtain ⟨i, rfl⟩ := asked_rootDrvsOf hc
    exact .roots _
  · obtain ⟨attr, rfl⟩ := asked_assemble hc
    exact .info attr

theorem recordFlake_eq : recordFlake x src o = Recording.after src Recording.empty
    ((extractFlake x o).asked src.answer) := by
  rw [recordFlake, Program.record_eq]
  rfl

/-- The answer about the roots is the first about derivations alone. -/
theorem FlakeRun.recorded_roots (r : FlakeRun x src o h roots graph) :
    recordFlake x src o .derivationShowRoots = some roots := by
  have hbefore : Recording.after src Recording.empty ((readHead x o).asked src.answer)
      .derivationShowRoots = none := by
    refine Recording.after_other fun c hc => ?_
    rcases asked_readHead hc with rfl | rfl | ⟨paths, rfl⟩
    all_goals exact RecordedFile.noConfusion
  have hroots : src.answer (.derivationShow (h.installables o) false) = some roots := toOption_eq_some.mpr r.roots
  rw [recordFlake_eq, r.asked, Recording.after_append]
  show Recording.after src (Program.note Recording.write src.answer _ (.derivationShow (h.installables o) false)) _
    .derivationShowRoots = some roots
  exact Recording.after_roots (Recording.note_roots hbefore hroots)

theorem FlakeRun.recorded (r : FlakeRun x src o h roots graph) {c : NixCall}
    (hc : c ∈ (extractFlake x o).asked src.answer)
    (hover : c.Overwrites) : recordFlake x src o c.file = src.answer c := by
  rw [recordFlake_eq]
  exact Recording.after_unique hover hc rfl fun c' hc' hfile => (r.call hc).unique (r.call hc') hover hfile

section Replayed

variable {known : BTreeMap (Option PathInfo)} {dir : String}

/-- A recorded call is answered as it was. -/
theorem FlakeRun.replayed (r : FlakeRun x src o h roots graph) (hsrc : Recording.PathFacts src known) {c : NixCall}
    (hc : c ∈ (extractFlake x o).asked src.answer) (hroots : ∀ is, c ≠ .derivationShow is false)
    (hanswer : (src.answer c).isSome) :
    (RecordedNix.source dir (recordFlake x src o)).answer c = src.answer c := by
  have hkept : c.Overwrites → (RecordedNix.source dir (recordFlake x src o)).answer c = src.answer c := fun hover =>
    (RecordedNix.answer_overwrites _ _ hover).trans (r.recorded hc hover)
  cases c with
  | derivationShow is recursive =>
      cases recursive with
      | true => exact hkept trivial
      | false => exact absurd rfl (hroots is)
  | pathInfo paths =>
      obtain ⟨infos, hinfos⟩ := Option.isSome_iff_exists.mp hanswer
      have hfacts := hsrc paths infos (toOption_eq_some.mp hinfos)
      have hpaths : (RecordedNix.source dir (recordFlake x src o)).pathInfo paths =
          .ok (Extract.recordedPathInfo known paths) := by
        refine RecordedNix.pathInfo_source dir _ fun p hp => ?_
        rw [recordFlake_eq]
        exact Recording.knows_after hsrc hc hanswer hp
      rw [hinfos, hfacts]
      exact toOption_eq_some.mpr hpaths
  | flakeMetadata ref => exact hkept trivial
  | evalJson a => exact hkept trivial
  | buildJson i => exact hkept trivial
  | flakeShow ref => exact hkept trivial

theorem strict_readHead : (readHead x o).Strict := by
  have hattrs : (selectedAttrs o).Strict := by
    unfold selectedAttrs
    split
    · refine Program.strict_bind (Program.strict_answerTo _) fun v => ?_
      dsimp only
      split <;> trivial
    · trivial
  have hnar : ∀ metadata locked, (rootNarHash metadata locked).Strict := by
    intro metadata locked
    unfold rootNarHash
    split
    · trivial
    · split
      · trivial
      · exact Program.strict_bind (Program.strict_answerTo _) fun _ => Program.strict_ofOption _
  refine Program.strict_bind (Program.strict_answerTo _) fun metadata => Program.strict_bind (hnar _ _)
    fun rootNar => ?_
  exact Program.strict_bind (Program.strict_ofOption _) fun lock => Program.strict_bind hattrs fun attrs => trivial

theorem strict_extractGraph {is : List String} {env : EnvMode} : (extractGraph x is env).Strict := by
  have hinfos : ∀ srcs, (sourceInfos srcs).Strict := by
    intro srcs
    unfold sourceInfos
    split
    · trivial
    · exact Program.strict_answerTo _
  refine Program.strict_bind (Program.strict_answerTo _) fun drvs => Program.strict_bind (hinfos _) fun infos => ?_
  exact Program.strict_bind (Program.strict_ofOption _) fun _ => Program.strict_bind (Program.strict_ofOption _)
    fun _ => trivial

/-- Derivations that are asked for by attribute are always answered with the roots. -/
theorem FlakeRun.shown (r : FlakeRun x src o h roots graph) {is : List String}
    (his : ∀ i ∈ is, ".drv".toList.isSuffixOf i.toList = false) :
    RecordedNix.derivationShow dir (recordFlake x src o) is false = .ok roots := by
  have hgraph : ((extractGraph x (h.installables o) o.env).run src.answer).isSome := by rw [r.graph]; rfl
  have hshow : .derivationShow (h.installables o) true ∈
      (extractGraph x (h.installables o) o.env).asked src.answer := by
    simp [extractGraph]
  have hasked : .derivationShow (h.installables o) true ∈ (extractFlake x o).asked src.answer := by
    rw [r.asked]
    exact List.mem_append_right _ (List.mem_cons_of_mem _ (List.mem_append_left _ hshow))
  obtain ⟨all, hall⟩ := Option.isSome_iff_exists.mp (Program.answered_of_strict strict_extractGraph hgraph hshow)
  exact RecordedNix.derivationShow_roots dir _ ((r.recorded hasked trivial).trans hall) r.recorded_roots his

/-- Everything before the derivations of the attributes is read again as it was. -/
theorem FlakeRun.again (r : FlakeRun x src o h roots graph) (hsrc : Recording.PathFacts src known)
    (hplain : ∀ i ∈ h.installables o, ".drv".toList.isSuffixOf i.toList = false) :
    FlakeRun x (RecordedNix.source dir (recordFlake x src o)) o h roots graph := by
  have hhead : ((readHead x o).run src.answer).isSome := by rw [r.head]; rfl
  have hgraph : ((extractGraph x (h.installables o) o.env).run src.answer).isSome := by rw [r.graph]; rfl
  have hfirst : ∀ c ∈ (readHead x o).asked src.answer, c ∈ (extractFlake x o).asked src.answer := by
    intro c hc
    rw [r.asked]
    exact List.mem_append_left _ hc
  have hsecond : ∀ c ∈ (extractGraph x (h.installables o) o.env).asked src.answer,
      c ∈ (extractFlake x o).asked src.answer := by
    intro c hc
    rw [r.asked]
    exact List.mem_append_right _ (List.mem_cons_of_mem _ (List.mem_append_left _ hc))
  refine ⟨(Program.run_congr fun c hc => ?_).trans r.head, ?_, (Program.run_congr fun c hc => ?_).trans r.graph⟩
  · refine r.replayed hsrc (hfirst c hc) ?_ (Program.answered_of_strict strict_readHead hhead hc)
    rintro is rfl
    rcases asked_readHead hc with h | h | ⟨_, h⟩ <;> cases h
  · exact r.shown hplain
  · refine r.replayed hsrc (hsecond c hc) ?_ (Program.answered_of_strict strict_extractGraph hgraph hc)
    rintro is rfl
    rcases asked_extractGraph hc with h | ⟨_, h⟩ <;> cases h

/-- Every attribute goes with the first of the roots. -/
def allFirst (attrs : List String) (roots : BTreeMap DrvInfo) : BTreeMap String :=
  ((roots.keys.head?).map fun p => attrs.foldl (fun acc a => acc.insert a p) ∅).getD ∅

theorem foldl_step {g : BTreeMap String → String × String → BTreeMap String} {first? : Option String}
    {l : List (String × String)}
    (hg : ∀ ai ∈ l, ∀ acc, g acc ai = (first?.map fun p => acc.insert ai.1 p).getD acc) (acc : BTreeMap String) :
    l.foldl g acc = (first?.map fun p => (l.map Prod.fst).foldl (fun acc a => acc.insert a p) acc).getD acc := by
  induction l generalizing acc with
  | nil => cases first? <;> rfl
  | cons ai l ih =>
      rw [List.foldl_cons, hg ai List.mem_cons_self, ih fun ai' h => hg ai' (List.mem_cons_of_mem _ h)]
      cases first? <;> rfl

theorem foldl_insert_ne_empty {attrs : List String} {p : String} {acc : BTreeMap String} (h : acc ≠ ∅) :
    attrs.foldl (fun acc a => acc.insert a p) acc ≠ ∅ := by
  induction attrs generalizing acc with
  | nil => exact h
  | cons a attrs ih => exact ih Std.ExtTreeMap.insert_ne_empty

theorem rootDrvsOf_single {attrs is : List String} (hone : attrs.length = 1) :
    Flake.rootDrvsOf src attrs is roots = allFirst attrs roots := by
  obtain ⟨attr, rfl⟩ := List.length_eq_one_iff.mp hone
  simp only [Flake.rootDrvsOf, allFirst]
  cases roots.keys.head? <;> rfl

/-- Where every attribute is answered with all roots, each is taken for the first. -/
theorem rootDrvsOf_allFirst {attrs is : List String} (hattrs : attrs ≠ []) (hlength : attrs.length = is.length)
    (hsame : ∀ i ∈ is, src.derivationShow [i] false = .ok roots) :
    Flake.rootDrvsOf src attrs is roots = allFirst attrs roots := by
  rcases attrs with _ | ⟨attr, _ | ⟨attr', rest⟩⟩
  · exact absurd rfl hattrs
  · exact rootDrvsOf_single rfl
  · simp only [Flake.rootDrvsOf]
    rw [@foldl_step _ roots.keys.head? _ fun ai hai acc => ?_]
    · rw [List.map_fst_zip (Nat.le_of_eq hlength), allFirst]
      cases hfirst : roots.keys.head? with
      | none =>
          rw [List.head?_eq_none_iff.mp hfirst]
          rfl
      | some p =>
          have hfull : (attr :: attr' :: rest).foldl (fun acc a => acc.insert a p) (∅ : BTreeMap String) ≠ ∅ :=
            @foldl_insert_ne_empty (attr' :: rest) p _ Std.ExtTreeMap.insert_ne_empty
          rw [Option.map_some, Option.getD_some, if_neg fun h => hfull (Std.ExtTreeMap.isEmpty_iff.mp h)]
    · rw [hsame _ (List.of_mem_zip hai).2]
      dsimp only
      cases roots.keys.head? <;> rfl

theorem readHead_attrs (hhead : (readHead x o).run src.answer = some h) :
    Flake.selectedAttrs src o = .ok h.attrs := by
  rw [readHead, Program.run_bind_eq_some] at hhead
  obtain ⟨metadata, _, hhead⟩ := hhead
  rw [Program.run_bind_eq_some] at hhead
  obtain ⟨rootNar, _, hhead⟩ := hhead
  rw [Program.run_bind_eq_some] at hhead
  obtain ⟨lock, _, hhead⟩ := hhead
  rw [Program.run_bind_eq_some] at hhead
  obtain ⟨attrs, hattrs, hhead⟩ := hhead
  cases hhead
  rwa [run_selectedAttrs, toOption_eq_some] at hattrs

theorem selectedAttrs_ne_nil {attrs : List String} (hattrs : Flake.selectedAttrs src o = .ok attrs) : attrs ≠ [] := by
  unfold Flake.selectedAttrs at hattrs
  split at hattrs
  · rw [Flake.defaultAttrs, Result.bind_eq_ok] at hattrs
    obtain ⟨v, _, hattrs⟩ := hattrs
    dsimp only at hattrs
    split at hattrs
    · cases hattrs
    · rename_i hsome
      cases hattrs
      simpa using hsome
  · rename_i hsome
    cases hattrs
    simpa using hsome

/-- An extraction is repeated from its recording exactly when it has one attribute, or all of them go with the first of
the roots. -/
theorem flake_replays_iff {attrs : List String} (hsrc : Recording.PathFacts src known)
    (hlive : Flake.extractFlake x src o = .ok e) (hattrs : Flake.selectedAttrs src o = .ok attrs)
    (hroots : src.derivationShow (attrs.map fun a => o.flakeRef ++ "#" ++ a) false = .ok roots)
    (hplain : ∀ a ∈ attrs, ".drv".toList.isSuffixOf (o.flakeRef ++ "#" ++ a).toList = false) :
    Flake.extractFlake x (RecordedNix.source dir (recordFlake x src o)) o = .ok e ↔
      attrs.length = 1 ∨ e.rootDrvs = allFirst attrs roots := by
  obtain ⟨h, roots', graph, r⟩ := exists_flakeRun hlive
  have hsame : attrs = h.attrs := Except.ok.inj (hattrs.symm.trans (readHead_attrs r.head))
  subst hsame
  cases Except.ok.inj (hroots.symm.trans r.roots)
  cases Except.ok.inj (hlive.symm.trans r.result)
  have hinstallables : ∀ i ∈ h.installables o, ".drv".toList.isSuffixOf i.toList = false :=
    List.forall_mem_map.mpr hplain
  have hfirst : Flake.rootDrvsOf (RecordedNix.source dir (recordFlake x src o)) h.attrs (h.installables o) roots
      = allFirst h.attrs roots := by
    refine rootDrvsOf_allFirst (selectedAttrs_ne_nil hattrs) (by simp [FlakeHead.installables]) fun i hi => ?_
    exact r.shown fun i' hi' => hinstallables i' (List.mem_singleton.mp hi' ▸ hi)
  rw [(r.again hsrc hinstallables).result, hfirst]
  constructor
  · intro heq
    exact .inr (congrArg FlakeExtraction.rootDrvs (Except.ok.inj heq).symm)
  · intro heq
    have hdrvs : Flake.rootDrvsOf src h.attrs (h.installables o) roots = allFirst h.attrs roots := by
      cases heq with
      | inl hone => exact rootDrvsOf_single hone
      | inr heq => exact heq
    refine congrArg Except.ok (Option.some.inj ?_)
    rw [← run_assemble, ← run_assemble, hdrvs]
    refine Program.run_congr fun c hc => ?_
    have hasked : c ∈ (extractFlake x o).asked src.answer := by
      rw [r.asked, hdrvs]
      exact List.mem_append_right _ (List.mem_cons_of_mem _ (List.mem_append_right _ (List.mem_append_right _ hc)))
    obtain ⟨attr, rfl⟩ := asked_assemble hc
    have hover : (NixCall.evalJson (metaArgs o.flakeRef attr)).Overwrites := trivial
    exact (RecordedNix.answer_overwrites dir _ hover).trans (r.recorded hasked hover)

end Replayed

/-! A flake with two packages. -/

def drvA : String := "/nix/store/00000000000000000000000000000000-a.drv"

def drvB : String := "/nix/store/11111111111111111111111111111111-b.drv"

def buildOf (name : String) : DrvInfo := { name, system := "x86_64-linux", builder := "/bin/sh" }

def twoPackages : NixSource where
  derivationShow is _ := .ok (.ofList
    ((if "f#a" ∈ is then [(drvA, buildOf "a")] else []) ++ if "f#b" ∈ is then [(drvB, buildOf "b")] else []) compare)
  pathInfo paths := .ok (Extract.recordedPathInfo ∅ paths)
  flakeMetadata _ := .ok (.obj [("locked", .obj [("narHash", .str "sha256-QUFB")]),
    ("locks", .obj [("nodes", .obj [("root", .obj [])]), ("root", .str "root")])])
  evalJson _ := .error "no meta"
  buildJson _ := .ok []
  flakeShow _ := .ok .null

def packages (attrs : List String) : FlakeOptions := ⟨"f", attrs, "x86_64-linux", none, false, .hashOnly⟩

/-- The packages are told apart when they are extracted, and not when the extraction is repeated. -/
theorem flake_replays_iff_packages :
    (∃ e, Flake.extractFlake plainExtern twoPackages (packages ["a"]) = .ok e ∧ Flake.extractFlake plainExtern
      (RecordedNix.source "dir" (recordFlake plainExtern twoPackages (packages ["a"]))) (packages ["a"]) = .ok e) ∧
    ∃ e, Flake.extractFlake plainExtern twoPackages (packages ["a", "b"]) = .ok e ∧ Flake.extractFlake plainExtern
      (RecordedNix.source "dir" (recordFlake plainExtern twoPackages (packages ["a", "b"])))
        (packages ["a", "b"]) ≠ .ok e := by
  have hfacts : Recording.PathFacts twoPackages ∅ := fun paths infos h => (Except.ok.inj h).symm
  have hshown : ∀ attrs, ((Flake.extractFlake plainExtern twoPackages (packages attrs)).toOption.map fun e =>
      e.rootDrvs["b"]?).isSome → ∃ e, Flake.extractFlake plainExtern twoPackages (packages attrs) = .ok e := by
    intro attrs h
    obtain ⟨o, ho⟩ := Option.isSome_iff_exists.mp h
    obtain ⟨e, he, _⟩ := Option.map_eq_some_iff.mp ho
    exact ⟨e, toOption_eq_some.mp he⟩
  constructor
  · obtain ⟨e, he⟩ := hshown ["a"] (by decide)
    exact ⟨e, he, (flake_replays_iff hfacts he rfl rfl (by decide)).mpr (.inl rfl)⟩
  · obtain ⟨e, he⟩ := hshown ["a", "b"] (by decide)
    refine ⟨e, he, fun hreplayed => ?_⟩
    have hsecond : ((Flake.extractFlake plainExtern twoPackages (packages ["a", "b"])).toOption.map fun e =>
        e.rootDrvs["b"]?) = some (some drvB) := by decide
    rw [he] at hsecond
    have hfound : e.rootDrvs["b"]? = some drvB := Option.some.inj hsecond
    rcases (flake_replays_iff hfacts he rfl rfl (by decide)).mp hreplayed with h | h
    · cases h
    · rw [h] at hfound
      revert hfound
      decide

end Replay

end Nix2Rdf
