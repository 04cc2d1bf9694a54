import Nix2Rdf.Nix

/-!
# Derivation graphs

A derivation graph becomes one fragment for each derivation and one for each source. Every fragment
is a function of a single `DrvInfo` and the NAR hashes of its sources.
-/

namespace Nix2Rdf

open Triple

inductive EnvMode where
  /-- Only the hash of the environment and the well-known keys. -/
  | hashOnly
  /-- The full environment too, as a side fragment. -/
  | full
  deriving DecidableEq, Repr

structure GraphExtraction where
  /-- The store hash of each derivation path. -/
  drvHashes : BTreeMap String := ∅
  /-- The NAR hash of each source path. -/
  srcHashes : BTreeMap String := ∅
  fragments : List Fragment := []
  drvs : BTreeMap DrvInfo := ∅

def GraphExtraction.drvIri (g : GraphExtraction) (drvPath : String) : Option Iri :=
  (g.drvHashes[drvPath]?).map Iri.drv

def storeHash (path : String) : Result String :=
  match storePathHash path with
  | some h => .ok h
  | none => .error ("not a store path: " ++ path)

theorem storeHash_eq_ok {path h : String} : storeHash path = .ok h ↔ storePathHash path = some h := by
  unfold storeHash
  cases storePathHash path <;> simp

namespace Extract

/-- The text that the environment hash is taken of: the variables as an object, sorted by name. -/
def envJson (d : DrvInfo) : Json := .obj (d.env.toList.map fun kv => (kv.1, .str kv.2))

def wellKnown : List String := ["pname", "version"]

def headTriples (x : Extern) (drvPath : String) (d : DrvInfo) (s : Iri) : List Triple :=
  [addType s (nix "Derivation"), addStr s (nix "drvPath") drvPath, addStr s (nix "name") d.name,
    addStr s (nix "system") d.system, addStr s (nix "builder") d.builder]
  ++ (d.args.zipIdx.map fun a => addStr s (nix "arg") (toString a.2 ++ ":" ++ a.1))
  ++ (wellKnown.filterMap fun k =>
      (d.attr x k).map fun v => addStr s (if k = "pname" then nix "pname" else nix "version") v)
  ++ [addStr s (nix "envHash") (x.sha256Hex (Encoding.utf8 (envJson d).sort.print)),
    addBool s (nix "structuredAttrs") d.usesStructuredAttrs,
    addBool s (nix "contentAddressed") d.isContentAddressed]

def inputTriples (s : Iri) (input : String × InputDrv) : Result (List Triple) := do
  let ih ← storeHash input.1
  let dep := Iri.drv ih
  return [addIri s (nix "inputDrv") dep, addIri s (nix "dependsOn") dep]
    ++ input.2.outputs.map fun o => addStr s (nix "inputDrvOutput") (ih ++ "!" ++ o)

def sourceTriples (drvPath : String) (srcHashes : BTreeMap String) (s : Iri) (src : String) :
    Result (List Triple) :=
  match srcHashes[src]? with
  | some nar => .ok [addIri s (nix "inputSrc") (Iri.src nar)]
  | none => .error ("no NAR hash known for inputSrc " ++ src ++ " of " ++ drvPath
      ++ "; run with a store that has it (nix path-info)")

/-- Input-addressed outputs are known now; others arrive later, in a fragment of their own. -/
def outputTriples (s : Iri) (output : String × OutputInfo) : Result (List Triple) :=
  match output.2.path with
  | none => .ok []
  | some p => do
      let on := Iri.out (← storeHash p)
      return [addIri s (nix "hasOutput") on, addType on (nix "Output"),
        addStr on (nix "outputName") output.1, addStr on (nix "storePath") p]

/-- What the `.drv` file says, and nothing that depends on build state or on who is asking. -/
def derivationFragment (x : Extern) (drvPath : String) (d : DrvInfo) (srcHashes : BTreeMap String) :
    Result Fragment := do
  let h ← storeHash drvPath
  let s := Iri.drv h
  let inputs ← d.inputDrvs.toList.mapM (inputTriples s)
  let srcs ← d.inputSrcs.mapM (sourceTriples drvPath srcHashes s)
  let outs ← d.outputs.toList.mapM (outputTriples s)
  return Fragment.ofTriples (.drv h)
    (headTriples x drvPath d s ++ inputs.flatten ++ srcs.flatten ++ outs.flatten)

def envFragment (drvPath : String) (d : DrvInfo) : Result Fragment := do
  let h ← storeHash drvPath
  return Fragment.ofTriples (.env h)
    (d.env.toList.map fun kv => addStr (Iri.drv h) (nix "envVar") (kv.1 ++ "=" ++ kv.2))

/-- The store path as a `nix:Source`, identified by its NAR hash. -/
def sourceFragment (storePath narHash : String) : Fragment :=
  let s := Iri.src narHash
  Fragment.ofTriples (.src narHash)
    ([addType s (nix "Source"), addStr s (nix "narHash") narHash, addStr s (nix "storePath") storePath]
      ++ (storePathName storePath).toList.map fun n => addStr s (nix "name") n)

/-- The meta facts of a derivation. They go into a snapshot, since they depend on the attribute path
asked for. -/
def metaTriples (drv : Iri) (m : Meta) : List Triple :=
  (m.licenses.map fun l => addStr drv (nix "license") l)
  ++ (if m.unfree then [addBool drv (nix "unfree") true] else [])
  ++ (m.homepage.toList.map fun h => addTyped drv (nix "homepage") h (xsd "anyURI"))
  ++ (m.description.toList.map fun d => addStr drv (nix "description") d)
  ++ (m.sourceProvenance.map fun sp => addStr drv (nix "sourceProvenance") sp)

/-- The NAR hash of a source that the store knows one of. -/
def narHashOf (infos : BTreeMap (Option PathInfo)) (p : String) : Option String :=
  ((infos[p]?).bind fun i => i).bind PathInfo.narHash

/-- The fragments of one derivation. -/
def drvFragments (x : Extern) (env : EnvMode) (srcHashes : BTreeMap String) (drv : String × DrvInfo) :
    Result (List Fragment) := do
  let _ ← storeHash drv.1
  let f ← derivationFragment x drv.1 drv.2 srcHashes
  match env with
  | .hashOnly => return [f]
  | .full => return [f, ← envFragment drv.1 drv.2]

/-- All sources of a graph, sorted. -/
def srcList (drvs : BTreeMap DrvInfo) : List String :=
  btreeSet (drvs.values.flatMap fun d => d.inputSrcs)

def sourceInfos (src : NixSource) (srcs : List String) : Result (BTreeMap (Option PathInfo)) :=
  if srcs.isEmpty then .ok ∅ else src.pathInfo srcs

/-- The NAR hash of every source, or an error when one has none. -/
def sourceHashes (infos : BTreeMap (Option PathInfo)) (srcs : List String) : Result (BTreeMap String) :=
  match srcs.filter fun p => (narHashOf infos p).isNone with
  | [] => .ok (.ofList (srcs.filterMap fun p => (narHashOf infos p).map fun nar => (p, nar)) compare)
  | first :: rest =>
      .error (toString (rest.length + 1) ++ " inputSrcs have no NAR hash (first: " ++ first
        ++ "); they must be present in the local store")

/-- Extract a graph that is already parsed. -/
def extractFromDrvs (x : Extern) (src : NixSource) (drvs : BTreeMap DrvInfo) (env : EnvMode) :
    Result GraphExtraction := do
  let infos ← sourceInfos src (srcList drvs)
  let srcHashes ← sourceHashes infos (srcList drvs)
  let perDrv ← drvs.toList.mapM (drvFragments x env srcHashes)
  return {
    drvHashes := .ofList (drvs.toList.filterMap fun d =>
      (storePathHash d.1).map fun h => (d.1, h)) compare
    srcHashes := srcHashes
    fragments := srcHashes.toList.map (fun s => sourceFragment s.1 s.2) ++ perDrv.flatten
    drvs := drvs }

def extractGraph (x : Extern) (src : NixSource) (installables : List String) (env : EnvMode) :
    Result GraphExtraction := do
  extractFromDrvs x src (← src.derivationShow installables true) env

end Extract

end Nix2Rdf
