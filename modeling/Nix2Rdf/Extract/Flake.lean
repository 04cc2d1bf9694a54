import Nix2Rdf.Extract.Drv

/-!
# Flakes

The lock graph (pins, inputs, follows), the derivation graph of the selected outputs, and a snapshot
rooted at the flake's own pin.
-/

namespace Nix2Rdf

open Triple

structure CommitInfo where
  repo : String
  sha : String
  committedAt : String

structure FlakeOptions where
  flakeRef : String
  /-- Attribute paths relative to the flake; none means every package of the system. -/
  attrs : List String
  system : String
  commit : Option CommitInfo
  withMeta : Bool
  env : EnvMode

structure FlakeExtraction where
  rootNarHash : String
  snapshot : Iri
  fragments : List Fragment
  graph : GraphExtraction
  /-- The derivation of each attribute. -/
  rootDrvs : BTreeMap String
  /-- The fragment of the root pin, which `fragments` also lists. -/
  rootFrag : Fragment

namespace Flake

def strOf (v : Json) (k : String) : Option String := (v.get? k).bind Json.asStr?

/-- A lock entry as a flake reference. -/
def flakeRefString (o : Json) : String :=
  let get := fun k => (strOf o k).getD ""
  let ty := get "type"
  if ty = "github" ∨ ty = "gitlab" ∨ ty = "sourcehut" then
    ty ++ ":" ++ get "owner" ++ "/" ++ get "repo"
      ++ (match strOf o "rev", strOf o "ref" with
          | some r, _ => "/" ++ r
          | none, some r => "/" ++ r
          | none, none => "")
      ++ ((strOf o "dir").map fun d => "?dir=" ++ d).getD ""
  else if ty = "indirect" then "flake:" ++ get "id"
  else if ty = "path" then "path:" ++ get "path"
  else if ty = "git" ∨ ty = "hg" ∨ ty = "tarball" ∨ ty = "file" then
    let q := ((strOf o "ref").map fun r => "ref=" ++ r).toList
      ++ ((strOf o "rev").map fun r => "rev=" ++ r).toList
    ty ++ "+" ++ get "url" ++ (if q.isEmpty then "" else "?" ++ "&".intercalate q)
  else o.sort.print

/-- The description of one locked node. -/
def addPin (pin : Iri) (locked : Json) : List Triple :=
  let field := fun k term => (strOf locked k).toList.map fun v => addStr pin (nix term) v
  [addType pin (nix "FlakePin")]
  ++ field "narHash" "narHash" ++ field "type" "lockedType" ++ field "rev" "rev"
  ++ field "ref" "ref" ++ field "owner" "lockedOwner" ++ field "repo" "lockedRepo"
  ++ field "url" "lockedUrl" ++ field "dir" "lockedDir"
  ++ ((locked.get? "lastModified").bind Json.asI64?).toList.map fun v =>
      addInt pin (nix "lastModified") v

/-! ## Follows -/

def inputOf (nodes : Json) (node name : String) : Option Json :=
  ((nodes.get? node).bind (·.get? "inputs")).bind (·.get? name)

/-- The strings of a list; a follows path holds nothing else. -/
def strings (p : List Json) : List String := p.filterMap Json.asStr?

/-- The node that one input leads to. `none` is a stack that has run out, `some none` an input that
does not resolve. -/
def followStep (resolve : List String → Option (Option (String × String))) (nodes : Json)
    (cur name : String) : Option (Option String) :=
  match inputOf nodes cur name with
  | some (.str id) => some (some id)
  | some (.arr p) => (resolve (strings p)).map fun r =>
      r.bind fun (parent, n) => (inputOf nodes parent n).bind Json.asStr?
  | _ => some none

def followWalk (step : String → String → Option (Option String)) :
    String → List String → Option (Option String)
  | cur, [] => some (some cur)
  | cur, name :: rest =>
      match step cur name with
      | some (some id) => followWalk step id rest
      | r => r

/-- Resolve a follows path from the root to the parent node and the name of an input. -/
def resolveFollows (nodes : Json) (root : String) : Nat → List String → Option (Option (String × String))
  | 0, _ => none
  | depth + 1, path =>
      match path.getLast? with
      | none => some none
      | some last =>
          (followWalk (followStep (resolveFollows nodes root depth) nodes) root path.dropLast).map
            fun r => r.map fun parent => (parent, last)

/-! ## The lock graph -/

/-- A flake whose lock graph is being written. -/
structure Lock where
  nodes : Json
  rootId : String
  rootNar : String

namespace Lock

variable (k : Lock)

def node (id : String) : Json := k.nodes.index id

/-- The pin of a node: the root pin for the root, the pin of its NAR hash for a locked node. -/
def pinOf (id : String) : Option Iri :=
  if id ∉ k.nodes.keys then none
  else if id = k.rootId then some (Iri.pin k.rootNar)
  else (((k.node id).get? "locked").bind (strOf · "narHash")).map Iri.pin

/-- What an input that names a node records. -/
def targetTriples (input : Iri) (target : String) : List Triple :=
  addStr input (nix "lockNodeId") target
    :: ((k.pinOf target).toList.map fun tp => addIri input (nix "pinnedTo") tp)
    ++ (match k.nodes.get? target with
        | none => []
        | some tn =>
            ((tn.get? "original").toList.map fun orig =>
              addStr input (nix "originalRef") (flakeRefString orig))
            ++ (if (tn.get? "flake").bind Json.asBool? = some false
                then [addBool input (nix "isFlake") false] else []))

/-- What an input that follows a path records. -/
def followsTriples (depth : Nat) (input : Iri) (p : List Json) : Result (List Triple) :=
  match resolveFollows k.nodes k.rootId depth (strings p) with
  | none => .error "stack overflow"
  | some none => .ok []
  | some (some (parent, n)) =>
      .ok [addIri input (nix "follows") (Iri.flakeInput k.rootNar parent n)]

def valueTriples (depth : Nat) (input : Iri) : Json → Result (List Triple)
  | .str targetId => .ok (k.targetTriples input targetId)
  | .arr p => k.followsTriples depth input p
  | _ => .ok []

def inputTriples (depth : Nat) (parentPin : Iri) (id : String) (entry : String × Json) :
    Result (List Triple) := do
  let input := Iri.flakeInput k.rootNar id entry.1
  let target ← k.valueTriples depth input entry.2
  return [addType input (nix "FlakeInput"), addStr input (nix "name") entry.1,
    addIri parentPin (nix "locksInput") input] ++ target

/-- The locked entry of a node other than the root. -/
def lockedOf (id : String) : Option Json :=
  if id = k.rootId then none else (k.node id).get? "locked"

def inputsOf (id : String) : List (String × Json) :=
  (((k.node id).get? "inputs").map Json.entries).getD []

/-- What one node adds to the root fragment. -/
def nodeTriples (depth : Nat) (id : String) : Result (List Triple) :=
  match k.pinOf id with
  | none => .ok []
  | some pin => do
      let inputs ← (k.inputsOf id).mapM (k.inputTriples depth pin id)
      return ((k.lockedOf id).map (addPin pin)).getD [] ++ inputs.flatten

/-- The small fragment of one nested pin. -/
def nodeFragment (id : String) : Option Fragment :=
  (k.pinOf id).bind fun pin => (k.lockedOf id).map fun locked =>
    Fragment.ofTriples (.pin ((strOf locked "narHash").getD "")) (addPin pin locked)

end Lock

def lockOf (metadata : Json) (rootNar : String) : Result Lock :=
  match metadata.get? "locks" with
  | none => .error "flake metadata has no locks"
  | some locks =>
      match locks.get? "nodes" with
      | none => .error "flake.lock has no nodes"
      | some nodes => .ok ⟨nodes, (strOf locks "root").getD "root", rootNar⟩

/-- One fragment for each nested pin, and the triples for the root fragment. -/
def lockGraph (depth : Nat) (metadata : Json) (rootNar : String) :
    Result (List Fragment × List Triple) := do
  let k ← lockOf metadata rootNar
  let triples ← k.nodes.keys.mapM (k.nodeTriples depth)
  return (k.nodes.keys.filterMap k.nodeFragment, triples.flatten)

/-! ## The whole extraction -/

/-- `packages.<system>.*` of `nix flake show`. -/
def defaultAttrs (src : NixSource) (flakeRef system : String) : Result (List String) := do
  let «show» ← src.flakeShow flakeRef
  let attrs := (((«show».get? "packages").bind (·.get? system)).map Json.keys).getD []
  if attrs.isEmpty then
    .error ("no packages." ++ system ++ ".* in " ++ flakeRef ++ "; pass --attr")
  else return attrs.map fun name => "packages." ++ system ++ "." ++ name

def selectedAttrs (src : NixSource) (o : FlakeOptions) : Result (List String) :=
  if o.attrs.isEmpty then defaultAttrs src o.flakeRef o.system else .ok o.attrs

def metaFor (src : NixSource) (flakeRef attr : String) : Option Meta :=
  match src.evalJson {
      installable := some (flakeRef ++ "#" ++ attr ++ ".meta")
      apply := some ("m: \x7b license = m.license or null; homepage = m.homepage or null; "
        ++ "description = m.description or null; sourceProvenance = m.sourceProvenance or []; \x7d")
      label := "meta/" ++ encodeSegment attr } with
  | .ok v => some (Meta.fromJson v)
  | .error _ => none

/-- A dirty local checkout has no locked hash: the store copy of the source is asked. -/
def rootNarHash (src : NixSource) (metadata locked : Json) : Result String :=
  match strOf locked "narHash" with
  | some n => .ok n
  | none =>
      match strOf metadata "path" with
      | none => .error "flake metadata has neither locked.narHash nor path"
      | some path => do
          let infos ← src.pathInfo [path]
          match Extract.narHashOf infos path with
          | some n => .ok n
          | none => .error ("no NAR hash for " ++ path)

/-- The derivation of each attribute. `derivation show` loses the attribute, so with several of them
each is asked for by itself. -/
def rootDrvsOf (src : NixSource) (attrs installables : List String) (roots : BTreeMap DrvInfo) :
    BTreeMap String :=
  match attrs with
  | [attr] =>
      match roots.keys.head? with
      | some p => (∅ : BTreeMap String).insert attr p
      | none => ∅
  | _ =>
      let asked := (attrs.zip installables).foldl (fun (acc : BTreeMap String) ai =>
        match src.derivationShow [ai.2] false with
        | .ok m =>
            match m.keys.head? with
            | some p => acc.insert ai.1 p
            | none => acc
        | .error _ => acc) ∅
      if asked.isEmpty then
        roots.keys.zipIdx.foldl (fun (acc : BTreeMap String) pi =>
          acc.insert ((attrs[pi.2]?).getD pi.1) pi.1) ∅
      else asked

/-- The membership of one attribute in the snapshot. -/
def attrTriples (src : NixSource) (o : FlakeOptions) (rootNar : String) (graph : GraphExtraction)
    (attr drvPath : String) : List Triple :=
  match graph.drvIri drvPath with
  | none => []
  | some d =>
      let rootPin := Iri.pin rootNar
      let a := Iri.pinAttr rootNar attr
      [addType a (nix "Attribute"), addStr a (nix "attrPath") attr, addIri a (nix "evaluatesTo") d,
        addIri rootPin (nix "hasAttribute") a, addIri rootPin (nix "hasRoot") d]
      ++ if o.withMeta then ((metaFor src o.flakeRef attr).map (Extract.metaTriples d)).getD [] else []

/-- What the root fragment says of its own pin, before the lock graph. -/
def rootTriples (metadata locked : Json) (rootNar : String) : List Triple :=
  let rootPin := Iri.pin rootNar
  addPin rootPin locked ++ [addType rootPin (nix "Snapshot")]
  ++ ((strOf metadata "resolvedUrl").or (strOf metadata "url")).toList.map fun u =>
      addStr rootPin (nix "lockedUrl") u

def commitFragment (c : CommitInfo) (snapshot : Iri) : Fragment :=
  let node := Iri.commit c.repo c.sha
  Fragment.ofTriples (.commit c.repo c.sha)
    [addType node (nix "Commit"), addStr node (nix "rev") c.sha, addStr node (nix "repo") c.repo,
      addTyped node (nix "committedAt") c.committedAt (xsd "dateTime"),
      addIri node (nix "snapshot") snapshot]

/-- The snapshot part of an extraction, once everything it needs has been read. -/
def assemble (src : NixSource) (o : FlakeOptions) (metadata locked : Json) (rootNar : String)
    (lock : List Fragment × List Triple) (graph : GraphExtraction) (rootDrvs : BTreeMap String) :
    FlakeExtraction :=
  let rootPin := Iri.pin rootNar
  let rootFrag := Fragment.ofTriples (.pin rootNar)
    (rootTriples metadata locked rootNar ++ lock.2
      ++ rootDrvs.toList.flatMap (fun ap => attrTriples src o rootNar graph ap.1 ap.2)
      ++ graph.drvHashes.values.map fun h => addIri rootPin (nix "closureContains") (Iri.drv h))
  { rootNarHash := rootNar
    snapshot := rootPin
    fragments := lock.1 ++ graph.fragments ++ [rootFrag]
      ++ o.commit.toList.map fun c => commitFragment c rootPin
    graph := graph
    rootDrvs := rootDrvs
    rootFrag := rootFrag }

def extractFlake (x : Extern) (src : NixSource) (o : FlakeOptions) : Result FlakeExtraction := do
  let metadata ← src.flakeMetadata o.flakeRef
  let locked := (metadata.get? "locked").getD .null
  let rootNar ← rootNarHash src metadata locked
  let lock ← lockGraph x.stack metadata rootNar
  let attrs ← selectedAttrs src o
  let installables := attrs.map fun a => o.flakeRef ++ "#" ++ a
  let roots ← src.derivationShow installables false
  let graph ← Extract.extractGraph x src installables o.env
  return assemble src o metadata locked rootNar lock graph
    (rootDrvsOf src attrs installables roots)

end Flake

end Nix2Rdf
