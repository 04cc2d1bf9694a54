import Nix2Rdf.Extract.Outputs

/-!
# Images

What the artifact of an image says, the fragment made of it, and the extraction around it. The reader
of the artifact (an archive or a JSON description) is a parameter.
-/

namespace Nix2Rdf

open Triple

structure LayerDesc where
  digestHex : String
  mediaType : Option String := none
  /-- Store paths (full) found in the layer, sorted. -/
  storePaths : List String := []

structure ImageDesc where
  tool : String
  configDigestHex : Option String := none
  repoTags : List String := []
  layers : List LayerDesc := []

structure ImageOptions where
  flakeRef : String
  attr : String
  /-- Registry (manifest) digest, if known from the push step. -/
  digest : Option String
  env : EnvMode

namespace Extract

/-- The name and the tag, `latest` where none is given. -/
def tagTriples (img : Iri) (tag : String) : List Triple :=
  let parts := (Text.rsplitOnce ':' tag).getD (tag, "latest")
  [addStr img (nix "imageName") parts.1, addStr img (nix "imageTag") parts.2]

def storePathTriples (ln : Iri) (p : String) : List Triple :=
  match storePathHash p with
  | none => []
  | some h =>
      let o := Iri.out h
      [addIri ln (nix "layerContains") o, addType o (nix "Output"), addStr o (nix "storePath") p]

def layerTriples (img : Iri) (layer : LayerDesc × Nat) : List Triple :=
  let l := layer.1
  let ln := Iri.layer l.digestHex
  [addIri img (nix "hasLayer") ln,
    addStr img (nix "layerIndex") (toString layer.2 ++ ":sha256:" ++ l.digestHex),
    addType ln (nix "Layer"), addStr ln (nix "digest") ("sha256:" ++ l.digestHex)]
  ++ (l.mediaType.toList.map fun m => addStr ln (nix "mediaType") m)
  ++ l.storePaths.flatMap (storePathTriples ln)

/-- What identifies the image: its id, the digest of its config, and the registry's. -/
def digestTriples (imageIdHex : String) (desc : ImageDesc) (registryDigest : Option String) :
    List Triple :=
  let img := Iri.image imageIdHex
  [addType img (nix "Image"), addType img (nix "Snapshot"),
    addStr img (nix "digest") ("sha256:" ++ imageIdHex)]
  ++ ((desc.configDigestHex.toList.filter (· ≠ imageIdHex)).map fun c =>
      addStr img (nix "digest") ("sha256:" ++ c))
  ++ (registryDigest.toList.map fun r => addStr img (nix "digest") r)
  ++ [addStr img (nix "imageTool") desc.tool]

def imageFragment (imageIdHex : String) (desc : ImageDesc) (imageDrv : Iri) (closure : List String)
    (registryDigest : Option String) : Fragment :=
  let img := Iri.image imageIdHex
  Fragment.ofTriples (.image imageIdHex)
    (digestTriples imageIdHex desc registryDigest
      ++ desc.repoTags.flatMap (tagTriples img)
      ++ [addIri img (nix "imageDerivation") imageDrv, addIri img (nix "hasRoot") imageDrv]
      ++ (closure.map fun h => addIri img (nix "closureContains") (Iri.drv h))
      ++ desc.layers.zipIdx.flatMap (layerTriples img))

/-! ## The whole extraction -/

def builtImage (src : NixSource) (installable : String) : Result BuildResult := do
  match (← src.buildJson installable).head? with
  | some b => return b
  | none => .error "nix build returned nothing"

/-- The output `out`, else the first one. -/
def artifactOf (b : BuildResult) : Result String :=
  match (b.outputs["out"]?).or b.outputs.values.head? with
  | some out => .ok out
  | none => .error "image has no output"

/-- The digest the registry reports, else the one of the config. -/
def imageIdOf (digest : Option String) (desc : ImageDesc) : Result String :=
  match digest with
  | some d => .ok ((Text.stripPrefix? "sha256:" d).getD d)
  | none =>
      match desc.configDigestHex with
      | some c => .ok c
      | none => .error "cannot determine image digest; pass --digest"

/-- Runtime references for the layer contents, when the paths are local. -/
def layerOutputs (src : NixSource) (turns : Nat) (desc : ImageDesc) : List Fragment :=
  let paths := desc.layers.flatMap fun l => l.storePaths
  if paths.isEmpty then []
  else
    match extractRuntimeClosure src turns paths with
    | .ok (outs, _) => outs
    | .error _ => []

def extractImage (x : Extern) (src : NixSource) (readImageArtifact : String → Result ImageDesc) (turns : Nat)
    (o : ImageOptions) : Result (List Fragment × Iri) := do
  let installable := o.flakeRef ++ "#" ++ o.attr
  let b ← builtImage src installable
  let desc ← readImageArtifact (← artifactOf b)
  let graph ← extractGraph x src [installable] o.env
  match graph.drvIri b.drvPath with
  | none => .error "image derivation not in graph"
  | some imageDrv => do
      let imageId ← imageIdOf o.digest desc
      return (graph.fragments ++ [imageFragment imageId desc imageDrv graph.drvHashes.values o.digest]
        ++ layerOutputs src turns desc, Iri.image imageId)

end Extract

end Nix2Rdf
