import Nix2Rdf.Extract.Outputs

/-!
# NixOS generations

The system closure of one configuration and its option tree: the final value of each option and every
definition with its file. Large values go to side fragments.
-/

namespace Nix2Rdf

open Triple

structure NixosOptions where
  flakeRef : String
  name : String
  /-- Include options that no module defined. -/
  allOptions : Bool
  withRuntimeClosure : Bool
  env : EnvMode

structure DefRecord where
  file : String
  value : Option Json

/-- One option, as the option walker renders it. -/
structure OptRecord where
  path : String
  type : Option String
  declarations : List String
  isDefined : Bool
  value : Option Json
  definitions : List DefRecord

namespace Nixos

/-! ## Reading the option tree -/

/-- The fields of a record: the members of an object, or by position the items of an array. -/
def recordFields (names : List String) : Json → Result (String → Option Json)
  | .obj kvs => .ok ((Json.obj kvs).get? ·)
  | .arr xs =>
      if xs.length ≤ names.length then .ok fun k => (names.zip xs).lookup k
      else .error "fewer elements in array expected"
  | _ => .error "a record expected"

def stringField : Json → Result String
  | .str s => .ok s
  | _ => .error "a string expected"

def boolField : Json → Result Bool
  | .bool b => .ok b
  | _ => .error "a boolean expected"

def listField {α : Type} (item : Json → Result α) : Json → Result (List α)
  | .arr xs => xs.mapM item
  | _ => .error "a sequence expected"

/-- `null` stands for nothing. -/
def optionField {α : Type} (some? : Json → Result α) : Json → Result (Option α)
  | .null => .ok none
  | v => (some? v).map some

/-- A field that has a default. -/
def orDefault {α : Type} (read : Json → Result α) (default : α) : Option Json → Result α
  | none => .ok default
  | some v => read v

def required {α : Type} (name : String) (read : Json → Result α) : Option Json → Result α
  | none => .error ("missing field `" ++ name ++ "`")
  | some v => read v

def defRecord (v : Json) : Result DefRecord := do
  let field ← recordFields ["file", "value"] v
  return {
    file := ← required "file" stringField (field "file")
    value := ← orDefault (optionField .ok) none (field "value") }

def optRecord (v : Json) : Result OptRecord := do
  let field ← recordFields ["path", "type", "declarations", "is_defined", "value", "definitions"] v
  return {
    path := ← required "path" stringField (field "path")
    type := ← orDefault (optionField stringField) none (field "type")
    declarations := ← orDefault (listField stringField) [] (field "declarations")
    isDefined := ← orDefault boolField false (field "is_defined")
    value := ← orDefault (optionField .ok) none (field "value")
    definitions := ← orDefault (listField defRecord) [] (field "definitions") }

/-- The Nix expression that flattens the options into a list of records. -/
def optionWalker (all : Bool) : String :=
  let filter := if all then "true" else "o.isDefined"
  "options: let\n"
  ++ "  isOpt = v: builtins.isAttrs v && (v._type or null) == \"option\";\n"
  ++ "  tryJson = v: let r = builtins.tryEval (builtins.deepSeq v (builtins.toJSON v)); in "
  ++ "if r.success then builtins.fromJSON r.value else null;\n"
  ++ "  render = o: \x7b\n"
  ++ "    path = builtins.concatStringsSep \".\" o.loc;\n"
  ++ "    type = o.type.description or null;\n"
  ++ "    declarations = map toString (o.declarations or []);\n"
  ++ "    is_defined = o.isDefined;\n"
  ++ "    value = tryJson o.value;\n"
  ++ "    definitions = map (d: \x7b file = toString d.file; value = tryJson d.value; \x7d) "
  ++ "(o.definitionsWithLocations or []);\n"
  ++ "  \x7d;\n"
  ++ "  walk = set: builtins.concatLists (map (n:\n"
  ++ "      let v = set.$\x7bn\x7d; in\n"
  ++ "      if builtins.substring 0 1 n == \"_\" then []\n"
  ++ "      else if isOpt v then (let o = v; in if " ++ filter ++ " then [ (render o) ] else [])\n"
  ++ "      else if builtins.isAttrs v then walk v\n"
  ++ "      else []) (builtins.attrNames set));\n"
  ++ "in walk options"

/-! ## Values -/

/-- Values larger than this (bytes of canonical JSON) are stored by hash. -/
def valueInlineThreshold : Nat := 1024

def isInline (v : Json) : Bool := v.sort.print.utf8ByteSize ≤ valueInlineThreshold

def valueHash (x : Extern) (v : Json) : String := x.sha256Hex (Encoding.utf8 v.sort.print)

/-- A value in place, or its hash. -/
def valueLiteral (x : Extern) (subject prop : Iri) (v : Json) : Triple :=
  if isInline v then addStr subject prop v.sort.print
  else addStr subject (nix "valueHash") (valueHash x v)

/-- The side fragment of a value that is not in place. -/
def sideValue (x : Extern) (v : Json) : Option Fragment :=
  if isInline v then none
  else
    let h := valueHash x v
    some (Fragment.ofTriples (.value h) [addStr (Iri.value h) (nix "value") v.sort.print])

/-! ## The fragment of the generation -/

def definitionTriples (x : Extern) (genHash path : String) (ov : Iri) (d : DefRecord × Nat) : List Triple :=
  let dn := Iri.optionDefinition genHash path d.2
  [addType dn (nix "OptionDefinition"), addIri ov (nix "hasDefinition") dn, addStr dn (nix "definedIn") d.1.file]
  ++ d.1.value.toList.map (valueLiteral x dn (nix "definitionValue"))

def optionTriples (x : Extern) (genHash : String) (r : OptRecord) : List Triple :=
  let opt := Iri.option r.path
  let ov := Iri.optionValue genHash r.path
  [addType opt (nix "NixosOption"), addStr opt (nix "optionPath") r.path]
  ++ (r.type.toList.map fun ty => addStr opt (nix "optionType") ty)
  ++ (r.declarations.map fun d => addStr opt (nix "declaredIn") d)
  ++ [addType ov (nix "OptionValue"), addIri ov (nix "option") opt,
    addIri (Iri.gen genHash) (nix "hasOptionValue") ov, addBool ov (nix "isDefined") r.isDefined]
  ++ r.value.toList.map (valueLiteral x ov (nix "finalValue"))
  ++ r.definitions.zipIdx.flatMap (definitionTriples x genHash r.path ov)

/-- The side fragments of an option, in the order the values are met. -/
def optionValues (x : Extern) (r : OptRecord) : List Fragment :=
  (r.value.toList ++ r.definitions.filterMap fun d => d.value).filterMap (sideValue x)

/-- What the generation says of itself and of its configuration. -/
def generationTriples (genHash rootNar name : String) (topIri : Iri) (outPath : Option String) : List Triple :=
  let gen := Iri.gen genHash
  let cfg := Iri.nixosConfiguration rootNar name
  [addType gen (nix "NixosGeneration"), addType gen (nix "Snapshot"), addIri gen (nix "hasRoot") topIri,
    addIri gen (nix "fromPin") (Iri.pin rootNar)]
  ++ (outPath.toList.map fun p => addStr gen (nix "storePath") p)
  ++ [addType cfg (nix "NixosConfiguration"), addStr cfg (nix "name") name,
    addIri cfg (nix "fromPin") (Iri.pin rootNar), addIri gen (nix "configuration") cfg]

def genFragment (x : Extern) (genHash rootNar name : String) (topIri : Iri) (outPath : Option String)
    (closure : List String) (records : List OptRecord) : Fragment :=
  Fragment.ofTriples (.gen genHash)
    (generationTriples genHash rootNar name topIri outPath
      ++ (closure.map fun h => addIri (Iri.gen genHash) (nix "closureContains") (Iri.drv h))
      ++ records.flatMap (optionTriples x genHash))

/-! ## The whole extraction -/

def rootNarOf (metadata : Json) : Result String :=
  match ((metadata.get? "locked").bind (·.get? "narHash")).bind Json.asStr? with
  | some n => .ok n
  | none => .error "flake metadata has no locked.narHash"

/-- The option records; none when the tree does not evaluate. -/
def optionRecords (src : NixSource) (o : NixosOptions) : Result (List OptRecord) :=
  match src.evalJson {
      installable := some (o.flakeRef ++ "#nixosConfigurations." ++ o.name ++ ".options")
      apply := some (optionWalker o.allOptions)
      label := "options/" ++ encodeSegment o.name } with
  | .ok v => listField optRecord v
  | .error _ => .ok []

def outPathOf (top : DrvInfo) : Option String := (top.outputs["out"]?).bind OutputInfo.path

/-- The outputs of the runtime closure, when it is asked for and there. -/
def runtimeOutputs (src : NixSource) (turns : Nat) (o : NixosOptions) (outPath : Option String) : List Fragment :=
  match o.withRuntimeClosure, outPath with
  | true, some p =>
      match Extract.extractRuntimeClosure src turns [p] with
      | .ok (outs, _) => outs
      | .error _ => []
  | _, _ => []

def topDerivation (src : NixSource) (toplevel : String) : Result (String × DrvInfo) := do
  match (← src.derivationShow [toplevel] false).toList.head? with
  | some top => return top
  | none => .error "toplevel has no derivation"

/-- The fragment of the generation comes last. -/
def extractNixos (x : Extern) (src : NixSource) (turns : Nat) (o : NixosOptions) : Result (List Fragment) := do
  let toplevel := o.flakeRef ++ "#nixosConfigurations." ++ o.name ++ ".config.system.build.toplevel"
  let rootNar ← rootNarOf (← src.flakeMetadata o.flakeRef)
  let graph ← Extract.extractGraph x src [toplevel] o.env
  let top ← topDerivation src toplevel
  match graph.drvHashes[top.1]? with
  | none => .error "toplevel not in graph"
  | some topHash => do
      -- the hash of the output that runs, or of the derivation where its path is not known
      let genHash := ((outPathOf top.2).bind storePathHash).getD topHash
      let records ← optionRecords src o
      return graph.fragments ++ records.flatMap (optionValues x) ++ runtimeOutputs src turns o (outPathOf top.2)
        ++ [genFragment x genHash rootNar o.name (Iri.drv topHash) (outPathOf top.2) graph.drvHashes.values records]

end Nixos

end Nix2Rdf
