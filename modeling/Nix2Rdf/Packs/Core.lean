import Nix2Rdf.Packs.Syntax

/-!
# The core pack

The structural meaning of the `nix:` vocabulary. Extractors assert direct edges only; everything
transitive is derived here.
-/

namespace Nix2Rdf.Packs

/-- Build-time dependencies. -/
def coreBuild : List DRule :=
  [clause (tr (var "a") (nix "dependsOn") (var "b")) [tr (var "a") (nix "inputDrv") (var "b")],
    clause (tr (var "a") (nix "dependsOnTransitively") (var "b"))
      [tr (var "a") (nix "dependsOn") (var "b")],
    clause (tr (var "a") (nix "dependsOnTransitively") (var "c"))
      [tr (var "a") (nix "dependsOnTransitively") (var "b"), tr (var "b") (nix "dependsOn") (var "c")]]

def coreOutputs : List DRule :=
  [clause (tr (var "o") (nix "producedBy") (var "d")) [tr (var "d") (nix "hasOutput") (var "o")],
    clause (tr (var "o") rdfType (iri (nix "Output"))) [tr (var "d") (nix "hasOutput") (var "o")],
    clause (tr (var "d") rdfType (iri (nix "Derivation"))) [tr (var "d") (nix "drvPath") (var "p")]]

/-- Runtime dependencies, from store references after a build. -/
def coreRuntime : List DRule :=
  [clause (atom .refT [var "x", var "y"]) [tr (var "x") (nix "references") (var "y")],
    clause (atom .refT [var "x", var "z"])
      [atom .refT [var "x", var "y"], tr (var "y") (nix "references") (var "z")],
    clause (tr (var "a") (nix "runtimeDependsOn") (var "b"))
      [tr (var "a") (nix "hasOutput") (var "oa"), atom .refT [var "oa", var "ob"],
        tr (var "b") (nix "hasOutput") (var "ob"), ne (var "a") (var "b")]]

/-- Build closure and runtime closure of a snapshot. -/
def coreSnapshots : List DRule :=
  [clause (tr (var "s") (nix "closureContains") (var "d")) [tr (var "s") (nix "hasRoot") (var "d")],
    clause (tr (var "s") (nix "closureContains") (var "d2"))
      [tr (var "s") (nix "closureContains") (var "d1"), tr (var "d1") (nix "dependsOn") (var "d2")],
    clause (tr (var "s") rdfType (iri (nix "Snapshot")))
      [tr (var "s") (nix "closureContains") (var "d")],
    clause (tr (var "s") (nix "runtimeClosureContains") (var "o"))
      [tr (var "s") (nix "hasRoot") (var "d"), tr (var "d") (nix "hasOutput") (var "o")],
    clause (tr (var "s") (nix "runtimeClosureContains") (var "o2"))
      [tr (var "s") (nix "runtimeClosureContains") (var "o1"),
        tr (var "o1") (nix "references") (var "o2")],
    clause (tr (var "c") (nix "closureContains") (var "d"))
      [tr (var "c") (nix "snapshot") (var "s"), tr (var "s") (nix "closureContains") (var "d")],
    clause (tr (var "c") (nix "runtimeClosureContains") (var "o"))
      [tr (var "c") (nix "snapshot") (var "s"),
        tr (var "s") (nix "runtimeClosureContains") (var "o")]]

/-- What an image ships is what its layers hold. -/
def coreImages : List DRule :=
  [clause (tr (var "img") (nix "runtimeClosureContains") (var "o"))
      [tr (var "img") (nix "hasLayer") (var "l"), tr (var "l") (nix "layerContains") (var "o")],
    clause (tr (var "img") (nix "closureContains") (var "d"))
      [tr (var "img") (nix "runtimeClosureContains") (var "o"),
        tr (var "d") (nix "hasOutput") (var "o")],
    clause (tr (var "a") (nix "sharesLayerWith") (var "b"))
      [tr (var "a") (nix "hasLayer") (var "l"), tr (var "b") (nix "hasLayer") (var "l"),
        ne (var "a") (var "b")]]

def pinnedRule : DRule :=
  clause (tr (var "i") (nix "resolvesTo") (var "p")) [tr (var "i") (nix "pinnedTo") (var "p")]

def followsRule : DRule :=
  clause (tr (var "i") (nix "resolvesTo") (var "p"))
    [tr (var "i") (nix "follows") (var "j"), tr (var "j") (nix "resolvesTo") (var "p")]

/-- Follows resolution. -/
def coreInputs : List DRule := [pinnedRule, followsRule]

def core : List DRule :=
  coreBuild ++ coreOutputs ++ coreRuntime ++ coreSnapshots ++ coreImages ++ coreInputs

end Nix2Rdf.Packs
