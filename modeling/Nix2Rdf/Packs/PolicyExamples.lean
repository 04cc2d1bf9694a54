import Nix2Rdf.Packs.Program

/-!
# The policy-examples pack

Reference policies: inputs that are pinned to a revision, nothing unfree in a runtime closure, and signed images.
-/

namespace Nix2Rdf.Packs

/-- A violation node of a reference policy. -/
def exampleViolation (name policy : String) (subject : DTerm) (more : List DAtom) (body : List DLiteral) : DRule where
  head := [ou (var "v") rdfType (iri (nix "Violation")),
    ou (var "v") (nix "violates") (iri (policyBase ++ "policy-examples/" ++ policy)),
    ou (var "v") (nix "subject") subject] ++ more
  body := body
  name := name
  nulls := ["v"]

/-- A snapshot ships an output whose derivation is unfree. -/
def noUnfree : List DRule :=
  [exampleViolation "unfree" "no-unfree-in-runtime-closure" (var "d") [ou (var "v") (nix "inSnapshot") (var "s")]
      [tr (var "s") (nix "runtimeClosureContains") (var "o"), tr (var "d") (nix "hasOutput") (var "o"),
        tr (var "d") (nix "unfree") yes]]

/-- Every flake input must resolve to a pin that has a git revision. -/
def pinnedInputs : List DRule :=
  [clause (atom .pinnedWithRev [var "i"]) [tr (var "i") (nix "resolvesTo") (var "p"),
    tr (var "p") (nix "rev") (var "r")], exampleViolation "pinned" "pinned-inputs" (var "i") []
      [tr (var "i") rdfType (iri (nix "FlakeInput")), .neg (atom .pinnedWithRev [var "i"])]]

/-- Every image that a workload runs needs a verified attestation. -/
def signedImagesOnly : List DRule :=
  [clause (atom .signed [var "img"]) [tr (var "img") (attest "verifiedBy") (var "who")],
    exampleViolation "signed-only" "signed-images-only" (var "img") []
      [tr (var "c") (k8s "runsImage") (var "img"), .neg (atom .signed [var "img"])]]

def policyExamples : List DRule := noUnfree ++ pinnedInputs ++ signedImagesOnly

def policyExamplesRules : Ruleset := ⟨policyExamples, rfl, rfl⟩

end Nix2Rdf.Packs
