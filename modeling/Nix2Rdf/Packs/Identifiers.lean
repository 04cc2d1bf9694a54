import Nix2Rdf.Packs.Syntax

/-!
# The identifiers and rdfs packs

PURLs and CPEs as derived guesses, and the RDFS entailment rules that matter for data.
-/

namespace Nix2Rdf.Packs

def ecosystems : List (String × String) :=
  [("python3Packages.", "pypi"), ("python311Packages.", "pypi"), ("python312Packages.", "pypi"),
    ("python313Packages.", "pypi"), ("nodePackages.", "npm"), ("haskellPackages.", "hackage"),
    ("rubyPackages.", "gem"), ("perlPackages.", "cpan"), ("luaPackages.", "luarocks"),
    ("rustPackages.", "cargo"), ("ocamlPackages.", "opam")]

/-- The vendor and the product of a pname. -/
def cpes : List (String × String × String) :=
  [("openssl", "openssl", "openssl"), ("curl", "haxx", "curl"), ("bash", "gnu", "bash"),
    ("glibc", "gnu", "glibc"), ("hello", "gnu", "hello"), ("coreutils", "gnu", "coreutils"),
    ("zlib", "zlib", "zlib"), ("nginx", "f5", "nginx"), ("openssh", "openbsd", "openssh"),
    ("python3", "python", "python"), ("sqlite", "sqlite", "sqlite"),
    ("libxml2", "xmlsoft", "libxml2"), ("linux", "linux", "linux_kernel"),
    ("systemd", "systemd_project", "systemd"), ("git", "git-scm", "git"), ("xz", "tukaani", "xz")]

def ranks : List (String × Nat) := [("CRITICAL", 4), ("HIGH", 3), ("MEDIUM", 2), ("LOW", 1), ("NONE", 0)]

variable (b : Builtins)

def purlRules : List DRule :=
  [clause (atom .pv [var "d", var "n", var "v"])
      [tr (var "d") (nix "pname") (var "n"), tr (var "d") (nix "version") (var "v")],
    clause (atom .attrOf [var "d", var "path"])
      [tr (var "a") (nix "attrPath") (var "path"), tr (var "a") (nix "evaluatesTo") (var "d")],
    clause (tr (var "d") (ids "purl") (var "u"))
      [atom .pv [var "d", var "n", var "v"],
        concat b (var "u") [str "pkg:nix/", var "n", str "@", var "v"]],
    clause (atom .ecoOf [var "d", var "type"])
      [atom .attrOf [var "d", var "path"], atom .ecosystem [var "prefix", var "type"],
        holds b.strStarts (var "path") (var "prefix")],
    clause (tr (var "d") (ids "purl") (var "u"))
      [atom .ecoOf [var "d", var "type"], atom .pv [var "d", var "n", var "v"],
        concat b (var "u") [str "pkg:", var "type", str "/", var "n", str "@", var "v"]]]

def cpeRules : List DRule :=
  [clause (tr (var "d") (ids "cpe") (var "c"))
      [atom .pv [var "d", var "n", var "v"], atom .cpe [var "n", var "vendor", var "product"],
        concat b (var "c")
          [str "cpe:2.3:a:", var "vendor", str ":", var "product", str ":", var "v",
            str ":*:*:*:*:*:*:*"]],
    clause (atom .inTable [var "n"]) [atom .cpe [var "n", var "v", var "p"]],
    clause (atom .gnuHome [var "d"])
      [tr (var "d") (nix "homepage") (var "h"), holds b.contains (var "h") (str "gnu.org")],
    clause (tr (var "d") (ids "cpe") (var "c"))
      [atom .pv [var "d", var "n", var "v"], .neg (atom .inTable [var "n"]), atom .gnuHome [var "d"],
        concat b (var "c") [str "cpe:2.3:a:gnu:", var "n", str ":", var "v", str ":*:*:*:*:*:*:*"]]]

/-- A loaded feed says that a PURL or a CPE is affected. -/
def vulnerabilityRules : List DRule :=
  [clause (tr (var "d") (ids "vulnerableTo") (var "vuln"))
      [tr (var "d") (ids "purl") (var "u"), tr (var "vuln") (ids "affectsPurl") (var "u")],
    clause (tr (var "d") (ids "vulnerableTo") (var "vuln"))
      [tr (var "d") (ids "cpe") (var "c"), tr (var "vuln") (ids "affectsCpe") (var "c")],
    clause (tr (var "vuln") (ids "severityRank") (var "r"))
      [tr (var "vuln") (ids "severity") (var "s"), atom .rank [var "s", var "r"]]]

def identifiers : List DRule :=
  purlRules b ++ cpeRules b ++ vulnerabilityRules
  ++ (ecosystems.map fun e => fact (atom .ecosystem [str e.1, str e.2]))
  ++ (cpes.map fun e => fact (atom .cpe [str e.1, str e.2.1, str e.2.2]))
  ++ (ranks.map fun e => fact (atom .rank [str e.1, int e.2]))

/-- The subproperty relation is transitive. -/
def rdfs5Rule : DRule :=
  clause (tr (var "p") (rdfs "subPropertyOf") (var "r"))
    [tr (var "p") (rdfs "subPropertyOf") (var "q"), tr (var "q") (rdfs "subPropertyOf") (var "r")]

/-- The triples of a subproperty hold for the superproperty. -/
def rdfs7Rule : DRule :=
  clause (atom .t [var "x", var "q", var "y"])
    [atom .t [var "x", var "p", var "y"], tr (var "p") (rdfs "subPropertyOf") (var "q")]

/-- rdfs11, rdfs9, rdfs5, rdfs7, rdfs2 and rdfs3. -/
def rdfsRules : List DRule :=
  [clause (tr (var "a") (rdfs "subClassOf") (var "c"))
      [tr (var "a") (rdfs "subClassOf") (var "b"), tr (var "b") (rdfs "subClassOf") (var "c")],
    clause (tr (var "x") rdfType (var "c2"))
      [tr (var "x") rdfType (var "c1"), tr (var "c1") (rdfs "subClassOf") (var "c2")],
    rdfs5Rule, rdfs7Rule,
    clause (tr (var "x") rdfType (var "c"))
      [tr (var "p") (rdfs "domain") (var "c"), atom .t [var "x", var "p", var "y"]],
    clause (tr (var "y") rdfType (var "c"))
      [tr (var "p") (rdfs "range") (var "c"), atom .t [var "x", var "p", var "y"], isIri (var "y")]]

end Nix2Rdf.Packs
