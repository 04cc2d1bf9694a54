import Nix2Rdf.Hash

/-!
# Loading packs

A pack is read from a directory tree. Its content hash covers the regular files; the files that give
it its vocabulary and its rules are read through links as well.
-/

namespace Nix2Rdf

/-- What a symbolic link leads to. -/
inductive Target where
  | missing
  | file (bytes : List UInt8)
  /-- A directory, with what reading each of its entries gives. -/
  | dir (entries : BTreeMap (Option (List UInt8)))

inductive Entry where
  | file (bytes : List UInt8)
  | link (target : Target)

/-- A directory tree: its files and links, by relative path. -/
abbrev DirTree := BTreeMap Entry

namespace DirTree

inductive Found where
  | missing
  /-- A directory. -/
  | unreadable
  | bytes (bs : List UInt8)

def find (t : DirTree) (path : String) : Found :=
  match t[path]? with
  | some (.file bs) => .bytes bs
  | some (.link (.file bs)) => .bytes bs
  | some (.link .missing) => .missing
  | some (.link (.dir _)) => .unreadable
  | none => if t.keys.any (Text.startsWith (path ++ "/")) then .unreadable else .missing

/-- The file is not itself in the tree. -/
def Linked (t : DirTree) (path : String) : Prop := ∃ target, t[path]? = some (.link target)

/-- The names in a directory of the tree. -/
def children (t : DirTree) (dir : String) : List String :=
  btreeSet ((t.keys.filterMap (Text.stripPrefix? (dir ++ "/"))).map fun p =>
    ((Text.splitOnce '/' p).map Prod.fst).getD p)

def regularFile (e : String × Entry) : Option (String × List UInt8) :=
  match e.2 with
  | .file bs => if Text.startsWith "tests/" e.1 then none else some (e.1, bs)
  | .link _ => none

/-- Every file except those under `tests/`, sorted by relative path. -/
def regularFiles (t : DirTree) : List (String × List UInt8) := t.toList.filterMap regularFile

end DirTree

structure PackManifest where
  name : String
  version : String
  dependsOn : List String := []
  description : String := ""
  deriving DecidableEq, Repr

structure Pack where
  manifest : PackManifest
  dir : String
  vocabTtl : Option String
  /-- The relative file names and texts, in load order. -/
  ruleFiles : List (String × String)
  contentHash : String
  deriving DecidableEq, Repr

namespace Packs

open DirTree

def read : Found → Option String
  | .bytes bs => Encoding.ofUtf8 bs
  | _ => none

/-- A file that may be missing. -/
def readIfExists : Found → Option (Option String)
  | .missing => some none
  | f => (read f).map some

/-- The extension of a file name is `rls`; a name that is nothing but an extension has none. -/
def isRuleName (name : String) : Bool :=
  match Text.rsplitOnce '.' name with
  | some (stem, ext) => stem != "" && ext == "rls"
  | none => false

/-- The rule files of the policy directory, sorted by name. -/
def policyFiles (t : DirTree) : List (String × Found) :=
  match t["policy"]? with
  | some (.link (.dir entries)) =>
      (entries.toList.filter fun e => isRuleName e.1).map fun e =>
        (e.1, match e.2 with
          | some bs => .bytes bs
          | none => .unreadable)
  | some _ => []
  | none => ((t.children "policy").filter isRuleName).map fun n => (n, t.find ("policy/" ++ n))

def namedRules (t : DirTree) (name : String) : Option (List (String × String)) :=
  (readIfExists (t.find name)).map fun text => (text.map fun text => (name, text)).toList

def contentItems (t : DirTree) : List (List UInt8) :=
  t.regularFiles.flatMap fun f => [Encoding.utf8 f.1, f.2]

/-- Read a pack; `none` is an error. -/
def load (toml : String → Option PackManifest) (x : Extern) (dir : String) (t : DirTree) : Option Pack := do
  let manifest ← toml (← read (t.find "pack.toml"))
  let vocabTtl ← readIfExists (t.find "vocab.ttl")
  let semantics ← namedRules t "semantics.rls"
  let mapping ← namedRules t "mapping.rls"
  let policy ← (policyFiles t).mapM fun f => (read f.2).map fun text => ("policy/" ++ f.1, text)
  return { manifest, dir, vocabTtl, ruleFiles := semantics ++ mapping ++ policy
           contentHash := hashItems x (contentItems t) }

end Packs

namespace Pack

def name (p : Pack) : String := p.manifest.name

def header (p : Pack) (file : String) : String := "%% ---- " ++ p.name ++ "/" ++ file ++ " ----\n"

/-- All rule text of the pack, concatenated in load order. -/
def rulesText (p : Pack) : String :=
  String.join (p.ruleFiles.map fun f => p.header f.1 ++ f.2 ++ "\n")

/-- The name and the version. -/
def label (p : Pack) : String := p.manifest.name ++ "@" ++ p.manifest.version

end Pack

namespace Packs

def rulesetItems (packs : List Pack) : List (List UInt8) :=
  packs.flatMap fun p =>
    [Encoding.utf8 (p.label ++ "#" ++ p.contentHash), Encoding.utf8 p.rulesText]

/-- Over the name, version and content hash of every pack in load order, and its rule text. -/
def rulesetHash (x : Extern) (packs : List Pack) : String := hashItems x (rulesetItems packs)

/-! ## Prefixes -/

/-- The prefix and the IRI of a declaration, without the keyword. -/
def prefixDecl (rest : String) : Option (String × String) :=
  let rest := Text.trim Text.isWhitespace rest
  let rest := Text.trim Text.isWhitespace (Text.trimEnd (· == '.') rest)
  (Text.splitOnce ':' rest).map fun d =>
    (Text.trim Text.isWhitespace d.1,
      Text.trim (fun c => c == '<' || c == '>') (Text.trim Text.isWhitespace d.2))

def addLine (p : Pack) (acc : BTreeMap String × String) (line : String) :
    Result (BTreeMap String × String) :=
  match Text.stripPrefix? "@prefix" (Text.trim Text.isWhitespace line) with
  | none => .ok (acc.1, acc.2 ++ line ++ "\n")
  | some rest =>
      match prefixDecl rest with
      | none => .error ("pack error: " ++ p.name ++ ": bad @prefix line: " ++ line)
      | some (pfx, iri) =>
          match acc.1[pfx]? with
          | none => .ok (acc.1.insert pfx iri, acc.2)
          | some prev =>
              if prev = iri then .ok acc
              else .error ("pack error: prefix '" ++ pfx ++ "' bound to both <" ++ prev ++ "> and <"
                ++ iri ++ "> (pack " ++ p.name ++ ")")

def addFile (p : Pack) (acc : BTreeMap String × String) (file : String × String) :
    Result (BTreeMap String × String) :=
  (Text.lines file.2).foldlM (addLine p) (acc.1, acc.2 ++ p.header file.1)

/-- The prefix declarations of all packs and the rest of their rule text. Conflicting definitions
are an error. -/
def collectPrefixes (packs : List Pack) : Result (BTreeMap String × String) :=
  packs.foldlM (fun acc p => p.ruleFiles.foldlM (addFile p) acc) (∅, "")

end Packs

end Nix2Rdf
