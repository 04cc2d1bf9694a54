import Nix2Rdf.Lib.FileTree
import Nix2Rdf.WriteTo

/-!
# Publishing and fetching

A published set is a directory with fragments under their store-relative paths and a manifest. Only
fragments missing from the local store are fetched, and the hash of every file is verified. A store,
a published set and the files of a mirror are trees.
-/

namespace Nix2Rdf.Publish

open FileTree
open Paths (endsAsDir)

structure ManifestEntry where
  path : String
  sha256 : String
  bytes : UInt64
  deriving DecidableEq

structure Manifest where
  version : UInt32
  fragments : List ManifestEntry
  deriving DecidableEq

/-- What files consist of: their hash and size, and the manifest as a file. -/
structure FileFormat (B : Type) where
  sha256Hex : B → String
  size : B → UInt64
  print : Manifest → B
  parse : B → Option Manifest
  parse_print : ∀ m, parse (print m) = some m

inductive FetchError where
  | io (path : TreePath)
  /-- What the server answered is no manifest. -/
  | manifest
  | other (message : String)
  deriving DecidableEq

/-! ## Paths -/

/-- The names of a path. Repeated slashes and `.` are passed over. -/
def components (path : String) : TreePath := (Text.split '/' path).filter fun n => ¬ Paths.Dropped n

/-- The directories that a path leads through, and last where it leads to. -/
def way (path : String) : List TreePath :=
  (Text.split '/' path).inits.map fun names => (names.foldl Paths.resolveStep []).reverse

/-- The same path with another extension. -/
def sibling (p : TreePath) (ext : String) : TreePath := p.dropLast ++ [fileStem (p.getLastD "") ++ "." ++ ext]

/-- Where a file is written before it is moved to its place. -/
def partOf (p : TreePath) : TreePath := sibling p "part"

/-- The test that rejects a path of the manifest. -/
def isUnsafe (path : String) : Bool := decide ("..".toList <:+: path.toList) || Text.startsWith "/" path

/-- A fragment file: its name ends in the suffix and it lies in neither the index nor the packs. -/
def isFragment (p : TreePath) : Bool :=
  Text.endsWith FragmentKind.suffix (p.getLastD "") && p.head? ≠ some "oxigraph" && p.head? ≠ some "packs"

section
variable {B : Type} (f : FileFormat B)

/-- All fragment files under the store. -/
def allFragmentPaths (t : FileTree B) : List TreePath :=
  t.nodes.keys.filter fun p => (t.file? p).isSome && isFragment p

/-- `Store::write`: nothing where something is already, else the directories on the way, a temporary file
and its renaming. -/
def write (t : FileTree B) (kind : FragmentKind) (b : B) : Option (FileTree B) :=
  let dirs := (way (Store.pathOf kind)).dropLast
  let p := (way (Store.pathOf kind)).getLastD []
  if dirs.all t.isDir && (t.node? p).isSome then some t
  else (dirs.foldlM createDirAll t).bind fun t => t.placeFile (sibling p "nq.zst.tmp") p b

/-! ## Publishing -/

def entryOf (p : TreePath) (b : B) : ManifestEntry := ⟨Text.slash p, f.sha256Hex b, f.size b⟩

def exists? (t : FileTree B) (root : TreePath) (path : String) : Bool :=
  if endsAsDir path then t.isDir (root ++ components path) else (t.node? (root ++ components path)).isSome

def mismatch (e : ManifestEntry) (h : String) : FetchError :=
  .other (e.path ++ ": hash mismatch (manifest " ++ e.sha256 ++ ", got " ++ h ++ ")")

/-- Write the bytes to the temporary file and move it to where the entry has its place. -/
def place (root : TreePath) (t : FileTree B) (e : ManifestEntry) (b : B) : Option (FileTree B) :=
  let target := root ++ components e.path
  if endsAsDir e.path then none else t.placeFile (partOf target) target b

def fetchEntry (root : TreePath) (get : String → Except FetchError B) (acc : FileTree B × Nat) (e : ManifestEntry) :
    Except FetchError (FileTree B × Nat) :=
  if isUnsafe e.path then .ok acc
  else if exists? acc.1 root e.path then .ok acc
  else do
    let b ← get e.path
    if f.sha256Hex b ≠ e.sha256 then .error (mismatch e (f.sha256Hex b))
    else
      match place root acc.1 e b with
      | some t => .ok (t, acc.2 + 1)
      | none => .error (.io (root ++ components e.path))

/-- Fetch a published set into the store at `root`. Returns the number of new files. -/
def fetch (root : TreePath) (get : String → Except FetchError B) (t : FileTree B) :
    Except FetchError (FileTree B × Nat) := do
  let b ← get "manifest.json"
  match f.parse b with
  | some m => m.fragments.foldlM (fetchEntry f root get) (t, 0)
  | none => .error .manifest

end

end Nix2Rdf.Publish
