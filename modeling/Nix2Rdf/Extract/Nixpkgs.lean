import Nix2Rdf.Extract.Drv

/-!
# A whole nixpkgs revision

The results of `nix-eval-jobs` for one revision become the fragment of the revision, plus the
derivation graph.
-/

namespace Nix2Rdf

open Triple

/-! ## Reading `.drv` files -/

namespace DrvFile

/-- The worklist of `readClosure`: the last root comes off the stack first. The recursion counts the
turns of the loop. -/
def readLoop (readDrvFile : String → Result DrvInfo) :
    Nat → List String → BTreeMap DrvInfo → Result (BTreeMap DrvInfo)
  | 0, _, _ => .error "out of turns"
  | _ + 1, [], out => .ok out
  | turns + 1, p :: stack, out =>
      if out.contains p then readLoop readDrvFile turns stack out
      else do
        let d ← readDrvFile p
        let deps := d.inputDrvs.keys.filter fun dep => !out.contains dep
        readLoop readDrvFile turns (deps.reverse ++ stack) (out.insert p d)

/-- A closure of `.drv` files, from its roots along the input derivations. -/
def readClosure (readDrvFile : String → Result DrvInfo) (turns : Nat) (roots : List String) :
    Result (BTreeMap DrvInfo) :=
  readLoop readDrvFile turns roots.reverse ∅

theorem mem_readLoop {readDrvFile : String → Result DrvInfo} {turns : Nat} {stack : List String}
    {out m : BTreeMap DrvInfo} (h : readLoop readDrvFile turns stack out = .ok m) {p : String}
    (hp : p ∈ out ∨ p ∈ stack) : p ∈ m := by
  induction turns generalizing stack out with
  | zero => cases h
  | succ turns ih =>
      cases stack with
      | nil =>
          cases h
          exact hp.resolve_right List.not_mem_nil
      | cons q stack =>
          by_cases hq : out.contains q
          · simp only [readLoop, hq, if_true] at h
            apply ih h
            rcases hp with hp | hp
            · exact .inl hp
            · cases hp with
              | head => exact .inl (Std.ExtTreeMap.mem_iff_contains.mpr hq)
              | tail _ hp => exact .inr hp
          · simp only [readLoop, hq, Bool.false_eq_true, if_false, Result.bind_eq_ok] at h
            obtain ⟨d, _, h⟩ := h
            apply ih h
            rcases hp with hp | hp
            · exact .inl (Std.ExtTreeMap.mem_insert.mpr (.inr hp))
            · cases hp with
              | head => exact .inl (Std.ExtTreeMap.mem_insert.mpr (.inl Std.ReflCmp.compare_self))
              | tail _ hp => exact .inr (List.mem_append_right _ hp)

theorem mem_readClosure {readDrvFile : String → Result DrvInfo} {turns : Nat} {roots : List String}
    {m : BTreeMap DrvInfo} (h : readClosure readDrvFile turns roots = .ok m) {p : String}
    (hp : p ∈ roots) : p ∈ m :=
  mem_readLoop h (.inr (List.mem_reverse.mpr hp))

end DrvFile

/-! ## The revision -/

structure Revision where
  rev : String
  date : String
  name : String := ""
  narHash : String := ""

/-- What the results of a revision are converted with. -/
structure EvalOptions where
  revision : Revision
  /-- Read `.drv` files instead of asking `nix derivation show` in batches. -/
  drvFiles : Bool := false
  env : EnvMode := .hashOnly

namespace Nixpkgs

def revisionNode (r : Revision) (offset : Option Nat) : List Triple :=
  let n := Iri.nixpkgs r.rev
  [addType n (nix "NixpkgsRevision"), addStr n (nix "rev") r.rev, addTyped n (nix "date") r.date (xsd "date")]
  ++ (if r.name = "" then [] else [addStr n (nix "channelName") r.name])
  ++ (if r.narHash = "" then [] else [addStr n (nix "narHash") r.narHash])
  ++ offset.toList.map fun o => addInt n (nix "indexOffset") (o : Nat)

/-! ## Jobs -/

/-- The derivation a job evaluates to, when it did not fail. -/
def evaluated (j : EvalJob) : Option String :=
  match j.error with
  | some _ => none
  | none => j.drvPath

def attrOf (j : EvalJob) : String :=
  if j.attrPath.isEmpty then j.attr else String.intercalate "." j.attrPath

def metaOf (j : EvalJob) : Meta := (j.meta?.map Meta.fromJson).getD {}

/-- One turn of the loop over the jobs: the roots, and for each derivation its attribute and meta. -/
def collect (acc : List String × BTreeMap (String × Meta)) (j : EvalJob) :
    List String × BTreeMap (String × Meta) :=
  match evaluated j with
  | none => acc
  | some drv => (acc.1 ++ [drv], acc.2.insert drv (attrOf j, metaOf j))

def collected (jobs : List EvalJob) : List String × BTreeMap (String × Meta) :=
  jobs.foldl collect ([], ∅)

def metas (jobs : List EvalJob) : BTreeMap (String × Meta) := (collected jobs).2

def roots (jobs : List EvalJob) : List String := (sorted (collected jobs).1).dedup

/-- The derivation graph of the roots, in batches of 200 when Nix is asked. -/
def readGraph (src : NixSource) (readDrvFile : String → Result DrvInfo) (turns : Nat) (o : EvalOptions)
    (roots : List String) : Result (BTreeMap DrvInfo) :=
  if o.drvFiles then DrvFile.readClosure readDrvFile turns roots
  else
    (roots.toChunks 200).foldlM
      (fun all chunk => do
        let m ← src.derivationShow chunk true
        return all.insertMany m.toList)
      ∅

/-- What is said about the attribute that a derivation was reached by. -/
def attributeTriples (rev attr : String) (d : Iri) (m : Meta) : List Triple :=
  let rn := Iri.nixpkgs rev
  let a := Iri.nixpkgsAttr rev attr
  [addType a (nix "Attribute"), addStr a (nix "attrPath") attr, addIri a (nix "evaluatesTo") d,
    addIri rn (nix "hasAttribute") a, addIri rn (nix "evaluatesTo") d]
  ++ Extract.metaTriples d m

def attributeOf (rev : String) (g : GraphExtraction) (entry : String × (String × Meta)) : List Triple :=
  match g.drvIri entry.1 with
  | none => []
  | some d => attributeTriples rev entry.2.1 d entry.2.2

/-- The fragment of the revision. -/
def revisionFragment (o : EvalOptions) (ms : BTreeMap (String × Meta)) (g : GraphExtraction) : Fragment :=
  let rev := o.revision.rev
  let rn := Iri.nixpkgs rev
  Fragment.ofTriples (.nixpkgs rev)
    (revisionNode o.revision none ++ [addType rn (nix "Snapshot")]
      ++ ms.toList.flatMap (attributeOf rev g)
      -- every derivation of the closure can be built from this tree
      ++ g.drvHashes.values.map fun h => addIri rn (nix "evaluatesTo") (Iri.drv h))

/-- The revision's fragment comes last, after the derivation graph. -/
def fragmentsFromJobs (x : Extern) (src : NixSource) (readDrvFile : String → Result DrvInfo)
    (turns : Nat) (o : EvalOptions) (jobs : List EvalJob) : Result (List Fragment) := do
  let drvs ← readGraph src readDrvFile turns o (roots jobs)
  let graph ← Extract.extractFromDrvs x src drvs o.env
  return graph.fragments ++ [revisionFragment o (metas jobs) graph]

end Nixpkgs

end Nix2Rdf
