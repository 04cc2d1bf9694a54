import Nix2Rdf.Store
import Nix2Rdf.Lib.Json
import Mathlib.Data.List.Sort
import Std.Data.ExtTreeSet

/-!
# What the extractors read from Nix

Serde models of the JSON the Nix command line prints, and the calls of a `NixSource`.
-/

namespace Nix2Rdf

/-- The error is its text. -/
abbrev Result := Except String

theorem Result.bind_eq_ok {α β : Type} {r : Result α} {f : α → Result β} {b : β} :
    r >>= f = .ok b ↔ ∃ a, r = .ok a ∧ f a = .ok b := by
  cases r <;> simp [bind, Except.bind]

@[simp] theorem Result.pure_eq_ok {α : Type} {a b : α} : (pure a : Result α) = .ok b ↔ a = b := by
  simp [pure, Except.pure]

/-- The results of a traversal are the results of its elements. -/
theorem Result.mapM_eq_ok {α β : Type} {f : α → Result β} {l : List α} {bs : List β} :
    l.mapM f = .ok bs ↔ List.Forall₂ (fun a b => f a = .ok b) l bs := by
  induction l generalizing bs with
  | nil =>
      cases bs <;> simp
  | cons a l ih =>
      simp only [List.mapM_cons, Result.bind_eq_ok, Result.pure_eq_ok]
      constructor
      · rintro ⟨b, hb, cs, hcs, rfl⟩
        exact .cons hb (ih.mp hcs)
      · rintro (_ | ⟨hb, hcs⟩)
        exact ⟨_, hb, _, ih.mpr hcs, rfl⟩

theorem Result.exists_mapM {α β : Type} {f : α → Result β} {l : List α}
    (h : ∀ a ∈ l, ∃ b, f a = .ok b) : ∃ bs, l.mapM f = .ok bs := by
  induction l with
  | nil => exact ⟨[], rfl⟩
  | cons a l ih =>
      obtain ⟨b, hb⟩ := h a List.mem_cons_self
      obtain ⟨bs, hbs⟩ := ih fun a ha => h a (List.mem_cons_of_mem _ ha)
      exact ⟨b :: bs, Result.mapM_eq_ok.mpr (.cons hb (Result.mapM_eq_ok.mp hbs))⟩

theorem Result.mem_of_mapM {α β : Type} {f : α → Result β} {l : List α} {bs : List β} {b : β}
    (h : l.mapM f = .ok bs) (hb : b ∈ bs) : ∃ a ∈ l, f a = .ok b := by
  have hall := Result.mapM_eq_ok.mp h
  clear h
  induction hall with
  | nil => cases hb
  | cons hab _ ih =>
      rcases List.mem_cons.mp hb with rfl | hb
      · exact ⟨_, List.mem_cons_self, hab⟩
      · obtain ⟨a, ha, hab⟩ := ih hb
        exact ⟨a, List.mem_cons_of_mem _ ha, hab⟩

theorem Result.mem_mapM {α β : Type} {f : α → Result β} {l : List α} {bs : List β} {a : α}
    (h : l.mapM f = .ok bs) (ha : a ∈ l) : ∃ b ∈ bs, f a = .ok b := by
  have hall := Result.mapM_eq_ok.mp h
  clear h
  induction hall with
  | nil => cases ha
  | cons hab _ ih =>
      rcases List.mem_cons.mp ha with rfl | ha
      · exact ⟨_, List.mem_cons_self, hab⟩
      · obtain ⟨b, hb, hab⟩ := ih ha
        exact ⟨b, List.mem_cons_of_mem _ hb, hab⟩

/-- What the code runs on: SHA-256, the JSON reader, and a stack that so many nested calls fit on. -/
structure Extern where
  sha256Hex : List UInt8 → String
  parseJson : String → Option Json
  stack : Nat

def plainExtern : Extern := ⟨fun _ => "", fun _ => none, 8⟩

def sorted (l : List String) : List String := l.insertionSort (· ≤ ·)

@[simp] theorem mem_sorted {l : List String} {s : String} : s ∈ sorted l ↔ s ∈ l :=
  (List.perm_insertionSort _ l).mem_iff

/-- Sorted, without repetitions. -/
def btreeSet (l : List String) : List String := (Std.ExtTreeSet.ofList l compare).toList

theorem mem_btreeSet {l : List String} {s : String} : s ∈ btreeSet l ↔ s ∈ l := by
  simp [btreeSet, Std.ExtTreeSet.mem_toList, Std.ExtTreeSet.mem_ofList]

/-! ## Derivations -/

/-- Absent for content-addressed derivations, unknown until built. -/
structure OutputInfo where
  path : Option String := none
  hashAlgo : Option String := none
  method : Option String := none
  hash : Option String := none
  deriving DecidableEq, Repr

/-- Older versions of Nix print a bare list. -/
inductive InputDrv where
  | structured (outputs : List String) (dynamicOutputs : Json)
  | list (outputs : List String)
  deriving Repr

def InputDrv.outputs : InputDrv → List String
  | structured outputs _ => outputs
  | list outputs => outputs

/-- One entry of `nix derivation show`. -/
structure DrvInfo where
  name : String
  system : String
  builder : String
  args : List String := []
  env : BTreeMap String := ∅
  inputDrvs : BTreeMap InputDrv := ∅
  inputSrcs : List String := []
  outputs : BTreeMap OutputInfo := ∅

namespace DrvInfo

/-- Any output lacks a path. -/
def isContentAddressed (d : DrvInfo) : Bool := d.outputs.values.any fun o => o.path.isNone

def usesStructuredAttrs (d : DrvInfo) : Bool :=
  ((d.env["__structuredAttrs"]?).map fun v => v == "1" || v == "true").getD false
    || d.env.contains "__json"

/-- Structured attrs, the `__json` variable, parsed if present. -/
def structuredAttrs (x : Extern) (d : DrvInfo) : Option Json :=
  ((d.env["__json"]?).bind x.parseJson).bind fun v => if v.isObj then some v else none

/-- A scalar attribute in env or structured attrs. -/
def attr (x : Extern) (d : DrvInfo) (key : String) : Option String :=
  match d.env[key]? with
  | some v => some v
  | none =>
      match (d.structuredAttrs x).bind (·.get? key) with
      | some (.str s) => some s
      | some (.bool b) => some (if b then "true" else "false")
      | some (.int n) => some (toString n)
      | some (.float text) => some text
      | _ => none

end DrvInfo

/-- One entry of `nix path-info --json`. -/
structure PathInfo where
  narHash : Option String := none
  references : List String := []
  deriver : Option String := none

/-- One entry of `nix build --json`. -/
structure BuildResult where
  drvPath : String
  outputs : BTreeMap String := ∅

structure EvalArgs where
  installable : Option String := none
  apply : Option String := none
  label : String := ""

/-- What the extractors need from Nix, one call of the command line a field. -/
structure NixSource where
  derivationShow : List String → Bool → Result (BTreeMap DrvInfo)
  pathInfo : List String → Result (BTreeMap (Option PathInfo))
  flakeMetadata : String → Result Json
  evalJson : EvalArgs → Result Json
  buildJson : String → Result (List BuildResult)
  flakeShow : String → Result Json

/-- One line of `nix-eval-jobs`. -/
structure EvalJob where
  attr : String := ""
  attrPath : List String := []
  drvPath : Option String := none
  meta? : Option Json := none
  error : Option String := none

/-! ## Package metadata -/

structure Meta where
  licenses : List String := []
  unfree : Bool := false
  homepage : Option String := none
  description : Option String := none
  sourceProvenance : List String := []
  deriving DecidableEq, Repr

namespace Meta

mutual
/-- The license names of a value, and whether one of them is not free. -/
def one : Json → List String × Bool
  | .str s => ([s], false)
  | .obj kvs => (licenseName (.obj kvs), ((Json.obj kvs).get? "free").bind Json.asBool? == some false)
  | .arr xs => many xs
  | _ => ([], false)

def many : List Json → List String × Bool
  | [] => ([], false)
  | v :: vs => ((one v).1 ++ (many vs).1, (one v).2 || (many vs).2)

/-- `spdxId` when present, else `shortName`, else `fullName`. -/
def licenseName (v : Json) : List String :=
  ((((v.get? "spdxId").bind Json.asStr?).or ((v.get? "shortName").bind Json.asStr?)).or
    ((v.get? "fullName").bind Json.asStr?)).toList
end

def homepageOf : Json → Option String
  | .str s => some s
  | .arr xs => xs.head?.bind Json.asStr?
  | _ => none

/-- Parse a `meta` object. -/
def fromJson (v : Json) : Meta :=
  if v.isObj then
    let license := ((v.get? "license").map one).getD ([], false)
    { licenses := (sorted license.1).dedup
      unfree := license.2
      homepage := (v.get? "homepage").bind homepageOf
      description := (v.get? "description").bind Json.asStr?
      sourceProvenance := sorted ((((v.get? "sourceProvenance").bind Json.asArr?).getD []).filterMap
        fun p => (p.get? "shortName").bind Json.asStr?) }
  else {}

end Meta

end Nix2Rdf
