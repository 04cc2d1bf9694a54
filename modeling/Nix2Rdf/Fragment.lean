import Nix2Rdf.Iri
import Mathlib.Data.Finset.Sort
import Mathlib.Data.String.Basic
import Mathlib.Data.Finset.Image

/-!
# Fragments

A fragment is the immutable unit of storage: one named graph, serialized as canonical N-Quads. A
builder writes its fragment as the list of triples it adds, in the order of the source.
-/

namespace Nix2Rdf

open Text (slash)

/-- Where a fragment lives and what its graph IRI is. -/
inductive FragmentKind where
  | drv (hash : String)
  | out (hash : String)
  | src (narHash : String)
  | pin (narHash : String)
  | nixpkgs (rev : String)
  | commit (repo sha : String)
  | gen (hash : String)
  | image (digest : String)
  | index (hash : String)
  | derived (ruleset input : String)
  | run (ruleset input : String)
  | value (hash : String)
  | env (hash : String)
  | k8sSnapshot (cluster hash : String)
  | k8sNodes (cluster hash : String)
  | k8sObserved (cluster hash observedAt : String)
  | ext (kind ident : String)
  deriving DecidableEq, Repr

namespace FragmentKind

def suffix : String := ".nq.zst"

/-- Path relative to the store root. -/
def relativePath : FragmentKind → String
  | drv h => slash ["drv", h ++ suffix]
  | out h => slash ["out", h ++ suffix]
  | src n => slash ["src", narHashSegment n ++ suffix]
  | pin n => slash ["pin", narHashSegment n ++ suffix]
  | nixpkgs r => slash ["nixpkgs", r ++ suffix]
  | commit repo sha => slash ["commit", encodeSegment repo, sha ++ suffix]
  | gen h => slash ["gen", h ++ suffix]
  | image d => slash ["image", d ++ suffix]
  | index h => slash ["index", "nixpkgs-multiverse-" ++ h ++ suffix]
  | derived ruleset input => slash ["derived", ruleset, input ++ suffix]
  | run ruleset input => slash ["runs", ruleset, input ++ suffix]
  | value h => slash ["values", h ++ suffix]
  | env h => slash ["env", h ++ suffix]
  | k8sSnapshot cluster hash => slash ["k8s", encodeSegment cluster, "snapshot", hash ++ suffix]
  | k8sNodes cluster hash => slash ["k8s", encodeSegment cluster, "nodes", hash ++ suffix]
  | k8sObserved cluster hash observedAt =>
      slash ["k8s", encodeSegment cluster, "observed",
        hash ++ "-" ++ encodeSegment observedAt ++ suffix]
  | ext kind ident => slash ["ext", encodeSegment kind, encodeSegment ident ++ suffix]

/-- The named graph: the IRI of the entity the fragment is, or one under `fragment/`. -/
def graph : FragmentKind → Iri
  | drv h => Iri.drv h
  | out h => Iri.fragment "out" h
  | src n => Iri.src n
  | pin n => Iri.pin n
  | nixpkgs r => Iri.nixpkgs r
  | commit repo sha => Iri.commit repo sha
  | gen h => Iri.gen h
  | image d => Iri.image d
  | index h => Iri.fragment "index" ("nixpkgs-multiverse-" ++ h)
  | derived ruleset input => Iri.derived ruleset input
  | run ruleset input => Iri.fragment "run" (ruleset ++ ":" ++ input)
  | value h => Iri.fragment "values" h
  | env h => Iri.fragment "env" h
  | k8sSnapshot cluster hash => Iri.k8sSnapshot cluster hash
  | k8sNodes cluster hash => Iri.k8sNodesFragment cluster hash
  | k8sObserved cluster hash observedAt =>
      Iri.fragment "k8s-observed" (slash [encodeSegment cluster, hash, encodeSegment observedAt])
  | ext kind ident => id (slash [encodeSegment kind, encodeSegment ident])

end FragmentKind

structure Fragment where
  kind : FragmentKind
  lines : Finset Triple
  deriving DecidableEq

/-! ## The triples a builder adds -/

namespace Triple

def add (s p : Iri) (o : Term) : Triple := ⟨.iri s, p, o⟩
def addIri (s p o : Iri) : Triple := add s p (.iri o)
def addType (s cls : Iri) : Triple := addIri s rdfType cls
def addTyped (s p : Iri) (v : String) (datatype : Iri) : Triple := add s p (.literal v datatype)
def addStr (s p : Iri) (v : String) : Triple := addTyped s p v (xsd "string")
def addInt (s p : Iri) (v : Int) : Triple := addTyped s p (toString v) (xsd "integer")
def addBool (s p : Iri) (v : Bool) : Triple :=
  addTyped s p (if v then "true" else "false") (xsd "boolean")

@[simp] theorem add_p (s p : Iri) (o : Term) : (add s p o).p = p := rfl
@[simp] theorem addIri_p (s p o : Iri) : (addIri s p o).p = p := rfl
@[simp] theorem addType_p (s cls : Iri) : (addType s cls).p = rdfType := rfl
@[simp] theorem addTyped_p (s p : Iri) (v : String) (d : Iri) : (addTyped s p v d).p = p := rfl
@[simp] theorem addStr_p (s p : Iri) (v : String) : (addStr s p v).p = p := rfl
@[simp] theorem addInt_p (s p : Iri) (v : Int) : (addInt s p v).p = p := rfl
@[simp] theorem addBool_p (s p : Iri) (v : Bool) : (addBool s p v).p = p := rfl

@[simp] theorem add_o (s p : Iri) (o : Term) : (add s p o).o = o := rfl
@[simp] theorem addIri_o (s p o : Iri) : (addIri s p o).o = .iri o := rfl
@[simp] theorem addType_o (s cls : Iri) : (addType s cls).o = .iri cls := rfl

@[simp] theorem addIri_inj {s p o s' p' o' : Iri} :
    addIri s p o = addIri s' p' o' ↔ s = s' ∧ p = p' ∧ o = o' := by
  simp [addIri, add]

@[simp] theorem addStr_inj {s p s' p' : Iri} {v v' : String} :
    addStr s p v = addStr s' p' v' ↔ s = s' ∧ p = p' ∧ v = v' := by
  simp [addStr, addTyped, add]

end Triple

/-! ## The predicates of some triples -/

/-- None of the triples has one of the predicates. -/
def Avoids (ps : List Iri) (ts : List Triple) : Prop := ∀ t ∈ ts, t.p ∉ ps

section Avoids

variable {ps : List Iri}

@[simp] theorem avoids_nil : Avoids ps [] := by simp [Avoids]

@[simp] theorem avoids_cons {t : Triple} {ts : List Triple} : Avoids ps (t :: ts) ↔ t.p ∉ ps ∧ Avoids ps ts := by
  simp [Avoids]

@[simp] theorem avoids_append {ts us : List Triple} : Avoids ps (ts ++ us) ↔ Avoids ps ts ∧ Avoids ps us :=
  List.forall_mem_append

@[simp] theorem avoids_map {α : Type} {l : List α} {g : α → Triple} :
    Avoids ps (l.map g) ↔ ∀ a ∈ l, (g a).p ∉ ps := by
  simp [Avoids]

@[simp] theorem avoids_flatten {tss : List (List Triple)} : Avoids ps tss.flatten ↔ ∀ ts ∈ tss, Avoids ps ts := by
  simp only [Avoids, List.mem_flatten]
  constructor
  · intro h ts hts t ht
    exact h t ⟨ts, hts, ht⟩
  · intro h t ht
    obtain ⟨ts, hts, ht⟩ := ht
    exact h ts hts t ht

@[simp] theorem avoids_flatMap {α : Type} {l : List α} {g : α → List Triple} :
    Avoids ps (l.flatMap g) ↔ ∀ a ∈ l, Avoids ps (g a) := by
  rw [List.flatMap_def, avoids_flatten]
  simp

theorem avoids_filterMap {α : Type} {l : List α} {g : α → Option Triple} (h : ∀ a ∈ l, ∀ t, g a = some t → t.p ∉ ps) :
    Avoids ps (l.filterMap g) := by
  intro t ht
  obtain ⟨a, ha, hat⟩ := List.mem_filterMap.mp ht
  exact h a ha t hat

end Avoids

namespace Fragment

def ofTriples (kind : FragmentKind) (ts : List Triple) : Fragment := ⟨kind, ts.toFinset⟩

def graph (f : Fragment) : Iri := f.kind.graph

def quads (f : Fragment) : Finset Quad := f.lines.image (Triple.inGraph f.graph)

@[simp] theorem ofTriples_kind (k : FragmentKind) (ts : List Triple) : (ofTriples k ts).kind = k := rfl

@[simp] theorem mem_ofTriples {k : FragmentKind} {ts : List Triple} {t : Triple} :
    t ∈ (ofTriples k ts).lines ↔ t ∈ ts := List.mem_toFinset

theorem mem_quads {f : Fragment} {q : Quad} :
    q ∈ f.quads ↔ q.g = f.graph ∧ ⟨q.s, q.p, q.o⟩ ∈ f.lines := by
  simp only [quads, Finset.mem_image]
  constructor
  · rintro ⟨t, ht, rfl⟩
    exact ⟨rfl, ht⟩
  · rintro ⟨hg, h⟩
    exact ⟨_, h, by rw [← hg]; rfl⟩

/-! ## Canonical text -/

def escapeChar (c : Char) : List Char :=
  if c.toNat = 8 then ['\\', 'b']
  else if c = '\t' then ['\\', 't']
  else if c = '\n' then ['\\', 'n']
  else if c.toNat = 12 then ['\\', 'f']
  else if c = '\r' then ['\\', 'r']
  else if c = '"' then ['\\', '"']
  else if c = '\\' then ['\\', '\\']
  else if c.toNat < 32 ∨ c.toNat = 127 then
    ['\\', 'u', '0', '0', Encoding.upperHex (c.toNat / 16), Encoding.upperHex (c.toNat % 16)]
  else [c]

def quote (s : String) : String := String.ofList ('"' :: s.toList.flatMap escapeChar ++ ['"'])

def iriText (i : Iri) : String := "<" ++ i ++ ">"

def termText : Term → String
  | .iri i => iriText i
  | .bnode l => "_:" ++ l
  | .literal v dt => if dt = xsd "string" then quote v else quote v ++ "^^" ++ iriText dt
  | .lang v tag => quote v ++ "@" ++ tag

def lineText (t : Triple) : String := termText t.s ++ " " ++ iriText t.p ++ " " ++ termText t.o

instance transLe : IsTrans String fun a b => a ≤ b := ⟨fun _ _ _ => le_trans⟩

instance antisymmLe : Std.Antisymm fun a b : String => a ≤ b := ⟨fun _ _ => le_antisymm⟩

/-- Sorted, unique lines, each ending in the graph IRI. -/
def toNquads (f : Fragment) : String :=
  String.join ((f.lines.image lineText).sort.map fun l => l ++ " " ++ iriText f.graph ++ " .\n")

end Fragment

end Nix2Rdf
