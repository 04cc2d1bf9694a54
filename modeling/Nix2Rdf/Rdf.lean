/-!
# RDF terms, triples and quads

The terms the extractors write. A simple literal is typed `xsd:string`.
-/

namespace Nix2Rdf

abbrev Iri := String

inductive Term where
  | iri (i : Iri)
  | bnode (label : String)
  | literal (value : String) (datatype : Iri)
  | lang (value : String) (tag : String)
  deriving DecidableEq, Repr

structure Triple where
  s : Term
  p : Iri
  o : Term
  deriving DecidableEq, Repr

structure Quad where
  g : Iri
  s : Term
  p : Iri
  o : Term
  deriving DecidableEq, Repr

def Triple.inGraph (g : Iri) (t : Triple) : Quad := ⟨g, t.s, t.p, t.o⟩

theorem Triple.inGraph_injective (g : Iri) : Function.Injective (Triple.inGraph g) := by
  rintro ⟨s, p, o⟩ ⟨s', p', o'⟩ h
  simp only [Triple.inGraph, Quad.mk.injEq, true_and] at h
  obtain ⟨rfl, rfl, rfl⟩ := h
  rfl

end Nix2Rdf
