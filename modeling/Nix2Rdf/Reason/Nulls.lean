import Nix2Rdf.Hash
import Nix2Rdf.Nquads
import Nix2Rdf.Lib.Relabel
import Nix2Rdf.Lib.SortedSet

/-!
# Existential nodes

The reasoner's nulls get IRIs from the triples they appear in. The labels the engine gives them and
the order of its rows leave no trace in the result.
-/

namespace Nix2Rdf.Reason

abbrev BTreeSet := Std.ExtTreeSet String compare

/-- An RDF term as the reasoner produces it. -/
inductive RdfTerm where
  | iri (i : String)
  | literal (lexical datatype : String)
  | langString (lexical tag : String)
  /-- An existential null, by its engine-internal label. -/
  | null (label : String)
  deriving DecidableEq, Repr

structure DerivedTriple where
  s : RdfTerm
  p : RdfTerm
  o : RdfTerm
  deriving DecidableEq, Repr

/-- All nulls have one placeholder. -/
def key : RdfTerm → String
  | .null _ => "_"
  | .iri i => "<" ++ i ++ ">"
  | .literal l d => "\"" ++ l ++ "\"^^<" ++ d ++ ">"
  | .langString l g => "\"" ++ l ++ "\"@" ++ g

def DerivedTriple.line (tr : DerivedTriple) : String := key tr.s ++ " " ++ key tr.p ++ " " ++ key tr.o

/-- A line is noted for the null at one position of its triple. -/
def noted (pos line : String) (term : RdfTerm) (sigs : BTreeMap BTreeSet) : BTreeMap BTreeSet :=
  match term with
  | .null label => sigs.insert label ((sigs[label]?.getD ∅).insert (pos ++ " " ++ line))
  | _ => sigs

def notedTriple (sigs : BTreeMap BTreeSet) (tr : DerivedTriple) : BTreeMap BTreeSet :=
  noted "O" tr.line tr.o (noted "S" tr.line tr.s sigs)

/-- The lines each null appears in, with its position. -/
def signatures (triples : List DerivedTriple) : BTreeMap BTreeSet := triples.foldl notedTriple ∅

def nullIris (x : Extern) (derivedGraph : Iri) (triples : List DerivedTriple) : BTreeMap Iri :=
  (signatures triples).map fun _ sig =>
    derivedGraph ++ "/n/" ++ short (sha256HexItems x sig.toList)

/-- The lookup of a null that has no IRI panics. -/
def conv (nullIri : BTreeMap Iri) : RdfTerm → Option Term
  | .iri i => some (.iri i)
  | .literal l d => some (.literal l d)
  | .langString l g => some (.lang l g)
  | .null label => (nullIri[label]?).map .iri

abbrev Row := Term × Iri × Term

def withIri (tr : DerivedTriple) : Option (RdfTerm × Iri × RdfTerm) :=
  match tr.p with
  | .iri p => some (tr.s, p, tr.o)
  | _ => none

def convRow (nullIri : BTreeMap Iri) (r : RdfTerm × Iri × RdfTerm) : Option Row := do
  return (← conv nullIri r.1, r.2.1, ← conv nullIri r.2.2)

/-- By the text of the subject, the predicate and the text of the object. -/
def rowCmp : Row → Row → Ordering :=
  compareLex (compareOn fun r => Fragment.termText r.1)
    (compareLex (compareOn fun r => r.2.1) (compareOn fun r => Fragment.termText r.2.2))

/-- Every null is given an IRI; `none` is a panic. -/
def canonicalizeNulls (x : Extern) (triples : List DerivedTriple) (derivedGraph : Iri) :
    Option (List Row) :=
  ((triples.filterMap withIri).mapM (convRow (nullIris x derivedGraph triples))).map
    (SortedSet.sortDedup rowCmp)

/-! ## Signatures -/

theorem noted_isSome (pos line : String) (term : RdfTerm) (sigs : BTreeMap BTreeSet) (label : String) :
    ((noted pos line term sigs)[label]?).isSome ↔ sigs[label]?.isSome ∨ term = .null label := by
  cases term with
  | null l =>
      rw [noted, Std.ExtTreeMap.getElem?_insert]
      by_cases h : l = label
      · simp [h]
      · simp [h]
  | _ => simp [noted]

theorem mem_noted (pos line : String) (term : RdfTerm) (sigs : BTreeMap BTreeSet) (label str : String) :
    str ∈ (noted pos line term sigs)[label]?.getD ∅ ↔
      str ∈ sigs[label]?.getD ∅ ∨ (term = .null label ∧ str = pos ++ " " ++ line) := by
  cases term with
  | null l =>
      rw [noted, Std.ExtTreeMap.getElem?_insert]
      by_cases h : l = label
      · subst h
        rw [if_pos Std.ReflCmp.compare_self, Option.getD_some, Std.ExtTreeSet.mem_insert, compare_eq_iff_eq,
          or_comm, eq_comm (a := str)]
        simp
      · simp [h]
  | _ => simp [noted]

/-- The line of the triple with the position of the null in front. -/
def Notes (tr : DerivedTriple) (label str : String) : Prop :=
  (tr.s = .null label ∧ str = "S " ++ tr.line) ∨ (tr.o = .null label ∧ str = "O " ++ tr.line)

theorem foldl_notedTriple (triples : List DerivedTriple) (sigs : BTreeMap BTreeSet) (label : String) :
    (((triples.foldl notedTriple sigs)[label]?).isSome ↔
      sigs[label]?.isSome ∨ ∃ tr ∈ triples, tr.s = .null label ∨ tr.o = .null label) ∧
    ∀ str, str ∈ (triples.foldl notedTriple sigs)[label]?.getD ∅ ↔
      str ∈ sigs[label]?.getD ∅ ∨ ∃ tr ∈ triples, Notes tr label str := by
  induction triples generalizing sigs with
  | nil => simp
  | cons tr triples ih =>
      obtain ⟨hsome, hmem⟩ := ih (notedTriple sigs tr)
      rw [List.foldl_cons]
      refine ⟨?_, fun str => ?_⟩
      · rw [hsome, notedTriple, noted_isSome, noted_isSome]
        simp only [List.mem_cons, exists_eq_or_imp, or_assoc]
      · have hS : "S" ++ " " ++ tr.line = "S " ++ tr.line := rfl
        have hO : "O" ++ " " ++ tr.line = "O " ++ tr.line := rfl
        rw [hmem, notedTriple, mem_noted, mem_noted, hS, hO]
        simp only [List.mem_cons, exists_eq_or_imp, Notes, or_assoc]

theorem signatures_isSome {triples : List DerivedTriple} {label : String} :
    ((signatures triples)[label]?).isSome ↔ ∃ tr ∈ triples, tr.s = .null label ∨ tr.o = .null label := by
  rw [signatures, (foldl_notedTriple triples ∅ label).1]
  simp

theorem mem_signature {triples : List DerivedTriple} {label str : String} :
    str ∈ (signatures triples)[label]?.getD ∅ ↔ ∃ tr ∈ triples, Notes tr label str := by
  rw [signatures, (foldl_notedTriple triples ∅ label).2]
  simp

/-- Signatures of nulls that appear are equal when the nulls appear in the same lines. -/
theorem signatures_congr {triples triples' : List DerivedTriple} {label label' : String}
    (hsome : ((signatures triples)[label]?).isSome ↔ ((signatures triples')[label']?).isSome)
    (h : ∀ str, (∃ tr ∈ triples, Notes tr label str) ↔ ∃ tr ∈ triples', Notes tr label' str) :
    (signatures triples)[label]? = (signatures triples')[label']? := by
  have hset : (signatures triples)[label]?.getD ∅ = (signatures triples')[label']?.getD ∅ := by
    apply Std.ExtTreeSet.ext_mem
    intro str
    rw [mem_signature, mem_signature, h]
  cases hl : (signatures triples)[label]? <;> cases hl' : (signatures triples')[label']? <;>
    simp_all

/-! ## Relabelling -/

def RdfTerm.rename (f : String → String) : RdfTerm → RdfTerm
  | .null label => .null (f label)
  | t => t

def DerivedTriple.rename (f : String → String) (tr : DerivedTriple) : DerivedTriple :=
  ⟨tr.s.rename f, tr.p.rename f, tr.o.rename f⟩

def RdfTerm.labels : RdfTerm → Set String
  | .null label => {label}
  | _ => ∅

def DerivedTriple.labels (tr : DerivedTriple) : Set String := tr.s.labels ∪ tr.p.labels ∪ tr.o.labels

theorem RdfTerm.rename_congr {f g : String → String} {t : RdfTerm} (h : ∀ a ∈ t.labels, f a = g a) :
    t.rename f = t.rename g := by
  cases t with
  | null label => rw [rename, rename, h label rfl]
  | _ => rfl

theorem RdfTerm.rename_self (t : RdfTerm) : t.rename (fun a => a) = t := by cases t <;> rfl

theorem RdfTerm.rename_rename (f g : String → String) (t : RdfTerm) :
    (t.rename f).rename g = t.rename (g ∘ f) := by cases t <;> rfl

theorem RdfTerm.labels_rename (f : String → String) (t : RdfTerm) :
    (t.rename f).labels = f '' t.labels := by
  cases t <;> simp [rename, labels]

@[simp] theorem key_rename (f : String → String) (t : RdfTerm) : key (t.rename f) = key t := by
  cases t <;> rfl

@[simp] theorem line_rename (f : String → String) (tr : DerivedTriple) : (tr.rename f).line = tr.line := by
  simp [DerivedTriple.line, DerivedTriple.rename]

instance : Relabel String DerivedTriple where
  labels := DerivedTriple.labels
  map := DerivedTriple.rename
  map_congr := by
    intro f g tr h
    have hs := RdfTerm.rename_congr (t := tr.s) fun a ha => h a (.inl (.inl ha))
    have hp := RdfTerm.rename_congr (t := tr.p) fun a ha => h a (.inl (.inr ha))
    have ho := RdfTerm.rename_congr (t := tr.o) fun a ha => h a (.inr ha)
    rw [DerivedTriple.rename, DerivedTriple.rename, hs, hp, ho]
  map_id := by
    intro tr
    have hself : tr.rename (fun a => a) = tr := by
      rw [DerivedTriple.rename, RdfTerm.rename_self, RdfTerm.rename_self, RdfTerm.rename_self]
    exact hself
  map_map := by
    intro f g tr
    simp only [DerivedTriple.rename, RdfTerm.rename_rename]
  labels_map := by
    intro f tr
    simp only [DerivedTriple.labels, DerivedTriple.rename, RdfTerm.labels_rename, Set.image_union]

/-- The null labels of a list of triples. -/
def labelsOf (triples : List DerivedTriple) : Set String := {l | ∃ tr ∈ triples, l ∈ tr.labels}

theorem rename_eq_null {f : String → String} {t : RdfTerm} {S : Set String} (hf : Set.InjOn f S)
    (ht : t.labels ⊆ S) {label : String} (hl : label ∈ S) :
    t.rename f = .null (f label) ↔ t = .null label := by
  cases t with
  | null l =>
      have hmem : l ∈ S := ht rfl
      simp only [RdfTerm.rename, RdfTerm.null.injEq]
      exact ⟨fun h => hf hmem hl h, fun h => by rw [h]⟩
  | _ => simp [RdfTerm.rename]

section Rows

variable {triples triples' : List DerivedTriple} {f : String → String}
  (hf : Set.InjOn f (labelsOf triples))
  (hrows : ∀ t, t ∈ triples' ↔ ∃ u ∈ triples, u.rename f = t)
include hf hrows

/-- A null that is renamed keeps its signature. -/
theorem signature_rename {label : String} (hl : label ∈ labelsOf triples) :
    (signatures triples')[f label]? = (signatures triples)[label]? := by
  have hs : ∀ u ∈ triples, (u.rename f).s = .null (f label) ↔ u.s = .null label := fun u hu =>
    rename_eq_null hf (fun a ha => ⟨u, hu, .inl (.inl ha)⟩) hl
  have ho : ∀ u ∈ triples, (u.rename f).o = .null (f label) ↔ u.o = .null label := fun u hu =>
    rename_eq_null hf (fun a ha => ⟨u, hu, .inr ha⟩) hl
  have hex : ∀ {P Q : DerivedTriple → Prop}, (∀ u ∈ triples, P (u.rename f) ↔ Q u) →
      ((∃ t ∈ triples', P t) ↔ ∃ u ∈ triples, Q u) := by
    intro P Q h
    constructor
    · rintro ⟨t, ht, hP⟩
      obtain ⟨u, hu, rfl⟩ := (hrows t).mp ht
      exact ⟨u, hu, (h u hu).mp hP⟩
    · rintro ⟨u, hu, hQ⟩
      exact ⟨_, (hrows _).mpr ⟨u, hu, rfl⟩, (h u hu).mpr hQ⟩
  apply signatures_congr
  · rw [signatures_isSome, signatures_isSome]
    exact hex fun u hu => or_congr (hs u hu) (ho u hu)
  · intro str
    refine hex fun u hu => ?_
    rw [Notes, Notes, hs u hu, ho u hu, line_rename]

theorem conv_rename (x : Extern) (g : Iri) {t : RdfTerm} (ht : t.labels ⊆ labelsOf triples) :
    conv (nullIris x g triples') (t.rename f) = conv (nullIris x g triples) t := by
  cases t with
  | null label =>
      have hsig := signature_rename hf hrows (ht rfl)
      simp only [RdfTerm.rename, conv, nullIris, Std.ExtTreeMap.getElem?_map, hsig]
  | _ => rfl

end Rows

/-! ## Rows -/

instance : Std.TransCmp rowCmp :=
  inferInstanceAs (Std.TransCmp (compareLex (compareOn fun r : Row => Fragment.termText r.1)
    (compareLex (compareOn fun r => r.2.1) (compareOn fun r => Fragment.termText r.2.2))))

instance : Std.LawfulEqCmp rowCmp where
  eq_of_compare := by
    rintro ⟨s, p, o⟩ ⟨s', p', o'⟩ h
    simp only [rowCmp, compareLex, compareOn, Ordering.then_eq_eq, compare_eq_iff_eq] at h
    obtain ⟨hs, hp, ho⟩ := h
    rw [Fragment.termText_injective hs, hp, Fragment.termText_injective ho]
  compare_self := Std.ReflCmp.compare_self

/-- A null that appears at one end of a triple has an IRI. -/
theorem conv_isSome (x : Extern) (g : Iri) {triples : List DerivedTriple} {tr : DerivedTriple}
    (htr : tr ∈ triples) {t : RdfTerm} (ht : t = tr.s ∨ t = tr.o) :
    ∃ v, conv (nullIris x g triples) t = some v ∧ ∀ l, v ≠ .bnode l := by
  cases t with
  | iri i => exact ⟨.iri i, rfl, fun _ => Term.noConfusion⟩
  | literal l d => exact ⟨.literal l d, rfl, fun _ => Term.noConfusion⟩
  | langString l tag => exact ⟨.lang l tag, rfl, fun _ => Term.noConfusion⟩
  | null label =>
      have hsome : ((signatures triples)[label]?).isSome :=
        signatures_isSome.mpr ⟨tr, htr, ht.imp Eq.symm Eq.symm⟩
      obtain ⟨sig, hsig⟩ := Option.isSome_iff_exists.mp hsome
      refine ⟨.iri (g ++ "/n/" ++ short (sha256HexItems x sig.toList)), ?_, fun _ => Term.noConfusion⟩
      rw [conv, nullIris, Std.ExtTreeMap.getElem?_map, hsig]
      rfl

theorem convRow_eq_some {nullIri : BTreeMap Iri} {r : RdfTerm × Iri × RdfTerm} {row : Row} :
    convRow nullIri r = some row ↔
      conv nullIri r.1 = some row.1 ∧ r.2.1 = row.2.1 ∧ conv nullIri r.2.2 = some row.2.2 := by
  obtain ⟨s, p, o⟩ := row
  simp only [convRow, Option.bind_eq_bind, Option.bind_eq_some_iff, Option.pure_def,
    Option.some.injEq, Prod.mk.injEq]
  constructor
  · rintro ⟨s', hs, o', ho, rfl, hp, rfl⟩
    exact ⟨hs, hp, ho⟩
  · rintro ⟨hs, hp, ho⟩
    exact ⟨s, hs, o, ho, rfl, hp, rfl⟩

theorem withIri_eq_some {tr : DerivedTriple} {r : RdfTerm × Iri × RdfTerm} :
    withIri tr = some r ↔ tr = ⟨r.1, .iri r.2.1, r.2.2⟩ := by
  obtain ⟨s, p, o⟩ := tr
  obtain ⟨s', p', o'⟩ := r
  cases p <;> simp [withIri]

theorem exists_mapM {α β : Type} {f : α → Option β} {l : List α} (h : ∀ a ∈ l, ∃ b, f a = some b) :
    ∃ bs, l.mapM f = some bs ∧ ∀ b, b ∈ bs ↔ ∃ a ∈ l, f a = some b := by
  induction l with
  | nil => exact ⟨[], rfl, by simp⟩
  | cons a l ih =>
      obtain ⟨b, hb⟩ := h a List.mem_cons_self
      obtain ⟨bs, hbs, hmem⟩ := ih fun a ha => h a (List.mem_cons_of_mem _ ha)
      refine ⟨b :: bs, ?_, fun c => ?_⟩
      · rw [List.mapM_cons, hb, hbs]
        rfl
      · rw [List.mem_cons, hmem]
        simp only [List.mem_cons, exists_eq_or_imp, hb, Option.some.injEq, eq_comm (a := c)]

/-- The row is the image of a triple with an IRI as its predicate. -/
def IsImage (x : Extern) (g : Iri) (triples : List DerivedTriple) (row : Row) : Prop :=
  ∃ tr ∈ triples, tr.p = .iri row.2.1 ∧ conv (nullIris x g triples) tr.s = some row.1 ∧
    conv (nullIris x g triples) tr.o = some row.2.2

/-- The result lists the images of the triples, and no lookup fails. -/
theorem canonicalizeNulls_spec (x : Extern) (g : Iri) (triples : List DerivedTriple) :
    ∃ rows : List Row, (∀ row, row ∈ rows ↔ IsImage x g triples row) ∧
      canonicalizeNulls x triples g = some (SortedSet.sortDedup rowCmp rows) := by
  have hconv : ∀ r ∈ triples.filterMap withIri,
      ∃ row, convRow (nullIris x g triples) r = some row := by
    intro r hr
    obtain ⟨tr, htr, h⟩ := List.mem_filterMap.mp hr
    obtain rfl := withIri_eq_some.mp h
    obtain ⟨s, hs, _⟩ := conv_isSome x g htr (.inl rfl)
    obtain ⟨o, ho, _⟩ := conv_isSome x g htr (.inr rfl)
    exact ⟨(s, r.2.1, o), convRow_eq_some.mpr ⟨hs, rfl, ho⟩⟩
  obtain ⟨rows, hrows, hmem⟩ := exists_mapM hconv
  refine ⟨rows, fun row => ?_, ?_⟩
  · rw [hmem, IsImage]
    constructor
    · rintro ⟨r, hr, h⟩
      obtain ⟨tr, htr, hwith⟩ := List.mem_filterMap.mp hr
      obtain rfl := withIri_eq_some.mp hwith
      obtain ⟨hs, hp, ho⟩ := convRow_eq_some.mp h
      exact ⟨_, htr, by rw [hp], hs, ho⟩
    · rintro ⟨tr, htr, hp, hs, ho⟩
      refine ⟨(tr.s, row.2.1, tr.o), List.mem_filterMap.mpr ⟨tr, htr, ?_⟩,
        convRow_eq_some.mpr ⟨hs, rfl, ho⟩⟩
      rw [withIri_eq_some, ← hp]
  · rw [canonicalizeNulls, hrows]
    rfl

/-- Neither the labels of the nulls nor the order or number of the rows matter. Every lookup of a
null succeeds, the result holds IRIs and literals only, and every triple with an IRI as its
predicate is in it. -/
theorem canonicalizeNulls_relabel (x : Extern) (g : Iri) {triples triples' : List DerivedTriple}
    {f : String → String} (hf : Set.InjOn f (labelsOf triples))
    (hrows : ∀ t, t ∈ triples' ↔ ∃ u ∈ triples, u.rename f = t) :
    canonicalizeNulls x triples' g = canonicalizeNulls x triples g ∧
      ∃ out, canonicalizeNulls x triples g = some out ∧
        (∀ row ∈ out, ∀ l, row.1 ≠ .bnode l ∧ row.2.2 ≠ .bnode l) ∧
        ∀ tr ∈ triples, ∀ p, tr.p = .iri p →
          ∃ s o, conv (nullIris x g triples) tr.s = some s ∧
            conv (nullIris x g triples) tr.o = some o ∧ (s, p, o) ∈ out := by
  obtain ⟨rows, hmem, hrun⟩ := canonicalizeNulls_spec x g triples
  constructor
  · obtain ⟨rows', hmem', hrun'⟩ := canonicalizeNulls_spec x g triples'
    rw [hrun, hrun']
    congr 1
    apply SortedSet.sortDedup_congr
    intro row
    rw [hmem, hmem', IsImage, IsImage]
    have hs : ∀ u ∈ triples, conv (nullIris x g triples') (u.rename f).s
        = conv (nullIris x g triples) u.s := fun u hu =>
      conv_rename hf hrows x g fun a ha => ⟨u, hu, .inl (.inl ha)⟩
    have ho : ∀ u ∈ triples, conv (nullIris x g triples') (u.rename f).o
        = conv (nullIris x g triples) u.o := fun u hu =>
      conv_rename hf hrows x g fun a ha => ⟨u, hu, .inr ha⟩
    have hp : ∀ (u : DerivedTriple) i, (u.rename f).p = .iri i ↔ u.p = .iri i := by
      intro u i
      obtain ⟨s, p, o⟩ := u
      cases p <;> simp [DerivedTriple.rename, RdfTerm.rename]
    constructor
    · rintro ⟨t, ht, hpt, hst, hot⟩
      obtain ⟨u, hu, rfl⟩ := (hrows t).mp ht
      exact ⟨u, hu, (hp u _).mp hpt, hs u hu ▸ hst, ho u hu ▸ hot⟩
    · rintro ⟨u, hu, hpu, hsu, hou⟩
      exact ⟨_, (hrows _).mpr ⟨u, hu, rfl⟩, (hp u _).mpr hpu, (hs u hu).trans hsu, (ho u hu).trans hou⟩
  · refine ⟨_, hrun, fun row hrow l => ?_, fun tr htr p hp => ?_⟩
    · obtain ⟨tr, htr, _, hs, ho⟩ := (hmem row).mp (SortedSet.mem_sortDedup.mp hrow)
      obtain ⟨s, hs', hsl⟩ := conv_isSome x g htr (.inl rfl)
      obtain ⟨o, ho', hol⟩ := conv_isSome x g htr (.inr rfl)
      rw [hs, Option.some.injEq] at hs'
      rw [ho, Option.some.injEq] at ho'
      rw [hs', ho']
      exact ⟨hsl l, hol l⟩
    · obtain ⟨s, hs, _⟩ := conv_isSome x g htr (.inl rfl)
      obtain ⟨o, ho, _⟩ := conv_isSome x g htr (.inr rfl)
      exact ⟨s, o, hs, ho, SortedSet.mem_sortDedup.mpr ((hmem _).mpr ⟨tr, htr, hp, hs, ho⟩)⟩

/-- A cycle of two nulls and a null that is its own neighbour, with the rows repeated and permuted
and the nulls renamed. -/
theorem canonicalizeNulls_relabel_cycle :
    let triples : List DerivedTriple :=
      [⟨.null "a", .iri "p", .null "b"⟩, ⟨.null "b", .iri "p", .null "a"⟩, ⟨.null "c", .iri "p", .null "c"⟩]
    let triples' : List DerivedTriple :=
      [⟨.null "zc", .iri "p", .null "zc"⟩, ⟨.null "zb", .iri "p", .null "za"⟩,
        ⟨.null "za", .iri "p", .null "zb"⟩, ⟨.null "zb", .iri "p", .null "za"⟩]
    canonicalizeNulls plainExtern triples' "g" = canonicalizeNulls plainExtern triples "g" := by
  intro triples triples'
  refine (canonicalizeNulls_relabel (f := fun l => "z" ++ l) plainExtern "g" ?_ ?_).1
  · intro l _ l' _ h
    exact String.append_right_inj _ |>.mp h
  · intro t
    simp [triples, triples', DerivedTriple.rename, RdfTerm.rename, eq_comm]
    tauto

/-! ## Which nulls are merged -/

/-- Up to the identity of the other nulls, `a` and `b` appear in the same triples. -/
def Lookalike (triples : List DerivedTriple) (a b : String) : Prop :=
  ∀ str, (∃ tr ∈ triples, Notes tr a str) ↔ ∃ tr ∈ triples, Notes tr b str

/-- SHA-256 and its 16-digit prefix tell the signatures of the triples apart. -/
def NoCollision (x : Extern) (triples : List DerivedTriple) : Prop :=
  ∀ s ∈ (signatures triples).toList, ∀ s' ∈ (signatures triples).toList,
    short (sha256HexItems x s.2.toList) = short (sha256HexItems x s'.2.toList) →
      s.2.toList = s'.2.toList

def nullIri (x : Extern) (g : Iri) (triples : List DerivedTriple) (label : String) : Option Iri :=
  (nullIris x g triples)[label]?

theorem nullIri_eq_iff {x : Extern} {g : Iri} {triples : List DerivedTriple} {a b : String}
    (hx : NoCollision x triples) (ha : (nullIri x g triples a).isSome)
    (hb : (nullIri x g triples b).isSome) :
    nullIri x g triples a = nullIri x g triples b ↔ Lookalike triples a b := by
  simp only [nullIri, nullIris, Std.ExtTreeMap.getElem?_map, Option.isSome_map] at ha hb ⊢
  obtain ⟨sa, hsa⟩ := Option.isSome_iff_exists.mp ha
  obtain ⟨sb, hsb⟩ := Option.isSome_iff_exists.mp hb
  have hlook : Lookalike triples a b ↔ sa = sb := by
    have hma : ∀ str, str ∈ sa ↔ ∃ tr ∈ triples, Notes tr a str := by
      intro str
      rw [← mem_signature, hsa, Option.getD_some]
    have hmb : ∀ str, str ∈ sb ↔ ∃ tr ∈ triples, Notes tr b str := by
      intro str
      rw [← mem_signature, hsb, Option.getD_some]
    constructor
    · intro h
      apply Std.ExtTreeSet.ext_mem
      intro str
      rw [hma, hmb, h]
    · rintro rfl str
      rw [← hma, ← hmb]
  rw [hlook, hsa, hsb, Option.map_some, Option.map_some, Option.some.injEq, String.append_right_inj]
  constructor
  · intro h
    have hmem : ∀ {l : String} {s : BTreeSet}, (signatures triples)[l]? = some s →
        (l, s) ∈ (signatures triples).toList := Std.ExtTreeMap.mem_toList_iff_getElem?_eq_some.mpr
    exact Std.ExtTreeSet.toList_inj.mp (hx _ (hmem hsa) _ (hmem hsb) h)
  · rintro rfl
    rfl

/-- Two nulls are merged only if some permutation of the nulls maps one to the other and the triples
to themselves: exactly where, whenever they appear in the same triples up to nulls, the triples
linked to them through nulls look the same from them. -/
theorem merged_alike_iff {x : Extern} {g : Iri} {triples : List DerivedTriple} {a b : String}
    (hx : NoCollision x triples) (ha : (nullIri x g triples a).isSome)
    (hb : (nullIri x g triples b).isSome) :
    (nullIri x g triples a = nullIri x g triples b → Relabel.Alike {t | t ∈ triples} a b) ↔
      (Lookalike triples a b → Relabel.SameFrom {t | t ∈ triples} a b) := by
  have hlabel : ∃ t ∈ {t | t ∈ triples}, a ∈ Relabel.labels t := by
    simp only [nullIri, nullIris, Std.ExtTreeMap.getElem?_map, Option.isSome_map] at ha
    obtain ⟨tr, htr, h⟩ := signatures_isSome.mp ha
    refine ⟨tr, htr, ?_⟩
    rcases h with h | h
    · exact .inl (.inl (by rw [h]; rfl))
    · exact .inr (by rw [h]; rfl)
  rw [nullIri_eq_iff hx ha hb, Relabel.alike_iff_sameFrom hlabel]

/-- Two nulls with one kind of neighbour each, which only the neighbours' own triples tell apart. -/
def apart : List DerivedTriple :=
  [⟨.null "a", .iri "p", .null "c"⟩, ⟨.null "c", .iri "q", .literal "x" "s"⟩,
    ⟨.null "b", .iri "p", .null "d"⟩, ⟨.null "d", .iri "q", .literal "y" "s"⟩]

/-- The sum of the bytes, which tells the signatures of these triples apart. -/
def sumExtern : Extern := ⟨fun bs => toString (bs.map UInt8.toNat).sum, fun _ => none, 8⟩

theorem noCollision_apart : NoCollision sumExtern apart := by
  unfold NoCollision
  decide

theorem not_alike_apart : ¬ Relabel.Alike {t | t ∈ apart} "a" "b" := by
  rintro ⟨π, hab, hT, _⟩
  have himage : ∀ t ∈ apart, t.rename π ∈ apart := by
    intro t ht
    have hmem : Relabel.map π t ∈ {t | t ∈ apart} := hT ▸ ⟨t, ht, rfl⟩
    exact hmem
  have hc : π "c" = "d" := by
    have h := himage ⟨.null "a", .iri "p", .null "c"⟩ (by decide)
    simpa [apart, DerivedTriple.rename, RdfTerm.rename, hab] using h
  have h := himage ⟨.null "c", .iri "q", .literal "x" "s"⟩ (by decide)
  simp [apart, DerivedTriple.rename, RdfTerm.rename, hc] at h

theorem merged_but_apart : ¬ ∀ (x : Extern) (g : Iri) (triples : List DerivedTriple) (a b : String),
    NoCollision x triples → (nullIri x g triples a).isSome →
      nullIri x g triples a = nullIri x g triples b → Relabel.Alike {t | t ∈ triples} a b := by
  intro h
  refine not_alike_apart (h sumExtern "g" apart "a" "b" noCollision_apart ?_ ?_)
  · decide
  · decide

/-- Three nulls in a circle, each of them linked to the next one. -/
def circle : List DerivedTriple :=
  [⟨.null "a", .iri "p", .null "b"⟩, ⟨.null "b", .iri "p", .null "c"⟩, ⟨.null "c", .iri "p", .null "a"⟩]

theorem noCollision_circle : NoCollision sumExtern circle := by
  unfold NoCollision
  decide

theorem merged_alike_iff_circle :
    ((nullIri sumExtern "g" apart "a" = nullIri sumExtern "g" apart "b" → Relabel.Alike {t | t ∈ apart} "a" "b") ↔
      (Lookalike apart "a" "b" → Relabel.SameFrom {t | t ∈ apart} "a" "b")) ∧
    ((nullIri sumExtern "g" circle "a" = nullIri sumExtern "g" circle "b" → Relabel.Alike {t | t ∈ circle} "a" "b") ↔
      (Lookalike circle "a" "b" → Relabel.SameFrom {t | t ∈ circle} "a" "b")) :=
  ⟨merged_alike_iff noCollision_apart (by decide) (by decide),
    merged_alike_iff noCollision_circle (by decide) (by decide)⟩

end Nix2Rdf.Reason
