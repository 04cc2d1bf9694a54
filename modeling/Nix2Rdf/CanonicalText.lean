import Nix2Rdf.Reason.Scan

/-!
# The canonical text of a fragment

A fragment is kept as the set of its printed lines, in the order of their bytes and without the graph,
which each line gets when the text is made. The text says which triples have been added.
-/

namespace Nix2Rdf

def Fragment.fromQuads (kind : FragmentKind) (quads : List Quad) : Fragment :=
  ofTriples kind (quads.map fun q => ⟨q.s, q.p, q.o⟩)

def printQuad (q : Quad) : String := Fragment.line q.g (Fragment.lineText ⟨q.s, q.p, q.o⟩) ++ "\n"

/-- An N-Quads parser gives back the quads of which it reads the canonical text. -/
structure ReadsNquads (printable : Quad → Prop) (parse : String → Option (List Quad)) : Prop where
  printed : ∀ quads : List Quad, (∀ q ∈ quads, printable q) → parse (String.join (quads.map printQuad)) = some quads

/-! ## Texts and quads -/

/-- The lines of a fragment are those of its triples, in some order. -/
theorem exists_printed {f : Fragment} (h : ∀ t ∈ f.lines, t.Printed) :
    ∃ ts : List Triple, (∀ t, t ∈ ts ↔ t ∈ f.lines) ∧
    f.toNquads = String.join ((ts.map (Triple.inGraph f.graph)).map printQuad) := by
  have hsplit : ∀ ls : List String, (∀ l ∈ ls, l ∈ f.lines.image Fragment.lineText) →
      ∃ ts : List Triple, (∀ t ∈ ts, t ∈ f.lines) ∧ ts.map Fragment.lineText = ls := by
    intro ls
    induction ls with
    | nil => exact fun _ => ⟨[], by simp, rfl⟩
    | cons l ls ih =>
        intro hls
        rw [List.forall_mem_cons] at hls
        obtain ⟨t, ht, hl⟩ := Finset.mem_image.mp hls.1
        obtain ⟨ts, hts, hrest⟩ := ih hls.2
        exact ⟨t :: ts, List.forall_mem_cons.mpr ⟨ht, hts⟩, by rw [List.map_cons, hl, hrest]⟩
  obtain ⟨ts, hts, hsort⟩ := hsplit (f.lines.image Fragment.lineText).sort fun l hl => (Finset.mem_sort _).mp hl
  refine ⟨ts, fun t => ⟨hts t, fun ht => ?_⟩, ?_⟩
  · have hline : Fragment.lineText t ∈ ts.map Fragment.lineText := by
      rw [hsort]
      exact (Finset.mem_sort _).mpr (Finset.mem_image_of_mem _ ht)
    obtain ⟨t', ht', heq⟩ := List.mem_map.mp hline
    rwa [← Fragment.lineText_inj (h t' (hts t' ht')) (h t ht) heq]
  · rw [Fragment.toNquads_eq, ← hsort, List.map_map, List.map_map, List.map_map]
    rfl

/-- Every quad is printed on a line of its own. -/
theorem lines_printed {quads : List Quad} (h : ∀ q ∈ quads, PlainText q.g ∧ Triple.Printed ⟨q.s, q.p, q.o⟩) :
    Text.lines (String.join (quads.map printQuad)) = quads.map fun q => Fragment.line q.g
      (Fragment.lineText ⟨q.s, q.p, q.o⟩) := by
  have hmap : quads.map printQuad
      = (quads.map fun q => Fragment.line q.g (Fragment.lineText ⟨q.s, q.p, q.o⟩)).map fun l => l ++ "\n" := by
    rw [List.map_map]
    rfl
  rw [hmap]
  refine Text.lines_join fun l hl => ?_
  obtain ⟨q, hq, rfl⟩ := List.mem_map.mp hl
  exact Fragment.newline_not_mem_line (h q hq).1.oneToken (h q hq).2.unbroken

theorem printed_inj {printable : Quad → Prop}
    (hprinted : ∀ q, printable q → PlainText q.g ∧ Triple.Printed ⟨q.s, q.p, q.o⟩)
    {quads quads' : List Quad} (h : ∀ q ∈ quads, printable q) (h' : ∀ q ∈ quads', printable q)
    (heq : String.join (quads.map printQuad) = String.join (quads'.map printQuad)) : quads = quads' := by
  have hsame := congrArg Text.lines heq
  rw [lines_printed fun q hq => hprinted q (h q hq), lines_printed fun q hq => hprinted q (h' q hq)] at hsame
  clear heq
  induction quads generalizing quads' with
  | nil =>
      cases quads' with
      | nil => rfl
      | cons q' quads' => cases hsame
  | cons q quads ih =>
      cases quads' with
      | nil => cases hsame
      | cons q' quads' =>
          rw [List.forall_mem_cons] at h h'
          rw [List.map_cons, List.map_cons, List.cons.injEq] at hsame
          obtain ⟨hg, ht⟩ := hprinted q h.1
          obtain ⟨hg', ht'⟩ := hprinted q' h'.1
          obtain ⟨hgraph, htriple⟩ := Fragment.line_inj hg hg' ht ht' hsame.1
          have hquad : q = q' := by
            cases q
            cases q'
            rw [Triple.mk.injEq] at htriple
            obtain ⟨hs, hp, ho⟩ := htriple
            exact Quad.mk.injEq .. |>.mpr ⟨hgraph, hs, hp, ho⟩
          rw [hquad, ih h.2 h'.2 hsame.2]

/-- The quads of which this is the canonical text. -/
noncomputable def readPrinted (printable : Quad → Prop) (text : String) : Option (List Quad) :=
  open Classical in
  if h : ∃ quads : List Quad, (∀ q ∈ quads, printable q) ∧ String.join (quads.map printQuad) = text then
    some h.choose
  else none

theorem readPrinted_reads {printable : Quad → Prop}
    (hprinted : ∀ q, printable q → PlainText q.g ∧ Triple.Printed ⟨q.s, q.p, q.o⟩) :
    ReadsNquads printable (readPrinted printable) := by
  refine ⟨fun quads hquads => ?_⟩
  have h : ∃ quads' : List Quad, (∀ q ∈ quads', printable q) ∧
      String.join (quads'.map printQuad) = String.join (quads.map printQuad) := ⟨quads, hquads, rfl⟩
  rw [readPrinted, dif_pos h, printed_inj hprinted h.choose_spec.1 hquads h.choose_spec.2]

/-! ## The order of the lines -/

open Fragment

theorem PlainText.space_lt {s : String} (h : PlainText s) {c : Char} (hc : c ∈ s.toList) : ' ' < c := by
  have hlow := h c hc
  simp only [iriExcluded, Bool.or_eq_false_iff, decide_eq_false_iff_not, not_le] at hlow
  exact UInt32.lt_iff_toNat_lt.mpr hlow.1

theorem space_lt_iriText {i : Iri} (hi : PlainText i) {c : Char} (hc : c ∈ (iriText i).toList) : ' ' < c := by
  have hlist : (iriText i).toList = '<' :: (i.toList ++ ['>']) := by simp [iriText]
  rw [hlist, List.mem_cons, List.mem_append, List.mem_singleton] at hc
  rcases hc with rfl | hc | rfl
  · decide
  · exact hi.space_lt hc
  · decide

theorem space_lt_literalSuffix {o : Term} (ho : o.Plain) {c : Char} (hc : c ∈ (literalSuffix o).toList) :
    ' ' < c := by
  cases o with
  | iri i => cases hc
  | bnode l => cases hc
  | literal v dt =>
      rw [literalSuffix] at hc
      split at hc
      · cases hc
      · rw [String.toList_append, List.mem_append] at hc
        rcases hc with hc | hc
        · have hcarets : ∀ c ∈ "^^".toList, ' ' < c := by decide
          exact hcarets c hc
        · exact space_lt_iriText ho hc
  | lang v tag =>
      rw [literalSuffix, String.toList_append, List.mem_append] at hc
      rcases hc with hc | hc
      · have hat : ∀ c ∈ "@".toList, ' ' < c := by decide
        exact hat c hc
      · exact PlainText.space_lt ho hc

/-- What may follow the text of a term within that of another is no space: the end of an IRI or a label, or
of what stands after a closing quote. -/
theorem space_lt_of_termText {o o' : Term} (ho' : o'.Plain) {c : Char} {r : List Char}
    (h : (termText o').toList = (termText o).toList ++ c :: r) : ' ' < c := by
  have hmem : c ∈ (termText o').toList := by
    rw [h]
    exact List.mem_append_right _ List.mem_cons_self
  have hfirst : firstChar o' = firstChar o := by
    rw [← Option.some.injEq, ← head_termText, ← head_termText, h, List.head?_append]
    simp [head_termText]
  have hquoted : ∀ {v w t t' : String}, termText o = quote v ++ t → termText o' = quote w ++ t' →
      c ∈ t'.toList := by
    intro v w t t' hv hw
    have hjoin : quote w ++ t' = quote v ++ (t ++ String.ofList (c :: r)) := by
      apply String.toList_inj.mp
      rw [← hw, h, hv]
      simp
    rw [(quote_inj hjoin).2]
    simp
  cases o' with
  | iri i => exact space_lt_iriText ho' hmem
  | bnode l =>
      rw [termText, String.toList_append, List.mem_append] at hmem
      rcases hmem with hmem | hmem
      · have hmark : ∀ c ∈ "_:".toList, ' ' < c := by decide
        exact hmark c hmem
      · exact PlainText.space_lt ho' hmem
  | literal w dt' =>
      refine space_lt_literalSuffix ho' ?_
      cases o with
      | literal v dt => exact hquoted (termText_literal v dt) (termText_literal w dt')
      | lang v tag => exact hquoted (termText_lang v tag) (termText_literal w dt')
      | _ => simp [firstChar] at hfirst
  | lang w tag' =>
      refine space_lt_literalSuffix ho' ?_
      cases o with
      | literal v dt => exact hquoted (termText_literal v dt) (termText_lang w tag')
      | lang v tag => exact hquoted (termText_lang v tag) (termText_lang w tag')
      | _ => simp [firstChar] at hfirst

/-- The graph at the end leaves two lines in their order, also where one is the front of the other. -/
theorem line_lt {g : Iri} {t t' : Triple} (ht : t.Printed) (ht' : t'.Printed) (h : lineText t < lineText t') :
    line g (lineText t) < line g (lineText t') := by
  have hline : ∀ l, (line g l).toList = l.toList ++ ' ' :: ((iriText g).toList ++ " .".toList) := by
    simp [line]
  have hlt := Text.append_cons_lt (d := ' ') (l := (lineText t).toList) (m := (lineText t').toList) h
    (fun c r hext => ?_) ((iriText g).toList ++ " .".toList)
  · rw [← hline, ← hline] at hlt
    exact hlt
  · obtain ⟨_, _, hobject⟩ := @lineText_append_inj _ _ ht' ht [] (c :: r) (by rw [List.append_nil, hext])
    rw [List.append_nil] at hobject
    exact space_lt_of_termText ht'.o hobject

theorem sorted_lines {f : Fragment} (h : f.Printed) :
    ((Text.lines f.toNquads).map Encoding.utf8).Pairwise (· < ·) := by
  rw [lines_toNquads h.unbroken, List.map_map, List.pairwise_map]
  refine (Finset.sortedLT_sort _).pairwise.imp_of_mem fun {l l'} hl hl' hlt => Encoding.utf8_lt ?_
  obtain ⟨t, ht, rfl⟩ := Finset.mem_image.mp ((Finset.mem_sort _).mp hl)
  obtain ⟨t', ht', rfl⟩ := Finset.mem_image.mp ((Finset.mem_sort _).mp hl')
  exact line_lt (h.lines t ht) (h.lines t' ht') hlt

/-! ## The lines as they are stored -/

/-- What a fragment holds: its lines without the graph. -/
structure LineSet where
  kind : FragmentKind
  lines : Finset String
  deriving DecidableEq

namespace LineSet

def new (kind : FragmentKind) : LineSet := ⟨kind, ∅⟩

def graph (f : LineSet) : Iri := f.kind.graph

def add (f : LineSet) (s : Term) (p : Iri) (o : Term) : LineSet :=
  { f with lines := insert (termText s ++ " " ++ iriText p ++ " " ++ termText o) f.lines }

/-- The graph of the quad is not looked at. -/
def addQuad (f : LineSet) (q : Quad) : LineSet :=
  { f with lines := insert (termText q.s ++ " " ++ iriText q.p ++ " " ++ termText q.o) f.lines }

def toNquads (f : LineSet) : String :=
  String.join (f.lines.sort.map fun l => l ++ " " ++ iriText f.graph ++ " .\n")

def toQuads (parse : String → Option (List Quad)) (f : LineSet) : Option (List Quad) := parse f.toNquads

def fromQuads (kind : FragmentKind) (quads : List Quad) : LineSet := quads.foldl addQuad (new kind)

/-- One call of a builder. -/
inductive Call where
  | add (s : Term) (p : Iri) (o : Term)
  | addQuad (q : Quad)

def Call.triple : Call → Triple
  | .add s p o => ⟨s, p, o⟩
  | .addQuad q => ⟨q.s, q.p, q.o⟩

def call (f : LineSet) : Call → LineSet
  | .add s p o => f.add s p o
  | .addQuad q => f.addQuad q

/-- The fragment after the calls. -/
def built (kind : FragmentKind) (calls : List Call) : LineSet := calls.foldl call (new kind)

def inserted (calls : List Call) : Finset Triple := (calls.map Call.triple).toFinset

/-- The lines of a set of triples. -/
def ofFragment (f : Fragment) : LineSet := ⟨f.kind, f.lines.image lineText⟩

theorem toNquads_ofFragment (f : Fragment) : (ofFragment f).toNquads = f.toNquads := rfl

theorem foldl_insert {α : Type} (triple : α → Triple) (step : LineSet → α → LineSet)
    (hstep : ∀ f a, step f a = { f with lines := insert (lineText (triple a)) f.lines }) (l : List α) (f : LineSet) :
    l.foldl step f = { f with lines := f.lines ∪ ((l.map triple).toFinset).image lineText } := by
  induction l generalizing f with
  | nil => simp
  | cons a l ih =>
      rw [List.foldl_cons, ih, hstep, List.map_cons, List.toFinset_cons, Finset.image_insert, Finset.union_insert,
        Finset.insert_union]

theorem built_eq (kind : FragmentKind) (calls : List Call) :
    built kind calls = ofFragment ⟨kind, inserted calls⟩ := by
  have hcall : ∀ f c, call f c = { f with lines := insert (lineText c.triple) f.lines } := by
    intro f c
    cases c with
    | add s p o => rfl
    | addQuad q => rfl
  rw [built, foldl_insert _ _ hcall, new, Finset.empty_union]
  rfl

theorem fromQuads_eq (kind : FragmentKind) (quads : List Quad) :
    fromQuads kind quads = ofFragment (Fragment.fromQuads kind quads) := by
  rw [fromQuads, foldl_insert (fun q : Quad => ⟨q.s, q.p, q.o⟩) addQuad (fun _ _ => rfl), new, Finset.empty_union]
  rfl

end LineSet

/-! ## Terms that are accepted -/

/-- What the RDF library takes for an IRI, for a datatype, for the label of a blank node and for a language.
None of it holds a space, a control character, a quote or a bracket. -/
structure TermSyntax where
  iri : String → Bool
  datatype : String → Bool
  label : String → Bool
  tag : String → Bool
  plain : ∀ s, (iri s || datatype s || label s || tag s) = true → PlainText s

def Term.Valid (v : TermSyntax) : Term → Prop
  | .iri i => v.iri i = true
  | .bnode l => v.label l = true
  | .literal _ dt => v.datatype dt = true
  | .lang _ tag => v.tag tag = true

/-- The subject is an IRI or a blank node. -/
structure Triple.Valid (v : TermSyntax) (t : Triple) : Prop where
  subject : (∃ i, t.s = .iri i) ∨ ∃ l, t.s = .bnode l
  s : t.s.Valid v
  p : v.iri t.p = true
  o : t.o.Valid v

structure Quad.Valid (v : TermSyntax) (q : Quad) : Prop where
  graph : v.iri q.g = true
  triple : Triple.Valid v ⟨q.s, q.p, q.o⟩

variable {v : TermSyntax}

theorem TermSyntax.plain_iri {s : String} (h : v.iri s = true) : PlainText s := v.plain s (by simp [h])

theorem Term.Valid.plain {t : Term} (h : t.Valid v) : t.Plain := by
  cases t with
  | iri i => exact v.plain i (by simp [show v.iri i = true from h])
  | bnode l => exact v.plain l (by simp [show v.label l = true from h])
  | literal _ dt => exact v.plain dt (by simp [show v.datatype dt = true from h])
  | lang _ tag => exact v.plain tag (by simp [show v.tag tag = true from h])

theorem Triple.Valid.printed {t : Triple} (h : t.Valid v) : t.Printed := by
  have hs := h.s.plain
  refine ⟨?_, v.plain_iri h.p, h.o.plain⟩
  rcases h.subject with ⟨i, hi⟩ | ⟨l, hl⟩
  · rw [hi] at hs
    exact .inl ⟨i, hi, hs⟩
  · rw [hl] at hs
    exact .inr ⟨l, hl, hs⟩

/-! ## The fragment is its text -/

namespace LineSet

variable {kind : FragmentKind} {calls calls' : List Call} {parse : String → Option (List Quad)}

theorem inserted_printed (hkind : v.iri kind.graph = true) (h : ∀ c ∈ calls, c.triple.Valid v) :
    Fragment.Printed ⟨kind, inserted calls⟩ := by
  refine ⟨v.plain_iri hkind, fun t ht => ?_⟩
  obtain ⟨c, hc, rfl⟩ := List.mem_map.mp (List.mem_toFinset.mp ht)
  exact (h c hc).printed

theorem built_toNquads_inj (hkind : v.iri kind.graph = true) (h : ∀ c ∈ calls, c.triple.Valid v)
    (h' : ∀ c ∈ calls', c.triple.Valid v) :
    (built kind calls).toNquads = (built kind calls').toNquads ↔ inserted calls = inserted calls' := by
  rw [built_eq, built_eq, toNquads_ofFragment, toNquads_ofFragment]
  constructor
  · exact fun htext => (lines_eq_of_toNquads_eq (inserted_printed hkind h) (inserted_printed hkind h')
      rfl htext.symm).symm
  · exact fun hsame => by rw [hsame]

/-- The parser reads the quads of the lines, from which the same lines are made. -/
theorem fromQuads_toQuads (hparse : ReadsNquads (Quad.Valid v) parse) (hkind : v.iri kind.graph = true)
    (h : ∀ c ∈ calls, c.triple.Valid v) :
    ∃ quads, (built kind calls).toQuads parse = some quads ∧ fromQuads kind quads = built kind calls := by
  obtain ⟨ts, hts, htext⟩ := exists_printed (inserted_printed hkind h).lines
  refine ⟨ts.map (Triple.inGraph kind.graph), ?_, ?_⟩
  · rw [toQuads, built_eq, toNquads_ofFragment, htext]
    refine hparse.printed _ fun q hq => ?_
    obtain ⟨t, ht, rfl⟩ := List.mem_map.mp hq
    obtain ⟨c, hc, rfl⟩ := List.mem_map.mp (List.mem_toFinset.mp ((hts t).mp ht))
    exact ⟨hkind, h c hc⟩
  · have hlines : Fragment.fromQuads kind (ts.map (Triple.inGraph kind.graph)) = ⟨kind, inserted calls⟩ := by
      rw [Fragment.fromQuads, Fragment.ofTriples, List.map_map]
      congr 1
      ext t
      rw [List.mem_toFinset, List.mem_map, ← hts]
      exact ⟨fun ⟨u, hu, heq⟩ => heq ▸ hu, fun ht => ⟨t, ht, rfl⟩⟩
    rw [fromQuads_eq, built_eq, hlines]

/-- The text is the same exactly when the same triples were added; its lines are in the strict order of
their bytes; and the fragment is built again from what is read back. -/
theorem text_canonical (hparse : ReadsNquads (Quad.Valid v) parse) (hkind : v.iri kind.graph = true)
    (h : ∀ c ∈ calls, c.triple.Valid v) (h' : ∀ c ∈ calls', c.triple.Valid v) :
    ((built kind calls).toNquads = (built kind calls').toNquads ↔ inserted calls = inserted calls') ∧
      ((Text.lines (built kind calls).toNquads).map Encoding.utf8).Pairwise (· < ·) ∧
      ∃ quads, (built kind calls).toQuads parse = some quads ∧ fromQuads kind quads = built kind calls := by
  refine ⟨built_toNquads_inj hkind h h', ?_, fromQuads_toQuads hparse hkind h⟩
  rw [built_eq, toNquads_ofFragment]
  exact sorted_lines (inserted_printed hkind h)

/-- IRIs with a scheme, and labels and languages of letters and digits. -/
def sampleSyntax : TermSyntax where
  iri s := decide (PlainText s) && Text.startsWith "http" s
  datatype s := decide (PlainText s) && Text.startsWith "http" s
  label s := decide (PlainText s) && s.toList.all isAsciiAlphanumeric
  tag s := decide (PlainText s) && s.toList.all isAsciiAlphanumeric
  plain s h := by
    have hor : decide (PlainText s) = true := by
      simp only [Bool.or_eq_true, Bool.and_eq_true] at h
      rcases h with ((h | h) | h) | h <;> exact h.1
    exact of_decide_eq_true hor

theorem reads_valid : ReadsNquads (Quad.Valid v) (readPrinted (Quad.Valid v)) :=
  readPrinted_reads fun _ hq => ⟨v.plain_iri hq.graph, hq.triple.printed⟩

/-- A name with and without a language: the text of the one is the front of the other's. -/
def sampleCalls : List Call :=
  [.add (.iri (Iri.drv "abc")) (nix "name") (.literal "hello" (xsd "string")),
    .addQuad ⟨"", .iri (Iri.drv "abc"), nix "name", .lang "hello" "en"⟩]

theorem sampleCalls_valid : ∀ c ∈ sampleCalls, c.triple.Valid sampleSyntax := by
  simp only [sampleCalls, List.forall_mem_cons, List.not_mem_nil, false_implies, implies_true, and_true]
  have hname : sampleSyntax.iri (nix "name") = true := by decide +kernel
  have hsubject : sampleSyntax.iri (Iri.drv "abc") = true := by decide +kernel
  have hdatatype : sampleSyntax.datatype (xsd "string") = true := by decide +kernel
  have htag : sampleSyntax.tag "en" = true := by decide +kernel
  exact ⟨⟨.inl ⟨_, rfl⟩, hsubject, hname, hdatatype⟩, ⟨.inl ⟨_, rfl⟩, hsubject, hname, htag⟩⟩

theorem text_canonical_sample :
    ((built (.drv "abc") sampleCalls).toNquads = (built (.drv "abc") (sampleCalls ++ sampleCalls)).toNquads ↔
      inserted sampleCalls = inserted (sampleCalls ++ sampleCalls)) ∧
    ((Text.lines (built (.drv "abc") sampleCalls).toNquads).map Encoding.utf8).Pairwise (· < ·) ∧
    ∃ quads, (built (.drv "abc") sampleCalls).toQuads (readPrinted (Quad.Valid sampleSyntax)) = some quads ∧
      fromQuads (.drv "abc") quads = built (.drv "abc") sampleCalls :=
  text_canonical reads_valid (by decide +kernel) sampleCalls_valid fun c hc =>
    sampleCalls_valid c (or_self_iff.mp (List.mem_append.mp hc))

end LineSet

end Nix2Rdf
