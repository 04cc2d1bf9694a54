import Nix2Rdf.Nquads
import Nix2Rdf.Nix
import Nix2Rdf.Lib.IriSyntax

/-!
# Scanning the text of a fragment

The text of an input is not parsed. Its graph is what stands at the end of the first line, and the
objects of a predicate are looked for token by token.
-/

namespace Nix2Rdf

namespace Reason

def isBracket (c : Char) : Bool := c == '<' || c == '>'

/-- The last token before the dot of the first line. -/
def graphOf (nquads : String) : Option String :=
  (((Text.lines nquads).head?).bind fun l => (Text.split ' ' l).reverse[1]?).map (Text.trim isBracket)

/-- The object of a line with this predicate, if it is an IRI. -/
def objectOf (predicate : Iri) (line : String) : Option String :=
  match Text.split ' ' line with
  | _ :: p :: o :: _ =>
      if p = Fragment.iriText predicate ∧ Text.startsWith "<" o then some (Text.trim isBracket o) else none
  | _ => none

/-- Object IRIs of a predicate. -/
def objectsOf (nquads : String) (predicate : Iri) : List String :=
  btreeSet ((Text.lines nquads).filterMap (objectOf predicate))

end Reason

/-! ## Plain text -/

/-- The characters no IRI may hold. -/
def iriExcluded (c : Char) : Bool := c.toNat ≤ 32 || c ∈ ['<', '>', '"', '{', '}', '|', '\\', '^', '\u0060']

/-- A string that breaks neither the line nor its token. -/
def OneToken (s : String) : Prop := ∀ c ∈ s.toList, c ∉ [' ', '\n', '<', '>']

instance (s : String) : Decidable (OneToken s) :=
  inferInstanceAs (Decidable (∀ c ∈ s.toList, c ∉ [' ', '\n', '<', '>']))

def Term.Unbroken : Term → Prop
  | .iri i => OneToken i
  | .bnode l => OneToken l
  | .literal _ dt => OneToken dt
  | .lang _ tag => OneToken tag

/-- A triple that is broken at most by what its literal holds. -/
structure Triple.Unbroken (t : Triple) : Prop where
  s : (∃ i, t.s = .iri i ∧ OneToken i) ∨ ∃ l, t.s = .bnode l ∧ OneToken l
  p : OneToken t.p
  o : t.o.Unbroken

/-- A string that stands in one token of a line. -/
def PlainText (s : String) : Prop := ∀ c ∈ s.toList, iriExcluded c = false

instance (s : String) : Decidable (PlainText s) := inferInstanceAs (Decidable (∀ c ∈ s.toList, iriExcluded c = false))

def Term.Plain : Term → Prop
  | .iri i => PlainText i
  | .bnode l => PlainText l
  | .literal _ dt => PlainText dt
  | .lang _ tag => PlainText tag

/-- A triple whose subject and predicate are one token each. -/
structure Triple.Printed (t : Triple) : Prop where
  s : (∃ i, t.s = .iri i ∧ PlainText i) ∨ ∃ l, t.s = .bnode l ∧ PlainText l
  p : PlainText t.p
  o : t.o.Plain

/-- The triple of an entity, with IRIs that are valid. -/
structure Triple.Plain (t : Triple) : Prop where
  s : ∃ i, t.s = .iri i ∧ PlainText i
  p : PlainText t.p
  o : t.o.Plain

theorem Triple.Plain.printed {t : Triple} (h : t.Plain) : t.Printed := ⟨.inl h.s, h.p, h.o⟩

theorem Triple.Unbroken.subject {t : Triple} (h : t.Unbroken) : t.s.Unbroken := by
  obtain ⟨i, hi, hs⟩ | ⟨l, hl, hs⟩ := h.s
  · exact hi ▸ hs
  · exact hl ▸ hs

theorem PlainText.oneToken {s : String} (h : PlainText s) : OneToken s := by
  intro c hc hlisted
  have hexcluded : ∀ c ∈ [' ', '\n', '<', '>'], iriExcluded c = true := by decide
  have hno := h c hc
  rw [hexcluded c hlisted] at hno
  cases hno

theorem Term.Plain.unbroken {t : Term} (h : t.Plain) : t.Unbroken := by
  cases t with
  | iri i => exact PlainText.oneToken h
  | bnode l => exact PlainText.oneToken h
  | literal v dt => exact PlainText.oneToken h
  | lang v tag => exact PlainText.oneToken h

theorem Triple.Printed.unbroken {t : Triple} (h : t.Printed) : t.Unbroken where
  s := h.s.imp (fun hs => hs.imp fun _ hi => ⟨hi.1, hi.2.oneToken⟩) fun hs => hs.imp fun _ hl => ⟨hl.1, hl.2.oneToken⟩
  p := h.p.oneToken
  o := h.o.unbroken

theorem iriExcluded_of_plain {c : Char} (h : IriSyntax.plain c = true) : iriExcluded c = false := by
  cases hc : iriExcluded c with
  | false => rfl
  | true =>
      have hlisted : ['<', '>', '"', '{', '}', '|', '\\', '^', '\u0060'].all
          (fun c => !IriSyntax.plain c) = true := by
        decide
      have hcontrol : ∀ n ≤ 32, IriSyntax.plain (Char.ofNat n) = false := by decide
      simp only [iriExcluded, Bool.or_eq_true, decide_eq_true_eq] at hc
      rcases hc with hc | hc
      · have hno := hcontrol c.toNat hc
        rw [Char.ofNat_toNat, h] at hno
        cases hno
      · have hno := List.all_eq_true.mp hlisted c hc
        rw [h] at hno
        cases hno

theorem iriExcluded_of_large {c : Char} (h : 128 ≤ c.toNat) : iriExcluded c = false := by
  have hlisted : ['<', '>', '"', '{', '}', '|', '\\', '^', '\u0060'].all
      (fun c => decide (c.toNat < 128)) = true := by
    decide
  simp only [iriExcluded, Bool.or_eq_false_iff, decide_eq_false_iff_not]
  refine ⟨by omega, fun hc => ?_⟩
  have hlow := of_decide_eq_true (List.all_eq_true.mp hlisted c hc)
  omega

/-- What follows the base in a valid IRI is plain. -/
theorem plainText_of_valid {path : String} (h : IriSyntax.valid path = true) : PlainText path := by
  intro c hc
  obtain ⟨p, hp⟩ := Option.isSome_iff_exists.mp h
  rcases IriSyntax.mem_of_read hp hc with h | h | h | rfl | rfl | rfl
  · exact iriExcluded_of_plain h
  · refine iriExcluded_of_large ?_
    simp only [IriSyntax.iprivate, IriSyntax.within, Bool.or_eq_true, Bool.and_eq_true, decide_eq_true_eq] at h
    omega
  · refine iriExcluded_of_plain ?_
    simp only [IriSyntax.plain, IriSyntax.alphanumeric, IriSyntax.hexDigit, IriSyntax.within, Bool.or_eq_true,
      Bool.and_eq_true, decide_eq_true_eq] at h ⊢
    omega
  · decide
  · decide
  · decide

theorem plainText_append {a b : String} (ha : PlainText a) (hb : PlainText b) : PlainText (a ++ b) := by
  intro c hc
  rw [String.toList_append, List.mem_append] at hc
  exact hc.elim (ha c) (hb c)

namespace Fragment

/-- The line of a triple. -/
def line (g : Iri) (l : String) : String := l ++ " " ++ iriText g ++ " ."

theorem toNquads_eq (f : Fragment) :
    f.toNquads = String.join (((f.lines.image lineText).sort.map (line f.graph)).map fun l => l ++ "\n") := by
  rw [toNquads, List.map_map]
  congr 1
  refine List.map_congr_left fun l _ => ?_
  simp [line, String.append_assoc]

theorem split_space (a b : String) : Text.split ' ' (a ++ " " ++ b) = Text.split ' ' a ++ Text.split ' ' b :=
  Text.split_append ' ' a b

theorem not_mem_iriText {i : Iri} (hi : OneToken i) {c : Char} (hc : c ∈ [' ', '\n']) : c ∉ (iriText i).toList := by
  have hlist : (iriText i).toList = '<' :: (i.toList ++ ['>']) := by simp [iriText]
  rw [hlist, List.mem_cons, List.mem_append, List.mem_singleton]
  rintro (rfl | hmem | rfl)
  · exact absurd hc (by decide)
  · exact hi c hmem (List.mem_append_left ['<', '>'] hc)
  · exact absurd hc (by decide)

theorem split_iriText {i : Iri} (hi : OneToken i) : Text.split ' ' (iriText i) = [iriText i] :=
  Text.split_of_not_mem (not_mem_iriText hi (by decide))

theorem trim_iriText {i : Iri} (hi : OneToken i) : Text.trim Reason.isBracket (iriText i) = i := by
  refine Text.trim_around (l := '<') (r := '>') rfl rfl fun c hc => ?_
  cases hb : Reason.isBracket c with
  | false => rfl
  | true =>
      have hlisted : c ∈ [' ', '\n', '<', '>'] := by
        simp only [Reason.isBracket, Bool.or_eq_true, beq_iff_eq] at hb
        rcases hb with rfl | rfl <;> decide
      exact absurd hlisted (hi c hc)

/-- No line feed is printed within a term. -/
theorem newline_not_mem_escapeChar (c : Char) : '\n' ∉ escapeChar c := by
  have hhex : ∀ n < 16, Encoding.upperHex n ≠ '\n' := by decide
  unfold escapeChar
  split_ifs with _ _ hnl _ _ _ _ hctl
  · decide
  · decide
  · decide
  · decide
  · decide
  · decide
  · decide
  · have hhi := hhex (c.toNat / 16) (by omega)
    have hlo := hhex (c.toNat % 16) (by omega)
    simp [hhi.symm, hlo.symm]
  · simpa using fun h => hnl h.symm

theorem newline_not_mem_quote (v : String) : '\n' ∉ (quote v).toList := by
  rw [quote, String.toList_ofList, List.mem_append, List.mem_cons, List.mem_singleton, List.mem_flatMap]
  rintro ((h | ⟨c, _, h⟩) | h)
  · cases h
  · exact newline_not_mem_escapeChar c h
  · cases h

theorem newline_not_mem_termText {t : Term} (h : t.Unbroken) : '\n' ∉ (termText t).toList := by
  have hnl : ∀ {i : Iri}, OneToken i → '\n' ∉ (iriText i).toList := fun hi => not_mem_iriText hi (by decide)
  cases t with
  | iri i => exact hnl h
  | bnode l =>
      have hl : '\n' ∉ l.toList := fun hc => h '\n' hc (by decide)
      simpa [termText] using hl
  | literal v dt =>
      rw [termText_literal, String.toList_append, List.mem_append, not_or]
      refine ⟨newline_not_mem_quote v, ?_⟩
      simp only [literalSuffix]
      split_ifs
      · decide
      · simpa using hnl h
  | lang v tag =>
      have htag : '\n' ∉ tag.toList := fun hc => h '\n' hc (by decide)
      rw [termText_lang, String.toList_append, List.mem_append, not_or]
      exact ⟨newline_not_mem_quote v, by simpa [literalSuffix] using htag⟩

/-- A fragment each line of which is one line. -/
structure Unbroken (f : Fragment) : Prop where
  graph : OneToken f.graph
  lines : ∀ t ∈ f.lines, t.Unbroken

/-- A fragment whose subjects may be blank nodes. -/
structure Printed (f : Fragment) : Prop where
  graph : PlainText f.graph
  lines : ∀ t ∈ f.lines, t.Printed

/-- A fragment whose lines are read back token by token. -/
structure Plain (f : Fragment) : Prop where
  graph : PlainText f.graph
  lines : ∀ t ∈ f.lines, t.Plain

theorem Plain.printed {f : Fragment} (h : f.Plain) : f.Printed := ⟨h.graph, fun t ht => (h.lines t ht).printed⟩

theorem Printed.unbroken {f : Fragment} (h : f.Printed) : f.Unbroken :=
  ⟨h.graph.oneToken, fun t ht => (h.lines t ht).unbroken⟩

variable {f : Fragment}

/-- A line is one line. -/
theorem newline_not_mem_line {g : Iri} (hg : OneToken g) {t : Triple} (ht : t.Unbroken) :
    '\n' ∉ (line g (lineText t)).toList ∧ (line g (lineText t)).toList.getLast? ≠ some '\r' := by
  have hspace : '\n' ∉ " ".toList := by decide
  refine ⟨?_, ?_⟩
  · simp only [line, lineText, String.toList_append, List.mem_append, not_or]
    exact ⟨⟨⟨⟨⟨⟨⟨newline_not_mem_termText ht.subject, hspace⟩, not_mem_iriText ht.p (by decide)⟩, hspace⟩,
      newline_not_mem_termText ht.o⟩, hspace⟩, not_mem_iriText hg (by decide)⟩, by decide⟩
  · rw [line, String.toList_append, List.getLast?_append_of_ne_nil _ (by decide)]
    decide

theorem lines_toNquads (h : f.Unbroken) :
    Text.lines f.toNquads = (f.lines.image lineText).sort.map (line f.graph) := by
  rw [toNquads_eq]
  refine Text.lines_join fun l hl => ?_
  obtain ⟨m, hm, rfl⟩ := List.mem_map.mp hl
  obtain ⟨t, ht, rfl⟩ := Finset.mem_image.mp ((Finset.mem_sort _).mp hm)
  exact newline_not_mem_line h.graph (h.lines t ht)

theorem mem_lines_toNquads (h : f.Unbroken) {l : String} :
    l ∈ Text.lines f.toNquads ↔ ∃ t ∈ f.lines, line f.graph (lineText t) = l := by
  rw [lines_toNquads h]
  simp [Finset.mem_sort]

open Reason

theorem space_not_mem_subject {t : Triple} (h : t.Unbroken) : ' ' ∉ (termText t.s).toList := by
  obtain ⟨i, hi, hs⟩ | ⟨l, hl, hs⟩ := h.s
  · rw [hi]
    exact not_mem_iriText hs (by decide)
  · have hspace : ' ' ∉ l.toList := fun hc => hs ' ' hc (by decide)
    rw [hl]
    simpa [termText] using hspace

/-- A line falls into the tokens of its three terms, the graph and the dot. -/
theorem split_line {g : Iri} (hg : OneToken g) {t : Triple} (ht : t.Unbroken) :
    Text.split ' ' (line g (lineText t)) =
      termText t.s :: iriText t.p :: (Text.split ' ' (termText t.o) ++ [iriText g, "."]) := by
  have hdot : Text.split ' ' "." = ["."] := by decide
  have hline : line g (lineText t)
      = termText t.s ++ " " ++ (iriText t.p ++ " " ++ (termText t.o ++ " " ++ (iriText g ++ " " ++ "."))) := by
    simp [line, lineText, String.append_assoc]
  rw [hline, split_space, split_space, split_space, split_space, split_iriText ht.p, split_iriText hg, hdot,
    Text.split_of_not_mem (space_not_mem_subject ht)]
  rfl

/-- The graph is found in every text that has a line. -/
theorem graphOf_toNquads (h : f.Unbroken) (hne : f.lines.Nonempty) : graphOf f.toNquads = some f.graph := by
  obtain ⟨t, ht⟩ := hne
  cases hl : Text.lines f.toNquads with
  | nil =>
      have := (mem_lines_toNquads h).mpr ⟨t, ht, rfl⟩
      rw [hl] at this
      cases this
  | cons l ls =>
      obtain ⟨u, hu, hline⟩ := (mem_lines_toNquads h).mp (hl ▸ List.mem_cons_self)
      rw [graphOf, hl, List.head?_cons, Option.bind_some, ← hline, split_line h.graph (h.lines u hu)]
      simp [trim_iriText h.graph]

/-- The first token begins as the text does. -/
theorem exists_split_cons {s : String} {c : Char} (h : s.toList.head? = some c) (hc : c ≠ ' ') :
    ∃ u rest, Text.split ' ' s = String.ofList (c :: u) :: rest := by
  cases hs : s.toList with
  | nil =>
      rw [hs] at h
      cases h
  | cons d ds =>
      rw [hs, List.head?_cons, Option.some.injEq] at h
      rw [h] at hs
      have hne : ¬ (c == ' ') = true := by simpa using hc
      rw [Text.split, hs, List.splitOn_cons_eq_if_modifyHead, if_neg hne]
      cases hds : ds.splitOn ' ' with
      | nil => exact absurd hds (List.splitOn_ne_nil _ _)
      | cons u us => exact ⟨u, us.map String.ofList, rfl⟩

/-- The first token of a term is an IRI in brackets exactly if the term is that IRI. -/
theorem exists_first_token {o : Term} (ho : o.Unbroken) : ∃ first rest,
    Text.split ' ' (termText o) = first :: rest ∧
    ∀ i, (Text.startsWith "<" first = true ∧ Text.trim isBracket first = i) ↔ o = .iri i := by
  have hother : firstChar o ≠ '<' → firstChar o ≠ ' ' → (∀ i, o ≠ .iri i) → ∃ first rest,
      Text.split ' ' (termText o) = first :: rest ∧
      ∀ i, (Text.startsWith "<" first = true ∧ Text.trim isBracket first = i) ↔ o = .iri i := by
    intro hopen hspace hiri
    obtain ⟨u, rest, hsplit⟩ := exists_split_cons (head_termText o) hspace
    refine ⟨_, rest, hsplit, fun i => ⟨fun h => ?_, fun h => absurd h (hiri i)⟩⟩
    have hstart := h.1
    simp [Text.startsWith, List.isPrefixOf, hopen.symm] at hstart
  cases o with
  | iri j =>
      refine ⟨iriText j, [], split_iriText ho, fun i => ?_⟩
      have hopen : Text.startsWith "<" (iriText j) = true := by simp [Text.startsWith, iriText, List.isPrefixOf]
      rw [trim_iriText ho, Term.iri.injEq]
      exact ⟨fun h => h.2, fun h => ⟨hopen, h⟩⟩
  | bnode l => exact hother (by simp [firstChar]) (by simp [firstChar]) (fun _ => Term.noConfusion)
  | literal v dt => exact hother (by simp [firstChar]) (by simp [firstChar]) (fun _ => Term.noConfusion)
  | lang v tag => exact hother (by simp [firstChar]) (by simp [firstChar]) (fun _ => Term.noConfusion)

theorem objectOf_line {g : Iri} (hg : OneToken g) {t : Triple} (ht : t.Unbroken) {p o : Iri} :
    objectOf p (line g (lineText t)) = some o ↔ t.p = p ∧ t.o = .iri o := by
  obtain ⟨first, rest, hsplit, hfirst⟩ := exists_first_token ht.o
  have hiri : iriText t.p = iriText p ↔ t.p = p := ⟨iriText_inj, congrArg iriText⟩
  rw [objectOf, split_line hg ht, hsplit, List.cons_append, ← hfirst, ← hiri]
  simp only [Option.ite_none_right_eq_some, Option.some.injEq, and_assoc]

/-- The objects of a predicate are those of the triples with it. -/
theorem mem_objectsOf_toNquads (h : f.Unbroken) {p o : Iri} :
    o ∈ objectsOf f.toNquads p ↔ ∃ t ∈ f.lines, t.p = p ∧ t.o = .iri o := by
  rw [objectsOf, mem_btreeSet, List.mem_filterMap]
  constructor
  · intro hmem
    obtain ⟨l, hl, ho⟩ := hmem
    obtain ⟨t, ht, rfl⟩ := (mem_lines_toNquads h).mp hl
    exact ⟨t, ht, (objectOf_line h.graph (h.lines t ht)).mp ho⟩
  · intro hmem
    obtain ⟨t, ht, ho⟩ := hmem
    exact ⟨_, (mem_lines_toNquads h).mpr ⟨t, ht, rfl⟩, (objectOf_line h.graph (h.lines t ht)).mpr ho⟩

theorem toNquads_of_empty (h : f.lines = ∅) : f.toNquads = "" := by
  rw [toNquads, h, Finset.image_empty, Finset.sort_empty]
  rfl

/-! ## No two fragments of a graph are printed alike -/

theorem toList_lineText (t : Triple) :
    (lineText t).toList = (termText t.s).toList ++ ' ' :: ((iriText t.p).toList ++ ' ' :: (termText t.o).toList) := by
  simp [lineText]

/-- The subject ends at the first space and the predicate at the next. -/
theorem lineText_append_inj {t t' : Triple} (h : t.Printed) (h' : t'.Printed) {r r' : List Char}
    (heq : (lineText t).toList ++ r = (lineText t').toList ++ r') :
    t.s = t'.s ∧ t.p = t'.p ∧ (termText t.o).toList ++ r = (termText t'.o).toList ++ r' := by
  have hspace : ∀ {p : Iri}, PlainText p → ' ' ∉ (iriText p).toList := fun hp =>
    not_mem_iriText hp.oneToken (by decide)
  rw [toList_lineText, toList_lineText, List.append_assoc, List.append_assoc, List.cons_append, List.cons_append,
    List.append_assoc, List.append_assoc, List.cons_append, List.cons_append] at heq
  obtain ⟨hs, hrest⟩ := Text.append_cons_inj (space_not_mem_subject h.unbroken)
    (space_not_mem_subject h'.unbroken) heq
  obtain ⟨hp, htail⟩ := Text.append_cons_inj (hspace h.p) (hspace h'.p) hrest
  exact ⟨termText_injective (String.toList_inj.mp hs), iriText_inj (String.toList_inj.mp hp), htail⟩

theorem lineText_inj {t t' : Triple} (h : t.Printed) (h' : t'.Printed) (heq : lineText t = lineText t') : t = t' := by
  obtain ⟨hs, hp, ho⟩ := @lineText_append_inj _ _ h h' [] [] (by rw [heq])
  rw [List.append_nil, List.append_nil] at ho
  have hobject := termText_injective (String.toList_inj.mp ho)
  cases t
  cases t'
  exact Triple.mk.injEq .. |>.mpr ⟨hs, hp, hobject⟩

/-- The graph stands before the last space but one. -/
theorem line_inj {g g' : Iri} (hg : PlainText g) (hg' : PlainText g') {t t' : Triple} (ht : t.Printed)
    (ht' : t'.Printed) (h : line g (lineText t) = line g' (lineText t')) : g = g' ∧ t = t' := by
  have hspace : ∀ {i : Iri}, PlainText i → ' ' ∉ (iriText i).toList.reverse := fun hi hmem =>
    not_mem_iriText hi.oneToken (by decide) (List.mem_reverse.mp hmem)
  have hback : ∀ g l, (line g l).toList.reverse = '.' :: ' ' ::
      ((iriText g).toList.reverse ++ ' ' :: l.toList.reverse) := by
    simp [line]
  have hlist := congrArg (fun l : String => l.toList.reverse) h
  simp only [hback, List.cons.injEq, true_and] at hlist
  obtain ⟨hgraph, hline⟩ := Text.append_cons_inj (hspace hg) (hspace hg') hlist
  exact ⟨iriText_inj (String.toList_inj.mp (List.reverse_inj.mp hgraph)),
    lineText_inj ht ht' (String.toList_inj.mp (List.reverse_inj.mp hline))⟩

theorem lines_eq_of_toNquads_eq {f' : Fragment} (h : f.Printed) (h' : f'.Printed) (hgraph : f'.graph = f.graph)
    (heq : f'.toNquads = f.toNquads) : f'.lines = f.lines := by
  have hline : Function.Injective (line f.graph) := by
    intro l l' hl
    exact String.append_left_inj _ |>.mp (String.append_left_inj _ |>.mp (String.append_left_inj _ |>.mp hl))
  have hsub : ∀ g g' : Fragment, g.Printed → g'.Printed → g'.graph = g.graph → Function.Injective (line g.graph) →
      g'.toNquads = g.toNquads → g.lines ⊆ g'.lines := by
    intro g g' hg hg' hsame hinj htext t ht
    have hmem := (mem_lines_toNquads hg.unbroken).mpr ⟨t, ht, rfl⟩
    rw [← htext, mem_lines_toNquads hg'.unbroken, hsame] at hmem
    obtain ⟨t', ht', hline⟩ := hmem
    rwa [← lineText_inj (hg'.lines t' ht') (hg.lines t ht) (hinj hline)]
  exact (hsub f' f h' h hgraph.symm (hgraph ▸ hline) heq.symm).antisymm (hsub f f' h h' hgraph hline heq)

end Fragment

end Nix2Rdf
