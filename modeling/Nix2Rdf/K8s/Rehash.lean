import Nix2Rdf.Minting.Snapshots
import Nix2Rdf.CanonicalText

/-!
# The text of a renamed fragment

The placeholder is replaced in the text of the whole fragment, and the text is parsed again. No
occurrence reaches from one term into the next, so that each term is replaced by itself.
-/

namespace Nix2Rdf

/-- A quad of IRIs that are accepted, whose object may be a literal of an XSD type. -/
structure Quad.Printable (accepts : String → Bool) (q : Quad) : Prop where
  graph : accepts q.g = true
  subject : ∃ i, q.s = .iri i ∧ accepts i = true
  predicate : accepts q.p = true
  object : (∃ i, q.o = .iri i ∧ accepts i = true) ∨ ∃ v dt, q.o = .literal v (xsd dt) ∧ accepts (xsd dt) = true

namespace K8s

/-- The placeholder is replaced in the text, and what cannot be parsed counts for no quads. -/
def rehashText (parse : String → Option (List Quad)) (f : Fragment) (real : String) : List Quad :=
  (parse (Text.replace placeholder real f.toNquads)).getD []

/-- The snapshot with its fragments read back from their renamed text. -/
def buildSnapshotText (parse : String → Option (List Quad)) (x : Extern) (now : String) (input : SnapshotInput)
    (opts : SnapshotOptions) : SnapshotOutput :=
  let ctx := ctxOf input opts
  let nodesFrag := nodesFragment ctx opts
  let nodesHash := contentHash x nodesFrag
  let f := pendingSnapshot ctx input opts.state
  let snapshotHash := contentHash x f
  { buildSnapshot x now input opts with
    snapshot := Fragment.fromQuads (.k8sSnapshot ctx.cid snapshotHash) (rehashText parse f snapshotHash)
    nodes := Fragment.fromQuads (.k8sNodes ctx.cid nodesHash) (rehashText parse nodesFrag nodesHash) }

/-! ## Text without the placeholder -/

theorem replace_of_not_mem {real i : String} {c : Char} (hc : c ∈ placeholder.toList) (h : c ∉ i.toList) :
    Text.replace placeholder real i = i :=
  Text.replace_of_not_occurs fun hoccurs => h (hoccurs.subset hc)

theorem replace_word {real w : String}
    (hw : w ∈ "runsImage" :: "hostGeneration" :: snapshotTerms ++ classTerms) :
    Text.replace placeholder real (k8s w) = k8s w := by
  have hbase : 'H' ∉ k8sNs.toList := by decide
  have hall : ∀ w ∈ "runsImage" :: "hostGeneration" :: snapshotTerms ++ classTerms, 'H' ∉ w.toList := by
    decide +kernel
  refine replace_of_not_mem (c := 'H') (by decide) ?_
  rw [k8s, String.toList_append, List.mem_append, not_or]
  exact ⟨hbase, hall w hw⟩

theorem replace_term {real w : String} (hw : w ∈ "runsImage" :: "hostGeneration" :: snapshotTerms) :
    Text.replace placeholder real (k8s w) = k8s w := replace_word (List.mem_append_left _ hw)

theorem replace_rdfType (real : String) : Text.replace placeholder real rdfType = rdfType :=
  replace_of_not_mem (c := 'H') (by decide) (by decide)

theorem replace_xsd {real dt : String} (hdt : dt ∈ ["string", "integer", "boolean"]) :
    Text.replace placeholder real (xsd dt) = xsd dt := by
  have hall : ∀ dt ∈ ["string", "integer", "boolean"], 'G' ∉ (xsd dt).toList := by decide
  exact replace_of_not_mem (c := 'G') (by decide) (hall dt hdt)

variable {real : String}

theorem escapeChar_of_plain {c : Char} (h : 32 ≤ c.toNat) (h' : c.toNat ≠ 127) (hquote : c ≠ '"')
    (hslash : c ≠ '\\') : Fragment.escapeChar c = [c] := by
  have hne : ∀ d : Char, d.toNat < 32 → c ≠ d := by
    rintro d hd rfl
    omega
  unfold Fragment.escapeChar
  rw [if_neg (by omega), if_neg (hne '\t' (by decide)), if_neg (hne '\n' (by decide)), if_neg (by omega),
    if_neg (hne '\r' (by decide)), if_neg hquote, if_neg hslash, if_neg (by omega)]

/-- An escape begins with a backslash and holds no letter that the placeholder begins with. -/
theorem escapeChar_of_escaped {c : Char} (h : Fragment.escapeChar c ≠ [c]) :
    (∃ d r, Fragment.escapeChar c = d :: r ∧ d ∉ placeholder.toList) ∧
      ∀ e ∈ Fragment.escapeChar c, placeholder.toList.head? ≠ some e := by
  have hslash : '\\' ∉ placeholder.toList := by decide
  have hhex : ∀ n < 16, Encoding.upperHex n ≠ 'P' := by decide
  have hfirst : placeholder.toList.head? = some 'P' := rfl
  simp only [hfirst, Option.some.injEq, ne_eq]
  unfold Fragment.escapeChar at h ⊢
  split_ifs at h ⊢ with _ _ _ _ _ _ _ hctl
  · exact ⟨⟨_, _, rfl, hslash⟩, by decide⟩
  · exact ⟨⟨_, _, rfl, hslash⟩, by decide⟩
  · exact ⟨⟨_, _, rfl, hslash⟩, by decide⟩
  · exact ⟨⟨_, _, rfl, hslash⟩, by decide⟩
  · exact ⟨⟨_, _, rfl, hslash⟩, by decide⟩
  · exact ⟨⟨_, _, rfl, hslash⟩, by decide⟩
  · exact ⟨⟨_, _, rfl, hslash⟩, by decide⟩
  · refine ⟨⟨_, _, rfl, hslash⟩, ?_⟩
    have hhi := hhex (c.toNat / 16) (by omega)
    have hlo := hhex (c.toNat % 16) (by omega)
    simp [hhi.symm, hlo.symm]
  · exact absurd rfl h

theorem unescaped_placeholder (hreal : HexText real) :
    Text.Unescaped placeholder.toList real.toList Fragment.escapeChar where
  ne_nil := by decide
  plain := by decide
  plain' := by
    intro c hc
    have hrange := hreal c hc
    refine escapeChar_of_plain (by omega) (by omega) ?_ ?_
    · rintro rfl
      exact absurd hrange (by decide)
    · rintro rfl
      exact absurd hrange (by decide)
  escape := fun _ => escapeChar_of_escaped

theorem replace_quote (hreal : HexText real) (v : String) :
    Text.replace placeholder real (Fragment.quote v) = Fragment.quote (Text.replace placeholder real v) := by
  have hne : placeholder.toList ≠ [] := by decide
  have hopen : ∀ c ∈ ['"'], placeholder.toList.head? ≠ some c := by decide
  have hquote : '"' ∉ placeholder.toList := by decide
  have hfront := @Text.replaceFrom_append_of_head placeholder.toList real.toList _ hne hopen
    (v.toList.flatMap Fragment.escapeChar ++ ['"'])
  have hback := @Text.replaceFrom_append_cons placeholder.toList real.toList hne _ hquote
    (v.toList.flatMap Fragment.escapeChar) [] _ (Nat.zero_le _)
  rw [(unescaped_placeholder hreal).replaceFrom_flatMap] at hback
  apply String.toList_inj.mp
  simp only [Text.replace, Fragment.quote, String.toList_ofList]
  rw [List.cons_append, ← List.singleton_append, hfront, hback]
  rfl

theorem replace_empty : Text.replace placeholder real "" = "" := rfl

/-- Characters that the placeholder lacks keep the two sides apart. -/
theorem replace_append {d : Char} (hd : d ∉ placeholder.toList) (a b : String) :
    Text.replace placeholder real (a ++ String.singleton d ++ b)
      = Text.replace placeholder real a ++ String.singleton d ++ Text.replace placeholder real b :=
  Text.replace_append_cons (by decide) hd a b

theorem replace_iriText (i : Iri) :
    Text.replace placeholder real (Fragment.iriText i) = Fragment.iriText (Text.replace placeholder real i) := by
  have hopen := @replace_append real '<' (by decide) "" i
  have hclose := @replace_append real '>' (by decide) ("" ++ String.singleton '<' ++ i) ""
  rw [hopen, replace_empty, String.append_empty, String.append_empty] at hclose
  exact hclose

/-- The text of a term is replaced as the term is. -/
theorem replace_termText (hreal : HexText real) {t : Term}
    (ht : (∃ i, t = .iri i) ∨ ∃ v dt, t = .literal v dt ∧ Text.replace placeholder real dt = dt) :
    Text.replace placeholder real (Fragment.termText t) = Fragment.termText (rehashTerm real t) := by
  rcases ht with ⟨i, rfl⟩ | ⟨v, dt, rfl, hdt⟩
  · exact replace_iriText i
  · rw [rehashTerm, hdt, Fragment.termText, Fragment.termText]
    split
    · exact replace_quote hreal v
    · have hcarets : ∀ a b : String, a ++ "^^" ++ b = a ++ String.singleton '^' ++
          ("" ++ String.singleton '^' ++ b) := by
        intro a b
        apply String.toList_inj.mp
        simp
      rw [hcarets, hcarets, replace_append (by decide), replace_append (by decide), replace_empty,
        replace_quote hreal, replace_iriText, hdt]

/-! ## Lines -/

def rehashQuad (real : String) (q : Quad) : Quad :=
  ⟨Text.replace placeholder real q.g, rehashTerm real q.s, Text.replace placeholder real q.p, rehashTerm real q.o⟩

/-- A quad whose text is replaced term by term. -/
structure Separable (real : String) (q : Quad) : Prop where
  subject : ∃ i, q.s = .iri i
  object : (∃ i, q.o = .iri i) ∨ ∃ v dt, q.o = .literal v dt ∧ Text.replace placeholder real dt = dt

theorem replace_printQuad (hreal : HexText real) {q : Quad} (hq : Separable real q) (rest : String) :
    Text.replace placeholder real (printQuad q ++ rest)
      = printQuad (rehashQuad real q) ++ Text.replace placeholder real rest := by
  have hspaces : ∀ s p o g r : String, s ++ " " ++ p ++ " " ++ o ++ " " ++ g ++ " ." ++ "\n" ++ r
      = s ++ String.singleton ' ' ++ (p ++ String.singleton ' ' ++ (o ++ String.singleton ' ' ++
        (g ++ String.singleton ' ' ++ ("." ++ String.singleton '\n' ++ r)))) := by
    intro s p o g r
    apply String.toList_inj.mp
    simp
  have hdot : Text.replace placeholder real "." = "." := replace_of_not_mem (c := 'G') (by decide) (by decide)
  obtain ⟨⟨i, hi⟩, hobject⟩ := hq
  rw [printQuad, Fragment.line, Fragment.lineText, hspaces, replace_append (by decide), replace_append (by decide),
    replace_append (by decide), replace_append (by decide), replace_append (by decide), hdot,
    replace_termText hreal (.inl ⟨i, hi⟩), replace_termText hreal hobject, replace_iriText, replace_iriText,
    ← hspaces]
  rfl

theorem replace_printed (hreal : HexText real) {quads : List Quad} (h : ∀ q ∈ quads, Separable real q) :
    Text.replace placeholder real (String.join (quads.map printQuad))
      = String.join ((quads.map (rehashQuad real)).map printQuad) := by
  induction quads with
  | nil => rfl
  | cons q quads ih =>
      rw [List.forall_mem_cons] at h
      rw [List.map_cons, List.map_cons, List.map_cons, String.join_cons, String.join_cons,
        replace_printQuad hreal h.1, ih h.2]

/-! ## The fragment that is read back -/

variable {accepts : String → Bool} {parse : String → Option (List Quad)}

/-- What is parsed is the fragment with every term replaced. -/
theorem fromQuads_rehashText (hparse : ReadsNquads (Quad.Printable accepts) parse)
    (hreal : HexText real) {f : Fragment}
    (hplain : f.Plain) (hlines : ∀ t ∈ f.lines, Separable real (t.inGraph f.graph) ∧
      (rehashQuad real (t.inGraph f.graph)).Printable accepts) (kind : FragmentKind) :
    Fragment.fromQuads kind (rehashText parse f real) = ⟨kind, rehash f real⟩ := by
  obtain ⟨ts, hts, htext⟩ := exists_printed fun t ht => (hplain.lines t ht).printed
  have hquads : ∀ q ∈ ts.map (Triple.inGraph f.graph), Separable real q ∧ (rehashQuad real q).Printable accepts := by
    intro q hq
    obtain ⟨t, ht, rfl⟩ := List.mem_map.mp hq
    exact hlines t ((hts t).mp ht)
  have hparsed : parse (Text.replace placeholder real f.toNquads)
      = some ((ts.map (Triple.inGraph f.graph)).map (rehashQuad real)) := by
    rw [htext, replace_printed hreal fun q hq => (hquads q hq).1]
    refine hparse.printed _ fun q hq => ?_
    obtain ⟨u, hu, rfl⟩ := List.mem_map.mp hq
    exact (hquads u hu).2
  rw [rehashText, hparsed, Option.getD_some, Fragment.fromQuads, Fragment.ofTriples, rehash]
  congr 1
  ext t
  simp only [List.mem_toFinset, List.mem_map, Finset.mem_image, exists_exists_and_eq_and, hts]
  rfl

/-! ## IRIs that stay valid -/

/-- An IRI that is printed as one token and is still accepted when the placeholder has been replaced. -/
def Replaceable (accepts : String → Bool) (real : String) (i : Iri) : Prop :=
  PlainText i ∧ accepts (Text.replace placeholder real i) = true

theorem replace_id (path : String) : Text.replace placeholder real (id path) =
    id (Text.replace placeholder real path) := by
  have hbase : idBase = "https://w3id.org/nix2rdf/id" ++ String.singleton '/' := by decide
  have hfront : Text.replace placeholder real "https://w3id.org/nix2rdf/id" = "https://w3id.org/nix2rdf/id" :=
    replace_of_not_mem (c := 'G') (by decide) (by decide)
  rw [id, id, hbase, replace_append (by decide), hfront]

theorem plainText_base : ∀ ns ∈ [idBase, k8sNs, xsdNs, rdfType], PlainText ns := by decide +kernel

theorem replaceable_id (h : ParsesIris accepts) (hreal : HexText real) {path : String}
    (hpath : accepts (id path) = true) : Replaceable accepts real (id path) := by
  rw [h.id_eq] at hpath
  have hplain : ∀ c ∈ real.toList, IriSyntax.plain c = true := by
    intro c hc
    have hrange := hreal c hc
    refine plain_alphanumeric ?_
    simp only [isAsciiAlphanumeric, Bool.or_eq_true, Bool.and_eq_true, decide_eq_true_eq]
    omega
  refine ⟨plainText_append (plainText_base _ (by simp)) (plainText_of_valid hpath), ?_⟩
  rw [replace_id, h.id_eq]
  exact IriSyntax.valid_replace (by decide) (by decide) (by decide) hplain hpath

theorem replaceable_of_kept {i : Iri} (hplain : PlainText i) (hi : accepts i = true)
    (hkept : Text.replace placeholder real i = i) : Replaceable accepts real i := by
  refine ⟨hplain, ?_⟩
  rw [hkept]
  exact hi

theorem plainText_alphanumeric {w : String} (hw : w.toList.all isAsciiAlphanumeric = true) : PlainText w :=
  fun c hc => iriExcluded_of_plain (plain_alphanumeric (List.all_eq_true.mp hw c hc))

theorem replaceable_word (h : ParsesIris accepts) {w : String}
    (hw : w ∈ "runsImage" :: "hostGeneration" :: snapshotTerms ++ classTerms) : Replaceable accepts real (k8s w) :=
  replaceable_of_kept
    (plainText_append (plainText_base _ (by simp)) (plainText_alphanumeric (alphanumeric_terms w hw)))
    (h.k8s (alphanumeric_terms w hw)) (replace_word hw)

theorem replaceable_type (h : ParsesIris accepts) : Replaceable accepts real rdfType :=
  replaceable_of_kept (plainText_base _ (by simp)) h.rdfType (replace_rdfType real)

theorem objIri_eq_id (ctx : Ctx) (kind : String) (ns : Option String) (name : String) :
    ∃ path, ctx.objIri kind ns name = id path := by
  have hobj : ∀ kind ns, ∃ path, Iri.k8sObj ctx.cid kind ns name = id path := by
    intro kind ns
    cases ns with
    | none => exact ⟨_, rfl⟩
    | some ns => exact ⟨_, rfl⟩
  unfold Ctx.objIri
  split
  · exact hobj _ _
  · exact hobj _ _
  · exact hobj _ _

theorem replaceable_minted (h : ParsesIris accepts) (hreal : HexText real) {ctx : Ctx} {i : Iri} (hi : Minted ctx i)
    (hacc : accepts i = true) : Replaceable accepts real i := by
  cases hi with
  | path segs => exact replaceable_id h hreal hacc
  | term hc => exact replaceable_word h (List.mem_append_right _ hc)
  | @object e he =>
      obtain ⟨path, hpath⟩ := objIri_eq_id ctx e.1.kind (nsOption e.1.ns) e.1.name
      rw [Ctx.iriOf, hpath] at hacc ⊢
      exact replaceable_id h hreal hacc

theorem xsd_alphanumeric : ∀ dt ∈ ["string", "integer", "boolean"], dt.toList.all isAsciiAlphanumeric = true := by
  decide +kernel

/-- The triples of a snapshot and of an inventory are read back from their renamed text. -/
theorem Described.replaceable (h : ParsesIris accepts) (hreal : HexText real) {ctx : Ctx} {gens : List String}
    {t : Triple} (ht : Described ctx gens t) (hacc : t.Accepted accepts) {g : Iri} (hg : Replaceable accepts real g) :
    t.Plain ∧ Separable real (t.inGraph g) ∧ (rehashQuad real (t.inGraph g)).Printable accepts := by
  have hword : ∀ w ∈ snapshotTerms, Replaceable accepts real (k8s w) := fun w hw =>
    replaceable_word h (List.mem_append_left _ (by simp [hw]))
  have hiri : ∀ {s p o : Iri}, Replaceable accepts real s → Replaceable accepts real p → Replaceable accepts real o →
      (Triple.addIri s p o).Plain ∧ Separable real ((Triple.addIri s p o).inGraph g) ∧
        (rehashQuad real ((Triple.addIri s p o).inGraph g)).Printable accepts := fun hs hp ho =>
    ⟨⟨⟨_, rfl, hs.1⟩, hp.1, ho.1⟩, ⟨⟨_, rfl⟩, .inl ⟨_, rfl⟩⟩, ⟨hg.2, ⟨_, rfl, hs.2⟩, hp.2, .inl ⟨_, rfl, ho.2⟩⟩⟩
  cases ht with
  | type hi hc =>
      have hs := replaceable_minted h hreal hi (accepted_addIri.mp hacc).1
      exact hiri hs (replaceable_type h) (replaceable_word h (List.mem_append_right _ hc))
  | ref hi hw ho =>
      obtain ⟨hs, _, ho'⟩ := accepted_addIri.mp hacc
      exact hiri (replaceable_minted h hreal hi hs) (hword _ hw) (replaceable_minted h hreal ho ho')
  | image hi hd =>
      obtain ⟨hs, _, ho⟩ := accepted_addIri.mp hacc
      exact hiri (replaceable_minted h hreal hi hs) (replaceable_word h (by simp)) (replaceable_id h hreal ho)
  | generation hi hg' =>
      obtain ⟨hs, _, ho⟩ := accepted_addIri.mp hacc
      exact hiri (replaceable_minted h hreal hi hs) (replaceable_word h (by simp)) (replaceable_id h hreal ho)
  | @lit i w v dt hi hw hdt =>
      have hs := replaceable_minted h hreal hi (accepted_addTyped.mp hacc).1
      have hxsd : PlainText (xsd dt) :=
        plainText_append (plainText_base _ (by simp)) (plainText_alphanumeric (xsd_alphanumeric dt hdt))
      have hobject : rehashTerm real (.literal v (xsd dt)) = .literal (Text.replace placeholder real v) (xsd dt) := by
        rw [rehashTerm, replace_xsd hdt]
      exact ⟨⟨⟨_, rfl, hs.1⟩, (hword w hw).1, hxsd⟩, ⟨⟨_, rfl⟩, .inr ⟨_, _, rfl, replace_xsd hdt⟩⟩,
        ⟨hg.2, ⟨_, rfl, hs.2⟩, (hword w hw).2, .inr ⟨_, _, hobject, h.xsd (xsd_alphanumeric dt hdt)⟩⟩⟩

variable {x : Extern} {now : String} {input : SnapshotInput} {opts : SnapshotOptions}

/-- Where no IRI panics, replacing in the text is replacing in the terms. -/
theorem buildSnapshotText_eq (h : ParsesIris accepts) (hparse : ReadsNquads (Quad.Printable accepts) parse)
    (hx : ∀ bs, HexText (x.sha256Hex bs))
    (hret : mintSnapshot accepts x now input opts = .ok (buildSnapshot x now input opts)) :
    buildSnapshotText parse x now input opts = buildSnapshot x now input opts := by
  obtain ⟨⟨hnodesGraph, hnodes⟩, ⟨hpendingGraph, hpending⟩, _⟩ := mintSnapshot_eq_ok.mp hret
  have htext : ∀ (f : Fragment) (path : String) (bs : List UInt8) (kind : FragmentKind), f.graph = id path →
      accepts f.graph = true →
      (∀ t ∈ f.lines, t.Accepted accepts ∧ ∃ gens, Described (ctxOf input opts) gens t) →
      Fragment.fromQuads kind (rehashText parse f (x.sha256Hex bs)) = ⟨kind, rehash f (x.sha256Hex bs)⟩ := by
    intro f path bs kind hgraph hacc hlines
    have hg : Replaceable accepts (x.sha256Hex bs) f.graph := by
      rw [hgraph] at hacc ⊢
      exact replaceable_id h (hx bs) hacc
    have hall := fun t ht => (hlines t ht).2.choose_spec.replaceable h (hx bs) (hlines t ht).1 hg
    exact fromQuads_rehashText hparse (hx bs) ⟨hg.1, fun t ht => (hall t ht).1⟩ (fun t ht => (hall t ht).2) kind
  have hnodesText := htext (nodesFragment (ctxOf input opts) opts) _
    (Encoding.utf8 (nodesFragment (ctxOf input opts) opts).toNquads)
    (.k8sNodes (ctxOf input opts).cid (contentHash x (nodesFragment (ctxOf input opts) opts))) rfl hnodesGraph
      fun t ht => by
      obtain ⟨node, _, ht'⟩ := List.mem_flatMap.mp (Fragment.mem_ofTriples.mp ht)
      exact ⟨hnodes t ht, _, described_node ht'⟩
  have hpendingText := htext (pendingSnapshot (ctxOf input opts) input opts.state) _
    (Encoding.utf8 (pendingSnapshot (ctxOf input opts) input opts.state).toNquads)
    (.k8sSnapshot (ctxOf input opts).cid (contentHash x (pendingSnapshot (ctxOf input opts) input opts.state))) rfl
    hpendingGraph fun t ht => ⟨hpending t ht, _, pendingSnapshot_described ht⟩
  unfold buildSnapshotText
  simp only [contentHash] at hnodesText hpendingText ⊢
  rw [hnodesText, hpendingText]
  rfl

end K8s

end Nix2Rdf
