import Nix2Rdf.Reason.Hosts

/-!
# Renaming a snapshot

The pending name of a graph is to be replaced by its final name, and nothing else is to change. The
replacement goes by the text of the placeholder.
-/

namespace Nix2Rdf.K8s

open Text (slash)
open Triple
open Reason

def renameTerm (g g' : Iri) (t : Term) : Term := if t = .iri g then .iri g' else t

def renameTriple (g g' : Iri) (t : Triple) : Triple := ⟨renameTerm g g' t.s, t.p, renameTerm g g' t.o⟩

/-- The final fragment says of the final graph what the pending one says of the pending graph. -/
structure Renames (pending final : Fragment) : Prop where
  lines : final.lines = pending.lines.image (renameTriple pending.graph final.graph)
  card : final.lines.card = pending.lines.card

/-- The placeholder stands in a term. -/
def Marked : Term → Prop
  | .iri i => Text.Occurs placeholder i
  | .bnode l => Text.Occurs placeholder l
  | .literal v dt => Text.Occurs placeholder v ∨ Text.Occurs placeholder dt
  | .lang v tag => Text.Occurs placeholder v ∨ Text.Occurs placeholder tag

/-- Besides the name of the graph, no subject and no object holds the placeholder. -/
def NameOnly (f : Fragment) : Prop :=
  ∀ t ∈ f.lines, ∀ u ∈ [t.s, t.o], u = .iri f.graph ∨ ¬ Marked u

variable {real : String}

/-! ## Terms -/

theorem hexText_disjoint (hreal : HexText real) : ∀ c ∈ placeholder.toList, c ∉ real.toList := by
  have hrange : ∀ c ∈ placeholder.toList, 65 ≤ c.toNat ∧ c.toNat ≤ 90 := by decide
  intro c hc hmem
  have hupper := hrange c hc
  have hlower := hreal c hmem
  omega

theorem not_marked_rehashTerm (hreal : HexText real) (hne : real ≠ "") (t : Term) : ¬ Marked (rehashTerm real t) := by
  have hno : ∀ s, ¬ Text.Occurs placeholder (Text.replace placeholder real s) := fun s =>
    Text.not_occurs_replace (by decide) hne (hexText_disjoint hreal) s
  cases t with
  | iri i => exact hno i
  | bnode l => exact hno l
  | literal v dt => exact not_or.mpr ⟨hno v, hno dt⟩
  | lang v tag => exact not_or.mpr ⟨hno v, hno tag⟩

theorem rehashTerm_of_not_marked {t : Term} (h : ¬ Marked t) : rehashTerm real t = t := by
  cases t with
  | iri i => exact congrArg Term.iri (Text.replace_of_not_occurs h)
  | bnode l => exact congrArg Term.bnode (Text.replace_of_not_occurs h)
  | literal v dt =>
      obtain ⟨hv, hdt⟩ := not_or.mp h
      exact congrArg₂ Term.literal (Text.replace_of_not_occurs hv) (Text.replace_of_not_occurs hdt)
  | lang v tag =>
      obtain ⟨hv, htag⟩ := not_or.mp h
      exact congrArg₂ Term.lang (Text.replace_of_not_occurs hv) (Text.replace_of_not_occurs htag)

/-! ## Fragments -/

variable {f : Fragment} {g' : Iri}

/-- Whatever else holds the placeholder is changed with it. -/
theorem nameOnly_of_rehash (hreal : HexText real) (hne : real ≠ "")
    (h : rehash f real = f.lines.image (renameTriple f.graph g')) : NameOnly f := by
  intro t ht u hu
  rw [or_iff_not_imp_left]
  intro hother hmarked
  have hmem : renameTriple f.graph g' t ∈ rehash f real := by
    rw [h]
    exact Finset.mem_image_of_mem _ ht
  obtain ⟨t', _, heq⟩ := Finset.mem_image.mp hmem
  have hkept : renameTerm f.graph g' u = u := if_neg hother
  rw [List.mem_cons, List.mem_singleton] at hu
  rcases hu with rfl | rfl
  · have hs : rehashTerm real t'.s = renameTerm f.graph g' t.s := congrArg Triple.s heq
    rw [hkept] at hs
    exact not_marked_rehashTerm hreal hne t'.s (hs ▸ hmarked)
  · have ho : rehashTerm real t'.o = renameTerm f.graph g' t.o := congrArg Triple.o heq
    rw [hkept] at ho
    exact not_marked_rehashTerm hreal hne t'.o (ho ▸ hmarked)

theorem rehash_of_nameOnly (h : NameOnly f) (hp : ∀ t ∈ f.lines, Text.replace placeholder real t.p = t.p)
    (hg : ∀ t ∈ f.lines, .iri f.graph ∈ [t.s, t.o] → Text.replace placeholder real f.graph = g') :
    rehash f real = f.lines.image (renameTriple f.graph g') := by
  refine Finset.image_congr fun t ht => ?_
  have hterm : ∀ u ∈ [t.s, t.o], rehashTerm real u = renameTerm f.graph g' u := by
    intro u hu
    rcases h t ht u hu with heq | hno
    · rw [heq] at hu ⊢
      rw [renameTerm, if_pos rfl, rehashTerm, hg t ht hu]
    · rw [rehashTerm_of_not_marked hno, renameTerm]
      split
      · rename_i heq
        rw [heq] at hu hno ⊢
        rw [← hg t ht hu]
        exact congrArg Term.iri (Text.replace_of_not_occurs hno).symm
      · rfl
  rw [rehashTriple, renameTriple, hterm t.s (by simp), hterm t.o (by simp), hp t ht]

/-! ## The pending graphs among the entities -/

theorem id_slash_ne {xs ys : List String} (hx : xs ≠ []) (hy : ys ≠ []) (hxs : ∀ s ∈ xs, '/' ∉ s.toList)
    (hys : ∀ s ∈ ys, '/' ∉ s.toList) (h : xs ≠ ys) : id (slash xs) ≠ id (slash ys) := by
  rw [Ne, id_inj, Text.slash_inj hx hy hxs hys]
  exact h

/-- The graph of a pending fragment: `word` is `snapshot` or `nodes`. -/
def pendingGraph (cid word : String) : Iri := id (slash ["k8s", encodeSegment cid, word, placeholder])

theorem pendingGraph_segs {word : String} (hw : word ∈ ["snapshot", "nodes"]) (cid : String) :
    ∀ s ∈ ["k8s", encodeSegment cid, word, placeholder], '/' ∉ s.toList := by
  have hword : ∀ w ∈ ["snapshot", "nodes"], '/' ∉ w.toList := by decide
  simp only [List.forall_mem_cons, List.not_mem_nil, false_implies, implies_true, and_true]
  exact ⟨by decide, slash_not_mem_encodeSegment cid, hword word hw, by decide⟩

/-- An object whose path ends as the pending graph does bears the placeholder as its name. -/
theorem name_of_iriOf_eq {ctx : Ctx} {key : Key} {word : String}
    (h : ctx.iriOf key = pendingGraph ctx.cid word) : key.name = placeholder := by
  have hlast : ∀ (segs : List String) (b : String), segs ≠ [] → '/' ∉ b.toList →
      Text.lastPart '/' (slash (segs ++ [b])) = b := by
    intro segs b hne hb
    rw [Text.slash_append_singleton hne]
    exact Text.lastPart_append hb _
  have hgraph : Text.lastPart '/' (slash ["k8s", encodeSegment ctx.cid, word, placeholder]) = placeholder :=
    hlast ["k8s", encodeSegment ctx.cid, word] placeholder (by simp) (by decide)
  have hobj : ∀ kind ns, Iri.k8sObj ctx.cid kind ns key.name = pendingGraph ctx.cid word →
      key.name = placeholder := by
    intro kind ns heq
    have hplaceholder : encodeSegment key.name = encodeSegment placeholder := by
      rw [encodeSegment_pathWords placeholder (by decide), ← hgraph]
      cases ns with
      | none =>
          rw [Iri.k8sObj, pendingGraph, id_inj] at heq
          rw [← heq]
          exact (hlast ["k8s", encodeSegment ctx.cid, kind] _ (by simp) (slash_not_mem_encodeSegment _)).symm
      | some ns =>
          rw [Iri.k8sObj, pendingGraph, id_inj] at heq
          rw [← heq]
          exact (hlast ["k8s", encodeSegment ctx.cid, kind, encodeSegment ns] _ (by simp)
            (slash_not_mem_encodeSegment _)).symm
    exact encodeSegment_inj.mp hplaceholder
  unfold Ctx.iriOf Ctx.objIri at h
  split at h
  · exact hobj _ _ h
  · exact hobj _ _ h
  · exact hobj _ _ h

/-- No entity of a snapshot is its pending graph, if no object is. -/
theorem Entity.ne_pendingGraph {ctx : Ctx} {word : String} (hw : word ∈ ["snapshot", "nodes"])
    (hobj : ∀ e ∈ countedObjects ctx, ctx.iriOf e.1 ≠ pendingGraph ctx.cid word) {i : Iri} (h : Entity ctx i) :
    i ≠ pendingGraph ctx.cid word := by
  have hgraph := pendingGraph_segs hw ctx.cid
  have hkind : ∀ w ∈ ["snapshot", "nodes"], ∀ k ∈ entityKinds, k ≠ w := by decide
  have hslash : ∀ k ∈ entityKinds, '/' ∉ k.toList := by decide
  have henc : ∀ s, '/' ∉ (encodeSegment s).toList := slash_not_mem_encodeSegment
  cases h with
  | cluster =>
      refine id_slash_ne (by simp) (by simp) ?_ hgraph (by simp)
      simp [henc]
  | obj hk ns name =>
      cases ns with
      | none =>
          refine id_slash_ne (by simp) (by simp) ?_ hgraph (by simp [hkind word hw _ hk])
          simp [henc, hslash _ hk]
      | some ns =>
          refine id_slash_ne (by simp) (by simp) ?_ hgraph (by simp)
          simp [henc, hslash _ hk]
  | container hk ns name container =>
      refine id_slash_ne (by simp) (by simp) ?_ hgraph (by simp)
      simp [henc, hslash _ hk]
  | domain hk value =>
      have hdomain : ∀ k ∈ ["zone", "region", "rack", "site"], '/' ∉ k.toList := by decide
      refine id_slash_ne (by simp) (by simp) ?_ hgraph (by simp)
      simp [henc, hdomain _ hk]
  | permission group resource verb =>
      refine id_slash_ne (by simp) (by simp) ?_ hgraph (by simp)
      simp [henc]
  | owner value =>
      refine id_slash_ne (by simp) (by simp) ?_ hgraph (by simp)
      simp [henc]
  | term hc => exact k8s_ne_id _ _
  | object he => exact hobj _ he

theorem id_slash_ne_pendingGraph {a : String} (ha : a ≠ "k8s") (hslash : '/' ∉ a.toList) (b : String)
    (segs : List String) (cid word : String) : id (slash (a :: b :: segs)) ≠ pendingGraph cid word := by
  intro h
  have hfirst := congrArg (fun s => (Text.splitOnce '/' s).map Prod.fst) (id_inj.mp h)
  have hk8s : '/' ∉ "k8s".toList := by decide
  have hsep : "/" = String.singleton '/' := rfl
  simp only [Text.slash_cons, hsep, Text.splitOnce_append hslash, Text.splitOnce_append hk8s, Option.map_some,
    Option.some.injEq] at hfirst
  exact ha hfirst

theorem OfEntity.ne_pendingGraph {ctx : Ctx} {gens : List String} {word : String} (hw : word ∈ ["snapshot", "nodes"])
    (hobj : ∀ e ∈ countedObjects ctx, ctx.iriOf e.1 ≠ pendingGraph ctx.cid word) {t : Triple}
    (h : OfEntity ctx gens t) : t.s ≠ .iri (pendingGraph ctx.cid word) ∧ t.o ≠ .iri (pendingGraph ctx.cid word) := by
  have hentity : ∀ {i}, Entity ctx i → (.iri i : Term) ≠ .iri (pendingGraph ctx.cid word) := fun hi heq =>
    hi.ne_pendingGraph hw hobj (Term.iri.inj heq)
  cases h with
  | type hi hc => exact ⟨hentity hi, fun heq => k8s_ne_id _ _ (Term.iri.inj heq)⟩
  | lit hi _ _ => exact ⟨hentity hi, fun heq => Term.noConfusion heq⟩
  | ref hi _ ho => exact ⟨hentity hi, hentity ho⟩
  | image hi _ =>
      exact ⟨hentity hi, fun heq => id_slash_ne_pendingGraph (by decide) (by decide) _ _ _ _ (Term.iri.inj heq)⟩
  | generation hi _ =>
      exact ⟨hentity hi, fun heq => id_slash_ne_pendingGraph (by decide) (by decide) _ _ _ _ (Term.iri.inj heq)⟩

theorem OfSnapshot.ne_pendingGraph {ctx : Ctx} {word : String} (hw : word ∈ ["snapshot", "nodes"])
    (hobj : ∀ e ∈ countedObjects ctx, ctx.iriOf e.1 ≠ pendingGraph ctx.cid word) {snap : Iri} {t : Triple}
    (h : OfSnapshot ctx snap t) : t.o ≠ .iri (pendingGraph ctx.cid word) := by
  cases h with
  | type => exact fun heq => k8s_ne_id _ _ (Term.iri.inj heq)
  | lit _ _ => exact fun heq => Term.noConfusion heq
  | ref _ ho => exact fun heq => ho.ne_pendingGraph hw hobj (Term.iri.inj heq)

theorem OfSnapshot.subject {ctx : Ctx} {snap : Iri} {t : Triple} (h : OfSnapshot ctx snap t) : t.s = .iri snap := by
  cases h with
  | type => rfl
  | lit _ _ => rfl
  | ref _ _ => rfl

/-- What is said of a snapshot is said of nothing else. -/
theorem OfSnapshot.apart {ctx : Ctx} {gens : List String} {snap : Iri} {t u : Triple} (ht : OfSnapshot ctx snap t)
    (hu : OfEntity ctx gens u) (hp : t.p = u.p) : t.o ≠ u.o := by
  have hterm : ∀ w ∈ graphTerms, w ∉ entityTerms ∧ w ≠ "runsImage" ∧ w ≠ "hostGeneration" := by decide
  have hgraph : ∀ w ∈ graphTerms, k8s w = u.p → False := by
    intro w hw heq
    obtain ⟨hno, himage, hgeneration⟩ := hterm w hw
    cases hu with
    | type _ _ => exact k8s_ne_rdfType _ heq
    | lit _ hw' _ =>
        rw [addTyped_p, k8s_inj] at heq
        exact hno (heq ▸ hw')
    | ref _ hw' _ =>
        rw [addIri_p, k8s_inj] at heq
        exact hno (heq ▸ hw')
    | image _ _ =>
        rw [addIri_p, k8s_inj] at heq
        exact himage heq
    | generation _ _ =>
        rw [addIri_p, k8s_inj] at heq
        exact hgeneration heq
  cases ht with
  | lit hw _ => exact (hgraph _ hw hp).elim
  | ref hw _ => exact (hgraph _ hw hp).elim
  | type =>
      cases hu with
      | type _ hc =>
          intro heq
          rw [addType_o, addType_o, Term.iri.injEq, k8s_inj] at heq
          have hsnapshot : "Snapshot" ∉ entityClasses := by decide
          exact hsnapshot (heq ▸ hc)
      | lit _ _ _ => exact absurd hp (rdfType_ne_k8s _)
      | ref _ _ _ => exact absurd hp (rdfType_ne_k8s _)
      | image _ _ => exact absurd hp (rdfType_ne_k8s _)
      | generation _ _ => exact absurd hp (rdfType_ne_k8s _)

theorem Described.replace_p {ctx : Ctx} {gens : List String} {t : Triple} (h : Described ctx gens t) :
    Text.replace placeholder real t.p = t.p := by
  have hterm : ∀ w ∈ snapshotTerms, Text.replace placeholder real (k8s w) = k8s w := fun w hw =>
    replace_term (List.mem_cons_of_mem _ (List.mem_cons_of_mem _ hw))
  cases h with
  | type _ _ => exact replace_rdfType real
  | lit _ hw _ => exact hterm _ hw
  | ref _ hw _ => exact hterm _ hw
  | image _ _ => exact replace_term (by simp)
  | generation _ _ => exact replace_term (by simp)

/-! ## No two triples become one -/

theorem injOn_renameTriple {P : Finset Triple} {g : Iri} (ho : ∀ t ∈ P, t.o ≠ .iri g)
    (hs : ∀ t ∈ P, ∀ u ∈ P, t.s = .iri g → u.s ≠ .iri g → t.p = u.p → t.o ≠ u.o) :
    Set.InjOn (renameTriple g g') P := by
  intro t ht u hu heq
  have hkept : ∀ v ∈ P, (renameTriple g g' v).o = v.o := fun v hv => if_neg (ho v hv)
  have hpredicate : (renameTriple g g' t).p = (renameTriple g g' u).p := congrArg Triple.p heq
  have hp : t.p = u.p := hpredicate
  have hobject : t.o = u.o := by rw [← hkept t ht, heq, hkept u hu]
  have hrenamed : (renameTriple g g' t).s = (renameTriple g g' u).s := congrArg Triple.s heq
  have hsubject : renameTerm g g' t.s = renameTerm g g' u.s := hrenamed
  have hsame : t.s = u.s := by
    by_cases htg : t.s = .iri g
    · by_cases hug : u.s = .iri g
      · rw [htg, hug]
      · exact absurd hobject (hs t ht u hu htg hug hp)
    · by_cases hug : u.s = .iri g
      · exact absurd hobject.symm (hs u hu t ht hug htg hp.symm)
      · rwa [renameTerm, renameTerm, if_neg htg, if_neg hug] at hsubject
  cases t
  cases u
  exact Triple.mk.injEq .. |>.mpr ⟨hsame, hp, hobject⟩

/-! ## The snapshot -/

variable {input : SnapshotInput} {opts : SnapshotOptions} {state : StateKind}

theorem mem_pendingSnapshot_head {t : Triple}
    (ht : t ∈ snapshotHead (ctxOf input opts) input state (Iri.k8sSnapshot (ctxOf input opts).cid placeholder)) :
    t ∈ (pendingSnapshot (ctxOf input opts) input state).lines :=
  Fragment.mem_ofTriples.mpr (List.mem_append_left _ ht)

theorem occurs_placeholder : Text.Occurs placeholder placeholder := List.infix_rfl

/-- An object that took the graph for its IRI would show the placeholder as its name. -/
theorem iriOf_ne_of_nameOnly (h : NameOnly (pendingSnapshot (ctxOf input opts) input state)) :
    ∀ e ∈ countedObjects (ctxOf input opts),
      (ctxOf input opts).iriOf e.1 ≠ pendingGraph (ctxOf input opts).cid "snapshot" := by
  intro e he heq
  have hmem : addStr ((ctxOf input opts).iriOf e.1) (k8s "name") e.1.name
      ∈ (pendingSnapshot (ctxOf input opts) input state).lines := by
    refine Fragment.mem_ofTriples.mpr (List.mem_append_right _ (List.mem_flatMap.mpr ⟨e, he, ?_⟩))
    simp only [objectTriples, List.mem_append, List.mem_cons, true_or, or_true]
  rcases h _ hmem (.literal e.1.name (xsd "string")) (by simp [addStr, addTyped, add]) with hname | hname
  · cases hname
  · refine hname (.inl ?_)
    rw [name_of_iriOf_eq heq]
    exact occurs_placeholder

/-- Without the placeholder in the path of the cluster, the graph gets its final name. -/
theorem replace_pendingGraph {cid word : String} (hw : word ∈ ["snapshot", "nodes"])
    (h : ¬ Text.Occurs placeholder (encodeSegment cid)) :
    Text.replace placeholder real (pendingGraph cid word) = id (slash ["k8s", encodeSegment cid, word, real]) := by
  have hword : ∀ w ∈ ["snapshot", "nodes"], 'G' ∉ w.toList := by decide
  have hsegs : ∀ last, slash ["k8s", encodeSegment cid, word, last]
      = "k8s" ++ String.singleton '/' ++
        (encodeSegment cid ++ String.singleton '/' ++ (word ++ String.singleton '/' ++ last)) := by
    intro last
    rw [Text.slash_cons, Text.slash_cons, Text.slash_cons, Text.slash_singleton]
    rfl
  have hk8s : Text.replace placeholder real "k8s" = "k8s" := replace_of_not_mem (c := 'G') (by decide) (by decide)
  have hkept : Text.replace placeholder real word = word := replace_of_not_mem (c := 'G') (by decide) (hword word hw)
  have hlast : Text.replace placeholder real placeholder = real := by
    have hfront := @Text.replaceFrom_append placeholder.toList real.toList (by decide) []
    rw [List.append_nil] at hfront
    rw [Text.replace, hfront, Text.replaceFrom, List.append_nil, String.ofList_toList]
  rw [pendingGraph, replace_id, hsegs, hsegs, replace_append (by decide), replace_append (by decide),
    replace_append (by decide), hk8s, hkept, hlast, Text.replace_of_not_occurs h]

theorem not_occurs_cid (h : NameOnly (pendingSnapshot (ctxOf input opts) input state)) :
    ¬ Text.Occurs placeholder (encodeSegment (ctxOf input opts).cid) := by
  intro hoccurs
  have hmem : addType (Iri.k8sCluster (ctxOf input opts).cid) (k8s "Cluster")
      ∈ (pendingSnapshot (ctxOf input opts) input state).lines := mem_pendingSnapshot_head (by simp [snapshotHead])
  rcases h _ hmem (.iri (Iri.k8sCluster (ctxOf input opts).cid)) (by simp [addType, addIri, add]) with heq | hno
  · have hgraph := Entity.cluster.ne_pendingGraph (by simp) (iriOf_ne_of_nameOnly h)
    exact hgraph (Term.iri.inj heq)
  · refine hno (hoccurs.trans ?_)
    have hsuffix : (Iri.k8sCluster (ctxOf input opts).cid).toList
        = (idBase ++ "k8s/cluster/").toList ++ (encodeSegment (ctxOf input opts).cid).toList := by
      rw [← String.toList_append, Iri.k8sCluster, id, Text.slash_cons, Text.slash_pair]
      congr 1
    rw [hsuffix]
    exact (List.suffix_append _ _).isInfix

theorem pendingSnapshot_replace_p {t : Triple} (ht : t ∈ (pendingSnapshot (ctxOf input opts) input state).lines) :
    Text.replace placeholder real t.p = t.p := (pendingSnapshot_described ht).replace_p

theorem snapshot_renames_iff (hreal : HexText real) (hne : real ≠ "") :
    Renames (pendingSnapshot (ctxOf input opts) input state)
        ⟨.k8sSnapshot (ctxOf input opts).cid real, rehash (pendingSnapshot (ctxOf input opts) input state) real⟩ ↔
      NameOnly (pendingSnapshot (ctxOf input opts) input state) := by
  constructor
  · exact fun h => nameOnly_of_rehash hreal hne h.lines
  · intro h
    have hobj := iriOf_ne_of_nameOnly h
    have hlines : rehash (pendingSnapshot (ctxOf input opts) input state) real
        = (pendingSnapshot (ctxOf input opts) input state).lines.image
          (renameTriple (pendingSnapshot (ctxOf input opts) input state).graph
            (Iri.k8sSnapshot (ctxOf input opts).cid real)) :=
      rehash_of_nameOnly h (fun t ht => pendingSnapshot_replace_p ht) fun _ _ _ =>
        replace_pendingGraph (by simp) (not_occurs_cid h)
    refine ⟨hlines, ?_⟩
    show (rehash (pendingSnapshot (ctxOf input opts) input state) real).card = _
    rw [hlines]
    refine Finset.card_image_of_injOn (injOn_renameTriple (fun t ht => ?_) fun t ht u hu hts hus => ?_)
    · rcases of_mem_pendingSnapshot ht with ht | ht
      · exact ht.ne_pendingGraph (by simp) hobj
      · exact (ht.ne_pendingGraph (by simp) hobj).2
    · rcases of_mem_pendingSnapshot ht with ht | ht
      · rcases of_mem_pendingSnapshot hu with hu | hu
        · exact absurd hu.subject hus
        · exact ht.apart hu
      · exact absurd hts (ht.ne_pendingGraph (by simp) hobj).1

/-! ## The inventory -/

/-- The index plays no part in the inventory's shapes. -/
theorem nodes_ne_pendingGraph {ctx : Ctx} {t : Triple} (ht : t ∈ (nodesFragment ctx opts).lines) :
    t.s ≠ .iri (pendingGraph ctx.cid "nodes") ∧ t.o ≠ .iri (pendingGraph ctx.cid "nodes") := by
  obtain ⟨node, _, ht⟩ := List.mem_flatMap.mp (Fragment.mem_ofTriples.mp ht)
  have hnode : OfEntity { ctx with index := ∅ } (generationOf ctx opts node).toList t := of_mem_nodeTriples ht
  refine hnode.ne_pendingGraph (by simp) fun e he => ?_
  have hempty : (∅ : KeyMap Json).toList = [] := rfl
  have hmem := (List.mem_filter.mp he).1
  rw [hempty] at hmem
  cases hmem

theorem nodes_renames_iff (hreal : HexText real) (hne : real ≠ "") :
    Renames (nodesFragment (ctxOf input opts) opts)
        ⟨.k8sNodes (ctxOf input opts).cid real, rehash (nodesFragment (ctxOf input opts) opts) real⟩ ↔
      NameOnly (nodesFragment (ctxOf input opts) opts) := by
  have hgraph : (nodesFragment (ctxOf input opts) opts).graph = pendingGraph (ctxOf input opts).cid "nodes" := rfl
  constructor
  · exact fun h => nameOnly_of_rehash hreal hne h.lines
  · intro h
    have hlines : rehash (nodesFragment (ctxOf input opts) opts) real
        = (nodesFragment (ctxOf input opts) opts).lines.image
          (renameTriple (nodesFragment (ctxOf input opts) opts).graph
            (Iri.k8sNodesFragment (ctxOf input opts).cid real)) := by
      refine rehash_of_nameOnly h (fun t ht => ?_) fun t ht hg => ?_
      · obtain ⟨node, _, ht⟩ := List.mem_flatMap.mp (Fragment.mem_ofTriples.mp ht)
        exact (described_node ht).replace_p
      · obtain ⟨hs, ho⟩ := nodes_ne_pendingGraph ht
        rw [hgraph, List.mem_cons, List.mem_singleton] at hg
        exact hg.elim (fun heq => absurd heq.symm hs) fun heq => absurd heq.symm ho
    refine ⟨hlines, ?_⟩
    show (rehash (nodesFragment (ctxOf input opts) opts) real).card = _
    rw [hlines]
    refine Finset.card_image_of_injOn (injOn_renameTriple (fun t ht => ?_) fun t ht u hu hts hus => ?_)
    · exact (nodes_ne_pendingGraph ht).2
    · exact absurd hts (nodes_ne_pendingGraph ht).1

/-! ## A parser of the canonical text -/

section Parser

open Fragment

theorem printable_plain {q : Quad} (h : q.Printable plainParse) : PlainText q.g ∧ Triple.Printed ⟨q.s, q.p, q.o⟩ := by
  obtain ⟨hg, ⟨i, hs, hi⟩, hp, ho⟩ := h
  refine ⟨plainText_of_plainParse hg, .inl ⟨i, hs, plainText_of_plainParse hi⟩, plainText_of_plainParse hp, ?_⟩
  rcases ho with ⟨j, hj, hacc⟩ | ⟨v, dt, hj, hacc⟩
  · exact hj ▸ plainText_of_plainParse hacc
  · exact hj ▸ plainText_of_plainParse hacc

/-- The parser that gives back the quads of a canonical text. -/
noncomputable def readBack : String → Option (List Quad) := readPrinted (Quad.Printable plainParse)

theorem readBack_reads : ReadsNquads (Quad.Printable plainParse) readBack :=
  readPrinted_reads fun _ => printable_plain

end Parser

variable {x : Extern} {now : String} {accepts : String → Bool} {parse : String → Option (List Quad)}

/-- The final fragments are the pending ones under another name exactly when the placeholder stands in
no other IRI and in no literal of them. -/
theorem buildSnapshot_renames_iff (h : ParsesIris accepts) (hparse : ReadsNquads (Quad.Printable accepts) parse)
    (hx : ∀ bs, HexText (x.sha256Hex bs) ∧ x.sha256Hex bs ≠ "")
    (hret : mintSnapshot accepts x now input opts = .ok (buildSnapshot x now input opts)) :
    (Renames (pendingSnapshot (ctxOf input opts) input opts.state)
      (buildSnapshotText parse x now input opts).snapshot ∧
      Renames (nodesFragment (ctxOf input opts) opts) (buildSnapshotText parse x now input opts).nodes) ↔
    NameOnly (pendingSnapshot (ctxOf input opts) input opts.state) ∧
      NameOnly (nodesFragment (ctxOf input opts) opts) := by
  rw [buildSnapshotText_eq h hparse (fun bs => (hx bs).1) hret]
  exact and_congr (snapshot_renames_iff (hx _).1 (hx _).2) (nodes_renames_iff (hx _).1 (hx _).2)

theorem mintSnapshot_worker : mintSnapshot plainParse workerExtern "2026-01-01T00:00:00Z"
    { objects := [annotatedNode "9w5c0x"] } homeOptions
      = .ok (buildSnapshot workerExtern "2026-01-01T00:00:00Z" { objects := [annotatedNode "9w5c0x"] }
        homeOptions) := by
  refine (mintSnapshot_ok_iff plainParse_parses workerExtern_hex).mpr ⟨home_kinds _, fun node hnode g hg => ?_⟩
  have hgen : generationOf (ctxOf { objects := [annotatedNode "9w5c0x"] } homeOptions) homeOptions
      (annotatedNode "9w5c0x") = some "9w5c0x" := by decide
  rw [home_nodes, List.mem_singleton] at hnode
  rw [hnode, hgen, Option.mem_some_iff] at hg
  rw [← hg]
  decide +kernel

theorem workerExtern_ne (bs : List UInt8) : workerExtern.sha256Hex bs ≠ "" := by
  show "b42b55289dc7d173dd6f62cb75f39408fc9046faa8aded90685e139b3bf4e829" ≠ ""
  decide

theorem buildSnapshot_renames_iff_worker :
    (Renames (pendingSnapshot (ctxOf { objects := [annotatedNode "9w5c0x"] } homeOptions)
          { objects := [annotatedNode "9w5c0x"] } .live)
        (buildSnapshotText readBack workerExtern "2026-01-01T00:00:00Z" { objects := [annotatedNode "9w5c0x"] }
          homeOptions).snapshot ∧
      Renames (nodesFragment (ctxOf { objects := [annotatedNode "9w5c0x"] } homeOptions) homeOptions)
        (buildSnapshotText readBack workerExtern "2026-01-01T00:00:00Z" { objects := [annotatedNode "9w5c0x"] }
          homeOptions).nodes) ↔
    NameOnly (pendingSnapshot (ctxOf { objects := [annotatedNode "9w5c0x"] } homeOptions)
        { objects := [annotatedNode "9w5c0x"] } .live) ∧
      NameOnly (nodesFragment (ctxOf { objects := [annotatedNode "9w5c0x"] } homeOptions) homeOptions) :=
  buildSnapshot_renames_iff plainParse_parses readBack_reads (fun bs => ⟨workerExtern_hex bs, workerExtern_ne bs⟩)
    mintSnapshot_worker

/-- A cluster that is called what the placeholder is loses its name. -/
theorem cluster_renamed :
    ParsesIris plainParse ∧ ReadsNquads (Quad.Printable plainParse) readBack ∧
      (∀ bs, HexText (workerExtern.sha256Hex bs) ∧ workerExtern.sha256Hex bs ≠ "") ∧
      mintSnapshot plainParse workerExtern "2026-01-01T00:00:00Z" { objects := [] }
          { clusterId := "PENDINGHASH", state := .live }
        = .ok (buildSnapshot workerExtern "2026-01-01T00:00:00Z" { objects := [] }
          { clusterId := "PENDINGHASH", state := .live }) ∧
      ¬ Renames (pendingSnapshot (ctxOf { objects := [] } { clusterId := "PENDINGHASH", state := .live })
          { objects := [] } .live)
        (buildSnapshotText readBack workerExtern "2026-01-01T00:00:00Z" { objects := [] }
          { clusterId := "PENDINGHASH", state := .live }).snapshot := by
  have hret : mintSnapshot plainParse workerExtern "2026-01-01T00:00:00Z" { objects := [] }
      { clusterId := "PENDINGHASH", state := .live }
        = .ok (buildSnapshot workerExtern "2026-01-01T00:00:00Z" { objects := [] }
          { clusterId := "PENDINGHASH", state := .live }) := by
    refine (mintSnapshot_ok_iff plainParse_parses workerExtern_hex).mpr ⟨fun o ho => ?_, fun node hnode => ?_⟩
    · cases ho
    · have hnone : (ctxOf { objects := [] } { clusterId := "PENDINGHASH", state := .live }).ofKind "Node" = [] := rfl
      rw [hnone] at hnode
      cases hnode
  refine ⟨plainParse_parses, readBack_reads, fun bs => ⟨workerExtern_hex bs, workerExtern_ne bs⟩, hret, fun h => ?_⟩
  rw [buildSnapshotText_eq plainParse_parses readBack_reads workerExtern_hex hret] at h
  have hnameOnly := (snapshot_renames_iff (workerExtern_hex _) (workerExtern_ne _)).mp h
  have hmem : addStr (Iri.k8sCluster "PENDINGHASH") (k8s "clusterId") "PENDINGHASH"
      ∈ (pendingSnapshot (ctxOf { objects := [] } { clusterId := "PENDINGHASH", state := .live })
        { objects := [] } .live).lines := mem_pendingSnapshot_head (by simp [snapshotHead, ctxOf])
  rcases hnameOnly _ hmem (.literal "PENDINGHASH" (xsd "string")) (by simp [addStr, addTyped, add]) with heq | hno
  · cases heq
  · exact hno (.inl occurs_placeholder)

end Nix2Rdf.K8s
