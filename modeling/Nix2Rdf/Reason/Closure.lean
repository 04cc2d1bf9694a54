import Nix2Rdf.Reason.Select

/-!
# The closure of a selection

A selection with its closure names the least set of fragments that has those it chooses, and with a
fragment those in the store that its triples refer to. The queue, what was seen and the order of the
roots leave no trace in it.
-/

namespace Nix2Rdf.Reason

open Paths

variable {Bytes : Type} (r : FragmentReader Bytes) (d : Disk Bytes)

/-! ## The least set -/

/-- The fragment says something of an entity that a fragment of this kind defines, or builds. -/
inductive Refers (f : Fragment) : FragmentKind → Prop
  | entity {t : Triple} {o : Iri} {k k' : FragmentKind} : t ∈ f.lines → t.p ∈ entityPredicates → t.o = .iri o →
      fragmentForIri o = .ok (some k') → k ∈ withOut k' → Refers f k
  | cluster {t : Triple} {o : Iri} {k : FragmentKind} : t ∈ f.lines → t.p ∈ clusterPredicates → t.o = .iri o →
      fragmentForIri o = .ok (some k) → Refers f k

/-- The paths that a selection names itself. -/
inductive Chosen (sel : InputSelection) : FragmentPath → Prop
  | path {p : FragmentPath} : p ∈ sel.paths → Chosen sel p
  | snapshot {sub rel : String} : sel.allSnapshots = true →
    sub ∈ ["pin", "gen", "image", "commit", "nixpkgs", "k8s"] →
      rel ∈ d.store.fragmentPathsUnder sub → Chosen sel (.inside rel)
  | root {iri : Iri} {k : FragmentKind} : iri ∈ sel.roots → fragmentForIri iri = .ok (some k) →
      Chosen sel (pathOfKind k)

/-- The fragments of the closure, each with a path that it is found at. -/
inductive Included (sel : InputSelection) : FragmentPath → Fragment → Prop
  | chosen {p : FragmentPath} {f : Fragment} : Chosen d sel p → d.file? p = some (r.encode f.quads) →
      Included sel p f
  | refers {p : FragmentPath} {f f' : Fragment} {k : FragmentKind} : Included sel p f → Refers f k →
      d.file? (pathOfKind k) = some (r.encode f'.quads) → Included sel (pathOfKind k) f'

/-! ## What is on the disk -/

/-- The bytes are a fragment that has a triple. -/
def IsFragment (b : Bytes) : Prop := ∃ f : Fragment, Accepted r f ∧ f.lines.Nonempty ∧ b = r.encode f.quads

/-- What is found is a file with a fragment. -/
def LeadsToFragment (n : FileTree.Node Bytes) : Prop := ∃ b, n = .file b ∧ IsFragment r b

/-- Fragment files hold fragments, and one graph is not in two of them. The explicit paths lead to such
files, or to nothing, and where their components lead. -/
structure Fragments (sel : InputSelection) : Prop where
  store : ∀ (rel : String) (n : FileTree.Node Bytes), d.store.look rel = some n →
    Text.endsWith FragmentKind.suffix rel = true → LeadsToFragment r n
  paths : ∀ p ∈ sel.paths, ∀ n, d.look p = some n → LeadsToFragment r n
  spelled : Spelled d sel
  distinct : ∀ (p q : FragmentPath) (f f' : Fragment), d.file? p = some (r.encode f.quads) →
    d.file? q = some (r.encode f'.quads) → f.graph = f'.graph → f.quads = f'.quads

/-- Every IRI escapes its percent signs. -/
def Escapes : Prop := ∀ iri, r.accepts iri = true → IriSyntax.escaped iri.toList = true

variable {r d}

/-! ## One fragment -/

/-- The kinds that the objects of some predicates are mapped to. -/
theorem mentioned_toNquads (hiri : Escapes r) {f : Fragment} (h : Accepted r f) (ps : List Iri) :
    ∃ ks, mentioned f.toNquads ps = .ok ks ∧
      ∀ k, k ∈ ks ↔ ∃ t ∈ f.lines, t.p ∈ ps ∧ ∃ o, t.o = .iri o ∧ fragmentForIri o = .ok (some k) := by
  have hobject : ∀ o, o ∈ ps.flatMap (objectsOf f.toNquads) ↔ ∃ t ∈ f.lines, t.p ∈ ps ∧ t.o = .iri o := by
    intro o
    simp only [List.mem_flatMap, Fragment.mem_objectsOf_toNquads h.plain.printed.unbroken]
    constructor
    · intro ho
      obtain ⟨p, hp, t, ht, rfl, ho⟩ := ho
      exact ⟨t, ht, hp, ho⟩
    · intro ho
      obtain ⟨t, ht, hp, ho⟩ := ho
      exact ⟨t.p, hp, t, ht, rfl, ho⟩
  obtain ⟨ks, hks⟩ := Result.exists_mapM (f := fragmentForIri) fun o ho => by
    obtain ⟨t, ht, _, hto⟩ := (hobject o).mp ho
    have hacc := (h.lines t ht).2.2
    rw [hto] at hacc
    exact fragmentForIri_escaped (hiri o hacc)
  refine ⟨ks.filterMap fun k => k, by rw [mentioned, hks]; rfl, fun k => ?_⟩
  rw [List.mem_filterMap]
  constructor
  · intro hk
    obtain ⟨k', hk', rfl⟩ := hk
    obtain ⟨o, ho, hok⟩ := Result.mem_of_mapM hks hk'
    obtain ⟨t, ht, hp, hto⟩ := (hobject o).mp ho
    exact ⟨t, ht, hp, o, hto, hok⟩
  · intro hk
    obtain ⟨t, ht, hp, o, hto, hok⟩ := hk
    obtain ⟨k', hk', hok'⟩ := Result.mem_mapM hks ((hobject o).mpr ⟨t, ht, hp, hto⟩)
    rw [hok, Except.ok.injEq] at hok'
    exact ⟨k', hk', hok'.symm⟩

theorem refsOf_toNquads (hiri : Escapes r) {f : Fragment} (h : Accepted r f) :
    ∃ ks, refsOf f.toNquads = .ok ks ∧ ∀ k, k ∈ ks ↔ Refers f k := by
  obtain ⟨entities, hentities, hentity⟩ := mentioned_toNquads hiri h entityPredicates
  obtain ⟨cluster, hcluster, hmem⟩ := mentioned_toNquads hiri h clusterPredicates
  refine ⟨entities.flatMap withOut ++ cluster, by rw [refsOf, hentities, hcluster]; rfl, fun k => ?_⟩
  rw [List.mem_append, List.mem_flatMap]
  constructor
  · intro hk
    rcases hk with ⟨k', hk', hk⟩ | hk
    · obtain ⟨t, ht, hp, o, ho, hok⟩ := (hentity k').mp hk'
      exact .entity ht hp ho hok hk
    · obtain ⟨t, ht, hp, o, ho, hok⟩ := (hmem k).mp hk
      exact .cluster ht hp ho hok
  · intro hk
    cases hk with
    | entity ht hp ho hok hk => exact .inl ⟨_, (hentity _).mpr ⟨_, ht, hp, _, ho, hok⟩, hk⟩
    | cluster ht hp ho hok => exact .inr ((hmem k).mpr ⟨_, ht, hp, _, ho, hok⟩)

/-- A fragment is read, and what it refers to and is there follows it. -/
theorem expand_fragment (hiri : Escapes r) {f : Fragment} (h : Accepted r f) (hne : f.lines.Nonempty)
    {p : FragmentPath} (hfile : d.file? p = some (r.encode f.quads)) :
    ∃ next, expand r d true p = .ok (some (⟨f.graph, d.abs p, f.toNquads⟩, next)) ∧
      ∀ q, q ∈ next ↔ ∃ k, Refers f k ∧ d.exists? (pathOfKind k) = true ∧ q = pathOfKind k := by
  obtain ⟨refs, hrefs, hmem⟩ := refsOf_toNquads hiri h
  refine ⟨_, expand_eq_some.mpr ⟨_, refs, hfile, readInput_fragment h hne p, hrefs, rfl⟩, fun q => ?_⟩
  rw [List.mem_filter, List.mem_map]
  constructor
  · intro hq
    obtain ⟨⟨k, hk, rfl⟩, hexists⟩ := hq
    exact ⟨k, (hmem k).mp hk, hexists, rfl⟩
  · intro hq
    obtain ⟨k, hk, hexists, rfl⟩ := hq
    exact ⟨⟨k, (hmem k).mpr hk, rfl⟩, hexists⟩

/-! ## The queue -/

section Selection

variable {sel : InputSelection}

/-- The queue is filled with what the selection names, in some order. -/
theorem queueOf_chosen (hiri : Escapes r) (hroots : ∀ iri ∈ sel.roots, r.accepts iri = true)
    (hev : sel.everything = false) :
    ∃ queue, queueOf d sel = .ok queue ∧ ∀ p, p ∈ stackOf queue ↔ Chosen d sel p := by
  obtain ⟨ks, hks⟩ := Result.exists_mapM (f := fragmentForIri) fun iri hi =>
    fragmentForIri_escaped (hiri iri (hroots iri hi))
  have hqueue : queueOf d sel = .ok (sel.paths
      ++ (if sel.allSnapshots then
          (["pin", "gen", "image", "commit", "nixpkgs", "k8s"].flatMap d.store.fragmentPathsUnder).map .inside
        else [])
      ++ (ks.filterMap fun k => k).map fun k => .inside k.relativePath) := by
    rw [queueOf, if_neg (by simp [hev]), hks]
    rfl
  refine ⟨_, hqueue, fun p => ?_⟩
  rw [stackOf, List.mem_reverse]
  constructor
  · intro hp
    rcases List.mem_append.mp hp with hq | hq
    · rcases List.mem_append.mp hq with hq | hq
      · exact .path hq
      · split at hq
        · rename_i hall
          obtain ⟨rel, hrel, rfl⟩ := List.mem_map.mp hq
          obtain ⟨sub, hsub, hrel⟩ := List.mem_flatMap.mp hrel
          exact .snapshot hall hsub hrel
        · cases hq
    · obtain ⟨k, hk, rfl⟩ := List.mem_map.mp hq
      obtain ⟨k', hk', rfl⟩ := List.mem_filterMap.mp hk
      obtain ⟨iri, hi, hok⟩ := Result.mem_of_mapM hks hk'
      exact .root hi hok
  · intro hp
    cases hp with
    | path hp => exact List.mem_append_left _ (List.mem_append_left _ hp)
    | snapshot hall hsub hrel =>
        refine List.mem_append_left _ (List.mem_append_right _ ?_)
        rw [if_pos hall]
        exact List.mem_map_of_mem (List.mem_flatMap.mpr ⟨_, hsub, hrel⟩)
    | root hi hok =>
        obtain ⟨k', hk', hok'⟩ := Result.mem_mapM hks hi
        rw [hok, Except.ok.injEq] at hok'
        exact List.mem_append_right _ (List.mem_map_of_mem (List.mem_filterMap.mpr ⟨k', hk', hok'.symm⟩))

end Selection

/-! ## Files and fragments -/

theorem lines_eq_image (f : Fragment) : f.lines = f.quads.image Quad.triple := by
  rw [Fragment.quads, Finset.image_image]
  exact Finset.image_id.symm

/-- The bytes of a fragment are those of no other one. -/
theorem IsFragment.accepted {f : Fragment} (h : IsFragment r (r.encode f.quads)) :
    Accepted r f ∧ f.lines.Nonempty := by
  obtain ⟨f', hacc, hne, heq⟩ := h
  have hquads : f.quads = f'.quads := by
    have hdecode := congrArg r.decode heq
    rw [r.decode_encode, r.decode_encode, Option.some.injEq] at hdecode
    exact hdecode
  have hlines : f.lines = f'.lines := by rw [lines_eq_image, lines_eq_image, hquads]
  have hgraph : f.graph = f'.graph := by
    obtain ⟨t, ht⟩ := hne
    have hmem : t.inGraph f'.graph ∈ f.quads := by
      rw [hquads]
      exact Finset.mem_image_of_mem _ ht
    obtain ⟨u, _, hu⟩ := Finset.mem_image.mp hmem
    exact congrArg Quad.g hu
  rw [hlines]
  refine ⟨⟨?_, fun t ht => hacc.lines t (hlines ▸ ht)⟩, hne⟩
  rw [hgraph]
  exact hacc.graph

section Disk

variable {sel : InputSelection} {p : FragmentPath} {f : Fragment}

theorem LeadsToFragment.isFragment {n : FileTree.Node Bytes} {b : Bytes} (h : LeadsToFragment r n)
    (hn : n = .file b) : IsFragment r b := by
  obtain ⟨b', heq, hfragment⟩ := h
  rw [hn, FileTree.Node.file.injEq] at heq
  rwa [heq]

theorem Fragments.kind (h : Fragments r d sel) {k : FragmentKind} {n : FileTree.Node Bytes}
    (hn : d.look (pathOfKind k) = some n) : LeadsToFragment r n :=
  h.store _ n hn (endsWith_relativePath k)

theorem Fragments.chosen (h : Fragments r d sel) (hp : Chosen d sel p) {n : FileTree.Node Bytes}
    (hn : d.look p = some n) : LeadsToFragment r n := by
  cases hp with
  | path hp => exact h.paths _ hp n hn
  | snapshot _ _ hrel => exact h.store _ n hn (Store.mem_fragmentPathsUnder.mp hrel).2.2
  | root _ _ => exact h.kind hn

theorem Included.file (h : Included r d sel p f) : d.file? p = some (r.encode f.quads) := by
  cases h with
  | chosen _ hfile => exact hfile
  | refers _ _ hfile => exact hfile

theorem Included.isFragment (h : Included r d sel p f) (hf : Fragments r d sel) : Accepted r f ∧
    f.lines.Nonempty := by
  have hfound := Disk.file?_eq_some.mp h.file
  refine IsFragment.accepted ?_
  cases h with
  | chosen hp _ => exact (hf.chosen hp hfound).isFragment rfl
  | refers _ _ _ => exact (hf.kind hfound).isFragment rfl

/-- The file at a path is one fragment, whatever way led there. -/
theorem Included.of_quads {f' : Fragment} (h : Included r d sel p f) (hquads : f'.quads = f.quads) :
    Included r d sel p f' := by
  cases h with
  | chosen hp hfile => exact .chosen hp (by rw [hquads]; exact hfile)
  | refers hprev hk hfile => exact .refers hprev hk (by rw [hquads]; exact hfile)

/-! ## The search reaches the least set -/

section Reach

variable {stack : List FragmentPath}

theorem fragment_of_reach (hf : Fragments r d sel) (hstack : ∀ p, p ∈ stack → Chosen d sel p)
    (h : (fragmentGraph r d true).Reach stack p) {n : FileTree.Node Bytes} (hn : d.look p = some n) :
    LeadsToFragment r n := by
  cases h with
  | root hp => exact hf.chosen (hstack p hp) hn
  | next _ hexp hq =>
      obtain ⟨_, refs, _, _, _, rfl⟩ := expand_eq_some.mp hexp
      obtain ⟨k, _, rfl⟩ := List.mem_map.mp (List.mem_filter.mp hq).1
      exact hf.kind hn

theorem included_of_reach (hiri : Escapes r) (hf : Fragments r d sel) (hstack : ∀ p, p ∈ stack → Chosen d sel p)
    (h : (fragmentGraph r d true).Reach stack p) (hfile : d.file? p = some (r.encode f.quads)) :
    Included r d sel p f := by
  induction h generalizing f with
  | root hp => exact .chosen (hstack _ hp) hfile
  | @next q n i next hq hexp hn ih =>
      obtain ⟨b, _, hb, _⟩ := expand_eq_some.mp hexp
      obtain ⟨f', hacc, hne, rfl⟩ := (fragment_of_reach hf hstack hq (Disk.file?_eq_some.mp hb)).isFragment rfl
      obtain ⟨next', hexp', hmem⟩ := expand_fragment hiri hacc hne hb
      have heq : expand r d true q = .ok (some (i, next)) := hexp
      rw [hexp', Except.ok.injEq, Option.some.injEq, Prod.mk.injEq] at heq
      rw [← heq.2] at hn
      obtain ⟨k, hk, _, rfl⟩ := (hmem n).mp hn
      exact .refers (ih hb) hk hfile

theorem reach_of_included (hiri : Escapes r) (hf : Fragments r d sel) (hstack : ∀ p, Chosen d sel p → p ∈ stack)
    (h : Included r d sel p f) : (fragmentGraph r d true).Reach stack p := by
  induction h with
  | chosen hp _ => exact .root (hstack _ hp)
  | refers hprev hk hfile ih =>
      obtain ⟨hacc, hne⟩ := hprev.isFragment hf
      obtain ⟨next, hexp, hmem⟩ := expand_fragment hiri hacc hne hprev.file
      refine .next ih hexp ((hmem _).mpr ⟨_, hk, ?_, rfl⟩)
      rw [Disk.exists?, Disk.file?_eq_some.mp hfile]
      rfl

end Reach

end Disk

/-! ## What is returned -/

/-- The inputs are the fragments of the closure, each of them once, in the order of their graphs. -/
structure Returns (r : FragmentReader Bytes) (d : Disk Bytes) (sel : InputSelection) (inputs : List InputGraph) :
    Prop where
  sorted : (inputs.map InputGraph.graph).Pairwise (· < ·)
  complete : ∀ p f, Included r d sel p f → ∃ i ∈ inputs, i.graph = f.graph ∧ i.nquads = f.toNquads
  sound : ∀ i ∈ inputs, ∃ p f, Included r d sel p f ∧ i = ⟨f.graph, d.abs p, f.toNquads⟩

/-- Both selections name the same, in any order and any number of times. -/
structure SameChoice (sel sel' : InputSelection) : Prop where
  paths : ∀ p, p ∈ sel'.paths ↔ p ∈ sel.paths
  roots : ∀ iri, iri ∈ sel'.roots ↔ iri ∈ sel.roots
  closure : sel'.closure = sel.closure
  allSnapshots : sel'.allSnapshots = sel.allSnapshots
  everything : sel'.everything = sel.everything

theorem sorted_byGraph (found : List (FragmentPath × InputGraph)) :
    (((byGraph found).toList.map Prod.snd).map InputGraph.graph).Pairwise (· < ·) := by
  have hkeys : ((byGraph found).toList.map Prod.snd).map InputGraph.graph = (byGraph found).toList.map Prod.fst := by
    rw [List.map_map]
    refine List.map_congr_left fun e he => ?_
    exact (of_byGraph (Std.ExtTreeMap.mem_toList_iff_getElem?_eq_some.mp he)).1
  rw [hkeys, List.pairwise_map]
  exact Std.ExtTreeMap.ordered_keys_toList.imp fun h => compare_lt_iff_lt.mp h

section Result

variable {sel sel' : InputSelection} {inputs inputs' : List InputGraph}

theorem returns_selectInputs (hiri : Escapes r) (hroots : ∀ iri ∈ sel.roots, r.accepts iri = true)
    (hclosure : sel.closure = true) (hev : sel.everything = false) (hf : Fragments r d sel) :
    ∃ inputs, selectInputs r d sel = .ok inputs ∧ Returns r d sel inputs := by
  obtain ⟨queue, hqueue, hstack⟩ := queueOf_chosen (d := d) hiri hroots hev
  have hfollow : sel.follow = true := by rw [InputSelection.follow, hclosure, hev]; rfl
  have hselected : ∀ p, Selected r d sel p ↔ (fragmentGraph r d true).Reach (stackOf queue) p := by
    intro p
    rw [Selected, hfollow]
    constructor
    · intro h
      obtain ⟨queue', hqueue', hreach⟩ := h
      rw [hqueue, Except.ok.injEq] at hqueue'
      rw [hqueue']
      exact hreach
    · exact fun h => ⟨queue, hqueue, h⟩
  have hreads : ∀ p f, Included r d sel p f →
      ∃ next, expand r d true p = .ok (some (⟨f.graph, d.abs p, f.toNquads⟩, next)) := by
    intro p f h
    obtain ⟨hacc, hne⟩ := h.isFragment hf
    obtain ⟨next, hexp, _⟩ := expand_fragment hiri hacc hne h.file
    exact ⟨next, hexp⟩
  have hincluded : ∀ p b, Selected r d sel p → d.file? p = some b →
      ∃ f, Included r d sel p f ∧ b = r.encode f.quads := by
    intro p b hp hb
    have hreach := (hselected p).mp hp
    obtain ⟨f, _, _, rfl⟩ := (fragment_of_reach hf (fun q hq => (hstack q).mp hq) hreach
      (Disk.file?_eq_some.mp hb)).isFragment rfl
    exact ⟨f, included_of_reach hiri hf (fun q hq => (hstack q).mp hq) hreach hb, rfl⟩
  obtain ⟨inputs, hinputs⟩ : ∃ inputs, selectInputs r d sel = .ok inputs := by
    refine (selectInputs_succeeds_iff hf.spelled).mpr ⟨⟨queue, hqueue⟩, fun p hp => ?_⟩
    rw [hfollow]
    cases hn : d.look p with
    | none => exact ⟨none, by rw [expand, hn]⟩
    | some n =>
        obtain ⟨b, rfl, _⟩ := fragment_of_reach hf (fun q hq => (hstack q).mp hq) ((hselected p).mp hp) hn
        obtain ⟨f, hincl, _⟩ := hincluded p b hp (Disk.file?_eq_some.mpr hn)
        obtain ⟨next, hexp⟩ := hreads p f hincl
        exact ⟨_, hexp⟩
  have hsound : ∀ i ∈ inputs, ∃ p f, Included r d sel p f ∧ i = ⟨f.graph, d.abs p, f.toNquads⟩ := by
    intro i hi
    obtain ⟨p, next, hp, hexp⟩ := selected_of_mem hinputs hi
    rw [hfollow] at hexp
    obtain ⟨b, _, hb, _⟩ := expand_eq_some.mp hexp
    obtain ⟨f, hincl, _⟩ := hincluded p b hp hb
    obtain ⟨next', hexp'⟩ := hreads p f hincl
    rw [hexp', Except.ok.injEq, Option.some.injEq, Prod.mk.injEq] at hexp
    exact ⟨p, f, hincl, hexp.1.symm⟩
  refine ⟨inputs, hinputs, ?_, fun p f h => ?_, hsound⟩
  · obtain ⟨_, found, _, _, rfl⟩ := selectInputs_eq_ok.mp hinputs
    exact sorted_byGraph found
  · obtain ⟨next, hexp⟩ := hreads p f h
    have hp := (hselected p).mpr (reach_of_included hiri hf (fun q hq => (hstack q).mpr hq) h)
    rw [← hfollow] at hexp
    obtain ⟨i, hi, hgraph⟩ := mem_of_selected hf.spelled hinputs hp hexp
    obtain ⟨q, f', h', rfl⟩ := hsound i hi
    refine ⟨_, hi, hgraph, ?_⟩
    -- A file that has the graph of another one holds the same quads.
    have hquads := hf.distinct q p f' f h'.file h.file hgraph
    rw [← printQuads_quads, ← printQuads_quads, hquads]

theorem SameChoice.chosen (h : SameChoice sel sel') {p : FragmentPath} (hp : Chosen d sel' p) : Chosen d sel p := by
  cases hp with
  | path hp => exact .path ((h.paths _).mp hp)
  | snapshot hall hsub hrel => exact .snapshot (h.allSnapshots ▸ hall) hsub hrel
  | root hi hok => exact .root ((h.roots _).mp hi) hok

theorem SameChoice.included (h : SameChoice sel sel') {p : FragmentPath} {f : Fragment}
    (hp : Included r d sel' p f) : Included r d sel p f := by
  induction hp with
  | chosen hp hfile => exact .chosen (h.chosen hp) hfile
  | refers _ hk hfile ih => exact .refers ih hk hfile

theorem SameChoice.symm (h : SameChoice sel sel') : SameChoice sel' sel where
  paths p := (h.paths p).symm
  roots iri := (h.roots iri).symm
  closure := h.closure.symm
  allSnapshots := h.allSnapshots.symm
  everything := h.everything.symm

theorem SameChoice.fragments (h : SameChoice sel sel') (hf : Fragments r d sel) : Fragments r d sel' where
  store := hf.store
  paths p hp := hf.paths p ((h.paths p).mp hp)
  spelled p hp := hf.spelled p ((h.paths p).mp hp)
  distinct := hf.distinct

/-- Two lists that a key sorts strictly are equal if they have the same members. -/
theorem eq_of_sorted {β : Type} {key : β → String} {l l' : List β} (h : (l.map key).Pairwise (· < ·))
    (h' : (l'.map key).Pairwise (· < ·)) (hmem : ∀ b, b ∈ l' ↔ b ∈ l) : l' = l := by
  rw [List.pairwise_map] at h h'
  have hne : ∀ {a b : β}, key a < key b → a ≠ b := by
    intro a b hlt heq
    rw [heq] at hlt
    exact lt_irrefl _ hlt
  have hperm : l'.Perm l := (List.perm_ext_iff_of_nodup (h'.imp hne) (h.imp hne)).mpr hmem
  exact hperm.eq_of_pairwise (fun a b _ _ hab hba => absurd hba (lt_asymm hab)) h' h

theorem Returns.mem_pairs (h : Returns r d sel inputs) {e : String × String} :
    e ∈ inputs.map (fun i => (i.graph, i.nquads)) ↔
      ∃ p f, Included r d sel p f ∧ e = (f.graph, f.toNquads) := by
  rw [List.mem_map]
  constructor
  · intro he
    obtain ⟨i, hi, rfl⟩ := he
    obtain ⟨p, f, hincl, rfl⟩ := h.sound i hi
    exact ⟨p, f, hincl, rfl⟩
  · intro he
    obtain ⟨p, f, hincl, rfl⟩ := he
    obtain ⟨i, hi, hgraph, htext⟩ := h.complete p f hincl
    exact ⟨i, hi, by rw [hgraph, htext]⟩

/-- Where each file has one path, that path is reported. -/
theorem Returns.mem_iff (h : Returns r d sel inputs) (hf : Fragments r d sel)
    (hone : ∀ p q f, Included r d sel p f → Included r d sel q f → p = q) {i : InputGraph} :
    i ∈ inputs ↔ ∃ p f, Included r d sel p f ∧ i = ⟨f.graph, d.abs p, f.toNquads⟩ := by
  refine ⟨h.sound i, fun hi => ?_⟩
  obtain ⟨p, f, hincl, rfl⟩ := hi
  obtain ⟨j, hj, hgraph, _⟩ := h.complete p f hincl
  obtain ⟨q, f', hincl', rfl⟩ := h.sound j hj
  have hquads := hf.distinct q p f' f hincl'.file hincl.file hgraph
  have hpath := hone p q f hincl (hincl'.of_quads hquads.symm)
  rw [← printQuads_quads f, ← hquads, printQuads_quads f', hpath, ← hgraph]
  exact hj

theorem SameChoice.pairs (h : SameChoice sel sel') (hr : Returns r d sel inputs) (hr' : Returns r d sel' inputs') :
    inputs'.map (fun i => (i.graph, i.nquads)) = inputs.map fun i => (i.graph, i.nquads) := by
  refine @eq_of_sorted _ Prod.fst _ _ ?_ ?_ fun e => ?_
  · rw [List.map_map]
    exact hr.sorted
  · rw [List.map_map]
    exact hr'.sorted
  · rw [hr.mem_pairs, hr'.mem_pairs]
    exact exists_congr fun p => exists_congr fun f => and_congr_left' ⟨h.included, h.symm.included⟩

theorem SameChoice.inputs_eq (h : SameChoice sel sel') (hf : Fragments r d sel)
    (hone : ∀ p q f, Included r d sel p f → Included r d sel q f → p = q) (hr : Returns r d sel inputs)
    (hr' : Returns r d sel' inputs') : inputs' = inputs := by
  refine @eq_of_sorted _ InputGraph.graph _ _ hr.sorted hr'.sorted fun i => ?_
  rw [hr.mem_iff hf hone, hr'.mem_iff (h.fragments hf) fun p q f hp hq => hone p q f (h.included hp) (h.included hq)]
  exact exists_congr fun p => exists_congr fun f => and_congr_left' ⟨h.included, h.symm.included⟩

end Result

/-- A selection with its closure returns the least set, and the order and the repetition of what it names
decide at most which path of a file is reported. -/
theorem selectInputs_least {sel : InputSelection} (hiri : Escapes r)
    (hroots : ∀ iri ∈ sel.roots, r.accepts iri = true)
    (hclosure : sel.closure = true) (hev : sel.everything = false) (hf : Fragments r d sel) :
    ∃ inputs, selectInputs r d sel = .ok inputs ∧ Returns r d sel inputs ∧
      ∀ sel', SameChoice sel sel' → ∃ inputs', selectInputs r d sel' = .ok inputs' ∧
        inputs'.map (fun i => (i.graph, i.nquads)) = inputs.map (fun i => (i.graph, i.nquads)) ∧
        ((∀ p q f, Included r d sel p f → Included r d sel q f → p = q) → inputs' = inputs) := by
  obtain ⟨inputs, hinputs, hr⟩ := returns_selectInputs hiri hroots hclosure hev hf
  refine ⟨inputs, hinputs, hr, fun sel' h => ?_⟩
  obtain ⟨inputs', hinputs', hr'⟩ := @returns_selectInputs _ r d sel' hiri
    (fun iri hi => hroots iri ((h.roots iri).mp hi)) (h.closure.trans hclosure) (h.everything.trans hev)
    (h.fragments hf)
  exact ⟨inputs', hinputs', h.pairs hr hr', fun hone => h.inputs_eq hf hone hr hr'⟩

/-! ## Several paths of one file -/

/-- A store with one file, in a directory with another name than a fragment file. -/
structure Alone (st : Store Bytes) (dir name : String) (b : Bytes) : Prop where
  dir_proper : Proper dir
  dir_slash : '/' ∉ dir.toList
  name_slash : '/' ∉ name.toList
  not_fragment : Text.endsWith FragmentKind.suffix dir = false
  files : ∀ p, st.file? p = if dir ++ "/" ++ name = p then some b else none
  dirs : ∀ e ∈ st.dirs, e = "" ∨ e = dir

theorem alone_put {dir name : String} (hdir : Proper dir) (hslash : '/' ∉ dir.toList) (hname : Proper name)
    (hslash' : '/' ∉ name.toList) (hsuffix : Text.endsWith FragmentKind.suffix dir = false) (b : Bytes) :
    Alone (Store.empty.put (dir ++ "/" ++ name) b) dir name b := by
  have hsplit : Text.split '/' (dir ++ "/" ++ name) = [dir, name] := by
    rw [← Text.slash_pair, Text.split_slash (List.cons_ne_nil _ _)]
    simp [hslash, hslash']
  have hfold : [dir, name].foldl resolveStep [] = [name, dir] := foldl_resolveStep (by simp [hdir, hname]) []
  refine ⟨hdir, hslash, hslash', hsuffix, fun p => ?_, fun e he => ?_⟩
  · have hresolve : resolvePath (dir ++ "/" ++ name) = dir ++ "/" ++ name := by
      rw [resolvePath, hsplit, hfold]
      exact Text.slash_pair dir name
    rw [Store.file?_put, Store.file?_empty, hresolve]
  · rw [Store.put, Store.above, hsplit] at he
    have he' : e ∈ [[], [dir]].map fun segs => Text.slash (segs.foldl resolveStep []).reverse := by
      simpa [Store.empty] using he
    simp only [List.map_cons, List.foldl_nil, List.foldl_cons, resolveStep_proper hdir, List.map_nil, List.mem_cons,
      List.not_mem_nil, or_false] at he'
    rcases he' with rfl | rfl
    · exact .inl rfl
    · exact .inr (Text.slash_singleton dir)

theorem prefix_slash {path e : String} (h : Text.startsWith (path ++ "/") e = true) :
    ∃ t, e.toList = path.toList ++ '/' :: t := by
  rw [Text.startsWith, List.isPrefixOf_iff_prefix, String.toList_append] at h
  obtain ⟨t, ht⟩ := h
  exact ⟨t, by rw [← ht]; simp⟩

/-- What has the name of a fragment file there is that file. -/
theorem Alone.look {st : Store Bytes} {dir name rel : String} {b : Bytes} {n : FileTree.Node Bytes}
    (h : Alone st dir name b)
    (hlook : st.look rel = some n) (hrel : Text.endsWith FragmentKind.suffix rel = true) : n = .file b := by
  have hnode := Store.node?_of_look hlook
  have hends := endsWith_resolvePath hrel
  generalize resolvePath rel = path at hnode hends
  have hother : ∀ e, e = "" ∨ e = dir → path ≠ e ∧ ¬ Text.startsWith (path ++ "/") e = true := by
    intro e he
    have hslash : '/' ∉ e.toList := by
      rcases he with rfl | rfl
      · exact List.not_mem_nil
      · exact h.dir_slash
    refine ⟨fun heq => ?_, fun hpre => ?_⟩
    · subst heq
      rcases he with rfl | rfl
      · exact absurd hends (by decide)
      · rw [h.not_fragment] at hends
        cases hends
    · obtain ⟨t, ht⟩ := prefix_slash hpre
      exact hslash (by rw [ht]; simp)
  have hnotDir : ¬ st.isDir path = true := by
    intro hisDir
    rcases Store.isDir_iff.mp hisDir with hup | hcreated | ⟨p, hp, hbelow⟩ | ⟨e, he, hbelow⟩
    · obtain ⟨segs, last, hsegs⟩ := split_of_endsWith hends
      have hlast := hup (last ++ FragmentKind.suffix) (by simp [hsegs])
      have hproper := FragmentKind.proper_suffix last
      exact hlast.elim (fun h => hproper.1 (.inl h)) hproper.2
    · exact (hother _ (h.dirs _ hcreated)).1 rfl
    · rw [h.files] at hp
      split at hp
      · rename_i hpath
        obtain ⟨t, ht⟩ := prefix_slash hbelow
        rw [← hpath, String.toList_append, String.toList_append, List.append_assoc] at ht
        have hcut : dir.toList ++ '/' :: name.toList = path.toList ++ '/' :: t := ht
        have hpath' : '/' ∉ path.toList := by
          intro hmem
          have hcount := congrArg (List.count '/') hcut
          rw [List.count_append, List.count_append, List.count_cons_self, List.count_cons_self,
            List.count_eq_zero_of_not_mem h.dir_slash, List.count_eq_zero_of_not_mem h.name_slash] at hcount
          have hpos := List.count_pos_iff.mpr hmem
          omega
        exact (hother dir (.inr rfl)).1 (String.toList_inj.mp (Text.append_cons_inj h.dir_slash hpath' hcut).1.symm)
      · cases hp
    · exact (hother _ (h.dirs _ he)).2 hbelow
  rw [Store.node?, h.files, if_neg hnotDir] at hnode
  by_cases hpath : dir ++ "/" ++ name = path
  · rw [if_pos hpath] at hnode
    exact (Option.some.inj hnode).symm
  · rw [if_neg hpath] at hnode
    cases hnode


/-- A reader that accepts what an IRI may be: plain characters, and whole escapes. -/
def escapedReader : FragmentReader (Finset Quad) :=
  { plainReader with
    accepts := fun s => plainIri s && IriSyntax.escaped s.toList
    accepts_plain := fun _ h => plainIri_iff.mp (Bool.and_eq_true_iff.mp h).1 }

theorem escapes_escapedReader : Escapes escapedReader := fun _ h => (Bool.and_eq_true_iff.mp h).2

/-- A source that refers to nothing. -/
def lonePin : Fragment := .ofTriples (.pin "x") [Triple.addType (Iri.pin "x") (nix "Source")]

def pinDisk : Disk (Finset Quad) where
  root := "/store"
  store := Store.empty.put "pin/x.nq.zst" lonePin.quads
  outside := ∅

def pinPaths (paths : List String) : InputSelection := { paths := paths.map .inside, closure := true }

theorem accepts_of_plain {s : String} (h : ∀ c ∈ s.toList, iriExcluded c = false ∧ c ≠ '%') :
    escapedReader.accepts s = true := by
  refine Bool.and_eq_true_iff.mpr ⟨plainIri_iff.mpr fun c hc => (h c hc).1, ?_⟩
  exact IriSyntax.escaped_of_not_mem fun hmem => (h '%' hmem).2 rfl

theorem lonePin_accepted : Accepted escapedReader lonePin ∧ lonePin.lines.Nonempty := by
  have hgraph : escapedReader.accepts (Iri.pin "x") = true := accepts_of_plain (by decide)
  have hterms : escapedReader.accepts rdfType = true ∧ escapedReader.accepts (nix "Source") = true :=
    ⟨accepts_of_plain (by decide), accepts_of_plain (by decide)⟩
  refine ⟨⟨hgraph, fun t ht => ?_⟩, ⟨_, Fragment.mem_ofTriples.mpr List.mem_cons_self⟩⟩
  rw [List.mem_singleton.mp (Fragment.mem_ofTriples.mp ht)]
  exact ⟨⟨_, rfl, hgraph⟩, hterms⟩

theorem alone_pinDisk : Alone pinDisk.store "pin" "x.nq.zst" lonePin.quads := by
  have hpath : "pin/x.nq.zst" = "pin" ++ "/" ++ "x.nq.zst" := by decide
  rw [pinDisk, hpath]
  exact alone_put (by decide) (by decide) (by decide) (by decide) (by decide) _

theorem file?_pinDisk {p : FragmentPath} {b : Finset Quad} (h : pinDisk.file? p = some b) : b = lonePin.quads := by
  cases p with
  | inside rel =>
      have hfile := Disk.file?_inside h
      rw [alone_pinDisk.files] at hfile
      split at hfile
      · exact (Option.some.inj hfile).symm
      · cases hfile
  | outside abs =>
      have hmem := Disk.file?_eq_some.mp h
      simp [Disk.look, pinDisk] at hmem

theorem isFragment_lonePin : IsFragment escapedReader lonePin.quads :=
  ⟨lonePin, lonePin_accepted.1, lonePin_accepted.2, rfl⟩

theorem fragments_pinDisk {paths : List String} (h : ∀ rel ∈ paths, Text.endsWith FragmentKind.suffix rel = true) :
    Fragments escapedReader pinDisk (pinPaths paths) where
  store rel n hn hrel := ⟨_, alone_pinDisk.look hn hrel, isFragment_lonePin⟩
  paths p hp n hn := by
    obtain ⟨rel, hrel, rfl⟩ := List.mem_map.mp hp
    exact ⟨_, alone_pinDisk.look hn (h rel hrel), isFragment_lonePin⟩
  spelled p hp := by
    obtain ⟨rel, hrel, rfl⟩ := List.mem_map.mp hp
    exact look_key_inside (h rel hrel)
  distinct p q f f' hp hq _ := (file?_pinDisk hp).trans (file?_pinDisk hq).symm

theorem expand_pinDisk {p : FragmentPath} (h : pinDisk.file? p = some lonePin.quads) :
    expand escapedReader pinDisk true p = .ok (some (⟨lonePin.graph, pinDisk.abs p, lonePin.toNquads⟩, [])) := by
  have hnone : ∀ k, ¬ Refers lonePin k := by
    intro k hk
    have hpred : ∀ t ∈ lonePin.lines, t.p ∉ entityPredicates ++ clusterPredicates := by decide
    cases hk with
    | entity ht hp _ _ _ => exact hpred _ ht (List.mem_append_left _ hp)
    | cluster ht hp _ _ => exact hpred _ ht (List.mem_append_right _ hp)
  obtain ⟨next, hexp, hnext⟩ := expand_fragment escapes_escapedReader lonePin_accepted.1 lonePin_accepted.2 h
  have hnil : next = [] := by
    refine List.eq_nil_iff_forall_not_mem.mpr fun q hq => ?_
    obtain ⟨k, hk, _⟩ := (hnext q).mp hq
    exact hnone k hk
  rw [hexp, hnil]

/-- What the search of that disk does where a path leads to the file, and where it leads to nothing. -/
theorem visit_pinDisk {s : Worklist.State FragmentPath FragmentPath InputGraph} {p : FragmentPath}
    {rest : List FragmentPath} (hs : p.key ∉ s.seen) (hp : pinDisk.file? p = some lonePin.quads) :
    (fragmentGraph escapedReader pinDisk true).visit s p rest =
      .ok ⟨rest, p.key :: s.seen, s.found ++ [(p, ⟨lonePin.graph, pinDisk.abs p, lonePin.toNquads⟩)]⟩ :=
  have hexp : (fragmentGraph escapedReader pinDisk true).expand p = _ := expand_pinDisk hp
  Worklist.Graph.visit_some hs hexp

theorem visit_nothing {s : Worklist.State FragmentPath FragmentPath InputGraph} {p : FragmentPath}
    {rest : List FragmentPath} (hs : p.key ∉ s.seen) (hp : pinDisk.look p = none) :
    (fragmentGraph escapedReader pinDisk true).visit s p rest = .ok ⟨rest, p.key :: s.seen, s.found⟩ := by
  refine Worklist.Graph.visit_none hs ?_
  show expand escapedReader pinDisk true p = _
  rw [expand, hp]

theorem selectInputs_pinDisk {a b : String} {found : List (FragmentPath × InputGraph)}
    (h : (fragmentGraph escapedReader pinDisk true).search [.inside b, .inside a] = .ok found) :
    selectInputs escapedReader pinDisk (pinPaths [a, b]) = .ok ((byGraph found).toList.map Prod.snd) :=
  selectInputs_eq_ok.mpr ⟨[.inside a, .inside b], found, rfl, h, rfl⟩

theorem mem_byGraph_singleton {g : String} {e : FragmentPath × InputGraph} (hg : e.2.graph = g)
    {found : List (FragmentPath × InputGraph)} (hfound : ∀ f ∈ found, f.2.graph = g) (i : InputGraph) :
    i ∈ (byGraph (found ++ [e])).toList.map Prod.snd ↔ i = e.2 := by
  rw [mem_values]
  constructor
  · intro h
    obtain ⟨g', hg'⟩ := h
    obtain ⟨hgraph, p, hp⟩ := of_byGraph hg'
    have hsame : g = g' := by
      rw [← hgraph]
      rcases List.mem_append.mp hp with hp | hp
      · exact (hfound _ hp).symm
      · rw [List.mem_singleton] at hp
        rw [← hg, ← hp]
    rw [byGraph_append, Std.ExtTreeMap.getElem?_insert, if_pos (compare_eq_iff_eq.mpr (hg.trans hsame))] at hg'
    exact (Option.some.inj hg').symm
  · intro h
    refine ⟨g, ?_⟩
    rw [byGraph_append, Std.ExtTreeMap.getElem?_insert, if_pos (compare_eq_iff_eq.mpr hg), h]

/-- Of two spellings of the file the one that stands first is read last. -/
theorem selectInputs_pair {a b : String} (hne : (FragmentPath.inside a).key ≠ (FragmentPath.inside b).key)
    (ha : pinDisk.file? (.inside a) = some lonePin.quads) (hb : pinDisk.file? (.inside b) = some lonePin.quads) :
    ∃ inputs, selectInputs escapedReader pinDisk (pinPaths [a, b]) = .ok inputs ∧
      ∀ i, i ∈ inputs ↔ i = ⟨lonePin.graph, pinDisk.abs (.inside a), lonePin.toNquads⟩ := by
  have hsearch : (fragmentGraph escapedReader pinDisk true).search [.inside b, .inside a] = .ok
      ([(.inside b, ⟨lonePin.graph, pinDisk.abs (.inside b), lonePin.toNquads⟩)] ++
        [(.inside a, ⟨lonePin.graph, pinDisk.abs (.inside a), lonePin.toNquads⟩)]) := by
    rw [Worklist.Graph.search, Worklist.Graph.run_visit rfl (visit_pinDisk List.not_mem_nil hb),
      Worklist.Graph.run_visit rfl (visit_pinDisk (by simpa using hne) ha), Worklist.Graph.run_nil rfl]
    rfl
  exact ⟨_, selectInputs_pinDisk hsearch, mem_byGraph_singleton rfl (by simp)⟩

/-- A file is not read after a path that has its components and means a directory. -/
theorem selectInputs_asDir {a b : String} (hkey : (FragmentPath.inside a).key = (FragmentPath.inside b).key)
    (ha : pinDisk.file? (.inside a) = some lonePin.quads) (hb : pinDisk.look (.inside b) = none) :
    selectInputs escapedReader pinDisk (pinPaths [a, b]) = .ok [] ∧
      ∃ inputs, selectInputs escapedReader pinDisk (pinPaths [b, a]) = .ok inputs ∧
        ∀ i, i ∈ inputs ↔ i = ⟨lonePin.graph, pinDisk.abs (.inside a), lonePin.toNquads⟩ := by
  have hskipped : (fragmentGraph escapedReader pinDisk true).search [.inside b, .inside a] = .ok [] := by
    rw [Worklist.Graph.search, Worklist.Graph.run_visit rfl (visit_nothing List.not_mem_nil hb),
      Worklist.Graph.run_visit rfl (Worklist.Graph.visit_seen (by rw [List.mem_singleton]; exact hkey)),
      Worklist.Graph.run_nil rfl]
    rfl
  have hread : (fragmentGraph escapedReader pinDisk true).search [.inside a, .inside b] =
      .ok ([] ++ [(.inside a, ⟨lonePin.graph, pinDisk.abs (.inside a), lonePin.toNquads⟩)]) := by
    rw [Worklist.Graph.search, Worklist.Graph.run_visit rfl (visit_pinDisk List.not_mem_nil ha),
      Worklist.Graph.run_visit rfl (Worklist.Graph.visit_seen (by rw [List.mem_singleton]; exact hkey.symm)),
      Worklist.Graph.run_nil rfl]
    rfl
  exact ⟨selectInputs_pinDisk hskipped, _, selectInputs_pinDisk hread, mem_byGraph_singleton rfl (by simp)⟩

theorem order_matters :
    Escapes escapedReader ∧
    (Fragments escapedReader pinDisk (pinPaths ["pin/x.nq.zst", "pin/../pin/x.nq.zst"]) ∧
      SameChoice (pinPaths ["pin/x.nq.zst", "pin/../pin/x.nq.zst"])
        (pinPaths ["pin/../pin/x.nq.zst", "pin/x.nq.zst"]) ∧
      selectInputs escapedReader pinDisk (pinPaths ["pin/x.nq.zst", "pin/../pin/x.nq.zst"]) ≠
        selectInputs escapedReader pinDisk (pinPaths ["pin/../pin/x.nq.zst", "pin/x.nq.zst"])) ∧
    pinDisk.file? (.inside "pin/x.nq.zst") = some lonePin.quads ∧
    selectInputs escapedReader pinDisk (pinPaths ["pin/x.nq.zst", "pin/x.nq.zst/"]) = .ok [] ∧
    ∃ inputs, selectInputs escapedReader pinDisk (pinPaths ["pin/x.nq.zst/", "pin/x.nq.zst"]) = .ok inputs ∧
      ∀ i, i ∈ inputs ↔ i = ⟨lonePin.graph, pinDisk.abs (.inside "pin/x.nq.zst"), lonePin.toNquads⟩ := by
  have hfile : ∀ rel acc, pinDisk.store.enter [] (Text.split '/' rel) = some acc →
      Text.slash acc.reverse = "pin/x.nq.zst" → pinDisk.file? (.inside rel) = some lonePin.quads := by
    intro rel acc henter hacc
    rw [Disk.file?_eq_some]
    show pinDisk.store.look rel = _
    rw [Store.look, henter, Option.bind_some, hacc]
    exact Store.node?_eq_file.mpr (alone_pinDisk.files _)
  have hplain := hfile "pin/x.nq.zst" ["x.nq.zst", "pin"] (by decide +kernel) (by decide)
  have hdots := hfile "pin/../pin/x.nq.zst" ["x.nq.zst", "pin"] (by decide +kernel) (by decide)
  have hslash : pinDisk.look (.inside "pin/x.nq.zst/") = none := by
    have henter : pinDisk.store.enter [] (Text.split '/' "pin/x.nq.zst/") = none := by decide +kernel
    show pinDisk.store.look _ = _
    rw [Store.look, henter]
    rfl
  have hne : (FragmentPath.inside "pin/x.nq.zst").key ≠ (FragmentPath.inside "pin/../pin/x.nq.zst").key := by decide
  refine ⟨escapes_escapedReader, ⟨fragments_pinDisk (by decide), ⟨fun p => ?_, fun _ => Iff.rfl, rfl, rfl, rfl⟩,
    fun heq => ?_⟩, hplain, selectInputs_asDir (by decide) hplain hslash⟩
  · simp only [pinPaths, List.map_cons, List.map_nil, List.mem_cons, List.not_mem_nil, or_false]
    exact or_comm
  · obtain ⟨inputs, hok, hmem⟩ := selectInputs_pair hne hplain hdots
    obtain ⟨inputs', hok', hmem'⟩ := selectInputs_pair hne.symm hdots hplain
    rw [hok, hok', Except.ok.injEq] at heq
    have hin := (hmem _).mpr rfl
    rw [heq, hmem', InputGraph.mk.injEq] at hin
    exact absurd hin.2.1 (by decide)

theorem selectInputs_least_pin :
    ∃ inputs, selectInputs escapedReader pinDisk (pinPaths ["pin/x.nq.zst", "pin/../pin/x.nq.zst"]) = .ok inputs ∧
      Returns escapedReader pinDisk (pinPaths ["pin/x.nq.zst", "pin/../pin/x.nq.zst"]) inputs ∧
      ∀ sel', SameChoice (pinPaths ["pin/x.nq.zst", "pin/../pin/x.nq.zst"]) sel' →
        ∃ inputs', selectInputs escapedReader pinDisk sel' = .ok inputs' ∧
          inputs'.map (fun i => (i.graph, i.nquads)) = inputs.map (fun i => (i.graph, i.nquads)) ∧
          ((∀ p q f, Included escapedReader pinDisk (pinPaths ["pin/x.nq.zst", "pin/../pin/x.nq.zst"]) p f →
            Included escapedReader pinDisk (pinPaths ["pin/x.nq.zst", "pin/../pin/x.nq.zst"]) q f → p = q) →
            inputs' = inputs) :=
  selectInputs_least escapes_escapedReader (fun _ h => absurd h List.not_mem_nil) rfl rfl
    (fragments_pinDisk (by decide))

end Nix2Rdf.Reason
