import Nix2Rdf.Identity
import Nix2Rdf.Reason.Assemble
import Nix2Rdf.Reason.Scan
import Nix2Rdf.Lib.Worklist

/-!
# Selecting the inputs of a run

A selection names fragments and entities. With its closure it names every fragment that is reached
from these through the entities the texts of the fragments mention.
-/

namespace Nix2Rdf

open Paths

/-! ## The names of fragment files -/

theorem endsWith_append (s suf : String) : Text.endsWith suf (s ++ suf) = true := by
  rw [Text.endsWith, List.isSuffixOf_iff_suffix, String.toList_append]
  exact List.suffix_append _ _

theorem endsWith_slash (segs : List String) (last suf : String) :
    Text.endsWith suf (Text.slash (segs ++ [last ++ suf])) = true := by
  induction segs with
  | nil =>
      rw [List.nil_append, Text.slash_singleton]
      exact endsWith_append last suf
  | cons seg segs ih =>
      obtain ⟨next, rest, hrest⟩ := List.exists_cons_of_ne_nil (List.append_ne_nil_of_right_ne_nil segs
        (List.cons_ne_nil (last ++ suf) []))
      rw [hrest] at ih
      rw [List.cons_append, hrest, Text.slash_cons, Text.endsWith, List.isSuffixOf_iff_suffix, String.toList_append]
      exact (List.isSuffixOf_iff_suffix.mp ih).trans (List.suffix_append _ _)

theorem endsWith_relativePath (k : FragmentKind) : Text.endsWith FragmentKind.suffix k.relativePath = true := by
  cases k with
  | drv h => exact endsWith_slash ["drv"] h _
  | out h => exact endsWith_slash ["out"] h _
  | src n => exact endsWith_slash ["src"] (narHashSegment n) _
  | pin n => exact endsWith_slash ["pin"] (narHashSegment n) _
  | nixpkgs rev => exact endsWith_slash ["nixpkgs"] rev _
  | commit repo sha => exact endsWith_slash ["commit", encodeSegment repo] sha _
  | gen h => exact endsWith_slash ["gen"] h _
  | image dg => exact endsWith_slash ["image"] dg _
  | index h => exact endsWith_slash ["index"] ("nixpkgs-multiverse-" ++ h) _
  | derived ruleset input => exact endsWith_slash ["derived", ruleset] input _
  | run ruleset input => exact endsWith_slash ["runs", ruleset] input _
  | value h => exact endsWith_slash ["values"] h _
  | env h => exact endsWith_slash ["env"] h _
  | k8sSnapshot cluster h => exact endsWith_slash ["k8s", encodeSegment cluster, "snapshot"] h _
  | k8sNodes cluster h => exact endsWith_slash ["k8s", encodeSegment cluster, "nodes"] h _
  | k8sObserved cluster h observedAt =>
      exact endsWith_slash ["k8s", encodeSegment cluster, "observed"] (h ++ "-" ++ encodeSegment observedAt) _
  | ext kind ident => exact endsWith_slash ["ext", encodeSegment kind] (encodeSegment ident) _

/-- The last component of the path of a fragment file has the suffix. -/
theorem split_of_endsWith {path : String} (h : Text.endsWith FragmentKind.suffix path = true) :
    ∃ segs last, Text.split '/' path = segs ++ [last ++ FragmentKind.suffix] := by
  obtain ⟨l, hl⟩ := List.isSuffixOf_iff_suffix.mp h
  have hpath : path = String.ofList l ++ FragmentKind.suffix := by
    apply String.toList_inj.mp
    rw [String.toList_append, String.toList_ofList, hl]
  have hsuffix : '/' ∉ FragmentKind.suffix.toList := by decide
  cases hlast : Text.rsplitOnce '/' (String.ofList l) with
  | none =>
      refine ⟨[], String.ofList l, ?_⟩
      rw [hpath, Text.split_of_not_mem]
      · rfl
      · rw [String.toList_append, List.mem_append, not_or]
        refine ⟨?_, hsuffix⟩
        rw [Text.rsplitOnce, Option.map_eq_none_iff, Text.splitFirst_eq_none, List.mem_reverse] at hlast
        exact hlast
  | some parts =>
      obtain ⟨a, b⟩ := parts
      obtain ⟨hab, hb⟩ := Text.rsplitOnce_eq_some hlast
      refine ⟨Text.split '/' a, b, ?_⟩
      have heq : path = a ++ String.singleton '/' ++ (b ++ FragmentKind.suffix) := by
        apply String.toList_inj.mp
        rw [hpath, String.toList_append, hab]
        simp
      rw [heq, Text.split_append, Text.split_of_not_mem (a := b ++ FragmentKind.suffix)]
      rw [String.toList_append, List.mem_append, not_or]
      exact ⟨hb, hsuffix⟩

/-- That component is kept. -/
theorem endsWith_resolvePath {path : String} (h : Text.endsWith FragmentKind.suffix path = true) :
    Text.endsWith FragmentKind.suffix (resolvePath path) = true := by
  obtain ⟨segs, last, hsplit⟩ := split_of_endsWith h
  rw [resolvePath, hsplit, List.foldl_append, List.foldl_cons, List.foldl_nil,
    resolveStep_proper (FragmentKind.proper_suffix last), List.reverse_cons]
  exact endsWith_slash _ last _

theorem endsAsDir_of_endsWith {path : String} (h : Text.endsWith FragmentKind.suffix path = true) :
    endsAsDir path = false := by
  obtain ⟨segs, last, hsplit⟩ := split_of_endsWith h
  have hlast : Text.lastPart '/' path = last ++ FragmentKind.suffix := by
    rw [lastPart_eq, hsplit, List.getLastD_concat]
  rw [endsAsDir, hlast, decide_eq_false_iff_not]
  exact (FragmentKind.proper_suffix last).1

/-! ## Paths of fragments -/

/-- What fragment files are read with: decompression, and `NamedNode::new`. -/
structure FragmentReader (Bytes : Type) extends Codec Bytes where
  text : Bytes → Result String
  text_encode : ∀ f : Fragment, text (encode f.quads) = .ok f.toNquads
  accepts : String → Bool
  accepts_plain : ∀ s, accepts s = true → PlainText s

/-- A path as it is spelled: below the root of the store, or one elsewhere. An absolute path that begins
with the root is one below it. -/
inductive FragmentPath where
  | inside (rel : String)
  | outside (abs : String)
  deriving DecidableEq, Repr

/-- Paths are compared component by component. -/
def FragmentPath.key : FragmentPath → FragmentPath
  | inside rel => .inside (components rel)
  | outside abs => .outside ("/" ++ components abs)

/-- The store, the absolute path of its root, and what stands elsewhere by the components of the paths. -/
structure Disk (Bytes : Type) where
  root : String
  store : Store Bytes
  outside : BTreeMap (FileTree.Node Bytes)

/-- A path that means a directory leads to no file. -/
def asDir {Bytes : Type} : FileTree.Node Bytes → Option (FileTree.Node Bytes)
  | .file _ => none
  | .dir => some .dir

namespace Disk

variable {Bytes : Type} (d : Disk Bytes)

/-- What the file system finds at a path. -/
def look : FragmentPath → Option (FileTree.Node Bytes)
  | .inside rel => d.store.look rel
  | .outside abs =>
      let found := d.outside["/" ++ components abs]?
      if endsAsDir abs then found.bind asDir else found

def file? (p : FragmentPath) : Option Bytes :=
  match d.look p with
  | some (.file b) => some b
  | _ => none

def exists? (p : FragmentPath) : Bool := (d.look p).isSome

def abs : FragmentPath → String
  | .inside rel => d.root ++ "/" ++ rel
  | .outside abs => abs

def contents : List Bytes :=
  d.store.files.toList.map Prod.snd ++ d.outside.toList.filterMap fun e =>
    match e.2 with
    | .file b => some b
    | .dir => none

variable {d} {p : FragmentPath} {b : Bytes}

theorem file?_eq_some : d.file? p = some b ↔ d.look p = some (.file b) := by
  unfold file?
  cases d.look p with
  | none => simp
  | some n => cases n <;> simp

theorem file?_inside {rel : String} (h : d.file? (.inside rel) = some b) : d.store.file? (resolvePath rel) = some b :=
  Store.file?_of_look (file?_eq_some.mp h)

/-- A file of the store is found at its own path. -/
theorem file?_own {rel : String} (h : resolvePath rel = rel) : d.file? (.inside rel) = d.store.file? rel := by
  cases hfile : d.store.file? rel with
  | some b => exact file?_eq_some.mpr (Store.look_of_file? hfile)
  | none =>
      rw [Option.eq_none_iff_forall_ne_some]
      intro b hb
      have hother := file?_inside hb
      rw [h, hfile] at hother
      cases hother

theorem mem_contents (h : d.file? p = some b) : b ∈ d.contents := by
  have hfound := file?_eq_some.mp h
  cases p with
  | inside rel =>
      have hmem := Std.ExtTreeMap.mem_toList_iff_getElem?_eq_some.mpr (Store.file?_of_look hfound)
      exact List.mem_append_left _ (List.mem_map_of_mem hmem)
  | outside abs =>
      have hnode : d.outside["/" ++ components abs]? = some (.file b) := by
        rw [look] at hfound
        split at hfound
        · obtain ⟨n, _, hn⟩ := Option.bind_eq_some_iff.mp hfound
          cases n <;> cases hn
        · exact hfound
      exact List.mem_append_right _
        (List.mem_filterMap.mpr ⟨_, Std.ExtTreeMap.mem_toList_iff_getElem?_eq_some.mpr hnode, rfl⟩)

end Disk

namespace Reason

/-- Which fragments participate in a run. -/
structure InputSelection where
  paths : List FragmentPath := []
  /-- Entities whose closure fragments are pulled in when `closure` is set. -/
  roots : List Iri := []
  closure : Bool := false
  allSnapshots : Bool := false
  everything : Bool := false

variable {Bytes : Type} (r : FragmentReader Bytes) (d : Disk Bytes)

def emptyFragment (path : String) : String := "reasoning error: " ++ path ++ ": empty fragment"

def invalidIri (iri : String) : String := "rdf parse error: " ++ iri

def readInput (p : FragmentPath) (b : Bytes) : Result InputGraph := do
  let nquads ← r.text b
  match graphOf nquads with
  | none => .error (emptyFragment (d.abs p))
  | some graph =>
      if r.accepts graph then .ok ⟨graph, d.abs p, nquads⟩ else .error (invalidIri graph)

/-! ## Following references -/

def entityPredicates : List Iri :=
  [nix "closureContains", nix "hasRoot", nix "snapshot", nix "inputSrc", nix "imageDerivation"]

def clusterPredicates : List Iri := [k8s "runsImage", k8s "hostGeneration"]

/-- The fragments of the entities that are objects of these predicates. -/
def mentioned (nquads : String) (predicates : List Iri) : Result (List FragmentKind) :=
  ((predicates.flatMap (objectsOf nquads)).mapM fragmentForIri).map fun ks => ks.filterMap fun k => k

/-- The build of a derivation goes with it. -/
def withOut : FragmentKind → List FragmentKind
  | .drv h => [.out h, .drv h]
  | k => [k]

def refsOf (nquads : String) : Result (List FragmentKind) := do
  let entities ← mentioned nquads entityPredicates
  let cluster ← mentioned nquads clusterPredicates
  return entities.flatMap withOut ++ cluster

/-- The references are looked for only where a closure is followed. -/
def followed (closure : Bool) (nquads : String) : Result (List FragmentKind) :=
  if closure then refsOf nquads else .ok []

def pathOfKind (k : FragmentKind) : FragmentPath := .inside k.relativePath

/-- What the file at a path is, with the fragments there are that follow it. -/
def expand (closure : Bool) (p : FragmentPath) : Result (Option (InputGraph × List FragmentPath)) :=
  match d.look p with
  | none => .ok none
  | some .dir => .error ("io error at " ++ d.abs p ++ ": Is a directory (os error 21)")
  | some (.file b) => do
      let i ← readInput r d p b
      let refs ← followed closure i.nquads
      return some (i, (refs.map pathOfKind).filter d.exists?)

/-- Whatever the text of some file refers to. -/
def allRefs : List FragmentPath :=
  d.contents.flatMap fun b => (((r.text b >>= refsOf).toOption).getD []).map pathOfKind

variable {r d}

theorem readInput_eq_ok {p : FragmentPath} {b : Bytes} {i : InputGraph} :
    readInput r d p b = .ok i ↔ ∃ nquads g, r.text b = .ok nquads ∧ graphOf nquads = some g ∧
      r.accepts g = true ∧ i = ⟨g, d.abs p, nquads⟩ := by
  unfold readInput
  rw [Result.bind_eq_ok]
  refine exists_congr fun nquads => ?_
  cases hg : graphOf nquads with
  | none => simp
  | some g =>
      by_cases ha : r.accepts g = true
      · simp [ha, eq_comm (a := i)]
      · simp [ha]

theorem expand_eq_some {closure : Bool} {p : FragmentPath} {i : InputGraph} {next : List FragmentPath} :
    expand r d closure p = .ok (some (i, next)) ↔ ∃ b refs, d.file? p = some b ∧
      readInput r d p b = .ok i ∧ followed closure i.nquads = .ok refs ∧
      next = (refs.map pathOfKind).filter d.exists? := by
  unfold expand
  simp only [Disk.file?_eq_some]
  cases hlook : d.look p with
  | none => simp
  | some n =>
      cases n with
      | dir => simp
      | file b =>
          simp only [Result.bind_eq_ok, Result.pure_eq_ok, Option.some.injEq, Prod.mk.injEq, FileTree.Node.file.injEq]
          constructor
          · intro h
            obtain ⟨j, hj, refs, hrefs, rfl, rfl⟩ := h
            exact ⟨b, refs, rfl, hj, hrefs, rfl⟩
          · intro h
            obtain ⟨b', refs, rfl, hj, hrefs, rfl⟩ := h
            exact ⟨i, hj, refs, hrefs, rfl, rfl⟩

variable (r d)

/-- The fragments with the references between them. -/
def fragmentGraph (closure : Bool) : Worklist.Graph FragmentPath FragmentPath InputGraph String where
  key := FragmentPath.key
  expand := expand r d closure
  nodes := (allRefs r d).toFinset
  next_mem := by
    intro p i next h n hn
    obtain ⟨b, refs, hb, hi, hrefs, rfl⟩ := expand_eq_some.mp h
    obtain ⟨nquads, g, htext, _, _, rfl⟩ := readInput_eq_ok.mp hi
    rw [List.mem_toFinset]
    refine List.mem_flatMap.mpr ⟨b, Disk.mem_contents hb, ?_⟩
    cases closure with
    | false =>
        cases hrefs
        cases hn
    | true =>
        rw [followed, if_pos rfl] at hrefs
        rw [htext]
        have hbind : (Except.ok nquads >>= refsOf) = refsOf nquads := rfl
        rw [hbind, hrefs]
        exact (List.mem_filter.mp hn).1

/-! ## The selection -/

/-- What is looked at first, in the order of the queue. -/
def queueOf (sel : InputSelection) : Result (List FragmentPath) :=
  if sel.everything then .ok (d.store.allFragmentPaths.map .inside)
  else do
    let roots ← sel.roots.mapM fragmentForIri
    return sel.paths
      ++ (if sel.allSnapshots then
          (["pin", "gen", "image", "commit", "nixpkgs", "k8s"].flatMap d.store.fragmentPathsUnder).map .inside
        else [])
      ++ (roots.filterMap fun k => k).map fun k => .inside k.relativePath

/-- The queue is a stack: what was put in last is taken out first. -/
def stackOf (queue : List FragmentPath) : List FragmentPath := queue.reverse

/-- One input a graph; the last one that was read stays. -/
def byGraph (found : List (FragmentPath × InputGraph)) : BTreeMap InputGraph :=
  found.foldl (fun m f => m.insert f.2.graph f.2) ∅

/-- Closures are followed unless everything is selected. -/
def InputSelection.follow (sel : InputSelection) : Bool := sel.closure && !sel.everything

/-- Resolve a selection to concrete input graphs. -/
def selectInputs (sel : InputSelection) : Result (List InputGraph) := do
  let queue ← queueOf d sel
  let found ← (fragmentGraph r d sel.follow).search (stackOf queue)
  return (byGraph found).toList.map Prod.snd

/-! ## What is selected -/

/-- The selection leads to this path, whether or not a file is there. -/
def Selected (sel : InputSelection) (p : FragmentPath) : Prop :=
  ∃ queue, queueOf d sel = .ok queue ∧ (fragmentGraph r d sel.follow).Reach (stackOf queue) p

variable {r d}

theorem byGraph_append (found : List (FragmentPath × InputGraph)) (f : FragmentPath × InputGraph) :
    byGraph (found ++ [f]) = (byGraph found).insert f.2.graph f.2 := by
  rw [byGraph, List.foldl_append]
  rfl

theorem of_byGraph {found : List (FragmentPath × InputGraph)} {g : String} {i : InputGraph}
    (h : (byGraph found)[g]? = some i) : i.graph = g ∧ ∃ p, (p, i) ∈ found := by
  induction found using List.reverseRecOn with
  | nil =>
      rw [byGraph, List.foldl_nil, Std.ExtTreeMap.getElem?_empty] at h
      cases h
  | append_singleton found f ih =>
      rw [byGraph_append, Std.ExtTreeMap.getElem?_insert] at h
      split at h
      · rename_i hg
        rw [compare_eq_iff_eq] at hg
        cases h
        exact ⟨hg, f.1, by simp⟩
      · obtain ⟨hg, p, hp⟩ := ih h
        exact ⟨hg, p, List.mem_append_left _ hp⟩

theorem byGraph_isSome {found : List (FragmentPath × InputGraph)} {p : FragmentPath} {i : InputGraph}
    (h : (p, i) ∈ found) : ∃ j, (byGraph found)[i.graph]? = some j := by
  induction found using List.reverseRecOn with
  | nil => cases h
  | append_singleton found f ih =>
      rw [byGraph_append, Std.ExtTreeMap.getElem?_insert]
      split
      · exact ⟨_, rfl⟩
      · rename_i hg
        rcases List.mem_append.mp h with h | h
        · exact ih h
        · rw [← List.mem_singleton.mp h] at hg
          exact absurd (compare_eq_iff_eq.mpr rfl) hg

theorem selectInputs_eq_ok {sel : InputSelection} {inputs : List InputGraph} :
    selectInputs r d sel = .ok inputs ↔ ∃ queue found, queueOf d sel = .ok queue ∧
      (fragmentGraph r d sel.follow).search (stackOf queue) = .ok found ∧
      inputs = (byGraph found).toList.map Prod.snd := by
  simp only [selectInputs, Result.bind_eq_ok, Result.pure_eq_ok]
  constructor
  · intro h
    obtain ⟨queue, hq, found, hf, rfl⟩ := h
    exact ⟨queue, found, hq, hf, rfl⟩
  · intro h
    obtain ⟨queue, found, hq, hf, rfl⟩ := h
    exact ⟨queue, hq, found, hf, rfl⟩

theorem mem_values {m : BTreeMap InputGraph} {i : InputGraph} :
    i ∈ m.toList.map Prod.snd ↔ ∃ g : String, m[g]? = some i := by
  rw [← BTreeMap.values_eq]
  exact BTreeMap.mem_values

/-! ## Spellings -/

variable (d) in
/-- An explicit path leads where its components lead: none names a file as if it were a directory. -/
def Spelled (sel : InputSelection) : Prop := ∀ p ∈ sel.paths, d.look p.key = d.look p

theorem look_key_inside {rel : String} (h : Text.endsWith FragmentKind.suffix rel = true) :
    d.look (FragmentPath.inside rel).key = d.look (.inside rel) := Store.look_components (endsAsDir_of_endsWith h)

/-- What the queue is filled with is an explicit path, or has the name of a fragment file. -/
theorem of_mem_queue {sel : InputSelection} {queue : List FragmentPath} (hq : queueOf d sel = .ok queue)
    {p : FragmentPath}
    (hp : p ∈ queue) : p ∈ sel.paths ∨ ∃ rel, p = .inside rel ∧ Text.endsWith FragmentKind.suffix rel = true := by
  rw [queueOf] at hq
  split at hq
  · cases hq
    obtain ⟨rel, hrel, rfl⟩ := List.mem_map.mp hp
    have hfile := (Store.mem_allFragmentPaths.mp hrel).2
    rw [Store.isFragmentPath, Bool.and_eq_true, Bool.and_eq_true] at hfile
    exact .inr ⟨rel, rfl, hfile.1.1⟩
  · rw [Result.bind_eq_ok] at hq
    obtain ⟨ks, _, hq⟩ := hq
    cases hq
    rcases List.mem_append.mp hp with hp | hp
    · rcases List.mem_append.mp hp with hp | hp
      · exact .inl hp
      · split at hp
        · obtain ⟨rel, hrel, rfl⟩ := List.mem_map.mp hp
          obtain ⟨sub, _, hrel⟩ := List.mem_flatMap.mp hrel
          exact .inr ⟨rel, rfl, (Store.mem_fragmentPathsUnder.mp hrel).2.2⟩
        · cases hp
    · obtain ⟨k, _, rfl⟩ := List.mem_map.mp hp
      exact .inr ⟨_, rfl, endsWith_relativePath k⟩

variable {sel : InputSelection} {p q : FragmentPath}

theorem Spelled.look_key (h : Spelled d sel) (hp : Selected r d sel p) : d.look p.key = d.look p := by
  obtain ⟨queue, hq, hreach⟩ := hp
  cases hreach with
  | root hp =>
      rcases of_mem_queue hq (List.mem_reverse.mp hp) with hp | ⟨rel, rfl, hrel⟩
      · exact h p hp
      · exact look_key_inside hrel
  | next _ hexp hn =>
      obtain ⟨_, refs, _, _, _, rfl⟩ := expand_eq_some.mp hexp
      obtain ⟨k, _, rfl⟩ := List.mem_map.mp (List.mem_filter.mp hn).1
      exact look_key_inside (endsWith_relativePath k)

/-- Selected paths with the same components lead to the same. -/
theorem Spelled.look_eq (h : Spelled d sel) (hp : Selected r d sel p) (hq : Selected r d sel q)
    (hkey : p.key = q.key) : d.look p = d.look q := by
  rw [← h.look_key hp, ← h.look_key hq, hkey]

/-- What is read depends on the file, besides the path that is reported. -/
theorem readInput_at {b : Bytes} {i : InputGraph} (h : readInput r d p b = .ok i) (q : FragmentPath) :
    readInput r d q b = .ok { i with path := d.abs q } := by
  obtain ⟨nquads, g, htext, hg, haccepts, rfl⟩ := readInput_eq_ok.mp h
  exact readInput_eq_ok.mpr ⟨nquads, g, htext, hg, haccepts, rfl⟩

theorem expand_at {closure : Bool} {e : Option (InputGraph × List FragmentPath)} (hlook : d.look q = d.look p)
    (h : expand r d closure p = .ok e) :
    expand r d closure q = .ok (e.map fun f => ({ f.1 with path := d.abs q }, f.2)) := by
  cases e with
  | none =>
      rw [expand] at h ⊢
      rw [hlook]
      cases hp : d.look p with
      | none => rfl
      | some n =>
          rw [hp] at h
          cases n with
          | dir => cases h
          | file b =>
              simp only [Result.bind_eq_ok, Result.pure_eq_ok, reduceCtorEq, and_false, exists_false] at h
  | some f =>
      obtain ⟨b, refs, hb, hi, hrefs, hnext⟩ := expand_eq_some.mp h
      refine expand_eq_some.mpr ⟨b, refs, ?_, readInput_at hi q, hrefs, hnext⟩
      rw [Disk.file?_eq_some, hlook]
      exact Disk.file?_eq_some.mp hb

theorem Spelled.coherent (h : Spelled d sel) {queue : List FragmentPath} (hq : queueOf d sel = .ok queue) :
    (fragmentGraph r d sel.follow).Coherent (stackOf queue) := by
  intro p q hp hp' hkey e he
  have hlook := h.look_eq ⟨queue, hq, hp⟩ ⟨queue, hq, hp'⟩ hkey
  refine ⟨_, expand_at hlook.symm he, ?_⟩
  rw [Option.map_map]
  rfl

section Result

variable {inputs : List InputGraph}

/-- Every input is what was read at a selected path. -/
theorem selected_of_mem (h : selectInputs r d sel = .ok inputs) {i : InputGraph} (hi : i ∈ inputs) :
    ∃ p next, Selected r d sel p ∧ expand r d sel.follow p = .ok (some (i, next)) := by
  obtain ⟨queue, found, hq, hf, rfl⟩ := selectInputs_eq_ok.mp h
  obtain ⟨g, hg⟩ := mem_values.mp hi
  obtain ⟨_, p, hp⟩ := of_byGraph hg
  obtain ⟨hreach, next, hexp⟩ := Worklist.Graph.of_mem_search hf hp
  exact ⟨p, next, ⟨queue, hq, hreach⟩, hexp⟩

/-- The graph of every file at a selected path is among the inputs. -/
theorem mem_of_selected (hspelled : Spelled d sel) (h : selectInputs r d sel = .ok inputs) (hp : Selected r d sel p)
    {i : InputGraph} {next : List FragmentPath} (hexp : expand r d sel.follow p = .ok (some (i, next))) :
    ∃ j ∈ inputs, j.graph = i.graph := by
  obtain ⟨queue, found, hq, hf, rfl⟩ := selectInputs_eq_ok.mp h
  obtain ⟨queue', hq', hreach⟩ := hp
  rw [hq, Except.ok.injEq] at hq'
  rw [← hq'] at hreach
  obtain ⟨q, j, hkey, hmem⟩ := Worklist.Graph.exists_mem_search (hspelled.coherent hq) hf hreach hexp
  obtain ⟨hreach', next', hexp'⟩ := Worklist.Graph.of_mem_search hf hmem
  have hlook := hspelled.look_eq ⟨queue, hq, hreach'⟩ ⟨queue, hq, hreach⟩ hkey
  have hexp'' : expand r d sel.follow q = .ok (some (j, next')) := hexp'
  rw [expand_at hlook hexp, Except.ok.injEq, Option.map_some, Option.some.injEq, Prod.mk.injEq] at hexp''
  obtain ⟨k, hk⟩ := byGraph_isSome hmem
  refine ⟨k, mem_values.mpr ⟨_, hk⟩, ?_⟩
  rw [(of_byGraph hk).1, ← hexp''.1]

/-- A selection is resolved exactly when its roots are, and no selected path leads to a file that
cannot be read. -/
theorem selectInputs_succeeds_iff (hspelled : Spelled d sel) : (∃ inputs, selectInputs r d sel = .ok inputs) ↔
    (∃ queue, queueOf d sel = .ok queue) ∧
      ∀ p, Selected r d sel p → ∃ e, expand r d sel.follow p = .ok e := by
  constructor
  · intro h
    obtain ⟨inputs, h⟩ := h
    obtain ⟨queue, found, hq, hf, _⟩ := selectInputs_eq_ok.mp h
    refine ⟨⟨queue, hq⟩, fun p hp => ?_⟩
    obtain ⟨queue', hq', hreach⟩ := hp
    rw [hq, Except.ok.injEq] at hq'
    rw [← hq'] at hreach
    exact (Worklist.Graph.search_succeeds_iff (hspelled.coherent hq)).mp ⟨found, hf⟩ p hreach
  · intro h
    obtain ⟨⟨queue, hq⟩, hall⟩ := h
    obtain ⟨found, hf⟩ := (Worklist.Graph.search_succeeds_iff
      (hspelled.coherent (r := r) hq)).mpr fun p hp => hall p ⟨queue, hq, hp⟩
    exact ⟨_, selectInputs_eq_ok.mpr ⟨queue, found, hq, hf, rfl⟩⟩

end Result

/-! ## Files that hold their quads -/

variable (r) in
/-- `NamedNode::new` accepts the IRIs of a term. -/
def AcceptedTerm : Term → Prop
  | .iri i => r.accepts i = true
  | .bnode l => PlainText l
  | .literal _ dt => r.accepts dt = true
  | .lang _ tag => PlainText tag

variable (r) in
/-- A fragment that the program can build: minting another IRI panics. -/
structure Accepted (f : Fragment) : Prop where
  graph : r.accepts f.graph = true
  lines : ∀ t ∈ f.lines, (∃ i, t.s = .iri i ∧ r.accepts i = true) ∧ r.accepts t.p = true ∧ AcceptedTerm r t.o

theorem Accepted.plain {f : Fragment} (h : Accepted r f) : f.Plain where
  graph := r.accepts_plain _ h.graph
  lines t ht := by
    obtain ⟨⟨i, hi, hs⟩, hp, ho⟩ := h.lines t ht
    refine ⟨⟨i, hi, r.accepts_plain _ hs⟩, r.accepts_plain _ hp, ?_⟩
    cases hterm : t.o with
    | iri j => rw [hterm] at ho; exact r.accepts_plain _ ho
    | bnode l => rw [hterm] at ho; exact ho
    | literal v dt => rw [hterm] at ho; exact r.accepts_plain _ ho
    | lang v tag => rw [hterm] at ho; exact ho

/-- What is read where a fragment was written is that fragment. -/
theorem readInput_fragment {f : Fragment} (hacc : Accepted r f) (hne : f.lines.Nonempty) (p : FragmentPath) :
    readInput r d p (r.encode f.quads) = .ok ⟨f.graph, d.abs p, f.toNquads⟩ :=
  readInput_eq_ok.mpr ⟨_, _, r.text_encode f, Fragment.graphOf_toNquads hacc.plain.printed.unbroken hne,
    hacc.graph, rfl⟩

/-- What the scans find in the text of a fragment is what the fragment says, whatever its literals hold. -/
theorem scans_agree {f : Fragment} (h : f.Unbroken) (hne : f.lines.Nonempty) :
    (∀ (p : FragmentPath) (b : Bytes), r.text b = .ok f.toNquads → r.accepts f.graph = true →
      readInput r d p b = .ok ⟨f.graph, d.abs p, f.toNquads⟩) ∧
    ∀ p o, o ∈ objectsOf f.toNquads p ↔ ∃ t ∈ f.lines, t.p = p ∧ t.o = .iri o := by
  refine ⟨fun p b htext hgraph => ?_, fun p o => Fragment.mem_objectsOf_toNquads h⟩
  exact readInput_eq_ok.mpr ⟨_, _, htext, Fragment.graphOf_toNquads h hne, hgraph, rfl⟩

def Quad.triple (q : Quad) : Triple := ⟨q.s, q.p, q.o⟩

/-- Print quads as the fragment they are. -/
def printQuads (qs : Finset Quad) : String :=
  match (qs.image Quad.g).sort with
  | [] => ""
  | g :: _ => String.join (((qs.image fun q => Fragment.lineText (Quad.triple q)).sort).map fun l =>
      l ++ " " ++ Fragment.iriText g ++ " .\n")

theorem printQuads_quads (f : Fragment) : printQuads f.quads = f.toNquads := by
  have hlines : (f.quads.image fun q => Fragment.lineText (Quad.triple q)) = f.lines.image Fragment.lineText := by
    rw [Fragment.quads, Finset.image_image]
    rfl
  rcases f.lines.eq_empty_or_nonempty with hempty | hne
  · rw [Fragment.toNquads_of_empty hempty, Fragment.quads, hempty, Finset.image_empty, printQuads,
      Finset.image_empty, Finset.sort_empty]
  · have hgraphs : f.quads.image Quad.g = {f.graph} := by
      rw [Fragment.quads, Finset.image_image]
      exact Finset.image_const hne f.graph
    rw [printQuads, hgraphs, hlines, Finset.sort_singleton, Fragment.toNquads]

def plainIri (s : String) : Bool := s.toList.all fun c => !iriExcluded c

theorem plainIri_iff {s : String} : plainIri s = true ↔ PlainText s := by
  simp [plainIri, PlainText]

def plainReader : FragmentReader (Finset Quad) where
  toCodec := Codec.plain
  text qs := .ok (printQuads qs)
  text_encode f := congrArg Except.ok (printQuads_quads f)
  accepts := plainIri
  accepts_plain _ h := plainIri_iff.mp h

/-- Its literal looks like the end of a line and the begin of another. -/
def quoting : Fragment := .ofTriples (.drv "h")
  [⟨.bnode "b", nix "name", .literal "<x> <y> .\n" (xsd "string")⟩,
    Triple.addIri (Iri.drv "h") (nix "inputSrc") (Iri.drv "g")]

theorem scans_agree_quoting :
    readInput plainReader ⟨"", .empty, ∅⟩ (.inside "x") quoting.quads = .ok ⟨quoting.graph, "/x", quoting.toNquads⟩ ∧
    Iri.drv "g" ∈ objectsOf quoting.toNquads (nix "inputSrc") := by
  have htokens : ∀ s ∈ [quoting.graph, "b", nix "name", xsd "string", Iri.drv "h", nix "inputSrc", Iri.drv "g"],
      OneToken s := by
    decide +kernel
  simp only [List.forall_mem_cons] at htokens
  obtain ⟨hgraph, hb, hname, hstring, hh, hsrc, hg, _⟩ := htokens
  have hunbroken : quoting.Unbroken := by
    refine ⟨hgraph, fun t ht => ?_⟩
    rw [quoting, Fragment.mem_ofTriples, List.mem_cons, List.mem_singleton] at ht
    rcases ht with rfl | rfl
    · exact ⟨.inr ⟨_, rfl, hb⟩, hname, hstring⟩
    · exact ⟨.inl ⟨_, rfl, hh⟩, hsrc, hg⟩
  have hmem : Triple.addIri (Iri.drv "h") (nix "inputSrc") (Iri.drv "g") ∈ quoting.lines :=
    Fragment.mem_ofTriples.mpr (List.mem_cons_of_mem _ List.mem_cons_self)
  obtain ⟨hread, hobjects⟩ := @scans_agree _ plainReader ⟨"", .empty, ∅⟩ _ hunbroken ⟨_, hmem⟩
  refine ⟨hread _ _ (plainReader.text_encode quoting) ?_, (hobjects _ _).mpr ⟨_, hmem, rfl, rfl⟩⟩
  decide +kernel

end Reason

end Nix2Rdf
