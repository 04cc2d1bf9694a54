import Nix2Rdf.Reason.Entities

/-!
# One identity, one file, one graph

A kind is read back from the segments of its graph IRI and from the components of its path. What is
lost on the way are the components that a file system drops, and the kinds an extension can take.
-/

namespace Nix2Rdf

open Reason Paths
open Text (slash split_slash)

def Alphanumeric (s : String) : Prop := s.toList.all isAsciiAlphanumeric = true

instance (s : String) : Decidable (Alphanumeric s) := inferInstanceAs (Decidable (_ = true))

theorem Alphanumeric.not_mem {s : String} (h : Alphanumeric s) {c : Char}
    (hc : isAsciiAlphanumeric c = false) : c ∉ s.toList := by
  intro hmem
  rw [List.all_eq_true.mp h c hmem] at hc
  cases hc

def decodeSegment (s : String) : String := (percentDecode s).toOption.getD ""

@[simp] theorem decodeSegment_encodeSegment (s : String) : decodeSegment (encodeSegment s) = s := by
  rw [decodeSegment, percentDecode_encodeSegment]
  rfl

namespace FragmentKind

/-- Hashes, revisions and digests are alphanumeric and NAR hashes have their canonical form. Any
string can be a repository, a cluster, a time, or the kind and the name of an extension. -/
def WellFormed : FragmentKind → Prop
  | .drv h | .out h | .nixpkgs h | .gen h | .image h | .index h | .value h | .env h => Alphanumeric h
  | .src n | .pin n => CanonicalSri n
  | .commit _ sha => Alphanumeric sha
  | .derived ruleset input | .run ruleset input => Alphanumeric ruleset ∧ Alphanumeric input
  | .k8sSnapshot _ h | .k8sNodes _ h | .k8sObserved _ h _ => Alphanumeric h
  | .ext _ _ => True

/-! ## Graphs -/

def graphSegs : FragmentKind → List String
  | drv h => ["drv", h]
  | out h => ["fragment", "out", h]
  | src n => ["src", narHashSegment n]
  | pin n => ["pin", narHashSegment n]
  | nixpkgs r => ["nixpkgs", r]
  | commit repo sha => ["git", encodeSegment repo, sha]
  | gen h => ["gen", h]
  | image d => ["oci", "sha256", d]
  | index h => ["fragment", "index", "nixpkgs-multiverse-" ++ h]
  | derived ruleset input => ["derived", ruleset ++ ":" ++ input]
  | run ruleset input => ["fragment", "run", ruleset ++ ":" ++ input]
  | value h => ["fragment", "values", h]
  | env h => ["fragment", "env", h]
  | k8sSnapshot cluster hash => ["k8s", encodeSegment cluster, "snapshot", hash]
  | k8sNodes cluster hash => ["k8s", encodeSegment cluster, "nodes", hash]
  | k8sObserved cluster hash observedAt =>
      ["fragment", "k8s-observed", encodeSegment cluster, hash, encodeSegment observedAt]
  | ext kind ident => [encodeSegment kind, encodeSegment ident]

theorem graph_eq_segs (k : FragmentKind) : k.graph = id (slash k.graphSegs) := by
  cases k with
  | k8sObserved cluster hash observedAt =>
      rw [graph, Iri.fragment, graphSegs]
      simp only [Text.slash_cons, Text.slash_singleton]
  | _ => rfl

/-- The kind whose graph has these segments, extensions apart. -/
def readGraph : List String → Option FragmentKind
  | ["drv", h] => some (.drv h)
  | ["src", n] => some (.src (decodeNar n))
  | ["pin", n] => some (.pin (decodeNar n))
  | ["nixpkgs", r] => some (.nixpkgs r)
  | ["gen", h] => some (.gen h)
  | ["derived", x] => (Text.splitOnce ':' x).map fun p => .derived p.1 p.2
  | ["git", repo, sha] => some (.commit (decodeSegment repo) sha)
  | ["oci", "sha256", d] => some (.image d)
  | ["fragment", "out", h] => some (.out h)
  | ["fragment", "index", x] => (Text.stripPrefix? "nixpkgs-multiverse-" x).map .index
  | ["fragment", "run", x] => (Text.splitOnce ':' x).map fun p => .run p.1 p.2
  | ["fragment", "values", h] => some (.value h)
  | ["fragment", "env", h] => some (.env h)
  | ["k8s", cluster, "snapshot", h] => some (.k8sSnapshot (decodeSegment cluster) h)
  | ["k8s", cluster, "nodes", h] => some (.k8sNodes (decodeSegment cluster) h)
  | ["fragment", "k8s-observed", cluster, h, o] =>
      some (.k8sObserved (decodeSegment cluster) h (decodeSegment o))
  | _ => none

def isExt : FragmentKind → Bool
  | ext _ _ => true
  | _ => false

theorem splitOnce_colon {r : String} (h : Alphanumeric r) (i : String) :
    Text.splitOnce ':' (r ++ ":" ++ i) = some (r, i) :=
  Text.splitOnce_append (h.not_mem (by decide)) i

theorem readGraph_graphSegs {k : FragmentKind} (h : k.WellFormed) (hext : k.isExt = false) :
    readGraph k.graphSegs = some k := by
  cases k with
  | src n => exact congrArg (fun n => some (src n)) (decodeNar_narHashSegment h)
  | pin n => exact congrArg (fun n => some (pin n)) (decodeNar_narHashSegment h)
  | commit repo sha => exact congrArg (fun r => some (commit r sha)) (decodeSegment_encodeSegment repo)
  | derived r i =>
      have hread : readGraph (derived r i).graphSegs
          = (Text.splitOnce ':' (r ++ ":" ++ i)).map fun p => .derived p.1 p.2 := rfl
      rw [hread, splitOnce_colon h.1]
      rfl
  | run r i =>
      have hread : readGraph (run r i).graphSegs
          = (Text.splitOnce ':' (r ++ ":" ++ i)).map fun p => .run p.1 p.2 := rfl
      rw [hread, splitOnce_colon h.1]
      rfl
  | index d =>
      have hread : readGraph (index d).graphSegs
          = (Text.stripPrefix? "nixpkgs-multiverse-" ("nixpkgs-multiverse-" ++ d)).map .index := rfl
      rw [hread, Text.stripPrefix?_append]
      rfl
  | k8sSnapshot c d =>
      exact congrArg (fun c => some (k8sSnapshot c d)) (decodeSegment_encodeSegment c)
  | k8sNodes c d => exact congrArg (fun c => some (k8sNodes c d)) (decodeSegment_encodeSegment c)
  | k8sObserved c d o =>
      have hread : readGraph (k8sObserved c d o).graphSegs = some (.k8sObserved
          (decodeSegment (encodeSegment c)) d (decodeSegment (encodeSegment o))) := rfl
      rw [hread, decodeSegment_encodeSegment, decodeSegment_encodeSegment]
  | ext kind ident => cases hext
  | _ => rfl

theorem slash_not_mem_graphSegs {k : FragmentKind} (h : k.WellFormed) :
    ∀ s ∈ k.graphSegs, '/' ∉ s.toList := by
  have hslash : isAsciiAlphanumeric '/' = false := by decide
  cases k with
  | src n | pin n =>
      simp only [graphSegs, List.forall_mem_cons, List.not_mem_nil, IsEmpty.forall_iff, implies_true,
        and_true]
      exact ⟨by decide, slash_not_mem_narHashSegment h⟩
  | derived r i | run r i =>
      simp only [graphSegs, List.forall_mem_cons, List.not_mem_nil, IsEmpty.forall_iff, implies_true,
        and_true, String.toList_append, List.mem_append, not_or]
      have hr := h.1.not_mem hslash
      have hi := h.2.not_mem hslash
      simp [hr, hi]
  | ext kind ident => simp [graphSegs, slash_not_mem_encodeSegment]
  | _ =>
      have hh := Alphanumeric.not_mem h hslash
      simp [graphSegs, hh, slash_not_mem_encodeSegment]

theorem graph_eq_iff {k k' : FragmentKind} (h : k.WellFormed) (h' : k'.WellFormed) :
    k.graph = k'.graph ↔ k.graphSegs = k'.graphSegs := by
  have hne : ∀ k : FragmentKind, k.graphSegs ≠ [] := by
    intro k
    cases k <;> exact List.cons_ne_nil _ _
  rw [graph_eq_segs, graph_eq_segs, id_inj,
    Text.slash_inj (hne k) (hne k') (slash_not_mem_graphSegs h) (slash_not_mem_graphSegs h')]

/-- The two segments of a graph that has no more, for the kinds that have a name of their own. -/
def entity? : FragmentKind → Option (String × String)
  | drv h => some ("drv", h)
  | src n => some ("src", narHashSegment n)
  | pin n => some ("pin", narHashSegment n)
  | nixpkgs r => some ("nixpkgs", r)
  | gen h => some ("gen", h)
  | derived ruleset input => some ("derived", ruleset ++ ":" ++ input)
  | _ => none

theorem graphSegs_eq_ext {k : FragmentKind} (hext : k.isExt = false) {kind ident : String} :
    k.graphSegs = (ext kind ident).graphSegs ↔ k.entity? = some (kind, encodeSegment ident) := by
  have hname : ∀ {s : String}, encodeSegment s = s → (s = encodeSegment kind ↔ s = kind) := by
    intro s hs
    rw [← encodeSegment_inj (s := s) (t := kind), hs]
  have hdrv := hname (s := "drv") (by decide)
  have hsrc := hname (s := "src") (by decide)
  have hpin := hname (s := "pin") (by decide)
  have hnixpkgs := hname (s := "nixpkgs") (by decide)
  have hgen := hname (s := "gen") (by decide)
  have hderived := hname (s := "derived") (by decide)
  cases k with
  | ext kind ident => cases hext
  | _ => simp [graphSegs, entity?, hdrv, hsrc, hpin, hnixpkgs, hgen, hderived]

/-! ## Paths -/

/-- The components of `dir/mid/rest` when `mid` alone may be dropped or lead back up. -/
def placed (dir mid : String) (rest : List String) : List String :=
  if Dropped mid then dir :: rest
  else if mid = ".." then rest
  else dir :: mid :: rest

theorem resolved_placed {dir mid : String} {rest : List String} (hdir : Proper dir)
    (hrest : ∀ s ∈ rest, Proper s) :
    ((dir :: mid :: rest).foldl resolveStep []).reverse = placed dir mid rest := by
  rw [List.foldl_cons, List.foldl_cons, resolveStep_proper hdir, foldl_resolveStep hrest, placed]
  by_cases hmid : Dropped mid
  · rw [if_pos hmid, resolveStep_dropped hmid]
    simp
  · by_cases hparent : mid = ".."
    · rw [if_neg hmid, if_pos hparent, hparent, resolveStep_up hdir.2]
      simp
    · rw [if_neg hmid, if_neg hparent, resolveStep_proper ⟨hmid, hparent⟩]
      simp

/-- The directory of a kind, the component below it that holds arbitrary text, the rest of the path. -/
def place : FragmentKind → String × String × List String
  | drv h => ("drv", "", [h ++ suffix])
  | out h => ("out", "", [h ++ suffix])
  | src n => ("src", "", [narHashSegment n ++ suffix])
  | pin n => ("pin", "", [narHashSegment n ++ suffix])
  | nixpkgs r => ("nixpkgs", "", [r ++ suffix])
  | commit repo sha => ("commit", encodeSegment repo, [sha ++ suffix])
  | gen h => ("gen", "", [h ++ suffix])
  | image d => ("image", "", [d ++ suffix])
  | index h => ("index", "", ["nixpkgs-multiverse-" ++ h ++ suffix])
  | derived ruleset input => ("derived", ruleset, [input ++ suffix])
  | run ruleset input => ("runs", ruleset, [input ++ suffix])
  | value h => ("values", "", [h ++ suffix])
  | env h => ("env", "", [h ++ suffix])
  | k8sSnapshot cluster hash => ("k8s", encodeSegment cluster, ["snapshot", hash ++ suffix])
  | k8sNodes cluster hash => ("k8s", encodeSegment cluster, ["nodes", hash ++ suffix])
  | k8sObserved cluster hash observedAt =>
      ("k8s", encodeSegment cluster, ["observed", hash ++ "-" ++ encodeSegment observedAt ++ suffix])
  | ext kind ident => ("ext", encodeSegment kind, [encodeSegment ident ++ suffix])

def dir (k : FragmentKind) : String := k.place.1
def mid (k : FragmentKind) : String := k.place.2.1
def rest (k : FragmentKind) : List String := k.place.2.2

/-- The components of the path of a kind. -/
def components (k : FragmentKind) : List String := placed k.dir k.mid k.rest

theorem proper_suffix (s : String) : Proper (s ++ suffix) := by
  have hlen : (s ++ suffix).toList.length = s.toList.length + 7 := by
    rw [String.toList_append, List.length_append]
    rfl
  refine ⟨?_, ?_⟩
  · rintro (h | h) <;> rw [h] at hlen <;> simp at hlen
  · rintro h
    rw [h] at hlen
    simp at hlen

def dirs : List String :=
  ["drv", "out", "src", "pin", "nixpkgs", "commit", "gen", "image", "index", "derived", "runs",
    "values", "env", "k8s", "ext"]

theorem dir_mem (k : FragmentKind) : k.dir ∈ dirs := by
  cases k <;> simp [dir, place, dirs]

theorem proper_dir (k : FragmentKind) : Proper k.dir := by
  have hdirs : ∀ d ∈ dirs, Proper d := by decide
  exact hdirs _ k.dir_mem

theorem proper_rest (k : FragmentKind) : ∀ s ∈ k.rest, Proper s := by
  have hname : ∀ s ∈ ["snapshot", "nodes", "observed"], Proper s := by
    intro s hs
    simp only [List.mem_cons, List.not_mem_nil, or_false] at hs
    rcases hs with rfl | rfl | rfl <;> exact ⟨by decide, by decide⟩
  cases k <;> simp [rest, place, proper_suffix, hname]

theorem slash_not_mem_place {k : FragmentKind} (h : k.WellFormed) :
    '/' ∉ k.dir.toList ∧ '/' ∉ k.mid.toList ∧ ∀ s ∈ k.rest, '/' ∉ s.toList := by
  have hslash : isAsciiAlphanumeric '/' = false := by decide
  have hsuf : '/' ∉ suffix.toList := by decide
  cases k with
  | src n | pin n =>
      simp [dir, mid, rest, place, slash_not_mem_narHashSegment h, hsuf]
  | derived r i | run r i =>
      simp [dir, mid, rest, place, h.1.not_mem hslash, h.2.not_mem hslash, hsuf]
  | ext kind ident => simp [dir, mid, rest, place, slash_not_mem_encodeSegment, hsuf]
  | _ =>
      have hh := Alphanumeric.not_mem h hslash
      simp [dir, mid, rest, place, hh, slash_not_mem_encodeSegment, hsuf]

theorem rest_ne_nil (k : FragmentKind) : k.rest ≠ [] := by
  cases k <;> exact List.cons_ne_nil _ _

/-- The component with arbitrary text is in the path, or it is empty and left out. -/
theorem relativePath_eq (k : FragmentKind) : k.relativePath = slash (k.dir :: k.mid :: k.rest) ∨
    (k.relativePath = slash (k.dir :: k.rest) ∧ k.mid = "") := by
  cases k with
  | commit | derived | run | k8sSnapshot | k8sNodes | k8sObserved | ext => exact .inl rfl
  | _ => exact .inr ⟨rfl, rfl⟩

theorem head_dir : ∀ d ∈ dirs, head d = some d := by
  decide +kernel

/-- The path of a kind begins with its directory. -/
theorem head_relativePath (k : FragmentKind) : head k.relativePath = some k.dir := by
  have hdir := head_dir _ k.dir_mem
  have hbelow : ∃ seg segs, k.relativePath = k.dir ++ "/" ++ slash (seg :: segs) := by
    rcases k.relativePath_eq with hrel | ⟨hrel, _⟩
    · exact ⟨k.mid, k.rest, by rw [hrel, Text.slash_cons]⟩
    · obtain ⟨seg, segs, hrest⟩ := List.exists_cons_of_ne_nil k.rest_ne_nil
      exact ⟨seg, segs, by rw [hrel, hrest, Text.slash_cons]⟩
  obtain ⟨seg, segs, hrel⟩ := hbelow
  rw [hrel]
  exact head_below (Store.startsWith_append _ _) hdir

theorem up_not_mem {k : FragmentKind} (h : k.WellFormed) (hmid : k.mid ≠ "..") :
    ".." ∉ Text.split '/' k.relativePath := by
  obtain ⟨hdir, hslash, hrest⟩ := slash_not_mem_place h
  have hparts : ".." ≠ k.dir ∧ ".." ∉ k.rest := ⟨k.proper_dir.2.symm, fun hmem => (k.proper_rest _ hmem).2 rfl⟩
  rcases k.relativePath_eq with hrel | ⟨hrel, _⟩
  · rw [hrel, split_slash (List.cons_ne_nil _ _) (by simpa using ⟨hdir, hslash, hrest⟩), List.mem_cons, List.mem_cons]
    simp [hparts, hmid.symm]
  · rw [hrel, split_slash (List.cons_ne_nil _ _) (by simpa using ⟨hdir, hrest⟩), List.mem_cons]
    simp [hparts]

theorem pathOf_eq_slash {k : FragmentKind} (h : k.WellFormed) :
    Store.pathOf k = slash k.components := by
  obtain ⟨hdir, hmid, hrest⟩ := slash_not_mem_place h
  have hdirs : ∀ s ∈ k.dir :: k.rest, Proper s :=
    List.forall_mem_cons.mpr ⟨k.proper_dir, k.proper_rest⟩
  rcases k.relativePath_eq with hrel | ⟨hrel, hempty⟩
  · rw [Store.pathOf, resolvePath, hrel, split_slash (List.cons_ne_nil _ _),
      resolved_placed k.proper_dir k.proper_rest, components]
    simpa using ⟨hdir, hmid, hrest⟩
  · rw [Store.pathOf, resolvePath, hrel, split_slash (List.cons_ne_nil _ _), foldl_resolveStep hdirs,
      List.append_nil, List.reverse_reverse, components, placed, if_pos (.inl hempty)]
    simpa using ⟨hdir, hrest⟩

theorem components_ne_nil (k : FragmentKind) : k.components ≠ [] := by
  rw [components, placed]
  split
  · exact List.cons_ne_nil _ _
  · split
    · exact k.rest_ne_nil
    · exact List.cons_ne_nil _ _

theorem mem_components {k : FragmentKind} {s : String} (h : s ∈ k.components) :
    s = k.dir ∨ (s = k.mid ∧ Proper s) ∨ s ∈ k.rest := by
  rw [components, placed] at h
  split at h
  · rcases List.mem_cons.mp h with h | h
    · exact .inl h
    · exact .inr (.inr h)
  · rename_i hmid
    split at h
    · exact .inr (.inr h)
    · rename_i hup
      rcases List.mem_cons.mp h with h | h
      · exact .inl h
      · rcases List.mem_cons.mp h with rfl | h
        · exact .inr (.inl ⟨rfl, hmid, hup⟩)
        · exact .inr (.inr h)

theorem slash_not_mem_components {k : FragmentKind} (h : k.WellFormed) :
    ∀ s ∈ k.components, '/' ∉ s.toList := by
  obtain ⟨hdir, hmid, hrest⟩ := slash_not_mem_place h
  intro s hs
  rcases mem_components hs with rfl | ⟨rfl, _⟩ | hs
  · exact hdir
  · exact hmid
  · exact hrest s hs

theorem pathOf_eq_iff {k k' : FragmentKind} (h : k.WellFormed) (h' : k'.WellFormed) :
    Store.pathOf k = Store.pathOf k' ↔ k.components = k'.components := by
  rw [pathOf_eq_slash h, pathOf_eq_slash h', Text.slash_inj k.components_ne_nil k'.components_ne_nil
    (slash_not_mem_components h) (slash_not_mem_components h')]

def unsuffix (s : String) : String := (Text.stripSuffix? suffix s).getD ""

@[simp] theorem unsuffix_append (s : String) : unsuffix (s ++ suffix) = s := by
  rw [unsuffix, Text.stripSuffix?_append]
  rfl

/-- The kind that has this place. -/
def readPlace : String → String → List String → Option FragmentKind
  | "drv", _, [x] => some (.drv (unsuffix x))
  | "out", _, [x] => some (.out (unsuffix x))
  | "src", _, [x] => some (.src (decodeNar (unsuffix x)))
  | "pin", _, [x] => some (.pin (decodeNar (unsuffix x)))
  | "nixpkgs", _, [x] => some (.nixpkgs (unsuffix x))
  | "commit", mid, [x] => some (.commit (decodeSegment mid) (unsuffix x))
  | "gen", _, [x] => some (.gen (unsuffix x))
  | "image", _, [x] => some (.image (unsuffix x))
  | "index", _, [x] => (Text.stripPrefix? "nixpkgs-multiverse-" (unsuffix x)).map .index
  | "derived", mid, [x] => some (.derived mid (unsuffix x))
  | "runs", mid, [x] => some (.run mid (unsuffix x))
  | "values", _, [x] => some (.value (unsuffix x))
  | "env", _, [x] => some (.env (unsuffix x))
  | "k8s", mid, ["snapshot", x] => some (.k8sSnapshot (decodeSegment mid) (unsuffix x))
  | "k8s", mid, ["nodes", x] => some (.k8sNodes (decodeSegment mid) (unsuffix x))
  | "k8s", mid, ["observed", x] =>
      (Text.splitOnce '-' (unsuffix x)).map fun p =>
        .k8sObserved (decodeSegment mid) p.1 (decodeSegment p.2)
  | "ext", mid, [x] => some (.ext (decodeSegment mid) (decodeSegment (unsuffix x)))
  | _, _, _ => none

theorem readPlace_place {k : FragmentKind} (h : k.WellFormed) :
    readPlace k.dir k.mid k.rest = some k := by
  cases k with
  | src n | pin n => simp [dir, mid, rest, place, readPlace, decodeNar_narHashSegment h]
  | index d =>
      have hstrip := Text.stripPrefix?_append "nixpkgs-multiverse-" d
      simp [dir, mid, rest, place, readPlace, hstrip]
  | k8sObserved c d o =>
      have hdash : '-' ∉ d.toList := Alphanumeric.not_mem h (by decide)
      have hsplit : Text.splitOnce '-' (d ++ "-" ++ encodeSegment o) = some (d, encodeSegment o) :=
        Text.splitOnce_append hdash _
      simp [dir, mid, rest, place, readPlace, hsplit]
  | _ => simp [dir, mid, rest, place, readPlace]

/-! ## Clashes -/

/-- Two kinds with one graph or one file. An extension takes the graph of a kind with two segments.
Repositories, clusters and extension kinds that are empty or a dot leave no component in the path;
two dots lead out of the kind's directory, where a commit can meet an extension. -/
inductive Clash : FragmentKind → FragmentKind → Prop
  | entity {k : FragmentKind} {kind ident : String} :
      k.entity? = some (kind, encodeSegment ident) → Clash k (.ext kind ident)
  | commit {repo repo' : String} (sha : String) :
      Dropped repo → Dropped repo' → repo ≠ repo' → Clash (.commit repo sha) (.commit repo' sha)
  | k8sSnapshot {c c' : String} (hash : String) :
      Dropped c → Dropped c' → c ≠ c' → Clash (.k8sSnapshot c hash) (.k8sSnapshot c' hash)
  | k8sNodes {c c' : String} (hash : String) :
      Dropped c → Dropped c' → c ≠ c' → Clash (.k8sNodes c hash) (.k8sNodes c' hash)
  | k8sObserved {c c' : String} (hash observedAt : String) :
      Dropped c → Dropped c' → c ≠ c' →
        Clash (.k8sObserved c hash observedAt) (.k8sObserved c' hash observedAt)
  | ext {kind kind' : String} (ident : String) :
      Dropped kind → Dropped kind' → kind ≠ kind' → Clash (.ext kind ident) (.ext kind' ident)
  | above (ident : String) : Clash (.commit ".." (encodeSegment ident)) (.ext ".." ident)

theorem encodeSegment_dropped {s : String} : Dropped (encodeSegment s) ↔ Dropped s := by
  have hempty : encodeSegment "" = "" := by decide
  have hdot : encodeSegment "." = "." := by decide
  constructor
  · rintro (h | h)
    · exact .inl (encodeSegment_injective (h.trans hempty.symm))
    · exact .inr (encodeSegment_injective (h.trans hdot.symm))
  · rintro (rfl | rfl)
    · exact .inl hempty
    · exact .inr hdot

theorem encodeSegment_up {s : String} : encodeSegment s = ".." ↔ s = ".." := by
  have hup : encodeSegment ".." = ".." := by decide
  rw [← encodeSegment_inj (s := s), hup]

theorem Clash.ne {k k' : FragmentKind} (h : Clash k k') : k ≠ k' := by
  cases h with
  | entity h =>
      rintro rfl
      cases h
  | above => exact FragmentKind.noConfusion
  | _ =>
      rename_i hne
      rintro ⟨⟩
      exact hne rfl

theorem Clash.graph_or_path {k k' : FragmentKind} (hc : Clash k k') (h : k.WellFormed)
    (h' : k'.WellFormed) : k.graph = k'.graph ∨ Store.pathOf k = Store.pathOf k' := by
  rw [graph_eq_iff h h', pathOf_eq_iff h h']
  cases hc with
  | @entity _ kind ident hk =>
      have hext : k.isExt = false := by
        cases k with
        | ext => cases hk
        | _ => rfl
      exact .inl ((graphSegs_eq_ext hext).mpr hk)
  | above ident =>
      have hup : encodeSegment ".." = ".." := by decide
      refine .inr ?_
      simp [components, placed, mid, rest, place, hup, Dropped]
  | commit _ hd hd' | k8sSnapshot _ hd hd' | k8sNodes _ hd hd' | k8sObserved _ _ hd hd' | ext _ hd hd' =>
      refine .inr ?_
      simp [components, placed, dir, mid, rest, place, encodeSegment_dropped.mpr hd,
        encodeSegment_dropped.mpr hd']

theorem eq_or_clash_of_graph {k k' : FragmentKind} (h : k.WellFormed) (h' : k'.WellFormed)
    (heq : k.graphSegs = k'.graphSegs) : k = k' ∨ Clash k k' ∨ Clash k' k := by
  by_cases hext : k.isExt = false
  · by_cases hext' : k'.isExt = false
    · have hread := readGraph_graphSegs h hext
      rw [heq, readGraph_graphSegs h' hext', Option.some.injEq] at hread
      exact .inl hread.symm
    · cases k' with
      | ext kind ident => exact .inr (.inl (.entity ((graphSegs_eq_ext hext).mp heq)))
      | _ => exact absurd rfl hext'
  · cases k with
    | ext kind ident =>
        by_cases hext' : k'.isExt = false
        · exact .inr (.inr (.entity ((graphSegs_eq_ext hext').mp heq.symm)))
        · cases k' with
          | ext kind' ident' =>
              simp only [graphSegs, List.cons.injEq, encodeSegment_inj, and_true] at heq
              rw [heq.1, heq.2]
              exact .inl rfl
          | _ => exact absurd rfl hext'
    | _ => exact absurd rfl hext

theorem length_rest (k : FragmentKind) : k.rest.length = if k.dir = "k8s" then 2 else 1 := by
  cases k <;> rfl

theorem head_rest_not_mem (k : FragmentKind) {a b : String} (h : k.rest = [a, b]) : a ∉ dirs := by
  have hno : "snapshot" ∉ dirs ∧ "nodes" ∉ dirs ∧ "observed" ∉ dirs := by decide
  cases k with
  | k8sSnapshot | k8sNodes | k8sObserved =>
      simp only [rest, place, List.cons.injEq] at h
      rw [← h.1]
      first | exact hno.1 | exact hno.2.1 | exact hno.2.2
  | _ => simp [rest, place] at h

/-- What two kinds with one path have in common. -/
theorem components_eq {k k' : FragmentKind} (heq : k.components = k'.components) :
    (k.dir = k'.dir ∧ k.rest = k'.rest ∧ (k.mid = k'.mid ∨ (Dropped k.mid ∧ Dropped k'.mid))) ∨
      (k.mid = ".." ∧ k'.mid = ".." ∧ k.rest = k'.rest) := by
  have hlen := k.length_rest
  have hlen' := k'.length_rest
  -- A path that leads out of its directory is no path of a directory.
  have hup : ∀ {j j' : FragmentKind}, j.dir :: j.rest ≠ j'.rest := by
    intro j j' he
    have hj := j.length_rest
    have hj' := j'.length_rest
    have hl := congrArg List.length he
    rw [List.length_cons] at hl
    obtain ⟨b, hb⟩ := List.length_eq_one_iff.mp (show j.rest.length = 1 by split at hj <;> split at hj' <;> omega)
    rw [hb] at he
    exact j'.head_rest_not_mem he.symm j.dir_mem
  have hkept : ∀ {j j' : FragmentKind}, j.dir :: j.rest ≠ j'.dir :: j'.mid :: j'.rest := by
    intro j j' he
    rw [List.cons.injEq] at he
    have hl := congrArg List.length he.2
    rw [List.length_cons, j.length_rest, j'.length_rest, he.1] at hl
    omega
  have hlong : ∀ {j j' : FragmentKind}, j.rest ≠ j'.dir :: j'.mid :: j'.rest := by
    intro j j' he
    have hl := congrArg List.length he
    rw [List.length_cons, List.length_cons, j.length_rest, j'.length_rest] at hl
    split at hl <;> split at hl <;> omega
  unfold components placed at heq
  by_cases hd : Dropped k.mid <;> by_cases hd' : Dropped k'.mid
  · rw [if_pos hd, if_pos hd', List.cons.injEq] at heq
    exact .inl ⟨heq.1, heq.2, .inr ⟨hd, hd'⟩⟩
  · rw [if_pos hd, if_neg hd'] at heq
    split at heq
    · exact absurd heq hup
    · exact absurd heq hkept
  · rw [if_neg hd, if_pos hd'] at heq
    split at heq
    · exact absurd heq.symm hup
    · exact absurd heq.symm hkept
  · rw [if_neg hd, if_neg hd'] at heq
    split at heq <;> split at heq
    · rename_i hu hu'
      exact .inr ⟨hu, hu', heq⟩
    · exact absurd heq hlong
    · exact absurd heq.symm hlong
    · rw [List.cons.injEq, List.cons.injEq] at heq
      exact .inl ⟨heq.1, heq.2.2, .inl heq.2.1⟩

theorem Alphanumeric.dropped {s : String} (h : Alphanumeric s) (hd : Dropped s) : s = "" := by
  rcases hd with rfl | rfl
  · rfl
  · exact absurd h (by decide)

theorem eq_or_clash_of_dropped {k k' : FragmentKind} (h : k.WellFormed) (h' : k'.WellFormed)
    (hd : Dropped k.mid) (hd' : Dropped k'.mid) (hdir : k.dir = k'.dir) (hrest : k.rest = k'.rest) :
    k = k' ∨ Clash k k' := by
  have hread := readPlace_place h'
  rw [← hdir, ← hrest] at hread
  generalize k'.mid = m at hread
  cases k with
  | src n | pin n =>
      simp only [dir, rest, place, readPlace, unsuffix_append, decodeNar_narHashSegment h,
        Option.some.injEq] at hread
      exact .inl hread
  | index d =>
      have hstrip := Text.stripPrefix?_append "nixpkgs-multiverse-" d
      simp only [dir, rest, place, readPlace, unsuffix_append, hstrip, Option.map_some,
        Option.some.injEq] at hread
      exact .inl hread
  | derived r i | run r i =>
      simp only [dir, rest, place, readPlace, unsuffix_append, Option.some.injEq] at hread
      subst hread
      have hr : r = "" := Alphanumeric.dropped h.1 hd
      have hr' : m = "" := Alphanumeric.dropped h'.1 hd'
      rw [hr, hr']
      exact .inl rfl
  | commit repo sha =>
      simp only [dir, rest, place, readPlace, unsuffix_append, Option.some.injEq] at hread
      subst hread
      by_cases hne : repo = decodeSegment m
      · exact .inl (by rw [hne])
      · exact .inr (.commit sha (encodeSegment_dropped.mp hd) (encodeSegment_dropped.mp hd') hne)
  | k8sSnapshot c hash =>
      simp only [dir, rest, place, readPlace, unsuffix_append, Option.some.injEq] at hread
      subst hread
      by_cases hne : c = decodeSegment m
      · exact .inl (by rw [hne])
      · exact .inr (.k8sSnapshot hash (encodeSegment_dropped.mp hd) (encodeSegment_dropped.mp hd') hne)
  | k8sNodes c hash =>
      simp only [dir, rest, place, readPlace, unsuffix_append, Option.some.injEq] at hread
      subst hread
      by_cases hne : c = decodeSegment m
      · exact .inl (by rw [hne])
      · exact .inr (.k8sNodes hash (encodeSegment_dropped.mp hd) (encodeSegment_dropped.mp hd') hne)
  | k8sObserved c hash o =>
      have hdash : '-' ∉ hash.toList := Alphanumeric.not_mem h (by decide)
      have hsplit : Text.splitOnce '-' (hash ++ "-" ++ encodeSegment o) = some (hash, encodeSegment o) :=
        Text.splitOnce_append hdash _
      simp only [dir, rest, place, readPlace, unsuffix_append, hsplit, Option.map_some,
        decodeSegment_encodeSegment, Option.some.injEq] at hread
      subst hread
      by_cases hne : c = decodeSegment m
      · exact .inl (by rw [hne])
      · exact .inr (.k8sObserved hash o (encodeSegment_dropped.mp hd) (encodeSegment_dropped.mp hd') hne)
  | ext kind ident =>
      simp only [dir, rest, place, readPlace, unsuffix_append, decodeSegment_encodeSegment,
        Option.some.injEq] at hread
      subst hread
      by_cases hne : kind = decodeSegment m
      · exact .inl (by rw [hne])
      · exact .inr (.ext ident (encodeSegment_dropped.mp hd) (encodeSegment_dropped.mp hd') hne)
  | _ =>
      simp only [dir, rest, place, readPlace, unsuffix_append, Option.some.injEq] at hread
      exact .inl hread

/-- The kinds whose path leads out of its directory. -/
theorem up_cases {k : FragmentKind} (h : k.WellFormed) (hup : k.mid = "..") :
    (∃ sha, k = .commit ".." sha) ∨ (∃ ident, k = .ext ".." ident) ∨
      (∃ hash, k = .k8sSnapshot ".." hash) ∨ (∃ hash, k = .k8sNodes ".." hash) ∨
      ∃ hash o, k = .k8sObserved ".." hash o := by
  have hno : ∀ s, Alphanumeric s → s ≠ ".." := by
    rintro s hs rfl
    exact absurd hs (by decide)
  cases k with
  | commit repo sha =>
      obtain rfl := encodeSegment_up.mp hup
      exact .inl ⟨sha, rfl⟩
  | ext kind ident =>
      obtain rfl := encodeSegment_up.mp hup
      exact .inr (.inl ⟨ident, rfl⟩)
  | k8sSnapshot c hash =>
      obtain rfl := encodeSegment_up.mp hup
      exact .inr (.inr (.inl ⟨hash, rfl⟩))
  | k8sNodes c hash =>
      obtain rfl := encodeSegment_up.mp hup
      exact .inr (.inr (.inr (.inl ⟨hash, rfl⟩)))
  | k8sObserved c hash o =>
      obtain rfl := encodeSegment_up.mp hup
      exact .inr (.inr (.inr (.inr ⟨hash, o, rfl⟩)))
  | derived r i | run r i => exact absurd hup (hno r h.1)
  | _ => exact absurd hup (by decide : ("" : String) ≠ "..")

theorem eq_or_clash_of_up {k k' : FragmentKind} (h : k.WellFormed) (h' : k'.WellFormed)
    (hup : k.mid = "..") (hup' : k'.mid = "..") (hrest : k.rest = k'.rest) :
    k = k' ∨ Clash k k' ∨ Clash k' k := by
  have hsame : ∀ {k k' : FragmentKind}, k.WellFormed → k'.WellFormed → k.dir = k'.dir →
      k.mid = k'.mid → k.rest = k'.rest → k = k' := by
    intro k k' h h' hd hm hr
    have hread := readPlace_place h
    rw [hd, hm, hr, readPlace_place h', Option.some.injEq] at hread
    exact hread.symm
  rcases up_cases h hup with ⟨sha, rfl⟩ | ⟨ident, rfl⟩ | ⟨hash, rfl⟩ | ⟨hash, rfl⟩ | ⟨hash, o, rfl⟩ <;>
    rcases up_cases h' hup' with ⟨sha', rfl⟩ | ⟨ident', rfl⟩ | ⟨hash', rfl⟩ | ⟨hash', rfl⟩ | ⟨hash', o', rfl⟩ <;>
    first
      | exact .inl (hsame h h' rfl rfl hrest)
      | (simp only [rest, place, List.cons.injEq, and_true, String.append_left_inj] at hrest
         subst hrest
         first
           | exact .inr (.inl (.above _))
           | exact .inr (.inr (.above _)))
      | exact absurd (congrArg List.length hrest) (by decide)
      | exact absurd hrest (by simp [rest, place])

theorem eq_or_clash_of_path {k k' : FragmentKind} (h : k.WellFormed) (h' : k'.WellFormed)
    (heq : k.components = k'.components) : k = k' ∨ Clash k k' ∨ Clash k' k := by
  rcases components_eq heq with ⟨hdir, hrest, hmid | ⟨hd, hd'⟩⟩ | ⟨hup, hup', hrest⟩
  · have hread := readPlace_place h
    rw [hdir, hmid, hrest, readPlace_place h', Option.some.injEq] at hread
    exact .inl hread.symm
  · rcases eq_or_clash_of_dropped h h' hd hd' hdir hrest with rfl | hc
    · exact .inl rfl
    · exact .inr (.inl hc)
  · exact eq_or_clash_of_up h h' hup hup' hrest

/-- The file of a kind is below the root of the store. -/
def StaysInside (k : FragmentKind) : Prop :=
  Text.startsWith "/" k.relativePath = false ∧ ".." ∉ Text.split '/' (Store.pathOf k)

theorem relative_of_dir {d : String} (hd : d ∈ dirs) (segs : List String) :
    Text.startsWith "/" (slash (d :: segs)) = false := by
  have hdirs : ∀ d ∈ dirs, d.toList.head? ≠ none ∧ d.toList.head? ≠ some '/' := by decide
  obtain ⟨hne, hslash⟩ := hdirs d hd
  have hfirst : (slash (d :: segs)).toList.head? = d.toList.head? := by
    cases segs with
    | nil => rw [Text.slash_singleton]
    | cons s segs =>
        rw [Text.slash_cons, String.append_assoc, String.toList_append]
        exact List.head?_append_of_ne_nil _ fun he => hne (by rw [he]; rfl)
  rw [Text.startsWith, Bool.eq_false_iff]
  intro hpre
  rw [← hfirst] at hslash
  obtain ⟨t, ht⟩ := List.isPrefixOf_iff_prefix.mp hpre
  rw [← ht] at hslash
  exact hslash rfl

theorem staysInside {k : FragmentKind} (h : k.WellFormed) : k.StaysInside := by
  constructor
  · rcases k.relativePath_eq with hrel | ⟨hrel, _⟩
    · rw [hrel]
      exact relative_of_dir k.dir_mem _
    · rw [hrel]
      exact relative_of_dir k.dir_mem _
  · rw [pathOf_eq_slash h, split_slash k.components_ne_nil (slash_not_mem_components h)]
    intro hmem
    rcases mem_components hmem with hd | ⟨_, hp⟩ | hr
    · exact k.proper_dir.2 hd.symm
    · exact hp.2 rfl
    · exact (k.proper_rest _ hr).2 rfl

/-- One identity, one file, one graph, and the file in the store: exactly where nothing clashes. -/
theorem same_identity_iff {k k' : FragmentKind} (h : k.WellFormed) (h' : k'.WellFormed) :
    ((k.graph = k'.graph ↔ Store.pathOf k = Store.pathOf k') ∧
        (Store.pathOf k = Store.pathOf k' ↔ k = k') ∧ k.StaysInside ∧ k'.StaysInside) ↔
      ¬ Clash k k' ∧ ¬ Clash k' k := by
  constructor
  · rintro ⟨hgraph, hpath, _, _⟩
    have hsame : k.graph = k'.graph ∨ Store.pathOf k = Store.pathOf k' → k = k' := by
      rintro (he | he)
      · exact hpath.mp (hgraph.mp he)
      · exact hpath.mp he
    refine ⟨fun hc => hc.ne (hsame (hc.graph_or_path h h')), fun hc => hc.ne (hsame ?_).symm⟩
    rcases hc.graph_or_path h' h with he | he
    · exact .inl he.symm
    · exact .inr he.symm
  · rintro ⟨hno, hno'⟩
    have hgraph : k.graph = k'.graph ↔ k = k' := by
      refine ⟨fun he => ?_, fun he => by rw [he]⟩
      rcases eq_or_clash_of_graph h h' ((graph_eq_iff h h').mp he) with he | hc | hc
      · exact he
      · exact absurd hc hno
      · exact absurd hc hno'
    have hpath : Store.pathOf k = Store.pathOf k' ↔ k = k' := by
      refine ⟨fun he => ?_, fun he => by rw [he]⟩
      rcases eq_or_clash_of_path h h' ((pathOf_eq_iff h h').mp he) with he | hc | hc
      · exact he
      · exact absurd hc hno
      · exact absurd hc hno'
    exact ⟨hgraph.trans hpath.symm, hpath, staysInside h, staysInside h'⟩

/-- An extension takes the graph of a derivation. -/
theorem graph_of_ext_drv :
    ¬ ∀ k k' : FragmentKind, k.WellFormed → k'.WellFormed →
      ((k.graph = k'.graph ↔ Store.pathOf k = Store.pathOf k') ∧
        (Store.pathOf k = Store.pathOf k' ↔ k = k') ∧ k.StaysInside ∧ k'.StaysInside) := by
  intro h
  obtain ⟨hgraph, hpath, _⟩ := h (.drv "abc") (.ext "drv" "abc")
    (by decide : Alphanumeric "abc") trivial
  have hsame : (FragmentKind.drv "abc").graph = (FragmentKind.ext "drv" "abc").graph := by
    decide
  exact FragmentKind.noConfusion (hpath.mp (hgraph.mp hsame))

theorem same_identity_iff_commit :
    (((FragmentKind.commit "" "ab").graph = (FragmentKind.commit "." "ab").graph ↔
        Store.pathOf (.commit "" "ab") = Store.pathOf (.commit "." "ab")) ∧
      (Store.pathOf (.commit "" "ab") = Store.pathOf (.commit "." "ab") ↔
        FragmentKind.commit "" "ab" = .commit "." "ab") ∧
      (FragmentKind.commit "" "ab").StaysInside ∧ (FragmentKind.commit "." "ab").StaysInside) ↔
    ¬ Clash (.commit "" "ab") (.commit "." "ab") ∧ ¬ Clash (.commit "." "ab") (.commit "" "ab") :=
  have h : ∀ url, (FragmentKind.commit url "ab").WellFormed := fun _ => (by decide : Alphanumeric "ab")
  same_identity_iff (h "") (h ".")

end FragmentKind

end Nix2Rdf
