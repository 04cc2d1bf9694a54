import Nix2Rdf.Publish.Fetch
import Nix2Rdf.Reason.Repeat

/-!
# The query index

The index holds the quads of fragment files that were loaded into it. A marker beside it lists the files
that `load` has loaded, and `load --new` passes over those.
-/

namespace Nix2Rdf.Index

open Reason Packs Publish
open Paths (endsAsDir resolvePath)
open Store (mem_fragmentPathsUnder resolvePath_pathOf)

/-- The files, the quads in the index, and the text of `.loaded`. -/
structure Indexed (Bytes : Type) where
  disk : Disk Bytes
  quads : Finset Quad
  marker : String

namespace Indexed

variable {Bytes : Type} (s : Indexed Bytes)

def store : Store Bytes := s.disk.store

def withStore (st : Store Bytes) : Indexed Bytes := { s with disk := { s.disk with store := st } }

/-- What the marker lists. -/
def listed : List String := Text.lines s.marker

variable (st : Store Bytes)

@[simp] theorem store_withStore : (s.withStore st).store = st := rfl
@[simp] theorem quads_withStore : (s.withStore st).quads = s.quads := rfl
@[simp] theorem listed_withStore : (s.withStore st).listed = s.listed := rfl

end Indexed

/-- How the marker lists a path: relative to the root of the store, if it lies there. -/
def listedAs : FragmentPath → String
  | .inside rel => rel
  | .outside abs => abs

/-- What a mirror answers, and whether files from it can be created. -/
structure Mirror (Bytes : Type) where
  entries : List ManifestEntry
  get : String → Result Bytes
  sha256Hex : Bytes → String
  /-- A directory stands at the path. -/
  isDir : String → Bool
  create : String → Result Unit

inductive Op (Bytes : Type) where
  | write (f : Fragment)
  /-- Run the rules and persist the result, with the index or without. -/
  | reason (q : Request) (graph : Bool)
  /-- The index is not there if it cannot be opened. -/
  | gcDerived (keep : List String) (graph : Bool)
  | fetch (m : Mirror Bytes)
  | load (all new : Bool) (paths : List FragmentPath)
  | rebuild

section Commands

variable {Bytes : Type} (c : Codec Bytes) (x : Extern) (r : Readers) (dirs : PackDirs Bytes)

/-! ## Loading -/

def readFragment (d : Disk Bytes) (p : FragmentPath) : Result (Finset Quad) :=
  okOr ("io error: " ++ d.abs p) ((d.file? p).bind c.decode)

def readPaths (d : Disk Bytes) : List FragmentPath → Result (Finset Quad)
  | [] => .ok ∅
  | p :: ps => do
      let qs ← readFragment c d p
      let rest ← readPaths d ps
      return qs ∪ rest

/-- Load many fragment files with one commit. -/
def loadPaths (s : Indexed Bytes) (ps : List FragmentPath) : Result (Indexed Bytes) :=
  (readPaths c s.disk ps).map fun qs => { s with quads := s.quads ∪ qs }

def fragmentFiles (s : Indexed Bytes) : List FragmentPath := s.store.allFragmentPaths.map .inside

/-- What `load` loads. -/
def todo (s : Indexed Bytes) (all new : Bool) (paths : List FragmentPath) : List FragmentPath :=
  let candidates := if all || new then fragmentFiles s else paths
  if new then candidates.filter fun p => listedAs p ∉ s.listed else candidates

def load (s : Indexed Bytes) (all new : Bool) (paths : List FragmentPath) : Indexed Bytes × Result Unit :=
  match loadPaths c s (todo s all new paths) with
  | .error e => (s, .error e)
  | .ok s' =>
      let already := btreeSet (s.listed ++ (todo s all new paths).map listedAs)
      ({ s' with marker := String.join (already.map fun l => l ++ "\n") }, .ok ())

/-- Delete the index and load every fragment from the files. -/
def rebuild (s : Indexed Bytes) : Indexed Bytes × Result Unit :=
  let deleted : Indexed Bytes := { s with quads := ∅, marker := "" }
  match loadPaths c deleted (fragmentFiles s) with
  | .error e => (deleted, .error e)
  | .ok s' => ({ s' with marker := "\n".intercalate s.store.allFragmentPaths ++ "\n" }, .ok ())

/-! ## Rule runs -/

/-- Is there anything in the derived graph of the run? -/
def hasDerived (s : Indexed Bytes) (kind : FragmentKind) : Bool := decide (∃ t ∈ s.quads, t.g = kind.graph)

/-- Write the derived and run fragments and load them into the index. -/
def persist (s : Indexed Bytes) (graph : Bool) (res : RunResult) : Indexed Bytes × Result Unit :=
  let s' := s.withStore (Reason.persist c s.store res)
  if graph && (!res.alreadyExisted || !hasDerived s res.kind) then
    match loadPaths c s' [.inside (Store.pathOf res.derived.kind), .inside (Store.pathOf res.run.kind)] with
    | .error e => (s', .error e)
    | .ok s'' => (s'', .ok ())
  else (s', .ok ())

def reason (s : Indexed Bytes) (q : Request) (graph : Bool) : Indexed Bytes × Result Unit :=
  match run c x r dirs s.store q with
  | (st, .error e) => (s.withStore st, .error e)
  | (st, .ok res) => persist c (s.withStore st) graph res

/-- The name of a derived fragment, without its suffixes. -/
def inputOf (path : String) : String :=
  (fun s => (Text.stripSuffix? FragmentKind.suffix s).getD s)^[path.length] (Text.lastPart '/' path)

/-- The graph that is dropped with a derived fragment. -/
def droppedGraph (path : String) : Iri := (FragmentKind.derived (rulesetOf path) (inputOf path)).graph

def gcFile (graph : Bool) (keep : List String) (sub : String) (s : Indexed Bytes) (p : String) : Indexed Bytes :=
  if rulesetOf p ∈ keep then s
  else
    { s.withStore (s.store.remove p) with
      quads := if sub = "derived" ∧ graph then s.quads.filter fun t => t.g ≠ droppedGraph p else s.quads }

/-- Drop the derived graphs whose ruleset hash is not to be kept. -/
def gcDerived (s : Indexed Bytes) (keep : List String) (graph : Bool) : Indexed Bytes :=
  ["derived", "runs"].foldl (fun s sub => (s.store.fragmentPathsUnder sub).foldl (gcFile graph keep sub) s) s

/-! ## Fetching -/

def Mirror.stands (m : Mirror Bytes) (st : Store Bytes) (path : String) : Bool :=
  m.isDir path || (!endsAsDir path && (st.file? (resolvePath path)).isSome)

def fetchEntry (m : Mirror Bytes) (st : Store Bytes) (e : ManifestEntry) : Store Bytes × Result Unit :=
  if isUnsafe e.path || m.stands st e.path then (st, .ok ())
  else
    match m.get e.path with
    | .error err => (st, .error err)
    | .ok b =>
        if m.sha256Hex b ≠ e.sha256 then (st, .error (e.path ++ ": hash mismatch"))
        else
          match if endsAsDir e.path then .error "io error: not a directory" else m.create e.path with
          | .error err => (st, .error err)
          | .ok () => (st.put e.path b, .ok ())

/-- Fetch the files that are missing; what failed stops the rest. -/
def fetch (m : Mirror Bytes) : Store Bytes → List ManifestEntry → Store Bytes × Result Unit
  | st, [] => (st, .ok ())
  | st, e :: es =>
      match fetchEntry m st e with
      | (st', .error err) => (st', .error err)
      | (st', .ok ()) => fetch m st' es

/-! ## Commands -/

/-- What a command leaves, also when it fails. -/
def apply (s : Indexed Bytes) : Op Bytes → Indexed Bytes × Result Unit
  | .write f => (s.withStore (s.store.write c f).1, .ok ())
  | .reason q graph => reason c x r dirs s q graph
  | .gcDerived keep graph => (gcDerived s keep graph, .ok ())
  | .fetch m => (s.withStore (fetch m s.store m.entries).1, (fetch m s.store m.entries).2)
  | .load all new paths => load c s all new paths
  | .rebuild => rebuild c s

/-- Commands one after another. -/
def Step (s : Indexed Bytes) (op : Op Bytes) (s' : Indexed Bytes) : Prop := (apply c x r dirs s op).1 = s'

/-- Nothing is stored or loaded yet. -/
def start (d : Disk Bytes) : Indexed Bytes := ⟨{ d with store := .empty }, ∅, ""⟩

end Commands

/-! ## Paths -/

/-- The files of rule runs are fragment files. -/
theorem isFragmentPath_ofRun {k : FragmentKind} (h : OfRun k) : Store.isFragmentPath (Store.pathOf k) = true := by
  have hapart : ∀ dir ∈ ["derived", "runs"], ∀ sub ∈ ["oxigraph/", "packs/"],
      ¬ (dir ++ "/").toList <+: sub.toList ∧ ¬ sub.toList <+: (dir ++ "/").toList := by
    decide
  have hdir : k.dir ∈ ["derived", "runs"] := by
    cases h with
    | derived _ _ => exact List.mem_cons_self
    | run _ _ => exact List.mem_cons_of_mem _ List.mem_cons_self
  have hstart := List.isPrefixOf_iff_prefix.mp (startsWith_dir h.wellFormed h.mid_ne_up)
  have hnot : ∀ sub ∈ ["oxigraph/", "packs/"], Text.startsWith sub (Store.pathOf k) = false := by
    intro sub hsub
    rw [Text.startsWith, Bool.eq_false_iff, Ne, List.isPrefixOf_iff_prefix]
    intro hboth
    obtain ⟨hno, hno'⟩ := hapart _ hdir _ hsub
    exact (List.prefix_or_prefix_of_prefix hstart hboth).elim hno hno'
  rw [Store.isFragmentPath, Store.pathOf, endsWith_resolvePath (endsWith_relativePath k), ← Store.pathOf,
    hnot _ List.mem_cons_self, hnot _ (List.mem_cons_of_mem _ List.mem_cons_self)]
  rfl

section Specs

variable {Bytes : Type} {c : Codec Bytes} {x : Extern} {r : Readers} {dirs : PackDirs Bytes} {s s' : Indexed Bytes}

/-! ## What loading does -/

/-- The quads of a file, none if it cannot be read. -/
def quadsOf (c : Codec Bytes) (d : Disk Bytes) (p : FragmentPath) : Finset Quad := ((d.file? p).bind c.decode).getD ∅

theorem readPaths_eq_ok {d : Disk Bytes} {ps : List FragmentPath} {qs : Finset Quad} (h : readPaths c d ps = .ok qs)
    (t : Quad) : t ∈ qs ↔ ∃ p ∈ ps, t ∈ quadsOf c d p := by
  induction ps generalizing qs with
  | nil =>
      cases h
      simp
  | cons p ps ih =>
      simp only [readPaths, Result.bind_eq_ok, Result.pure_eq_ok, readFragment, okOr_eq_ok] at h
      obtain ⟨us, hus, rest, hrest, rfl⟩ := h
      have hquads : quadsOf c d p = us := by rw [quadsOf, hus, Option.getD_some]
      rw [Finset.mem_union, ih hrest, List.exists_mem_cons_iff, hquads]

theorem exists_readPaths {d : Disk Bytes} {ps : List FragmentPath}
    (h : ∀ p ∈ ps, ((d.file? p).bind c.decode).isSome) : ∃ qs, readPaths c d ps = .ok qs := by
  induction ps with
  | nil => exact ⟨∅, rfl⟩
  | cons p ps ih =>
      obtain ⟨us, hus⟩ := Option.isSome_iff_exists.mp (h p List.mem_cons_self)
      obtain ⟨rest, hrest⟩ := ih fun q hq => h q (List.mem_cons_of_mem p hq)
      refine ⟨us ∪ rest, ?_⟩
      simp only [readPaths, Result.bind_eq_ok, Result.pure_eq_ok, readFragment, okOr_eq_ok]
      exact ⟨us, hus, rest, hrest, rfl⟩

theorem loadPaths_eq_ok {ps : List FragmentPath} (h : loadPaths c s ps = .ok s') :
    s'.disk = s.disk ∧ s'.marker = s.marker ∧ ∀ t, t ∈ s'.quads ↔ t ∈ s.quads ∨ ∃ p ∈ ps, t ∈ quadsOf c s.disk p := by
  rw [loadPaths] at h
  cases hread : readPaths c s.disk ps with
  | error e =>
      rw [hread] at h
      cases h
  | ok qs =>
      rw [hread] at h
      cases h
      refine ⟨rfl, rfl, fun t => ?_⟩
      rw [Finset.mem_union, readPaths_eq_ok hread]

theorem exists_loadPaths {ps : List FragmentPath} (h : ∀ p ∈ ps, ((s.disk.file? p).bind c.decode).isSome) :
    ∃ s', loadPaths c s ps = .ok s' := by
  obtain ⟨qs, hqs⟩ := exists_readPaths h
  exact ⟨_, by rw [loadPaths, hqs]; rfl⟩

theorem load_cases (s : Indexed Bytes) (all new : Bool) (paths : List FragmentPath) :
    (∃ e, load c s all new paths = (s, .error e)) ∨
      ∃ s', load c s all new paths = (s', .ok ()) ∧ s'.disk = s.disk ∧
        (∀ t, t ∈ s'.quads ↔ t ∈ s.quads ∨ ∃ p ∈ todo s all new paths, t ∈ quadsOf c s.disk p) ∧
        s'.marker = String.join ((btreeSet (s.listed ++ (todo s all new paths).map listedAs)).map fun l =>
          l ++ "\n") := by
  rw [load]
  cases hload : loadPaths c s (todo s all new paths) with
  | error e => exact .inl ⟨e, rfl⟩
  | ok s' =>
      obtain ⟨hdisk, _, hquads⟩ := loadPaths_eq_ok hload
      exact .inr ⟨_, rfl, hdisk, hquads, rfl⟩

theorem rebuild_cases (s : Indexed Bytes) :
    (∃ e, rebuild c s = ({ s with quads := ∅, marker := "" }, .error e)) ∨
      ∃ s', rebuild c s = (s', .ok ()) ∧ s'.disk = s.disk ∧
        (∀ t, t ∈ s'.quads ↔ ∃ p ∈ fragmentFiles s, t ∈ quadsOf c s.disk p) ∧
        s'.marker = "\n".intercalate s.store.allFragmentPaths ++ "\n" := by
  rw [rebuild]
  cases hload : loadPaths c { s with quads := ∅, marker := "" } (fragmentFiles s) with
  | error e => exact .inl ⟨e, rfl⟩
  | ok s' =>
      obtain ⟨hdisk, _, hquads⟩ := loadPaths_eq_ok hload
      refine .inr ⟨_, rfl, hdisk, fun t => ?_, rfl⟩
      rw [hquads]
      simp

/-! ## What is dropped -/

/-- The files that `gc-derived` removes. -/
def Removed (st : Store Bytes) (keep : List String) (p : String) : Prop :=
  (p ∈ st.fragmentPathsUnder "derived" ∨ p ∈ st.fragmentPathsUnder "runs") ∧ rulesetOf p ∉ keep

/-- The quads whose graphs it drops. -/
def Dropped (st : Store Bytes) (keep : List String) (graph : Bool) (t : Quad) : Prop :=
  graph = true ∧ ∃ p ∈ st.fragmentPathsUnder "derived", rulesetOf p ∉ keep ∧ t.g = droppedGraph p

theorem foldl_gcFile (graph : Bool) (keep : List String) (sub : String) (ps : List String) (s : Indexed Bytes) :
    (ps.foldl (gcFile graph keep sub) s).marker = s.marker ∧
      (∀ q, (ps.foldl (gcFile graph keep sub) s).store.file? q =
        if q ∈ ps ∧ rulesetOf q ∉ keep then none else s.store.file? q) ∧
      ∀ t, t ∈ (ps.foldl (gcFile graph keep sub) s).quads ↔
        t ∈ s.quads ∧ ¬ (sub = "derived" ∧ graph = true ∧ ∃ p ∈ ps, rulesetOf p ∉ keep ∧ t.g = droppedGraph p) := by
  induction ps generalizing s with
  | nil => simp
  | cons p ps ih =>
      obtain ⟨hmarker, hfile, hquads⟩ := ih (gcFile graph keep sub s p)
      rw [List.foldl_cons]
      by_cases hkeep : rulesetOf p ∈ keep
      · have hsame : gcFile graph keep sub s p = s := if_pos hkeep
        rw [hsame] at hmarker hfile hquads ⊢
        refine ⟨hmarker, fun q => ?_, fun t => ?_⟩
        · rw [hfile]
          by_cases hq : q = p
          · subst hq
            rw [if_neg fun h => h.2 hkeep, if_neg fun h => h.2 hkeep]
          · simp [hq]
        · rw [hquads, List.exists_mem_cons_iff]
          simp [hkeep]
      · have hstep : gcFile graph keep sub s p = _ := if_neg hkeep
        refine ⟨?_, fun q => ?_, fun t => ?_⟩
        · rw [hmarker, hstep]
          rfl
        · rw [hfile, hstep]
          show (if _ then _ else (s.store.remove p).file? q) = _
          rw [Store.file?_remove]
          by_cases hq : p = q
          · subst hq
            simp [hkeep]
          · have hne : ¬ q = p := fun h => hq h.symm
            simp [hq, hne]
        · rw [hquads, hstep, List.exists_mem_cons_iff]
          by_cases hdrop : sub = "derived" ∧ graph = true
          · simp only [hdrop, and_self, ↓reduceIte, Finset.mem_filter, hkeep, not_false_eq_true, true_and, not_or]
            tauto
          · have hno : ∀ P : Prop, ¬ (sub = "derived" ∧ graph = true ∧ P) := fun P h => hdrop ⟨h.1, h.2.1⟩
            simp only [hdrop, ↓reduceIte, hno, not_false_eq_true, and_true]

/-- The records are looked for when the derived files are gone. -/
theorem gcDerived_spec (s : Indexed Bytes) (keep : List String) (graph : Bool) :
    (gcDerived s keep graph).marker = s.marker ∧
      (∀ q, (¬ Removed s.store keep q → (gcDerived s keep graph).store.file? q = s.store.file? q) ∧
        (Removed s.store keep q → (gcDerived s keep graph).store.file? q = none)) ∧
      ∀ t, t ∈ (gcDerived s keep graph).quads ↔ t ∈ s.quads ∧ ¬ Dropped s.store keep graph t := by
  obtain ⟨hmarker, hfile, hquads⟩ := foldl_gcFile graph keep "derived" (s.store.fragmentPathsUnder "derived") s
  generalize hmid : (s.store.fragmentPathsUnder "derived").foldl (gcFile graph keep "derived") s = mid
    at hmarker hfile hquads
  obtain ⟨hmarker', hfile', hquads'⟩ := foldl_gcFile graph keep "runs" (mid.store.fragmentPathsUnder "runs") mid
  have hgc : gcDerived s keep graph = (mid.store.fragmentPathsUnder "runs").foldl (gcFile graph keep "runs") mid := by
    rw [gcDerived, List.foldl_cons, List.foldl_cons, List.foldl_nil, hmid]
  have hapart : ∀ q, q ∈ mid.store.fragmentPathsUnder "runs" ∨ q ∈ s.store.fragmentPathsUnder "runs" →
      mid.store.file? q = s.store.file? q := by
    intro q hq
    have hruns : Text.startsWith "runs/" q = true := by
      rcases hq with hq | hq
      · exact (mem_fragmentPathsUnder.mp hq).2.1
      · exact (mem_fragmentPathsUnder.mp hq).2.1
    rw [hfile, if_neg]
    intro hderived
    have hstart := (mem_fragmentPathsUnder.mp hderived.1).2.1
    rw [Text.startsWith, List.isPrefixOf_iff_prefix] at hruns hstart
    have hno : ¬ "derived/".toList <+: "runs/".toList ∧ ¬ "runs/".toList <+: "derived/".toList := by decide
    exact (List.prefix_or_prefix_of_prefix hstart hruns).elim hno.1 hno.2
  have hunder : ∀ q, q ∈ mid.store.fragmentPathsUnder "runs" ↔ q ∈ s.store.fragmentPathsUnder "runs" := by
    intro q
    constructor
    · intro hq
      have hsame := hapart q (.inl hq)
      rw [mem_fragmentPathsUnder, hsame] at hq
      exact mem_fragmentPathsUnder.mpr hq
    · intro hq
      have hsame := hapart q (.inr hq)
      rw [mem_fragmentPathsUnder, ← hsame] at hq
      exact mem_fragmentPathsUnder.mpr hq
  rw [hgc]
  refine ⟨hmarker'.trans hmarker, fun q => ⟨fun hq => ?_, fun hq => ?_⟩, fun t => ?_⟩
  · rw [hfile', if_neg, hfile, if_neg]
    · exact fun h => hq ⟨.inl h.1, h.2⟩
    · exact fun h => hq ⟨.inr ((hunder q).mp h.1), h.2⟩
  · obtain ⟨hq | hq, hkeep⟩ := hq
    · rw [hfile', hfile, if_pos (c := q ∈ s.store.fragmentPathsUnder "derived" ∧ _) ⟨hq, hkeep⟩, ite_self]
    · rw [hfile', if_pos ⟨(hunder q).mpr hq, hkeep⟩]
  · rw [hquads', hquads, Dropped]
    simp

/-! ## What is fetched -/

/-- A file is only created where none was, at a path that the manifest names. -/
theorem fetchEntry_cases (m : Mirror Bytes) (st : Store Bytes) (e : ManifestEntry) :
    (fetchEntry m st e).1 = st ∨ isUnsafe e.path = false ∧ st.file? (resolvePath e.path) = none ∧
      ∃ b, (fetchEntry m st e).1 = st.put e.path b := by
  rw [fetchEntry]
  split
  · exact .inl rfl
  · rename_i hpass
    rw [Mirror.stands, Bool.not_eq_true, Bool.or_eq_false_iff, Bool.or_eq_false_iff] at hpass
    obtain ⟨hsafe, _, hstands⟩ := hpass
    split
    · exact .inl rfl
    · rename_i b hget
      split
      · exact .inl rfl
      · cases hend : endsAsDir e.path with
        | true => exact .inl rfl
        | false =>
            rw [hend, Bool.not_false, Bool.true_and, Option.isSome_eq_false_iff, Option.isNone_iff_eq_none] at hstands
            rw [if_neg Bool.false_ne_true]
            split
            · exact .inl rfl
            · exact .inr ⟨hsafe, hstands, b, rfl⟩

theorem fetch_cases (m : Mirror Bytes) (es : List ManifestEntry) (st : Store Bytes) (p : String) :
    ((fetch m st es).1).file? p = st.file? p ∨
      st.file? p = none ∧ ∃ e ∈ es, isUnsafe e.path = false ∧ resolvePath e.path = p := by
  induction es generalizing st with
  | nil => exact .inl rfl
  | cons e es ih =>
      have hentry : (fetchEntry m st e).1.file? p = st.file? p ∨
          st.file? p = none ∧ isUnsafe e.path = false ∧ resolvePath e.path = p := by
        rcases fetchEntry_cases m st e with hsame | ⟨hsafe, hnone, b, hput⟩
        · exact .inl (by rw [hsame])
        · rw [hput, Store.file?_put]
          by_cases hp : resolvePath e.path = p
          · exact .inr ⟨hp ▸ hnone, hsafe, hp⟩
          · exact .inl (if_neg hp)
      have hfetch : (fetch m st (e :: es)).1 = (fetchEntry m st e).1 ∨
          (fetch m st (e :: es)).1 = (fetch m (fetchEntry m st e).1 es).1 := by
        rw [fetch]
        split
        · rename_i heq
          rw [heq]
          exact .inl rfl
        · rename_i heq
          rw [heq]
          exact .inr rfl
      rcases hfetch with hfetch | hfetch
      · rw [hfetch]
        rcases hentry with hsame | ⟨hnone, hsafe, hp⟩
        · exact .inl hsame
        · exact .inr ⟨hnone, e, List.mem_cons_self, hsafe, hp⟩
      · rw [hfetch]
        rcases hentry with hsame | ⟨hnone, hsafe, hp⟩
        · rcases ih (fetchEntry m st e).1 with hsame' | ⟨hnone, e', he', hsafe, hp⟩
          · exact .inl (hsame'.trans hsame)
          · exact .inr ⟨hsame ▸ hnone, e', List.mem_cons_of_mem e he', hsafe, hp⟩
        · exact .inr ⟨hnone, e, List.mem_cons_self, hsafe, hp⟩

/-! ## What a rule run does -/

section Runs

variable {q : Request} {graph : Bool}

/-- The record of the run. -/
def recordKind (x : Extern) (q : Request) : FragmentKind := .run (rulesetHash x q.packs) (inputHash x q.inputs)

/-- The derived fragment and the record are loaded into the index. -/
structure Loads (c : Codec Bytes) (x : Extern) (s : Indexed Bytes) (q : Request) (graph : Bool) : Prop where
  opened : graph = true
  /-- A run that is skipped is loaded only if the derived graph is missing. -/
  missing : (s.store.file? (Store.pathOf (q.kind x))).isSome → q.force = false → ∀ t ∈ s.quads, t.g ≠ (q.kind x).graph
  readable : ∀ b, s.store.file? (Store.pathOf (q.kind x)) = some b → (c.decode b).isSome

theorem not_packs_of_isFragmentPath {p : String} (h : Store.isFragmentPath p = true) :
    Text.startsWith "packs/" p = false := by
  rw [Store.isFragmentPath, Bool.and_eq_true, Bool.not_eq_true'] at h
  exact h.2

theorem quadsOf_inside (d : Disk Bytes) {p : String} (hp : resolvePath p = p) :
    quadsOf c d (.inside p) = d.store.quadsAt c p := by
  rw [quadsOf, Disk.file?_own hp, Store.quadsAt]

/-- What is read at a path of the store is in the file that it resolves to. -/
theorem mem_quadsOf_inside {d : Disk Bytes} {p : String} {t : Quad} (ht : t ∈ quadsOf c d (.inside p)) :
    t ∈ d.store.quadsAt c (resolvePath p) := by
  rw [quadsOf] at ht
  cases hb : d.file? (.inside p) with
  | none =>
      rw [hb] at ht
      cases ht
  | some b =>
      rw [hb] at ht
      rw [Store.quadsAt, Disk.file?_inside hb]
      exact ht

theorem file?_persisted {st : Store Bytes} {res : RunResult} (p : String) : (Reason.persist c st res).file? p =
    if Store.pathOf res.run.kind = p then some (c.encode res.run.quads) else
      (st.file? p).or (if Store.pathOf res.derived.kind = p then some (c.encode res.derived.quads) else none) := by
  rw [Reason.persist, Store.file?_overwrite, Store.file?_write]

/-- Persisting leaves the index as it is or loads the two files. -/
theorem persist_cases (s : Indexed Bytes) (graph : Bool) (res : RunResult) :
    (persist c s graph res).1.store = Reason.persist c s.store res ∧ (persist c s graph res).1.marker = s.marker ∧
      (((persist c s graph res).1.quads = s.quads ∧
          ¬ ((graph && (!res.alreadyExisted || !hasDerived s res.kind)) = true ∧
            ((Reason.persist c s.store res).file? (Store.pathOf res.derived.kind)).any
              (fun b => (c.decode b).isSome) = true)) ∨
        ∀ t, t ∈ (persist c s graph res).1.quads ↔ t ∈ s.quads ∨
          t ∈ (Reason.persist c s.store res).quadsAt c (Store.pathOf res.derived.kind) ∨
          t ∈ (Reason.persist c s.store res).quadsAt c (Store.pathOf res.run.kind)) := by
  rw [persist]
  by_cases hload : (graph && (!res.alreadyExisted || !hasDerived s res.kind)) = true
  · rw [if_pos hload]
    cases hok : loadPaths c (s.withStore (Reason.persist c s.store res))
        [.inside (Store.pathOf res.derived.kind), .inside (Store.pathOf res.run.kind)] with
    | error e =>
        refine ⟨rfl, rfl, .inl ⟨rfl, fun h => ?_⟩⟩
        obtain ⟨b, hb, hdecode⟩ := (Option.any_eq_true _ _).mp h.2
        have hrun : (Reason.persist c s.store res).file? (Store.pathOf res.run.kind) =
            some (c.encode res.run.quads) := by
          rw [file?_persisted, if_pos rfl]
        have hread : ∀ p ∈ [.inside (Store.pathOf res.derived.kind), .inside (Store.pathOf res.run.kind)],
            (((s.withStore (Reason.persist c s.store res)).disk.file? p).bind c.decode).isSome := by
          intro p hp
          rcases List.mem_pair.mp hp with rfl | rfl
          · have hfile : (s.withStore (Reason.persist c s.store res)).disk.file? _ = some b :=
              (Disk.file?_own (resolvePath_pathOf _)).trans hb
            rw [hfile, Option.bind_some, hdecode]
          · have hfile : (s.withStore (Reason.persist c s.store res)).disk.file? _ = some (c.encode res.run.quads) :=
              (Disk.file?_own (resolvePath_pathOf _)).trans hrun
            rw [hfile, Option.bind_some, c.decode_encode]
            rfl
        obtain ⟨s', hs'⟩ := exists_loadPaths hread
        rw [hok] at hs'
        cases hs'
    | ok s' =>
        obtain ⟨hdisk, hmarker, hquads⟩ := loadPaths_eq_ok hok
        refine ⟨?_, hmarker, .inr fun t => ?_⟩
        · rw [Indexed.store, hdisk]
          rfl
        · rw [hquads]
          simp only [List.mem_cons, List.not_mem_nil, or_false, exists_eq_or_imp, exists_eq_left,
            quadsOf_inside _ (resolvePath_pathOf _)]
          rfl
  · rw [if_neg hload]
    exact ⟨rfl, rfl, .inl ⟨rfl, fun h => hload h.1⟩⟩

/-- A run that fails writes copies of packs only. One that succeeds writes two fragment files. -/
theorem reason_cases (hx : ∀ bs, Alphanumeric (x.sha256Hex bs)) (s : Indexed Bytes) (q : Request) (graph : Bool) :
    ∃ s', (reason c x r dirs s q graph).1 = s' ∧ s'.marker = s.marker ∧ s.quads ⊆ s'.quads ∧
      (((∀ p, Store.isFragmentPath p = true → s'.store.file? p = s.store.file? p) ∧ s'.quads = s.quads) ∨
        (∀ p, Store.isFragmentPath p = true → p ≠ Store.pathOf (recordKind x q) →
          p ≠ Store.pathOf (q.kind x) ∨ (s.store.file? p).isSome → s'.store.file? p = s.store.file? p) ∧
        (∀ t ∈ s'.quads, t ∈ s.quads ∨ t ∈ s'.store.quadsAt c (Store.pathOf (q.kind x)) ∨
          t ∈ s'.store.quadsAt c (Store.pathOf (recordKind x q))) ∧
        (Loads c x s q graph → s'.store.quadsAt c (Store.pathOf (q.kind x)) ⊆ s'.quads ∧
          s'.store.quadsAt c (Store.pathOf (recordKind x q)) ⊆ s'.quads)) := by
  refine ⟨_, rfl, ?_⟩
  rw [reason]
  have hkept : ∀ p, Store.isFragmentPath p = true → (run c x r dirs s.store q).1.file? p = s.store.file? p :=
    fun p hp => file?_run_of_not_packs (not_packs_of_isFragmentPath hp)
  cases hrun : run c x r dirs s.store q with
  | mk st result =>
      rw [hrun] at hkept
      cases result with
      | error e => exact ⟨rfl, Finset.Subset.refl _, .inl ⟨hkept, rfl⟩⟩
      | ok res =>
          obtain ⟨hder, hrec, hkind, hrunkind⟩ := kinds_of_run hrun
          obtain ⟨hstore, hmarker, hquads⟩ := persist_cases (c := c) (s.withStore st) graph res
          rw [hder, hrec, hkind, hrunkind, ← recordKind, Indexed.quads_withStore, Indexed.store_withStore] at hquads
          rw [Indexed.store_withStore] at hstore
          have hfile : ∀ p, (Reason.persist c st res).file? p =
              if Store.pathOf (recordKind x q) = p then some (c.encode res.run.quads) else
                (st.file? p).or
                  (if Store.pathOf (q.kind x) = p then some (c.encode res.derived.quads) else none) := by
            intro p
            rw [file?_persisted, hder, hrec, hkind, hrunkind, ← recordKind]
          have hderk : OfRun (q.kind x) := .derived (hx _) (hx _)
          have hreck : OfRun (recordKind x q) := .run (hx _) (hx _)
          have hne : Store.pathOf (recordKind x q) ≠ Store.pathOf (q.kind x) := by
            rw [Ne, hreck.pathOf_inj hderk]
            exact FragmentKind.noConfusion
          refine ⟨hmarker, ?_, .inr ⟨fun p hp hnotrec hor => ?_, fun t ht => ?_, fun hloads => ?_⟩⟩
          · intro t ht
            rcases hquads with ⟨hsame, _⟩ | hloaded
            · rwa [hsame]
            · exact (hloaded t).mpr (.inl ht)
          · rw [hstore, hfile, if_neg (Ne.symm hnotrec), hkept p hp]
            rcases hor with hnotder | hsome
            · rw [if_neg (Ne.symm hnotder), Option.or_none]
            · exact Option.or_of_isSome hsome
          · rw [hstore]
            rcases hquads with ⟨hsame, _⟩ | hloaded
            · rw [hsame] at ht
              exact .inl ht
            · exact (hloaded t).mp ht
          · rw [hstore]
            rcases hquads with ⟨_, hnot⟩ | hloaded
            · refine absurd ⟨?_, ?_⟩ hnot
              · rw [hloads.opened, Bool.true_and, Bool.or_eq_true, Bool.not_eq_true', Bool.not_eq_true', hasDerived,
                  decide_eq_false_iff_not]
                rcases run_cases hrun with ⟨b, qs, hb, hforce, _, _, rfl⟩ | ⟨_, f, n, _, _, rfl⟩
                · refine .inr fun hex => ?_
                  obtain ⟨t, ht, htg⟩ := hex
                  exact hloads.missing (by rw [hb]; rfl) hforce t ht htg
                · exact .inl rfl
              · rw [hfile, if_neg hne, hkept _ (isFragmentPath_ofRun hderk), if_pos rfl]
                cases hbefore : s.store.file? (Store.pathOf (q.kind x)) with
                | none =>
                    rw [Option.none_or, Option.any_some, c.decode_encode]
                    rfl
                | some b =>
                    rw [Option.some_or, Option.any_some]
                    exact hloads.readable b hbefore
            · exact ⟨fun t ht => (hloaded t).mpr (.inr (.inl ht)), fun t ht => (hloaded t).mpr (.inr (.inr ht))⟩

end Runs

end Specs

end Nix2Rdf.Index
