import Nix2Rdf.Fragment
import Nix2Rdf.Lib.FileTree
import Nix2Rdf.Lib.Paths
import Std.Data.ExtTreeMap

/-!
# The on-disk store

Files are canonical; the query index is rebuilt from them. A store maps the paths below its root to
the bytes of the files there. A path leads to a file only through directories that are there.
-/

namespace Nix2Rdf

open Paths

abbrev BTreeMap (V : Type) := Std.ExtTreeMap String V compare

namespace BTreeMap

variable {V : Type} {m : BTreeMap V}

theorem values_eq : m.values = m.toList.map Prod.snd := by
  obtain ⟨⟨q⟩⟩ := m
  induction q using Quotient.ind with
  | _ t =>
      show Std.DTreeMap.Internal.Impl.values t.inner = (Std.DTreeMap.Internal.Impl.Const.toList t.inner).map Prod.snd
      rw [Std.DTreeMap.Internal.Impl.values_eq_map_snd, Std.DTreeMap.Internal.Impl.Const.toList_eq_toListModel_map]
      simp

theorem mem_values {v : V} : v ∈ m.values ↔ ∃ k : String, m[k]? = some v := by
  rw [values_eq, List.mem_map]
  constructor
  · intro h
    obtain ⟨e, hmem, rfl⟩ := h
    exact ⟨e.1, Std.ExtTreeMap.mem_toList_iff_getElem?_eq_some.mp hmem⟩
  · intro h
    obtain ⟨k, hk⟩ := h
    exact ⟨(k, v), Std.ExtTreeMap.mem_toList_iff_getElem?_eq_some.mpr hk, rfl⟩

/-- The map of a function over a list of keys, without those it is undefined for. -/
theorem getElem?_ofList_filterMap (g : String → Option V) (l : List String) (p : String) :
    (Std.ExtTreeMap.ofList (l.filterMap fun p => (g p).map fun v => (p, v)) compare : BTreeMap V)[p]? =
      if p ∈ l then g p else none := by
  have hfold : ∀ m : BTreeMap V,
      ((l.filterMap fun p => (g p).map fun v => (p, v)).foldl (fun m e => m.insert e.1 e.2) m)[p]? =
        if p ∈ l ∧ (g p).isSome then g p else m[p]? := by
    induction l with
    | nil => simp
    | cons q l ih =>
        intro m
        cases hq : g q with
        | none =>
            rw [List.filterMap_cons_none (by rw [hq]; rfl), ih]
            by_cases hpq : p = q
            · simp [hpq, hq]
            · simp [hpq]
        | some v =>
            rw [List.filterMap_cons_some (b := (q, v)) (by rw [hq]; rfl), List.foldl_cons, ih,
              Std.ExtTreeMap.getElem?_insert]
            by_cases hpq : p = q
            · simp [hpq, hq]
            · have hne : ¬ q = p := fun h => hpq h.symm
              simp [hpq, hne]
  rw [Std.ExtTreeMap.ofList_eq_foldl]
  refine (hfold ∅).trans ?_
  rw [Std.ExtTreeMap.getElem?_empty]
  cases g p <;> simp

end BTreeMap

/-- Compression and N-Quads printing, and reading them back. -/
structure Codec (Bytes : Type) where
  encode : Finset Quad → Bytes
  decode : Bytes → Option (Finset Quad)
  decode_encode : ∀ q, decode (encode q) = some q

/-- A store of files that are the quads themselves. -/
def Codec.plain : Codec (Finset Quad) := ⟨fun q => q, some, fun _ => rfl⟩

structure Store (Bytes : Type) where
  files : BTreeMap Bytes
  /-- Directories that were created, besides those that something lies in. -/
  dirs : Finset String := ∅
  /-- A file is kept under the path that its path resolves to. -/
  resolved : ∀ p ∈ files, resolvePath p = p

structure WriteOutcome where
  path : String
  kind : FragmentKind
  /-- `false` when a file already existed there. -/
  written : Bool
  quads : Nat

namespace Store

variable {Bytes : Type} (c : Codec Bytes) (st : Store Bytes)

def pathOf (kind : FragmentKind) : String := resolvePath kind.relativePath

def empty : Store Bytes where
  files := ∅
  resolved _ hp := absurd hp Std.ExtTreeMap.not_mem_empty

def file? (path : String) : Option Bytes := st.files[path]?

def exists? (kind : FragmentKind) : Bool := (st.file? (pathOf kind)).isSome

/-- The directories that are entered on the way to a path. -/
def above (path : String) : Finset String :=
  ((Text.split '/' path).dropLast.inits.map fun segs => Text.slash (segs.foldl resolveStep []).reverse).toFinset

/-- Create a file, with the directories on the way to it. -/
def put (path : String) (bytes : Bytes) : Store Bytes where
  files := st.files.insert (resolvePath path) bytes
  dirs := st.dirs ∪ above path
  resolved p hp := by
    rcases Std.ExtTreeMap.mem_insert.mp hp with hp | hp
    · rw [← compare_eq_iff_eq.mp hp, resolvePath_idem]
    · exact st.resolved p hp

/-- The directory that a file was in stays. -/
def remove (path : String) : Store Bytes where
  files := st.files.erase path
  dirs := st.dirs ∪ above path
  resolved p hp := st.resolved p (Std.ExtTreeMap.mem_erase.mp hp).2

def mkdir (path : String) : Store Bytes := { st with dirs := insert path st.dirs }

/-! ## What a path leads to -/

/-- A directory: the root and those above it, one that was created, and one that something lies in. -/
def isDir (path : String) : Bool :=
  (Text.split '/' path).all (fun seg => seg = "" || seg = "..") || decide (path ∈ st.dirs)
    || st.files.keys.any (Text.startsWith (path ++ "/"))
    || decide (∃ d ∈ st.dirs, Text.startsWith (path ++ "/") d = true)

def node? (path : String) : Option (FileTree.Node Bytes) :=
  match st.file? path with
  | some b => some (.file b)
  | none => if st.isDir path then some .dir else none

/-- Resolve the components of a path, each in a directory. -/
def enter : List String → List String → Option (List String)
  | acc, [] => some acc
  | acc, seg :: segs => if st.isDir (Text.slash acc.reverse) then enter (resolveStep acc seg) segs else none

/-- What the file system finds at a path. A path that ends in `/` or `/.` leads to no file. -/
def look (path : String) : Option (FileTree.Node Bytes) :=
  (st.enter [] (Text.split '/' path)).bind fun acc => st.node? (Text.slash acc.reverse)

/-! ## Fragments -/

/-- The quads of a file, none if there is no file or it cannot be read. -/
def quadsAt (path : String) : Finset Quad := ((st.file? path).bind c.decode).getD ∅

/-- Write a fragment unless a file with that identity already exists. -/
def write (f : Fragment) : Store Bytes × WriteOutcome :=
  let path := pathOf f.kind
  if (st.file? path).isSome then (st, ⟨path, f.kind, false, f.lines.card⟩)
  else (st.put f.kind.relativePath (c.encode f.quads), ⟨path, f.kind, true, f.lines.card⟩)

/-- Force-write even if present. -/
def overwrite (f : Fragment) : Store Bytes × WriteOutcome :=
  (st.put f.kind.relativePath (c.encode f.quads), ⟨pathOf f.kind, f.kind, true, f.lines.card⟩)

/-- A fragment file: its name ends in the suffix and it lies in neither the index nor the packs. -/
def isFragmentPath (path : String) : Bool :=
  Text.endsWith FragmentKind.suffix path && !Text.startsWith "oxigraph/" path &&
    !Text.startsWith "packs/" path

/-- Paths are sorted by their components. -/
def sortPaths (paths : List String) : List String :=
  paths.mergeSort fun a b => decide (Text.split '/' a ≤ Text.split '/' b)

/-- All fragment files under the store. -/
def allFragmentPaths : List String := sortPaths (st.files.keys.filter isFragmentPath)

/-- Fragment paths under one directory. -/
def fragmentPathsUnder (sub : String) : List String :=
  sortPaths (st.files.keys.filter fun p => Text.startsWith (sub ++ "/") p && Text.endsWith FragmentKind.suffix p)

end Store

/-- Write a batch of fragments. -/
def writeAll {Bytes : Type} (c : Codec Bytes) : Store Bytes → List Fragment → Store Bytes × List WriteOutcome
  | st, [] => (st, [])
  | st, f :: fs =>
      let (st', o) := st.write c f
      let (st'', os) := writeAll c st' fs
      (st'', o :: os)

/-! ## What a write changes -/

namespace Store

variable {Bytes : Type} {c : Codec Bytes} {st : Store Bytes}

@[simp] theorem file?_empty (p : String) : (empty : Store Bytes).file? p = none := by
  simp [empty, file?]

theorem file?_put {p q : String} {b : Bytes} :
    (st.put p b).file? q = if resolvePath p = q then some b else st.file? q := by
  simp [put, file?, Std.ExtTreeMap.getElem?_insert]

theorem file?_remove {p q : String} :
    (st.remove p).file? q = if p = q then none else st.file? q := by
  simp [remove, file?, Std.ExtTreeMap.getElem?_erase]

theorem file?_overwrite (f : Fragment) (p : String) :
    ((st.overwrite c f).1).file? p = if pathOf f.kind = p then some (c.encode f.quads) else st.file? p := file?_put

/-- Only the file of the fragment's own identity can change, and only from absent. -/
theorem file?_write (f : Fragment) (p : String) :
    ((st.write c f).1).file? p =
      (st.file? p).or (if pathOf f.kind = p then some (c.encode f.quads) else none) := by
  unfold write
  by_cases h : (st.file? (pathOf f.kind)).isSome
  · simp only [h, ↓reduceIte]
    by_cases hp : pathOf f.kind = p
    · obtain ⟨b, hb⟩ := Option.isSome_iff_exists.mp h
      rw [← hp, hb]
      rfl
    · simp [hp]
  · simp only [h, Bool.false_eq_true, ↓reduceIte, file?_put]
    rw [← pathOf]
    by_cases hp : pathOf f.kind = p
    · have hnone : st.file? p = none := by rw [← hp]; simpa using h
      simp [hp, hnone]
    · simp [hp]

theorem file?_writeAll (fs : List Fragment) (p : String) :
    ((writeAll c st fs).1).file? p =
      (st.file? p).or ((fs.find? fun f => pathOf f.kind = p).map fun f => c.encode f.quads) := by
  induction fs generalizing st with
  | nil => simp [writeAll]
  | cons f fs ih =>
      simp only [writeAll, ih, file?_write]
      by_cases hp : pathOf f.kind = p
      · simp [hp]
      · simp [hp]

theorem writeAll_append (fs gs : List Fragment) :
    (writeAll c st (fs ++ gs)).1 = (writeAll c (writeAll c st fs).1 gs).1 := by
  induction fs generalizing st with
  | nil => rfl
  | cons f fs ih => exact ih

/-- A file that is there stays; elsewhere the first fragment for the path is kept. -/
theorem quadsAt_writeAll (fs : List Fragment) (p : String) :
    ((writeAll c st fs).1).quadsAt c p =
      if (st.file? p).isSome then st.quadsAt c p
      else ((fs.find? fun f => pathOf f.kind = p).map Fragment.quads).getD ∅ := by
  rw [quadsAt, file?_writeAll]
  cases hst : st.file? p with
  | some b => simp [quadsAt, hst]
  | none =>
      cases hfind : fs.find? fun f => pathOf f.kind = p with
      | none => simp
      | some f => simp [c.decode_encode]

/-- What later writes add changes no file that an earlier one has reached. -/
theorem quadsAt_writeAll_append {fs : List Fragment} (gs : List Fragment) {f : Fragment} (hf : f ∈ fs) :
    ((writeAll c st (fs ++ gs)).1).quadsAt c (pathOf f.kind) =
      ((writeAll c st fs).1).quadsAt c (pathOf f.kind) := by
  have hsome : (fs.find? fun g => pathOf g.kind = pathOf f.kind).isSome :=
    List.find?_isSome.mpr ⟨f, hf, by simp⟩
  rw [quadsAt_writeAll, quadsAt_writeAll, List.find?_append, Option.or_of_isSome hsome]

/-- The store after the fragments of several runs were written into it. -/
def afterRuns (c : Codec Bytes) (st : Store Bytes) (runs : List (List Fragment)) : Store Bytes :=
  runs.foldl (fun st fs => (writeAll c st fs).1) st

theorem afterRuns_eq (runs : List (List Fragment)) :
    afterRuns c st runs = (writeAll c st runs.flatten).1 := by
  induction runs generalizing st with
  | nil => rfl
  | cons fs runs ih =>
      rw [List.flatten_cons, writeAll_append, ← ih]
      rfl

/-- What a run finds in the file of its own fragment is what is there in the end. -/
theorem quadsAt_afterRuns (c : Codec Bytes) (st : Store Bytes) (done rest : List (List Fragment))
    {fs : List Fragment} {f : Fragment} (hf : f ∈ fs) :
    (afterRuns c st (done ++ [fs])).quadsAt c (pathOf f.kind) =
      (afterRuns c st (done ++ fs :: rest)).quadsAt c (pathOf f.kind) := by
  have hmem : f ∈ (done ++ [fs]).flatten := List.mem_flatten.mpr ⟨fs, by simp, hf⟩
  have hsplit : (done ++ fs :: rest).flatten = (done ++ [fs]).flatten ++ rest.flatten := by simp
  rw [afterRuns_eq, afterRuns_eq, hsplit, quadsAt_writeAll_append _ hmem]

theorem mem_sortPaths {p : String} {paths : List String} : p ∈ sortPaths paths ↔ p ∈ paths := List.mem_mergeSort

theorem mem_allFragmentPaths {p : String} :
    p ∈ st.allFragmentPaths ↔ (st.file? p).isSome ∧ isFragmentPath p := by
  simp [allFragmentPaths, mem_sortPaths, file?]

theorem mem_fragmentPathsUnder {sub p : String} : p ∈ st.fragmentPathsUnder sub ↔
    (st.file? p).isSome ∧ Text.startsWith (sub ++ "/") p = true ∧ Text.endsWith FragmentKind.suffix p = true := by
  simp [fragmentPathsUnder, mem_sortPaths, file?]

@[simp] theorem file?_mkdir {p q : String} : (st.mkdir p).file? q = st.file? q := rfl

theorem resolvePath_of_file? {p : String} (h : (st.file? p).isSome) : resolvePath p = p :=
  st.resolved p (Std.ExtTreeMap.mem_iff_isSome_getElem?.mpr h)

theorem resolvePath_pathOf (k : FragmentKind) : resolvePath (pathOf k) = pathOf k := resolvePath_idem _

/-! ## What is found at a path -/

theorem enter_append (acc xs ys : List String) :
    st.enter acc (xs ++ ys) = (st.enter acc xs).bind fun acc' => st.enter acc' ys := by
  induction xs generalizing acc with
  | nil => rfl
  | cons seg segs ih =>
      rw [List.cons_append, enter, enter]
      split
      · exact ih _
      · rfl

theorem enter_eq_some {acc acc' segs : List String} (h : st.enter acc segs = some acc') :
    acc' = segs.foldl resolveStep acc := by
  induction segs generalizing acc with
  | nil => exact (Option.some.inj h).symm
  | cons seg segs ih =>
      rw [enter] at h
      split at h
      · exact ih h
      · cases h

/-- What is found is what stands where the path resolves to. -/
theorem node?_of_look {path : String} {n : FileTree.Node Bytes} (h : st.look path = some n) :
    st.node? (resolvePath path) = some n := by
  obtain ⟨acc, hacc, hn⟩ := Option.bind_eq_some_iff.mp h
  rw [enter_eq_some hacc] at hn
  exact hn

theorem node?_eq_file {path : String} {b : Bytes} : st.node? path = some (.file b) ↔ st.file? path = some b := by
  unfold node?
  cases st.file? path with
  | some b' => simp
  | none =>
      simp only [reduceCtorEq, iff_false]
      split <;> simp

theorem isDir_of_node? {path : String} (h : st.node? path = some .dir) : st.isDir path = true := by
  unfold node? at h
  cases hfile : st.file? path with
  | some b =>
      rw [hfile] at h
      cases h
  | none =>
      by_contra hno
      rw [hfile, if_neg hno] at h
      cases h

theorem file?_of_look {path : String} {b : Bytes} (h : st.look path = some (.file b)) :
    st.file? (resolvePath path) = some b := node?_eq_file.mp (node?_of_look h)

theorem startsWith_append (s t : String) : Text.startsWith s (s ++ t) = true := by
  rw [Text.startsWith, String.toList_append, List.isPrefixOf_iff_prefix]
  exact List.prefix_append _ _

theorem isDir_iff {path : String} : st.isDir path = true ↔ (∀ seg ∈ Text.split '/' path, seg = "" ∨ seg = "..") ∨
    path ∈ st.dirs ∨ (∃ p, (st.file? p).isSome ∧ Text.startsWith (path ++ "/") p = true) ∨
      ∃ d ∈ st.dirs, Text.startsWith (path ++ "/") d = true := by
  simp [isDir, file?, or_assoc]

/-- What lies above a file is a directory. -/
theorem isDir_above {xs ys : List String} (hy : ys ≠ []) (h : (st.file? (Text.slash (xs ++ ys))).isSome) :
    st.isDir (Text.slash xs) = true := by
  by_cases hx : xs = []
  · rw [hx]
    rfl
  · refine isDir_iff.mpr (.inr (.inr (.inl ⟨_, h, ?_⟩)))
    rw [Text.slash_append hx hy]
    exact startsWith_append _ _

/-- All of a settled path is entered when each directory above is there. -/
theorem enter_settled {acc : List String} (h : Settled acc)
    (habove : ∀ xs ys, ys ≠ [] → acc.reverse = xs ++ ys → st.isDir (Text.slash xs) = true) :
    st.enter [] acc.reverse = some acc := by
  induction acc with
  | nil => rfl
  | cons seg below ih =>
      have hfold := foldl_settled h
      rw [List.reverse_cons, List.foldl_append, foldl_settled h.2.2.2] at hfold
      have hbelow := ih h.2.2.2 fun xs ys hy heq => habove xs (ys ++ [seg]) (by simp)
        (by rw [List.reverse_cons, heq, List.append_assoc])
      rw [List.reverse_cons, enter_append, hbelow, Option.bind_some, enter,
        if_pos (habove below.reverse [seg] (List.cons_ne_nil _ _) List.reverse_cons)]
      exact congrArg some hfold

/-- A file is found at its own path. -/
theorem look_of_file? {path : String} {b : Bytes} (h : st.file? path = some b) : st.look path = some (.file b) := by
  have hsome : (st.file? path).isSome := by
    rw [h]
    rfl
  have hsettled := settled_split path
  have hpath := resolvePath_of_file? hsome
  rw [resolvePath] at hpath
  generalize (Text.split '/' path).foldl resolveStep [] = acc at hsettled hpath
  have henter : st.enter [] (Text.split '/' path) = some acc := by
    subst hpath
    cases acc with
    | nil => rfl
    | cons seg below =>
        rw [split_settled hsettled (List.cons_ne_nil _ _)]
        exact enter_settled hsettled fun xs ys hy heq => isDir_above hy (by rw [← heq]; exact hsome)
  rw [look, henter, Option.bind_some, hpath]
  exact node?_eq_file.mpr h

/-- A component that stays where it is asks for nothing that the next one does not ask for. -/
theorem enter_filter {segs : List String} {last : String} (hlast : ¬ Dropped last) (acc : List String) :
    st.enter acc ((segs ++ [last]).filter fun seg => ¬ Dropped seg) = st.enter acc (segs ++ [last]) := by
  induction segs generalizing acc with
  | nil => rw [List.nil_append, List.filter_cons_of_pos (by simpa using hlast), List.filter_nil]
  | cons seg segs ih =>
      by_cases hseg : Dropped seg
      · rw [List.cons_append, List.filter_cons_of_neg (by simpa using hseg), ih, enter, resolveStep_dropped hseg]
        split
        · rfl
        · rename_i hdir
          obtain ⟨next, rest, hnext⟩ := List.exists_cons_of_ne_nil (List.append_ne_nil_of_right_ne_nil segs
            (List.cons_ne_nil last []))
          rw [hnext, enter, if_neg hdir]
      · rw [List.cons_append, List.filter_cons_of_pos (by simpa using hseg), enter, enter]
        split
        · exact ih _
        · rfl

/-- What a path leads to depends on its components, unless it means a directory. -/
theorem look_components {path : String} (h : endsAsDir path = false) : st.look (components path) = st.look path := by
  obtain ⟨segs, last, hsplit, hlast⟩ := split_of_not_endsAsDir h
  have hkept : last ∈ (segs ++ [last]).filter fun seg => ¬ Dropped seg := by
    simp [hlast]
  rw [look, look, components, hsplit, Text.split_slash (List.ne_nil_of_mem hkept), enter_filter hlast]
  intro s hs
  rw [← hsplit] at hs
  exact not_mem_of_mem_split (List.mem_filter.mp hs).1

end Store

end Nix2Rdf
