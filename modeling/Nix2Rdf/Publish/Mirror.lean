import Nix2Rdf.Lib.Transition
import Nix2Rdf.Publish.Arrives

/-!
# Fetching from a mirror

The manifest and the files come from elsewhere. Each file is verified, written under a temporary name and
moved to its place; any of these actions can fail, and what is done by then stays.
-/

namespace Nix2Rdf.Publish

open FileTree Transition
open Paths (endsAsDir)

/-- What `fetch` does next. -/
inductive Phase (B : Type) where
  | loop (rest : List ManifestEntry)
  /-- The bytes are there and have the hash of the entry. -/
  | verified (e : ManifestEntry) (b : B) (rest : List ManifestEntry)
  /-- The directory of the file is there. -/
  | placed (e : ManifestEntry) (b : B) (rest : List ManifestEntry)
  /-- The temporary file is there. -/
  | written (e : ManifestEntry) (b : B) (rest : List ManifestEntry)
  | done
  /-- A step failed, and a temporary file may be left. -/
  | failed (left : Option TreePath)

structure Fetching (B : Type) where
  tree : FileTree B
  phase : Phase B

/-- How an action ends. -/
inductive Ending (B : Type) where
  | succeeds
  | fails
  /-- Only the directories down to this one are created. -/
  | partly (p : TreePath)
  /-- The file has other bytes. -/
  | torn (b : B)

section

variable {B : Type} (f : FileFormat B) (root : TreePath) (get : String → Except FetchError B)

def target (e : ManifestEntry) : TreePath := root ++ components e.path

def temporary (e : ManifestEntry) : TreePath := partOf (target root e)

/-- The temporary file that is there, or that was left. -/
def Phase.temporary? : Phase B → Option TreePath
  | .written e _ _ => some (temporary root e)
  | .failed left => left
  | _ => none

def stepEntry (t : FileTree B) (e : ManifestEntry) (rest : List ManifestEntry) : Phase B :=
  if isUnsafe e.path then .loop rest
  else if exists? t root e.path then .loop rest
  else
    match get e.path with
    | .error _ => .failed none
    | .ok b => if f.sha256Hex b ≠ e.sha256 then .failed none else .verified e b rest

/-- One action of `fetch`. -/
def step (s : Fetching B) (o : Ending B) : Option (Fetching B) :=
  match s.phase, o with
  | .loop [], .succeeds => some { s with phase := .done }
  | .loop (e :: rest), .succeeds => some { s with phase := stepEntry f root get s.tree e rest }
  | .verified e b rest, .succeeds =>
      (s.tree.createDirAll (target root e).dropLast).map fun t => ⟨t, .placed e b rest⟩
  | .verified _ _ _, .fails => some { s with phase := .failed none }
  | .verified e _ _, .partly p =>
      if p <+: (target root e).dropLast then (s.tree.createDirAll p).map fun t => ⟨t, .failed none⟩ else none
  | .placed e b rest, .succeeds => (s.tree.writeFile (temporary root e) b).map fun t => ⟨t, .written e b rest⟩
  | .placed _ _ _, .fails => some { s with phase := .failed none }
  | .placed e _ _, .torn b =>
      (s.tree.writeFile (temporary root e) b).map fun t => ⟨t, .failed (some (temporary root e))⟩
  | .written e _ rest, .succeeds =>
      if endsAsDir e.path then none
      else (s.tree.rename (temporary root e) (target root e)).map fun t => ⟨t, .loop rest⟩
  | .written e _ _, .fails => some { s with phase := .failed (some (temporary root e)) }
  | _, _ => none

/-- The fetched file of an entry. -/
def Verified (m : Manifest) (p : TreePath) (b : B) : Prop := ∃ e ∈ m.fragments, p = target root e ∧
  isFragment (components e.path) = true ∧ f.sha256Hex b = e.sha256

/-- What the files may have become. The paths of `left` are those of temporary files of failed steps. -/
structure Undamaged (left : Set TreePath) (m : Manifest) (t₀ : FileTree B) (s : Fetching B) : Prop where
  kept : ∀ p b, t₀.file? p = some b → p ∉ left → s.tree.file? p = some b
  outside : ∀ p, ¬ root <+: p → s.tree.node? p = t₀.node? p
  new : ∀ p b, t₀.file? p = none → s.tree.file? p = some b →
    s.phase.temporary? root = some p ∨ Verified f root m p b

/-- What is to be placed is named like a fragment file, and nothing but a temporary file of a failed step has
its temporary name. -/
def NamesFragments (left : Set TreePath) (s : Fetching B) (_ : Ending B) : Prop :=
  ∀ e rest b, s.phase = .loop (e :: rest) → isUnsafe e.path = false → exists? s.tree root e.path = false →
    get e.path = .ok b → f.sha256Hex b = e.sha256 →
    isFragment (components e.path) = true ∧ (s.tree.file? (temporary root e) = none ∨ temporary root e ∈ left)

variable {f root get} {left : Set TreePath} {m : Manifest} {t₀ : FileTree B} {s s' : Fetching B} {e : ManifestEntry}

/-! ## Targets and temporary names -/

theorem exists_target (h : isFragment (components e.path) = true) : ∃ dir name,
    target root e = root ++ dir ++ [name ++ ".nq.zst"] ∧ temporary root e = root ++ dir ++ [name ++ ".nq.part"] := by
  have hne : components e.path ≠ [] := by
    intro hnil
    rw [hnil] at h
    exact absurd h (by decide)
  obtain ⟨dir, name, hname⟩ := exists_name h hne
  refine ⟨dir, name, ?_, ?_⟩
  · rw [target, hname, List.append_assoc]
  · rw [temporary, target, hname, ← List.append_assoc, partOf_eq]

theorem temporary_ne (h : isFragment (components e.path) = true) : temporary root e ≠ target root e := by
  obtain ⟨dir, name, htarget, htemp⟩ := @exists_target root e h
  rw [htarget, htemp]
  intro heq
  have hlast : name ++ ".nq.part" = name ++ ".nq.zst" := by
    have h := congrArg (fun l => l.getLastD "") heq
    rwa [List.getLastD_concat, List.getLastD_concat] at h
  have hend := congrArg (fun l => l.toList.reverse.take 2) hlast
  simp at hend

theorem root_temporary (h : isFragment (components e.path) = true) : root <+: temporary root e := by
  obtain ⟨dir, name, _, htemp⟩ := @exists_target root e h
  rw [htemp, List.append_assoc]
  exact List.prefix_append _ _

theorem root_target : root <+: target root e := List.prefix_append _ _

/-! ## The invariant -/

/-- An entry that is fetched. -/
structure Chosen (f : FileFormat B) (root : TreePath) (left : Set TreePath) (m : Manifest) (t₀ t : FileTree B)
    (e : ManifestEntry) (b : B) : Prop where
  mem : e ∈ m.fragments
  fragment : isFragment (components e.path) = true
  hash : f.sha256Hex b = e.sha256
  /-- A path that means a directory is not moved to. -/
  free : endsAsDir e.path = false → t.node? (target root e) = none
  spare : t₀.file? (temporary root e) = none ∨ temporary root e ∈ left

def PhaseInv (f : FileFormat B) (root : TreePath) (left : Set TreePath) (m : Manifest) (t₀ t : FileTree B) :
    Phase B → Prop
  | .loop rest => ∀ e ∈ rest, e ∈ m.fragments
  | .verified e b rest => Chosen f root left m t₀ t e b ∧ ∀ e ∈ rest, e ∈ m.fragments
  | .placed e b rest => Chosen f root left m t₀ t e b ∧ ∀ e ∈ rest, e ∈ m.fragments
  | .written e b rest => (Chosen f root left m t₀ t e b ∧ t.file? (temporary root e) = some b) ∧
    ∀ e ∈ rest, e ∈ m.fragments
  | .done => True
  | .failed _ => True

structure Inv (f : FileFormat B) (root : TreePath) (left : Set TreePath) (m : Manifest) (t₀ : FileTree B)
    (s : Fetching B) : Prop where
  undamaged : Undamaged f root left m t₀ s
  rootDir : s.tree.isDir root = true
  phase : PhaseInv f root left m t₀ s.tree s.phase

/-! ## What one action keeps -/

theorem Undamaged.of_files (h : Undamaged f root left m t₀ s) (hfile : ∀ p, s'.tree.file? p = s.tree.file? p)
    (houtside : ∀ p, ¬ root <+: p → s'.tree.node? p = s.tree.node? p)
    (hphase : ∀ p, s.phase.temporary? root = some p → s'.phase.temporary? root = some p) :
    Undamaged f root left m t₀ s' where
  kept p b hb hleft := (hfile p).trans (h.kept p b hb hleft)
  outside p hp := (houtside p hp).trans (h.outside p hp)
  new p b hnone hb := (h.new p b hnone ((hfile p).symm.trans hb)).imp_left (hphase p)

/-- Directories are only created below the root. -/
theorem createDirAll_inside {t t' : FileTree B} {p : TreePath} (hroot : t.isDir root = true)
    (hp : p <+: (target root e).dropLast) (hne : target root e ≠ []) (h : t.createDirAll p = some t') :
    (∀ q, ¬ root <+: q → t'.node? q = t.node? q) ∧ t'.isDir root = true ∧
      t'.node? (target root e) = t.node? (target root e) := by
  have hnode := node?_createDirAll h
  have hdir := t.isDir_iff.mp hroot
  refine ⟨fun q hq => ?_, ?_, ?_⟩
  · rw [hnode]
    by_cases hpre : q <+: p
    · have htarget : q <+: target root e := (hpre.trans hp).trans (List.dropLast_prefix _)
      have habove : q <+: root := (List.prefix_or_prefix_of_prefix root_target htarget).resolve_left hq
      rw [t.dir_of_prefix (by rw [hdir]; rfl) habove fun heq => hq (heq ▸ List.prefix_refl _)]
      rfl
    · rw [if_neg hpre, Option.or_none]
  · rw [t'.isDir_iff, hnode, hdir]
    rfl
  · rw [hnode, if_neg, Option.or_none]
    exact fun hpre => not_prefix_dropLast rfl hne (hpre.trans hp)

theorem target_ne_nil (h : isFragment (components e.path) = true) : target root e ≠ [] := by
  obtain ⟨dir, name, htarget, _⟩ := @exists_target root e h
  rw [htarget]
  simp

theorem inv_entry {rest : List ManifestEntry} (h : Inv f root left m t₀ s) (hphase : s.phase = .loop (e :: rest))
    (hg : NamesFragments f root get left s (.succeeds : Ending B)) :
    Inv f root left m t₀ { s with phase := stepEntry f root get s.tree e rest } := by
  have hmem : ∀ e' ∈ e :: rest, e' ∈ m.fragments := by
    have hinv := h.phase
    rwa [hphase] at hinv
  have hrest : ∀ e' ∈ rest, e' ∈ m.fragments := fun e' he' => hmem e' (List.mem_cons_of_mem e he')
  have hundamaged : Undamaged f root left m t₀ { s with phase := stepEntry f root get s.tree e rest } := by
    refine h.undamaged.of_files (fun _ => rfl) (fun _ _ => rfl) fun p hp => ?_
    rw [hphase] at hp
    cases hp
  refine ⟨hundamaged, h.rootDir, ?_⟩
  dsimp only
  rw [stepEntry]
  split
  · exact hrest
  · rename_i hsafe
    split
    · exact hrest
    · rename_i hexists
      rw [Bool.not_eq_true] at hsafe hexists
      split
      · trivial
      · rename_i b hget
        split
        · trivial
        · rename_i hhash
          obtain ⟨hfrag, hspare⟩ := hg e rest b hphase hsafe hexists hget (not_not.mp hhash)
          refine ⟨⟨hmem e List.mem_cons_self, hfrag, not_not.mp hhash, fun hends => ?_, ?_⟩, hrest⟩
          · rw [exists?, hends, if_neg Bool.false_ne_true] at hexists
            exact Option.not_isSome_iff_eq_none.mp (Bool.eq_false_iff.mp hexists)
          · by_contra hboth
            rw [not_or] at hboth
            obtain ⟨b₀, hb₀⟩ := Option.ne_none_iff_exists'.mp hboth.1
            have hkept := h.undamaged.kept _ _ hb₀ hboth.2
            rw [hspare.resolve_right hboth.2] at hkept
            cases hkept

/-- Writing the temporary file destroys at most what a failed step left. -/
theorem undamaged_write {t' : FileTree B} {b b' : B} (h : Undamaged f root left m t₀ s)
    (hchosen : Chosen f root left m t₀ s.tree e b) (hphase : s.phase.temporary? root = none)
    (hwrite : s.tree.writeFile (temporary root e) b' = some t') {phase : Phase B}
    (hphase' : phase.temporary? root = some (temporary root e)) : Undamaged f root left m t₀ ⟨t', phase⟩ where
  kept p b₀ hb₀ hleft := by
    dsimp only
    rw [file?_writeFile hwrite, if_neg, h.kept p b₀ hb₀ hleft]
    intro heq
    rcases hchosen.spare with hnone | hin
    · rw [heq, hnone] at hb₀
      cases hb₀
    · exact hleft (heq ▸ hin)
  outside p hp := by
    dsimp only
    rw [node?_writeFile hwrite, if_neg, h.outside p hp]
    exact fun heq => hp (heq ▸ root_temporary hchosen.fragment)
  new p b₀ hnone hb₀ := by
    dsimp only at hb₀ ⊢
    rw [file?_writeFile hwrite] at hb₀
    by_cases hp : p = temporary root e
    · rw [hphase', hp]
      exact .inl rfl
    · rw [if_neg hp] at hb₀
      refine .inr ((h.new p b₀ hnone hb₀).resolve_left fun hsome => ?_)
      rw [hphase] at hsome
      cases hsome

/-- The file is moved to where nothing was. -/
theorem undamaged_rename {t' : FileTree B} {b : B} (h : Undamaged f root left m t₀ s)
    (hchosen : Chosen f root left m t₀ s.tree e b) (hends : endsAsDir e.path = false)
    (hphase : s.phase.temporary? root = some (temporary root e)) (hb : s.tree.file? (temporary root e) = some b)
    (hrename : s.tree.rename (temporary root e) (target root e) = some t') {phase : Phase B} :
    Undamaged f root left m t₀ ⟨t', phase⟩ := by
  have hnode := node?_rename hrename hb
  have hfile : ∀ p, t'.file? p = if p = target root e then some b else if p = temporary root e then none
      else s.tree.file? p := by
    intro p
    rw [file?, hnode]
    split_ifs
    · rfl
    · rfl
    · rfl
  have hfree := hchosen.free hends
  refine ⟨fun p b₀ hb₀ hleft => ?_, fun p hp => ?_, fun p b₀ hnone hb₀ => ?_⟩
  · have hbefore := h.kept p b₀ hb₀ hleft
    dsimp only
    rw [hfile, if_neg, if_neg, hbefore]
    · intro heq
      rcases hchosen.spare with hnone | hin
      · rw [heq, hnone] at hb₀
        cases hb₀
      · exact hleft (heq ▸ hin)
    · intro heq
      rw [heq, s.tree.file?_eq_some, hfree] at hbefore
      cases hbefore
  · dsimp only
    rw [hnode, if_neg, if_neg, h.outside p hp]
    · exact fun heq => hp (heq ▸ root_temporary hchosen.fragment)
    · exact fun heq => hp (heq ▸ root_target)
  · dsimp only at hb₀
    rw [hfile] at hb₀
    by_cases hp : p = target root e
    · rw [if_pos hp, Option.some.injEq] at hb₀
      exact .inr ⟨e, hchosen.mem, hp, hchosen.fragment, hb₀ ▸ hchosen.hash⟩
    · rw [if_neg hp] at hb₀
      by_cases htemp : p = temporary root e
      · rw [if_pos htemp] at hb₀
        cases hb₀
      · rw [if_neg htemp] at hb₀
        refine .inr ((h.new p b₀ hnone hb₀).resolve_left fun hsome => ?_)
        rw [hphase, Option.some.injEq] at hsome
        exact htemp hsome.symm

/-- Directories are created, all of them or some. -/
theorem inv_dirs {t' : FileTree B} {p : TreePath} {b : B} (h : Inv f root left m t₀ s)
    (hchosen : Chosen f root left m t₀ s.tree e b) (hp : p <+: (target root e).dropLast)
    (hcreate : s.tree.createDirAll p = some t') (hphase : s.phase.temporary? root = none) :
    (∀ phase : Phase B, Undamaged f root left m t₀ ⟨t', phase⟩) ∧ t'.isDir root = true ∧
      Chosen f root left m t₀ t' e b := by
  obtain ⟨houtside, hroot, htarget⟩ := createDirAll_inside h.rootDir hp (target_ne_nil hchosen.fragment) hcreate
  refine ⟨fun phase => ?_, hroot, hchosen.mem, hchosen.fragment, hchosen.hash, fun hends => ?_, hchosen.spare⟩
  · refine h.undamaged.of_files (fun q => file?_createDirAll hcreate q) houtside fun q hq => ?_
    rw [hphase] at hq
    cases hq
  · rw [htarget]
    exact hchosen.free hends

theorem isDir_writeFile {t t' : FileTree B} {p q : TreePath} {b : B} (h : t.writeFile q b = some t')
    (hp : t.isDir p = true) : t'.isDir p = true := by
  rw [t'.isDir_iff, node?_writeFile h, if_neg, t.isDir_iff.mp hp]
  intro heq
  have hsome : (t.writeFile q b).isSome := by rw [h]; rfl
  rw [heq, (writeFile_isSome.mp hsome).2.2.2] at hp
  cases hp

theorem inv_step {o : Ending B} (h : Inv f root left m t₀ s) (hg : NamesFragments f root get left s o)
    (hstep : step f root get s o = some s') : Inv f root left m t₀ s' := by
  obtain ⟨t, phase⟩ := s
  have hinv := h.phase
  cases phase with
  | loop rest =>
      cases rest with
      | nil =>
          cases o with
          | succeeds =>
              cases hstep
              exact ⟨h.undamaged.of_files (fun _ => rfl) (fun _ _ => rfl) fun p hp => (nomatch hp),
                h.rootDir, trivial⟩
          | fails => cases hstep
          | partly p => cases hstep
          | torn b => cases hstep
      | cons e rest =>
          cases o with
          | succeeds =>
              cases hstep
              exact inv_entry h rfl hg
          | fails => cases hstep
          | partly p => cases hstep
          | torn b => cases hstep
  | verified e b rest =>
      obtain ⟨hchosen, hrest⟩ := hinv
      cases o with
      | succeeds =>
          obtain ⟨t', hcreate, rfl⟩ := Option.map_eq_some_iff.mp hstep
          obtain ⟨hundamaged, hroot, hchosen'⟩ := inv_dirs h hchosen (List.prefix_refl _) hcreate rfl
          exact ⟨hundamaged _, hroot, hchosen', hrest⟩
      | fails =>
          cases hstep
          exact ⟨h.undamaged.of_files (fun _ => rfl) (fun _ _ => rfl) fun p hp => (nomatch hp), h.rootDir, trivial⟩
      | partly p =>
          have hcases : (if p <+: (target root e).dropLast then (t.createDirAll p).map fun t => ⟨t, .failed none⟩
              else none) = some s' := hstep
          split at hcases
          · rename_i hp
            obtain ⟨t', hcreate, rfl⟩ := Option.map_eq_some_iff.mp hcases
            obtain ⟨hundamaged, hroot, _⟩ := inv_dirs h hchosen hp hcreate rfl
            exact ⟨hundamaged _, hroot, trivial⟩
          · cases hcases
      | torn b => cases hstep
  | placed e b rest =>
      obtain ⟨hchosen, hrest⟩ := hinv
      cases o with
      | succeeds =>
          obtain ⟨t', hwrite, rfl⟩ := Option.map_eq_some_iff.mp hstep
          refine ⟨undamaged_write h.undamaged hchosen rfl hwrite rfl, isDir_writeFile hwrite h.rootDir, ⟨⟨hchosen.mem,
            hchosen.fragment, hchosen.hash, fun hends => ?_, hchosen.spare⟩, ?_⟩, hrest⟩
          · rw [node?_writeFile hwrite, if_neg (Ne.symm (temporary_ne hchosen.fragment))]
            exact hchosen.free hends
          · rw [file?_writeFile hwrite, if_pos rfl]
      | fails =>
          cases hstep
          exact ⟨h.undamaged.of_files (fun _ => rfl) (fun _ _ => rfl) fun p hp => (nomatch hp), h.rootDir, trivial⟩
      | partly p => cases hstep
      | torn b' =>
          obtain ⟨t', hwrite, rfl⟩ := Option.map_eq_some_iff.mp hstep
          exact ⟨undamaged_write h.undamaged hchosen rfl hwrite rfl, isDir_writeFile hwrite h.rootDir, trivial⟩
  | written e b rest =>
      obtain ⟨⟨hchosen, hb⟩, hrest⟩ := hinv
      cases o with
      | succeeds =>
          have hcases : (if endsAsDir e.path then none
              else (t.rename (temporary root e) (target root e)).map fun t => ⟨t, .loop rest⟩) = some s' := hstep
          split at hcases
          · cases hcases
          · rename_i hends
            obtain ⟨t', hrename, rfl⟩ := Option.map_eq_some_iff.mp hcases
            refine ⟨undamaged_rename h.undamaged hchosen (Bool.eq_false_iff.mpr hends) rfl hb hrename, ?_, hrest⟩
            rw [rename, hb, Option.bind_some] at hrename
            refine isDir_writeFile hrename ?_
            rw [isDir_removeFile]
            exact h.rootDir
      | fails =>
          cases hstep
          exact ⟨h.undamaged.of_files (fun _ => rfl) (fun _ _ => rfl) fun p hp => hp, h.rootDir, trivial⟩
      | partly p => cases hstep
      | torn b' => cases hstep
  | done => cases hstep
  | failed left => cases hstep

/-- A mirror that only names fragment files damages nothing, wherever a step fails. -/
theorem fetch_undamaged (hroot : t₀.isDir root = true) {os : List (Ending B)}
    (h : Run (ofPartial (step f root get)) (NamesFragments f root get left) ⟨t₀, .loop m.fragments⟩ os s) :
    Undamaged f root left m t₀ s := by
  have hstart : Inv f root left m t₀ ⟨t₀, .loop m.fragments⟩ := by
    refine ⟨⟨fun p b hb _ => hb, fun _ _ => rfl, fun p b hnone hb => ?_⟩, hroot, fun _ he => he⟩
    rw [hnone] at hb
    cases hb
  exact (h.invariant (fun _ _ _ hinv hg hstep => inv_step hinv hg hstep) hstart).undamaged

/-! ## A fetch that succeeds is a run -/

theorem exec_entry {t t' : FileTree B} {n n' : Nat} (h : fetchEntry f root get (t, n) e = .ok (t', n'))
    (rest : List ManifestEntry) : ∃ os, exec (step f root get) ⟨t, .loop (e :: rest)⟩ os = some ⟨t', .loop rest⟩ := by
  have hloop : step f root get ⟨t, .loop (e :: rest)⟩ .succeeds = some ⟨t, stepEntry f root get t e rest⟩ := rfl
  have hskip : stepEntry f root get t e rest = .loop rest → t = t' →
      ∃ os, exec (step f root get) ⟨t, .loop (e :: rest)⟩ os = some ⟨t', .loop rest⟩ := by
    intro hphase ht
    refine ⟨[.succeeds], ?_⟩
    rw [exec, hloop, hphase, ht]
    rfl
  rw [fetchEntry] at h
  dsimp only at h
  split_ifs at h with hunsafe hexists
  · cases h
    exact hskip (by rw [stepEntry, if_pos hunsafe]) rfl
  · cases h
    exact hskip (by rw [stepEntry, if_neg hunsafe, if_pos hexists]) rfl
  · cases hget : get e.path with
    | error err =>
        rw [hget] at h
        cases h
    | ok b =>
        rw [hget] at h
        dsimp only [bind, Except.bind] at h
        split_ifs at h with hhash
        split at h
        · rename_i t'' hplace
          cases h
          rw [place] at hplace
          split_ifs at hplace with hends
          obtain ⟨u, hcreate, hplace⟩ := Option.bind_eq_some_iff.mp hplace
          obtain ⟨v, hwrite, hrename⟩ := Option.bind_eq_some_iff.mp hplace
          have hphase : stepEntry f root get t e rest = .verified e b rest := by
            rw [stepEntry, if_neg hunsafe, if_neg hexists, hget]
            exact if_neg hhash
          have hverified : step f root get ⟨t, .verified e b rest⟩ .succeeds = some ⟨u, .placed e b rest⟩ :=
            Option.map_eq_some_iff.mpr ⟨u, hcreate, rfl⟩
          have hplaced : step f root get ⟨u, .placed e b rest⟩ .succeeds = some ⟨v, .written e b rest⟩ :=
            Option.map_eq_some_iff.mpr ⟨v, hwrite, rfl⟩
          have hwritten : step f root get ⟨v, .written e b rest⟩ .succeeds = some ⟨t', .loop rest⟩ :=
            (if_neg hends).trans (Option.map_eq_some_iff.mpr ⟨t', hrename, rfl⟩)
          refine ⟨[.succeeds, .succeeds, .succeeds, .succeeds], ?_⟩
          rw [exec, hloop, Option.bind_some, hphase, exec, hverified, Option.bind_some, exec, hplaced,
            Option.bind_some, exec, hwritten, Option.bind_some, exec]
        · cases h

theorem exec_entries {es : List ManifestEntry} {acc acc' : FileTree B × Nat}
    (h : es.foldlM (fetchEntry f root get) acc = .ok acc') :
    ∃ os, exec (step f root get) ⟨acc.1, .loop es⟩ os = some ⟨acc'.1, .done⟩ := by
  induction es generalizing acc with
  | nil =>
      cases h
      exact ⟨[.succeeds], rfl⟩
  | cons e es ih =>
      rw [List.foldlM_cons] at h
      cases hentry : fetchEntry f root get acc e with
      | error err =>
          rw [hentry] at h
          cases h
      | ok acc'' =>
          rw [hentry] at h
          obtain ⟨os, hos⟩ := exec_entry hentry es
          obtain ⟨os', hos'⟩ := ih h
          refine ⟨os ++ os', ?_⟩
          rw [exec_append, hos]
          exact hos'

/-- A fetch that returns is a run that ends. -/
theorem exec_fetch {t' : FileTree B} {n : Nat} {b : B} (hb : get "manifest.json" = .ok b) (hm : f.parse b = some m)
    (h : fetch f root get t₀ = .ok (t', n)) :
    ∃ os, exec (step f root get) ⟨t₀, .loop m.fragments⟩ os = some ⟨t', .done⟩ := by
  rw [fetch, hb] at h
  dsimp only [bind, Except.bind] at h
  rw [hm] at h
  exact exec_entries h

end

/-! ## A pack in the manifest -/

/-- A server that answers every request with the manifest of nothing. -/
def answer (_ : String) : Except FetchError Manifest := .ok ⟨1, []⟩

def packToml : ManifestEntry := ⟨"packs/k8s/pack.toml", hashOfNothing, 37⟩

/-- A mirror that lists the manifest of a pack has it placed among the packs. -/
theorem pack_placed : ∃ os s, Run (ofPartial (step plainFormat [] answer)) free ⟨empty, .loop [packToml]⟩ os s ∧
    ¬ Undamaged plainFormat [] ∅ ⟨1, [packToml]⟩ empty s := by
  have hfile : ((exec (step plainFormat [] answer) ⟨empty, .loop [packToml]⟩
      [.succeeds, .succeeds, .succeeds, .succeeds, .succeeds]).bind fun s =>
        if s.phase.temporary? [] = none then s.tree.file? ["packs", "k8s", "pack.toml"] else none).isSome = true := by
    decide +kernel
  obtain ⟨b, hb⟩ := Option.isSome_iff_exists.mp hfile
  obtain ⟨s, hs, hb⟩ := Option.bind_eq_some_iff.mp hb
  split_ifs at hb with hphase
  refine ⟨_, s, Run.of_exec hs, fun h => ?_⟩
  rcases h.new _ b (file?_empty _) hb with htemp | ⟨e, he, _, hfrag, _⟩
  · rw [hphase] at htemp
    cases htemp
  · rw [List.mem_singleton.mp he] at hfrag
    exact absurd hfrag (by decide)

def fragmentEntry : ManifestEntry := ⟨"drv/a.nq.zst", hashOfNothing, 37⟩

theorem fetch_undamaged_fragment : ∃ os s, Run (ofPartial (step plainFormat [] answer))
    (NamesFragments plainFormat [] answer ∅)
      ⟨empty, .loop [fragmentEntry]⟩ os s ∧ s.tree.file? ["drv", "a.nq.zst"] = some ⟨1, []⟩ ∧
    Undamaged plainFormat [] ∅ ⟨1, [fragmentEntry]⟩ empty s := by
  have hfile : (((empty : FileTree Manifest).createDirAll (target [] fragmentEntry).dropLast).bind fun u =>
      (u.writeFile (temporary [] fragmentEntry) ⟨1, []⟩).bind fun v =>
        (v.rename (temporary [] fragmentEntry) (target [] fragmentEntry)).bind fun t =>
          t.file? ["drv", "a.nq.zst"]) = some ⟨1, []⟩ := by decide +kernel
  obtain ⟨u, hu, hfile⟩ := Option.bind_eq_some_iff.mp hfile
  obtain ⟨v, hv, hfile⟩ := Option.bind_eq_some_iff.mp hfile
  obtain ⟨t, ht, hfile⟩ := Option.bind_eq_some_iff.mp hfile
  have hphase : stepEntry plainFormat [] answer empty fragmentEntry [] = .verified fragmentEntry ⟨1, []⟩ [] := by
    rw [stepEntry, if_neg (by decide), if_neg (by decide +kernel)]
    exact if_neg (by decide)
  have hrun : Run (ofPartial (step plainFormat [] answer)) (NamesFragments plainFormat [] answer ∅)
      ⟨empty, .loop [fragmentEntry]⟩ [.succeeds, .succeeds, .succeeds, .succeeds] ⟨t, .loop []⟩ := by
    apply Run.cons (t := ⟨empty, .verified fragmentEntry ⟨1, []⟩ []⟩)
    · exact congrArg (fun phase => some (⟨empty, phase⟩ : Fetching Manifest)) hphase
    · intro e rest b hphase
      cases hphase
      exact fun _ _ _ _ => ⟨by decide +kernel, .inl (file?_empty _)⟩
    · apply Run.cons (t := ⟨u, .placed fragmentEntry ⟨1, []⟩ []⟩)
      · exact congrArg (Option.map fun t => (⟨t, .placed fragmentEntry ⟨1, []⟩ []⟩ : Fetching Manifest)) hu
      · exact fun _ _ _ hphase => (nomatch hphase)
      · apply Run.cons (t := ⟨v, .written fragmentEntry ⟨1, []⟩ []⟩)
        · exact Option.map_eq_some_iff.mpr ⟨v, hv, rfl⟩
        · exact fun _ _ _ hphase => (nomatch hphase)
        · apply Run.cons (t := ⟨t, .loop []⟩)
          · exact Option.map_eq_some_iff.mpr ⟨t, ht, rfl⟩
          · exact fun _ _ _ hphase => (nomatch hphase)
          · exact .nil
  exact ⟨_, _, hrun, hfile, fetch_undamaged rfl hrun⟩

end Nix2Rdf.Publish
