import Nix2Rdf.Lib.Text
import Std.Data.ExtTreeMap
import Mathlib.Data.List.Infix

/-!
# Trees of files

A file system without links. A path is the list of names from the root. At a path stands a file or a
directory, and everything stands in a directory.
-/

abbrev TreePath := List String

namespace FileTree

/-- What may name an entry of a directory. -/
def IsName (s : String) : Prop := s ≠ "" ∧ s ≠ "." ∧ s ≠ ".." ∧ '/' ∉ s.toList ∧ Char.ofNat 0 ∉ s.toList

instance (s : String) : Decidable (IsName s) := inferInstanceAs (Decidable (_ ∧ _))

inductive Node (B : Type) where
  | file (bytes : B)
  | dir

def Node.isDir {B : Type} : Node B → Bool
  | file _ => false
  | dir => true

end FileTree

open FileTree in
structure FileTree (B : Type) where
  /-- The root itself is not listed. -/
  nodes : Std.ExtTreeMap TreePath (Node B)
  rootless : [] ∉ nodes
  named : ∀ p ∈ nodes, ∀ n ∈ p, IsName n
  inDir : ∀ p ∈ nodes, p.dropLast ≠ [] → nodes[p.dropLast]? = some .dir

namespace FileTree

variable {B : Type}

def empty : FileTree B where
  nodes := ∅
  rootless := Std.ExtTreeMap.not_mem_empty
  named _ hp := absurd hp Std.ExtTreeMap.not_mem_empty
  inDir _ hp := absurd hp Std.ExtTreeMap.not_mem_empty

section Reading

variable (t : FileTree B)

def node? (p : TreePath) : Option (Node B) := if p = [] then some .dir else t.nodes[p]?

def file? (p : TreePath) : Option B :=
  match t.node? p with
  | some (.file b) => some b
  | _ => none

def isDir (p : TreePath) : Bool :=
  match t.node? p with
  | some .dir => true
  | _ => false

@[simp] theorem node?_nil : t.node? [] = some .dir := rfl

theorem file?_eq_some {p : TreePath} {b : B} : t.file? p = some b ↔ t.node? p = some (.file b) := by
  unfold file?
  split
  · rename_i h
    simp [h]
  · rename_i h
    simp only [reduceCtorEq, false_iff]
    exact h b

theorem file?_eq_none {p : TreePath} : t.file? p = none ↔ ∀ b, t.node? p ≠ some (.file b) := by
  rw [Option.eq_none_iff_forall_ne_some]
  simp only [ne_eq, file?_eq_some]

theorem isDir_iff {p : TreePath} : t.isDir p = true ↔ t.node? p = some .dir := by
  unfold isDir
  split
  · rename_i h
    simp [h]
  · rename_i h
    simp only [Bool.false_eq_true, false_iff]
    exact h

theorem node?_eq_none_or (p : TreePath) :
    t.node? p = none ∨ t.node? p = some .dir ∨ ∃ b, t.node? p = some (.file b) := by
  cases h : t.node? p with
  | none => exact .inl rfl
  | some n =>
      cases n with
      | file b => exact .inr (.inr ⟨b, rfl⟩)
      | dir => exact .inr (.inl rfl)

theorem mem_nodes {p : TreePath} (hp : p ≠ []) : p ∈ t.nodes ↔ (t.node? p).isSome := by
  rw [node?, if_neg hp, Std.ExtTreeMap.isSome_getElem?_iff_mem]

theorem names_of_node? {p : TreePath} (h : (t.node? p).isSome) : ∀ n ∈ p, IsName n := by
  by_cases hp : p = []
  · rw [hp]
    simp
  · exact t.named p ((t.mem_nodes hp).mpr h)

theorem parent_dir {p : TreePath} (h : (t.node? p).isSome) : t.node? p.dropLast = some .dir := by
  by_cases hp : p = []
  · rw [hp]
    rfl
  · by_cases hparent : p.dropLast = []
    · rw [hparent, node?_nil]
    · rw [node?, if_neg hparent]
      exact t.inDir p ((t.mem_nodes hp).mpr h) hparent

/-- What stands above an entry is a directory. -/
theorem dir_of_prefix {p q : TreePath} (h : (t.node? p).isSome) (hpre : q <+: p) (hne : q ≠ p) :
    t.node? q = some .dir := by
  induction p using List.reverseRecOn with
  | nil => exact absurd (List.prefix_nil.mp hpre) hne
  | append_singleton p n ih =>
      have hparent := t.parent_dir h
      rw [List.dropLast_concat] at hparent
      rcases List.prefix_concat_iff.mp hpre with rfl | hpre
      · exact absurd rfl hne
      · by_cases hq : q = p
        · rwa [hq]
        · refine ih ?_ hpre hq
          rw [hparent]
          rfl

theorem node?_empty {p : TreePath} (hp : p ≠ []) : (empty : FileTree B).node? p = none := by
  rw [node?, if_neg hp]
  exact Std.ExtTreeMap.getElem?_empty

theorem file?_empty (p : TreePath) : (empty : FileTree B).file? p = none := by
  by_cases hp : p = []
  · rw [hp]
    rfl
  · rw [file?, node?_empty hp]

end Reading

/-! ## Directories -/

/-- List the paths as directories where nothing stands. -/
def addDirs (m : Std.ExtTreeMap TreePath (Node B)) (ps : List TreePath) : Std.ExtTreeMap TreePath (Node B) :=
  ps.foldl (fun m p => if p = [] then m else m.insertIfNew p .dir) m

theorem getElem?_addDirs (m : Std.ExtTreeMap TreePath (Node B)) (ps : List TreePath) (q : TreePath) :
    (addDirs m ps)[q]? = m[q]?.or (if q ≠ [] ∧ q ∈ ps then some .dir else none) := by
  induction ps generalizing m with
  | nil => simp [addDirs]
  | cons p ps ih =>
      refine (ih (if p = [] then m else m.insertIfNew p .dir)).trans ?_
      by_cases hp : p = []
      · subst hp
        rw [if_pos rfl]
        congr 2
        simp only [List.mem_cons, eq_iff_iff]
        constructor
        · exact fun h => ⟨h.1, .inr h.2⟩
        · exact fun h => ⟨h.1, h.2.resolve_left h.1⟩
      · rw [if_neg hp, Std.ExtTreeMap.getElem?_insertIfNew]
        by_cases hpq : p = q
        · subst hpq
          by_cases hmem : p ∈ m
          · simp [hmem]
          · simp [hmem, hp]
        · have hne : q ≠ p := fun h => hpq h.symm
          simp [hpq, hne]

theorem mem_addDirs {m : Std.ExtTreeMap TreePath (Node B)} {ps : List TreePath} {q : TreePath} :
    q ∈ addDirs m ps ↔ q ∈ m ∨ (q ≠ [] ∧ q ∈ ps) := by
  rw [← Std.ExtTreeMap.isSome_getElem?_iff_mem, getElem?_addDirs, Option.isSome_or, Bool.or_eq_true,
    Std.ExtTreeMap.isSome_getElem?_iff_mem]
  by_cases h : q ≠ [] ∧ q ∈ ps <;> simp [h]

/-- Create a directory and whatever is missing above it. A file in the way is an error. -/
def createDirAll (t : FileTree B) (p : TreePath) : Option (FileTree B) :=
  if h : (∀ n ∈ p, IsName n) ∧ ∀ q ∈ p.inits, (t.file? q).isNone then
    some
      { nodes := addDirs t.nodes p.inits
        rootless := by
          rw [mem_addDirs]
          simp [t.rootless]
        named := by
          intro q hq
          rcases mem_addDirs.mp hq with hq | hq
          · exact t.named q hq
          · exact fun n hn => h.1 n ((List.mem_inits _ _).mp hq.2 |>.subset hn)
        inDir := by
          intro q hq hne
          rw [getElem?_addDirs]
          rcases mem_addDirs.mp hq with hq | hq
          · rw [t.inDir q hq hne]
            rfl
          · have hpre : q.dropLast <+: p := (List.dropLast_prefix q).trans ((List.mem_inits _ _).mp hq.2)
            have hmem := (List.mem_inits _ _).mpr hpre
            have hfile := h.2 _ hmem
            rcases t.node?_eq_none_or q.dropLast with hnode | hnode | ⟨b, hnode⟩
            · rw [node?, if_neg hne] at hnode
              simp [hnode, hne, hmem]
            · rw [node?, if_neg hne] at hnode
              simp [hnode]
            · rw [t.file?_eq_some.mpr hnode] at hfile
              cases hfile }
  else none

theorem createDirAll_isSome {t : FileTree B} {p : TreePath} : (t.createDirAll p).isSome ↔
    (∀ n ∈ p, IsName n) ∧ ∀ q, q <+: p → t.file? q = none := by
  unfold createDirAll
  split
  · rename_i h
    simp only [Option.isSome_some, true_iff]
    refine ⟨h.1, fun q hq => ?_⟩
    simpa using h.2 q ((List.mem_inits _ _).mpr hq)
  · rename_i h
    simp only [Option.isSome_none, Bool.false_eq_true, false_iff]
    refine fun hall => h ⟨hall.1, fun q hq => ?_⟩
    rw [hall.2 q ((List.mem_inits _ _).mp hq)]
    rfl

theorem node?_createDirAll {t t' : FileTree B} {p : TreePath} (h : t.createDirAll p = some t') (q : TreePath) :
    t'.node? q = (t.node? q).or (if q <+: p then some .dir else none) := by
  unfold createDirAll at h
  split at h
  · cases h
    by_cases hq : q = []
    · subst hq
      rfl
    · rw [node?, node?, if_neg hq, if_neg hq, getElem?_addDirs]
      simp [hq, List.mem_inits]
  · cases h

/-! ## Files -/

/-- Create or truncate a file and write to it. Its directory has to be there. -/
def writeFile (t : FileTree B) (p : TreePath) (b : B) : Option (FileTree B) :=
  if h : p ≠ [] ∧ (∀ n ∈ p, IsName n) ∧ t.isDir p.dropLast = true ∧ t.isDir p = false then
    some
      { nodes := t.nodes.insert p (.file b)
        rootless := by
          rw [Std.ExtTreeMap.mem_insert, Std.LawfulEqCmp.compare_eq_iff_eq]
          simp [h.1, t.rootless]
        named := by
          intro q hq
          rw [Std.ExtTreeMap.mem_insert, Std.LawfulEqCmp.compare_eq_iff_eq] at hq
          rcases hq with rfl | hq
          · exact h.2.1
          · exact t.named q hq
        inDir := by
          intro q hq hne
          rw [Std.ExtTreeMap.mem_insert, Std.LawfulEqCmp.compare_eq_iff_eq] at hq
          have hdir : t.nodes[q.dropLast]? = some .dir := by
            rcases hq with rfl | hq
            · have hparent := t.isDir_iff.mp h.2.2.1
              rwa [node?, if_neg hne] at hparent
            · exact t.inDir q hq hne
          rw [Std.ExtTreeMap.getElem?_insert, if_neg, hdir]
          intro hself
          have heq := Std.LawfulEqCmp.compare_eq_iff_eq.mp hself
          have hnode : t.node? p = some .dir := by
            rw [node?, if_neg h.1, heq, hdir]
          rw [t.isDir_iff.mpr hnode] at h
          exact absurd h.2.2.2 (by decide) }
  else none

theorem writeFile_isSome {t : FileTree B} {p : TreePath} {b : B} : (t.writeFile p b).isSome ↔
    p ≠ [] ∧ (∀ n ∈ p, IsName n) ∧ t.isDir p.dropLast = true ∧ t.isDir p = false := by
  unfold writeFile
  split
  · rename_i h
    simpa using h
  · rename_i h
    simpa using h

theorem node?_writeFile {t t' : FileTree B} {p : TreePath} {b : B} (h : t.writeFile p b = some t') (q : TreePath) :
    t'.node? q = if q = p then some (.file b) else t.node? q := by
  unfold writeFile at h
  split at h
  · rename_i hok
    cases h
    by_cases hq : q = []
    · subst hq
      rw [if_neg fun heq => hok.1 heq.symm]
      rfl
    · rw [node?, node?, if_neg hq, if_neg hq, Std.ExtTreeMap.getElem?_insert]
      simp only [Std.LawfulEqCmp.compare_eq_iff_eq]
      by_cases hpq : p = q
      · rw [if_pos hpq, if_pos hpq.symm]
      · rw [if_neg hpq, if_neg fun heq => hpq heq.symm]
  · cases h

def removeFile (t : FileTree B) (p : TreePath) : FileTree B :=
  if h : (t.file? p).isSome then
    { nodes := t.nodes.erase p
      rootless := by
        rw [Std.ExtTreeMap.mem_erase]
        exact fun hmem => t.rootless hmem.2
      named := by
        intro q hq
        exact t.named q (Std.ExtTreeMap.mem_erase.mp hq).2
      inDir := by
        intro q hq hne
        have hdir := t.inDir q (Std.ExtTreeMap.mem_erase.mp hq).2 hne
        rw [Std.ExtTreeMap.getElem?_erase, if_neg, hdir]
        intro hself
        have heq := Std.LawfulEqCmp.compare_eq_iff_eq.mp hself
        have hnone : t.file? p = none := by
          refine t.file?_eq_none.mpr fun b hb => ?_
          rw [node?, heq, if_neg hne, hdir] at hb
          cases hb
        rw [hnone] at h
        cases h }
  else t

theorem node?_removeFile (t : FileTree B) (p q : TreePath) :
    (t.removeFile p).node? q = if q = p ∧ (t.file? p).isSome then none else t.node? q := by
  unfold removeFile
  split
  · rename_i h
    have hp : p ≠ [] := by
      rintro rfl
      simp [file?] at h
    by_cases hq : q = []
    · subst hq
      rw [if_neg fun heq => hp heq.1.symm]
      rfl
    · rw [node?, node?, if_neg hq, if_neg hq, Std.ExtTreeMap.getElem?_erase]
      simp only [Std.LawfulEqCmp.compare_eq_iff_eq, h, and_true]
      by_cases hpq : p = q
      · rw [if_pos hpq, if_pos hpq.symm]
      · rw [if_neg hpq, if_neg fun heq => hpq heq.symm]
  · rename_i h
    rw [if_neg fun heq => h heq.2]

theorem isDir_removeFile (t : FileTree B) (p q : TreePath) : (t.removeFile p).isDir q = t.isDir q := by
  rw [Bool.eq_iff_iff, isDir_iff, isDir_iff, node?_removeFile]
  split
  · rename_i h
    obtain ⟨rfl, hfile⟩ := h
    obtain ⟨b, hb⟩ := Option.isSome_iff_exists.mp hfile
    simp [t.file?_eq_some.mp hb]
  · rfl

/-- Move a file, over another file if there is one. -/
def rename (t : FileTree B) (src dst : TreePath) : Option (FileTree B) :=
  (t.file? src).bind fun b => (t.removeFile src).writeFile dst b

theorem rename_isSome {t : FileTree B} {src dst : TreePath} : (t.rename src dst).isSome ↔ (t.file? src).isSome ∧
    dst ≠ [] ∧ (∀ n ∈ dst, IsName n) ∧ t.isDir dst.dropLast = true ∧ t.isDir dst = false := by
  rw [rename]
  cases t.file? src with
  | none => simp
  | some b =>
      rw [Option.bind_some, writeFile_isSome, isDir_removeFile, isDir_removeFile]
      simp

theorem node?_rename {t t' : FileTree B} {src dst : TreePath} {b : B} (h : t.rename src dst = some t')
    (hsrc : t.file? src = some b) (q : TreePath) :
    t'.node? q = if q = dst then some (.file b) else if q = src then none else t.node? q := by
  rw [rename, hsrc, Option.bind_some] at h
  rw [node?_writeFile h, node?_removeFile, hsrc]
  simp

theorem file?_createDirAll {t u : FileTree B} {q : TreePath} (h : t.createDirAll q = some u) (p : TreePath) :
    u.file? p = t.file? p := by
  have hnode := node?_createDirAll h p
  cases hp : t.node? p with
  | none =>
      rw [file?, file?, hnode, hp]
      by_cases hpre : p <+: q <;> simp [hpre]
  | some n =>
      rw [file?, file?, hnode, hp]
      rfl

theorem file?_writeFile {t u : FileTree B} {q : TreePath} {b : B} (h : t.writeFile q b = some u) (p : TreePath) :
    u.file? p = if p = q then some b else t.file? p := by
  rw [file?, node?_writeFile h]
  split_ifs
  · rfl
  · rfl

/-- Nothing stands below what is not there. -/
theorem node?_none_below {t : FileTree B} {p : TreePath} (h : t.node? p = none) (rel : TreePath) :
    t.node? (p ++ rel) = none := by
  by_contra hsome
  by_cases hrel : p = p ++ rel
  · rw [← hrel] at hsome
    exact hsome h
  · have hdir := t.dir_of_prefix (Option.isSome_iff_ne_none.mpr hsome) (List.prefix_append p rel) hrel
    rw [h] at hdir
    cases hdir

/-! ## Files with the directories above them -/

/-- The same, under a temporary name first. -/
def placeFile (t : FileTree B) (tmp p : TreePath) (b : B) : Option (FileTree B) :=
  (t.createDirAll p.dropLast).bind fun u => (u.writeFile tmp b).bind fun v => v.rename tmp p

end FileTree
