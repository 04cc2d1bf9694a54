import Nix2Rdf.Lib.FileTree

/-!
# Part of a tree

Files are copied from one tree to another, one by one, each with the directories above it. A temporary
file beside the target is in the way of nothing, unless there is a directory of its name.
-/

namespace FileTree

variable {B : Type}

/-- The second tree holds what the first one has at some paths and above them, and nothing else. -/
def Restricts (s t : FileTree B) (ps : List TreePath) : Prop :=
  ∀ q, t.node? q = if q = [] ∨ ∃ p ∈ ps, q <+: p then s.node? q else none

variable {s t : FileTree B} {ps : List TreePath}

theorem not_prefix_dropLast {q p : TreePath} (hlen : q.length = p.length) (hne : p ≠ []) : ¬ q <+: p.dropLast := by
  intro h
  have hle := h.length_le
  have hpos := List.length_pos_iff.mpr hne
  rw [List.length_dropLast] at hle
  omega

theorem prefix_iff_dropLast {q p : TreePath} : q <+: p ↔ q <+: p.dropLast ∨ q = p := by
  rcases List.eq_nil_or_concat p with rfl | ⟨d, n, rfl⟩
  · simp
  · rw [List.concat_eq_append, List.dropLast_concat, List.prefix_concat_iff, or_comm]

theorem length_eq_of_dropLast {p q : TreePath} (h : q.dropLast = p.dropLast) (hq : q ≠ []) (hp : p ≠ []) :
    q.length = p.length := by
  have hlen := congrArg List.length h
  have hpos := List.length_pos_iff.mpr hq
  have hpos' := List.length_pos_iff.mpr hp
  rw [List.length_dropLast, List.length_dropLast] at hlen
  omega

theorem ne_nil_of_file? {p : TreePath} {b : B} (hp : s.file? p = some b) : p ≠ [] := by
  rintro rfl
  cases hp

theorem names_of_file? {p : TreePath} {b : B} (hp : s.file? p = some b) : ∀ n ∈ p, IsName n := by
  refine s.names_of_node? ?_
  rw [s.file?_eq_some.mp hp]
  rfl

namespace Restricts

variable (h : Restricts s t ps)

include h

theorem node?_of_mem {p q : TreePath} (hp : p ∈ ps) (hq : q <+: p) : t.node? q = s.node? q := by
  rw [h q, if_pos (.inr ⟨p, hp, hq⟩)]

theorem node?_none {q : TreePath} (hne : q ≠ []) (hq : ∀ p ∈ ps, ¬ q <+: p) : t.node? q = none := by
  rw [h q, if_neg]
  rintro (h' | ⟨p, hp, hpre⟩)
  · exact hne h'
  · exact hq p hp hpre

theorem node?_le (q : TreePath) : t.node? q = none ∨ t.node? q = s.node? q := by
  rw [h q]
  split
  · exact .inr rfl
  · exact .inl rfl

variable {p : TreePath} {b : B} (hp : s.file? p = some b)

include hp

/-- The directories above a file can be created. -/
theorem createDirAll : ∃ u, t.createDirAll p.dropLast = some u ∧
    ∀ q, u.node? q = (t.node? q).or (if q <+: p.dropLast then some .dir else none) := by
  have hnode := s.file?_eq_some.mp hp
  have hsome : (s.node? p).isSome = true := by rw [hnode]; rfl
  have hok : (t.createDirAll p.dropLast).isSome = true := by
    refine createDirAll_isSome.mpr ⟨fun n hn => s.names_of_node? hsome n (List.dropLast_subset p hn), fun q hq => ?_⟩
    have hdir : s.node? q = some .dir := by
      have hpar : (s.node? p.dropLast).isSome = true := by rw [s.parent_dir hsome]; rfl
      by_cases heq : q = p.dropLast
      · rw [heq, s.parent_dir hsome]
      · exact s.dir_of_prefix hpar hq heq
    refine t.file?_eq_none.mpr fun b' hb => ?_
    rcases h.node?_le q with hnone | hsame
    · rw [hnone] at hb
      cases hb
    · rw [hsame, hdir] at hb
      cases hb
  obtain ⟨u, hu⟩ := Option.isSome_iff_exists.mp hok
  exact ⟨u, hu, node?_createDirAll hu⟩

/-- No directory stands where a file is copied to. -/
theorem isDir_false : t.isDir p = false := by
  rw [Bool.eq_false_iff, ne_eq, isDir_iff]
  intro hdir
  rcases h.node?_le p with hnone | hsame
  · rw [hnone] at hdir
    cases hdir
  · rw [hsame, s.file?_eq_some.mp hp] at hdir
    cases hdir

/-- What holds of the tree once the file is in its place. -/
theorem concat {t' : FileTree B} (hps : ∀ p ∈ ps, (s.file? p).isSome)
    (ht : ∀ q, t'.node? q = if q = p then some (.file b) else
      (t.node? q).or (if q <+: p.dropLast then some .dir else none)) : Restricts s t' (ps ++ [p]) := by
  have hnode := s.file?_eq_some.mp hp
  have hsome : (s.node? p).isSome = true := by rw [hnode]; rfl
  intro q
  rw [ht]
  by_cases hq : q = p
  · rw [if_pos hq, if_pos (.inr ⟨p, by simp, hq ▸ List.prefix_refl q⟩), hq, hnode]
  · rw [if_neg hq, h q]
    by_cases hold : q = [] ∨ ∃ p ∈ ps, q <+: p
    · have hin : (s.node? q).isSome = true := by
        rcases hold with rfl | ⟨p', hp', hpre⟩
        · rfl
        · obtain ⟨b', hb'⟩ := Option.isSome_iff_exists.mp (hps p' hp')
          have hnode' := s.file?_eq_some.mp hb'
          by_cases heq : q = p'
          · rw [heq, hnode']
            rfl
          · rw [s.dir_of_prefix (by rw [hnode']; rfl) hpre heq]
            rfl
      have hnew : q = [] ∨ ∃ p' ∈ ps ++ [p], q <+: p' := by
        refine hold.imp_right fun hex => ?_
        obtain ⟨p', hp', hpre⟩ := hex
        exact ⟨p', List.mem_append_left _ hp', hpre⟩
      rw [if_pos hold, if_pos hnew, Option.or_of_isSome hin]
    · rw [if_neg hold, Option.none_or]
      by_cases hpre : q <+: p.dropLast
      · rw [if_pos hpre, if_pos (.inr ⟨p, by simp, hpre.trans (List.dropLast_prefix p)⟩)]
        exact (s.dir_of_prefix hsome (hpre.trans (List.dropLast_prefix p)) hq).symm
      · rw [if_neg hpre, if_neg]
        intro hnew
        rcases hnew with hnil | ⟨p', hp', hpre'⟩
        · exact hold (.inl hnil)
        · rcases List.mem_append.mp hp' with hp' | hp'
          · exact hold (.inr ⟨p', hp', hpre'⟩)
          · rw [List.mem_singleton.mp hp'] at hpre'
            exact (prefix_iff_dropLast.mp hpre').elim hpre hq

/-- The directory of the file, and what stands at a path beside it, once the directory is created. -/
theorem beside {u : FileTree B}
    (hu : ∀ q, u.node? q = (t.node? q).or (if q <+: p.dropLast then some .dir else none)) :
    u.node? p.dropLast = some .dir ∧ ∀ q, q.length = p.length → u.node? q = t.node? q := by
  constructor
  · rw [hu, if_pos (List.prefix_refl _)]
    rcases h.node?_le p.dropLast with hnone | hsame
    · rw [hnone]
      rfl
    · rw [hsame, s.parent_dir (by rw [s.file?_eq_some.mp hp]; rfl)]
      rfl
  · intro q hlen
    rw [hu, if_neg (not_prefix_dropLast hlen (ne_nil_of_file? hp)), Option.or_none]

section Temporary

variable {tmp : TreePath} (hdir : tmp.dropLast = p.dropLast) (hne : tmp ≠ [])

include hdir hne

/-- A file can be copied under a temporary name first, where nothing has that name. -/
theorem placeFile (hps : ∀ p ∈ ps, (s.file? p).isSome) (hnames : ∀ n ∈ tmp, IsName n) (hnew : tmp ≠ p)
    (hfree : t.node? tmp = none) :
    ∃ t', t.placeFile tmp p b = some t' ∧ Restricts s t' (ps ++ [p]) := by
  obtain ⟨u, hu, hnode⟩ := h.createDirAll hp
  obtain ⟨hparent, hbeside⟩ := h.beside hp hnode
  have hlen := length_eq_of_dropLast hdir hne (ne_nil_of_file? hp)
  have htmp : u.node? tmp = none := by rw [hbeside tmp hlen, hfree]
  have hwrite : (u.writeFile tmp b).isSome := by
    refine writeFile_isSome.mpr ⟨hne, hnames, u.isDir_iff.mpr (hdir ▸ hparent), ?_⟩
    rw [isDir, htmp]
  obtain ⟨v, hv⟩ := Option.isSome_iff_exists.mp hwrite
  have hvnode := node?_writeFile hv
  have hvfile : v.file? tmp = some b := by rw [v.file?_eq_some, hvnode, if_pos rfl]
  have hmove : (v.rename tmp p).isSome := by
    refine rename_isSome.mpr ⟨by rw [hvfile]; rfl, ne_nil_of_file? hp, names_of_file? hp, ?_, ?_⟩
    · rw [v.isDir_iff, hvnode, if_neg, hparent]
      intro heq
      exact not_prefix_dropLast hlen (ne_nil_of_file? hp) (heq ▸ List.prefix_refl _)
    · have hfile := h.isDir_false hp
      rw [Bool.eq_false_iff, ne_eq, isDir_iff] at hfile ⊢
      rwa [hvnode, if_neg (Ne.symm hnew), hbeside p rfl]
  obtain ⟨t', ht'⟩ := Option.isSome_iff_exists.mp hmove
  refine ⟨t', ?_, h.concat hp hps fun q => ?_⟩
  · rw [FileTree.placeFile, hu, Option.bind_some, hv, Option.bind_some, ht']
  · rw [node?_rename ht' hvfile, hvnode]
    by_cases hq : q = tmp
    · rw [if_pos hq, hq, ← hnode, htmp]
    · rw [if_neg hq, if_neg hq, hnode]

/-- It cannot, where a directory has that name. -/
theorem placeFile_none (hbad : t.isDir tmp = true) : t.placeFile tmp p b = none := by
  obtain ⟨u, hu, hnode⟩ := h.createDirAll hp
  obtain ⟨_, hbeside⟩ := h.beside hp hnode
  have htmp : u.isDir tmp = true := by
    rw [isDir_iff, hbeside tmp (length_eq_of_dropLast hdir hne (ne_nil_of_file? hp))]
    exact t.isDir_iff.mp hbad
  have hwrite : u.writeFile tmp b = none := by
    rw [← Option.not_isSome_iff_eq_none]
    intro hsome
    rw [(writeFile_isSome.mp hsome).2.2.2] at htmp
    cases htmp
  rw [FileTree.placeFile, hu, Option.bind_some, hwrite, Option.bind_none]

end Temporary

end Restricts

end FileTree
