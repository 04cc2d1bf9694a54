import Nix2Rdf.Lib.Subtree
import Nix2Rdf.Publish.Fetch

/-!
# What arrives

Every fragment of a store is published, and fetched into an empty one. The fetcher passes over paths that
look unsafe to it, and writes each file under a temporary name first.
-/

namespace Nix2Rdf.Publish

open FileTree
open Paths (endsAsDir)

variable {B : Type} (f : FileFormat B) (s : FileTree B)

variable {f s} {p q : TreePath} {b : B}

/-! ## Fragment files -/

theorem mem_allFragmentPaths : p ∈ allFragmentPaths s ↔ (s.file? p).isSome ∧ isFragment p = true := by
  rw [allFragmentPaths, List.mem_filter, Std.ExtTreeMap.mem_keys, Bool.and_eq_true]
  refine ⟨fun h => h.2, fun h => ⟨?_, h⟩⟩
  obtain ⟨b, hb⟩ := Option.isSome_iff_exists.mp h.1
  rw [mem_nodes s (ne_nil_of_file? hb), s.file?_eq_some.mp hb]
  rfl

/-- The directory of a fragment file, and its name without the suffix. -/
theorem exists_name (hp : isFragment p = true) (hne : p ≠ []) : ∃ dir name, p = dir ++ [name ++ ".nq.zst"] := by
  obtain ⟨dir, last, rfl⟩ : ∃ dir last, p = dir ++ [last] := by
    rcases List.eq_nil_or_concat p with rfl | ⟨dir, last, rfl⟩
    · exact absurd rfl hne
    · exact ⟨dir, last, List.concat_eq_append⟩
  rw [isFragment, Bool.and_eq_true, Bool.and_eq_true, List.getLastD_concat] at hp
  obtain ⟨l, hl⟩ := List.isSuffixOf_iff_suffix.mp hp.1.1
  refine ⟨dir, String.ofList l, ?_⟩
  rw [← String.toList_inj.mp (hl.symm.trans ?_ : last.toList = (String.ofList l ++ ".nq.zst").toList)]
  rw [String.toList_append, String.toList_ofList]
  rfl

theorem partOf_eq (dir : TreePath) (name : String) :
    partOf (dir ++ [name ++ ".nq.zst"]) = dir ++ [name ++ ".nq.part"] := by
  have hsplit : Text.rsplitOnce '.' (name ++ ".nq.zst") = some (name ++ ".nq", "zst") := by
    have htext : name ++ ".nq.zst" = name ++ ".nq" ++ String.singleton '.' ++ "zst" := by
      apply String.toList_inj.mp
      simp
    rw [htext, Text.rsplitOnce_append (by decide)]
  have hne : name ++ ".nq" ≠ "" := by
    intro h
    have hlen := congrArg String.toList h
    simp at hlen
  rw [partOf, sibling, List.dropLast_concat, List.getLastD_concat, fileStem, hsplit]
  simp only [hne, ↓reduceIte, String.append_assoc]
  rfl

/-- A fragment file has no other fragment file at or below its temporary name's place. -/
theorem partOf_ne (hp : isFragment p = true) (hq : isFragment q = true) (hne : p ≠ []) (hne' : q ≠ []) :
    partOf p ≠ q := by
  obtain ⟨dir, name, rfl⟩ := exists_name hp hne
  obtain ⟨dir', name', rfl⟩ := exists_name hq hne'
  rw [partOf_eq]
  intro heq
  have hlast : name ++ ".nq.part" = name' ++ ".nq.zst" := by
    have h := congrArg (fun l => l.getLastD "") heq
    rwa [List.getLastD_concat, List.getLastD_concat] at h
  have hend := congrArg (fun l => l.toList.reverse.take 2) hlast
  simp at hend

theorem partOf_names (hp : isFragment p = true) (hb : s.file? p = some b) : ∀ n ∈ partOf p, IsName n := by
  have hnames := names_of_file? hb
  obtain ⟨dir, name, rfl⟩ := exists_name hp (ne_nil_of_file? hb)
  rw [partOf_eq]
  intro n hn
  rcases List.mem_append.mp hn with hn | hn
  · exact hnames n (List.mem_append_left _ hn)
  · obtain ⟨_, _, _, hslash, hnul⟩ := hnames (name ++ ".nq.zst") (by simp)
    have hend : ∀ m ∈ ["", ".", ".."], name ++ ".nq.part" ≠ m := by
      intro m hm heq
      have hlast : m.toList.getLast? = some 't' := by
        rw [← heq]
        simp
      have hshort : ∀ m ∈ ["", ".", ".."], m.toList.getLast? ≠ some 't' := by decide
      exact hshort m hm hlast
    have hchars : ∀ c, c ∉ (name ++ ".nq.zst").toList → c ∉ ".nq.part".toList → c ∉ (name ++ ".nq.part").toList := by
      intro c hc hext
      rw [String.toList_append, List.mem_append] at hc ⊢
      exact not_or.mpr ⟨fun h => hc (.inl h), hext⟩
    rw [List.mem_singleton.mp hn]
    exact ⟨hend _ (by simp), hend _ (by simp), hend _ (by simp), hchars _ hslash (by decide),
      hchars _ hnul (by decide)⟩

theorem slash_free (hnames : ∀ n ∈ p, IsName n) : ∀ n ∈ p, '/' ∉ n.toList := fun n hn => (hnames n hn).2.2.2.1

theorem components_slash (hnames : ∀ n ∈ p, IsName n) (hne : p ≠ []) : components (Text.slash p) = p := by
  rw [components, Text.split_slash hne (slash_free hnames), List.filter_eq_self]
  exact fun n hn => decide_eq_true (not_or.mpr ⟨(hnames n hn).1, (hnames n hn).2.1⟩)

theorem endsAsDir_slash (hnames : ∀ n ∈ p, IsName n) (hne : p ≠ []) : endsAsDir (Text.slash p) = false := by
  obtain ⟨dir, last, rfl⟩ : ∃ dir last, p = dir ++ [last] := by
    rcases List.eq_nil_or_concat p with rfl | ⟨dir, last, rfl⟩
    · exact absurd rfl hne
    · exact ⟨dir, last, List.concat_eq_append⟩
  have hlast : Text.lastPart '/' (Text.slash (dir ++ [last])) = last := by
    have hsplit := Text.split_slash hne (slash_free hnames)
    rw [Text.split] at hsplit
    have hmap : ∀ l : List (List Char), String.ofList (l.getLastD []) = (l.map String.ofList).getLastD "" := by
      intro l
      rcases List.eq_nil_or_concat l with rfl | ⟨l, a, rfl⟩
      · rfl
      · rw [List.concat_eq_append, List.getLastD_concat, List.map_append, List.map_singleton, List.getLastD_concat]
    rw [Text.lastPart, hmap, hsplit, List.getLastD_concat]
  have hname := hnames last (by simp)
  rw [endsAsDir, hlast, decide_eq_false_iff_not, not_or]
  exact ⟨hname.1, hname.2.1⟩

theorem isUnsafe_slash (hnames : ∀ n ∈ p, IsName n) (hne : p ≠ []) :
    isUnsafe (Text.slash p) = true ↔ "..".toList <:+: (Text.slash p).toList := by
  have habs : Text.startsWith "/" (Text.slash p) = false := by
    rw [Text.startsWith, Bool.eq_false_iff, Ne, List.isPrefixOf_iff_prefix]
    intro hpre
    obtain ⟨t, ht⟩ := hpre
    have htext : Text.slash p = "" ++ String.singleton '/' ++ String.ofList t := by
      apply String.toList_inj.mp
      rw [← ht]
      simp
    have hsplit := Text.split_append '/' "" (String.ofList t)
    rw [← htext, Text.split_slash hne (slash_free hnames)] at hsplit
    have hmem : "" ∈ p := by
      rw [hsplit]
      simp [Text.split]
    exact (hnames "" hmem).1 rfl
  rw [isUnsafe, habs, Bool.or_false, decide_eq_true_eq]

/-- The files with their bytes. -/
def held (s : FileTree B) (ps : List TreePath) : List (TreePath × B) :=
  ps.filterMap fun p => (s.file? p).map fun b => (p, b)

theorem mem_held {ps : List TreePath} {e : TreePath × B} : e ∈ held s ps ↔ e.1 ∈ ps ∧ s.file? e.1 = some e.2 := by
  rw [held, List.mem_filterMap]
  constructor
  · intro h
    obtain ⟨p, hp, hmap⟩ := h
    obtain ⟨b, hb, rfl⟩ := Option.map_eq_some_iff.mp hmap
    exact ⟨hp, hb⟩
  · intro h
    exact ⟨e.1, h.1, by rw [h.2]; rfl⟩

section Fetching

variable {get : String → Except FetchError B} {t t' : FileTree B} {n n' : Nat} {done : List TreePath}

theorem fetchEntry_new (hb : s.file? p = some b) (hsafe : ¬ "..".toList <:+: (Text.slash p).toList)
    (ht : t.node? p = none) (hget : get (Text.slash p) = .ok b) : fetchEntry f [] get (t, n) (entryOf f p b) =
      (match t.placeFile (partOf p) p b with
        | some t => .ok (t, n + 1)
        | none => .error (.io p)) := by
  have hends := endsAsDir_slash (names_of_file? hb) (ne_nil_of_file? hb)
  have hpath := components_slash (names_of_file? hb) (ne_nil_of_file? hb)
  have hexists : exists? t [] (Text.slash p) = false := by
    rw [exists?, hends, if_neg Bool.false_ne_true, hpath, List.nil_append, ht]
    rfl
  have hunsafe : isUnsafe (Text.slash p) = false := by
    rw [Bool.eq_false_iff, Ne, isUnsafe_slash (names_of_file? hb) (ne_nil_of_file? hb)]
    exact hsafe
  have hplace : place [] t (entryOf f p b) b = t.placeFile (partOf p) p b := by
    rw [place, entryOf, hends, if_neg Bool.false_ne_true, hpath, List.nil_append]
  have hentry : (entryOf f p b).path = Text.slash p := rfl
  have hhash : ¬ f.sha256Hex b ≠ (entryOf f p b).sha256 := fun h => h rfl
  rw [fetchEntry, hentry, hunsafe, if_neg Bool.false_ne_true, hexists, if_neg Bool.false_ne_true, hget, hpath]
  dsimp only [bind, Except.bind]
  rw [List.nil_append, ← hplace]
  exact if_neg hhash

/-- Fragment files that are already there. -/
structure Arrived (s t : FileTree B) (done : List TreePath) : Prop where
  restricts : Restricts s t done
  file : ∀ p ∈ done, (s.file? p).isSome
  fragment : ∀ p ∈ done, isFragment p = true

theorem Arrived.node?_none (h : Arrived s t done) (hb : s.file? p = some b) (hp : p ∉ done) : t.node? p = none := by
  refine h.restricts.node?_none (ne_nil_of_file? hb) fun q hq hpre => ?_
  by_cases heq : p = q
  · exact hp (heq ▸ hq)
  · obtain ⟨b', hb'⟩ := Option.isSome_iff_exists.mp (h.file q hq)
    have hdir := s.dir_of_prefix (by rw [s.file?_eq_some.mp hb']; rfl) hpre heq
    rw [s.file?_eq_some.mp hb] at hdir
    cases hdir

/-- One more file arrives, unless a directory has its temporary name. -/
theorem Arrived.next (h : Arrived s t done) (hb : s.file? p = some b) (hp : isFragment p = true) (hnew : p ∉ done)
    (hsafe : ¬ "..".toList <:+: (Text.slash p).toList) (hget : get (Text.slash p) = .ok b) :
    ((∀ q ∈ done, ¬ partOf p <+: q) ∧ ∃ t', fetchEntry f [] get (t, n) (entryOf f p b) = .ok (t', n + 1) ∧
        Arrived s t' (done ++ [p])) ∨
      ((∃ q ∈ done, partOf p <+: q) ∧ ∃ e, fetchEntry f [] get (t, n) (entryOf f p b) = .error e) := by
  have hne := ne_nil_of_file? hb
  have hnone := h.node?_none hb hnew
  have hentry := fetchEntry_new (f := f) (n := n) hb hsafe hnone hget
  have hdir : (partOf p).dropLast = p.dropLast := by rw [partOf, sibling, List.dropLast_concat]
  have hpart : partOf p ≠ [] := by simp [partOf, sibling]
  have hother : ∀ q ∈ done, partOf p ≠ q := fun q hq => by
    obtain ⟨b', hb'⟩ := Option.isSome_iff_exists.mp (h.file q hq)
    exact partOf_ne hp (h.fragment q hq) hne (ne_nil_of_file? hb')
  by_cases hbad : ∃ q ∈ done, partOf p <+: q
  · refine .inr ⟨hbad, .io p, ?_⟩
    obtain ⟨q, hq, hpre⟩ := hbad
    obtain ⟨b', hb'⟩ := Option.isSome_iff_exists.mp (h.file q hq)
    have hisdir : t.isDir (partOf p) = true := by
      rw [t.isDir_iff, h.restricts.node?_of_mem hq hpre]
      exact s.dir_of_prefix (by rw [s.file?_eq_some.mp hb']; rfl) hpre (hother q hq)
    rw [hentry, h.restricts.placeFile_none hb hdir hpart hisdir]
  · have hfree : ∀ q ∈ done, ¬ partOf p <+: q := fun q hq hpre => hbad ⟨q, hq, hpre⟩
    obtain ⟨t', hplace, ht'⟩ := h.restricts.placeFile hb hdir hpart h.file (partOf_names hp hb)
      (partOf_ne hp hp hne hne) (h.restricts.node?_none hpart hfree)
    refine .inl ⟨hfree, t', by rw [hentry, hplace], ht', fun q hq => ?_, fun q hq => ?_⟩
    · rcases List.mem_append.mp hq with hq | hq
      · exact h.file q hq
      · rw [List.mem_singleton.mp hq, hb]
        rfl
    · rcases List.mem_append.mp hq with hq | hq
      · exact h.fragment q hq
      · rwa [List.mem_singleton.mp hq]

/-- No temporary name is that of a directory that is there by then. -/
def Free (done : List TreePath) (l : List (TreePath × B)) : Prop :=
  l.Pairwise (fun e e' => ¬ partOf e'.1 <+: e.1) ∧ ∀ e ∈ l, ∀ q ∈ done, ¬ partOf e.1 <+: q

theorem free_cons {e : TreePath × B} {l : List (TreePath × B)} :
    Free done (e :: l) ↔ (∀ q ∈ done, ¬ partOf e.1 <+: q) ∧ Free (done ++ [e.1]) l := by
  simp only [Free, List.pairwise_cons, List.forall_mem_cons, List.forall_mem_append, List.not_mem_nil, false_imp_iff,
    forall_const, and_true, forall_and]
  constructor
  · exact fun h => ⟨h.2.1, h.1.2, h.2.2, h.1.1⟩
  · exact fun h => ⟨⟨h.2.2.2, h.2.1⟩, h.1, h.2.2.1⟩

end Fetching

/-! ## The whole store -/

/-- The fragment files in the order of the manifest. -/
def listed (s : FileTree B) : List (TreePath × B) :=
  (held s (allFragmentPaths s)).mergeSort fun e e' => decide (Text.slash e.1 ≤ Text.slash e'.1)

theorem mem_listed {e : TreePath × B} : e ∈ listed s ↔ s.file? e.1 = some e.2 ∧ isFragment e.1 = true := by
  rw [listed, List.mem_mergeSort, mem_held, mem_allFragmentPaths]
  constructor
  · exact fun h => ⟨h.2, h.1.2⟩
  · exact fun h => ⟨⟨by rw [h.1]; rfl, h.2⟩, h.1⟩

/-- The files whose paths do not look unsafe. -/
def accepted (s : FileTree B) : List (TreePath × B) :=
  (listed s).filter fun e => !decide ("..".toList <:+: (Text.slash e.1).toList)

/-- The hash of the manifest of nothing, as it is printed. -/
def hashOfNothing : String := "54e73c627797e78420e763b941d86123a5253f72265d842ed021cb83fbfd7461"

/-- Files that are manifests, with the hash and the size of one of them. -/
def plainFormat : FileFormat Manifest where
  sha256Hex m := if m = ⟨1, []⟩ then hashOfNothing else ""
  size m := if m = ⟨1, []⟩ then 37 else 0
  print m := m
  parse := some
  parse_print _ := rfl

end Nix2Rdf.Publish
