import Nix2Rdf.Packs.Load
import Nix2Rdf.Lib.SortedSet

/-!
# What the ruleset hash covers

The hash of a pack covers its label, its regular files and its rule text. A file that is read
through a link is no regular file of the tree.
-/

namespace Nix2Rdf

/-! ## Regular files -/

namespace DirTree

theorem mem_regularFiles {t : DirTree} {p : String} {bs : List UInt8} :
    (p, bs) ∈ t.regularFiles ↔ t[p]? = some (.file bs) ∧ Text.startsWith "tests/" p = false := by
  rw [regularFiles, List.mem_filterMap]
  constructor
  · intro h
    obtain ⟨⟨k, e⟩, hmem, h⟩ := h
    rw [Std.ExtTreeMap.mem_toList_iff_getElem?_eq_some] at hmem
    cases e with
    | link target => cases h
    | file cs =>
        unfold regularFile at h
        dsimp only at h
        split at h
        · cases h
        · rename_i htests
          cases h
          exact ⟨hmem, by simpa using htests⟩
  · intro h
    have hmem := Std.ExtTreeMap.mem_toList_iff_getElem?_eq_some.mpr h.1
    refine ⟨(p, .file bs), hmem, ?_⟩
    simp [regularFile, h.2]

variable {t t' : DirTree}

/-- Trees with the same regular files have the same file under a path that is no link in either. -/
theorem file_of_regularFiles (h : t.regularFiles = t'.regularFiles) {p : String} {bs : List UInt8}
    (hp : Text.startsWith "tests/" p = false) (hf : t[p]? = some (.file bs)) :
    t'[p]? = some (.file bs) := by
  have hmem := mem_regularFiles.mpr ⟨hf, hp⟩
  rw [h] at hmem
  exact (mem_regularFiles.mp hmem).1

theorem file_of_find_bytes {p : String} {bs : List UInt8} (h : t.find p = .bytes bs)
    (hl : ¬ t.Linked p) : t[p]? = some (.file bs) := by
  unfold find at h
  split at h
  · rename_i hf
    cases h
    exact hf
  · rename_i hf
    exact absurd ⟨_, hf⟩ hl
  · cases h
  · cases h
  · split at h <;> cases h

theorem find_of_file {p : String} {bs : List UInt8} (h : t[p]? = some (.file bs)) :
    t.find p = .bytes bs := by
  rw [find, h]

end DirTree

namespace Packs

open DirTree

variable {t t' : DirTree}

theorem read_eq_some {f : Found} {text : String} (h : read f = some text) :
    ∃ bs, f = .bytes bs ∧ Encoding.ofUtf8 bs = some text := by
  cases f with
  | missing => cases h
  | unreadable => cases h
  | bytes bs => exact ⟨bs, rfl, h⟩

theorem readIfExists_eq_some {f : Found} {text : Option String} (h : readIfExists f = some text) :
    (f = .missing ∧ text = none) ∨ ∃ s, text = some s ∧ read f = some s := by
  cases f with
  | missing =>
      cases h
      exact .inl ⟨rfl, rfl⟩
  | unreadable => cases h
  | bytes bs =>
      simp only [readIfExists, Option.map_eq_some_iff] at h
      obtain ⟨s, hs, rfl⟩ := h
      exact .inr ⟨s, rfl, hs⟩

section SameFiles

variable (h : t.regularFiles = t'.regularFiles)
include h

theorem read_same {p text : String} (hp : Text.startsWith "tests/" p = false) (hl : ¬ t.Linked p)
    (hread : read (t.find p) = some text) : read (t'.find p) = some text := by
  obtain ⟨bs, hfind, htext⟩ := read_eq_some hread
  rw [find_of_file (file_of_regularFiles h hp (file_of_find_bytes hfind hl))]
  exact htext

theorem readIfExists_same {p : String} {a b : Option String}
    (hp : Text.startsWith "tests/" p = false) (hl : ¬ t.Linked p) (hl' : ¬ t'.Linked p)
    (ha : readIfExists (t.find p) = some a) (hb : readIfExists (t'.find p) = some b) : a = b := by
  rcases readIfExists_eq_some ha with ⟨hmissing, rfl⟩ | ⟨s, rfl, hs⟩
  · rcases readIfExists_eq_some hb with ⟨_, rfl⟩ | ⟨s', rfl, hs'⟩
    · rfl
    · have := read_same h.symm hp hl' hs'
      rw [hmissing] at this
      cases this
  · have hs' := read_same h hp hl hs
    obtain ⟨bs, hfind, htext⟩ := read_eq_some hs'
    rw [hfind] at hb hs'
    simp only [readIfExists, hs', Option.map_some, Option.some.injEq] at hb
    exact hb

theorem namedRules_same {p : String} {a b : List (String × String)}
    (hp : Text.startsWith "tests/" p = false) (hl : ¬ t.Linked p) (hl' : ¬ t'.Linked p)
    (ha : namedRules t p = some a) (hb : namedRules t' p = some b) : a = b := by
  simp only [namedRules, Option.map_eq_some_iff] at ha hb
  obtain ⟨u, hu, rfl⟩ := ha
  obtain ⟨v, hv, rfl⟩ := hb
  rw [readIfExists_same h hp hl hl' hu hv]

end SameFiles

/-! ## Rule files -/

/-- The manifest or a rule file is read through a link. -/
def RulesLinked (t : DirTree) : Prop :=
  t.Linked "pack.toml" ∨ t.Linked "semantics.rls" ∨ t.Linked "mapping.rls" ∨ t.Linked "policy"
    ∨ ∃ name, t.Linked ("policy/" ++ name)

theorem policy_not_tests (name : String) : Text.startsWith "tests/" ("policy/" ++ name) = false := by
  simp [Text.startsWith, List.isPrefixOf]

theorem mem_children {dir name : String} (hn : '/' ∉ name.toList)
    (h : ∃ e, t[dir ++ "/" ++ name]? = some e) : name ∈ t.children dir := by
  obtain ⟨e, he⟩ := h
  have hkey : dir ++ "/" ++ name ∈ t.keys := by
    rw [Std.ExtTreeMap.mem_keys, Std.ExtTreeMap.mem_iff_isSome_getElem?, he]
    rfl
  rw [children, mem_btreeSet, List.mem_map]
  refine ⟨name, List.mem_filterMap.mpr ⟨_, hkey, Text.stripPrefix?_append _ _⟩, ?_⟩
  rw [Text.splitOnce_eq_none.mpr hn]
  rfl

theorem slash_not_mem_of_mem_children {dir name : String} (h : name ∈ t.children dir) :
    '/' ∉ name.toList := by
  rw [children, mem_btreeSet, List.mem_map] at h
  obtain ⟨p, _, rfl⟩ := h
  cases hsplit : Text.splitOnce '/' p with
  | none => exact Text.splitOnce_eq_none.mp hsplit
  | some d => exact (Text.splitOnce_eq_some hsplit).2

/-- A sorted list of names is determined by its elements. -/
theorem filter_btreeSet_congr {p : String → Bool} {l l' : List String}
    (h : ∀ s, p s = true → (s ∈ btreeSet l ↔ s ∈ btreeSet l')) :
    (btreeSet l).filter p = (btreeSet l').filter p := by
  have hsorted : ∀ l : List String, ((btreeSet l).filter p).Pairwise fun a b => compare a b = .lt :=
    fun l => Std.ExtTreeSet.ordered_toList.filter _
  have hnodup : ∀ l : List String, ((btreeSet l).filter p).Nodup := fun l =>
    (hsorted l).imp fun {a b} hlt heq => by
      have hself : compare b b = .eq := Std.ReflCmp.compare_self
      rw [heq, hself] at hlt
      cases hlt
  have hperm : ((btreeSet l).filter p).Perm ((btreeSet l').filter p) := by
    rw [List.perm_ext_iff_of_nodup (hnodup l) (hnodup l')]
    intro s
    rw [List.mem_filter, List.mem_filter]
    exact and_congr_left fun hp => h s hp
  refine hperm.eq_of_pairwise (fun a b _ _ hab hba => ?_) (hsorted l) (hsorted l')
  have hswap : compare a b = (compare b a).swap := Std.OrientedCmp.eq_swap
  rw [hswap, hba] at hab
  cases hab

theorem isSome_of_mapM {α β : Type} {f : α → Option β} {l : List α} {bs : List β}
    (h : l.mapM f = some bs) : ∀ a ∈ l, ∃ b, f a = some b := by
  induction l generalizing bs with
  | nil => exact fun a ha => absurd ha List.not_mem_nil
  | cons a l ih =>
      simp only [List.mapM_cons, Option.bind_eq_bind, Option.bind_eq_some_iff] at h
      obtain ⟨b, hb, cs, hcs, _⟩ := h
      rw [List.forall_mem_cons]
      exact ⟨⟨b, hb⟩, ih hcs⟩

/-- Every rule file of the policy directory can be read. -/
def PolicyReadable (t : DirTree) : Prop := ∀ f ∈ policyFiles t, ∃ text, read f.2 = some text

theorem policyFiles_of_none (h : t["policy"]? = none) :
    policyFiles t = ((t.children "policy").filter isRuleName).map fun n => (n, t.find ("policy/" ++ n)) := by
  rw [policyFiles, h]

/-- A rule file of the policy directory that is not linked is a regular file of the tree. -/
theorem policyFile_regular (hnone : t["policy"]? = none) (hl : ¬ RulesLinked t) (hr : PolicyReadable t)
    {name : String} (hrule : isRuleName name = true) (hmem : name ∈ t.children "policy") :
    ∃ bs, t["policy/" ++ name]? = some (.file bs) := by
  have hin : (name, t.find ("policy/" ++ name)) ∈ policyFiles t := by
    rw [policyFiles_of_none hnone]
    exact List.mem_map_of_mem (List.mem_filter.mpr ⟨hmem, hrule⟩)
  obtain ⟨text, htext⟩ := hr _ hin
  obtain ⟨bs, hbs, _⟩ := read_eq_some htext
  refine ⟨bs, file_of_find_bytes hbs fun hlink => hl ?_⟩
  exact .inr (.inr (.inr (.inr ⟨name, hlink⟩)))

theorem policyFiles_same (h : t.regularFiles = t'.regularFiles) (hl : ¬ RulesLinked t)
    (hl' : ¬ RulesLinked t') (hr : PolicyReadable t) (hr' : PolicyReadable t') :
    policyFiles t = policyFiles t' := by
  have hpolicy : ¬ t.Linked "policy" := fun hp => hl (.inr (.inr (.inr (.inl hp))))
  have hpolicy' : ¬ t'.Linked "policy" := fun hp => hl' (.inr (.inr (.inr (.inl hp))))
  have htests : Text.startsWith "tests/" "policy" = false := by decide
  cases hentry : t["policy"]? with
  | some e =>
      cases e with
      | link target => exact absurd ⟨target, hentry⟩ hpolicy
      | file bs => rw [policyFiles, hentry, policyFiles, file_of_regularFiles h htests hentry]
  | none =>
      have hentry' : t'["policy"]? = none := by
        cases hentry' : t'["policy"]? with
        | none => rfl
        | some e =>
            cases e with
            | link target => exact absurd ⟨target, hentry'⟩ hpolicy'
            | file bs =>
                rw [file_of_regularFiles h.symm htests hentry'] at hentry
                cases hentry
      have hnames : (t.children "policy").filter isRuleName = (t'.children "policy").filter isRuleName := by
        refine filter_btreeSet_congr fun name hrule => ⟨fun hmem => ?_, fun hmem => ?_⟩
        · obtain ⟨bs, hbs⟩ := policyFile_regular hentry hl hr hrule hmem
          exact mem_children (slash_not_mem_of_mem_children hmem)
            ⟨_, file_of_regularFiles h (policy_not_tests name) hbs⟩
        · obtain ⟨bs, hbs⟩ := policyFile_regular hentry' hl' hr' hrule hmem
          exact mem_children (slash_not_mem_of_mem_children hmem)
            ⟨_, file_of_regularFiles h.symm (policy_not_tests name) hbs⟩
      rw [policyFiles_of_none hentry, policyFiles_of_none hentry', ← hnames]
      refine List.map_congr_left fun name hname => ?_
      obtain ⟨hmem, hrule⟩ := List.mem_filter.mp hname
      obtain ⟨bs, hbs⟩ := policyFile_regular hentry hl hr hrule hmem
      rw [find_of_file hbs, find_of_file (file_of_regularFiles h (policy_not_tests name) hbs)]

/-! ## Loaded packs -/

/-- A pack with the tree it was loaded from. -/
structure Loaded (toml : String → Option PackManifest) (x : Extern) where
  tree : DirTree
  pack : Pack
  ok : load toml x pack.dir tree = some pack

namespace Loaded

variable {toml : String → Option PackManifest} {x : Extern} (l l' : Loaded toml x)

theorem parts : ∃ text semantics mapping policy, read (l.tree.find "pack.toml") = some text ∧
    toml text = some l.pack.manifest ∧ readIfExists (l.tree.find "vocab.ttl") = some l.pack.vocabTtl ∧
    namedRules l.tree "semantics.rls" = some semantics ∧ namedRules l.tree "mapping.rls" = some mapping ∧
    (policyFiles l.tree).mapM (fun f => (read f.2).map fun text => ("policy/" ++ f.1, text)) = some policy ∧
    l.pack.ruleFiles = semantics ++ mapping ++ policy ∧
    l.pack.contentHash = hashItems x (contentItems l.tree) := by
  have hok := l.ok
  simp only [load, Option.bind_eq_bind, Option.bind_eq_some_iff, Option.pure_def, Option.some.injEq] at hok
  obtain ⟨text, htext, manifest, hmanifest, vocab, hvocab, semantics, hsem, mapping, hmap, policy, hpol,
    hpack⟩ := hok
  rw [← hpack]
  exact ⟨text, semantics, mapping, policy, htext, hmanifest, hvocab, hsem, hmap, hpol, rfl, rfl⟩

theorem contentHash_eq : l.pack.contentHash = hashItems x (contentItems l.tree) := by
  obtain ⟨_, _, _, _, _, _, _, _, _, _, _, h⟩ := l.parts
  exact h

variable {l l'}

theorem vocab_same (h : l.tree.regularFiles = l'.tree.regularFiles) (hl : ¬ l.tree.Linked "vocab.ttl")
    (hl' : ¬ l'.tree.Linked "vocab.ttl") : l.pack.vocabTtl = l'.pack.vocabTtl := by
  obtain ⟨_, _, _, _, _, _, hvocab, _⟩ := l.parts
  obtain ⟨_, _, _, _, _, _, hvocab', _⟩ := l'.parts
  exact readIfExists_same h (by decide) hl hl' hvocab hvocab'

theorem policyReadable (l : Loaded toml x) : PolicyReadable l.tree := by
  obtain ⟨_, _, _, _, _, _, _, _, _, hpol, _⟩ := l.parts
  intro f hf
  obtain ⟨b, hb⟩ := isSome_of_mapM hpol f hf
  obtain ⟨text, htext, _⟩ := Option.map_eq_some_iff.mp hb
  exact ⟨text, htext⟩

/-- Without links the regular files determine the manifest and the rules. -/
theorem rules_same (h : l.tree.regularFiles = l'.tree.regularFiles) (hl : ¬ RulesLinked l.tree)
    (hl' : ¬ RulesLinked l'.tree) :
    l.pack.manifest = l'.pack.manifest ∧ l.pack.ruleFiles = l'.pack.ruleFiles := by
  obtain ⟨text, sem, map, pol, htext, htoml, _, hsem, hmap, hpol, hrules, _⟩ := l.parts
  obtain ⟨text', sem', map', pol', htext', htoml', _, hsem', hmap', hpol', hrules', _⟩ := l'.parts
  have htoml_same : text = text' := by
    have := read_same h (by decide) (fun hp => hl (.inl hp)) htext
    rw [htext', Option.some.injEq] at this
    exact this.symm
  have hsem_same : sem = sem' :=
    namedRules_same h (by decide) (fun hp => hl (.inr (.inl hp))) (fun hp => hl' (.inr (.inl hp))) hsem hsem'
  have hmap_same : map = map' :=
    namedRules_same h (by decide) (fun hp => hl (.inr (.inr (.inl hp))))
      (fun hp => hl' (.inr (.inr (.inl hp)))) hmap hmap'
  have hpol_same : pol = pol' := by
    rw [policyFiles_same h hl hl' l.policyReadable l'.policyReadable, hpol', Option.some.injEq] at hpol
    exact hpol.symm
  rw [hrules, hrules', hsem_same, hmap_same, hpol_same]
  rw [htoml_same, htoml', Option.some.injEq] at htoml
  exact ⟨htoml.symm, rfl⟩

end Loaded

end Packs

end Nix2Rdf
