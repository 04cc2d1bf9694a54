import Nix2Rdf.Hash
import Nix2Rdf.Packs.Copy
import Nix2Rdf.Packs.Load
import Nix2Rdf.Store

/-!
# Copies of the packs of a run

A run copies its packs into the store by the steps of `copy_to_store`. On the files and directories of
the store these steps do what they do on a tree of files.
-/

namespace Nix2Rdf.Reason

open Packs Paths

variable {Bytes : Type}

/-- The directories the packs are read from, as they are walked. -/
abbrev PackDirs (Bytes : Type) := String → PackTree Bytes

/-- A step of a copy. Directories are created where no file stands, a file where no directory stands and
in one that is there. -/
def applyOp (st : Store Bytes) : Op Bytes → Option (Store Bytes)
  | .createDirAll p =>
      if (∀ n ∈ p, FileTree.IsName n) ∧ ∀ q ∈ p.inits, (st.file? (Text.slash q)).isSome = false then
        some (p.inits.foldl (fun st q => st.mkdir (Text.slash q)) st)
      else none
  | .copy p content => content.bind fun b =>
      if p ≠ [] ∧ (∀ n ∈ p, FileTree.IsName n) ∧ (st.node? (Text.slash p.dropLast)).any FileTree.Node.isDir = true ∧
          (st.node? (Text.slash p)).any FileTree.Node.isDir = false then
        some (st.put (Text.slash p) b)
      else none

def copySteps : Store Bytes → List (Op Bytes) → Store Bytes × Result Unit
  | st, [] => (st, .ok ())
  | st, op :: ops =>
      match applyOp st op with
      | none => (st, .error ("io error at " ++ Text.slash op.path))
      | some st => copySteps st ops

/-- A pack is copied unless its directory is there. -/
def copyToStore (dirs : PackDirs Bytes) (st : Store Bytes) (p : Pack) : Store Bytes × Result Unit :=
  let dest := packDir p.contentHash
  if (st.look (Text.slash dest)).isSome then (st, .ok ()) else copySteps st (copyOps dest (dirs p.dir))

def copyPacks (dirs : PackDirs Bytes) : Store Bytes → List Pack → Store Bytes × Result Unit
  | st, [] => (st, .ok ())
  | st, p :: ps =>
      match copyToStore dirs st p with
      | (st, .error e) => (st, .error e)
      | (st, .ok ()) => copyPacks dirs st ps

section

variable {dirs : PackDirs Bytes} {st st' : Store Bytes}

/-! ## What copies leave -/

theorem ne_of_startsWith {pre p t : String} (hp : Text.startsWith pre p = false) : pre ++ t ≠ p := by
  intro heq
  rw [← heq, Text.startsWith, String.toList_append, Bool.eq_false_iff] at hp
  exact hp (List.isPrefixOf_iff_prefix.mpr (List.prefix_append _ _))

/-- Names are kept when a path of them is resolved. -/
theorem resolvePath_names {p : TreePath} (h : ∀ n ∈ p, FileTree.IsName n) :
    resolvePath (Text.slash p) = Text.slash p := by
  have hproper : ∀ n ∈ p, Proper n := fun n hn =>
    ⟨not_or.mpr ⟨(h n hn).1, (h n hn).2.1⟩, (h n hn).2.2.1⟩
  by_cases hp : p = []
  · subst hp
    rfl
  · rw [resolvePath, Text.split_slash hp fun n hn => (h n hn).2.2.2.1, foldl_resolveStep hproper, List.append_nil,
      List.reverse_reverse]

theorem file?_mkdirs (ps : List TreePath) (p : String) :
    ((ps.foldl (fun st q => st.mkdir (Text.slash q)) st).file? p) = st.file? p := by
  induction ps generalizing st with
  | nil => rfl
  | cons q ps ih => exact ih

/-- A step creates a directory, or writes its file. -/
theorem file?_applyOp {op : Op Bytes} (h : applyOp st op = some st') (p : String) :
    st'.file? p = st.file? p ∨ ∃ b, Text.slash op.path = p ∧ st'.file? p = some b := by
  cases op with
  | createDirAll q =>
      rw [applyOp] at h
      split at h
      · cases h
        exact .inl (file?_mkdirs _ p)
      · cases h
  | copy q content =>
      obtain ⟨b, _, h⟩ := Option.bind_eq_some_iff.mp h
      split at h
      · rename_i hok
        cases h
        rw [Store.file?_put, resolvePath_names hok.2.1]
        by_cases hp : Text.slash q = p
        · exact .inr ⟨b, hp, if_pos hp⟩
        · exact .inl (if_neg hp)
      · cases h

/-- Steps in other places leave a file as it is, and steps in any place leave one there. -/
theorem file?_copySteps {ops : List (Op Bytes)} (p : String) :
    ((∀ op ∈ ops, Text.slash op.path ≠ p) → ((copySteps st ops).1).file? p = st.file? p) ∧
      ((st.file? p).isSome → (((copySteps st ops).1).file? p).isSome) := by
  induction ops generalizing st with
  | nil => exact ⟨fun _ => rfl, fun h => h⟩
  | cons op ops ih =>
      rw [copySteps]
      cases hop : applyOp st op with
      | none => exact ⟨fun _ => rfl, fun h => h⟩
      | some st' =>
          rcases file?_applyOp hop p with hsame | ⟨b, hpath, hb⟩
          · refine ⟨fun h => ?_, fun h => ?_⟩
            · exact ((@ih st').1 fun o ho => h o (List.mem_cons_of_mem _ ho)).trans hsame
            · exact (@ih st').2 (by rwa [hsame])
          · refine ⟨fun h => absurd hpath (h op List.mem_cons_self), fun _ => (@ih st').2 ?_⟩
            rw [hb]
            rfl

/-- Everything that is copied goes below the directory of the packs. -/
theorem ne_of_copyOps {hash p : String} {pack : PackTree Bytes} (hp : Text.startsWith "packs/" p = false) :
    ∀ op ∈ copyOps (packDir hash) pack, Text.slash op.path ≠ p := by
  intro op hop
  obtain ⟨rel, hrel⟩ := path_of_copyOps hop
  have hpath : Text.slash op.path = "packs/" ++ Text.slash (hash :: rel) := by
    rw [← hrel]
    exact Text.slash_cons "packs" hash rel
  rw [hpath]
  exact ne_of_startsWith hp

theorem file?_copyToStore (p' : Pack) (p : String) :
    (Text.startsWith "packs/" p = false → ((copyToStore dirs st p').1).file? p = st.file? p) ∧
      ((st.file? p).isSome → (((copyToStore dirs st p').1).file? p).isSome) := by
  rw [copyToStore]
  split
  · exact ⟨fun _ => rfl, fun h => h⟩
  · exact ⟨fun hp => (file?_copySteps p).1 (ne_of_copyOps hp), (file?_copySteps p).2⟩

/-- Copying packs changes nothing outside of their directory, and removes nothing. -/
theorem file?_copyPacks (packs : List Pack) (p : String) :
    (Text.startsWith "packs/" p = false → ((copyPacks dirs st packs).1).file? p = st.file? p) ∧
      ((st.file? p).isSome → (((copyPacks dirs st packs).1).file? p).isSome) := by
  induction packs generalizing st with
  | nil => exact ⟨fun _ => rfl, fun h => h⟩
  | cons p' packs ih =>
      obtain ⟨hsame, hsome⟩ := @file?_copyToStore _ dirs st p' p
      rw [copyPacks]
      split
      · rename_i heq
        rw [heq] at hsame hsome
        exact ⟨hsame, hsome⟩
      · rename_i heq
        rw [heq] at hsame hsome
        exact ⟨fun hp => (ih.1 hp).trans (hsame hp), fun h => ih.2 (hsome h)⟩

end

/-! ## Copies on trees of files -/

/-- The paths of names lead to the same in the tree and in the store. -/
def Shows (t : FileTree Bytes) (st : Store Bytes) : Prop :=
  ∀ p, (∀ n ∈ p, FileTree.IsName n) → t.node? p = st.node? (Text.slash p)

section

variable {p q : TreePath}

theorem slash_names_inj (hp : ∀ n ∈ p, FileTree.IsName n) (hq : ∀ n ∈ q, FileTree.IsName n)
    (h : Text.slash p = Text.slash q) : p = q := by
  have hsplit : ∀ {l : TreePath}, (∀ n ∈ l, FileTree.IsName n) → (Text.split '/' (Text.slash l)).filter
      (· ≠ "") = l := by
    intro l hl
    cases l with
    | nil => rfl
    | cons n l =>
        rw [Text.split_slash (List.cons_ne_nil _ _) fun s hs => (hl s hs).2.2.2.1, List.filter_eq_self]
        exact fun s hs => decide_eq_true (hl s hs).1
  rw [← hsplit hp, h, hsplit hq]

/-- Below a path of names lies what begins with these names. -/
theorem prefix_of_startsWith (hp : ∀ n ∈ p, FileTree.IsName n) (hq : ∀ n ∈ q, FileTree.IsName n)
    (h : Text.startsWith (Text.slash q ++ "/") (Text.slash p) = true) : q <+: p.dropLast := by
  by_cases hne : q = []
  · rw [hne]
    exact List.nil_prefix
  · obtain ⟨t, ht⟩ := List.isPrefixOf_iff_prefix.mp h
    have hpath : Text.slash p = Text.slash q ++ String.singleton '/' ++ String.ofList t := by
      apply String.toList_inj.mp
      rw [← ht]
      simp
    have hpne : p ≠ [] := by
      rintro rfl
      have hlen := congrArg (fun s : String => s.toList.length) hpath
      simp [Text.slash] at hlen
    have hsplit := congrArg (Text.split '/') hpath
    rw [Text.split_append, Text.split_slash hpne fun n hn => (hp n hn).2.2.2.1,
      Text.split_slash hne fun n hn => (hq n hn).2.2.2.1] at hsplit
    rw [hsplit, List.dropLast_append_of_ne_nil (split_ne_nil _ _)]
    exact List.prefix_append _ _

theorem mem_above (hp : ∀ n ∈ p, FileTree.IsName n) {e : String} :
    e ∈ Store.above (Text.slash p) ↔ ∃ q, q <+: p.dropLast ∧ e = Text.slash q := by
  have hproper : ∀ {q : TreePath}, q <+: p.dropLast → q.foldl resolveStep [] = q.reverse := by
    intro q hq
    have hsub : ∀ n ∈ q, Proper n := fun n hn => by
      have hname := hp n (List.dropLast_subset p (hq.subset hn))
      exact ⟨not_or.mpr ⟨hname.1, hname.2.1⟩, hname.2.2.1⟩
    rw [foldl_resolveStep hsub, List.append_nil]
  have hsegs : (Text.split '/' (Text.slash p)).dropLast = p.dropLast := by
    cases p with
    | nil => rfl
    | cons n p => rw [Text.split_slash (List.cons_ne_nil _ _) fun n hn => (hp n hn).2.2.2.1]
  rw [Store.above, hsegs, List.mem_toFinset, List.mem_map]
  constructor
  · intro h
    obtain ⟨q, hq, rfl⟩ := h
    have hpre := (List.mem_inits _ _).mp hq
    exact ⟨q, hpre, by rw [hproper hpre, List.reverse_reverse]⟩
  · intro h
    obtain ⟨q, hpre, rfl⟩ := h
    exact ⟨q, (List.mem_inits _ _).mpr hpre, by rw [hproper hpre, List.reverse_reverse]⟩

end

section

variable {t : FileTree Bytes} {st st' : Store Bytes} {p q : TreePath}

/-- What is new in a store makes directories of nothing but what lies above it. -/
theorem isDir_grown (hp : ∀ n ∈ p, FileTree.IsName n) (hq : ∀ n ∈ q, FileTree.IsName n)
    (hfiles : ∀ s, (st'.file? s).isSome →
      (st.file? s).isSome ∨ Text.startsWith (Text.slash q ++ "/") s = false ∨ q <+: p)
    (hfiles' : ∀ s, (st.file? s).isSome → (st'.file? s).isSome)
    (hdirs : ∀ e, e ∈ st'.dirs ↔ e ∈ st.dirs ∨ ∃ r, r <+: p ∧ e = Text.slash r) :
    st'.isDir (Text.slash q) = true ↔ st.isDir (Text.slash q) = true ∨ q <+: p := by
  have hnames : ∀ {r : TreePath}, r <+: p → ∀ n ∈ r, FileTree.IsName n := fun hr n hn => hp n (hr.subset hn)
  simp only [Store.isDir_iff]
  constructor
  · intro h
    rcases h with hup | hcreated | ⟨s, hs, hbelow⟩ | ⟨e, he, hbelow⟩
    · exact .inl (.inl hup)
    · rcases (hdirs _).mp hcreated with hold | ⟨r, hr, heq⟩
      · exact .inl (.inr (.inl hold))
      · exact .inr (slash_names_inj hq (hnames hr) heq ▸ hr)
    · rcases hfiles s hs with hold | hno | hpre
      · exact .inl (.inr (.inr (.inl ⟨s, hold, hbelow⟩)))
      · rw [hno] at hbelow
        cases hbelow
      · exact .inr hpre
    · rcases (hdirs _).mp he with hold | ⟨r, hr, rfl⟩
      · exact .inl (.inr (.inr (.inr ⟨e, hold, hbelow⟩)))
      · exact .inr ((prefix_of_startsWith (hnames hr) hq hbelow).trans ((List.dropLast_prefix r).trans hr))
  · intro h
    rcases h with (hup | hcreated | ⟨s, hs, hbelow⟩ | ⟨e, he, hbelow⟩) | hpre
    · exact .inl hup
    · exact .inr (.inl ((hdirs _).mpr (.inl hcreated)))
    · exact .inr (.inr (.inl ⟨s, hfiles' s hs, hbelow⟩))
    · exact .inr (.inr (.inr ⟨e, (hdirs e).mpr (.inl he), hbelow⟩))
    · exact .inr (.inl ((hdirs _).mpr (.inr ⟨q, hpre, rfl⟩)))

theorem mem_dirs_mkdirs (ps : List TreePath) {e : String} :
    e ∈ (ps.foldl (fun st q => st.mkdir (Text.slash q)) st).dirs ↔ e ∈ st.dirs ∨ ∃ q ∈ ps, e = Text.slash q := by
  induction ps generalizing st with
  | nil => simp
  | cons q ps ih =>
      rw [List.foldl_cons, ih, Store.mkdir, Finset.mem_insert, List.exists_mem_cons_iff, or_assoc, or_left_comm]

/-- A directory is created with those above it. -/
theorem isDir_mkdirs (hp : ∀ n ∈ p, FileTree.IsName n) (hq : ∀ n ∈ q, FileTree.IsName n) :
    (p.inits.foldl (fun st q => st.mkdir (Text.slash q)) st).isDir (Text.slash q) = true ↔
      st.isDir (Text.slash q) = true ∨ q <+: p := by
  refine isDir_grown hp hq (fun s hs => .inl ?_) (fun s hs => ?_) fun e => ?_
  · rwa [file?_mkdirs] at hs
  · rwa [file?_mkdirs]
  · rw [mem_dirs_mkdirs]
    simp only [List.mem_inits]

theorem isDir_put {b : Bytes} (hp : ∀ n ∈ p, FileTree.IsName n) (hq : ∀ n ∈ q, FileTree.IsName n) :
    (st.put (Text.slash p) b).isDir (Text.slash q) = true ↔ st.isDir (Text.slash q) = true ∨ q <+: p.dropLast := by
  have hfile := fun s => @Store.file?_put _ st (Text.slash p) s b
  simp only [resolvePath_names hp] at hfile
  refine isDir_grown (fun n hn => hp n (List.dropLast_subset p hn)) hq (fun s hs => ?_) (fun s hs => ?_) fun e => ?_
  · rw [hfile] at hs
    split at hs
    · rename_i heq
      subst heq
      cases hbelow : Text.startsWith (Text.slash q ++ "/") (Text.slash p) with
      | false => exact .inr (.inl rfl)
      | true => exact .inr (.inr (prefix_of_startsWith hp hq hbelow))
    · exact .inl hs
  · rw [hfile]
    split
    · rfl
    · exact hs
  · rw [Store.put, Finset.mem_union, mem_above hp]

theorem Shows.file? (h : Shows t st) (hq : ∀ n ∈ q, FileTree.IsName n) : t.file? q = st.file? (Text.slash q) := by
  rw [Option.ext_iff]
  intro b
  rw [t.file?_eq_some, h q hq, Store.node?_eq_file]

/-- Stores with the same file at a path differ there in whether it is a directory. -/
theorem node?_grown {p : String} (hfile : st'.file? p = st.file? p) {above : Prop} [Decidable above]
    (hdir : st'.isDir p = true ↔ st.isDir p = true ∨ above) :
    st'.node? p = (st.node? p).or (if above then some .dir else none) := by
  rw [Store.node?, Store.node?, hfile]
  cases st.file? p with
  | some b => rfl
  | none =>
      by_cases hold : st.isDir p = true
      · rw [if_pos (hdir.mpr (.inl hold)), if_pos hold, Option.some_or]
      · rw [if_neg hold, Option.none_or]
        exact if_congr (hdir.trans (or_iff_right hold)) rfl rfl

/-- What is done to the store is done to the tree. -/
theorem Shows.applyOp {op : Op Bytes} (h : Shows t st) (hop : applyOp st op = some st') :
    ∃ t', op.apply t = some t' ∧ Shows t' st' := by
  cases op with
  | createDirAll p =>
      rw [Reason.applyOp] at hop
      split at hop
      · rename_i hok
        cases hop
        obtain ⟨t', ht'⟩ := Option.isSome_iff_exists.mp (FileTree.createDirAll_isSome.mpr ⟨hok.1, fun q hq => by
          rw [h.file? fun n hn => hok.1 n (hq.subset hn), ← Option.not_isSome_iff_eq_none,
            hok.2 q ((List.mem_inits _ _).mpr hq)]
          exact Bool.false_ne_true⟩)
        refine ⟨t', ht', fun q hq => ?_⟩
        rw [FileTree.node?_createDirAll ht', h q hq, node?_grown (file?_mkdirs _ _) (isDir_mkdirs hok.1 hq)]
      · cases hop
  | copy p content =>
      obtain ⟨b, rfl, hstep⟩ := Option.bind_eq_some_iff.mp hop
      split at hstep
      · rename_i hok
        cases hstep
        obtain ⟨hne, hnames, hparent, hfree⟩ := hok
        have hisDir : ∀ q, (∀ n ∈ q, FileTree.IsName n) →
            t.isDir q = (st.node? (Text.slash q)).any FileTree.Node.isDir := by
          intro q hq
          rw [FileTree.isDir, h q hq]
          cases st.node? (Text.slash q) with
          | none => rfl
          | some n => cases n <;> rfl
        have hparent' : t.isDir p.dropLast = true :=
          (hisDir _ fun n hn => hnames n (List.dropLast_subset p hn)).trans hparent
        obtain ⟨t', ht'⟩ := Option.isSome_iff_exists.mp (FileTree.writeFile_isSome.mpr
          ⟨hne, hnames, hparent', (hisDir p hnames).trans hfree⟩)
        refine ⟨t', ht', fun q hq => ?_⟩
        rw [FileTree.node?_writeFile ht']
        by_cases hpq : q = p
        · have hthere : (st.put (Text.slash p) b).file? (Text.slash q) = some b := by
            rw [Store.file?_put, resolvePath_names hnames, hpq, if_pos rfl]
          rw [if_pos hpq, Store.node?_eq_file.mpr hthere]
        · have hsame : (st.put (Text.slash p) b).file? (Text.slash q) = st.file? (Text.slash q) := by
            rw [Store.file?_put, resolvePath_names hnames, if_neg fun heq => hpq (slash_names_inj hq hnames heq.symm)]
          rw [if_neg hpq, h q hq, node?_grown hsame (isDir_put hnames hq)]
          -- What lies above the file was a directory before.
          by_cases habove : q <+: p.dropLast
          · have hdir : t.node? q = some .dir := by
              by_cases hlast : q = p.dropLast
              · rw [hlast]
                exact t.isDir_iff.mp hparent'
              · refine t.dir_of_prefix ?_ habove hlast
                rw [t.isDir_iff.mp hparent']
                rfl
            rw [← h q hq, hdir]
            rfl
          · rw [if_neg habove, Option.or_none]
      · cases hstep

/-- Under the paths of names the store finds what the tree has. -/
theorem Shows.look (h : Shows t st) (hq : ∀ n ∈ q, FileTree.IsName n) : st.look (Text.slash q) = t.node? q := by
  cases hnode : t.node? q with
  | none =>
      rw [Option.eq_none_iff_forall_ne_some]
      intro n hn
      have hsome := Store.node?_of_look hn
      rw [resolvePath_names hq, ← h q hq, hnode] at hsome
      cases hsome
  | some n =>
      have hsegs : ∀ s ∈ q, Proper s ∧ '/' ∉ s.toList := fun s hs =>
        ⟨⟨not_or.mpr ⟨(hq s hs).1, (hq s hs).2.1⟩, (hq s hs).2.2.1⟩, (hq s hs).2.2.2.1⟩
      have henter : st.enter [] (Text.split '/' (Text.slash q)) = some q.reverse := by
        by_cases hne : q = []
        · rw [hne]
          rfl
        · have hsettled : Settled q.reverse := settled_proper fun s hs => hsegs s (List.mem_reverse.mp hs)
          have hentered := @Store.enter_settled _ st _ hsettled fun xs ys hy heq => by
            rw [List.reverse_reverse] at heq
            refine Store.isDir_of_node? ?_
            rw [← h xs fun n hn => hq n (by rw [heq]; exact List.mem_append_left _ hn)]
            refine t.dir_of_prefix (by rw [hnode]; rfl) (by rw [heq]; exact List.prefix_append _ _) fun hxs => hy ?_
            rw [hxs] at heq
            exact List.self_eq_append_right.mp heq
          rw [List.reverse_reverse] at hentered
          rw [Text.split_slash hne fun s hs => (hsegs s hs).2, hentered]
      rw [Store.look, henter, Option.bind_some, List.reverse_reverse, ← h q hq, hnode]

/-- The steps are done on the tree, up to the one that fails. -/
theorem Shows.copySteps {ops : List (Op Bytes)} (h : Shows t st) :
    (∃ u, (copySteps st ops).2 = .ok () ∧ applyAll t ops = some u ∧ Shows u (copySteps st ops).1) ∨
      ∃ n u e, (copySteps st ops).2 = .error e ∧ applyAll t (ops.take n) = some u ∧ Shows u (copySteps st ops).1 := by
  induction ops generalizing t st with
  | nil => exact .inl ⟨t, rfl, rfl, h⟩
  | cons op ops ih =>
      rw [Reason.copySteps]
      cases hop : Reason.applyOp st op with
      | none => exact .inr ⟨0, t, _, rfl, rfl, h⟩
      | some st' =>
          obtain ⟨t', ht', hshows⟩ := h.applyOp hop
          rcases ih hshows with ⟨u, hok, hall, hu⟩ | ⟨n, u, e, herr, hall, hu⟩
          · exact .inl ⟨u, hok, Option.bind_eq_some_iff.mpr ⟨t', ht', hall⟩, hu⟩
          · exact .inr ⟨n + 1, u, e, herr, Option.bind_eq_some_iff.mpr ⟨t', ht', hall⟩, hu⟩

/-- On the files and directories of the store the copy of a pack is `copy_to_store`. -/
theorem copyToStore_shows {dirs : PackDirs Bytes} {p : Pack} (h : Shows t st)
    (hhash : FileTree.IsName p.contentHash) :
    ∃ stop ok u, CopyToStore (packDir p.contentHash) (dirs p.dir) stop t ok u ∧
      Shows u (copyToStore dirs st p).1 ∧ (ok = true ↔ (copyToStore dirs st p).2 = .ok ()) := by
  have hnames : ∀ n ∈ packDir p.contentHash, FileTree.IsName n := by
    simp only [packDir, List.forall_mem_cons]
    exact ⟨by decide, hhash, List.forall_mem_nil _⟩
  rw [copyToStore]
  rw [h.look hnames]
  split
  · rename_i hthere
    exact ⟨none, true, t, .present hthere, h, by simp⟩
  · rename_i hnone
    rw [Option.not_isSome_iff_eq_none] at hnone
    rcases h.copySteps with ⟨u, hok, hall, hu⟩ | ⟨n, u, e, herr, hall, hu⟩
    · exact ⟨none, true, u, .copied hnone hall, hu, by rw [hok]; simp⟩
    · exact ⟨some n, false, u, .stopped hnone hall (.inl rfl), hu, by rw [herr]; simp⟩

end

end Nix2Rdf.Reason
