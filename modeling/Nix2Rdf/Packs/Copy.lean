import Nix2Rdf.Lib.FileTree
import Nix2Rdf.Lib.Transition

/-!
# Copies of packs in the store

The files of a pack are copied one by one, and each step may fail. The directory that they are copied
to is taken for a complete copy as soon as it exists.
-/

namespace Nix2Rdf.Packs

open FileTree

variable {B : Type}

/-- What the walk over a pack comes to. A link that leads to no file has no content. -/
inductive WalkEntry (B : Type) where
  | dir
  | file (content : Option B)

/-- The directory of a pack, as it is walked: first the directory itself, then each entry once. -/
structure PackTree (B : Type) where
  below : List (TreePath × WalkEntry B)
  rootless : ∀ e ∈ below, e.1 ≠ []
  nodup : (below.map Prod.fst).Nodup

def PackTree.entries (p : PackTree B) : List (TreePath × WalkEntry B) := ([], .dir) :: p.below

/-- One step of the copy. -/
inductive Op (B : Type) where
  | createDirAll (p : TreePath)
  | copy (p : TreePath) (content : Option B)

def Op.apply (t : FileTree B) : Op B → Option (FileTree B)
  | createDirAll p => t.createDirAll p
  | copy p content => content.bind (t.writeFile p)

/-- What a step that fails may leave: nothing new, some of the directories, or part of the file. -/
inductive Op.Leaves (t : FileTree B) : Op B → FileTree B → Prop
  | nothing {op : Op B} : Leaves t op t
  | above {p q : TreePath} {u : FileTree B} : q <+: p → q ≠ p → t.createDirAll q = some u →
      Leaves t (.createDirAll p) u
  | partly {p : TreePath} {content : Option B} {b : B} {u : FileTree B} : t.writeFile p b = some u →
      Leaves t (.copy p content) u

/-- What is done for an entry. The tests are left out. -/
def entryOps (dest : TreePath) (e : TreePath × WalkEntry B) : List (Op B) :=
  if e.1.head? = some "tests" then []
  else
    match e.2 with
    | .dir => [.createDirAll (dest ++ e.1)]
    | .file content => [.createDirAll (dest ++ e.1).dropLast, .copy (dest ++ e.1) content]

def copyOps (dest : TreePath) (pack : PackTree B) : List (Op B) := pack.entries.flatMap (entryOps dest)

/-- All of the steps. -/
def applyAll (t : FileTree B) (ops : List (Op B)) : Option (FileTree B) := Transition.exec Op.apply t ops

/-- `copy_to_store`, which returns the directory or fails after so many steps. -/
inductive CopyToStore (dest : TreePath) (pack : PackTree B) : Option Nat → FileTree B → Bool → FileTree B → Prop
  | present {stop : Option Nat} {t : FileTree B} : (t.node? dest).isSome → CopyToStore dest pack stop t true t
  | copied {t u : FileTree B} : t.node? dest = none → applyAll t (copyOps dest pack) = some u →
      CopyToStore dest pack none t true u
  | stopped {n : Nat} {t v u : FileTree B} : t.node? dest = none →
      applyAll t ((copyOps dest pack).take n) = some v →
      (u = v ∨ ∃ op, (copyOps dest pack)[n]? = some op ∧ op.Leaves v u) → CopyToStore dest pack (some n) t false u

/-! ## What a copy holds -/

def InTests (rel : TreePath) : Prop := ∃ n rest, rel = "tests" :: n :: rest

/-- The directory holds exactly the files outside of `tests/`, each with its full content. -/
def Holds (t : FileTree B) (dest : TreePath) (pack : PackTree B) : Prop :=
  ∀ rel b, t.file? (dest ++ rel) = some b ↔ (rel, .file (some b)) ∈ pack.entries ∧ ¬ InTests rel

/-- No file is itself called `tests`. -/
def PackTree.NoTestsFile (pack : PackTree B) : Prop := ∀ b, (["tests"], .file (some b)) ∉ pack.entries

section
variable {dest : TreePath} {pack : PackTree B} {t u : FileTree B} {op : Op B} {p : TreePath}

/-! ## A whole copy -/

/-- An entry is left alone, or its file is written. -/
theorem file?_entryOps {e : TreePath × WalkEntry B} (h : applyAll t (entryOps dest e) = some u) :
    ((e.1.head? = some "tests" ∨ e.2 = .dir) ∧ ∀ p, u.file? p = t.file? p) ∨
      ∃ b, e.2 = .file (some b) ∧ e.1.head? ≠ some "tests" ∧
        ∀ p, u.file? p = if p = dest ++ e.1 then some b else t.file? p := by
  rw [entryOps] at h
  split at h
  · rename_i htests
    cases h
    exact .inl ⟨.inl htests, fun p => rfl⟩
  · rename_i htests
    cases hentry : e.2 with
    | dir =>
        rw [hentry] at h
        obtain ⟨v, hv, h⟩ := Option.bind_eq_some_iff.mp h
        cases h
        exact .inl ⟨.inr rfl, file?_createDirAll hv⟩
    | file content =>
        rw [hentry] at h
        obtain ⟨v, hv, h⟩ := Option.bind_eq_some_iff.mp h
        obtain ⟨w, hw, h⟩ := Option.bind_eq_some_iff.mp h
        cases h
        obtain ⟨b, rfl, hwrite⟩ := Option.bind_eq_some_iff.mp hw
        refine .inr ⟨b, rfl, htests, fun p => ?_⟩
        rw [file?_writeFile hwrite, file?_createDirAll hv]

/-- The files of the entries are there, and no other file has changed. -/
theorem file?_entries {es : List (TreePath × WalkEntry B)} (hnodup : (es.map Prod.fst).Nodup)
    (h : applyAll t (es.flatMap (entryOps dest)) = some u) (rel : TreePath) (b : B) :
    u.file? (dest ++ rel) = some b ↔
      ((rel, .file (some b)) ∈ es ∧ rel.head? ≠ some "tests") ∨
        (t.file? (dest ++ rel) = some b ∧ (rel.head? = some "tests" ∨ ∀ content, (rel, .file content) ∉ es)) := by
  induction es generalizing t with
  | nil =>
      cases h
      simp
  | cons e es ih =>
      rw [List.flatMap_cons, applyAll, Transition.exec_append] at h
      obtain ⟨v, hv, h⟩ := Option.bind_eq_some_iff.mp h
      rw [List.map_cons, List.nodup_cons] at hnodup
      have hone : ∀ w, (e.1, w) ∈ e :: es → w = e.2 := by
        intro w hw
        rcases List.mem_cons.mp hw with hw | hw
        · exact congrArg Prod.snd hw
        · exact absurd (List.mem_map.mpr ⟨(e.1, w), hw, rfl⟩) hnodup.1
      rw [ih hnodup.2 h]
      by_cases hrel : rel = e.1
      · subst hrel
        have hnot : ∀ w, (e.1, w) ∉ es := fun w hw => hnodup.1 (List.mem_map.mpr ⟨(e.1, w), hw, rfl⟩)
        rcases file?_entryOps hv with ⟨hleft, hsame⟩ | ⟨c, hc, htests, hwrite⟩
        · rw [hsame]
          constructor
          · intro h
            refine h.elim (fun h => absurd h.1 (hnot _)) fun h =>
              .inr ⟨h.1, hleft.imp_right fun hdir content hin => ?_⟩
            cases (hone _ hin).trans hdir
          · intro h
            refine h.elim (fun h => ?_) fun h => .inr ⟨h.1, .inr fun content hin => hnot _ hin⟩
            rcases hleft with htests | hdir
            · exact absurd htests h.2
            · cases (hone _ h.1).trans hdir
        · rw [hwrite, if_pos rfl]
          constructor
          · intro h
            refine h.elim (fun h => absurd h.1 (hnot _)) fun h => .inl ⟨?_, htests⟩
            cases h.1
            rw [← hc]
            exact List.mem_cons_self
          · intro h
            rcases h with h | h
            · have heq := (hone _ h.1).trans hc
              cases heq
              exact .inr ⟨rfl, .inr fun content hin => hnot _ hin⟩
            · rcases h.2 with ht | hno
              · exact absurd ht htests
              · refine absurd ?_ (hno (some c))
                rw [← hc]
                exact List.mem_cons_self
      · have hother : v.file? (dest ++ rel) = t.file? (dest ++ rel) := by
          rcases file?_entryOps hv with ⟨_, hsame⟩ | ⟨c, _, _, hwrite⟩
          · exact hsame _
          · rw [hwrite, if_neg fun heq => hrel (List.append_cancel_left heq)]
        have hmem : ∀ w, (rel, w) ∈ e :: es ↔ (rel, w) ∈ es := by
          intro w
          rw [List.mem_cons, or_iff_right]
          exact fun heq => hrel (congrArg Prod.fst heq)
        simp only [hother, hmem]

theorem PackTree.nodup_entries (pack : PackTree B) : (pack.entries.map Prod.fst).Nodup := by
  rw [entries, List.map_cons, List.nodup_cons]
  refine ⟨fun h => ?_, pack.nodup⟩
  obtain ⟨e, he, hroot⟩ := List.mem_map.mp h
  exact pack.rootless e he hroot

/-- A copy to a directory that was not there holds the files, unless one is itself called `tests`. -/
theorem holds_copied_iff (ht : t.node? dest = none) (h : applyAll t (copyOps dest pack) = some u) :
    Holds u dest pack ↔ pack.NoTestsFile := by
  have hfile : ∀ rel b, u.file? (dest ++ rel) = some b ↔
      (rel, .file (some b)) ∈ pack.entries ∧ rel.head? ≠ some "tests" := by
    intro rel b
    rw [file?_entries pack.nodup_entries h, or_iff_left]
    intro hold
    have hnone := node?_none_below ht rel
    rw [t.file?_eq_some.mp hold.1] at hnone
    cases hnone
  rw [Holds]
  simp only [hfile]
  constructor
  · intro hall b hb
    refine ((hall ["tests"] b).mpr ⟨hb, fun hin => ?_⟩).2 rfl
    obtain ⟨n, rest, hin⟩ := hin
    cases hin
  · intro hno rel b
    refine and_congr_right fun hin => not_congr ⟨fun hhead => ?_, fun hin => ?_⟩
    · cases rel with
      | nil => cases hhead
      | cons n rest =>
          cases hhead
          cases rest with
          | nil => exact absurd hin (hno b)
          | cons n rest => exact ⟨n, rest, rfl⟩
    · obtain ⟨n, rest, rfl⟩ := hin
      rfl

end

/-! ## Other directories -/

def Op.path : Op B → TreePath
  | createDirAll p => p
  | copy p _ => p

section
variable {dest : TreePath} {pack : PackTree B} {t u : FileTree B} {op : Op B} {q : TreePath}

/-- A step leaves alone what does not stand above its path. -/
theorem node?_apply (h : op.apply t = some u) (hq : ¬ q <+: op.path) : u.node? q = t.node? q := by
  cases op with
  | createDirAll p =>
      have hp : ¬ q <+: p := hq
      rw [node?_createDirAll h, if_neg hp, Option.or_none]
  | copy p content =>
      obtain ⟨b, _, hwrite⟩ := Option.bind_eq_some_iff.mp h
      rw [node?_writeFile hwrite, if_neg]
      rintro rfl
      exact hq List.prefix_rfl

theorem node?_leaves (h : op.Leaves t u) (hq : ¬ q <+: op.path) : u.node? q = t.node? q := by
  cases h with
  | nothing => rfl
  | above hpre _ hcreate =>
      rw [node?_createDirAll hcreate, if_neg fun hp => hq (hp.trans hpre), Option.or_none]
  | partly hwrite =>
      rw [node?_writeFile hwrite, if_neg]
      rintro rfl
      exact hq List.prefix_rfl

theorem node?_applyAll {ops : List (Op B)} (h : applyAll t ops = some u) (hq : ∀ op ∈ ops, ¬ q <+: op.path) :
    u.node? q = t.node? q := by
  induction ops generalizing t with
  | nil =>
      cases h
      rfl
  | cons op ops ih =>
      obtain ⟨v, hv, h⟩ := Option.bind_eq_some_iff.mp h
      rw [ih h fun o ho => hq o (List.mem_cons_of_mem _ ho), node?_apply hv (hq op List.mem_cons_self)]

/-- All paths of a copy are in its directory. -/
theorem path_of_copyOps (h : op ∈ copyOps dest pack) : dest <+: op.path := by
  obtain ⟨e, he, hop⟩ := List.mem_flatMap.mp h
  rw [entryOps] at hop
  split at hop
  · cases hop
  · rcases List.mem_cons.mp he with rfl | he
    · cases List.mem_singleton.mp hop
      exact List.prefix_append _ _
    · have hne := pack.rootless e he
      cases hentry : e.2 with
      | dir =>
          rw [hentry] at hop
          cases List.mem_singleton.mp hop
          exact List.prefix_append _ _
      | file content =>
          rw [hentry] at hop
          simp only [List.mem_cons, List.not_mem_nil, or_false] at hop
          rcases hop with rfl | rfl
          · rw [Op.path, List.dropLast_append_of_ne_nil hne]
            exact List.prefix_append _ _
          · exact List.prefix_append _ _

/-- The directory comes first, and what is left of it when it cannot be created is nothing. -/
theorem node?_first_stopped (ht : t.node? dest = none) {v : FileTree B}
    (hv : applyAll t ((copyOps dest pack).take 0) = some v)
    (h : u = v ∨ ∃ op, (copyOps dest pack)[0]? = some op ∧ op.Leaves v u) : u.node? dest = none := by
  cases hv
  rcases h with rfl | ⟨op, hop, hleaves⟩
  · exact ht
  · have hfirst : op = .createDirAll (dest ++ []) := by
      have hops : copyOps dest pack = .createDirAll (dest ++ []) :: pack.below.flatMap (entryOps dest) := rfl
      rw [hops] at hop
      exact (Option.some.inj hop).symm
    subst hfirst
    rw [List.append_nil] at hleaves
    cases hleaves with
    | nothing => exact ht
    | above hpre hne hcreate =>
        rw [node?_createDirAll hcreate, ht, if_neg, Option.none_or]
        intro hdest
        exact hne (hpre.eq_of_length_le (hdest.length_le))

end

/-! ## Histories -/

/-- Where the copy of a pack with a content hash goes. -/
def packDir (hash : String) : TreePath := ["packs", hash]

/-- A call of `copy_to_store`: the pack, how many steps succeed before one fails, and how it ends. -/
structure CopyCall (B : Type) where
  contentHash : String
  pack : PackTree B
  stop : Option Nat
  ok : Bool

namespace CopyCall

def step (t : FileTree B) (a : CopyCall B) (u : FileTree B) : Prop :=
  CopyToStore (packDir a.contentHash) a.pack a.stop t a.ok u

/-- The call fails at the first step if at all, no file is itself called `tests`, and the content hash
stands for the files that the pack has outside of `tests/`. -/
def Guard (files : String → TreePath → Option B) (_ : FileTree B) (a : CopyCall B) : Prop :=
  (∀ n, a.stop = some n → n = 0) ∧ a.pack.NoTestsFile ∧
    ∀ rel b, (rel, .file (some b)) ∈ a.pack.entries ∧ ¬ InTests rel ↔ files a.contentHash rel = some b

/-- Every copy that is there is complete. -/
def Complete (files : String → TreePath → Option B) (t : FileTree B) : Prop :=
  ∀ hash, t.node? (packDir hash) = none ∨ ∀ rel b, t.file? (packDir hash ++ rel) = some b ↔ files hash rel = some b

section
variable {files : String → TreePath → Option B} {a : CopyCall B} {t u : FileTree B}

theorem holds_iff (h : Guard files t a) : Holds u (packDir a.contentHash) a.pack ↔
    ∀ rel b, u.file? (packDir a.contentHash ++ rel) = some b ↔ files a.contentHash rel = some b := by
  rw [Holds]
  simp only [h.2.2]

/-- A call leaves the copies with other hashes alone. -/
theorem node?_step (h : step t a u) {hash : String} (hne : hash ≠ a.contentHash) (rel : TreePath) :
    u.node? (packDir hash ++ rel) = t.node? (packDir hash ++ rel) := by
  have hother : ∀ op ∈ copyOps (packDir a.contentHash) a.pack, ¬ packDir hash ++ rel <+: op.path := by
    intro op hop hpre
    have hdir : packDir hash <+: op.path := (List.prefix_append _ _).trans hpre
    have heq := List.prefix_of_prefix_length_le hdir (path_of_copyOps hop) (le_refl 2)
    have heq := heq.eq_of_length rfl
    cases heq
    exact hne rfl
  rw [step] at h
  generalize a.stop = stop at h
  generalize a.ok = ok at h
  cases h with
  | present _ => rfl
  | copied _ hall => exact node?_applyAll hall hother
  | stopped _ hall hstop =>
      have hv := node?_applyAll hall fun op hop => hother op (List.mem_of_mem_take hop)
      rcases hstop with rfl | ⟨op, hop, hleaves⟩
      · exact hv
      · rw [node?_leaves hleaves (hother op (List.mem_of_getElem? hop)), hv]

theorem file?_step (h : step t a u) {hash : String} (hne : hash ≠ a.contentHash) (rel : TreePath) :
    u.file? (packDir hash ++ rel) = t.file? (packDir hash ++ rel) := by
  rw [file?, file?, node?_step h hne]

/-- A call that returns the directory has the property exactly when the copy that was there had it, or
there was none and no file is itself called `tests`. -/
theorem holds_of_call {dest : TreePath} {pack : PackTree B} {stop : Option Nat}
    (h : CopyToStore dest pack stop t true u) : Holds u dest pack ↔
      ((t.node? dest).isSome → Holds t dest pack) ∧ (t.node? dest = none → pack.NoTestsFile) := by
  cases h with
  | present hthere =>
      refine ⟨fun hu => ⟨fun _ => hu, fun hnone => ?_⟩, fun hu => hu.1 hthere⟩
      rw [hnone] at hthere
      cases hthere
  | copied hnone hall =>
      rw [holds_copied_iff hnone hall]
      refine ⟨fun hno => ⟨fun hthere => ?_, fun _ => hno⟩, fun hno => hno.2 hnone⟩
      rw [hnone] at hthere
      cases hthere

/-- A guarded call keeps every copy complete. -/
theorem complete_step (hcomplete : Complete files t) (hg : Guard files t a) (h : step t a u) : Complete files u := by
  intro hash
  by_cases hhash : hash = a.contentHash
  · subst hhash
    rw [step] at h
    generalize hok : a.ok = ok at h
    generalize hstop : a.stop = stop at h
    cases h with
    | present _ => exact hcomplete _
    | copied hnone hall => exact .inr ((holds_iff hg).mp ((holds_copied_iff hnone hall).mpr hg.2.1))
    | stopped hnone hall hleft =>
        cases hg.1 _ hstop
        exact .inl (node?_first_stopped hnone hall hleft)
  · rcases hcomplete hash with hnone | hall
    · have hnode := node?_step h hhash []
      rw [List.append_nil] at hnode
      exact .inl (hnode.trans hnone)
    · refine .inr fun rel b => ?_
      rw [file?_step h hhash]
      exact hall rel b

theorem holds_guarded (hcomplete : Complete files t) (hg : Guard files t a) (h : step t a u) (hok : a.ok = true) :
    Holds u (packDir a.contentHash) a.pack := by
  rw [step, hok] at h
  refine (holds_of_call h).mpr ⟨fun hthere => ?_, fun _ => hg.2.1⟩
  rcases hcomplete a.contentHash with hnone | hall
  · rw [hnone] at hthere
    cases hthere
  · exact (holds_iff hg).mpr hall

end

/-- A call that returns the directory is right exactly when what was there was right, or nothing was there and
no file is itself called `tests`. So in every history from a store without copies whose calls fail, if
at all, at their first step, with content hashes that stand for the files, whenever a call returns the
directory it holds exactly the files of the pack outside of `tests/`. -/
theorem copies_all_or_nothing (B : Type) :
    (∀ (dest : TreePath) (pack : PackTree B) (stop : Option Nat) (t u : FileTree B),
      CopyToStore dest pack stop t true u → (Holds u dest pack ↔
        ((t.node? dest).isSome → Holds t dest pack) ∧ (t.node? dest = none → pack.NoTestsFile))) ∧
    ∀ (files : String → TreePath → Option B) (t₀ t u : FileTree B) (calls : List (CopyCall B)) (a : CopyCall B),
      (∀ hash, t₀.node? (packDir hash) = none) → Transition.Run step (Guard files) t₀ calls t →
        step t a u → Guard files t a → a.ok = true → Holds u (packDir a.contentHash) a.pack := by
  refine ⟨fun dest pack stop t u h => holds_of_call h, fun files t₀ t u calls a hfresh hrun h hg hok => ?_⟩
  have hcomplete : Complete files t :=
    hrun.invariant (fun s c s' hs hc hstep => complete_step hs hc hstep) fun hash => .inl (hfresh hash)
  exact holds_guarded hcomplete hg h hok

/-- The manifest and one file of rules. -/
def smallPack : PackTree Nat where
  below := [(["pack.toml"], .file (some 1)), (["semantics.rls"], .file (some 2))]
  rootless := by decide
  nodup := by decide

/-- The copy of the first file fails, and the call that tries again returns a directory with no files. -/
theorem retry_returns_empty : ∃ t u : FileTree Nat,
    Transition.Run step Transition.free FileTree.empty
      [⟨"h", smallPack, some 1, false⟩, ⟨"h", smallPack, none, true⟩] u ∧
    step t ⟨"h", smallPack, none, true⟩ u ∧ ¬ Holds u (packDir "h") smallPack := by
  obtain ⟨v, hv⟩ := Option.isSome_iff_exists.mp (createDirAll_isSome.mpr
    ⟨show ∀ n ∈ packDir "h", IsName n by decide, fun q _ => file?_empty (B := Nat) q⟩)
  have hdest : v.node? (packDir "h") = some .dir := by
    rw [node?_createDirAll hv, node?_empty (by decide), if_pos List.prefix_rfl]
    rfl
  have hfirst : step FileTree.empty ⟨"h", smallPack, some 1, false⟩ v :=
    .stopped (node?_empty (by decide)) (v := v) (Option.bind_eq_some_iff.mpr ⟨v, hv, rfl⟩) (.inl rfl)
  have hretry : step v ⟨"h", smallPack, none, true⟩ v := .present (by rw [hdest]; rfl)
  refine ⟨v, v, .cons hfirst trivial (.cons hretry trivial .nil), hretry, fun hholds => ?_⟩
  have hout : ¬ InTests ["pack.toml"] := by
    intro hin
    obtain ⟨n, rest, hin⟩ := hin
    simp at hin
  have hfile := (hholds ["pack.toml"] 1).mpr ⟨by simp [PackTree.entries, smallPack], hout⟩
  rw [file?_createDirAll hv, file?_empty] at hfile
  cases hfile

end CopyCall

end Nix2Rdf.Packs
