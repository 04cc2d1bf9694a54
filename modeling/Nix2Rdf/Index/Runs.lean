import Nix2Rdf.Index.Commands

/-!
# The index and the files

Commands add files, remove them and write them again, while the index is only added to or loses whole
graphs. It holds what the files hold as long as no command changes a file behind it.
-/

namespace Nix2Rdf.Index

open Reason Packs Publish Transition
open Paths (endsAsDir resolvePath)
open Store (mem_fragmentPathsUnder)

variable {Bytes : Type} (c : Codec Bytes) (x : Extern) (r : Readers) (dirs : PackDirs Bytes)

/-- The index holds every quad of every fragment file. -/
def Complete (s : Indexed Bytes) : Prop := ∀ p ∈ s.store.allFragmentPaths, s.store.quadsAt c p ⊆ s.quads

/-- Every quad of the index is one of a fragment file. -/
def Sound (s : Indexed Bytes) : Prop := ∀ t ∈ s.quads, ∃ p ∈ s.store.allFragmentPaths, t ∈ s.store.quadsAt c p

/-! ## The conditions -/

/-- The marker lists it on a line of its own. -/
def OwnLine (l : String) : Prop := '\n' ∉ l.toList ∧ l.toList.getLast? ≠ some '\r'

instance (l : String) : Decidable (OwnLine l) := inferInstanceAs (Decidable (_ ∧ _))

/-- A path that the marker does not take for that of another file. -/
def Listable : FragmentPath → Prop
  | .inside rel => OwnLine rel
  | .outside abs => OwnLine abs ∧ resolvePath abs ≠ abs

/-- No file that the marker lists is written, or loses quads in the index, without being loaded. -/
def KeepsMarks (s : Indexed Bytes) : Op Bytes → Prop
  | .write f => (s.store.file? (Store.pathOf f.kind)).isSome ∨ Store.pathOf f.kind ∉ s.listed
  | .reason q graph => Loads c x s q graph ∨ Store.pathOf (recordKind x q) ∉ s.listed ∧
      ((s.store.file? (Store.pathOf (q.kind x))).isSome ∨ Store.pathOf (q.kind x) ∉ s.listed)
  | .gcDerived keep graph => ∀ p ∈ s.store.allFragmentPaths, ¬ Removed s.store keep p →
      ∀ t ∈ s.store.quadsAt c p, ¬ Dropped s.store keep graph t
  | .fetch m => ∀ e ∈ m.entries, isUnsafe e.path = false → s.store.file? (resolvePath e.path) = none →
      resolvePath e.path ∉ s.listed
  | .load all new paths => ∀ p ∈ todo s all new paths, Listable p
  | .rebuild => ∀ p ∈ fragmentFiles s, Listable p

/-- What is loaded are fragment files of the store. -/
def InStore : FragmentPath → Prop
  | .inside rel => Store.isFragmentPath (resolvePath rel) = true
  | .outside _ => False

/-- No quad of the index is in a file that is overwritten or removed, unless its graph is dropped. -/
def LeavesNone (s : Indexed Bytes) : Op Bytes → Prop
  | .reason q _ => ∀ t ∈ s.store.quadsAt c (Store.pathOf (recordKind x q)), t ∉ s.quads
  | .gcDerived keep graph => ∀ p, Removed s.store keep p → ∀ t ∈ s.store.quadsAt c p, t ∈ s.quads →
      Dropped s.store keep graph t
  | .load all new paths => (all || new) = true ∨ ∀ p ∈ paths, InStore p
  | _ => True

variable {c x r dirs} {s s' : Indexed Bytes} {op : Op Bytes}

/-! ## The fragment files -/

theorem quadsAt_of_none {st : Store Bytes} {p : String} (h : st.file? p = none) : st.quadsAt c p = ∅ := by
  rw [Store.quadsAt, h]
  rfl

theorem quadsAt_congr {st st' : Store Bytes} {p : String} (h : st'.file? p = st.file? p) :
    st'.quadsAt c p = st.quadsAt c p := by
  rw [Store.quadsAt, Store.quadsAt, h]

theorem mem_quadsAt_isSome {st : Store Bytes} {p : String} {t : Quad} (h : t ∈ st.quadsAt c p) :
    (st.file? p).isSome := by
  cases hp : st.file? p with
  | none =>
      rw [quadsAt_of_none hp] at h
      exact absurd h (Finset.notMem_empty t)
  | some b => rfl

theorem disk_load (s : Indexed Bytes) (all new : Bool) (paths : List FragmentPath) :
    (load c s all new paths).1.disk = s.disk := by
  rcases load_cases (c := c) s all new paths with ⟨e, h⟩ | ⟨s', h, hdisk, _⟩
  · rw [h]
  · rw [h, hdisk]

theorem disk_rebuild (s : Indexed Bytes) : (rebuild c s).1.disk = s.disk := by
  rcases rebuild_cases (c := c) s with ⟨e, h⟩ | ⟨s', h, hdisk, _⟩
  · rw [h]
  · rw [h, hdisk]

theorem quadsOf_fragmentFile {p : FragmentPath} (hp : p ∈ fragmentFiles s) :
    ∃ q ∈ s.store.allFragmentPaths, p = .inside q ∧ quadsOf c s.disk p = s.store.quadsAt c q := by
  obtain ⟨q, hq, rfl⟩ := List.mem_map.mp hp
  have hsome := (Store.mem_allFragmentPaths.mp hq).1
  exact ⟨q, hq, rfl, quadsOf_inside s.disk (Store.resolvePath_of_file? hsome)⟩

/-! ## Nothing but what is in the files -/

/-- Quads stay when their files do, and new ones come from files. -/
theorem sound_of (h : Sound c s) (hquads : ∀ t ∈ s'.quads,
    (t ∈ s.quads ∧ ∀ p, Store.isFragmentPath p = true → t ∈ s.store.quadsAt c p →
      s'.store.file? p = s.store.file? p) ∨
      ∃ p, Store.isFragmentPath p = true ∧ t ∈ s'.store.quadsAt c p) : Sound c s' := by
  intro t ht
  rcases hquads t ht with ⟨hbefore, hsame⟩ | ⟨p, hp, htp⟩
  · obtain ⟨p, hp, htp⟩ := h t hbefore
    obtain ⟨hsome, hfrag⟩ := Store.mem_allFragmentPaths.mp hp
    have hfile := hsame p hfrag htp
    exact ⟨p, Store.mem_allFragmentPaths.mpr ⟨by rwa [hfile], hfrag⟩, by rwa [quadsAt_congr hfile]⟩
  · exact ⟨p, Store.mem_allFragmentPaths.mpr ⟨mem_quadsAt_isSome htp, hp⟩, htp⟩

theorem sound_apply (hx : ∀ bs, Alphanumeric (x.sha256Hex bs)) (h : Sound c s)
    (hg : LeavesNone c x s op) : Sound c (apply c x r dirs s op).1 := by
  cases op with
  | write f =>
      refine sound_of h fun t ht => .inl ⟨ht, fun p _ htp => ?_⟩
      have hfile : ((apply c x r dirs s (.write f)).1.store).file? p = _ := Store.file?_write f p
      rw [hfile]
      exact Option.or_of_isSome (mem_quadsAt_isSome htp)
  | reason q graph =>
      obtain ⟨s', hs', _, _, hcases⟩ := @reason_cases _ c x r dirs hx s q graph
      have happly : (apply c x r dirs s (.reason q graph)).1 = s' := hs'
      rw [happly]
      refine sound_of h fun t ht => ?_
      rcases hcases with ⟨hsame, hquads⟩ | ⟨hsame, hquads, _⟩
      · rw [hquads] at ht
        exact .inl ⟨ht, fun p hp _ => hsame p hp⟩
      · rcases hquads t ht with hbefore | hder | hrec
        · refine .inl ⟨hbefore, fun p hp htp => hsame p hp ?_ (.inr (mem_quadsAt_isSome htp))⟩
          intro heq
          rw [heq] at htp
          exact hg t htp hbefore
        · exact .inr ⟨_, isFragmentPath_ofRun (.derived (hx _) (hx _)), hder⟩
        · exact .inr ⟨_, isFragmentPath_ofRun (.run (hx _) (hx _)), hrec⟩
  | gcDerived keep graph =>
      obtain ⟨_, hfile, hquads⟩ := gcDerived_spec s keep graph
      refine sound_of h fun t ht => .inl ?_
      obtain ⟨hbefore, hkept⟩ := (hquads t).mp ht
      refine ⟨hbefore, fun p _ htp => (hfile p).1 fun hgone => ?_⟩
      exact hkept (hg p hgone t htp hbefore)
  | fetch m =>
      refine sound_of h fun t ht => .inl ⟨ht, fun p _ htp => ?_⟩
      have hsome := mem_quadsAt_isSome htp
      rcases fetch_cases m m.entries s.store p with hsame | ⟨hnone, _⟩
      · exact hsame
      · rw [hnone] at hsome
        cases hsome
  | load all new paths =>
      have hdisk : (apply c x r dirs s (.load all new paths)).1.disk = s.disk := disk_load s all new paths
      have hstore : (apply c x r dirs s (.load all new paths)).1.store = s.store := congrArg Disk.store hdisk
      refine sound_of h fun t ht => ?_
      rw [hstore]
      rcases load_cases (c := c) s all new paths with ⟨e, hload⟩ | ⟨s', hload, _, hquads, _⟩
      · have hsame : (apply c x r dirs s (.load all new paths)).1 = s := congrArg Prod.fst hload
        rw [hsame] at ht
        exact .inl ⟨ht, fun _ _ _ => rfl⟩
      · have hsame : (apply c x r dirs s (.load all new paths)).1 = s' := congrArg Prod.fst hload
        rw [hsame] at ht
        rcases (hquads t).mp ht with hbefore | ⟨p, hp, htp⟩
        · exact .inl ⟨hbefore, fun _ _ _ => rfl⟩
        · refine .inr ?_
          have hcandidate : p ∈ if all || new then fragmentFiles s else paths := by
            rw [todo] at hp
            split at hp
            · exact (List.mem_filter.mp hp).1
            · exact hp
          by_cases hflags : (all || new) = true
          · rw [if_pos hflags] at hcandidate
            obtain ⟨q, hq, rfl, heq⟩ := quadsOf_fragmentFile (c := c) hcandidate
            rw [heq] at htp
            exact ⟨q, (Store.mem_allFragmentPaths.mp hq).2, htp⟩
          · rw [if_neg hflags] at hcandidate
            have hin := hg.resolve_left hflags p hcandidate
            cases p with
            | inside rel => exact ⟨_, hin, mem_quadsOf_inside htp⟩
            | outside abs => exact absurd hin not_false
  | rebuild =>
      have hdisk : (apply c x r dirs s .rebuild).1.disk = s.disk := disk_rebuild s
      have hstore : (apply c x r dirs s .rebuild).1.store = s.store := congrArg Disk.store hdisk
      refine sound_of h fun t ht => .inr ?_
      rw [hstore]
      rcases rebuild_cases (c := c) s with ⟨e, hload⟩ | ⟨s', hload, _, hquads, _⟩
      · have hsame : (apply c x r dirs s .rebuild).1 = _ := congrArg Prod.fst hload
        rw [hsame] at ht
        exact absurd ht (Finset.notMem_empty t)
      · have hsame : (apply c x r dirs s .rebuild).1 = s' := congrArg Prod.fst hload
        rw [hsame] at ht
        obtain ⟨p, hp, htp⟩ := (hquads t).mp ht
        obtain ⟨q, hq, rfl, heq⟩ := quadsOf_fragmentFile (c := c) hp
        rw [heq] at htp
        exact ⟨q, (Store.mem_allFragmentPaths.mp hq).2, htp⟩

/-- No command leaves quads of a changed file behind: then the index holds only what is in the files. -/
theorem run_sound (hx : ∀ bs, Alphanumeric (x.sha256Hex bs)) {d : Disk Bytes} {ops : List (Op Bytes)}
    (h : Run (Step c x r dirs) (LeavesNone c x) (start d) ops s) : Sound c s := by
  refine h.invariant (motive := Sound c) (fun s op s' hs hg hstep => ?_) fun t ht => absurd ht (Finset.notMem_empty t)
  rw [← hstep]
  exact sound_apply hx hs hg

/-! ## Everything that is in the files -/

/-- What the marker lists is in the index, if it is there at all. -/
structure Marked (c : Codec Bytes) (s : Indexed Bytes) : Prop where
  lines : ∀ l ∈ s.listed, OwnLine l
  loaded : ∀ l ∈ s.listed, Store.isFragmentPath l = true → s.store.quadsAt c l ⊆ s.quads

theorem Marked.of_files (h : Marked c s) (hmarker : s'.marker = s.marker) (hquads : s.quads ⊆ s'.quads)
    (hfile : ∀ l ∈ s.listed, Store.isFragmentPath l = true →
      s'.store.file? l = s.store.file? l ∨ s'.store.quadsAt c l ⊆ s'.quads) : Marked c s' := by
  have hlisted : s'.listed = s.listed := congrArg Text.lines hmarker
  refine ⟨fun l hl => h.lines l (hlisted ▸ hl), fun l hl hp => ?_⟩
  rw [hlisted] at hl
  rcases hfile l hl hp with hsame | hin
  · rw [quadsAt_congr hsame]
    exact (h.loaded l hl hp).trans hquads
  · exact hin

theorem ownLine_of_listable {p : FragmentPath} (h : Listable p) : OwnLine (listedAs p) := by
  cases p with
  | inside rel => exact h
  | outside abs => exact h.1

/-- What was loaded is listed, and nothing else is that was not listed before. -/
theorem listed_load {all new : Bool} {paths : List FragmentPath} (hlines : ∀ l ∈ s.listed, OwnLine l)
    (hg : ∀ p ∈ todo s all new paths, Listable p) (hmarker : s'.marker =
      String.join ((btreeSet (s.listed ++ (todo s all new paths).map listedAs)).map fun l => l ++ "\n"))
    (l : String) :
    l ∈ s'.listed ↔ l ∈ s.listed ∨ ∃ p ∈ todo s all new paths, listedAs p = l := by
  have hown : ∀ l ∈ btreeSet (s.listed ++ (todo s all new paths).map listedAs), OwnLine l := by
    intro l hl
    rw [mem_btreeSet, List.mem_append, List.mem_map] at hl
    rcases hl with hl | ⟨p, hp, rfl⟩
    · exact hlines l hl
    · exact ownLine_of_listable (hg p hp)
  rw [Indexed.listed, hmarker, Text.lines_join hown, mem_btreeSet, List.mem_append, List.mem_map]

/-- An empty store, with no files elsewhere. -/
def emptyDisk : Disk (Finset Quad) := ⟨"/store", .empty, ∅⟩

def sampleTriple : Triple := Triple.addStr (Iri.derived "r" "i") (nix "rulesetHash") "r"

def sampleFragment (kind : FragmentKind) : Fragment := .ofTriples kind [sampleTriple]

/-- The files of a store hold these fragments. -/
structure Holds (s : Indexed (Finset Quad)) (files : List (String × Fragment)) : Prop where
  there : ∀ e ∈ files, s.store.file? e.1 = some e.2.quads
  only : ∀ q, (s.store.file? q).isSome → ∃ e ∈ files, e.1 = q

section

variable {s s' : Indexed (Finset Quad)} {files : List (String × Fragment)} {e : String × Fragment} {p : String}
  {f : Fragment}

theorem Holds.of_store (h : Holds s files) (hstore : s'.store = s.store) : Holds s' files := by
  constructor
  · rw [hstore]
    exact h.there
  · rw [hstore]
    exact h.only

theorem Holds.isSome (h : Holds s files) (he : e ∈ files) : (s.store.file? e.1).isSome := by
  rw [h.there e he]
  rfl

theorem Holds.quadsAt (h : Holds s files) (he : e ∈ files) : s.store.quadsAt .plain e.1 = e.2.quads := by
  rw [Store.quadsAt, h.there e he]
  rfl

/-- One more file is put into the store. -/
theorem Holds.put (h : Holds s files) (hresolved : resolvePath p = p) (hnew : ∀ e ∈ files, e.1 ≠ p) :
    Holds (s.withStore (s.store.put p f.quads)) ((p, f) :: files) := by
  constructor
  · intro e he
    rw [Indexed.store_withStore, Store.file?_put, hresolved]
    rcases List.mem_cons.mp he with rfl | he
    · exact if_pos rfl
    · rw [if_neg (Ne.symm (hnew e he)), h.there e he]
  · intro q hq
    rw [Indexed.store_withStore, Store.file?_put, hresolved] at hq
    split at hq
    · rename_i hpq
      exact ⟨_, List.mem_cons_self, hpq⟩
    · obtain ⟨e, he, heq⟩ := h.only q hq
      exact ⟨e, List.mem_cons_of_mem _ he, heq⟩

/-- A fragment is written where no file is. -/
theorem Holds.write (h : Holds s files) (hpath : Store.pathOf f.kind = p) (hnew : ∀ e ∈ files, e.1 ≠ p) :
    Holds (apply .plain hexExtern noReaders noPacks s (.write f)).1 ((p, f) :: files) := by
  have hfile : ∀ q, (apply .plain hexExtern noReaders noPacks s (.write f)).1.store.file? q =
      (s.store.file? q).or (if p = q then some f.quads else none) := by
    intro q
    rw [← hpath]
    exact Store.file?_write f q
  constructor
  · intro e he
    rw [hfile]
    rcases List.mem_cons.mp he with rfl | he
    · have hnone : s.store.file? p = none := by
        rw [← Option.not_isSome_iff_eq_none]
        intro hsome
        obtain ⟨e, he, heq⟩ := h.only p hsome
        exact hnew e he heq
      rw [hnone, Option.none_or, if_pos rfl]
    · rw [h.there e he, Option.some_or]
  · intro q hq
    rw [hfile, Option.isSome_or, Bool.or_eq_true] at hq
    rcases hq with hq | hq
    · obtain ⟨e, he, heq⟩ := h.only q hq
      exact ⟨e, List.mem_cons_of_mem _ he, heq⟩
    · split at hq
      · rename_i hpq
        exact ⟨_, List.mem_cons_self, hpq⟩
      · cases hq

/-- What is not listed is loaded. -/
theorem Holds.load (h : Holds s files) (hp : ∀ e ∈ files, Store.isFragmentPath e.1 = true ∧ OwnLine e.1)
    (hlines : ∀ l ∈ s.listed, OwnLine l) : (∀ q ∈ todo s false true [], Listable q) ∧
      ∃ s', load .plain s false true [] = (s', .ok ()) ∧ s'.disk = s.disk ∧
        (∀ t, t ∈ s'.quads ↔ t ∈ s.quads ∨ ∃ e ∈ files, e.1 ∉ s.listed ∧ t ∈ e.2.quads) ∧
        ∀ l, l ∈ s'.listed ↔ l ∈ s.listed ∨ ∃ e ∈ files, e.1 = l := by
  have htodo : ∀ q, q ∈ todo s false true [] ↔ ∃ e ∈ files, q = .inside e.1 ∧ e.1 ∉ s.listed := by
    intro q
    rw [todo, Bool.or_true, if_pos rfl, if_pos rfl, List.mem_filter, fragmentFiles, List.mem_map]
    constructor
    · intro hq
      obtain ⟨⟨l, hl, rfl⟩, hnot⟩ := hq
      obtain ⟨e, he, rfl⟩ := h.only l (Store.mem_allFragmentPaths.mp hl).1
      exact ⟨e, he, rfl, of_decide_eq_true hnot⟩
    · intro hq
      obtain ⟨e, he, rfl, hnot⟩ := hq
      exact ⟨⟨e.1, Store.mem_allFragmentPaths.mpr ⟨h.isSome he, (hp e he).1⟩, rfl⟩, decide_eq_true hnot⟩
  have hquadsOf : ∀ e ∈ files, quadsOf .plain s.disk (.inside e.1) = e.2.quads := fun e he =>
    (quadsOf_inside s.disk (Store.resolvePath_of_file? (h.isSome he))).trans (h.quadsAt he)
  have hread : ∀ q ∈ todo s false true [], ((s.disk.file? q).bind Codec.plain.decode).isSome := by
    intro q hq
    obtain ⟨e, he, rfl, _⟩ := (htodo q).mp hq
    rw [Disk.file?_own (Store.resolvePath_of_file? (h.isSome he))]
    have hfile : s.disk.store.file? e.1 = some e.2.quads := h.there e he
    rw [hfile]
    rfl
  have hlistable : ∀ q ∈ todo s false true [], Listable q := by
    intro q hq
    obtain ⟨e, he, rfl, _⟩ := (htodo q).mp hq
    exact (hp e he).2
  refine ⟨hlistable, ?_⟩
  rcases load_cases (c := .plain) s false true [] with ⟨e, herror⟩ | ⟨s', hok, hdisk, hquads, hmarker⟩
  · obtain ⟨s'', hs''⟩ := exists_loadPaths hread
    rw [Index.load, hs''] at herror
    cases congrArg Prod.snd herror
  · refine ⟨s', hok, hdisk, fun t => ?_, fun l => ?_⟩
    · rw [hquads]
      refine or_congr_right ⟨fun hex => ?_, fun hnew => ?_⟩
      · obtain ⟨q, hq, htq⟩ := hex
        obtain ⟨e, he, rfl, hnot⟩ := (htodo q).mp hq
        exact ⟨e, he, hnot, hquadsOf e he ▸ htq⟩
      · obtain ⟨e, he, hnot, ht⟩ := hnew
        exact ⟨_, (htodo _).mpr ⟨e, he, rfl, hnot⟩, (hquadsOf e he).symm ▸ ht⟩
    · rw [listed_load hlines hlistable hmarker]
      constructor
      · intro hl
        rcases hl with hl | ⟨q, hq, rfl⟩
        · exact .inl hl
        · obtain ⟨e, he, rfl, _⟩ := (htodo q).mp hq
          exact .inr ⟨e, he, rfl⟩
      · intro hl
        rcases hl with hl | ⟨e, he, rfl⟩
        · exact .inl hl
        · by_cases hlisted : e.1 ∈ s.listed
          · exact .inl hlisted
          · exact .inr ⟨_, (htodo _).mpr ⟨e, he, rfl, hlisted⟩, rfl⟩

end

theorem holds_start (d : Disk (Finset Quad)) : Holds (start d) [] := by
  refine ⟨List.forall_mem_nil _, fun q hq => ?_⟩
  have hnone : (start d).store.file? q = none := Store.file?_empty q
  rw [hnone] at hq
  cases hq

theorem quads_sample (kind : FragmentKind) (t : Quad) : t ∈ (sampleFragment kind).quads ↔
    t = sampleTriple.inGraph kind.graph := by
  rw [sampleFragment, Fragment.quads, Finset.mem_image]
  simp only [Fragment.mem_ofTriples, List.mem_singleton, exists_eq_left]
  exact eq_comm

theorem listed_start {d : Disk (Finset Quad)} : (start d).listed = [] := by
  have hlines : Text.lines "" = [] := by decide
  exact hlines

/-- The record of a run stays in the index when `gc-derived` removes it. -/
theorem record_left_behind : ∃ ops s, Run (Step .plain hexExtern noReaders noPacks) free (start emptyDisk) ops s ∧
    ¬ Sound .plain s := by
  obtain ⟨s₁, hs₁⟩ : ∃ s, (apply .plain hexExtern noReaders noPacks (start emptyDisk)
    (.write (sampleFragment (.run "r" "i")))).1 = s := ⟨_, rfl⟩
  have hheld : Holds s₁ [("runs/r/i.nq.zst", sampleFragment (.run "r" "i"))] :=
    hs₁ ▸ (holds_start emptyDisk).write (by decide) (List.forall_mem_nil _)
  have hnew : s₁.listed = [] := hs₁ ▸ listed_start (d := emptyDisk)
  obtain ⟨_, s₂, hload, hdisk, hquads, _⟩ := hheld.load (by decide) (by simp [hnew])
  have hstore : s₂.store = s₁.store := congrArg Disk.store hdisk
  obtain ⟨_, hfile, hkept⟩ := gcDerived_spec s₂ [] true
  refine ⟨[.write (sampleFragment (.run "r" "i")), .load false true [], .gcDerived [] true], gcDerived s₂ [] true,
    .cons hs₁ trivial (.cons (congrArg Prod.fst hload) trivial (.cons rfl trivial .nil)), fun hsound => ?_⟩
  have honly : ∀ q, (s₂.store.file? q).isSome → q = "runs/r/i.nq.zst" := by
    intro q hq
    obtain ⟨e, he, rfl⟩ := (hheld.of_store hstore).only q hq
    rw [List.mem_singleton.mp he]
  have hstays : ¬ Dropped s₂.store [] true (sampleTriple.inGraph (FragmentKind.run "r" "i").graph) := by
    intro hdropped
    obtain ⟨_, p, hp, _⟩ := hdropped
    rw [mem_fragmentPathsUnder] at hp
    rw [honly p hp.1] at hp
    exact absurd hp.2.1 (by decide)
  obtain ⟨p, hp, _⟩ := hsound _ ((hkept _).mpr
    ⟨(hquads _).mpr (.inr ⟨_, List.mem_singleton_self _, by simp [hnew], (quads_sample _ _).mpr rfl⟩), hstays⟩)
  have hsome := (Store.mem_allFragmentPaths.mp hp).1
  by_cases hgone : Removed s₂.store [] p
  · rw [(hfile p).2 hgone] at hsome
    cases hsome
  · rw [(hfile p).1 hgone] at hsome
    rw [honly p hsome] at hgone hsome
    exact hgone ⟨.inr (mem_fragmentPathsUnder.mpr ⟨hsome, by decide, by decide⟩), by simp⟩

def derivedI : String × Fragment := ("derived/r/i.nq.zst", sampleFragment (.derived "r" "i"))
def derivedJ : String × Fragment := ("derived/r/j.nq.zst", sampleFragment (.derived "r" "j"))
def pinX : String × Fragment := ("pin/x.nq.zst", sampleFragment (.pin "x"))

/-- Two fragments are loaded and a third one is not, before derived fragments are dropped. -/
def history : List (Op (Finset Quad)) :=
  [.write derivedI.2, .write pinX.2, .load false true [], .write derivedJ.2, .gcDerived [] true]

/-- Derived fragments are dropped with their files, those in the index and those that are not in it. -/
theorem gcDerived_history {s : Indexed (Finset Quad)} (h : Holds s [derivedJ, pinX, derivedI]) :
    (KeepsMarks .plain hexExtern s (.gcDerived [] true) ∧ LeavesNone .plain hexExtern s (.gcDerived [] true)) ∧
      Holds (gcDerived s [] true) [pinX] := by
  obtain ⟨_, hfile, _⟩ := gcDerived_spec s [] true
  have hunder : ∀ e ∈ [derivedJ, derivedI], e.1 ∈ s.store.fragmentPathsUnder "derived" := by
    intro e he
    have hnames : ∀ e ∈ [derivedJ, derivedI], Text.startsWith "derived/" e.1 = true ∧
        Text.endsWith FragmentKind.suffix e.1 = true := by
      decide
    exact mem_fragmentPathsUnder.mpr
      ⟨h.isSome ((by decide : [derivedJ, derivedI] ⊆ [derivedJ, pinX, derivedI]) he), hnames e he⟩
  have hgraph : ∀ e ∈ [derivedJ, derivedI], droppedGraph e.1 = e.2.kind.graph := by decide +kernel
  have hremoved : ∀ e ∈ [derivedJ, derivedI], Removed s.store [] e.1 :=
    fun e he => ⟨.inl (hunder e he), List.not_mem_nil⟩
  have hpin : ¬ Removed s.store [] pinX.1 := by
    intro hgone
    rcases hgone.1 with hin | hin
    · exact absurd (mem_fragmentPathsUnder.mp hin).2.1 (by decide)
    · exact absurd (mem_fragmentPathsUnder.mp hin).2.1 (by decide)
  have hcases : ∀ p, (s.store.file? p).isSome → p = pinX.1 ∨ ∃ e ∈ [derivedJ, derivedI], e.1 = p := by
    intro p hp
    obtain ⟨e, he, rfl⟩ := h.only p hp
    simp only [List.mem_cons, List.not_mem_nil, or_false] at he
    rcases he with rfl | rfl | rfl
    · exact .inr ⟨_, List.mem_cons_self, rfl⟩
    · exact .inl rfl
    · exact .inr ⟨derivedI, by simp, rfl⟩
  refine ⟨⟨fun p hp hkept t ht hdropped => ?_, fun p hgone t ht _ => ?_⟩, fun e he => ?_, fun q hq => ?_⟩
  · rcases hcases p (Store.mem_allFragmentPaths.mp hp).1 with rfl | ⟨e, he, rfl⟩
    · rw [h.quadsAt (e := pinX) (by simp)] at ht
      obtain rfl := (quads_sample _ _).mp ht
      obtain ⟨_, q, hq, _, hqgraph⟩ := hdropped
      have hother : ∀ e ∈ [derivedJ, derivedI], (FragmentKind.pin "x").graph ≠ e.2.kind.graph := by decide
      rcases hcases q (mem_fragmentPathsUnder.mp hq).1 with rfl | ⟨e, he, rfl⟩
      · exact absurd (mem_fragmentPathsUnder.mp hq).2.1 (by decide)
      · exact hother e he (hqgraph.trans (hgraph e he))
    · exact hkept (hremoved e he)
  · rcases hcases p (mem_quadsAt_isSome ht) with rfl | ⟨e, he, rfl⟩
    · exact absurd hgone hpin
    · rw [h.quadsAt ((by decide : [derivedJ, derivedI] ⊆ [derivedJ, pinX, derivedI]) he)] at ht
      exact ⟨rfl, e.1, hunder e he, List.not_mem_nil, (Fragment.mem_quads.mp ht).1.trans (hgraph e he).symm⟩
  · obtain rfl := List.mem_singleton.mp he
    rw [(hfile _).1 hpin]
    exact h.there _ (by simp)
  · by_cases hgone : Removed s.store [] q
    · rw [(hfile q).2 hgone] at hq
      cases hq
    · rw [(hfile q).1 hgone] at hq
      rcases hcases q hq with rfl | ⟨e, he, rfl⟩
      · exact ⟨_, List.mem_singleton_self _, rfl⟩
      · exact absurd (hremoved e he) hgone

/-- The history meets both conditions. -/
theorem run_history : ∃ s, Run (Step .plain hexExtern noReaders noPacks)
    (fun s op => KeepsMarks .plain hexExtern s op ∧ LeavesNone .plain hexExtern s op) (start emptyDisk) history s ∧
    Holds s [pinX] ∧ ∀ l ∈ s.listed, OwnLine l := by
  obtain ⟨s₁, hs₁⟩ : ∃ s,
    (apply .plain hexExtern noReaders noPacks (start emptyDisk) (.write derivedI.2)).1 = s := ⟨_, rfl⟩
  have hheld₁ : Holds s₁ [derivedI] := hs₁ ▸ (holds_start emptyDisk).write (by decide) (List.forall_mem_nil _)
  have hlisted₁ : s₁.listed = [] := hs₁ ▸ listed_start (d := emptyDisk)
  obtain ⟨s₂, hs₂⟩ : ∃ s, (apply .plain hexExtern noReaders noPacks s₁ (.write pinX.2)).1 = s := ⟨_, rfl⟩
  have hheld₂ : Holds s₂ [pinX, derivedI] := hs₂ ▸ hheld₁.write (by decide) (by decide)
  have hlisted₂ : s₂.listed = [] := hs₂ ▸ hlisted₁
  obtain ⟨hlistable, s₃, hload, hdisk, _, hlisted₃⟩ := hheld₂.load (by decide) (by simp [hlisted₂])
  have hheld₃ : Holds s₃ [pinX, derivedI] := hheld₂.of_store (congrArg Disk.store hdisk)
  obtain ⟨s₄, hs₄⟩ : ∃ s, (apply .plain hexExtern noReaders noPacks s₃ (.write derivedJ.2)).1 = s := ⟨_, rfl⟩
  have hheld₄ : Holds s₄ [derivedJ, pinX, derivedI] := hs₄ ▸ hheld₃.write (by decide) (by decide)
  obtain ⟨hgc, hheld₅⟩ := gcDerived_history hheld₄
  obtain ⟨hmarker, _⟩ := gcDerived_spec s₄ [] true
  have hlisted : ∀ l, l ∈ s₃.listed ↔ l = pinX.1 ∨ l = derivedI.1 := by
    intro l
    rw [hlisted₃, hlisted₂]
    simp [eq_comm]
  refine ⟨gcDerived s₄ [] true, .cons hs₁ ⟨.inr ?_, trivial⟩
    (.cons hs₂ ⟨.inr ?_, trivial⟩ (.cons (congrArg Prod.fst hload)
    ⟨hlistable, .inl rfl⟩ (.cons hs₄ ⟨.inr ?_, trivial⟩ (.cons rfl hgc .nil)))), hheld₅, fun l hl => ?_⟩
  · rw [listed_start]
    exact List.not_mem_nil
  · rw [hlisted₁]
    exact List.not_mem_nil
  · rw [hlisted]
    decide
  · have hlines : ∀ l, l = pinX.1 ∨ l = derivedI.1 → OwnLine l := by
      rintro l (rfl | rfl) <;> decide
    have hbefore : l ∈ s₄.listed := by
      rw [Indexed.listed, ← hmarker]
      exact hl
    rw [← hs₄] at hbefore
    exact hlines l ((hlisted l).mp hbefore)

theorem run_sound_history : ∃ s, Run (Step .plain hexExtern noReaders noPacks) (LeavesNone .plain hexExtern)
    (start emptyDisk) history s ∧ Sound .plain s := by
  obtain ⟨s, hrun, _⟩ := run_history
  have hrun' := hrun.mono fun _ _ h => h.2
  exact ⟨s, hrun', run_sound alphanumeric_hex hrun'⟩

end Nix2Rdf.Index
