import Nix2Rdf.Reason.Closure
import Nix2Rdf.Reason.Leaves
import Nix2Rdf.Reason.RunKey
import Mathlib.Algebra.Order.BigOperators.Group.List

/-!
# The same command twice

A command selects its inputs, runs the rules over them and persists the result below the root that the
next command selects from. Given again, it finds the inputs of before as long as its selection does not
lead to what it wrote.
-/

namespace Nix2Rdf

namespace BTreeMap

/-- The keys of a kind are listed alike in maps that have the same of them. -/
theorem filter_keys_congr {V W : Type} {m : BTreeMap V} {m' : BTreeMap W} {P : String → Bool}
    (h : ∀ k : String, P k = true → (m'[k]?.isSome ↔ m[k]?.isSome)) : m'.keys.filter P = m.keys.filter P := by
  have hsorted : ∀ {U : Type} (m : BTreeMap U), (m.keys.filter P).Pairwise (· < ·) := fun m =>
    (Std.ExtTreeMap.ordered_keys.imp fun hlt => compare_lt_iff_lt.mp hlt).filter _
  refine List.Perm.eq_of_pairwise (fun a b _ _ hab hba => absurd hba (lt_asymm hab)) (hsorted m') (hsorted m) ?_
  refine (List.perm_ext_iff_of_nodup ((hsorted m').imp ne_of_lt) ((hsorted m).imp ne_of_lt)).mpr fun k => ?_
  rw [List.mem_filter, List.mem_filter, Std.ExtTreeMap.mem_keys, Std.ExtTreeMap.mem_keys,
    Std.ExtTreeMap.mem_iff_isSome_getElem?, Std.ExtTreeMap.mem_iff_isSome_getElem?]
  exact and_congr_left fun hP => h k hP

end BTreeMap

namespace Reason

open Packs Paths

/-- What the command that runs the rules is called with, and the time of the call. -/
structure Invocation where
  engine : Engine
  now : String
  packs : List Pack
  selection : InputSelection
  force : Bool := false

def Invocation.request (v : Invocation) (inputs : List InputGraph) : Request :=
  ⟨v.engine, v.now, v.packs, inputs, v.force⟩

section Invoke

variable {Bytes : Type} (r : FragmentReader Bytes) (x : Extern) (rd : Readers) (dirs : PackDirs Bytes)

/-- Select the inputs, run the rules and persist the result. -/
def invoke (d : Disk Bytes) (v : Invocation) : Result (Disk Bytes × RunResult) := do
  let inputs ← selectInputs r d v.selection
  match run r.toCodec x rd dirs d.store (v.request inputs) with
  | (_, .error e) => .error e
  | (st, .ok res) => .ok ({ d with store := persist r.toCodec st res }, res)

/-- The command again, with the same packs and selection and not forced, finds the derived graph of
before; every fragment file besides those that `spared` names stays as it is. -/
structure Repeated (spared : RunResult → String → Prop) (d : Disk Bytes) (res : RunResult)
    (v : Invocation) : Prop where
  again : ∃ d' res', invoke r x rd dirs d v = .ok (d', res') ∧ res'.rulesetHash = res.rulesetHash ∧
    res'.inputHash = res.inputHash ∧ res'.alreadyExisted = true ∧
    ∀ p, Store.isFragmentPath p = true → ¬ spared res p → d'.store.file? p = d.store.file? p

/-- The record of the run. -/
def IsRecord (res : RunResult) (p : String) : Prop := p = Store.pathOf res.runKind

variable (d) in
/-- The paths of a selection that may lead anywhere: those it gives, and the path of a fragment it leads to in
which a component leads up. -/
inductive Unconfined (sel : InputSelection) : FragmentPath → Prop
  | given {p : FragmentPath} : p ∈ sel.paths → Unconfined sel p
  | root {iri : Iri} {k : FragmentKind} : iri ∈ sel.roots → fragmentForIri iri = .ok (some k) →
      ".." ∈ Text.split '/' k.relativePath → Unconfined sel (pathOfKind k)
  | followed {p : FragmentPath} {b : Bytes} {i : InputGraph} {refs : List FragmentKind} {k : FragmentKind} :
      Selected r d sel p → d.file? p = some b → readInput r d p b = .ok i → followed sel.follow i.nquads = .ok refs →
      k ∈ refs → ".." ∈ Text.split '/' k.relativePath → Unconfined sel (pathOfKind k)

end Invoke

variable {Bytes : Type} {r : FragmentReader Bytes} {x : Extern} {rd : Readers} {dirs : PackDirs Bytes}
  {d d' : Disk Bytes} {v v' : Invocation} {res : RunResult}

theorem invoke_eq_ok : invoke r x rd dirs d v = .ok (d', res) ↔
    ∃ inputs st, selectInputs r d v.selection = .ok inputs ∧
    run r.toCodec x rd dirs d.store (v.request inputs) = (st, .ok res) ∧
      { d with store := persist r.toCodec st res } = d' := by
  rw [invoke, Result.bind_eq_ok]
  refine exists_congr fun inputs => ?_
  cases hrun : run r.toCodec x rd dirs d.store (v.request inputs) with
  | mk st result =>
      cases result with
      | error e => simp
      | ok res' =>
          simp only [Except.ok.injEq, Prod.mk.injEq]
          constructor
          · intro h
            obtain ⟨hsel, rfl, rfl⟩ := h
            exact ⟨st, hsel, ⟨rfl, rfl⟩, rfl⟩
          · intro h
            obtain ⟨_, hsel, ⟨rfl, rfl⟩, rfl⟩ := h
            exact ⟨hsel, rfl, rfl⟩

/-! ## What a command writes -/

section Writes

variable {c : Codec Bytes} {st st' : Store Bytes} {q : Request} {p : String}

/-- A run only writes copies of packs. -/
theorem file?_run_of_not_packs (hp : Text.startsWith "packs/" p = false) :
    ((run c x rd dirs st q).1).file? p = st.file? p := by
  have hcopied : ((copyPacks dirs st q.packs).1).file? p = st.file? p := (file?_copyPacks _ _).1 hp
  rw [run]
  split
  · rfl
  · split
    · rfl
    · split
      · rename_i heq
        rw [heq] at hcopied
        exact hcopied
      · rename_i heq
        rw [heq] at hcopied
        exact hcopied

theorem startsWith_dir {k : FragmentKind} (h : k.WellFormed) (hmid : k.mid ≠ "..") :
    Text.startsWith (k.dir ++ "/") (Store.pathOf k) = true := by
  have hcons : ∃ seg rest, k.components = k.dir :: seg :: rest := by
    obtain ⟨seg, rest, hrest⟩ := List.exists_cons_of_ne_nil k.rest_ne_nil
    rw [FragmentKind.components, FragmentKind.placed, if_neg hmid]
    split
    · exact ⟨seg, rest, by rw [hrest]⟩
    · exact ⟨_, _, rfl⟩
  obtain ⟨seg, rest, hcons⟩ := hcons
  have hlist : (k.dir ++ "/" ++ Text.slash (seg :: rest)).toList = (k.dir ++ "/").toList ++
      (Text.slash (seg :: rest)).toList :=
    String.toList_append
  rw [FragmentKind.pathOf_eq_slash h, hcons, Text.slash_cons, Text.startsWith, List.isPrefixOf_iff_prefix, hlist]
  exact List.prefix_append _ _

end Writes

/-! ## The selection after the command -/

section Selection

/-- A command leaves alone what lies outside of its directories. -/
theorem leaves_invoke (hx : ∀ bs, Alphanumeric (x.sha256Hex bs)) (h : invoke r x rd dirs d v = .ok (d', res)) :
    d'.root = d.root ∧ d'.outside = d.outside ∧ Leaves written d.store d'.store := by
  obtain ⟨inputs, st, _, hrun, rfl⟩ := invoke_eq_ok.mp h
  obtain ⟨hder, hrec, hkind, hrunkind⟩ := kinds_of_run hrun
  have hderk : OfRun res.derived.kind := by
    rw [hder, hkind]
    exact .derived (hx _) (hx _)
  have hreck : OfRun res.run.kind := by
    rw [hrec, hrunkind]
    exact .run (hx _) (hx _)
  have hleaves : Leaves written d.store (run r.toCodec x rd dirs d.store (v.request inputs)).1 := leaves_run
  rw [hrun] at hleaves
  exact ⟨rfl, rfl, hleaves.trans (leaves_persist hderk hreck)⟩

/-! ### Where a selection leads to -/

/-- An entity is mapped to no fragment of a run. -/
theorem dir_of_fragmentForIri {iri : Iri} {k : FragmentKind} (h : fragmentForIri iri = .ok (some k)) :
    k.dir ∉ written := by
  have hdecoded : ∀ {m : Result String} {f : String → FragmentKind}, m.map (fun s => some (f s)) = .ok (some k) →
      ∃ s, k = f s := by
    intro m f hm
    cases m with
    | error e => cases hm
    | ok s =>
        cases hm
        exact ⟨s, rfl⟩
  rw [fragmentForIri] at h
  cases hparts : (Text.stripPrefix? idBase iri).bind (Text.splitOnce '/') with
  | none =>
      rw [hparts] at h
      cases h
  | some parts =>
      obtain ⟨kind, ident⟩ := parts
      rw [hparts] at h
      dsimp only at h
      by_cases hdrv : kind = "drv"
      · rw [if_pos hdrv] at h
        cases h
        exact (by decide : "drv" ∉ written)
      rw [if_neg hdrv] at h
      by_cases hsrc : kind = "src"
      · rw [if_pos hsrc] at h
        cases h
        exact (by decide : "src" ∉ written)
      rw [if_neg hsrc] at h
      by_cases hpin : kind = "pin" ∧ '/' ∉ ident.toList
      · rw [if_pos hpin] at h
        cases h
        exact (by decide : "pin" ∉ written)
      rw [if_neg hpin] at h
      by_cases hgen : kind = "gen" ∧ '/' ∉ ident.toList
      · rw [if_pos hgen] at h
        cases h
        exact (by decide : "gen" ∉ written)
      rw [if_neg hgen] at h
      by_cases hnixpkgs : kind = "nixpkgs" ∧ '/' ∉ ident.toList
      · rw [if_pos hnixpkgs] at h
        cases h
        exact (by decide : "nixpkgs" ∉ written)
      rw [if_neg hnixpkgs] at h
      by_cases hoci : kind = "oci"
      · rw [if_pos hoci] at h
        rw [Except.ok.injEq, Option.map_eq_some_iff] at h
        obtain ⟨digest, _, rfl⟩ := h
        exact (by decide : "image" ∉ written)
      rw [if_neg hoci] at h
      by_cases hgit : kind = "git"
      · rw [if_pos hgit] at h
        split at h
        · cases h
        · obtain ⟨_, rfl⟩ := hdecoded h
          exact (by decide : "commit" ∉ written)
      rw [if_neg hgit] at h
      by_cases hk8s : kind = "k8s"
      · rw [if_pos hk8s] at h
        split at h
        · cases h
        · split at h
          · cases h
          · split at h
            · obtain ⟨_, rfl⟩ := hdecoded h
              exact (by decide : "k8s" ∉ written)
            · split at h
              · obtain ⟨_, rfl⟩ := hdecoded h
                exact (by decide : "k8s" ∉ written)
              · cases h
      rw [if_neg hk8s] at h
      cases h

theorem dir_of_mentioned {nquads : String} {ps : List Iri} {ks : List FragmentKind}
    (h : mentioned nquads ps = .ok ks) : ∀ k ∈ ks, k.dir ∉ written := by
  intro k hk
  cases hall : (ps.flatMap (objectsOf nquads)).mapM fragmentForIri with
  | error e =>
      rw [mentioned, hall] at h
      cases h
  | ok found =>
      rw [mentioned, hall] at h
      cases h
      obtain ⟨o, ho, hok⟩ := List.mem_filterMap.mp hk
      obtain ⟨iri, _, hiri⟩ := Result.mem_of_mapM hall ho
      exact dir_of_fragmentForIri (hiri.trans (congrArg Except.ok hok))

/-- No reference leads to a fragment of a run. -/
theorem dir_of_followed {closure : Bool} {nquads : String} {refs : List FragmentKind}
    (h : followed closure nquads = .ok refs) : ∀ k ∈ refs, k.dir ∉ written := by
  intro k hk
  rw [followed] at h
  split at h
  · simp only [refsOf, Result.bind_eq_ok, Result.pure_eq_ok] at h
    obtain ⟨entities, hentities, cluster, hcluster, rfl⟩ := h
    rcases List.mem_append.mp hk with hk | hk
    · obtain ⟨e, he, hk⟩ := List.mem_flatMap.mp hk
      have hdir := dir_of_mentioned hentities e he
      cases e with
      | drv hash =>
          simp only [withOut, List.mem_cons, List.not_mem_nil, or_false] at hk
          rcases hk with rfl | rfl
          · exact (by decide : "out" ∉ written)
          · exact hdir
      | _ => exact List.mem_singleton.mp hk ▸ hdir
    · exact dir_of_mentioned hcluster k hk
  · cases h
    cases hk

/-- What stands at the path of a fragment that is none of a run is not touched, if its path does not lead up. -/
theorem look_pathOfKind (h : Leaves written d.store d'.store) {k : FragmentKind} (hdir : k.dir ∉ written)
    (hup : ".." ∉ Text.split '/' k.relativePath) : d'.look (pathOfKind k) = d.look (pathOfKind k) :=
  h.look ⟨k.dir, k.head_relativePath, hdir⟩ hup

/-- No reference of a selected fragment leads to what the command wrote. -/
theorem look_followed {sel : InputSelection} (h : Leaves written d.store d'.store)
    (hfree : ∀ p, Unconfined r d sel p → d'.look p = d.look p) {p : FragmentPath} {b : Bytes} {i : InputGraph}
    {refs : List FragmentKind} (hp : Selected r d sel p) (hb : d.file? p = some b) (hi : readInput r d p b = .ok i)
    (hrefs : followed sel.follow i.nquads = .ok refs) {k : FragmentKind} (hk : k ∈ refs) :
    d'.look (pathOfKind k) = d.look (pathOfKind k) := by
  by_cases hup : ".." ∈ Text.split '/' k.relativePath
  · exact hfree _ (.followed hp hb hi hrefs hk hup)
  · exact look_pathOfKind h (dir_of_followed hrefs k hk) hup

/-- A file below a directory of snapshots is the same. -/
theorem file?_under (h : Leaves written d.store d'.store) {sub : String}
    (hsub : sub ∈ ["pin", "gen", "image", "commit", "nixpkgs", "k8s"]) {p : String}
    (hp : Text.startsWith (sub ++ "/") p = true) : d'.store.file? p = d.store.file? p := by
  have hdirs : ∀ sub ∈ ["pin", "gen", "image", "commit", "nixpkgs", "k8s"], sub ∈ FragmentKind.dirs ∧ sub ∉ written := by
    decide
  obtain ⟨hdir, hout⟩ := hdirs sub hsub
  exact h.files p ⟨sub, head_below hp (FragmentKind.head_dir sub hdir), hout⟩

/-- No selected path leads to what the command wrote. -/
theorem look_selected {sel : InputSelection} (h : Leaves written d.store d'.store) (hev : sel.everything = false)
    (hfree : ∀ p, Unconfined r d sel p → d'.look p = d.look p) {p : FragmentPath} (hp : Selected r d sel p) :
    d'.look p = d.look p := by
  obtain ⟨queue, hq, hreach⟩ := hp
  cases hreach with
  | root hp =>
      have hp : p ∈ queue := List.mem_reverse.mp hp
      rw [queueOf, hev, if_neg Bool.false_ne_true, Result.bind_eq_ok] at hq
      obtain ⟨ks, hks, hq⟩ := hq
      cases hq
      rcases List.mem_append.mp hp with hp | hp
      · rcases List.mem_append.mp hp with hp | hp
        · exact hfree _ (.given hp)
        · split at hp
          · obtain ⟨rel, hrel, rfl⟩ := List.mem_map.mp hp
            obtain ⟨sub, hsub, hrel⟩ := List.mem_flatMap.mp hrel
            obtain ⟨hsome, hstart, _⟩ := Store.mem_fragmentPathsUnder.mp hrel
            obtain ⟨b, hb⟩ := Option.isSome_iff_exists.mp hsome
            exact (Store.look_of_file? ((file?_under h hsub hstart).trans hb)).trans (Store.look_of_file? hb).symm
          · cases hp
      · obtain ⟨k, hk, rfl⟩ := List.mem_map.mp hp
        obtain ⟨o, ho, hok⟩ := List.mem_filterMap.mp hk
        obtain ⟨iri, hiri, hmap⟩ := Result.mem_of_mapM hks ho
        have hmap : fragmentForIri iri = .ok (some k) := hmap.trans (congrArg Except.ok hok)
        by_cases hup : ".." ∈ Text.split '/' k.relativePath
        · exact hfree _ (.root hiri hmap hup)
        · exact look_pathOfKind h (dir_of_fragmentForIri hmap) hup
  | next hreach hexp hn =>
      obtain ⟨b, refs, hb, hi, hrefs, rfl⟩ := expand_eq_some.mp hexp
      obtain ⟨k, hk, rfl⟩ := List.mem_map.mp (List.mem_filter.mp hn).1
      exact look_followed h hfree ⟨queue, hq, hreach⟩ hb hi hrefs hk

/-! ### The selection is resolved as before -/

/-- The files in the directories of snapshots are the same after the command. -/
theorem fragmentPathsUnder_congr (h : Leaves written d.store d'.store) {sub : String}
    (hsub : sub ∈ ["pin", "gen", "image", "commit", "nixpkgs", "k8s"]) :
    d'.store.fragmentPathsUnder sub = d.store.fragmentPathsUnder sub := by
  refine congrArg Store.sortPaths (BTreeMap.filter_keys_congr fun p hp => ?_)
  have hsame : d'.store.files[p]? = d.store.files[p]? := file?_under h hsub (Bool.and_eq_true_iff.mp hp).1
  rw [hsame]

theorem queueOf_invoke {sel : InputSelection} (hev : sel.everything = false) (h : Leaves written d.store d'.store) :
    queueOf d' sel = queueOf d sel := by
  have hsnapshots : (["pin", "gen", "image", "commit", "nixpkgs", "k8s"].flatMap d'.store.fragmentPathsUnder)
      = ["pin", "gen", "image", "commit", "nixpkgs", "k8s"].flatMap d.store.fragmentPathsUnder :=
    List.flatMap_congr fun sub hsub => fragmentPathsUnder_congr h hsub
  rw [queueOf, queueOf, hev, hsnapshots]
  rfl

theorem bind_congr_ok {α β : Type} {m : Result α} {f g : α → Result β} (h : ∀ a, m = .ok a → f a = g a) :
    m >>= f = m >>= g := by
  cases m with
  | error e => rfl
  | ok a => exact h a rfl

/-- What is read at a path depends on what stands there and on which of the fragments it refers to are there. -/
theorem expand_congr {closure : Bool} {p : FragmentPath} (hroot : d'.root = d.root) (hp : d'.look p = d.look p)
    (hrefs : ∀ b i refs, d.file? p = some b → readInput r d p b = .ok i → followed closure i.nquads = .ok refs →
      ∀ k ∈ refs, d'.look (pathOfKind k) = d.look (pathOfKind k)) :
    expand r d' closure p = expand r d closure p := by
  have habs : d'.abs p = d.abs p := by
    cases p with
    | inside rel => exact congrArg (· ++ "/" ++ rel) hroot
    | outside abs => rfl
  have hread : ∀ b, readInput r d' p b = readInput r d p b := by
    intro b
    rw [readInput, readInput, habs]
  rw [expand, expand, hp, habs]
  cases hlook : d.look p with
  | none => rfl
  | some n =>
      cases n with
      | dir => rfl
      | file b =>
          show readInput r d' p b >>= _ = readInput r d p b >>= _
          rw [hread]
          refine bind_congr_ok fun i hi => bind_congr_ok fun refs hfollowed => ?_
          have hsame := hrefs b i refs (Disk.file?_eq_some.mpr hlook) hi hfollowed
          have hfilter : (refs.map pathOfKind).filter d'.exists? = (refs.map pathOfKind).filter d.exists? := by
            refine List.filter_congr fun q hq => ?_
            obtain ⟨k, hk, rfl⟩ := List.mem_map.mp hq
            rw [Disk.exists?, Disk.exists?, hsame k hk]
          rw [hfilter]

/-- The inputs are found again, if no path that may lead anywhere leads to what the command changed. -/
theorem selectInputs_invoke (hx : ∀ bs, Alphanumeric (x.sha256Hex bs)) (h : invoke r x rd dirs d v = .ok (d', res))
    (hev : v.selection.everything = false) (hfree : ∀ p, Unconfined r d v.selection p → d'.look p = d.look p) :
    selectInputs r d' v.selection = selectInputs r d v.selection := by
  obtain ⟨hroot, _, hleaves⟩ := leaves_invoke hx h
  rw [selectInputs, selectInputs, queueOf_invoke hev hleaves]
  refine bind_congr_ok fun queue hq => ?_
  have hsearch : (fragmentGraph r d' v.selection.follow).search (stackOf queue)
      = (fragmentGraph r d v.selection.follow).search (stackOf queue) :=
    Worklist.Graph.search_congr rfl fun p hreach => expand_congr hroot
      (look_selected hleaves hev hfree ⟨queue, hq, hreach⟩)
      fun b i refs hb hi hrefs k hk => look_followed hleaves hfree ⟨queue, hq, hreach⟩ hb hi hrefs hk
  rw [hsearch]

end Selection

/-! ## The second command -/

/-- The derived file that is there after a command can be read. -/
theorem derived_readable (hx : ∀ bs, Alphanumeric (x.sha256Hex bs)) {c : Codec Bytes} {st st' : Store Bytes}
    {q : Request} (hrun : run c x rd dirs st q = (st', .ok res))
    (hforce : q.force = true → ∀ b, st.file? (Store.pathOf res.kind) = some b → (c.decode b).isSome) :
    ∃ b qs, (persist c st' res).file? (Store.pathOf res.kind) = some b ∧ c.decode b = some qs := by
  obtain ⟨hder, _, hkind, _⟩ := kinds_of_run hrun
  have hres : ∃ facts existed, res = q.result x res.derived facts existed := by
    rcases run_cases hrun with ⟨b, qs, _, _, _, _, rfl⟩ | ⟨_, f, n, _, _, rfl⟩
    · exact ⟨_, _, rfl⟩
    · exact ⟨_, _, rfl⟩
  obtain ⟨facts, existed, hres⟩ := hres
  have hfile := @file?_persist_derived _ c x st' q _ hx _ _ _ (hder.trans hkind) hres
  rw [hkind]
  cases hb : st'.file? (Store.pathOf (q.kind x)) with
  | none =>
      rw [hb, Option.none_or] at hfile
      exact ⟨_, _, hfile, c.decode_encode _⟩
  | some b =>
      rw [hb, Option.some_or] at hfile
      have hdecode : (c.decode b).isSome := by
        rcases run_cases hrun with ⟨b', qs, hb', _, hqs, rfl, _⟩ | ⟨hforced, f, n, _, hcopy, _⟩
        · rw [hb, Option.some.injEq] at hb'
          rw [hb', hqs]
          rfl
        · have hbefore : st.file? (Store.pathOf (q.kind x)) = some b := by
            have hderk : OfRun (q.kind x) := .derived (hx _) (hx _)
            have hsame : ((run c x rd dirs st q).1).file? (Store.pathOf (q.kind x)) = _ := file?_run hderk
            rw [hrun, hb] at hsame
            exact hsame.symm
          refine hforce (hforced ?_) b (hkind ▸ hbefore)
          rw [Store.exists?, hbefore]
          rfl
      obtain ⟨qs, hqs⟩ := Option.isSome_iff_exists.mp hdecode
      exact ⟨b, qs, hfile, hqs⟩

/-- A command is repeated unless it selects everything or a path leads to what it changed: it finds the derived
graph, and of the files it rewrites only the record of the run. -/
theorem invoke_repeated (hx : ∀ bs, Alphanumeric (x.sha256Hex bs)) (h : invoke r x rd dirs d v = .ok (d', res))
    (hev : v.selection.everything = false) (hfree : ∀ p, Unconfined r d v.selection p → d'.look p = d.look p)
    (hforce : v.force = true → ∀ b, d.store.file? (Store.pathOf res.kind) = some b → (r.decode b).isSome)
    (hpacks : v'.packs = v.packs) (hselection : v'.selection = v.selection) (hunforced : v'.force = false) :
    Repeated r x rd dirs IsRecord d' res v' := by
  have hagain := selectInputs_invoke hx h hev hfree
  obtain ⟨inputs, st, hinputs, hrun, rfl⟩ := invoke_eq_ok.mp h
  obtain ⟨b, qs, hb, hqs⟩ := derived_readable hx hrun hforce
  obtain ⟨_, _, hkind, hrunkind⟩ := kinds_of_run hrun
  have hsame : (v'.request inputs).kind x = res.kind := by
    rw [hkind, Request.kind, Request.kind, Invocation.request, Invocation.request, hpacks]
  have hcached : run r.toCodec x rd dirs (persist r.toCodec st res) (v'.request inputs) =
      (persist r.toCodec st res,
        .ok ((v'.request inputs).result x (fromQuads res.kind qs) 0 true)) := by
    have hunforced' : (v'.request inputs).force = false := hunforced
    rw [run, Store.exists?, hsame, hb, if_pos (by rw [hunforced']; rfl), readQuads, hb, Option.bind_some, hqs]
    rfl
  obtain ⟨hruleset, hinput⟩ := FragmentKind.run.inj hrunkind
  refine ⟨_, _, invoke_eq_ok.mpr ⟨inputs, _, ?_, hcached, rfl⟩, ?_, ?_, rfl, fun p _ hp => ?_⟩
  · rw [hselection]
    exact hagain.trans hinputs
  · rw [hruleset]
    exact congrArg (rulesetHash x) hpacks
  · rw [hinput]
    rfl
  · have hrecord : Store.pathOf ((v'.request inputs).result x (fromQuads res.kind qs) 0 true).run.kind ≠ p := by
      have hkind' : ((v'.request inputs).result x (fromQuads res.kind qs) 0 true).run.kind = res.runKind := by
        show FragmentKind.run (rulesetHash x v'.packs) (inputHash x inputs) = _
        rw [hrunkind, hpacks]
        rfl
      rw [hkind']
      exact fun heq => hp heq.symm
    by_cases hderived : Store.pathOf res.kind = p
    · have hfile : (persist r.toCodec (persist r.toCodec st res)
        ((v'.request inputs).result x (fromQuads res.kind qs) 0
          true)).file? (Store.pathOf ((v'.request inputs).kind x)) = _ := file?_persist_derived hx hsame.symm rfl
      rw [hsame, hb, Option.some_or] at hfile
      rw [← hderived]
      exact hfile.trans hb.symm
    · exact file?_persist hderived hrecord

/-! ## Everything as the input -/

/-- A derivation that has itself for an input. -/
def drvA : Fragment := .ofTriples (.drv "a")
  [Triple.addStr (Iri.drv "a") (nix "name") "a", Triple.addIri (Iri.drv "a") (nix "inputSrc") (Iri.drv "a")]

/-- A store with one file. -/
def diskA : Disk (Finset Quad) := ⟨"/store", Store.empty.put "drv/a.nq.zst" drvA.quads, ∅⟩

/-- A digest that tells what one input is hashed to from what several are. -/
def lengthExtern : Extern where
  sha256Hex bs := if bs.length ≤ 60 then "a" else "b"
  parseJson _ := none
  stack := 8

theorem alphanumeric_length (bs : List UInt8) : Alphanumeric (lengthExtern.sha256Hex bs) := by
  simp only [lengthExtern]
  split <;> decide

/-- A call without packs in which the engine gives one triple. -/
def callA (sel : InputSelection) (now : String) : Invocation where
  engine := ⟨"input.nq", fun _ _ => .ok ⟨[linkTriple], 1⟩⟩
  now := now
  packs := []
  selection := sel

def derivedA (inputs : List InputGraph) : Fragment :=
  .ofTriples (.derived "a" (inputHash lengthExtern inputs))
    [Triple.addIri "https://w3id.org/nix2rdf/id/drv/a" (nix "dependsOn") "https://w3id.org/nix2rdf/id/drv/b"]

/-- The paths of the example are resolved already, and are paths of fragments. -/
theorem paths_plain : (∀ path ∈ ["drv/a.nq.zst", "out/a.nq.zst", "derived/a/a.nq.zst"],
      resolvePath path = path ∧ Text.endsWith FragmentKind.suffix path = true ∧ Store.isFragmentPath path = true) ∧
    head "drv/a.nq.zst" = some "drv" ∧ Store.pathOf (.derived "a" "a") = "derived/a/a.nq.zst" := by
  decide +kernel

theorem resolvePath_plain {path : String} (h : path ∈ ["drv/a.nq.zst", "out/a.nq.zst", "derived/a/a.nq.zst"]) :
    resolvePath path = path :=
  (paths_plain.1 path h).1

theorem isFragmentPath_plain {path : String} (h : path ∈ ["drv/a.nq.zst", "out/a.nq.zst", "derived/a/a.nq.zst"]) :
    Store.isFragmentPath path = true :=
  (paths_plain.1 path h).2.2

theorem outside_drvA : Outside written "drv/a.nq.zst" := ⟨"drv", paths_plain.2.1, by decide⟩

/-- The two graphs are of different lengths, and that of the derived fragment needs no escape. -/
theorem graphs_plain : (Encoding.utf8 drvA.graph).length = 33 ∧
    (Encoding.utf8 (FragmentKind.derived "a" "a").graph).length = 39 ∧
    ∀ c ∈ (FragmentKind.derived "a" "a").graph.toList, iriExcluded c = false ∧ c ≠ '%' := by
  decide +kernel

theorem alone_diskA : Alone diskA.store "drv" "a.nq.zst" drvA.quads := by
  have hpath : "drv/a.nq.zst" = "drv" ++ "/" ++ "a.nq.zst" := by decide
  rw [diskA, hpath]
  exact alone_put (by decide) (by decide) (by decide) (by decide) (by decide) _

theorem file?_diskA {p : String} : diskA.store.file? p = if "drv/a.nq.zst" = p then some drvA.quads else none :=
  alone_diskA.files p

theorem run_callA {sel : InputSelection} {now : String} {inputs : List InputGraph} :
    run escapedReader.toCodec lengthExtern noReaders noPacks diskA.store ((callA sel now).request inputs) =
      (diskA.store, .ok (((callA sel now).request inputs).result lengthExtern (derivedA inputs) 1 false)) := by
  have hrows : ∀ g, canonicalizeNulls lengthExtern [linkTriple] g =
      some [(.iri "https://w3id.org/nix2rdf/id/drv/a", nix "dependsOn",
        .iri "https://w3id.org/nix2rdf/id/drv/b")] := by
    intro g
    simp [canonicalizeNulls, withIri, linkTriple, convRow, conv, SortedSet.sortDedup,
      SortedSet.dedupAdjacent, nix, nixNs]
  have hderive : derive lengthExtern noReaders ((callA sel now).request inputs).engine
    ((callA sel now).request inputs).packs
      ((callA sel now).request inputs).inputs = .ok (derivedA inputs, 1) := by
    obtain ⟨F, hF⟩ : ∃ F, facts noReaders [] inputs = some F := ⟨_, rfl⟩
    obtain ⟨P, hP⟩ : ∃ P, buildProgram [] "input.nq" = .ok P := ⟨_, rfl⟩
    simp only [derive, Result.bind_eq_ok, okOr_eq_ok]
    exact ⟨F, hF, P, hP, _, rfl, _, hrows _, rfl⟩
  have hnone : diskA.store.exists? (((callA sel now).request inputs).kind lengthExtern) = false := by
    have hderk : OfRun (((callA sel now).request inputs).kind lengthExtern) :=
      .derived (alphanumeric_length _) (alphanumeric_length _)
    have hne : "drv/a.nq.zst" ≠ Store.pathOf (((callA sel now).request inputs).kind lengthExtern) :=
      fun heq => hderk.not_outside.1 (heq ▸ outside_drvA)
    rw [Store.exists?, file?_diskA, if_neg hne]
    rfl
  rw [run, hnone, Bool.false_and, if_neg Bool.false_ne_true, hderive]
  rfl

/-! ### The inputs of the two calls -/

def pathA : FragmentPath := pathOfKind (.drv "a")

/-- A selection with closure that names the derivation, and all snapshots. -/
def rootsA : InputSelection := { roots := [Iri.drv "a"], closure := true, allSnapshots := true }

theorem drvA_accepted : Accepted escapedReader drvA ∧ drvA.lines.Nonempty := by
  have hgraph : escapedReader.accepts (Iri.drv "a") = true := accepts_of_plain (by decide)
  have hname : escapedReader.accepts (nix "name") = true ∧ escapedReader.accepts (xsd "string") = true :=
    ⟨accepts_of_plain (by decide), accepts_of_plain (by decide)⟩
  have hsrc : escapedReader.accepts (nix "inputSrc") = true := accepts_of_plain (by decide)
  refine ⟨⟨hgraph, fun t ht => ?_⟩, ⟨_, Fragment.mem_ofTriples.mpr List.mem_cons_self⟩⟩
  rcases List.mem_cons.mp (Fragment.mem_ofTriples.mp ht) with rfl | ht
  · exact ⟨⟨_, rfl, hgraph⟩, hname⟩
  · rw [List.mem_singleton.mp ht]
    exact ⟨⟨_, rfl, hgraph⟩, hsrc, hgraph⟩

theorem fragmentForIri_drvA : fragmentForIri (Iri.drv "a") = .ok (some (.drv "a")) := by
  rw [Iri.drv, Text.slash_pair, fragmentForIri, split_id (by decide)]
  rfl

theorem refers_drvA {k : FragmentKind} (h : Refers drvA k) : k = .out "a" ∨ k = .drv "a" := by
  have hlines : ∀ t ∈ drvA.lines, t.p ∈ entityPredicates ++ clusterPredicates →
      t.p ∉ clusterPredicates ∧ t.o = .iri (Iri.drv "a") := by
    decide
  cases h with
  | entity ht hp ho hok hk =>
      obtain ⟨_, hto⟩ := hlines _ ht (List.mem_append_left _ hp)
      rw [ho, Term.iri.injEq] at hto
      rw [hto, fragmentForIri_drvA, Except.ok.injEq, Option.some.injEq] at hok
      simpa [← hok, withOut] using hk
  | cluster ht hp _ _ => exact absurd hp (hlines _ ht (List.mem_append_right _ hp)).1

/-- On a disk with the file of the derivation it is read, with the files there are of it and of its build. -/
theorem expand_drvA {e : Disk (Finset Quad)} (h : e.store.file? "drv/a.nq.zst" = some drvA.quads) (closure : Bool) :
    ∃ next, expand escapedReader e closure pathA = .ok (some (⟨drvA.graph, e.abs pathA, drvA.toNquads⟩, next)) ∧
      ∀ q ∈ next, e.exists? q = true ∧ (q = pathOfKind (.out "a") ∨ q = pathA) := by
  have hfile : e.file? pathA = some drvA.quads := (Disk.file?_own (resolvePath_plain (by decide))).trans h
  cases closure with
  | false =>
      exact ⟨[], expand_eq_some.mpr
        ⟨_, [], hfile, readInput_fragment drvA_accepted.1 drvA_accepted.2 pathA, rfl, rfl⟩,
        fun _ hq => nomatch hq⟩
  | true =>
      obtain ⟨next, hexp, hnext⟩ := expand_fragment escapes_escapedReader drvA_accepted.1 drvA_accepted.2 hfile
      refine ⟨next, hexp, fun q hq => ?_⟩
      obtain ⟨k, hk, hexists, rfl⟩ := (hnext q).mp hq
      exact ⟨hexists, (refers_drvA hk).imp (congrArg pathOfKind) (congrArg pathOfKind)⟩

/-- The build of the derivation is not on the disk. -/
theorem not_exists_outA : diskA.exists? (pathOfKind (.out "a")) = false := by
  rw [Disk.exists?, Option.isSome_eq_false_iff, Option.isNone_iff_eq_none, Option.eq_none_iff_forall_ne_some]
  intro n hn
  have hlook : diskA.store.look "out/a.nq.zst" = some n := hn
  obtain ⟨hresolve, hsuffix, _⟩ := paths_plain.1 "out/a.nq.zst" (by decide)
  obtain rfl := alone_diskA.look hlook hsuffix
  have hfile := Store.file?_of_look hlook
  rw [hresolve, file?_diskA, if_neg (by decide)] at hfile
  cases hfile

/-- Two selections that lead to the file of the derivation only. -/
theorem selected_diskA {sel : InputSelection} (hsel : sel = rootsA ∨ sel = { everything := true }) :
    (∃ queue, queueOf diskA sel = .ok queue) ∧ ∀ p, Selected escapedReader diskA sel p → p = pathA := by
  have hstored : ∀ rel, (diskA.store.file? rel).isSome → FragmentPath.inside rel = pathA := by
    intro rel hsome
    rw [file?_diskA] at hsome
    split at hsome
    · rename_i heq
      rw [← heq]
      rfl
    · cases hsome
  have hqueue : ∃ queue, queueOf diskA sel = .ok queue ∧ ∀ p ∈ stackOf queue, p = pathA := by
    rcases hsel with rfl | rfl
    · have haccepts : ∀ iri ∈ rootsA.roots, escapedReader.accepts iri = true := fun iri hiri => by
        rw [List.mem_singleton.mp hiri]
        exact accepts_of_plain (by decide)
      obtain ⟨queue, hq, hmem⟩ := queueOf_chosen (d := diskA) escapes_escapedReader haccepts rfl
      refine ⟨queue, hq, fun p hp => ?_⟩
      cases (hmem p).mp hp with
      | path hp => cases hp
      | snapshot _ _ hrel => exact hstored _ (Store.mem_fragmentPathsUnder.mp hrel).1
      | root hiri hok =>
          rw [List.mem_singleton.mp hiri, fragmentForIri_drvA, Except.ok.injEq, Option.some.injEq] at hok
          rw [← hok]
          rfl
    · refine ⟨_, rfl, fun p hp => ?_⟩
      obtain ⟨rel, hrel, rfl⟩ := List.mem_map.mp (List.mem_reverse.mp hp)
      exact hstored rel (Store.mem_allFragmentPaths.mp hrel).1
  obtain ⟨queue, hq, hmem⟩ := hqueue
  refine ⟨⟨queue, hq⟩, fun p hp => ?_⟩
  obtain ⟨queue', hq', hreach⟩ := hp
  rw [hq, Except.ok.injEq] at hq'
  rw [← hq'] at hreach
  induction hreach with
  | root hp => exact hmem _ hp
  | next _ hexp hn ih =>
      obtain ⟨next, hexp', hnext⟩ := expand_drvA (e := diskA) (by rw [file?_diskA, if_pos rfl]) sel.follow
      rw [ih] at hexp
      cases hexp.symm.trans hexp'
      obtain ⟨hexists, rfl | rfl⟩ := hnext _ hn
      · rw [not_exists_outA] at hexists
        cases hexists
      · rfl

theorem selectInputs_diskA {sel : InputSelection} (hsel : sel = rootsA ∨ sel = { everything := true }) :
    ∃ inputs, selectInputs escapedReader diskA sel = .ok inputs ∧ ∀ i ∈ inputs, i.graph = drvA.graph := by
  obtain ⟨hqueue, honly⟩ := selected_diskA hsel
  have hspelled : Spelled diskA sel := by rcases hsel with rfl | rfl <;> exact fun p hp => nomatch hp
  obtain ⟨next, hexpand, _⟩ := expand_drvA (e := diskA) (by rw [file?_diskA, if_pos rfl]) sel.follow
  have hall : ∀ p, Selected escapedReader diskA sel p → ∃ e, expand escapedReader diskA sel.follow p = .ok e := by
    intro p hp
    rw [honly p hp]
    exact ⟨_, hexpand⟩
  obtain ⟨inputs, hinputs⟩ := (selectInputs_succeeds_iff hspelled).mpr ⟨hqueue, hall⟩
  refine ⟨inputs, hinputs, fun i hi => ?_⟩
  obtain ⟨p, next', hp, hi⟩ := selected_of_mem hinputs hi
  rw [honly p hp, hexpand] at hi
  cases hi
  rfl

theorem length_frames (inputs : List InputGraph) : (Framing.frames (inputItems lengthExtern inputs)).length =
    (inputs.map fun i => 17 + (Encoding.utf8 i.graph).length).sum := by
  have hpairs : ∀ ps : List (String × String), (∀ p ∈ ps, (Encoding.utf8 p.2).length = 1) →
      (Framing.frames (ps.flatMap fun p => [Encoding.utf8 p.1, Encoding.utf8 p.2])).length =
        (ps.map fun p => 17 + (Encoding.utf8 p.1).length).sum := by
    intro ps
    induction ps with
    | nil => exact fun _ => rfl
    | cons p ps ih =>
        intro hps
        rw [List.forall_mem_cons] at hps
        have hrest := ih hps.2
        simp only [Framing.frames, Framing.frame, List.flatMap_cons, List.flatMap_append, List.length_append,
          List.map_cons, List.sum_cons, Framing.length_littleEndian, hps.1, List.flatMap_nil,
          List.length_nil] at hrest ⊢
        omega
  have hone : ∀ p ∈ (inputs.map (inputPair lengthExtern)).mergeSort fun a b => (pairCmp a b).isLE,
      (Encoding.utf8 p.2).length = 1 := by
    intro p hp
    obtain ⟨i, _, rfl⟩ := List.mem_map.mp (List.mem_mergeSort.mp hp)
    simp only [inputPair, lengthExtern]
    split <;> rfl
  rw [inputItems, hpairs _ hone, ((List.mergeSort_perm _ _).map _).sum_nat, List.map_map]
  rfl

/-- The input hash of inputs of one graph. -/
theorem inputHash_one {sel : InputSelection} {inputs : List InputGraph}
    (h : selectInputs escapedReader diskA sel = .ok inputs)
    (hgraph : ∀ i ∈ inputs, i.graph = drvA.graph) : inputHash lengthExtern inputs = "a" := by
  have hlen := graphs_plain.1
  have hsorted : (inputs.map InputGraph.graph).Pairwise (· < ·) := by
    obtain ⟨_, found, _, _, rfl⟩ := selectInputs_eq_ok.mp h
    exact sorted_byGraph found
  have hsum : (Framing.frames (inputItems lengthExtern inputs)).length ≤ 60 := by
    rw [length_frames]
    cases inputs with
    | nil => exact Nat.zero_le _
    | cons i is =>
        cases is with
        | nil =>
            rw [List.map_singleton, List.sum_singleton, hgraph i List.mem_cons_self, hlen]
            omega
        | cons j js =>
            rw [List.map_cons, List.map_cons, List.pairwise_cons] at hsorted
            have hlt := hsorted.1 j.graph List.mem_cons_self
            rw [hgraph i List.mem_cons_self, hgraph j (by simp)] at hlt
            exact absurd hlt (lt_irrefl _)
  rw [inputHash, hashItems]
  exact if_pos hsum

theorem inputHash_two {inputs : List InputGraph} {i j : InputGraph} (hi : i ∈ inputs) (hj : j ∈ inputs)
    (hig : i.graph = drvA.graph) (hjg : j.graph = (FragmentKind.derived "a" "a").graph) :
    inputHash lengthExtern inputs = "b" := by
  obtain ⟨hlen, hlen', _⟩ := graphs_plain
  have hne : i ≠ j := by
    rintro rfl
    rw [← hjg, hig, hlen] at hlen'
    exact absurd hlen' (by decide)
  obtain ⟨s, t, rfl⟩ := List.append_of_mem hi
  have hj' : j ∈ s ++ t := by
    rw [List.mem_append, List.mem_cons] at hj
    rw [List.mem_append]
    exact hj.imp_right fun hj => hj.resolve_left fun heq => hne heq.symm
  have hle := List.le_sum_of_mem
    (List.mem_map_of_mem (f := fun i : InputGraph => 17 + (Encoding.utf8 i.graph).length) hj')
  have hsum : ¬ (Framing.frames (inputItems lengthExtern (s ++ i :: t))).length ≤ 60 := by
    rw [length_frames, List.map_append, List.map_cons, List.sum_append, List.sum_cons, hig, hlen]
    rw [List.map_append, List.sum_append, hjg, hlen'] at hle
    omega
  rw [inputHash, hashItems]
  exact if_neg hsum

/-! ### The two calls -/

theorem invoke_callA {sel : InputSelection} (hsel : sel = rootsA ∨ sel = { everything := true })
    (now : String) : ∃ inputs, inputHash lengthExtern inputs = "a" ∧
      invoke escapedReader lengthExtern noReaders noPacks diskA (callA sel now) =
        .ok (⟨diskA.root, persist escapedReader.toCodec diskA.store
          (((callA sel now).request inputs).result lengthExtern (derivedA inputs) 1 false), diskA.outside⟩,
          ((callA sel now).request inputs).result lengthExtern (derivedA inputs) 1 false) := by
  obtain ⟨inputs, hinputs, hgraph⟩ := selectInputs_diskA hsel
  exact ⟨inputs, inputHash_one hinputs hgraph, invoke_eq_ok.mpr ⟨inputs, _, hinputs, run_callA, rfl⟩⟩

theorem graph_derivedA {inputs : List InputGraph} (h : inputHash lengthExtern inputs = "a") :
    (derivedA inputs).graph = (FragmentKind.derived "a" "a").graph := by
  rw [Fragment.graph, derivedA, Fragment.ofTriples_kind, h]

theorem derivedA_accepted {inputs : List InputGraph} (h : inputHash lengthExtern inputs = "a") :
    Accepted escapedReader (derivedA inputs) := by
  have hgraph : escapedReader.accepts (FragmentKind.derived "a" "a").graph = true :=
    accepts_of_plain graphs_plain.2.2
  refine ⟨?_, fun t ht => ?_⟩
  · rw [graph_derivedA h]
    exact hgraph
  · rw [List.mem_singleton.mp (Fragment.mem_ofTriples.mp ht)]
    have hs : escapedReader.accepts "https://w3id.org/nix2rdf/id/drv/a" = true := accepts_of_plain (by decide)
    have hp : escapedReader.accepts (nix "dependsOn") = true := accepts_of_plain (by decide)
    have ho : escapedReader.accepts "https://w3id.org/nix2rdf/id/drv/b" = true := accepts_of_plain (by decide)
    exact ⟨⟨_, rfl, hs⟩, hp, ho⟩

/-- When everything is selected, the second call takes the outputs of the first for inputs. -/
theorem everything_not_repeated : ∃ d res,
    invoke escapedReader lengthExtern noReaders noPacks diskA
      (callA { everything := true } "2026-01-01T00:00:00Z") = .ok (d, res) ∧
    ¬ Repeated escapedReader lengthExtern noReaders noPacks (fun _ _ => False) d res
      (callA { everything := true } "2026-01-01T00:00:01Z") := by
  obtain ⟨inputs, hhash, hinvoke⟩ := invoke_callA (.inr rfl) "2026-01-01T00:00:00Z"
  refine ⟨_, _, hinvoke, fun h => ?_⟩
  obtain ⟨_, _, hleaves⟩ := leaves_invoke alphanumeric_length hinvoke
  obtain ⟨d', res', hagain, _, hsame, _⟩ := h.again
  obtain ⟨inputs', st', hsel, hrun, _⟩ := invoke_eq_ok.mp hagain
  obtain ⟨_, _, _, hrunkind⟩ := kinds_of_run hrun
  generalize hd : (⟨diskA.root, persist escapedReader.toCodec diskA.store
    (((callA { everything := true } "2026-01-01T00:00:00Z").request inputs).result lengthExtern
      (derivedA inputs) 1 false),
    diskA.outside⟩ : Disk (Finset Quad)) = d at *
  have hselected : ∀ (path : String) (b : Finset Quad), d.store.file? path = some b →
      Store.isFragmentPath path = true → Selected escapedReader d { everything := true } (.inside path) := by
    intro path b hb hp
    refine ⟨_, rfl, .root (List.mem_reverse.mpr (List.mem_map_of_mem ?_))⟩
    exact Store.mem_allFragmentPaths.mpr ⟨by rw [hb]; rfl, hp⟩
  have hspelled : Spelled d { everything := true } := fun p hp => nomatch hp
  have hdrv : ∃ i ∈ inputs', i.graph = drvA.graph := by
    have hfileA : d.store.file? "drv/a.nq.zst" = some drvA.quads := by
      rw [hleaves.files _ outside_drvA, file?_diskA, if_pos rfl]
    obtain ⟨next, hexp, _⟩ := expand_drvA hfileA false
    exact mem_of_selected hspelled hsel (hselected _ _ hfileA (isFragmentPath_plain (by decide))) hexp
  have hderived : ∃ i ∈ inputs', i.graph = (FragmentKind.derived "a" "a").graph := by
    have hkind : ((callA { everything := true } "2026-01-01T00:00:00Z").request inputs).kind lengthExtern =
        .derived "a" "a" := by
      show FragmentKind.derived (rulesetHash lengthExtern []) (inputHash lengthExtern inputs) = _
      rw [hhash]
      rfl
    have hfileD : d.store.file? "derived/a/a.nq.zst" = some (derivedA inputs).quads := by
      have hwritten : (persist escapedReader.toCodec diskA.store
          (((callA { everything := true } "2026-01-01T00:00:00Z").request inputs).result lengthExtern
            (derivedA inputs) 1
            false)).file? (Store.pathOf (((callA { everything := true } "2026-01-01T00:00:00Z").request inputs).kind
              lengthExtern)) = _ := file?_persist_derived alphanumeric_length rfl rfl
      rw [hkind, paths_plain.2.2, file?_diskA, if_neg (by decide), Option.none_or] at hwritten
      rw [← hd]
      exact hwritten
    have hfileP : d.file? (.inside "derived/a/a.nq.zst") = some (derivedA inputs).quads :=
      (Disk.file?_own (resolvePath_plain (by decide))).trans hfileD
    have hexp : expand escapedReader d false (.inside "derived/a/a.nq.zst") = .ok (some (⟨(derivedA inputs).graph,
        d.abs (.inside "derived/a/a.nq.zst"), (derivedA inputs).toNquads⟩, [])) :=
      expand_eq_some.mpr ⟨_, [], hfileP, readInput_fragment (derivedA_accepted hhash)
      ⟨_, Fragment.mem_ofTriples.mpr List.mem_cons_self⟩ _, rfl, rfl⟩
    obtain ⟨i, hi, hig⟩ := mem_of_selected hspelled hsel (hselected _ _ hfileD (isFragmentPath_plain (by decide))) hexp
    exact ⟨i, hi, hig.trans (graph_derivedA hhash)⟩
  obtain ⟨i, hi, hig⟩ := hdrv
  obtain ⟨j, hj, hjg⟩ := hderived
  have htwo := inputHash_two hi hj hig hjg
  have hone : res'.inputHash = "a" := hsame.trans hhash
  rw [(FragmentKind.run.inj hrunkind).2] at hone
  have hinputs : inputHash lengthExtern inputs' = "a" := hone
  rw [htwo] at hinputs
  exact absurd hinputs (by decide)

theorem invoke_repeated_drvA : ∃ d res,
    invoke escapedReader lengthExtern noReaders noPacks diskA (callA rootsA "2026-01-01T00:00:00Z") = .ok (d, res) ∧
    Repeated escapedReader lengthExtern noReaders noPacks IsRecord d res (callA rootsA "2026-01-01T00:00:01Z") := by
  obtain ⟨inputs, _, hinvoke⟩ := invoke_callA (.inl rfl) "2026-01-01T00:00:00Z"
  refine ⟨_, _, hinvoke, invoke_repeated alphanumeric_length hinvoke rfl
    (fun p hp => ?_) Bool.noConfusion rfl rfl rfl⟩
  -- No path is given, and no path of a fragment leads up.
  have hup : ∀ k : FragmentKind, k = .out "a" ∨ k = .drv "a" → ".." ∉ Text.split '/' k.relativePath := by
    rintro k (rfl | rfl) <;> exact FragmentKind.up_not_mem (by decide : Alphanumeric "a") (by decide)
  cases hp with
  | given hp => cases hp
  | root hiri hok hdots =>
      rw [List.mem_singleton.mp hiri, fragmentForIri_drvA, Except.ok.injEq, Option.some.injEq] at hok
      exact absurd hdots (hup _ (.inr hok.symm))
  | followed hp hb hi hrefs hk hdots =>
      rw [(selected_diskA (.inl rfl)).2 _ hp] at hb hi
      have hfile : diskA.file? pathA = some drvA.quads :=
        (Disk.file?_own (resolvePath_plain (by decide))).trans (file?_diskA.trans (if_pos rfl))
      obtain rfl := Option.some.inj (hb.symm.trans hfile)
      obtain rfl := Except.ok.inj (hi.symm.trans (readInput_fragment drvA_accepted.1 drvA_accepted.2 pathA))
      obtain ⟨ks, hks, hmem⟩ := refsOf_toNquads escapes_escapedReader drvA_accepted.1
      obtain rfl := Except.ok.inj (hks.symm.trans hrefs)
      exact absurd hdots (hup _ (refers_drvA ((hmem _).mp hk)))

end Reason

end Nix2Rdf
