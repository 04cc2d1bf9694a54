import Nix2Rdf.Reason.Run

/-!
# What a run leaves alone

A command that runs the rules writes below three directories. A path that begins elsewhere and does not
lead up leads to the same before and after it.
-/

namespace Nix2Rdf.Reason

open Packs Paths

variable {Bytes : Type}

/-- The path begins with a component that is none of these directories. -/
def Outside (dirs : List String) (p : String) : Prop := ∃ s, head p = some s ∧ s ∉ dirs

/-- One store becomes another one by what is done below some directories. No file is removed. -/
structure Leaves (dirs : List String) (st st' : Store Bytes) : Prop where
  files : ∀ p, Outside dirs p → st'.file? p = st.file? p
  created : ∀ e, Outside dirs e → (e ∈ st'.dirs ↔ e ∈ st.dirs)
  kept : ∀ p, (st.file? p).isSome → (st'.file? p).isSome

section

variable {dirs : List String} {st st' st'' : Store Bytes} {p path : String}

theorem Leaves.refl (st : Store Bytes) : Leaves dirs st st := ⟨fun _ _ => rfl, fun _ _ => Iff.rfl, fun _ h => h⟩

theorem Leaves.trans (h : Leaves dirs st st') (h' : Leaves dirs st' st'') : Leaves dirs st st'' where
  files p hp := (h'.files p hp).trans (h.files p hp)
  created e he := (h'.created e he).trans (h.created e he)
  kept p hp := h'.kept p (h.kept p hp)

/-! ## What a path leads to -/

theorem Leaves.isDir (h : Leaves dirs st st') (hp : Outside dirs p) : st'.isDir p = st.isDir p := by
  obtain ⟨s, hs, hout⟩ := hp
  have hbelow : ∀ {q}, Text.startsWith (p ++ "/") q = true → Outside dirs q := fun hq => ⟨s, head_below hq hs, hout⟩
  rw [Bool.eq_iff_iff, Store.isDir_iff, Store.isDir_iff, h.created p ⟨s, hs, hout⟩]
  refine or_congr_right (or_congr_right (or_congr (exists_congr fun q => ?_) (exists_congr fun e => ?_)))
  · exact and_congr_left fun hq => by rw [h.files q (hbelow hq)]
  · exact and_congr_left fun he => h.created e (hbelow he)

theorem Leaves.node? (h : Leaves dirs st st') (hp : Outside dirs p) : st'.node? p = st.node? p := by
  rw [Store.node?, Store.node?, h.files p hp, h.isDir hp]

/-- The components from some place on are entered alike. -/
theorem Leaves.enter (h : Leaves dirs st st') {acc segs : List String} {s : String}
    (hacc : ∀ s ∈ acc, Proper s ∧ '/' ∉ s.toList) (hsegs : ∀ s ∈ segs, s ≠ ".." ∧ '/' ∉ s.toList)
    (hs : (acc.reverse ++ segs.filter fun seg => ¬ Dropped seg).head? = some s) (hout : s ∉ dirs) :
    st'.enter acc segs = st.enter acc segs := by
  induction segs generalizing acc with
  | nil => rfl
  | cons seg segs ih =>
      rw [List.forall_mem_cons] at hsegs
      have hdir : st'.isDir (Text.slash acc.reverse) = st.isDir (Text.slash acc.reverse) := by
        cases acc with
        | nil => rfl
        | cons top below =>
            refine h.isDir ⟨s, ?_, hout⟩
            rw [head_slash fun s hs => hacc s (List.mem_reverse.mp hs)]
            rw [List.head?_append_of_ne_nil _ (by simp)] at hs
            exact hs
      rw [Store.enter, Store.enter, hdir]
      split
      · by_cases hdrop : Dropped seg
        · rw [resolveStep_dropped hdrop]
          rw [List.filter_cons_of_neg (by simpa using hdrop)] at hs
          exact ih hacc hsegs.2 hs
        · have hproper : Proper seg := ⟨hdrop, hsegs.1.1⟩
          rw [resolveStep_proper hproper]
          rw [List.filter_cons_of_pos (by simpa using hdrop)] at hs
          refine ih (List.forall_mem_cons.mpr ⟨⟨hproper, hsegs.1.2⟩, hacc⟩) hsegs.2 ?_
          rw [List.reverse_cons, List.append_assoc]
          exact hs
      · rfl

/-- A path that begins elsewhere and does not lead up leads to the same. -/
theorem Leaves.look (h : Leaves dirs st st') (hpath : Outside dirs path) (hup : ".." ∉ Text.split '/' path) :
    st'.look path = st.look path := by
  obtain ⟨s, hs, hout⟩ := hpath
  have hsegs : ∀ s ∈ Text.split '/' path, s ≠ ".." ∧ '/' ∉ s.toList := fun s hs =>
    ⟨fun heq => hup (heq ▸ hs), not_mem_of_mem_split hs⟩
  have henter := h.enter (List.forall_mem_nil _) hsegs hs hout
  rw [Store.look, Store.look, henter]
  cases hacc : st.enter [] (Text.split '/' path) with
  | none => rfl
  | some acc =>
      rw [Option.bind_some, Option.bind_some, Store.enter_eq_some hacc]
      refine h.node? ⟨s, ?_, hout⟩
      exact (head_resolvePath hup).trans hs

/-! ## What is done below the directories -/

theorem leaves_mkdir (h : ¬ Outside dirs p) : Leaves dirs st (st.mkdir p) where
  files _ _ := rfl
  created e he := by
    rw [Store.mkdir, Finset.mem_insert, or_iff_right]
    rintro rfl
    exact h he
  kept _ hp := hp

theorem leaves_put {b : Bytes} (h : ¬ Outside dirs (resolvePath path))
    (habove : ∀ e ∈ Store.above path, ¬ Outside dirs e) : Leaves dirs st (st.put path b) where
  files p hp := by
    rw [Store.file?_put, if_neg]
    rintro rfl
    exact h hp
  created e he := by
    rw [Store.put, Finset.mem_union, or_iff_left]
    exact fun hmem => habove e hmem he
  kept p hp := by
    rw [Store.file?_put]
    split
    · rfl
    · exact hp

/-- A path without `..` that begins with one of the directories, and all that is above it. -/
theorem not_outside_of_head {s : String} (hup : ".." ∉ Text.split '/' path) (hs : head path = some s)
    (hmem : s ∈ dirs) : ¬ Outside dirs (resolvePath path) ∧ ∀ e ∈ Store.above path, ¬ Outside dirs e := by
  refine ⟨fun hout => ?_, fun e he hout => ?_⟩
  · obtain ⟨s', hs', hno⟩ := hout
    rw [head_resolvePath hup, hs, Option.some.injEq] at hs'
    exact hno (hs' ▸ hmem)
  · obtain ⟨s', hs', hno⟩ := hout
    rw [Store.above, List.mem_toFinset, List.mem_map] at he
    obtain ⟨segs, hsegs, rfl⟩ := he
    obtain ⟨rest, hrest⟩ : segs <+: Text.split '/' path := ((List.mem_inits _ _).mp hsegs).trans
      (List.dropLast_prefix _)
    have hsub : ∀ s ∈ segs, s ∈ Text.split '/' path := fun s hs => by
      rw [← hrest]
      exact List.mem_append_left _ hs
    rw [head_foldl (fun s hs => not_mem_of_mem_split (hsub s hs)) fun hin => hup (hsub _ hin)] at hs'
    rw [head, ← hrest, List.filter_append, List.head?_append, hs', Option.some_or, Option.some.injEq] at hs
    exact hno (hs ▸ hmem)

end

/-! ## Commands that run the rules -/

/-- The directories that a run writes to. -/
def written : List String := ["derived", "runs", "packs"]

section

variable {packDirs : PackDirs Bytes} {c : Codec Bytes} {x : Extern} {rd : Readers} {st st' : Store Bytes}
  {q : Request} {res : RunResult}

theorem leaves_mkdirs {dirs : List String} {ps : List TreePath} (h : ∀ p ∈ ps, ¬ Outside dirs (Text.slash p)) :
    Leaves dirs st (ps.foldl (fun st p => st.mkdir (Text.slash p)) st) := by
  induction ps generalizing st with
  | nil => exact .refl st
  | cons p ps ih =>
      rw [List.forall_mem_cons] at h
      exact (leaves_mkdir h.1).trans (ih h.2)

theorem leaves_applyOp {op : Op Bytes} {rel : TreePath} (hpath : op.path = "packs" :: rel)
    (h : applyOp st op = some st') : Leaves written st st' := by
  have hproper : ∀ {p : TreePath}, (∀ n ∈ p, FileTree.IsName n) → ∀ n ∈ p, Proper n ∧ '/' ∉ n.toList := fun hp n hn =>
    ⟨⟨not_or.mpr ⟨(hp n hn).1, (hp n hn).2.1⟩, (hp n hn).2.2.1⟩, (hp n hn).2.2.2.1⟩
  cases op with
  | createDirAll p =>
      obtain rfl : p = "packs" :: rel := hpath
      rw [applyOp] at h
      split at h
      · rename_i hok
        cases h
        refine leaves_mkdirs fun p hp hout => ?_
        have hpre := (List.mem_inits _ _).mp hp
        obtain ⟨s, hs, hno⟩ := hout
        rw [head_slash (hproper fun n hn => hok.1 n (hpre.subset hn))] at hs
        -- Only the root and what begins with `packs` is created.
        cases p with
        | nil => cases hs
        | cons n p =>
            rw [(List.cons_prefix_cons.mp hpre).1] at hs
            cases hs
            exact hno (by decide)
      · cases h
  | copy p content =>
      obtain rfl : p = "packs" :: rel := hpath
      obtain ⟨b, _, h⟩ := Option.bind_eq_some_iff.mp h
      split at h
      · rename_i hok
        cases h
        have hnames := hproper hok.2.1
        have hup : ".." ∉ Text.split '/' (Text.slash ("packs" :: rel)) := by
          rw [Text.split_slash (List.cons_ne_nil _ _) fun n hn => (hnames n hn).2]
          exact fun hmem => (hnames _ hmem).1.2 rfl
        obtain ⟨hfile, habove⟩ := not_outside_of_head hup (head_slash hnames) (by decide : "packs" ∈ written)
        exact leaves_put hfile habove
      · cases h

theorem leaves_copySteps {ops : List (Op Bytes)} (h : ∀ op ∈ ops, ∃ rel, op.path = "packs" :: rel) :
    Leaves written st (copySteps st ops).1 := by
  induction ops generalizing st with
  | nil => exact .refl st
  | cons op ops ih =>
      rw [List.forall_mem_cons] at h
      obtain ⟨⟨rel, hrel⟩, h⟩ := h
      rw [copySteps]
      cases hop : applyOp st op with
      | none => exact .refl st
      | some st' => exact (leaves_applyOp hrel hop).trans (ih h)

theorem leaves_copyToStore (p : Pack) : Leaves written st (copyToStore packDirs st p).1 := by
  rw [copyToStore]
  split
  · exact .refl st
  · refine leaves_copySteps fun op hop => ?_
    obtain ⟨rel, hrel⟩ := path_of_copyOps hop
    exact ⟨_, hrel.symm⟩

theorem leaves_copyPacks (packs : List Pack) : Leaves written st (copyPacks packDirs st packs).1 := by
  induction packs generalizing st with
  | nil => exact .refl st
  | cons p packs ih =>
      have hone := @leaves_copyToStore _ packDirs st p
      rw [copyPacks]
      split
      · rename_i heq
        rw [heq] at hone
        exact hone
      · rename_i heq
        rw [heq] at hone
        exact hone.trans ih

theorem leaves_run : Leaves written st (run c x rd packDirs st q).1 := by
  have hcopied := @leaves_copyPacks _ packDirs st q.packs
  rw [run]
  split
  · exact .refl st
  · split
    · exact .refl st
    · split
      · rename_i heq
        rw [heq] at hcopied
        exact hcopied
      · rename_i heq
        rw [heq] at hcopied
        exact hcopied

/-- The path of the file of a run begins with one of the directories. -/
theorem OfRun.not_outside {k : FragmentKind} (h : OfRun k) :
    ¬ Outside written (Store.pathOf k) ∧ ∀ e ∈ Store.above k.relativePath, ¬ Outside written e := by
  have hdir : k.dir ∈ written := by
    cases h with
    | derived _ _ => exact List.mem_cons_self
    | run _ _ => exact List.mem_cons_of_mem _ List.mem_cons_self
  exact not_outside_of_head (k.up_not_mem h.wellFormed h.mid_ne_up) k.head_relativePath hdir

theorem leaves_put_ofRun {k : FragmentKind} (h : OfRun k) {b : Bytes} : Leaves written st (st.put k.relativePath b) :=
  leaves_put h.not_outside.1 h.not_outside.2

theorem leaves_persist (hder : OfRun res.derived.kind) (hrun : OfRun res.run.kind) :
    Leaves written st (persist c st res) := by
  have hderived : Leaves written st (st.write c res.derived).1 := by
    rw [Store.write]
    split
    · exact .refl st
    · exact leaves_put_ofRun hder
  exact hderived.trans (leaves_put_ofRun hrun)

end

end Nix2Rdf.Reason
