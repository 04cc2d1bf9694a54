import Nix2Rdf.Lib.Transition
import Nix2Rdf.Store

/-!
# Writing a fragment, one file system call at a time

`Fragment::write_to` writes a temporary file and renames it. Any number of processes do so at once,
for one fragment identity, and readers open the published file in between. Directory entries point
to inodes, a process that has opened a file goes on writing to its inode, and a rename moves the
entry.
-/

namespace Nix2Rdf

abbrev Inode := Nat
abbrev Pid := Nat

structure FileSystem where
  link : String → Option Inode
  data : Inode → List UInt8
  /-- No inode from here on is in use. -/
  next : Inode

namespace FileSystem

variable (fs : FileSystem)

def truncate (i : Inode) : FileSystem := { fs with data := Function.update fs.data i [] }

def allocate (name : String) : FileSystem :=
  ⟨Function.update fs.link name (some fs.next), Function.update fs.data fs.next [], fs.next + 1⟩

/-- Open for writing: an existing file is truncated, a missing one is created. -/
def create (name : String) : FileSystem × Inode :=
  match fs.link name with
  | some i => (fs.truncate i, i)
  | none => (fs.allocate name, fs.next)

/-- Write at an offset; a gap before it reads as zeros. -/
def pwrite (i : Inode) (offset : Nat) (chunk : List UInt8) : FileSystem :=
  let old := fs.data i
  let before := old.take offset ++ List.replicate (offset - old.length) 0
  { fs with data := Function.update fs.data i (before ++ chunk ++ old.drop (offset + chunk.length)) }

def move (old new : String) (i : Inode) : FileSystem :=
  { fs with link := Function.update (Function.update fs.link old none) new (some i) }

/-- `ENOENT` if there is no file to rename. -/
def rename (old new : String) : Option FileSystem := (fs.link old).map (fs.move old new)

@[simp] theorem truncate_link (i : Inode) : (fs.truncate i).link = fs.link := rfl

@[simp] theorem truncate_next (i : Inode) : (fs.truncate i).next = fs.next := rfl

theorem truncate_data (i j : Inode) : (fs.truncate i).data j = if j = i then [] else fs.data j :=
  Function.update_apply _ _ _ _

theorem allocate_link (name other : String) :
    (fs.allocate name).link other = if other = name then some fs.next else fs.link other :=
  Function.update_apply _ _ _ _

theorem allocate_data (name : String) (j : Inode) :
    (fs.allocate name).data j = if j = fs.next then [] else fs.data j :=
  Function.update_apply _ _ _ _

@[simp] theorem allocate_next (name : String) : (fs.allocate name).next = fs.next + 1 := rfl

@[simp] theorem pwrite_link (i : Inode) (n : Nat) (chunk : List UInt8) :
    (fs.pwrite i n chunk).link = fs.link := rfl

@[simp] theorem pwrite_next (i : Inode) (n : Nat) (chunk : List UInt8) :
    (fs.pwrite i n chunk).next = fs.next := rfl

theorem pwrite_data_of_ne {i j : Inode} (h : j ≠ i) (n : Nat) (chunk : List UInt8) :
    (fs.pwrite i n chunk).data j = fs.data j :=
  Function.update_of_ne h _ _

/-- Writing at the end of the file appends. -/
theorem pwrite_data_self {i : Inode} {n : Nat} (h : (fs.data i).length = n) (chunk : List UInt8) :
    (fs.pwrite i n chunk).data i = fs.data i ++ chunk := by
  have hdrop : (fs.data i).drop (n + chunk.length) = [] := List.drop_eq_nil_of_le (by omega)
  have htake : (fs.data i).take n = fs.data i := List.take_of_length_le (by omega)
  simp [pwrite, hdrop, htake, h]

/-- What is opened for writing stands under its name. -/
theorem create_link (name : String) : (fs.create name).1.link name = some (fs.create name).2 := by
  cases h : fs.link name with
  | some i => simp [create, h]
  | none => simp [create, h, allocate_link]

theorem move_link (old new other : String) (i : Inode) : (fs.move old new i).link other =
    if other = new then some i else if other = old then none else fs.link other := by
  simp [move, Function.update_apply]

@[simp] theorem move_data (old new : String) (i : Inode) : (fs.move old new i).data = fs.data := rfl

@[simp] theorem move_next (old new : String) (i : Inode) : (fs.move old new i).next = fs.next := rfl

end FileSystem

/-- The file name without its last extension. A name that only starts with a dot has none. -/
def fileStem (file : String) : String :=
  match Text.rsplitOnce '.' file with
  | some (stem, _) => if stem = "" then file else stem
  | none => file

def withExtension (path ext : String) : String :=
  match Text.rsplitOnce '/' path with
  | some (dir, file) => dir ++ "/" ++ fileStem file ++ "." ++ ext
  | none => fileStem path ++ "." ++ ext

/-- Where a process stands. -/
inductive Phase where
  | idle
  /-- It is going to write: there was no file, or it writes in any case. -/
  | writes
  /-- It has opened the temporary file and has written up to the offset. -/
  | writing (fd : Inode) (offset : Nat)
  | done
  | failed
  | crashed
  deriving DecidableEq

structure Processes where
  fs : FileSystem
  phase : Pid → Phase
  /-- The file a reader has open. -/
  reader : Pid → Option Inode

/-- What the processes write: fragments of one identity. -/
structure Writers where
  compress : String → List UInt8
  kind : FragmentKind
  lines : Pid → Finset Triple

inductive WriteAction where
  /-- `Store::write` looks whether the file exists. -/
  | check (p : Pid)
  /-- `Store::overwrite` does not look. -/
  | overwrite (p : Pid)
  | create (p : Pid)
  | append (p : Pid) (count : Nat)
  | rename (p : Pid)
  /-- The process is killed. -/
  | crash (p : Pid)
  | openFinal (r : Pid)

namespace Writers

variable (w : Writers)

def bytes (p : Pid) : List UInt8 := w.compress (Fragment.toNquads ⟨w.kind, w.lines p⟩)

def path : String := Store.pathOf w.kind

def tmp : String := withExtension w.path "nq.zst.tmp"

def setPhase (s : Processes) (p : Pid) (ph : Phase) : Processes :=
  { s with phase := Function.update s.phase p ph }

/-- One step of one process. There is no step where the process is not at the place for it. -/
def step (s : Processes) : WriteAction → Option Processes
  | .check p =>
      match s.phase p with
      | .idle => some (setPhase s p (if (s.fs.link w.path).isSome then .done else .writes))
      | _ => none
  | .overwrite p =>
      match s.phase p with
      | .idle => some (setPhase s p .writes)
      | _ => none
  | .create p =>
      match s.phase p with
      | .writes =>
          let (fs, fd) := s.fs.create w.tmp
          some (setPhase { s with fs := fs } p (.writing fd 0))
      | _ => none
  | .append p count =>
      match s.phase p with
      | .writing fd offset =>
          if offset + count ≤ (w.bytes p).length then
            let chunk := ((w.bytes p).drop offset).take count
            some (setPhase { s with fs := s.fs.pwrite fd offset chunk } p
              (.writing fd (offset + count)))
          else none
      | _ => none
  | .rename p =>
      match s.phase p with
      | .writing _ offset =>
          if offset = (w.bytes p).length then
            match s.fs.rename w.tmp w.path with
            | some fs => some (setPhase { s with fs := fs } p .done)
            | none => some (setPhase s p .failed)
          else none
      | _ => none
  | .crash p => some (setPhase s p .crashed)
  | .openFinal r => some { s with reader := Function.update s.reader r (s.fs.link w.path) }

/-- The complete compressed fragment of one of the writers. -/
def Complete (data : List UInt8) : Prop := ∃ p, data = w.bytes p

/-- An inode that readers can read. -/
def Published (s : Processes) (i : Inode) : Prop :=
  s.fs.link w.path = some i ∨ ∃ r, s.reader r = some i

/-- What is published is complete, and no writer has failed. -/
structure Atomic (s : Processes) : Prop where
  complete : ∀ i, w.Published s i → w.Complete (s.fs.data i)
  notFailed : ∀ p, s.phase p ≠ .failed

/-- No process has begun; the store may hold the published file and a left-over temporary one. -/
structure Start (s : Processes) : Prop where
  idle : ∀ p, s.phase p = .idle
  noReader : ∀ r, s.reader r = none
  complete : ∀ i, s.fs.link w.path = some i → w.Complete (s.fs.data i)
  inUse : ∀ name i, s.fs.link name = some i → i < s.fs.next
  noHardLink : ∀ i, s.fs.link w.path = some i → s.fs.link w.tmp ≠ some i

/-- A process opens the temporary file only while no other one is writing it. -/
def Alone (s : Processes) : WriteAction → Prop
  | .create p => ∀ q fd offset, q ≠ p → s.phase q ≠ .writing fd offset
  | _ => True

/-! ## The temporary name is another name -/

theorem fileStem_append_ne (file : String) : fileStem file ++ "." ++ "nq.zst.tmp" ≠ file := by
  intro h
  have hlist := congrArg String.toList h
  unfold fileStem at hlist
  split at hlist
  next stem ext hsplit =>
      obtain ⟨hfile, hext⟩ := Text.rsplitOnce_eq_some hsplit
      split at hlist
      · simp at hlist
      · rw [hfile] at hlist
        simp only [String.toList_append, List.append_assoc, List.append_cancel_left_eq] at hlist
        have htail : "nq.zst.tmp".toList = ext.toList := List.append_cancel_left hlist
        exact hext (htail ▸ by decide)
  next => simp at hlist

theorem withExtension_tmp_ne (path : String) : withExtension path "nq.zst.tmp" ≠ path := by
  intro h
  unfold withExtension at h
  split at h
  next dir file hsplit =>
      have hpath := (Text.rsplitOnce_eq_some hsplit).1
      have hlist := congrArg String.toList h
      rw [hpath] at hlist
      simp only [String.toList_append, List.append_assoc, List.append_cancel_left_eq] at hlist
      refine fileStem_append_ne file (String.toList_inj.mp ?_)
      simpa using hlist
  next => exact fileStem_append_ne path h

theorem tmp_ne_path : w.tmp ≠ w.path := withExtension_tmp_ne w.path

/-! ## What one step keeps -/

@[simp] theorem setPhase_fs (s : Processes) (p : Pid) (ph : Phase) : (setPhase s p ph).fs = s.fs := rfl

@[simp] theorem setPhase_reader (s : Processes) (p : Pid) (ph : Phase) :
    (setPhase s p ph).reader = s.reader := rfl

@[simp] theorem setPhase_phase (s : Processes) (p q : Pid) (ph : Phase) :
    (setPhase s p ph).phase q = if q = p then ph else s.phase q := by
  simp [setPhase, Function.update_apply]

/-- At most one process has the temporary file open, nobody can read it, and it holds what that
process has written so far. -/
structure Inv (s : Processes) : Prop extends Atomic w s where
  notTmp : ∀ i, w.Published s i → s.fs.link w.tmp ≠ some i
  publishedInUse : ∀ i, w.Published s i → i < s.fs.next
  tmpInUse : ∀ i, s.fs.link w.tmp = some i → i < s.fs.next
  single : ∀ p q fd offset fd' offset', s.phase p = .writing fd offset →
    s.phase q = .writing fd' offset' → q = p
  progress : ∀ p fd offset, s.phase p = .writing fd offset →
    s.fs.link w.tmp = some fd ∧ s.fs.data fd = (w.bytes p).take offset ∧ offset ≤ (w.bytes p).length

variable {w} {s t : Processes}

theorem Start.inv (h : w.Start s) : w.Inv s where
  complete := by
    rintro i (hi | ⟨r, hr⟩)
    · exact h.complete i hi
    · simp [h.noReader] at hr
  notFailed p := by simp [h.idle]
  notTmp := by
    rintro i (hi | ⟨r, hr⟩)
    · exact h.noHardLink i hi
    · simp [h.noReader] at hr
  publishedInUse := by
    rintro i (hi | ⟨r, hr⟩)
    · exact h.inUse _ i hi
    · simp [h.noReader] at hr
  tmpInUse i hi := h.inUse _ i hi
  single p q fd offset fd' offset' hp := by simp [h.idle] at hp
  progress p fd offset hp := by simp [h.idle] at hp

/-- Leaving the file alone and not failing keeps the invariant. -/
theorem Inv.setPhase (h : w.Inv s) (p : Pid) {ph : Phase} (hph : ∀ fd offset, ph ≠ .writing fd offset)
    (hfail : ph ≠ .failed) : w.Inv (setPhase s p ph) where
  complete := h.complete
  notFailed q := by
    by_cases hq : q = p
    · simpa [hq] using hfail
    · simpa [hq] using h.notFailed q
  notTmp := h.notTmp
  publishedInUse := h.publishedInUse
  tmpInUse := h.tmpInUse
  single q r fd offset fd' offset' hq hr := by
    simp only [setPhase_phase] at hq hr
    split at hq
    · exact absurd hq (hph _ _)
    · split at hr
      · exact absurd hr (hph _ _)
      · exact h.single q r fd offset fd' offset' hq hr
  progress q fd offset hq := by
    simp only [setPhase_phase] at hq
    split at hq
    · exact absurd hq (hph _ _)
    · exact h.progress q fd offset hq

/-- Process `p` alone has the temporary file open, at `fd`, and what is published is as before. -/
theorem Inv.ofWriter {fs : FileSystem} {p : Pid} {fd : Inode} {offset : Nat} (h : w.Inv s)
    (hpath : fs.link w.path = s.fs.link w.path) (htmp : fs.link w.tmp = some fd)
    (hnext : s.fs.next ≤ fs.next) (hfd : fd < fs.next)
    (hdata : ∀ i, w.Published s i → i ≠ fd ∧ fs.data i = s.fs.data i)
    (hbytes : fs.data fd = (w.bytes p).take offset) (hoffset : offset ≤ (w.bytes p).length)
    (hother : ∀ q fd' offset', q ≠ p → s.phase q ≠ .writing fd' offset') :
    w.Inv (Writers.setPhase { s with fs := fs } p (.writing fd offset)) := by
  have hpub : ∀ i, w.Published (Writers.setPhase { s with fs := fs } p (.writing fd offset)) i →
      w.Published s i := by
    rintro i (hi | hi)
    · exact Or.inl (hpath ▸ hi)
    · exact Or.inr hi
  have hself : ∀ q fd' offset', (Writers.setPhase { s with fs := fs } p (.writing fd offset)).phase q
      = .writing fd' offset' → q = p ∧ fd' = fd ∧ offset' = offset := by
    intro q fd' offset' hq
    by_cases hqp : q = p
    · simp only [setPhase_phase, hqp, ↓reduceIte, Phase.writing.injEq] at hq
      exact ⟨hqp, hq.1.symm, hq.2.symm⟩
    · simp only [setPhase_phase, hqp, ↓reduceIte] at hq
      exact absurd hq (hother q fd' offset' hqp)
  constructor
  · constructor
    · intro i hi
      rw [show (Writers.setPhase { s with fs := fs } p (.writing fd offset)).fs.data i = s.fs.data i
        from (hdata i (hpub i hi)).2]
      exact h.complete i (hpub i hi)
    · intro q hq
      by_cases hqp : q = p
      · simp [hqp] at hq
      · simp only [setPhase_phase, hqp, ↓reduceIte] at hq
        exact h.notFailed q hq
  · intro i hi hlink
    have heq := htmp.symm.trans hlink
    exact (hdata i (hpub i hi)).1 (Option.some.inj heq).symm
  · intro i hi
    exact Nat.lt_of_lt_of_le (h.publishedInUse i (hpub i hi)) hnext
  · intro i hi
    have heq := htmp.symm.trans hi
    exact Option.some.inj heq ▸ hfd
  · intro q r fd' offset' fd'' offset'' hq hr
    exact (hself r _ _ hr).1.trans (hself q _ _ hq).1.symm
  · intro q fd' offset' hq
    obtain ⟨rfl, rfl, rfl⟩ := hself q fd' offset' hq
    exact ⟨htmp, hbytes, hoffset⟩

theorem Inv.create (h : w.Inv s) (p : Pid)
    (hother : ∀ q fd offset, q ≠ p → s.phase q ≠ .writing fd offset) :
    w.Inv (Writers.setPhase { s with fs := (s.fs.create w.tmp).1 } p
      (.writing (s.fs.create w.tmp).2 0)) := by
  unfold FileSystem.create
  cases htmp : s.fs.link w.tmp with
  | some fd =>
      refine h.ofWriter rfl htmp (Nat.le_refl _) (h.tmpInUse fd htmp) ?_ ?_ (Nat.zero_le _) hother
      · intro i hi
        have hne : i ≠ fd := by
          rintro rfl
          exact h.notTmp i hi htmp
        exact ⟨hne, by simp [FileSystem.truncate_data, hne]⟩
      · simp [FileSystem.truncate_data]
  | none =>
      refine h.ofWriter ?_ ?_ (Nat.le_succ _) (Nat.lt_succ_self _) ?_ ?_ (Nat.zero_le _) hother
      · simp [FileSystem.allocate_link, w.tmp_ne_path.symm]
      · simp [FileSystem.allocate_link]
      · intro i hi
        have hne : i ≠ s.fs.next := Nat.ne_of_lt (h.publishedInUse i hi)
        exact ⟨hne, by simp [FileSystem.allocate_data, hne]⟩
      · simp [FileSystem.allocate_data]

theorem Inv.append (h : w.Inv s) {p : Pid} {fd : Inode} {offset count : Nat}
    (hp : s.phase p = .writing fd offset) (hlen : offset + count ≤ (w.bytes p).length) :
    w.Inv (Writers.setPhase
      { s with fs := s.fs.pwrite fd offset (((w.bytes p).drop offset).take count) } p
      (.writing fd (offset + count))) := by
  obtain ⟨htmp, hdata, _⟩ := h.progress p fd offset hp
  refine h.ofWriter rfl htmp (Nat.le_refl _) (h.tmpInUse fd htmp) ?_ ?_ hlen ?_
  · intro i hi
    have hne : i ≠ fd := by
      rintro rfl
      exact h.notTmp i hi htmp
    exact ⟨hne, s.fs.pwrite_data_of_ne hne _ _⟩
  · have hold : (s.fs.data fd).length = offset := by
      rw [hdata, List.length_take]
      omega
    rw [s.fs.pwrite_data_self hold, hdata, ← List.take_add]
  · intro q fd' offset' hq hq'
    exact hq (h.single p q _ _ _ _ hp hq')

theorem Inv.rename (h : w.Inv s) {p : Pid} {fd : Inode}
    (hp : s.phase p = .writing fd (w.bytes p).length) :
    w.Inv (Writers.setPhase { s with fs := s.fs.move w.tmp w.path fd } p .done) := by
  obtain ⟨htmp, hdata, _⟩ := h.progress p fd _ hp
  rw [List.take_length] at hdata
  generalize hs' : Writers.setPhase { s with fs := s.fs.move w.tmp w.path fd } p .done = s'
  have hpub : ∀ i, w.Published s' i → i = fd ∨ w.Published s i := by
    subst hs'
    rintro i (hi | hi)
    · simp only [setPhase_fs, FileSystem.move_link, ↓reduceIte, Option.some.injEq] at hi
      exact Or.inl hi.symm
    · exact Or.inr (Or.inr hi)
  have hnone : s'.fs.link w.tmp = none := by
    simp [← hs', FileSystem.move_link, w.tmp_ne_path]
  have hsame : s'.fs.data = s.fs.data ∧ s'.fs.next = s.fs.next := by
    simp [← hs']
  have hphase : ∀ q, s'.phase q = if q = p then .done else s.phase q := by
    intro q
    simp [← hs']
  have hidle : ∀ q fd' offset', s'.phase q ≠ .writing fd' offset' := by
    intro q fd' offset' hq
    rw [hphase] at hq
    split at hq
    · cases hq
    next hqp => exact hqp (h.single p q _ _ _ _ hp hq)
  constructor
  · constructor
    · intro i hi
      rw [hsame.1]
      rcases hpub i hi with rfl | hi
      · exact ⟨p, hdata⟩
      · exact h.complete i hi
    · intro q hq
      rw [hphase] at hq
      split at hq
      · cases hq
      · exact h.notFailed q hq
  · intro i _ hlink
    rw [hnone] at hlink
    cases hlink
  · intro i hi
    rw [hsame.2]
    rcases hpub i hi with rfl | hi
    · exact h.tmpInUse i htmp
    · exact h.publishedInUse i hi
  · intro i hlink
    rw [hnone] at hlink
    cases hlink
  · intro q r fd' offset' fd'' offset'' hq
    exact absurd hq (hidle q fd' offset')
  · intro q fd' offset' hq
    exact absurd hq (hidle q fd' offset')

theorem Inv.openFinal (h : w.Inv s) (r : Pid) :
    w.Inv { s with reader := Function.update s.reader r (s.fs.link w.path) } := by
  have hpub : ∀ i, w.Published { s with reader := Function.update s.reader r (s.fs.link w.path) } i →
      w.Published s i := by
    rintro i (hi | ⟨q, hq⟩)
    · exact Or.inl hi
    · simp only [Function.update_apply] at hq
      split at hq
      · exact Or.inl hq
      · exact Or.inr ⟨q, hq⟩
  exact { h with
    complete := fun i hi => h.complete i (hpub i hi)
    notTmp := fun i hi => h.notTmp i (hpub i hi)
    publishedInUse := fun i hi => h.publishedInUse i (hpub i hi) }

theorem Inv.step {a : WriteAction} (h : w.Inv s) (ha : Alone s a) (hst : w.step s a = some t) :
    w.Inv t := by
  cases a with
  | check p =>
      simp only [Writers.step] at hst
      split at hst
      · obtain rfl := Option.some.inj hst
        refine h.setPhase p ?_ ?_ <;> split <;> simp
      · cases hst
  | overwrite p =>
      simp only [Writers.step] at hst
      split at hst
      · obtain rfl := Option.some.inj hst
        exact h.setPhase p (by simp) (by simp)
      · cases hst
  | create p =>
      simp only [Writers.step] at hst
      split at hst
      · obtain rfl := Option.some.inj hst
        exact h.create p ha
      · cases hst
  | append p count =>
      simp only [Writers.step] at hst
      split at hst
      next fd offset hp =>
          split at hst
          next hlen =>
              obtain rfl := Option.some.inj hst
              exact h.append hp hlen
          next => cases hst
      next => cases hst
  | rename p =>
      simp only [Writers.step] at hst
      split at hst
      next fd offset hp =>
          split at hst
          next hlen =>
              subst hlen
              simp only [FileSystem.rename, (h.progress p fd _ hp).1, Option.map_some] at hst
              obtain rfl := Option.some.inj hst
              exact h.rename hp
          next => cases hst
      next => cases hst
  | crash p =>
      obtain rfl := Option.some.inj hst
      exact h.setPhase p (by simp) (by simp)
  | openFinal r =>
      obtain rfl := Option.some.inj hst
      exact h.openFinal r

/-! ## Runs -/

open Transition

/-- A process that opens the temporary file while another writes it has lost it by its own rename. -/
theorem Inv.failure (h : w.Inv s) {p : Pid} (hp : s.phase p = .writes) (ha : ¬ Alone s (.create p)) :
    ∃ as t, exec w.step s (.create p :: as) = some t ∧ t.phase p = .failed := by
  simp only [Alone, not_forall, Classical.not_not] at ha
  obtain ⟨q, fd, offset, hqp, hq⟩ := ha
  obtain ⟨htmp, _, hlen⟩ := h.progress q fd offset hq
  have hlen' : offset + ((w.bytes q).length - offset) = (w.bytes q).length := by omega
  have hrun : (exec w.step s [.create p, .append q ((w.bytes q).length - offset), .rename q,
      .append p (w.bytes p).length, .rename p]).map (fun t => t.phase p) = some .failed := by
    simp [exec, Writers.step, hp, FileSystem.create, htmp, hqp, Ne.symm hqp, hq, hlen',
      FileSystem.rename, FileSystem.move_link, w.tmp_ne_path]
  obtain ⟨t, ht, hfail⟩ := Option.map_eq_some_iff.mp hrun
  exact ⟨_, t, ht, hfail⟩

/-- In every run in which each process opens the temporary file while no other one is writing it,
what is published is complete and no writer fails. -/
theorem atomic_of_alone {as : List WriteAction} (hs : w.Start s)
    (hrun : Run (ofPartial w.step) Alone s as t) : w.Atomic t :=
  (hrun.invariant (fun _ _ _ h ha hst => h.step ha hst) hs.inv).toAtomic

/-- A frame that keeps the text as it is: the magic number and the raw bytes. -/
def rawFrame (text : String) : List UInt8 := 0x28 :: 0xb5 :: 0x2f :: 0xfd :: Encoding.utf8 text

/-- The processes of one derivation, whose fragment they all extract alike. -/
def oneDerivation : Writers where
  compress := rawFrame
  kind := .drv "a"
  lines _ := {Triple.addType (Iri.drv "a") (nix "Derivation")}

/-- Nothing is written yet. -/
def emptyStart : Processes where
  fs := ⟨fun _ => none, fun _ => [], 0⟩
  phase _ := .idle
  reader _ := none

theorem emptyStart_start (w : Writers) : w.Start emptyStart where
  idle _ := rfl
  noReader _ := rfl
  complete i hi := by cases hi
  inUse name i hi := by cases hi
  noHardLink i hi := by cases hi

/-- A process that writes while no other one does writes all of its fragment. -/
theorem run_writer (w : Writers) {s : Processes} {p : Pid} (hp : s.phase p = .writes)
    (halone : ∀ q fd offset, q ≠ p → s.phase q ≠ .writing fd offset) :
    ∃ t, Run (ofPartial w.step) Alone s [.create p, .append p (w.bytes p).length, .rename p] t ∧
      t.phase = Function.update s.phase p .done := by
  obtain ⟨fs, fd, hcreate⟩ : ∃ fs fd, s.fs.create w.tmp = (fs, fd) := ⟨_, _, rfl⟩
  have hlink : fs.link w.tmp = some fd := by
    have htmp := s.fs.create_link w.tmp
    rwa [hcreate] at htmp
  have hopen : w.step s (.create p) = some (setPhase { s with fs := fs } p (.writing fd 0)) := by
    simp only [step, hp, hcreate]
  have hwrite : w.step (setPhase { s with fs := fs } p (.writing fd 0)) (.append p (w.bytes p).length) =
      some (setPhase { s with fs := fs.pwrite fd 0 (w.bytes p) } p (.writing fd (w.bytes p).length)) := by
    simp [step, setPhase]
  have hpublish : w.step (setPhase { s with fs := fs.pwrite fd 0 (w.bytes p) } p (.writing fd (w.bytes p).length))
      (.rename p) = some (setPhase { s with fs := (fs.pwrite fd 0 (w.bytes p)).move w.tmp w.path fd } p .done) := by
    simp [step, setPhase, FileSystem.rename, hlink]
  exact ⟨_, .cons hopen halone (.cons hwrite trivial (.cons hpublish trivial .nil)), rfl⟩

/-- Two processes find no file. One writes and a reader opens its file before the other one writes. -/
theorem atomic_of_alone_oneDerivation :
    ∃ t, Run (ofPartial oneDerivation.step) Alone emptyStart ([.check 0, .check 1] ++
        ([.create 0, .append 0 (oneDerivation.bytes 0).length, .rename 0] ++ (.openFinal 2 ::
          [.create 1, .append 1 (oneDerivation.bytes 1).length, .rename 1]))) t ∧
      oneDerivation.Atomic t := by
  have hchecked : Run (ofPartial oneDerivation.step) Alone emptyStart [.check 0, .check 1]
      (setPhase (setPhase emptyStart 0 .writes) 1 .writes) := .cons rfl trivial (.cons rfl trivial .nil)
  have hidle : ∀ q fd offset, (setPhase (setPhase emptyStart 0 .writes) 1 .writes).phase q ≠ .writing fd offset := by
    intro q fd offset
    simp only [setPhase, emptyStart, Function.update_apply]
    split
    · simp
    · split <;> simp
  obtain ⟨s, hfirst, hs⟩ :=
    run_writer oneDerivation (s := setPhase (setPhase emptyStart 0 .writes) 1 .writes) (p := 0) rfl
    fun q fd offset _ => hidle q fd offset
  obtain ⟨t, hsecond, _⟩ := run_writer oneDerivation (p := 1)
    (s := { s with reader := Function.update s.reader 2 (s.fs.link oneDerivation.path) }) (by rw [hs]; rfl)
      fun q fd offset hq => by
      show s.phase q ≠ _
      rw [hs, Function.update_apply]
      split
      · simp
      · exact hidle q fd offset
  have hopened : ofPartial oneDerivation.step s (.openFinal 2)
      { s with reader := Function.update s.reader 2 (s.fs.link oneDerivation.path) } := rfl
  have hrun := hchecked.append (hfirst.append (.cons hopened trivial hsecond))
  exact ⟨t, hrun, atomic_of_alone (emptyStart_start _) hrun⟩

/-- Two processes find no file; the second one truncates the file that the first one publishes. -/
theorem torn (w : Writers) :
    (exec w.step emptyStart [.check 0, .check 1, .create 0, .append 0 (w.bytes 0).length, .create 1,
      .rename 0]).map (fun t => (t.fs.link w.path, t.fs.data 0)) = some (some 0, []) := by
  simp [exec, Writers.step, emptyStart, FileSystem.create, FileSystem.allocate_link,
    FileSystem.rename, FileSystem.move_link, FileSystem.truncate_data]

theorem half_written_visible :
    ¬ ∀ (w : Writers) (s t : Processes) (as : List WriteAction), w.Start s →
      Run (ofPartial w.step) free s as t → w.Atomic t := by
  intro hclaim
  obtain ⟨t, ht, hfs⟩ := Option.map_eq_some_iff.mp (torn oneDerivation)
  obtain ⟨hlink, hdata⟩ := Prod.mk.inj hfs
  obtain ⟨p, hp⟩ := (hclaim _ _ _ _ (emptyStart_start _) (Run.of_exec ht)).complete 0 (Or.inl hlink)
  rw [hdata] at hp
  cases hp

end Writers

end Nix2Rdf
