import Nix2Rdf.Extract.Jobs
import Nix2Rdf.DrvSyntax
import Nix2Rdf.Lib.Worklist

/-!
# The derivation graph, read in two ways

`.drv` files are read along their input derivations until nothing new is left, or Nix is asked for
the graph in batches. Both give what can be reached from the roots.
-/

namespace Nix2Rdf

namespace DrvFile

/-! ## Reading files -/

/-- The `.drv` files that exist, with their bytes. -/
abbrev Files := BTreeMap (List UInt8)

def readDrvFile (files : Files) (path : String) : Outcome DrvInfo :=
  match files[path]? with
  | none => .error (.error ("io error at " ++ path ++ ": No such file or directory (os error 2)"))
  | some bytes =>
      match Encoding.ofUtf8 bytes with
      | none => .error (.error ("io error at " ++ path ++ ": stream did not contain valid UTF-8"))
      | some text => parseDrv path text

/-- The loop of `readLoop`, where a panic of the parser is not an error. -/
def closureLoop (files : Files) : Nat → List String → BTreeMap DrvInfo → Outcome (BTreeMap DrvInfo)
  | 0, _, _ => .error .turns
  | _ + 1, [], out => .ok out
  | turns + 1, p :: stack, out =>
      if out.contains p then closureLoop files turns stack out
      else do
        let d ← readDrvFile files p
        let deps := d.inputDrvs.keys.filter fun dep => !out.contains dep
        closureLoop files turns (deps.reverse ++ stack) (out.insert p d)

def closure (files : Files) (turns : Nat) (roots : List String) : Outcome (BTreeMap DrvInfo) :=
  closureLoop files turns roots.reverse ∅

/-- What the process says before it ends without a result. -/
def Fault.text : Fault → String
  | .error message => message
  | .panic => "index out of bounds"
  | .turns => "out of turns"

def Outcome.told {α : Type} : Outcome α → Result α
  | .ok a => .ok a
  | .error e => .error e.text

theorem Outcome.told_eq_ok {α : Type} {o : Outcome α} {a : α} : o.told = .ok a ↔ o = .ok a := by
  cases o <;> simp [told]

/-- The reader of files is the one that the revision is read with. -/
theorem readClosure_told (files : Files) (turns : Nat) (roots : List String) :
    readClosure (fun p => (readDrvFile files p).told) turns roots = (closure files turns roots).told := by
  rw [readClosure, closure]
  generalize roots.reverse = stack
  generalize (∅ : BTreeMap DrvInfo) = out
  induction turns generalizing stack out with
  | zero => rfl
  | succ turns ih =>
      cases stack with
      | nil => rfl
      | cons p stack =>
          rw [readLoop, closureLoop]
          split
          · exact ih stack out
          · cases readDrvFile files p with
            | error e => rfl
            | ok d => exact ih _ _

/-- No file keeps the parser from ending. -/
theorem readDrvFile_ne_turns (files : Files) (p : String) : readDrvFile files p ≠ .error .turns := by
  intro h
  unfold readDrvFile at h
  split at h
  · cases h
  · split at h
    · cases h
    · rename_i text _
      rcases parseDrv_cases p text with ⟨f, bs, rest, htext, hspells⟩ | ⟨m, hm⟩
      · rw [parseDrv_of_spelled htext hspells] at h
        rcases readFields_judged (drvName p) f with ⟨_, _, d, hd⟩ | ⟨_, _, hp⟩ | ⟨_, _, m, hm⟩
        · cases hd.symm.trans h
        · cases hp.symm.trans h
        · cases hm.symm.trans h
      · cases hm.symm.trans h

/-! ## What can be reached -/

section
variable (files : Files)

/-- Reached from the roots, along input derivations of files that can be read. -/
inductive Reach (roots : List String) : String → Prop
  | root {p : String} : p ∈ roots → Reach roots p
  | next {p dep : String} {d : DrvInfo} : Reach roots p → readDrvFile files p = .ok d → dep ∈ d.inputDrvs →
      Reach roots dep

/-- The derivations that can be reached, each as its own file has it. -/
structure IsClosure (roots : List String) (m : BTreeMap DrvInfo) : Prop where
  readable : ∀ p, Reach files roots p → ∃ d, readDrvFile files p = .ok d
  entry : ∀ (p : String) (d : DrvInfo), m[p]? = some d ↔ Reach files roots p ∧ readDrvFile files p = .ok d

/-- Missing, or not a derivation that the parser reads. -/
def Unreadable (p : String) : Prop := ¬ ∃ d, readDrvFile files p = .ok d

end

section
variable {files : Files} {roots roots' : List String} {p : String} {m m' : BTreeMap DrvInfo}

theorem Reach.imp (h : ∀ p ∈ roots, Reach files roots' p) (hp : Reach files roots p) : Reach files roots' p := by
  induction hp with
  | root hp => exact h _ hp
  | next _ hd hdep ih => exact .next ih hd hdep

theorem reach_append : Reach files (roots ++ roots') p ↔ Reach files roots p ∨ Reach files roots' p := by
  constructor
  · intro h
    induction h with
    | root hp => exact (List.mem_append.mp hp).imp .root .root
    | next _ hd hdep ih => exact ih.imp (.next · hd hdep) (.next · hd hdep)
  · intro h
    rcases h with h | h
    · exact h.imp fun q hq => .root (List.mem_append_left _ hq)
    · exact h.imp fun q hq => .root (List.mem_append_right _ hq)

theorem reach_congr (h : ∀ p, p ∈ roots ↔ p ∈ roots') : Reach files roots p ↔ Reach files roots' p :=
  ⟨Reach.imp fun q hq => .root ((h q).mp hq), Reach.imp fun q hq => .root ((h q).mpr hq)⟩

theorem IsClosure.congr (h : ∀ p, p ∈ roots ↔ p ∈ roots') (hm : IsClosure files roots m) :
    IsClosure files roots' m where
  readable p hp := hm.readable p ((reach_congr h).mpr hp)
  entry p d := by rw [hm.entry, reach_congr h]

theorem IsClosure.unique (h : IsClosure files roots m) (h' : IsClosure files roots m') : m = m' := by
  apply Std.ExtTreeMap.ext_getElem?
  intro p
  apply Option.ext
  intro d
  rw [h.entry, h'.entry]

end

/-! ## The loop is a search -/

/-- The input derivations of a file. -/
def depsOf (files : Files) (p : String) : List String :=
  match readDrvFile files p with
  | .ok d => d.inputDrvs.keys
  | .error _ => []

/-- The files as a graph to be searched. -/
def graph (files : Files) : Worklist.Graph String String DrvInfo Fault where
  key p := p
  expand p := (readDrvFile files p).map fun d => some (d, d.inputDrvs.keys)
  nodes := (files.keys.flatMap (depsOf files)).toFinset
  next_mem := by
    intro p d next h n hn
    cases hread : readDrvFile files p with
    | error e =>
        rw [hread] at h
        cases h
    | ok d' =>
        rw [hread] at h
        cases h
        have hfile : p ∈ files := by
          by_contra hno
          rw [readDrvFile, Std.ExtTreeMap.getElem?_eq_none hno] at hread
          cases hread
        rw [List.mem_toFinset, List.mem_flatMap]
        refine ⟨p, Std.ExtTreeMap.mem_keys.mpr hfile, ?_⟩
        rw [depsOf, hread]
        exact hn

section
variable {files : Files} {roots : List String} {p : String} {d : DrvInfo}

theorem expand_eq : (graph files).expand p = (readDrvFile files p).map fun d => some (d, d.inputDrvs.keys) := rfl

theorem expand_eq_ok {next : List String} : (graph files).expand p = .ok (some (d, next)) ↔
    readDrvFile files p = .ok d ∧ next = d.inputDrvs.keys := by
  rw [expand_eq]
  cases readDrvFile files p with
  | error e => simp [Except.map]
  | ok d' =>
      simp only [Except.map, Except.ok.injEq, Option.some.injEq, Prod.mk.injEq]
      constructor
      · intro h
        exact ⟨h.1, h.1 ▸ h.2.symm⟩
      · intro h
        exact ⟨h.1, h.1 ▸ h.2.symm⟩

theorem expand_eq_error {e : Fault} : (graph files).expand p = .error e ↔ readDrvFile files p = .error e := by
  rw [expand_eq]
  cases readDrvFile files p <;> simp [Except.map]

theorem expand_ne_none : (graph files).expand p ≠ .ok none := by
  rw [expand_eq]
  cases readDrvFile files p <;> simp [Except.map]

theorem graph_reach : (graph files).Reach roots p ↔ Reach files roots p := by
  constructor
  · intro h
    induction h with
    | root hp => exact .root hp
    | next _ hexp hn ih =>
        obtain ⟨hread, rfl⟩ := expand_eq_ok.mp hexp
        exact .next ih hread (Std.ExtTreeMap.mem_keys.mp hn)
  · intro h
    induction h with
    | root hp => exact .root hp
    | next _ hread hdep ih =>
        exact .next ih (expand_eq_ok.mpr ⟨hread, rfl⟩) (Std.ExtTreeMap.mem_keys.mpr hdep)

theorem graph_coherent : (graph files).Coherent roots := Worklist.Graph.coherent_of_injective fun _ _ heq => heq

/-- What the loop has read is what the search has seen. -/
structure Tracks (s : Worklist.State String String DrvInfo) (stack : List String)
    (out : BTreeMap DrvInfo) : Prop where
  seen : ∀ p, p ∈ out ↔ p ∈ s.seen
  found : ∀ (p : String) (d : DrvInfo), out[p]? = some d ↔ (p, d) ∈ s.found
  /-- The loop may keep what it will skip. -/
  stack : s.stack.filter (· ∉ s.seen) = stack.filter (· ∉ s.seen)

/-- The loop ends, and as the search does. -/
def EndsAs (files : Files) (stack : List String) (out : BTreeMap DrvInfo)
    (r : Except Fault (Worklist.State String String DrvInfo)) : Prop :=
  ∃ turns o, (∀ n, turns ≤ n → closureLoop files n stack out = o) ∧ (∀ e, r = .error e → o = .error e) ∧
    ∀ t, r = .ok t → ∃ m, o = .ok m ∧ ∀ (p : String) (d : DrvInfo), m[p]? = some d ↔ (p, d) ∈ t.found

variable {stack skipped : List String} {out : BTreeMap DrvInfo}
  {r : Except Fault (Worklist.State String String DrvInfo)}

/-- One more turn, whatever it does. -/
theorem EndsAs.turn {stack' : List String} {out' : BTreeMap DrvInfo} (h : EndsAs files stack' out' r)
    (hturn : ∀ n, closureLoop files (n + 1) stack out = closureLoop files n stack' out') :
    EndsAs files stack out r := by
  obtain ⟨turns, o, hends, hrest⟩ := h
  refine ⟨turns + 1, o, fun n hn => ?_, hrest⟩
  obtain ⟨k, rfl⟩ : ∃ k, n = k + 1 := ⟨n - 1, by omega⟩
  rw [hturn]
  exact hends k (by omega)

theorem closureLoop_skip (hp : p ∈ out) (n : Nat) :
    closureLoop files (n + 1) (p :: stack) out = closureLoop files n stack out := by
  rw [closureLoop, if_pos (Std.ExtTreeMap.mem_iff_contains.mp hp)]

theorem closureLoop_visit (hp : p ∉ out) (n : Nat) : closureLoop files (n + 1) (p :: stack) out =
    (readDrvFile files p).bind fun d =>
      closureLoop files n ((d.inputDrvs.keys.filter fun dep => !out.contains dep).reverse ++ stack)
        (out.insert p d) := by
  rw [closureLoop, if_neg (fun h => hp (Std.ExtTreeMap.mem_iff_contains.mpr h))]
  rfl

theorem EndsAs.skip (hskip : ∀ p ∈ skipped, p ∈ out) (h : EndsAs files stack out r) :
    EndsAs files (skipped ++ stack) out r := by
  induction skipped with
  | nil => exact h
  | cons p skipped ih =>
      have hrest : EndsAs files (skipped ++ stack) out r := ih fun q hq => hskip q (List.mem_cons_of_mem _ hq)
      exact hrest.turn (closureLoop_skip (hskip p List.mem_cons_self))

/-- A loop that has nothing new to read ends. -/
theorem endsAs_done {s : Worklist.State String String DrvInfo} (h : Tracks s stack out)
    (hstack : stack.filter (· ∉ s.seen) = []) : EndsAs files stack out (.ok s) := by
  have hskip : ∀ p ∈ stack, p ∈ out := by
    intro p hp
    rw [h.seen]
    by_contra hno
    have hmem : p ∈ stack.filter (· ∉ s.seen) := List.mem_filter.mpr ⟨hp, decide_eq_true hno⟩
    rw [hstack] at hmem
    cases hmem
  have hend : EndsAs files [] out (.ok s) := by
    refine ⟨1, .ok out, fun n hn => ?_, fun e he => (nomatch he), fun t ht => ?_⟩
    · obtain ⟨k, rfl⟩ : ∃ k, n = k + 1 := ⟨n - 1, by omega⟩
      rfl
    · cases ht
      exact ⟨out, rfl, h.found⟩
  have h' := hend.skip hskip
  rwa [List.append_nil] at h'

/-- The next node that is new to the search is the next one that the loop reads. -/
theorem Tracks.split {s : Worklist.State String String DrvInfo} {a : String} {rest : List String}
    (h : Tracks s stack out)
    (hs : s.stack = a :: rest) (ha : a ∉ s.seen) : ∃ skipped stack', stack = skipped ++ a :: stack' ∧
      (∀ p ∈ skipped, p ∈ out) ∧ a ∉ out ∧ rest.filter (· ∉ s.seen) = stack'.filter (· ∉ s.seen) := by
  have hstack := h.stack
  rw [hs, List.filter_cons, if_pos (decide_eq_true ha)] at hstack
  obtain ⟨skipped, stack', rfl, hskipped, _, hrest⟩ := List.filter_eq_cons_iff.mp hstack.symm
  refine ⟨skipped, stack', rfl, fun p hp => ?_, fun hin => ha ((h.seen a).mp hin), hrest.symm⟩
  rw [h.seen]
  by_contra hno
  exact hskipped p hp (decide_eq_true hno)

/-- What is pushed is what was not seen. -/
theorem filter_new {seen deps : List String} (h : ∀ p, p ∈ out ↔ p ∈ seen) :
    (deps.filter fun dep => !out.contains dep) = deps.filter (· ∉ seen) := by
  refine List.filter_congr fun dep _ => ?_
  rw [Bool.eq_iff_iff, Bool.not_eq_true', ← Bool.not_eq_true, ← Std.ExtTreeMap.mem_iff_contains, h, decide_eq_true_eq]

theorem mem_insert_seen {seen : List String} {p : String} {d : DrvInfo} (h : ∀ p, p ∈ out ↔ p ∈ seen) :
    ∀ q, q ∈ out.insert p d ↔ q ∈ p :: seen := by
  intro q
  rw [Std.ExtTreeMap.mem_insert, List.mem_cons, ← h, compare_eq_iff_eq, eq_comm]

theorem mem_start (p : String) : p ∈ (∅ : BTreeMap DrvInfo) ↔ p ∈ ([] : List String) := by simp

/-- What a turn of the loop that reads a file leaves is what a turn of the search leaves. -/
theorem Tracks.visited {s : Worklist.State String String DrvInfo} {a : String} {rest stack' : List String}
    (h : Tracks s stack out) (ha : a ∉ s.seen)
    (hrest : rest.filter (· ∉ s.seen) = stack'.filter (· ∉ s.seen)) :
    Tracks ⟨(d.inputDrvs.keys.filter (· ∉ a :: s.seen)).reverse ++ rest, a :: s.seen, s.found ++ [(a, d)]⟩
      ((d.inputDrvs.keys.filter fun dep => !out.contains dep).reverse ++ stack') (out.insert a d) where
  seen := mem_insert_seen h.seen
  found p d' := by
    rw [List.mem_append, ← h.found, Std.ExtTreeMap.getElem?_insert, List.mem_singleton]
    split
    · rename_i heq
      cases compare_eq_iff_eq.mp heq
      constructor
      · intro hd
        cases hd
        exact .inr rfl
      · intro hd
        rcases hd with hd | hd
        · exact absurd ((h.seen a).mp (Std.ExtTreeMap.mem_iff_isSome_getElem?.mpr (by rw [hd]; rfl))) ha
        · cases hd
          rfl
    · rename_i hne
      refine ⟨.inl, fun hd => hd.resolve_right fun heq => ?_⟩
      cases heq
      exact hne (compare_eq_iff_eq.mpr rfl)
  stack := by
    have hnew : ∀ l : List String, l.filter (· ∉ a :: s.seen) = (l.filter (· ∉ s.seen)).filter (· ≠ a) := by
      intro l
      rw [List.filter_filter]
      apply List.filter_congr
      intro p _
      rw [Bool.eq_iff_iff]
      simp only [List.mem_cons, not_or, decide_not, Bool.and_eq_true, Bool.not_eq_true', decide_eq_false_iff_not,
        decide_eq_true_eq]
    simp only [List.filter_append, List.filter_reverse, hnew, hrest, filter_new h.seen, List.filter_filter,
      Bool.and_self]
    congr 2
    apply List.filter_congr
    intro p _
    cases decide (p ≠ a) <;> simp

theorem endsAs_run {s : Worklist.State String String DrvInfo} (h : Tracks s stack out) :
    EndsAs files stack out ((graph files).run s) := by
  induction s using Worklist.Graph.run.induct (graph files) generalizing stack out with
  | case1 s hnil =>
      rw [Worklist.Graph.run_nil hnil]
      refine endsAs_done h ?_
      rw [← h.stack, hnil]
      rfl
  | case2 s a rest hcons e hv =>
      obtain ⟨hnew, hexp⟩ := Worklist.Graph.visit_eq_error hv
      obtain ⟨skipped, stack', rfl, hskipped, hout, _⟩ := h.split hcons hnew
      rw [Worklist.Graph.run_cons hcons, hv]
      refine EndsAs.skip hskipped ⟨1, .error e, fun n hn => ?_, fun e' he => ?_, fun t ht => by cases ht⟩
      · obtain ⟨k, rfl⟩ : ∃ k, n = k + 1 := ⟨n - 1, by omega⟩
        rw [closureLoop_visit hout, expand_eq_error.mp hexp]
        rfl
      · cases he
        rfl
  | case3 s a rest hcons t hv ih =>
      rw [Worklist.Graph.run_visit hcons hv]
      rcases Worklist.Graph.visit_cases hv with ⟨hseen, rfl⟩ | ⟨_, hexp, _⟩ | ⟨hnew, d, next, hexp, rfl⟩
      · refine ih ⟨h.seen, h.found, ?_⟩
        have hseen' : a ∈ s.seen := hseen
        rw [← h.stack, hcons, List.filter_cons, if_neg (by simpa using hseen')]
      · exact absurd hexp expand_ne_none
      · obtain ⟨hread, rfl⟩ := expand_eq_ok.mp hexp
        obtain ⟨skipped, stack', rfl, hskipped, hout, hrest⟩ := h.split hcons hnew
        refine EndsAs.skip hskipped ((ih (h.visited hnew hrest)).turn fun n => ?_)
        rw [closureLoop_visit hout, hread]
        rfl

/-- However the files refer to each other, reading them ends: with what can be reached, or with the
failure of a file that can be. -/
theorem closure_ends (files : Files) (roots : List String) : ∃ turns o,
    (∀ n, turns ≤ n → closure files n roots = o) ∧ (∀ m, o = .ok m → IsClosure files roots m) ∧
      ∀ e, o = .error e → ∃ p, Reach files roots p ∧ readDrvFile files p = .error e := by
  have htracks : Tracks { stack := roots.reverse } roots.reverse ∅ := by
    refine ⟨fun p => ?_, fun p d => ?_, rfl⟩ <;> simp
  obtain ⟨turns, o, hends, herr, hok⟩ := @endsAs_run files _ _ _ htracks
  have hroots : ∀ p, p ∈ roots.reverse ↔ p ∈ roots := fun p => List.mem_reverse
  refine ⟨turns, o, hends, fun m hm => ?_, fun e he => ?_⟩
  · cases hrun : (graph files).run { stack := roots.reverse } with
    | error e => cases (herr e hrun).symm.trans hm
    | ok t =>
        obtain ⟨m', hm', hfound⟩ := hok t hrun
        cases hm'.symm.trans hm
        have hsearch : (graph files).search roots.reverse = .ok t.found := by
          rw [Worklist.Graph.search, hrun]
          rfl
        refine IsClosure.congr hroots ⟨fun p hp => ?_, fun p d => ?_⟩
        · obtain ⟨r, hr⟩ := (Worklist.Graph.search_succeeds_iff graph_coherent).mp ⟨_, hsearch⟩ p (graph_reach.mpr hp)
          cases r with
          | none => exact absurd hr expand_ne_none
          | some r => exact ⟨r.1, (expand_eq_ok.mp hr).1⟩
        · rw [hfound, Worklist.Graph.mem_search (fun _ _ heq => heq) hsearch, graph_reach]
          refine and_congr_right fun _ => ⟨fun h => ?_, fun h => ⟨_, expand_eq_ok.mpr ⟨h, rfl⟩⟩⟩
          obtain ⟨next, hexp⟩ := h
          exact (expand_eq_ok.mp hexp).1
  · cases hrun : (graph files).run { stack := roots.reverse } with
    | ok t =>
        obtain ⟨m, hm, _⟩ := hok t hrun
        cases hm.symm.trans he
    | error e' =>
        cases (herr e' hrun).symm.trans he
        have hsearch : (graph files).search roots.reverse = .error e := by
          rw [Worklist.Graph.search, hrun]
          rfl
        obtain ⟨p, hp, hexp⟩ := Worklist.Graph.search_eq_error hsearch
        exact ⟨p, (reach_congr hroots).mp (graph_reach.mp hp), expand_eq_error.mp hexp⟩

theorem exists_closure (h : ∀ p, Reach files roots p → ∃ d, readDrvFile files p = .ok d) :
    ∃ m, IsClosure files roots m := by
  obtain ⟨_, o, _, hok, herr⟩ := closure_ends files roots
  cases o with
  | ok m => exact ⟨m, hok m rfl⟩
  | error e =>
      obtain ⟨p, hp, he⟩ := herr e rfl
      obtain ⟨d, hd⟩ := h p hp
      cases hd.symm.trans he

end

/-! ## Batches -/

section
variable {files : Files} {src : NixSource} {batch : List String} {all m shown : BTreeMap DrvInfo}

/-- `nix derivation show -r` shows what can be reached, and fails where that is not to be had. -/
def ShowsReachable (files : Files) (src : NixSource) : Prop :=
  ∀ batch m, src.derivationShow batch true = .ok m ↔ IsClosure files batch m

/-- What is shown for one batch is added. -/
def showBatch (src : NixSource) (all : BTreeMap DrvInfo) (batch : List String) : Result (BTreeMap DrvInfo) := do
  let m ← src.derivationShow batch true
  return all.insertMany m.toList

/-- The union over batches. -/
def showBatches (src : NixSource) (batches : List (List String)) : Result (BTreeMap DrvInfo) :=
  batches.foldlM (showBatch src) ∅

theorem getElem?_insertMany_toList (p : String) : (all.insertMany shown.toList)[p]? = (shown[p]?).or all[p]? := by
  cases hp : shown[p]? with
  | some d =>
      rw [Std.ExtTreeMap.getElem?_insertMany_list_of_mem Std.ReflCmp.compare_self
        Std.ExtTreeMap.distinct_keys_toList (Std.ExtTreeMap.mem_toList_iff_getElem?_eq_some.mpr hp)]
      rfl
  | none =>
      rw [Std.ExtTreeMap.getElem?_insertMany_list_of_contains_eq_false]
      · rfl
      · rw [Std.ExtTreeMap.map_fst_toList_eq_keys, List.contains_eq_mem, decide_eq_false_iff_not,
          Std.ExtTreeMap.mem_keys]
        intro hin
        rw [Std.ExtTreeMap.mem_iff_isSome_getElem?, hp] at hin
        cases hin

theorem IsClosure.union {done : List String} (hall : IsClosure files done all)
    (hshown : IsClosure files batch shown) : IsClosure files (done ++ batch) (all.insertMany shown.toList) where
  readable p hp := (reach_append.mp hp).elim (hall.readable p) (hshown.readable p)
  entry p d := by
    rw [getElem?_insertMany_toList, reach_append]
    cases hp : shown[p]? with
    | some d' =>
        obtain ⟨hreach, hd'⟩ := (hshown.entry p d').mp hp
        rw [Option.some_or, Option.some.injEq, hd', Except.ok.injEq]
        exact ⟨fun h => ⟨.inr hreach, h⟩, fun h => h.2⟩
    | none =>
        rw [Option.none_or, hall.entry]
        refine ⟨fun h => ⟨.inl h.1, h.2⟩, fun h => ⟨h.1.resolve_right fun hb => ?_, h.2⟩⟩
        cases hp.symm.trans ((hshown.entry p d).mpr ⟨hb, h.2⟩)

theorem showBatches_from (hsrc : ShowsReachable files src) {batches : List (List String)} {done : List String}
    (hall : IsClosure files done all) :
    batches.foldlM (showBatch src) all = .ok m ↔ IsClosure files (done ++ batches.flatten) m := by
  induction batches generalizing all done with
  | nil =>
      rw [List.foldlM_nil, Result.pure_eq_ok, List.flatten_nil, List.append_nil]
      constructor
      · intro h
        exact h ▸ hall
      · exact hall.unique
  | cons batch batches ih =>
      rw [List.foldlM_cons, Result.bind_eq_ok, List.flatten_cons, ← List.append_assoc]
      constructor
      · intro h
        obtain ⟨all', hshow, h⟩ := h
        obtain ⟨shown, hshown, hall'⟩ := Result.bind_eq_ok.mp hshow
        cases Result.pure_eq_ok.mp hall'
        exact (ih (hall.union ((hsrc batch shown).mp hshown))).mp h
      · intro h
        obtain ⟨shown, hshown⟩ := exists_closure fun p hp =>
          h.readable p (reach_append.mpr (.inl (reach_append.mpr (.inr hp))))
        refine ⟨all.insertMany shown.toList, ?_, (ih (hall.union hshown)).mpr h⟩
        exact Result.bind_eq_ok.mpr ⟨shown, (hsrc batch shown).mpr hshown, rfl⟩

/-- The union over batches is what can be reached from all of them. -/
theorem showBatches_eq_ok (hsrc : ShowsReachable files src) {batches : List (List String)} :
    showBatches src batches = .ok m ↔ IsClosure files batches.flatten m := by
  have hnone : ∀ p, ¬ Reach files [] p := by
    intro p hp
    induction hp with
    | root hp => cases hp
    | next _ _ _ ih => exact ih
  have hempty : IsClosure files [] ∅ := by
    refine ⟨fun p hp => absurd hp (hnone p), fun p d => ?_⟩
    rw [Std.ExtTreeMap.getElem?_empty]
    exact ⟨fun h => (nomatch h), fun h => absurd h.1 (hnone p)⟩
  exact showBatches_from hsrc hempty

end

/-! ## The readers agree -/

/-- Reading the files ends, with exactly what can be reached, or with an error exactly when a file that
can be reached is missing or not to be parsed. Nix gives the same for any batches of the roots, and for
batches of 200. -/
def ReadersAgree (files : Files) (roots : List String) : Prop :=
  ∃ turns o, (∀ n, turns ≤ n → closure files n roots = o) ∧
    (∀ m, o = .ok m ↔ IsClosure files roots m) ∧
    ((∃ message, o = .error (.error message)) ↔ ∃ p, Reach files roots p ∧ Unreadable files p) ∧
    ∀ src, ShowsReachable files src →
      (∀ batches : List (List String), (∀ p, p ∈ batches.flatten ↔ p ∈ roots) →
        ∀ m, showBatches src batches = .ok m ↔ o = .ok m) ∧
      ∀ (opts : EvalOptions) (n : Nat) (m : BTreeMap DrvInfo), turns ≤ n →
        (Nixpkgs.readGraph src (fun p => (readDrvFile files p).told) n { opts with drvFiles := false } roots = .ok m ↔
          Nixpkgs.readGraph src (fun p => (readDrvFile files p).told) n { opts with drvFiles := true } roots = .ok m)

/-- The first file that cannot be read, in the order of the loop: the last of the roots comes first, and what a file
needs comes before all else, again the last first. -/
inductive FirstUnreadable (files : Files) : List String → List String → String → Prop
  | skip {p q : String} {stack seen : List String} : p ∈ seen → FirstUnreadable files stack seen q →
      FirstUnreadable files (p :: stack) seen q
  | here {p : String} {stack seen : List String} : p ∉ seen → Unreadable files p →
    FirstUnreadable files (p :: stack) seen p
  | next {p q : String} {d : DrvInfo} {stack seen : List String} : p ∉ seen → readDrvFile files p = .ok d →
      FirstUnreadable files ((d.inputDrvs.keys.filter (· ∉ seen)).reverse ++ stack) (p :: seen) q →
      FirstUnreadable files (p :: stack) seen q

section
variable {files : Files} {roots stack seen : List String} {p : String} {out : BTreeMap DrvInfo}

theorem FirstUnreadable.reach (h : FirstUnreadable files stack seen p) (hstack : ∀ q ∈ stack, Reach files roots q) :
    Reach files roots p ∧ Unreadable files p := by
  induction h with
  | skip _ _ ih => exact ih fun q hq => hstack q (List.mem_cons_of_mem _ hq)
  | here _ hno => exact ⟨hstack _ List.mem_cons_self, hno⟩
  | next _ hread _ ih =>
      refine ih fun q hq => ?_
      rcases List.mem_append.mp hq with hq | hq
      · have hdep := (List.mem_filter.mp (List.mem_reverse.mp hq)).1
        exact .next (hstack _ List.mem_cons_self) hread (Std.ExtTreeMap.mem_keys.mp hdep)
      · exact hstack q (List.mem_cons_of_mem _ hq)

/-- The loop ends as the reading of that file does. -/
theorem FirstUnreadable.ends (h : FirstUnreadable files stack seen p) {e : Fault}
    (he : readDrvFile files p = .error e)
    (hout : ∀ p, p ∈ out ↔ p ∈ seen) : ∃ turns, ∀ n, turns ≤ n → closureLoop files n stack out = .error e := by
  have hturn : ∀ {stack stack' : List String} {out out' : BTreeMap DrvInfo},
      (∃ turns, ∀ n, turns ≤ n → closureLoop files n stack' out' = .error e) →
      (∀ n, closureLoop files (n + 1) stack out = closureLoop files n stack' out') →
      ∃ turns, ∀ n, turns ≤ n → closureLoop files n stack out = .error e := by
    rintro stack stack' out out' ⟨turns, hends⟩ hone
    refine ⟨turns + 1, fun n hn => ?_⟩
    obtain ⟨k, rfl⟩ : ∃ k, n = k + 1 := ⟨n - 1, by omega⟩
    rw [hone, hends k (by omega)]
  induction h generalizing out with
  | skip hseen _ ih => exact hturn (ih he hout) (closureLoop_skip ((hout _).mpr hseen))
  | here hnew _ =>
      refine ⟨1, fun n hn => ?_⟩
      obtain ⟨k, rfl⟩ : ∃ k, n = k + 1 := ⟨n - 1, by omega⟩
      rw [closureLoop_visit fun hin => hnew ((hout _).mp hin), he]
      rfl
  | @next p q d stack seen hnew hread _ ih =>
      refine hturn (ih he (mem_insert_seen (d := d) hout)) fun n => ?_
      rw [closureLoop_visit fun hin => hnew ((hout _).mp hin), hread, ← filter_new hout]
      rfl

/-- A loop that fails has met such a file. -/
theorem firstUnreadable_of_error {turns : Nat} {e : Fault} (h : closureLoop files turns stack out = .error e)
    (hturns : e ≠ .turns) (hout : ∀ p, p ∈ out ↔ p ∈ seen) :
    ∃ p, FirstUnreadable files stack seen p ∧ readDrvFile files p = .error e := by
  induction turns generalizing stack seen out with
  | zero =>
      cases h
      exact absurd rfl hturns
  | succ turns ih =>
      cases stack with
      | nil => cases h
      | cons p stack =>
          by_cases hp : p ∈ out
          · rw [closureLoop_skip hp] at h
            obtain ⟨q, hq, he⟩ := ih h hout
            exact ⟨q, .skip ((hout p).mp hp) hq, he⟩
          · rw [closureLoop_visit hp] at h
            cases hread : readDrvFile files p with
            | error e' =>
                rw [hread] at h
                cases h
                refine ⟨p, .here (fun hin => hp ((hout p).mpr hin)) fun hd => ?_, hread⟩
                obtain ⟨d, hd⟩ := hd
                cases hread.symm.trans hd
            | ok d =>
                rw [hread, Except.bind, filter_new hout] at h
                obtain ⟨q, hq, he⟩ := ih h (mem_insert_seen (d := d) hout)
                exact ⟨q, .next (fun hin => hp ((hout p).mpr hin)) hread hq, he⟩

theorem readersAgree_of_no_panic
    (h : ∀ p, FirstUnreadable files roots.reverse [] p → readDrvFile files p ≠ .error .panic) :
    ReadersAgree files roots := by
  obtain ⟨turns, o, hends, hok, herr⟩ := closure_ends files roots
  have hiff : ∀ m, o = .ok m ↔ IsClosure files roots m := by
    refine fun m => ⟨hok m, fun hm => ?_⟩
    cases o with
    | ok m' => rw [(hok m' rfl).unique hm]
    | error e =>
        obtain ⟨p, hp, he⟩ := herr e rfl
        obtain ⟨d, hd⟩ := hm.readable p hp
        cases hd.symm.trans he
  have hbatches : ∀ {src : NixSource}, ShowsReachable files src → ∀ batches : List (List String),
      (∀ p, p ∈ batches.flatten ↔ p ∈ roots) → ∀ m, showBatches src batches = .ok m ↔ o = .ok m := by
    intro src hsrc batches hcover m
    rw [showBatches_eq_ok hsrc, hiff]
    exact ⟨.congr hcover, .congr fun p => (hcover p).symm⟩
  refine ⟨turns, o, hends, hiff, ⟨fun hm => ?_, fun hp => ?_⟩, fun src hsrc => ⟨hbatches hsrc, fun opts n m hn => ?_⟩⟩
  · obtain ⟨message, hm⟩ := hm
    obtain ⟨p, hp, he⟩ := herr _ hm
    refine ⟨p, hp, fun hd => ?_⟩
    obtain ⟨d, hd⟩ := hd
    cases hd.symm.trans he
  · obtain ⟨p, hp, hno⟩ := hp
    cases o with
    | ok m => exact absurd ((hok m rfl).readable p hp) hno
    | error e =>
        obtain ⟨q, hq, he⟩ := herr e rfl
        cases e with
        | error message => exact ⟨message, rfl⟩
        | panic =>
            obtain ⟨r, hr, hpanic⟩ := firstUnreadable_of_error (hends turns le_rfl) (by simp) mem_start
            exact absurd hpanic (h r hr)
        | turns => exact absurd he (readDrvFile_ne_turns files q)
  · have hcover : ∀ p, p ∈ (roots.toChunks 200).flatten ↔ p ∈ roots := by
      intro p
      rw [Nixpkgs.flatten_toChunks]
    have hcli := hbatches hsrc (roots.toChunks 200) hcover m
    rw [← hends n hn, ← Outcome.told_eq_ok, ← readClosure_told] at hcli
    exact hcli

theorem not_readersAgree_of_panic (hfirst : FirstUnreadable files roots.reverse [] p)
    (h : readDrvFile files p = .error .panic) : ¬ ReadersAgree files roots := by
  intro hagree
  obtain ⟨turns, o, hends, _, herr, _⟩ := hagree
  obtain ⟨turns', hpanic⟩ := hfirst.ends h mem_start
  have hstack : ∀ q ∈ roots.reverse, Reach files roots q := fun q hq => .root (List.mem_reverse.mp hq)
  obtain ⟨message, hm⟩ := herr.mpr ⟨p, hfirst.reach hstack⟩
  have hboth := (hends (max turns turns') (le_max_left _ _)).symm.trans (hpanic _ (le_max_right _ _))
  cases hm.symm.trans hboth

end

/-- The readers agree exactly when the first file that cannot be read, if there is one, has no entry that ends too
early. -/
theorem readersAgree_iff (files : Files) (roots : List String) : ReadersAgree files roots ↔
    ∀ p, FirstUnreadable files roots.reverse [] p → readDrvFile files p ≠ .error .panic := by
  refine ⟨fun h p hfirst hpanic => ?_, readersAgree_of_no_panic⟩
  exact not_readersAgree_of_panic hfirst hpanic h

def shortText : String := "Derive([(\"out\")],[],[],\"x86_64-linux\",\"/bin/sh\",[],[])"

/-- One file, with an output of which only the name is given. -/
def shortFiles : Files :=
  Std.ExtTreeMap.ofList [("/nix/store/x.drv", Encoding.utf8 shortText)] compare

/-- It is not parsed, and there is no error. -/
theorem short_file_panics : ¬ ReadersAgree shortFiles ["/nix/store/x.drv"] := by
  have hpanic : readDrvFile shortFiles "/nix/store/x.drv" = .error .panic := by
    rw [readDrvFile, shortFiles, Std.ExtTreeMap.getElem?_ofList_of_mem Std.ReflCmp.compare_self
      (List.pairwise_singleton _ _) List.mem_cons_self]
    exact Outcome.eq_panic (by decide +kernel)
  refine not_readersAgree_of_panic (.here List.not_mem_nil fun hd => ?_) hpanic
  obtain ⟨d, hd⟩ := hd
  cases hpanic.symm.trans hd

end DrvFile

end Nix2Rdf
