import Nix2Rdf.Identity
import Nix2Rdf.Lib.Transition
import Nix2Rdf.Reason.Assemble
import Nix2Rdf.Reason.Copies
import Nix2Rdf.Reason.Nulls

/-!
# Rule runs

A run derives triples from inputs by the rules of packs. Its result is two fragments: the derived
one, named by the hashes of the packs and of the inputs, and a record of the run.
-/

namespace Nix2Rdf.Reason

open Packs Triple

/-- The derived triples and the number of derived facts. -/
structure RunOutput where
  triples : List DerivedTriple
  derivedFacts : Nat

/-- What runs the assembled programs, and the place where they find their input. -/
structure Engine where
  inputPath : String
  runProgram : String → Finset Quad → Result RunOutput

def nemoVersion : String := "0.10.2-dev+e578c283"

/-- Rows whose subject is a literal cannot be RDF. -/
def rowTriple (row : Row) : Option Triple :=
  match row.1 with
  | .iri n => some (add n row.2.1 row.2.2)
  | _ => none

structure RunResult where
  rulesetHash : String
  inputHash : String
  derived : Fragment
  run : Fragment
  inputs : Nat
  derivedFacts : Nat
  alreadyExisted : Bool

namespace RunResult

def kind (res : RunResult) : FragmentKind := .derived res.rulesetHash res.inputHash

def runKind (res : RunResult) : FragmentKind := .run res.rulesetHash res.inputHash

end RunResult

/-- The other packs of the list that a pack depends on. -/
def packDeps (packs : List Pack) (p : Pack) : List Triple :=
  p.manifest.dependsOn.filterMap fun d =>
    (packs.find? fun q => q.manifest.name = d).map fun q =>
      addIri (Iri.pack p.contentHash) (nix "dependsOnPack") (Iri.pack q.contentHash)

def packTriples (derivedGraph : Iri) (packs : List Pack) (p : Pack) : List Triple :=
  let pn := Iri.pack p.contentHash
  [addIri derivedGraph (nix "usesPack") pn, addType pn (nix "OntologyPack"),
    addStr pn (nix "packName") p.manifest.name, addStr pn (nix "packVersion") p.manifest.version]
    ++ packDeps packs p

/-- The record of a run at the time `now`. -/
def runFragment (now ruleset input : String) (packs : List Pack) (inputs : List InputGraph) (quads : Nat) :
    Fragment :=
  let g := (FragmentKind.derived ruleset input).graph
  .ofTriples (.run ruleset input) <|
    [addType g (nix "RuleRun"), addType g (nix "Fragment"), addStr g (nix "fragmentKind") "derived",
      addStr g (nix "rulesetHash") ruleset, addStr g (nix "inputHash") input,
      addTyped g (nix "ranAt") now (xsd "dateTime"), addInt g (nix "derivedQuadCount") quads,
      addStr g (nix "nemoVersion") nemoVersion, addIri g (nix "derivedBy") g]
    ++ packs.flatMap (packTriples g packs)
    ++ inputs.map fun i => addIri g (nix "inputGraph") i.graph

variable {Bytes : Type} (c : Codec Bytes) (x : Extern) (r : Readers)

def okOr {α : Type} (e : String) : Option α → Result α
  | none => .error e
  | some a => .ok a

theorem okOr_eq_ok {α : Type} {e : String} {o : Option α} {a : α} : okOr e o = .ok a ↔ o = some a := by
  cases o <;> simp [okOr]

/-- The quads of a fragment file; a file that is missing or cannot be read is an error. -/
def readQuads (st : Store Bytes) (path : String) : Result (Finset Quad) :=
  okOr ("rdf parse error: " ++ path) ((st.file? path).bind c.decode)

/-- The graphs of the quads are not kept. -/
def fromQuads (kind : FragmentKind) (qs : Finset Quad) : Fragment :=
  ⟨kind, qs.image fun q => ⟨q.s, q.p, q.o⟩⟩

def derivedKind (packs : List Pack) (inputs : List InputGraph) : FragmentKind :=
  .derived (rulesetHash x packs) (inputHash x inputs)

/-- What the rules of the packs derive from the inputs. -/
def derive (engine : Engine) (packs : List Pack) (inputs : List InputGraph) : Result (Fragment × Nat) := do
  let kind := derivedKind x packs inputs
  let input ← okOr "pack error: vocab.ttl" (facts r packs inputs)
  let program ← buildProgram packs engine.inputPath
  let out ← engine.runProgram program input
  let rows ← okOr "no entry found for key" (canonicalizeNulls x out.triples kind.graph)
  return (.ofTriples kind (rows.filterMap rowTriple), out.derivedFacts)

/-! ## Runs -/

/-- What a command that runs the rules is given. -/
structure Request where
  engine : Engine
  now : String
  packs : List Pack
  inputs : List InputGraph
  force : Bool := false

def Request.kind (q : Request) : FragmentKind := derivedKind x q.packs q.inputs

/-- The result with the derived fragment. -/
def Request.result (q : Request) (derived : Fragment) (derivedFacts : Nat) (alreadyExisted : Bool) : RunResult where
  rulesetHash := rulesetHash x q.packs
  inputHash := inputHash x q.inputs
  derived := derived
  run := runFragment q.now (rulesetHash x q.packs) (inputHash x q.inputs) q.packs q.inputs derived.lines.card
  inputs := q.inputs.length
  derivedFacts := derivedFacts
  alreadyExisted := alreadyExisted

/-- Run the packs over the inputs, unless the derived graph is there and the run is not forced. -/
def run (dirs : PackDirs Bytes) (st : Store Bytes) (q : Request) : Store Bytes × Result RunResult :=
  if st.exists? (q.kind x) && !q.force then
    (st, (readQuads c st (Store.pathOf (q.kind x))).map fun qs => q.result x (fromQuads (q.kind x) qs) 0 true)
  else
    match derive x r q.engine q.packs q.inputs with
    | .error e => (st, .error e)
    | .ok (derived, facts) =>
        match copyPacks dirs st q.packs with
        | (st, .error e) => (st, .error e)
        | (st, .ok ()) => (st, .ok (q.result x derived facts false))

/-- Write the derived and the run fragment. -/
def persist (st : Store Bytes) (res : RunResult) : Store Bytes :=
  ((st.write c res.derived).1.overwrite c res.run).1

/-- The component of the path that names the ruleset of a derived or run fragment. -/
def rulesetOf (path : String) : String := ((Text.split '/' path)[1]?).getD ""

/-- Drop the derived and run fragments whose ruleset hash is not to be kept. -/
def gcDerived (st : Store Bytes) (keep : List String) : Store Bytes :=
  ["derived", "runs"].foldl (fun st sub =>
    (st.fragmentPathsUnder sub).foldl (fun st p => if rulesetOf p ∈ keep then st else st.remove p) st) st

/-- The derived file holds the derived fragment and the run file records its number of quads. -/
structure Agrees (st : Store Bytes) (res : RunResult) : Prop where
  holds : (st.file? (Store.pathOf res.kind)).bind c.decode = some res.derived.quads
  counts : ∀ v, ⟨res.runKind.graph, .iri res.kind.graph, nix "derivedQuadCount", v⟩ ∈
      st.quadsAt c (Store.pathOf res.runKind) ↔
    v = .literal (toString ((st.quadsAt c (Store.pathOf res.kind)).card : Int)) (xsd "integer")

/-- A derived file that is there before the run holds what is derived: all of it is in the derived graph,
and a forced run derives it again. -/
def Current (st : Store Bytes) (q : Request) : Prop :=
  ∀ b, st.file? (Store.pathOf (q.kind x)) = some b → ∃ qs, c.decode b = some qs ∧
    if q.force then ∀ f n, derive x r q.engine q.packs q.inputs = .ok (f, n) → f.quads = qs
    else ∀ t ∈ qs, t.g = (q.kind x).graph

/-! ## What a run does to the store -/

section Runs

variable {c x r} {dirs : PackDirs Bytes} {st st' : Store Bytes} {q : Request} {res : RunResult}

/-- A run that succeeds reads the derived file, or derives and copies the packs. -/
theorem run_cases (h : run c x r dirs st q = (st', .ok res)) :
    (∃ b qs, st.file? (Store.pathOf (q.kind x)) = some b ∧ q.force = false ∧ c.decode b = some qs ∧ st' = st ∧
      res = q.result x (fromQuads (q.kind x) qs) 0 true) ∨
    ((st.exists? (q.kind x) = true → q.force = true) ∧ ∃ f n, derive x r q.engine q.packs q.inputs = .ok (f, n) ∧
      copyPacks dirs st q.packs = (st', .ok ()) ∧ res = q.result x f n false) := by
  rw [run] at h
  split at h
  · rename_i hcached
    rw [Bool.and_eq_true, Bool.not_eq_true', Store.exists?] at hcached
    obtain ⟨b, hb⟩ := Option.isSome_iff_exists.mp hcached.1
    rw [Prod.mk.injEq, readQuads, hb, Option.bind_some] at h
    cases hdecode : c.decode b with
    | none =>
        rw [hdecode] at h
        cases h.2
    | some qs =>
        rw [hdecode] at h
        exact .inl ⟨b, qs, hb, hcached.2, hdecode, h.1.symm, (Except.ok.inj h.2).symm⟩
  · rename_i hfresh
    refine .inr ⟨fun hex => ?_, ?_⟩
    · rw [hex, Bool.true_and, Bool.not_eq_true, Bool.not_eq_false'] at hfresh
      exact hfresh
    · split at h
      · cases h
      · rename_i f n hderive
        split at h
        · cases h
        · rename_i st'' hcopy
          cases h
          exact ⟨f, n, hderive, hcopy, rfl⟩

/-- What is derived is a fragment of the derived kind. -/
theorem kind_of_derive {engine : Engine} {packs : List Pack} {inputs : List InputGraph} {f : Fragment} {n : Nat}
    (h : derive x r engine packs inputs = .ok (f, n)) : f.kind = derivedKind x packs inputs := by
  simp only [derive, Result.bind_eq_ok, Result.pure_eq_ok, Prod.mk.injEq] at h
  obtain ⟨input, _, program, _, out, _, rows, _, rfl, _⟩ := h
  rfl

theorem head_components {k : FragmentKind} (hmid : k.mid ≠ "..") : k.components.head? = some k.dir := by
  rw [FragmentKind.components, FragmentKind.placed, if_neg hmid]
  split <;> rfl

theorem alphanumeric_ne_up {s : String} (h : Alphanumeric s) : s ≠ ".." := by
  intro heq
  exact h.not_mem (by decide : isAsciiAlphanumeric '.' = false) (by rw [heq]; decide)

/-- A fragment whose path does not lead back up lies outside of the directory of the packs. -/
theorem pathOf_not_packs {k : FragmentKind} (h : k.WellFormed) (hmid : k.mid ≠ "..") :
    Text.startsWith "packs/" (Store.pathOf k) = false := by
  rw [Bool.eq_false_iff]
  intro hpre
  obtain ⟨t, ht⟩ := List.isPrefixOf_iff_prefix.mp hpre
  have hpath : Store.pathOf k = "packs" ++ String.singleton '/' ++ String.ofList t := by
    refine String.toList_inj.mp ?_
    rw [← ht]
    simp
  have hsplit := Text.split_append '/' "packs" (String.ofList t)
  rw [← hpath, FragmentKind.pathOf_eq_slash h, Text.split_slash k.components_ne_nil
    (FragmentKind.slash_not_mem_components h), Text.split_of_not_mem (by decide), List.singleton_append] at hsplit
  have hhead := head_components hmid
  rw [hsplit, List.head?_cons, Option.some.injEq] at hhead
  have hmem := k.dir_mem
  rw [← hhead] at hmem
  exact absurd hmem (by decide)

theorem card_quads (f : Fragment) : f.quads.card = f.lines.card :=
  Finset.card_image_of_injective _ (Triple.inGraph_injective _)

theorem quads_fromQuads {kind : FragmentKind} {qs : Finset Quad} :
    (fromQuads kind qs).quads = qs ↔ ∀ t ∈ qs, t.g = kind.graph := by
  constructor
  · intro h t ht
    rw [← h] at ht
    exact (Fragment.mem_quads.mp ht).1
  · intro h
    ext t
    rw [Fragment.mem_quads, fromQuads, Finset.mem_image]
    constructor
    · intro ht
      obtain ⟨hg, u, hu, heq⟩ := ht
      have hug := h u hu
      have hgraph : t.g = u.g := hg.trans hug.symm
      cases t
      cases u
      simp only [Triple.mk.injEq] at heq hgraph
      obtain ⟨rfl, rfl, rfl⟩ := heq
      rw [hgraph]
      exact hu
    · intro ht
      exact ⟨h t ht, t, ht, rfl⟩

/-- The record of a run holds one number of quads. -/
theorem count_mem_runFragment {now ruleset input : String} {packs : List Pack} {inputs : List InputGraph} {n : Nat}
    {v : Term} : ⟨.iri (FragmentKind.derived ruleset input).graph, nix "derivedQuadCount", v⟩ ∈
      (runFragment now ruleset input packs inputs n).lines ↔ v = .literal (toString (n : Int)) (xsd "integer") := by
  have hpacks : Avoids [nix "derivedQuadCount"]
      (packs.flatMap (packTriples (FragmentKind.derived ruleset input).graph packs)) := by
    rw [avoids_flatMap]
    intro p _
    rw [packTriples, avoids_append]
    refine ⟨by simp, avoids_filterMap fun d _ t ht => ?_⟩
    obtain ⟨q, _, rfl⟩ := Option.map_eq_some_iff.mp ht
    simp
  have hinputs : Avoids [nix "derivedQuadCount"]
      (inputs.map fun i => addIri (FragmentKind.derived ruleset input).graph (nix "inputGraph") i.graph) := by
    simp
  rw [runFragment, Fragment.mem_ofTriples, List.mem_append, List.mem_append]
  constructor
  · intro h
    rcases h with (h | h) | h
    · simp [addType, addIri, addStr, addTyped, addInt, add] at h
      exact h
    · exact absurd (List.mem_singleton.mpr rfl) (hpacks _ h)
    · exact absurd (List.mem_singleton.mpr rfl) (hinputs _ h)
  · intro h
    rw [h]
    exact .inl (.inl (by simp [addInt, addTyped, add]))

/-- The files of rule runs are told apart. -/
inductive OfRun : FragmentKind → Prop
  | derived {ruleset input : String} : Alphanumeric ruleset → Alphanumeric input → OfRun (.derived ruleset input)
  | run {ruleset input : String} : Alphanumeric ruleset → Alphanumeric input → OfRun (.run ruleset input)

theorem OfRun.wellFormed {k : FragmentKind} (h : OfRun k) : k.WellFormed := by
  cases h with
  | derived hr hi => exact ⟨hr, hi⟩
  | run hr hi => exact ⟨hr, hi⟩

theorem OfRun.no_clash {k k' : FragmentKind} (h : OfRun k) : ¬ FragmentKind.Clash k' k := by
  intro hc
  cases h with
  | derived _ _ => cases hc
  | run _ _ => cases hc

theorem OfRun.pathOf_inj {k k' : FragmentKind} (h : OfRun k) (h' : OfRun k') :
    Store.pathOf k = Store.pathOf k' ↔ k = k' := by
  constructor
  · intro heq
    rw [FragmentKind.pathOf_eq_iff h.wellFormed h'.wellFormed] at heq
    rcases FragmentKind.eq_or_clash_of_path h.wellFormed h'.wellFormed heq with heq | hc | hc
    · exact heq
    · exact absurd hc h'.no_clash
    · exact absurd hc h.no_clash
  · intro heq
    rw [heq]

/-- The derived file is written where there was none, and stays where there was one. -/
theorem file?_persist_derived (hx : ∀ bs, Alphanumeric (x.sha256Hex bs)) {derived : Fragment} {facts : Nat}
    {existed : Bool} (hkind : derived.kind = q.kind x) (hres : res = q.result x derived facts existed) :
    (persist c st res).file? (Store.pathOf (q.kind x)) =
      (st.file? (Store.pathOf (q.kind x))).or (some (c.encode derived.quads)) := by
  have hd : res.derived = derived := by rw [hres]; rfl
  have hrk : res.run.kind = res.runKind := by rw [hres]; rfl
  have hrunk : OfRun res.runKind := by
    rw [hres]
    exact .run (hx _) (hx _)
  have hderk : OfRun (q.kind x) := .derived (hx _) (hx _)
  have hne : Store.pathOf res.runKind ≠ Store.pathOf (q.kind x) := by
    rw [Ne, hrunk.pathOf_inj hderk]
    intro heq
    cases heq
  rw [persist, Store.file?_overwrite, hrk, if_neg hne, Store.file?_write, hd, hkind, if_pos rfl]

/-- What is persisted agrees when the derived file was not there or holds the derived fragment. -/
theorem agrees_persist_iff (hx : ∀ bs, Alphanumeric (x.sha256Hex bs)) {derived : Fragment} {facts : Nat}
    {existed : Bool} (hkind : derived.kind = q.kind x) (hres : res = q.result x derived facts existed) :
    Agrees c (persist c st res) res ↔
      ∀ b, st.file? (Store.pathOf (q.kind x)) = some b → c.decode b = some derived.quads := by
  have hk : res.kind = q.kind x := by rw [hres]; rfl
  have hd : res.derived = derived := by rw [hres]; rfl
  have hrk : res.run.kind = res.runKind := by rw [hres]; rfl
  have hder : (persist c st res).file? (Store.pathOf (q.kind x)) = _ := file?_persist_derived hx hkind hres
  have hrun : (persist c st res).quadsAt c (Store.pathOf res.runKind) = res.run.quads := by
    rw [Store.quadsAt, persist, Store.file?_overwrite, hrk, if_pos rfl, Option.bind_some, c.decode_encode,
      Option.getD_some]
  constructor
  · intro h b hb
    have hholds := h.holds
    rw [hk, hder, hb, hd, Option.some_or, Option.bind_some] at hholds
    exact hholds
  · intro h
    have hholds : ((persist c st res).file? (Store.pathOf (q.kind x))).bind c.decode = some derived.quads := by
      rw [hder]
      cases hb : st.file? (Store.pathOf (q.kind x)) with
      | none => rw [Option.none_or, Option.bind_some, c.decode_encode]
      | some b => rw [Option.some_or, Option.bind_some, h b hb]
    have hquads : (persist c st res).quadsAt c (Store.pathOf (q.kind x)) = derived.quads := by
      rw [Store.quadsAt, hholds, Option.getD_some]
    refine ⟨by rw [hk, hd]; exact hholds, fun v => ?_⟩
    have hcount : ⟨.iri (q.kind x).graph, nix "derivedQuadCount", v⟩ ∈ res.run.lines ↔
        v = .literal (toString (derived.lines.card : Int)) (xsd "integer") := by
      rw [hres]
      exact count_mem_runFragment
    have hgraph : res.runKind.graph = res.run.graph := by rw [Fragment.graph, hrk]
    rw [hrun, hk, hquads, card_quads, ← hcount, Fragment.mem_quads]
    exact and_iff_right hgraph

/-- The result of a run agrees with what is persisted exactly when the derived file was current. -/
theorem persist_agrees_iff (hx : ∀ bs, Alphanumeric (x.sha256Hex bs)) (h : run c x r dirs st q = (st', .ok res)) :
    Agrees c (persist c st' res) res ↔ Current c x r st q := by
  rcases run_cases h with ⟨b, qs, hb, hforce, hdecode, rfl, rfl⟩ | ⟨hforce, f, n, hderive, hcopy, rfl⟩
  · rw [agrees_persist_iff hx rfl rfl, Current]
    refine forall_congr' fun b' => forall_congr' fun hb' => ?_
    rw [hb, Option.some.injEq] at hb'
    subst hb'
    rw [hdecode, hforce, Option.some.injEq, eq_comm, quads_fromQuads]
    simp
  · have hfile : st'.file? (Store.pathOf (q.kind x)) = st.file? (Store.pathOf (q.kind x)) := by
      have hpath : Text.startsWith "packs/" (Store.pathOf (q.kind x)) = false :=
        pathOf_not_packs ⟨hx _, hx _⟩ (alphanumeric_ne_up (hx _))
      have hcopied : ((copyPacks dirs st q.packs).1).file? (Store.pathOf (q.kind x)) = _ :=
        (file?_copyPacks _ _).1 hpath
      rw [hcopy] at hcopied
      exact hcopied
    rw [agrees_persist_iff hx (kind_of_derive hderive) rfl, Current, hfile]
    refine forall_congr' fun b => forall_congr' fun hb => ?_
    have hforced : q.force = true := hforce (by rw [Store.exists?, hb]; rfl)
    rw [hforced]
    constructor
    · intro hdecode
      refine ⟨_, hdecode, fun f' n' h' => ?_⟩
      rw [hderive] at h'
      cases h'
      rfl
    · intro hcur
      obtain ⟨qs, hdecode, hall⟩ := hcur
      rw [hdecode, ← hall f n hderive]

/-! ## Histories -/

/-- A command that runs the rules and persists the result. -/
def step (c : Codec Bytes) (x : Extern) (r : Readers) (dirs : PackDirs Bytes) (st : Store Bytes) (q : Request) :
    Store Bytes :=
  match run c x r dirs st q with
  | (st, .ok res) => persist c st res
  | (st, .error _) => st

/-- Every run file records the number of quads of its derived file. -/
def Recorded (c : Codec Bytes) (st : Store Bytes) : Prop :=
  ∀ ruleset input, Alphanumeric ruleset → Alphanumeric input → ∀ v,
    ⟨(FragmentKind.run ruleset input).graph, .iri (FragmentKind.derived ruleset input).graph,
        nix "derivedQuadCount", v⟩ ∈ st.quadsAt c (Store.pathOf (.run ruleset input)) →
      v = .literal (toString ((st.quadsAt c (Store.pathOf (.derived ruleset input))).card : Int)) (xsd "integer")

theorem OfRun.mid_ne_up {k : FragmentKind} (h : OfRun k) : k.mid ≠ ".." := by
  cases h with
  | derived hr _ => exact alphanumeric_ne_up hr
  | run hr _ => exact alphanumeric_ne_up hr

/-- A run itself writes no file of a run. -/
theorem file?_run {k : FragmentKind} (hk : OfRun k) :
    ((run c x r dirs st q).1).file? (Store.pathOf k) = st.file? (Store.pathOf k) := by
  have hcopied : ((copyPacks dirs st q.packs).1).file? (Store.pathOf k) = st.file? (Store.pathOf k) :=
    (file?_copyPacks _ _).1 (pathOf_not_packs hk.wellFormed hk.mid_ne_up)
  rw [run]
  split
  · rfl
  · split
    · rfl
    · split
      · rename_i heq
        rw [heq] at hcopied
        exact hcopied
      · rename_i heq
        rw [heq] at hcopied
        exact hcopied

theorem file?_persist {p : String} (hder : Store.pathOf res.derived.kind ≠ p) (hrun : Store.pathOf res.run.kind ≠ p) :
    (persist c st res).file? p = st.file? p := by
  rw [persist, Store.file?_overwrite, if_neg hrun, Store.file?_write, if_neg hder, Option.or_none]

theorem kinds_of_run (h : run c x r dirs st q = (st', .ok res)) :
    res.derived.kind = res.kind ∧ res.run.kind = res.runKind ∧ res.kind = q.kind x ∧
      res.runKind = .run (rulesetHash x q.packs) (inputHash x q.inputs) := by
  rcases run_cases h with ⟨b, qs, _, _, _, _, rfl⟩ | ⟨_, f, n, hderive, _, rfl⟩
  · exact ⟨rfl, rfl, rfl, rfl⟩
  · exact ⟨kind_of_derive hderive, rfl, rfl, rfl⟩

/-- A command that finds no stale derived file keeps the records right. -/
theorem recorded_step (hx : ∀ bs, Alphanumeric (x.sha256Hex bs)) (hst : Recorded c st) (hcur : Current c x r st q) :
    Recorded c (step c x r dirs st q) := by
  intro ruleset input hr hi v hv
  have hrunk : OfRun (.run ruleset input) := .run hr hi
  have hderk : OfRun (.derived ruleset input) := .derived hr hi
  have hbefore : ∀ k, OfRun k → ((run c x r dirs st q).1).quadsAt c (Store.pathOf k) = st.quadsAt c
      (Store.pathOf k) := by
    intro k hk
    rw [Store.quadsAt, Store.quadsAt, file?_run hk]
  rw [step] at hv ⊢
  cases hres : run c x r dirs st q with
  | mk st' result =>
      rw [hres] at hbefore hv
      cases result with
      | error e =>
          rw [hbefore _ hrunk] at hv
          rw [hbefore _ hderk]
          exact hst ruleset input hr hi v hv
      | ok res =>
          obtain ⟨hder, hrun, hkind, hrunkind⟩ := kinds_of_run hres
          by_cases hsame : FragmentKind.run ruleset input = res.runKind
          · have hagrees := (persist_agrees_iff hx hres).mpr hcur
            obtain ⟨rfl, rfl⟩ := FragmentKind.run.inj hsame
            exact (hagrees.counts v).mp hv
          · have hkindk : OfRun res.kind := by
              rw [hkind]
              exact .derived (hx _) (hx _)
            have hrunkindk : OfRun res.runKind := by
              rw [hrunkind]
              exact .run (hx _) (hx _)
            have hother : ∀ k, OfRun k → k ≠ res.kind → k ≠ res.runKind →
                (persist c st' res).quadsAt c (Store.pathOf k) = st.quadsAt c (Store.pathOf k) := by
              intro k hk hnek hnerun
              rw [Store.quadsAt, file?_persist, ← Store.quadsAt, hbefore k hk]
              · rw [hder, Ne, hkindk.pathOf_inj hk]
                exact hnek.symm
              · rw [hrun, Ne, hrunkindk.pathOf_inj hk]
                exact hnerun.symm
            have hderne : FragmentKind.derived ruleset input ≠ res.kind := by
              intro heq
              obtain ⟨rfl, rfl⟩ := FragmentKind.derived.inj heq
              exact hsame rfl
            rw [hother _ hrunk FragmentKind.noConfusion hsame] at hv
            rw [hother _ hderk hderne FragmentKind.noConfusion]
            exact hst ruleset input hr hi v hv

/-- In a history whose commands find no stale derived files every record stays right. -/
theorem recorded_history (hx : ∀ bs, Alphanumeric (x.sha256Hex bs)) {history : List Request}
    (h : Transition.Run (fun st q st' => st' = step c x r dirs st q) (Current c x r) st history st')
    (hst : Recorded c st) : Recorded c st' :=
  h.invariant (fun _ _ _ hst hcur hstep => hstep ▸ recorded_step hx hst hcur) hst

end Runs

/-! ## An older derived file -/

def hexExtern : Extern where
  sha256Hex bs := String.ofList
    (bs.flatMap fun b => [Encoding.upperHex (b.toNat / 16), Encoding.upperHex (b.toNat % 16)])
  parseJson _ := none
  stack := 8

theorem alphanumeric_hex (bs : List UInt8) : Alphanumeric (hexExtern.sha256Hex bs) := by
  have hdigit : ∀ n < 16, isAsciiAlphanumeric (Encoding.upperHex n) = true := by decide
  rw [Alphanumeric, hexExtern, String.toList_ofList, List.all_flatMap, List.all_eq_true]
  intro b _
  have hlt := b.toNat_lt
  simp [hdigit (b.toNat / 16) (by omega), hdigit (b.toNat % 16) (by omega)]

def noPacks : PackDirs (Finset Quad) := fun _ => ⟨[], List.forall_mem_nil _, List.nodup_nil⟩

/-- A run without packs in which the engine gives these triples. -/
def request (triples : List DerivedTriple) (force : Bool) : Request where
  engine := ⟨"input.nq", fun _ _ => .ok ⟨triples, triples.length⟩⟩
  now := "2026-01-01T00:00:00Z"
  packs := []
  inputs := [⟨"https://w3id.org/nix2rdf/id/drv/a", "/store/drv/a.nq.zst", ""⟩]
  force := force

theorem derive_request {x : Extern} {r : Readers} {triples : List DerivedTriple} {force : Bool} {rows : List Row}
    (h : canonicalizeNulls x triples ((request triples force).kind x).graph = some rows) :
    derive x r (request triples force).engine (request triples force).packs (request triples force).inputs =
      .ok (.ofTriples ((request triples force).kind x) (rows.filterMap rowTriple), triples.length) := by
  obtain ⟨F, hF⟩ : ∃ F, facts r [] (request triples force).inputs = some F := ⟨_, rfl⟩
  obtain ⟨P, hP⟩ : ∃ P, buildProgram [] "input.nq" = .ok P := ⟨_, rfl⟩
  rw [Request.kind] at h ⊢
  simp only [derive, Result.bind_eq_ok, okOr_eq_ok]
  exact ⟨F, hF, P, hP, _, rfl, rows, h, rfl⟩

def linkTriple : DerivedTriple :=
  ⟨.iri "https://w3id.org/nix2rdf/id/drv/a", .iri "https://w3id.org/nix2rdf/ns#dependsOn",
    .iri "https://w3id.org/nix2rdf/id/drv/b"⟩

/-- The fragment of the link when its triple is derived. -/
def linkFragment : Fragment :=
  .ofTriples ((request [] false).kind hexExtern)
    [addIri "https://w3id.org/nix2rdf/id/drv/a" (nix "dependsOn") "https://w3id.org/nix2rdf/id/drv/b"]

def noReaders : Readers := ⟨fun _ => none, fun _ => []⟩

theorem run_link : run .plain hexExtern noReaders noPacks .empty (request [linkTriple] false) =
    (.empty, .ok ((request [linkTriple] false).result hexExtern linkFragment 1 false)) := by
  have hrows : ∀ g, canonicalizeNulls hexExtern [linkTriple] g =
      some [(.iri "https://w3id.org/nix2rdf/id/drv/a", nix "dependsOn",
        .iri "https://w3id.org/nix2rdf/id/drv/b")] := by
    intro g
    simp [canonicalizeNulls, withIri, linkTriple, convRow, conv, SortedSet.sortDedup,
      SortedSet.dedupAdjacent, nix, nixNs]
  rw [run, Store.exists?, Store.file?_empty, derive_request (hrows _)]
  rfl

theorem run_nothing (st : Store (Finset Quad)) : run .plain hexExtern noReaders noPacks st (request [] true) =
    (st, .ok ((request [] true).result hexExtern (.ofTriples ((request [] true).kind hexExtern) []) 0 false)) := by
  have hrows : ∀ g, canonicalizeNulls hexExtern [] g = some [] := by
    intro g
    simp [canonicalizeNulls, SortedSet.sortDedup, SortedSet.dedupAdjacent]
  rw [run, derive_request (hrows _)]
  simp [request, copyPacks]

/-- A forced run that derives less keeps the derived file of the run before it. -/
theorem forced_run_disagrees : ∃ first second : Request, ∃ st st' res res',
    run .plain hexExtern noReaders noPacks .empty first = (st, .ok res) ∧
    run .plain hexExtern noReaders noPacks (persist .plain st res) second = (st', .ok res') ∧
    second.force = true ∧ ¬ Agrees .plain (persist .plain st' res') res' := by
  refine ⟨_, _, _, _, _, _, run_link, run_nothing _, rfl, fun h => ?_⟩
  have hempty : Fragment.quads (.ofTriples ((request [] true).kind hexExtern) []) = ∅ := rfl
  have hlink : linkFragment.quads.Nonempty := Finset.Nonempty.image (Finset.singleton_nonempty _) _
  have hfile : (persist .plain .empty ((request [linkTriple] false).result hexExtern linkFragment 1 false)).file?
      (Store.pathOf ((request [linkTriple] false).kind hexExtern)) = _ :=
        file?_persist_derived alphanumeric_hex rfl rfl
  rw [agrees_persist_iff alphanumeric_hex rfl rfl] at h
  rw [Store.file?_empty, Option.none_or] at hfile
  have hkept := h _ hfile
  rw [hempty] at hkept
  exact hlink.ne_empty (Option.some.inj hkept)

theorem persist_agrees_iff_link : Agrees .plain (persist .plain .empty ((request [linkTriple] false).result hexExtern
      linkFragment 1 false)) ((request [linkTriple] false).result hexExtern linkFragment 1 false) ↔
    Current .plain hexExtern noReaders .empty (request [linkTriple] false) :=
  persist_agrees_iff alphanumeric_hex run_link

end Nix2Rdf.Reason
