import Nix2Rdf.Packs.Load
import Nix2Rdf.Lib.SortedSet

/-!
# What a rule run is computed from

The name of a derived graph is made of two hashes, one of the packs and one of the inputs. What the
reasoner is handed are the facts and the program.
-/

namespace Nix2Rdf.Reason

open Packs

/-- One selected input: a graph IRI, the path of its fragment, its text. -/
structure InputGraph where
  graph : Iri
  path : String
  nquads : String
  deriving DecidableEq, Repr

def pairCmp : String × String → String × String → Ordering :=
  compareLex (compareOn Prod.fst) (compareOn Prod.snd)

/-- The graph IRI of each input with the hash of its text. -/
def inputPair (x : Extern) (i : InputGraph) : String × String :=
  (i.graph, x.sha256Hex (Encoding.utf8 i.nquads))

def inputItems (x : Extern) (inputs : List InputGraph) : List (List UInt8) :=
  ((inputs.map (inputPair x)).mergeSort fun a b => (pairCmp a b).isLE).flatMap fun p =>
    [Encoding.utf8 p.1, Encoding.utf8 p.2]

/-- Over the sorted graph IRIs and content hashes. -/
def inputHash (x : Extern) (inputs : List InputGraph) : String := hashItems x (inputItems x inputs)

/-- The readers of the packs' vocabularies and of the inputs' text. -/
structure Readers where
  turtle : String → Option (List Triple)
  nquads : String → List Quad

variable (r : Readers)

/-- The vocabulary of a pack in the pack's graph. -/
def vocabOf (p : Pack) : Option (List Quad) :=
  match p.vocabTtl with
  | none => some []
  | some ttl => (r.turtle ttl).map fun ts => ts.map (Triple.inGraph (Iri.pack p.contentHash))

def vocabQuads (packs : List Pack) : Option (List Quad) := (packs.mapM (vocabOf r)).map List.flatten

/-- The facts the reasoner imports. -/
def facts (packs : List Pack) (inputs : List InputGraph) : Option (Finset Quad) :=
  (vocabQuads r packs).map fun qs => (inputs.flatMap (fun i => r.nquads i.nquads) ++ qs).toFinset

/-! ## The program -/

def prologue : String :=
  "%% nix2rdf generated program. Convention: t(?s,?p,?o) is the monotone working\n"
  ++ "%% triple set (asserted + derived); q(?g,?s,?p,?o) carries the graph;\n"
  ++ "%% out(?s,?p,?o) is the final layer (may negate/aggregate over t, is never read by t).\n"

def prefixLine (d : String × String) : String := "@prefix " ++ d.1 ++ ": <" ++ d.2 ++ "> .\n"

/-- The input is read into `raw`, and `q` is a join of it with the set of its graphs. -/
def importRules (inputPath : String) : String :=
  "@import " ++ ("raw :- rdf\x7bresource = \"" ++ inputPath ++ "\"\x7d .\n"
  ++ "rawGraph(?g) :- raw(?g, ?s, ?p, ?o) .\n"
  ++ "q(?g, ?s, ?p, ?o) :- raw(?g, ?s, ?p, ?o), rawGraph(?g) .\n"
  ++ "asserted(?s, ?p, ?o) :- q(?g, ?s, ?p, ?o) .\n"
  ++ "t(?s, ?p, ?o) :- asserted(?s, ?p, ?o) .\n\n")

def epilogue : String :=
  "\n%% ---- epilogue ----\nnew(?s, ?p, ?o) :- t(?s, ?p, ?o), ~asserted(?s, ?p, ?o) .\n"
  ++ "new(?s, ?p, ?o) :- out(?s, ?p, ?o) .\n@export new :- csv \x7b\x7d .\n"

/-- The prefixes every program may use are added where a pack does not bind them. -/
def withDefaults (declared : BTreeMap String) : BTreeMap String :=
  prefixes.foldl (fun m d => m.insertIfNew d.1 d.2) declared

/-- The prefixes of the program and the rules without their declarations. -/
def ruleParts (packs : List Pack) : Result (List (String × String) × String) :=
  (collectPrefixes packs).map fun c => ((withDefaults c.1).toList, c.2)

def assemble (inputPath : String) (parts : List (String × String) × String) : String :=
  prologue ++ String.join (parts.1.map prefixLine) ++ importRules inputPath ++ parts.2 ++ epilogue

/-- The full program. -/
def buildProgram (packs : List Pack) (inputPath : String) : Result String :=
  (ruleParts packs).map (assemble inputPath)

/-! ## The parts of a program are read back from its text -/

/-- A declaration that is one line, with the prefix up to the first colon. -/
structure PlainDecl (d : String × String) : Prop where
  colon : ':' ∉ d.1.toList
  newline : '\n' ∉ d.1.toList
  newline' : '\n' ∉ d.2.toList

theorem prefixLine_append_inj {d e : String × String} (hd : PlainDecl d) (he : PlainDecl e)
    {s t : List Char} (h : (prefixLine d).toList ++ s = (prefixLine e).toList ++ t) : d = e ∧ s = t := by
  have hline : ∀ (d : String × String) (s : List Char), (prefixLine d).toList ++ s
      = "@prefix ".toList ++ (d.1.toList ++ ':' :: (" <".toList ++ ((d.2.toList ++ "> .".toList) ++ '\n' :: s))) := by
    intro d s
    simp [prefixLine]
  have hcut : ∀ d : String × String, PlainDecl d → '\n' ∉ d.2.toList ++ "> .".toList := by
    intro d hd
    rw [List.mem_append, not_or]
    exact ⟨hd.newline', by decide⟩
  rw [hline, hline] at h
  have hafter := List.append_cancel_left h
  have hfirst := Text.splitFirst_append (c := ':') hd.colon
    (b := " <".toList ++ ((d.2.toList ++ "> .".toList) ++ '\n' :: s))
  rw [hafter, Text.splitFirst_append he.colon, Option.some.injEq, Prod.mk.injEq] at hfirst
  have hrest := List.append_cancel_left hfirst.2
  have hsecond := Text.splitFirst_append (hcut e he) (b := t)
  rw [hrest, Text.splitFirst_append (hcut d hd), Option.some.injEq, Prod.mk.injEq] at hsecond
  have hiri := List.append_cancel_right hsecond.1
  exact ⟨Prod.ext (String.toList_inj.mp hfirst.1.symm) (String.toList_inj.mp hiri), hsecond.2⟩

theorem prefixLines_inj {ds es : List (String × String)} (hd : ∀ d ∈ ds, PlainDecl d)
    (he : ∀ e ∈ es, PlainDecl e) {s t : List Char}
    (h : (ds.flatMap fun d => (prefixLine d).toList) ++ '@' :: 'i' :: s
      = (es.flatMap fun e => (prefixLine e).toList) ++ '@' :: 'i' :: t) : ds = es ∧ s = t := by
  have hne : ∀ (d : String × String) (u v : List Char), (prefixLine d).toList ++ u ≠ '@' :: 'i' :: v := by
    intro d u v hu
    simp [prefixLine] at hu
  induction ds generalizing es with
  | nil =>
      cases es with
      | nil =>
          rw [List.flatMap_nil, List.nil_append, List.nil_append, List.cons.injEq, List.cons.injEq] at h
          exact ⟨rfl, h.2.2⟩
      | cons e es =>
          rw [List.flatMap_nil, List.nil_append, List.flatMap_cons, List.append_assoc] at h
          exact absurd h.symm (hne e _ s)
  | cons d ds ih =>
      rw [List.forall_mem_cons] at hd
      rw [List.flatMap_cons, List.append_assoc] at h
      cases es with
      | nil => exact absurd h (hne d _ t)
      | cons e es =>
          rw [List.forall_mem_cons] at he
          rw [List.flatMap_cons, List.append_assoc] at h
          obtain ⟨rfl, hmore⟩ := prefixLine_append_inj hd.1 he.1 h
          obtain ⟨rfl, hst⟩ := ih hd.2 he.2 hmore
          exact ⟨rfl, hst⟩

theorem toList_join (l : List String) : (String.join l).toList = l.flatMap String.toList := by
  induction l with
  | nil => rfl
  | cons s l ih => rw [String.join_cons, String.toList_append, ih, List.flatMap_cons]

theorem assemble_inj {path : String} {a b : List (String × String) × String}
    (ha : ∀ d ∈ a.1, PlainDecl d) (hb : ∀ d ∈ b.1, PlainDecl d)
    (h : assemble path a = assemble path b) : a = b := by
  have himport : ∃ u, (importRules path).toList = '@' :: 'i' :: u := by
    have hkeyword : "@import ".toList = '@' :: 'i' :: "mport ".toList := by decide
    rw [importRules, String.toList_append, hkeyword, List.cons_append, List.cons_append]
    exact ⟨_, rfl⟩
  obtain ⟨u, hu⟩ := himport
  have hlist : ∀ c : List (String × String) × String, (assemble path c).toList = prologue.toList
      ++ ((c.1.flatMap fun d => (prefixLine d).toList) ++ '@' :: 'i' :: (u ++ (c.2.toList ++ epilogue.toList))) := by
    intro c
    simp only [assemble, String.toList_append, hu, toList_join, List.flatMap_map, List.append_assoc,
      List.cons_append]
  have hcancel := congrArg String.toList h
  rw [hlist, hlist] at hcancel
  obtain ⟨hdecls, hrest⟩ := prefixLines_inj ha hb (List.append_cancel_left hcancel)
  have hbody := List.append_cancel_right (List.append_cancel_left hrest)
  exact Prod.ext hdecls (String.toList_inj.mp hbody)

/-! ### Declarations are single lines -/

def PlainMap (m : BTreeMap String) : Prop := ∀ k v, m[k]? = some v → PlainDecl (k, v)

theorem prefixDecl_plain {rest : String} (hrest : '\n' ∉ rest.toList) {d : String × String}
    (h : prefixDecl rest = some d) : PlainDecl d := by
  simp only [prefixDecl, Option.map_eq_some_iff] at h
  obtain ⟨⟨a, b⟩, hsplit, rfl⟩ := h
  obtain ⟨hlist, hcolon⟩ := Text.splitOnce_eq_some hsplit
  have hno : '\n' ∉ a.toList ++ ':' :: b.toList := by
    rw [← hlist]
    exact fun hc => hrest (Text.mem_of_mem_trim (Text.mem_of_mem_trimEnd (Text.mem_of_mem_trim hc)))
  rw [List.mem_append, List.mem_cons, not_or, not_or] at hno
  refine ⟨fun hc => hcolon (Text.mem_of_mem_trim hc), fun hc => hno.1 (Text.mem_of_mem_trim hc),
    fun hc => hno.2.2 (Text.mem_of_mem_trim (Text.mem_of_mem_trim hc))⟩

theorem addLine_plain {p : Pack} {acc acc' : BTreeMap String × String} {line : String}
    (hline : '\n' ∉ line.toList) (h : addLine p acc line = .ok acc') (hacc : PlainMap acc.1) :
    PlainMap acc'.1 := by
  unfold addLine at h
  split at h
  · cases h
    exact hacc
  · rename_i rest hrest
    have hno : '\n' ∉ rest.toList := by
      intro hc
      have htrim : '\n' ∈ (Text.trim Text.isWhitespace line).toList := by
        rw [Text.stripPrefix?_eq_some hrest, String.toList_append]
        exact List.mem_append_right _ hc
      exact hline (Text.mem_of_mem_trim htrim)
    split at h
    · cases h
    · rename_i pfx iri hdecl
      split at h
      · cases h
        intro k v hkv
        rw [Std.ExtTreeMap.getElem?_insert] at hkv
        split at hkv
        · rename_i hk
          rw [compare_eq_iff_eq] at hk
          cases hkv
          rw [← hk]
          exact prefixDecl_plain hno hdecl
        · exact hacc k v hkv
      · split at h
        · cases h
          exact hacc
        · cases h

/-- What every step of a fold keeps, the fold keeps. -/
theorem foldlM_keeps {α β : Type} {P : β → Prop} {f : β → α → Result β} {l : List α}
    (hstep : ∀ b, P b → ∀ a ∈ l, ∀ b', f b a = .ok b' → P b') {b b' : β}
    (h : l.foldlM f b = .ok b') (hb : P b) : P b' := by
  induction l generalizing b with
  | nil =>
      cases h
      exact hb
  | cons a l ih =>
      rw [List.foldlM_cons, Result.bind_eq_ok] at h
      obtain ⟨c, hc, h⟩ := h
      exact ih (fun b hb a ha => hstep b hb a (List.mem_cons_of_mem _ ha)) h
        (hstep b hb a List.mem_cons_self c hc)

theorem collectPrefixes_plain {packs : List Pack} {c : BTreeMap String × String}
    (h : collectPrefixes packs = .ok c) : PlainMap c.1 := by
  have hempty : PlainMap (∅ : BTreeMap String) := by
    intro k v hkv
    rw [Std.ExtTreeMap.getElem?_empty] at hkv
    cases hkv
  refine foldlM_keeps (P := fun b => PlainMap b.1) (fun b hb p _ b' hp => ?_) h hempty
  refine foldlM_keeps (P := fun b => PlainMap b.1) (fun b hb f _ b' hf => ?_) hp hb
  exact foldlM_keeps (P := fun b => PlainMap b.1)
    (fun b hb line hline b' hl => addLine_plain (Text.newline_not_mem_of_mem_lines hline) hl hb) hf hb

theorem plainDecl_prefixes : ∀ d ∈ prefixes, PlainDecl d := by
  have hall : ∀ d ∈ prefixes, ':' ∉ d.1.toList ∧ '\n' ∉ d.1.toList ∧ '\n' ∉ d.2.toList := by
    decide +kernel
  intro d hd
  obtain ⟨hcolon, hnl, hnl'⟩ := hall d hd
  exact ⟨hcolon, hnl, hnl'⟩

theorem withDefaults_plain {m : BTreeMap String} (hm : PlainMap m) : PlainMap (withDefaults m) := by
  have hfold : ∀ (l : List (String × String)) (m : BTreeMap String), (∀ d ∈ l, PlainDecl d) →
      PlainMap m → PlainMap (l.foldl (fun m d => m.insertIfNew d.1 d.2) m) := by
    intro l
    induction l with
    | nil => exact fun m _ hm => hm
    | cons d l ih =>
        intro m hl hm
        rw [List.forall_mem_cons] at hl
        refine ih _ hl.2 fun k v hkv => ?_
        rw [Std.ExtTreeMap.getElem?_insertIfNew] at hkv
        split at hkv
        · rename_i hk
          rw [compare_eq_iff_eq] at hk
          cases hkv
          rw [← hk.1]
          exact hl.1
        · exact hm k v hkv
  exact hfold prefixes m plainDecl_prefixes hm

theorem ruleParts_plain {packs : List Pack} {parts : List (String × String) × String}
    (h : ruleParts packs = .ok parts) : ∀ d ∈ parts.1, PlainDecl d := by
  unfold ruleParts at h
  cases hc : collectPrefixes packs with
  | error e =>
      rw [hc] at h
      cases h
  | ok c =>
      rw [hc] at h
      cases h
      intro d hd
      exact withDefaults_plain (collectPrefixes_plain hc) d.1 d.2
        (Std.ExtTreeMap.mem_toList_iff_getElem?_eq_some.mp hd)

/-- Programs have one text exactly when their prefixes and rules are the same. -/
theorem buildProgram_eq_iff {packs packs' : List Pack} {path : String} :
    (buildProgram packs path).toOption = (buildProgram packs' path).toOption ↔
      (ruleParts packs).toOption = (ruleParts packs').toOption := by
  unfold buildProgram
  cases h : ruleParts packs <;> cases h' : ruleParts packs'
  · simp [Except.map, Except.toOption]
  · simp [Except.map, Except.toOption]
  · simp [Except.map, Except.toOption]
  · simp only [Except.map, Except.toOption, Option.some.injEq]
    exact ⟨assemble_inj (ruleParts_plain h) (ruleParts_plain h'), fun he => by rw [he]⟩

end Nix2Rdf.Reason
