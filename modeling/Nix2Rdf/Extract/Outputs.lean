import Nix2Rdf.Extract.Drv

/-!
# Outputs and their references

After a build the outputs of a derivation and what they reference become an outputs fragment. The
paths come from the build itself, or from a walk over the runtime closure of some store paths.
-/

namespace Nix2Rdf

open Triple

/-- What is known about the outputs of a derivation when its outputs fragment is made. -/
structure Evidence where
  drvPath : String
  /-- The store path of each output, by its name. -/
  outputs : BTreeMap String
  infos : BTreeMap (Option PathInfo)

def Evidence.info (e : Evidence) (p : String) : Option PathInfo := (e.infos[p]?).bind fun i => i

namespace Extract

/-- The NAR hash of an output and what it references, other than itself. -/
def infoTriples (on : Iri) (p : String) (info : PathInfo) : List Triple :=
  (info.narHash.toList.map fun nh => addStr on (nix "narHash") nh)
  ++ info.references.filterMap fun r =>
    if r = p then none
    else (storePathHash r).map fun rh => addIri on (nix "references") (Iri.out rh)

def builtTriples (e : Evidence) (s : Iri) (output : String × String) : Result (List Triple) := do
  let on := Iri.out (← storeHash output.2)
  return [addIri s (nix "hasOutput") on, addType on (nix "Output"),
      addStr on (nix "outputName") output.1, addStr on (nix "storePath") output.2]
    ++ (e.info output.2).toList.flatMap (infoTriples on output.2)

/-- The outputs, with paths, and their runtime references. -/
def outputsFragment (e : Evidence) : Result Fragment := do
  let h ← storeHash e.drvPath
  let outs ← e.outputs.toList.mapM (builtTriples e (Iri.drv h))
  return Fragment.ofTriples (.out h) outs.flatten

/-! ## After a build -/

def builtInfos (src : NixSource) (built : List BuildResult) : Result (BTreeMap (Option PathInfo)) :=
  let paths := built.flatMap fun b => b.outputs.values
  if paths.isEmpty then .ok ∅ else src.pathInfo paths

def extractOutputs (src : NixSource) (built : List BuildResult) : Result (List Fragment) := do
  let infos ← builtInfos src built
  built.mapM fun b => outputsFragment ⟨b.drvPath, b.outputs, infos⟩

/-! ## The runtime closure -/

/-- One path that was asked about: what it references is asked about next. -/
def visitInfo (acc : List String × BTreeMap PathInfo) (entry : String × Option PathInfo) :
    List String × BTreeMap PathInfo :=
  match entry.2 with
  | none => acc
  | some i => (acc.1 ++ i.references.filter fun r => !acc.2.contains r && r != entry.1, acc.2.insert entry.1 i)

/-- The walk along references. The recursion counts the turns of the loop. -/
def closureLoop (src : NixSource) : Nat → List String → BTreeMap PathInfo → Result (BTreeMap PathInfo)
  | 0, _, _ => .error "out of turns"
  | _ + 1, [], seen => .ok seen
  | turns + 1, p :: frontier, seen => do
      let infos ← src.pathInfo (p :: frontier)
      let acc := infos.toList.foldl visitInfo ([], seen)
      closureLoop src turns ((sorted acc.1).dedup.filter fun p => !acc.2.contains p) acc.2

/-- The paths of each deriver, under the name part of the path. -/
def byDeriver (seen : BTreeMap PathInfo) : BTreeMap (BTreeMap String) :=
  seen.toList.foldl (fun m entry =>
    match entry.2.deriver with
    | none => m
    | some d => m.insert d ((m[d]?.getD ∅).insert ((storePathName entry.1).getD "out") entry.1)) ∅

/-- The names of the outputs are recovered from the derivation where that is possible. -/
def namedOutputs (src : NixSource) (drv : String) (outs : BTreeMap String) : BTreeMap String :=
  match src.derivationShow [drv] false with
  | .error _ => outs
  | .ok m =>
      match m[drv]? with
      | none => outs
      | some d =>
          let named := d.outputs.toList.filterMap fun o =>
            (o.2.path.filter (· ∈ outs.values)).map fun p => (o.1, p)
          if named.isEmpty then outs else .ofList named compare

def closureEvidence (src : NixSource) (seen : BTreeMap PathInfo) : List Evidence :=
  (byDeriver seen).toList.map fun d => ⟨d.1, namedOutputs src d.1 d.2, seen.map fun _ i => some i⟩

/-- The outputs fragments of every derivation in the runtime closure of some paths, and the closure. -/
def extractRuntimeClosure (src : NixSource) (turns : Nat) (roots : List String) :
    Result (List Fragment × BTreeMap PathInfo) := do
  let seen ← closureLoop src turns roots ∅
  return (← (closureEvidence src seen).mapM outputsFragment, seen)

end Extract

/-! ## What an outputs fragment says -/

/-- A fact about outputs, which are known by the hash in their store path. -/
inductive OutputFact where
  | output (oh : String)
  | named (oh name : String)
  | storedAt (oh path : String)
  | narHash (oh nar : String)
  | references (oh rh : String)

namespace OutputFact

/-- The fact as a triple about the derivation with the hash. -/
def triple (h : String) : OutputFact → Triple
  | output oh => addIri (Iri.drv h) (nix "hasOutput") (Iri.out oh)
  | named oh n => addStr (Iri.out oh) (nix "outputName") n
  | storedAt oh p => addStr (Iri.out oh) (nix "storePath") p
  | narHash oh nar => addStr (Iri.out oh) (nix "narHash") nar
  | references oh rh => addIri (Iri.out oh) (nix "references") (Iri.out rh)

end OutputFact

/-- An output of the evidence has this name, path and hash. -/
def Evidence.HasOutput (e : Evidence) (name p oh : String) : Prop :=
  e.outputs[name]? = some p ∧ storePathHash p = some oh

/-- The evidence shows the fact. -/
def Evidence.Shows (e : Evidence) : OutputFact → Prop
  | .output oh => ∃ n p, e.HasOutput n p oh
  | .named oh n => ∃ p, e.HasOutput n p oh
  | .storedAt oh p => ∃ n, e.HasOutput n p oh
  | .narHash oh nar => ∃ n p i, e.HasOutput n p oh ∧ e.info p = some i ∧ i.narHash = some nar
  | .references oh rh => ∃ n p i, e.HasOutput n p oh ∧ e.info p = some i ∧
      ∃ r ∈ i.references, r ≠ p ∧ storePathHash r = some rh

def outputTerms : List String := ["hasOutput", "outputName", "storePath", "narHash", "references"]

theorem OutputFact.triple_inj {h : String} {a b : OutputFact} (heq : a.triple h = b.triple h) : a = b := by
  have hout : ∀ {i j : String}, Iri.out i = Iri.out j → i = j := by
    intro i j hij
    simpa [Iri.out, Text.slash_pair] using hij
  have hp := congrArg Triple.p heq
  cases a <;> cases b <;> simp [triple] at hp heq
  · rw [hout heq]
  · rw [hout heq.1, heq.2]
  · rw [hout heq.1, heq.2]
  · rw [hout heq.1, heq.2]
  · rw [hout heq.1, hout heq.2]

theorem mem_infoTriples {on : Iri} {p : String} {i : PathInfo} {t : Triple} :
    t ∈ Extract.infoTriples on p i ↔ (∃ nar, i.narHash = some nar ∧ t = addStr on (nix "narHash") nar) ∨
      ∃ r ∈ i.references, r ≠ p ∧ ∃ rh, storePathHash r = some rh ∧ t = addIri on (nix "references")
        (Iri.out rh) := by
  simp only [Extract.infoTriples, List.mem_append, List.mem_map, Option.mem_toList,
    List.mem_filterMap]
  refine or_congr ⟨?_, ?_⟩ ⟨?_, ?_⟩
  · intro h
    obtain ⟨nar, hnar, rfl⟩ := h
    exact ⟨nar, hnar, rfl⟩
  · intro h
    obtain ⟨nar, hnar, rfl⟩ := h
    exact ⟨nar, hnar, rfl⟩
  · intro h
    obtain ⟨r, hr, ht⟩ := h
    by_cases hself : r = p
    · rw [if_pos hself] at ht
      cases ht
    · rw [if_neg hself, Option.map_eq_some_iff] at ht
      obtain ⟨rh, hrh, rfl⟩ := ht
      exact ⟨r, hr, hself, rh, hrh, rfl⟩
  · intro h
    obtain ⟨r, hr, hself, rh, hrh, rfl⟩ := h
    exact ⟨r, hr, by rw [if_neg hself, hrh, Option.map_some]⟩

theorem mem_builtTriples {e : Evidence} {s : Iri} {output : String × String} {ts : List Triple}
    (h : Extract.builtTriples e s output = .ok ts) {t : Triple} :
    ∃ oh, storePathHash output.2 = some oh ∧ (t ∈ ts ↔
      (t = addIri s (nix "hasOutput") (Iri.out oh) ∨ t = addType (Iri.out oh) (nix "Output") ∨
        t = addStr (Iri.out oh) (nix "outputName") output.1 ∨ t = addStr (Iri.out oh) (nix "storePath") output.2) ∨
      ∃ i, e.info output.2 = some i ∧ t ∈ Extract.infoTriples (Iri.out oh) output.2 i) := by
  simp only [Extract.builtTriples, Result.bind_eq_ok, Result.pure_eq_ok] at h
  obtain ⟨oh, hoh, rfl⟩ := h
  refine ⟨oh, storeHash_eq_ok.mp hoh, ?_⟩
  simp only [List.mem_append, List.mem_cons, List.not_mem_nil, or_false, List.mem_flatMap, Option.mem_toList]

theorem outputsFragment_kind {e : Evidence} {f : Fragment} (h : Extract.outputsFragment e = .ok f) :
    ∃ hash, storePathHash e.drvPath = some hash ∧ f.kind = .out hash := by
  simp only [Extract.outputsFragment, Result.bind_eq_ok, Result.pure_eq_ok] at h
  obtain ⟨hash, hhash, _, _, rfl⟩ := h
  exact ⟨hash, storeHash_eq_ok.mp hhash, rfl⟩

/-- Every line of an outputs fragment is about one of the outputs. -/
theorem mem_outputsFragment {e : Evidence} {f : Fragment} (h : Extract.outputsFragment e = .ok f) {hash : String}
    (hhash : storePathHash e.drvPath = some hash) {t : Triple} :
    t ∈ f.lines ↔ ∃ n p oh, e.HasOutput n p oh ∧
      ((t = addIri (Iri.drv hash) (nix "hasOutput") (Iri.out oh) ∨ t = addType (Iri.out oh) (nix "Output") ∨
        t = addStr (Iri.out oh) (nix "outputName") n ∨ t = addStr (Iri.out oh) (nix "storePath") p) ∨
      ∃ i, e.info p = some i ∧ t ∈ Extract.infoTriples (Iri.out oh) p i) := by
  simp only [Extract.outputsFragment, Result.bind_eq_ok, Result.pure_eq_ok] at h
  obtain ⟨hash', hhash', outs, houts, rfl⟩ := h
  have hsame : hash' = hash := Option.some.inj ((storeHash_eq_ok.mp hhash').symm.trans hhash)
  rw [hsame] at houts
  rw [Fragment.mem_ofTriples, List.mem_flatten]
  constructor
  · intro ht
    obtain ⟨ts, hts, ht⟩ := ht
    obtain ⟨o, ho, hok⟩ := Result.mem_of_mapM houts hts
    obtain ⟨oh, hoh, hiff⟩ := mem_builtTriples hok (t := t)
    exact ⟨o.1, o.2, oh, ⟨Std.ExtTreeMap.mem_toList_iff_getElem?_eq_some.mp ho, hoh⟩, hiff.mp ht⟩
  · intro ht
    obtain ⟨n, p, oh, ⟨hn, hoh⟩, ht⟩ := ht
    have hmem : (n, p) ∈ e.outputs.toList := Std.ExtTreeMap.mem_toList_iff_getElem?_eq_some.mpr hn
    obtain ⟨ts, hts, hok⟩ := Result.mem_mapM houts hmem
    obtain ⟨oh', hoh', hiff⟩ := mem_builtTriples hok (t := t)
    rw [Option.some.inj (hoh.symm.trans hoh')] at ht
    exact ⟨ts, hts, hiff.mpr ht⟩

theorem fact_p (fact : OutputFact) (hash : String) : (fact.triple hash).p ∈ outputTerms.map nix := by
  cases fact <;> simp [OutputFact.triple, outputTerms]

/-- An outputs fragment says the facts that the evidence shows, and types the outputs. -/
theorem mem_lines_iff {e : Evidence} {f : Fragment} (h : Extract.outputsFragment e = .ok f) {hash : String}
    (hhash : storePathHash e.drvPath = some hash) {t : Triple} :
    t ∈ f.lines ↔ (∃ fact : OutputFact, e.Shows fact ∧ t = fact.triple hash) ∨
      ∃ n p oh, e.HasOutput n p oh ∧ t = addType (Iri.out oh) (nix "Output") := by
  rw [mem_outputsFragment h hhash]
  constructor
  · intro ht
    obtain ⟨n, p, oh, hout, ht⟩ := ht
    rcases ht with (ht | ht | ht | ht) | ⟨i, hi, ht⟩
    · exact .inl ⟨.output oh, ⟨n, p, hout⟩, ht⟩
    · exact .inr ⟨n, p, oh, hout, ht⟩
    · exact .inl ⟨.named oh n, ⟨p, hout⟩, ht⟩
    · exact .inl ⟨.storedAt oh p, ⟨n, hout⟩, ht⟩
    · rcases mem_infoTriples.mp ht with ⟨nar, hnar, ht⟩ | ⟨r, hr, hself, rh, hrh, ht⟩
      · exact .inl ⟨.narHash oh nar, ⟨n, p, i, hout, hi, hnar⟩, ht⟩
      · exact .inl ⟨.references oh rh, ⟨n, p, i, hout, hi, r, hr, hself, hrh⟩, ht⟩
  · intro ht
    rcases ht with ⟨fact, hshows, rfl⟩ | ⟨n, p, oh, hout, rfl⟩
    · cases fact with
      | output oh =>
          obtain ⟨n, p, hout⟩ := hshows
          exact ⟨n, p, oh, hout, .inl (.inl rfl)⟩
      | named oh n =>
          obtain ⟨p, hout⟩ := hshows
          exact ⟨n, p, oh, hout, .inl (.inr (.inr (.inl rfl)))⟩
      | storedAt oh p =>
          obtain ⟨n, hout⟩ := hshows
          exact ⟨n, p, oh, hout, .inl (.inr (.inr (.inr rfl)))⟩
      | narHash oh nar =>
          obtain ⟨n, p, i, hout, hi, hnar⟩ := hshows
          exact ⟨n, p, oh, hout, .inr ⟨i, hi, mem_infoTriples.mpr (.inl ⟨nar, hnar, rfl⟩)⟩⟩
      | references oh rh =>
          obtain ⟨n, p, i, hout, hi, r, hr, hself, hrh⟩ := hshows
          exact ⟨n, p, oh, hout, .inr ⟨i, hi, mem_infoTriples.mpr (.inr ⟨r, hr, hself, rh, hrh, rfl⟩)⟩⟩
    · exact ⟨n, p, oh, hout, .inl (.inr (.inl rfl))⟩

theorem shows_iff {e : Evidence} {f : Fragment} (h : Extract.outputsFragment e = .ok f) {hash : String}
    (hhash : storePathHash e.drvPath = some hash) {fact : OutputFact} :
    fact.triple hash ∈ f.lines ↔ e.Shows fact := by
  rw [mem_lines_iff h hhash]
  constructor
  · intro ht
    rcases ht with ⟨fact', hshows, heq⟩ | ⟨_, _, _, _, heq⟩
    · rw [OutputFact.triple_inj heq]
      exact hshows
    · have hp := fact_p fact hash
      rw [heq] at hp
      simp [outputTerms] at hp
  · intro hshows
    exact .inl ⟨fact, hshows, rfl⟩

theorem exists_fact {e : Evidence} {f : Fragment} (h : Extract.outputsFragment e = .ok f) {hash : String}
    (hhash : storePathHash e.drvPath = some hash) {t : Triple} (ht : t ∈ f.lines)
    (hp : t.p ∈ outputTerms.map nix) : ∃ fact : OutputFact, t = fact.triple hash := by
  rcases (mem_lines_iff h hhash).mp ht with ⟨fact, _, rfl⟩ | ⟨_, _, _, _, rfl⟩
  · exact ⟨fact, rfl⟩
  · simp [outputTerms] at hp

end Nix2Rdf
