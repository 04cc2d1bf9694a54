import Nix2Rdf.Extract.Derivations

/-!
# Nothing is lost in the fragment of a derivation

Lists and maps become a set of triples. The position of an argument and the hash of an input stand in
the literal, so that each field is read back from the set; and nothing but the derivation and the NAR
hashes of its own sources has any influence on it.
-/

namespace Nix2Rdf

open Triple Reason

namespace Extract

/-! ## What is read back -/

/-- No two inputs have one store hash, and no two known outputs. -/
structure DistinctHashes (d : DrvInfo) : Prop where
  inputs : ∀ (p q h : String), p ∈ d.inputDrvs → q ∈ d.inputDrvs → storePathHash p = some h →
    storePathHash q = some h → p = q
  outputs : ∀ (name name' : String) (o o' : OutputInfo) (p p' h : String), d.outputs[name]? = some o →
    d.outputs[name']? = some o' → o.path = some p → o'.path = some p' → storePathHash p = some h →
    storePathHash p' = some h → name = name'

/-- The outputs that are consumed of the input with a store hash. -/
def consumedOf (d : DrvInfo) (hash : String) : Option (Finset String) :=
  (d.inputDrvs.toList.find? fun i => storePathHash i.1 == some hash).map fun i => i.2.outputs.toFinset

/-- The NAR hashes of the sources. -/
def narHashes (srcHashes : BTreeMap String) (d : DrvInfo) : Finset String :=
  (d.inputSrcs.filterMap fun src => srcHashes[src]?).toFinset

/-- Where an output is, when that is known. -/
def knownPath (d : DrvInfo) (name : String) : Option String := (d.outputs[name]?).bind OutputInfo.path

/-- The sources have NAR hashes in the SRI form. -/
def SriSources (srcHashes : BTreeMap String) (d : DrvInfo) : Prop :=
  ∀ src ∈ d.inputSrcs, ∀ nar : String, srcHashes[src]? = some nar → CanonicalSri nar

/-- Two derivations with all that the fragment keeps in common. -/
structure SameContent (d d' : DrvInfo) (srcHashes srcHashes' : BTreeMap String) : Prop where
  name : d.name = d'.name
  system : d.system = d'.system
  builder : d.builder = d'.builder
  args : d.args = d'.args
  consumed : consumedOf d = consumedOf d'
  sources : SriSources srcHashes d → SriSources srcHashes' d' → narHashes srcHashes d = narHashes srcHashes' d'
  outputs : knownPath d = knownPath d'

section
variable {x : Extern} {drvPath : String} {d : DrvInfo} {srcHashes : BTreeMap String} {n : Iri} {v : String}

theorem consumedOf_eq_some (hd : DistinctHashes d) {hash : String} {outs : Finset String} :
    consumedOf d hash = some outs ↔
      ∃ (p : String) (i : InputDrv), d.inputDrvs[p]? = some i ∧ storePathHash p = some hash ∧
        i.outputs.toFinset = outs := by
  rw [consumedOf, Option.map_eq_some_iff]
  constructor
  · intro h
    obtain ⟨i, hfind, hi⟩ := h
    have hmem := Std.ExtTreeMap.mem_toList_iff_getElem?_eq_some.mp (List.mem_of_find?_eq_some hfind)
    exact ⟨i.1, i.2, hmem, by simpa using List.find?_some hfind, hi⟩
  · intro h
    obtain ⟨p, i, hp, hhash, hi⟩ := h
    have hin : ∀ {q : String} {j : InputDrv}, d.inputDrvs[q]? = some j → q ∈ d.inputDrvs := fun hq =>
      Std.ExtTreeMap.mem_iff_isSome_getElem?.mpr (by rw [hq]; rfl)
    cases hfind : d.inputDrvs.toList.find? fun i => storePathHash i.1 == some hash with
    | none =>
        have hno := List.find?_eq_none.mp hfind (p, i) (Std.ExtTreeMap.mem_toList_iff_getElem?_eq_some.mpr hp)
        simp [hhash] at hno
    | some j =>
        have hj := Std.ExtTreeMap.mem_toList_iff_getElem?_eq_some.mp (List.mem_of_find?_eq_some hfind)
        have hhash' : storePathHash j.1 = some hash := by simpa using List.find?_some hfind
        have heq := hd.inputs p j.1 hash (hin hp) (hin hj) hhash hhash'
        rw [← heq, hp] at hj
        cases hj
        exact ⟨j, rfl, hi⟩

/-! ## One predicate at a time -/

/-- A property of the derivation itself is stated at the head only. -/
theorem States.at_head {q : String} (hq : q ∈ headWords)
    (h : States x drvPath d srcHashes n (addStr n (nix q) v)) : addStr n (nix q) v ∈ headTriples x drvPath d n := by
  have hlinks : ∀ w ∈ ["inputDrv", "dependsOn", "inputDrvOutput", "inputSrc", "hasOutput", "outputName", "storePath"],
      nix q ≠ nix w := by
    intro w hw heq
    rw [nix_inj] at heq
    rw [heq] at hq
    have hno : ∀ w ∈ ["inputDrv", "dependsOn", "inputDrvOutput", "inputSrc", "hasOutput", "outputName", "storePath"],
        w ∉ headWords := by decide
    exact hno w hw hq
  generalize ht : addStr n (nix q) v = t at h
  have hp : t.p = nix q := by rw [← ht, addStr_p]
  cases h with
  | head h => exact h
  | input _ _ h =>
      simp only [List.mem_cons, List.not_mem_nil, or_false] at h
      rcases h with rfl | rfl <;> exact absurd hp.symm (hlinks _ (by simp))
  | consumed _ _ _ => exact absurd hp.symm (hlinks "inputDrvOutput" (by simp))
  | source _ _ => exact absurd hp.symm (hlinks "inputSrc" (by simp))
  | output _ _ _ h =>
      simp only [List.mem_cons, List.not_mem_nil, or_false] at h
      rcases h with rfl | rfl | rfl | rfl
      · exact absurd hp.symm (hlinks "hasOutput" (by simp))
      · exact absurd hp (rdfType_ne_nix q)
      · exact absurd hp.symm (hlinks "outputName" (by simp))
      · exact absurd hp.symm (hlinks "storePath" (by simp))

theorem States.name_eq (h : States x drvPath d srcHashes n (addStr n (nix "name") v)) : v = d.name := by
  simpa [headTriples, wellKnown, addType, addIri, addBool, addTyped, addStr, add] using h.at_head (by decide)

theorem States.system_eq (h : States x drvPath d srcHashes n (addStr n (nix "system") v)) : v = d.system := by
  simpa [headTriples, wellKnown, addType, addIri, addBool, addTyped, addStr, add] using h.at_head (by decide)

theorem States.builder_eq (h : States x drvPath d srcHashes n (addStr n (nix "builder") v)) : v = d.builder := by
  simpa [headTriples, wellKnown, addType, addIri, addBool, addTyped, addStr, add] using h.at_head (by decide)

/-- An argument stands with its position. -/
theorem States.arg (h : States x drvPath d srcHashes n (addStr n (nix "arg") v)) :
    ∃ (i : Nat) (a : String), d.args[i]? = some a ∧ v = toString i ++ ":" ++ a := by
  have hmem := h.at_head (by decide)
  simp only [headTriples, wellKnown, List.mem_append, List.mem_map, List.mem_filterMap,
    Option.map_eq_some_iff] at hmem
  rcases hmem with ((hmem | ⟨a, ha, hmem⟩) | ⟨k, _, w, _, hmem⟩) | hmem
  · simp [addType, addIri, addTyped, addStr, add] at hmem
  · exact ⟨a.2, a.1, List.mem_zipIdx_iff_getElem?.mp ha, (addStr_inj.mp hmem).2.2.symm⟩
  · have hp := congrArg Triple.p hmem
    by_cases hk : k = "pname" <;> simp [hk] at hp
  · simp [addBool, addTyped, addStr, add] at hmem

theorem States.inputDrv {m : Iri} (h : States x drvPath d srcHashes n (addIri n (nix "inputDrv") m)) :
    ∃ (p ih : String) (i : InputDrv), d.inputDrvs[p]? = some i ∧ storePathHash p = some ih ∧ m = Iri.drv ih := by
  cases h with
  | head h => exact absurd h (not_head (q := "inputDrv") (by decide) rfl)
  | input hi hih h =>
      simp only [List.mem_cons, addIri_inj, nix_inj, List.not_mem_nil, or_false, true_and] at h
      rcases h with h | h
      · exact ⟨_, _, _, hi, hih, h⟩
      · exact absurd h.1 (by decide)
  | output _ _ _ h => simp [addType, addIri, addTyped, addStr, add] at h

/-- A consumed output stands with the hash of the input. -/
theorem States.inputDrvOutput (h : States x drvPath d srcHashes n (addStr n (nix "inputDrvOutput") v)) :
    ∃ (p ih o : String) (i : InputDrv), d.inputDrvs[p]? = some i ∧ storePathHash p = some ih ∧ o ∈ i.outputs ∧
      v = ih ++ "!" ++ o := by
  generalize ht : addStr n (nix "inputDrvOutput") v = t at h
  have hp : t.p = nix "inputDrvOutput" := by rw [← ht, addStr_p]
  cases h with
  | head h => exact absurd h (not_head (by decide) hp)
  | input _ _ h =>
      simp only [List.mem_cons, List.not_mem_nil, or_false] at h
      rcases h with rfl | rfl <;> simp at hp
  | consumed hi hih ho => exact ⟨_, _, _, _, hi, hih, ho, (addStr_inj.mp ht).2.2⟩
  | source _ _ => simp at hp
  | output _ _ _ h =>
      simp only [List.mem_cons, List.not_mem_nil, or_false] at h
      rcases h with rfl | rfl | rfl | rfl <;> simp at hp

/-- What is stated with the predicates of outputs is stated of a known output. -/
theorem States.output_of {t : Triple} (h : States x drvPath d srcHashes n t)
    (hp : t.p = nix "hasOutput" ∨ t.p = nix "outputName" ∨ t.p = nix "storePath") :
    ∃ (name p oh : String) (o : OutputInfo), d.outputs[name]? = some o ∧ o.path = some p ∧
      storePathHash p = some oh ∧ (t = addIri n (nix "hasOutput") (Iri.out oh) ∨
        t = addStr (Iri.out oh) (nix "outputName") name ∨ t = addStr (Iri.out oh) (nix "storePath") p) := by
  cases h with
  | head h =>
      rcases hp with hp | hp | hp <;> exact absurd h (not_head (by decide) hp)
  | input _ _ h =>
      simp only [List.mem_cons, List.not_mem_nil, or_false] at h
      rcases h with rfl | rfl <;> simp at hp
  | consumed _ _ _ => simp at hp
  | source _ _ => simp at hp
  | output ho hpath hoh h =>
      simp only [List.mem_cons, List.not_mem_nil, or_false] at h
      rcases h with rfl | rfl | rfl | rfl
      · exact ⟨_, _, _, _, ho, hpath, hoh, .inl rfl⟩
      · simp at hp
      · exact ⟨_, _, _, _, ho, hpath, hoh, .inr (.inl rfl)⟩
      · exact ⟨_, _, _, _, ho, hpath, hoh, .inr (.inr rfl)⟩

end

/-! ## Whole fields -/

section
variable {x : Extern} {drvPath : String} {d d' : DrvInfo} {srcHashes srcHashes' : BTreeMap String} {n : Iri}

theorem argText_inj {i j : Nat} {a b : String} (h : toString i ++ ":" ++ a = toString j ++ ":" ++ b) :
    i = j ∧ a = b := by
  have hi := Text.splitOnce_append (Text.not_mem_toString (c := ':') (by decide) i) a
  have hj := Text.splitOnce_append (Text.not_mem_toString (c := ':') (by decide) j) b
  have h : toString i ++ String.singleton ':' ++ a = toString j ++ String.singleton ':' ++ b := h
  rw [h, hj, Option.some.injEq, Prod.mk.injEq] at hi
  exact ⟨(Text.toString_inj hi.1).symm, hi.2.symm⟩

theorem consumedText_inj {p p' ih ih' o o' : String} (hih : storePathHash p = some ih)
    (hih' : storePathHash p' = some ih') (h : ih ++ "!" ++ o = ih' ++ "!" ++ o') : ih = ih' ∧ o = o' := by
  have hs := Text.splitOnce_append ((alphanumeric_of_storePathHash hih).not_mem (c := '!') (by decide)) o
  have hs' := Text.splitOnce_append ((alphanumeric_of_storePathHash hih').not_mem (c := '!') (by decide)) o'
  have h : ih ++ String.singleton '!' ++ o = ih' ++ String.singleton '!' ++ o' := h
  rw [h, hs', Option.some.injEq, Prod.mk.injEq] at hs
  exact ⟨hs.1.symm, hs.2.symm⟩

/-- Whatever the fragment of one derivation states, that of the other states too. -/
def Included (x : Extern) (drvPath : String) (n : Iri) (d d' : DrvInfo) (srcHashes srcHashes' : BTreeMap String) :
    Prop :=
  ∀ t, States x drvPath d srcHashes n t → States x drvPath d' srcHashes' n t

namespace Included

variable (h : Included x drvPath n d d' srcHashes srcHashes')
include h

theorem name : d.name = d'.name :=
  (h _ (.head (by simp [headTriples]) : States x drvPath d srcHashes n (addStr n (nix "name") d.name))).name_eq

theorem system : d.system = d'.system :=
  (h _ (.head (by simp [headTriples]) : States x drvPath d srcHashes n (addStr n (nix "system") d.system))).system_eq

theorem builder : d.builder = d'.builder :=
  (h _ (.head (by simp [headTriples]) :
    States x drvPath d srcHashes n (addStr n (nix "builder") d.builder))).builder_eq

theorem arg {i : Nat} {a : String} (ha : d.args[i]? = some a) : d'.args[i]? = some a := by
  have hmem : addStr n (nix "arg") (toString i ++ ":" ++ a) ∈ headTriples x drvPath d n := by
    simp only [headTriples, List.mem_append, List.mem_map]
    exact .inl (.inl (.inr ⟨(a, i), List.mem_zipIdx_iff_getElem?.mpr ha, rfl⟩))
  obtain ⟨j, b, hb, heq⟩ := (h _ (.head hmem)).arg
  obtain ⟨rfl, rfl⟩ := argText_inj heq
  exact hb

theorem input {p ih : String} {i : InputDrv} (hi : d.inputDrvs[p]? = some i) (hih : storePathHash p = some ih) :
    ∃ (p' : String) (i' : InputDrv), d'.inputDrvs[p']? = some i' ∧ storePathHash p' = some ih := by
  obtain ⟨p', ih', i', hi', hih', heq⟩ := (h _ (.input hi hih List.mem_cons_self)).inputDrv
  rw [Iri.drv_inj.mp heq]
  exact ⟨p', i', hi', hih'⟩

theorem consumed (hd' : DistinctHashes d') {p p' ih : String} {i i' : InputDrv} (hi : d.inputDrvs[p]? = some i)
    (hih : storePathHash p = some ih) (hi' : d'.inputDrvs[p']? = some i') (hih' : storePathHash p' = some ih) :
    i.outputs.toFinset ⊆ i'.outputs.toFinset := by
  intro o ho
  rw [List.mem_toFinset] at ho ⊢
  obtain ⟨q, ih₂, o₂, j, hj, hq, ho₂, heq⟩ := (h _ (.consumed hi hih ho)).inputDrvOutput
  obtain ⟨rfl, rfl⟩ := consumedText_inj hih hq heq
  have hin : ∀ {q : String} {j : InputDrv}, d'.inputDrvs[q]? = some j → q ∈ d'.inputDrvs := fun hq =>
    Std.ExtTreeMap.mem_iff_isSome_getElem?.mpr (by rw [hq]; rfl)
  have hpq := hd'.inputs p' q ih (hin hi') (hin hj) hih' hq
  rw [hpq, hj] at hi'
  cases hi'
  exact ho₂

theorem narHashes_subset (hsri : SriSources srcHashes d) (hsri' : SriSources srcHashes' d') :
    narHashes srcHashes d ⊆ narHashes srcHashes' d' := by
  intro nar hnar
  rw [narHashes, List.mem_toFinset, List.mem_filterMap] at hnar ⊢
  obtain ⟨src, hsrc, hnar⟩ := hnar
  obtain ⟨src', nar', hsrc', hnar', heq⟩ := (h _ (.source hsrc hnar)).inputSrc rfl
  have hseg := Iri.src_inj.mp (addIri_inj.mp heq).2.2
  refine ⟨src', hsrc', ?_⟩
  rw [hnar', ← decodeNar_narHashSegment (hsri src hsrc nar hnar), hseg,
    decodeNar_narHashSegment (hsri' src' hsrc' nar' hnar')]

theorem knownPath_eq (hhashed : Hashed d srcHashes) (hd' : DistinctHashes d') {name p : String}
    (hp : knownPath d name = some p) : knownPath d' name = some p := by
  obtain ⟨o, ho, hp⟩ := Option.bind_eq_some_iff.mp hp
  obtain ⟨oh, hoh⟩ := hhashed.outputs name o p ho hp
  have hname := (h _ (.output ho hp hoh (t := addStr (Iri.out oh) (nix "outputName") name) (by simp))).output_of
    (.inr (.inl rfl))
  have hpath := (h _ (.output ho hp hoh (t := addStr (Iri.out oh) (nix "storePath") p) (by simp))).output_of
    (.inr (.inr rfl))
  obtain ⟨name₁, p₁, oh₁, o₁, ho₁, hp₁, hoh₁, ht₁⟩ := hname
  obtain ⟨name₂, p₂, oh₂, o₂, ho₂, hp₂, hoh₂, ht₂⟩ := hpath
  have h₁ : Iri.out oh = Iri.out oh₁ ∧ name = name₁ := by
    rcases ht₁ with ht | ht | ht
    · exact absurd (congrArg Triple.p ht) (by simp)
    · exact ⟨(addStr_inj.mp ht).1, (addStr_inj.mp ht).2.2⟩
    · exact absurd (congrArg Triple.p ht) (by simp)
  have h₂ : Iri.out oh = Iri.out oh₂ ∧ p = p₂ := by
    rcases ht₂ with ht | ht | ht
    · exact absurd (congrArg Triple.p ht) (by simp)
    · exact absurd (congrArg Triple.p ht) (by simp)
    · exact ⟨(addStr_inj.mp ht).1, (addStr_inj.mp ht).2.2⟩
  obtain ⟨hout₁, rfl⟩ := h₁
  obtain ⟨hout₂, rfl⟩ := h₂
  -- the name and the path stand at one node, which is that of one output
  rw [← Iri.out_inj.mp hout₁] at hoh₁
  rw [← Iri.out_inj.mp hout₂] at hoh₂
  have heq := hd'.outputs name name₂ o₁ o₂ p₁ p oh ho₁ ho₂ hp₁ hp₂ hoh₁ hoh₂
  rw [knownPath, heq, ho₂]
  exact hp₂

end Included

/-- Equal fragments come from the same content. -/
theorem sameContent_of_included (hle : Included x drvPath n d d' srcHashes srcHashes')
    (hge : Included x drvPath n d' d srcHashes' srcHashes) (hd : DistinctHashes d) (hd' : DistinctHashes d')
    (hhashed : Hashed d srcHashes) (hhashed' : Hashed d' srcHashes') :
    SameContent d d' srcHashes srcHashes' where
  name := hle.name
  system := hle.system
  builder := hle.builder
  args := List.ext_getElem? fun _ => Option.ext fun _ => ⟨hle.arg, hge.arg⟩
  consumed := by
    have hsub : ∀ {e e' : DrvInfo} {s s' : BTreeMap String}, Included x drvPath n e e' s s' →
        Included x drvPath n e' e s' s → DistinctHashes e → DistinctHashes e' →
          ∀ {hash : String} {outs : Finset String},
          consumedOf e hash = some outs → consumedOf e' hash = some outs := by
      intro e e' s s' hle hge he he' hash outs houts
      obtain ⟨p, i, hi, hih, rfl⟩ := (consumedOf_eq_some he).mp houts
      obtain ⟨p', i', hi', hih'⟩ := hle.input hi hih
      refine (consumedOf_eq_some he').mpr ⟨p', i', hi', hih', ?_⟩
      exact (hge.consumed he hi' hih' hi hih).antisymm (hle.consumed he' hi hih hi' hih')
    funext hash
    exact Option.ext fun outs => ⟨hsub hle hge hd hd', hsub hge hle hd' hd⟩
  sources hsri hsri' := (hle.narHashes_subset hsri hsri').antisymm (hge.narHashes_subset hsri' hsri)
  outputs := by
    funext name
    exact Option.ext fun p => ⟨hle.knownPath_eq hhashed hd', hge.knownPath_eq hhashed' hd⟩

end

/-! ## What has no influence -/

section
variable {x : Extern} {drvPath : String} {d d' : DrvInfo} {srcHashes srcHashes' : BTreeMap String} {f : Fragment}

theorem derivationFragment_of_same (h : derivationFragment x drvPath d srcHashes = .ok f)
    (hhashed : Hashed d srcHashes → Hashed d' srcHashes')
    (hstates : ∀ n t, States x drvPath d srcHashes n t ↔ States x drvPath d' srcHashes' n t) :
    derivationFragment x drvPath d' srcHashes' = .ok f := by
  obtain ⟨hpath, hd⟩ := exists_derivationFragment.mp ⟨f, h⟩
  obtain ⟨f', h'⟩ := (exists_derivationFragment (x := x)).mpr ⟨hpath, hhashed hd⟩
  obtain ⟨hash, hhash, hkind, hlines⟩ := mem_derivationFragment h
  obtain ⟨hash', hhash', hkind', hlines'⟩ := mem_derivationFragment h'
  cases hhash.symm.trans hhash'
  have heq : f' = f := by
    obtain ⟨kind, lines⟩ := f
    obtain ⟨kind', lines'⟩ := f'
    cases hkind.trans hkind'.symm
    congr 1
    ext t
    rw [hlines, hlines', hstates]
  rw [← heq]
  exact h'

theorem derivationFragment_congr (hhashed : Hashed d srcHashes ↔ Hashed d' srcHashes')
    (hstates : ∀ n t, States x drvPath d srcHashes n t ↔ States x drvPath d' srcHashes' n t) :
    derivationFragment x drvPath d srcHashes = .ok f ↔ derivationFragment x drvPath d' srcHashes' = .ok f :=
  ⟨fun h => derivationFragment_of_same h hhashed.mp hstates,
    fun h => derivationFragment_of_same h hhashed.mpr fun n t => (hstates n t).symm⟩

/-- Two derivations that differ in their sources only, with the same NAR hashes for them. -/
theorem derivationFragment_sources {srcs : List String}
    (h : ∀ src nar : String, src ∈ srcs ∧ srcHashes'[src]? = some nar ↔ src ∈ d.inputSrcs ∧
      srcHashes[src]? = some nar)
    (hmem : ∀ src, src ∈ srcs ↔ src ∈ d.inputSrcs) :
    derivationFragment x drvPath { d with inputSrcs := srcs } srcHashes' = .ok f ↔
      derivationFragment x drvPath d srcHashes = .ok f := by
  refine derivationFragment_congr ⟨fun hd => ⟨hd.inputs, fun src hsrc => ?_, hd.outputs⟩,
    fun hd => ⟨hd.inputs, fun src hsrc => ?_, hd.outputs⟩⟩ fun n t => ⟨fun ht => ?_, fun ht => ?_⟩
  · obtain ⟨nar, hnar⟩ := hd.srcs src ((hmem src).mpr hsrc)
    exact ⟨nar, ((h src nar).mp ⟨(hmem src).mpr hsrc, hnar⟩).2⟩
  · obtain ⟨nar, hnar⟩ := hd.srcs src ((hmem src).mp hsrc)
    exact ⟨nar, ((h src nar).mpr ⟨(hmem src).mp hsrc, hnar⟩).2⟩
  · cases ht with
    | head ht => exact .head ht
    | input hi hih ht => exact .input hi hih ht
    | consumed hi hih ho => exact .consumed hi hih ho
    | source hsrc hnar =>
        obtain ⟨hsrc, hnar⟩ := (h _ _).mp ⟨hsrc, hnar⟩
        exact .source hsrc hnar
    | output ho hp hoh ht => exact .output ho hp hoh ht
  · cases ht with
    | head ht => exact .head ht
    | input hi hih ht => exact .input hi hih ht
    | consumed hi hih ho => exact .consumed hi hih ho
    | source hsrc hnar =>
        obtain ⟨hsrc, hnar⟩ := (h _ _).mpr ⟨hsrc, hnar⟩
        exact .source hsrc hnar
    | output ho hp hoh ht => exact .output ho hp hoh ht

theorem exists_of_map_eq {inputs inputs' : BTreeMap InputDrv}
    (h : ∀ q : String, (inputs[q]?).map InputDrv.outputs = (inputs'[q]?).map InputDrv.outputs) {p : String}
    {i : InputDrv} (hi : inputs[p]? = some i) : ∃ i' : InputDrv, inputs'[p]? = some i' ∧ i'.outputs = i.outputs := by
  have hp := h p
  rw [hi, Option.map_some, eq_comm] at hp
  exact Option.map_eq_some_iff.mp hp

theorem Hashed.of_inputs {inputs : BTreeMap InputDrv}
    (h : ∀ q : String, (inputs[q]?).map InputDrv.outputs = (d.inputDrvs[q]?).map InputDrv.outputs) :
    Hashed { d with inputDrvs := inputs } srcHashes ↔ Hashed d srcHashes := by
  have hmem : ∀ p, p ∈ inputs ↔ p ∈ d.inputDrvs := by
    intro p
    have hp := congrArg Option.isSome (h p)
    rw [Option.isSome_map, Option.isSome_map] at hp
    rw [Std.ExtTreeMap.mem_iff_isSome_getElem?, Std.ExtTreeMap.mem_iff_isSome_getElem?, hp]
  exact ⟨fun hd => ⟨fun p hp => hd.inputs p ((hmem p).mpr hp), hd.srcs, hd.outputs⟩,
    fun hd => ⟨fun p hp => hd.inputs p ((hmem p).mp hp), hd.srcs, hd.outputs⟩⟩

theorem States.of_inputs {inputs inputs' : BTreeMap InputDrv}
    (h : ∀ q : String, (inputs[q]?).map InputDrv.outputs = (inputs'[q]?).map InputDrv.outputs) {n : Iri} {t : Triple}
    (ht : States x drvPath { d with inputDrvs := inputs } srcHashes n t) :
    States x drvPath { d with inputDrvs := inputs' } srcHashes n t := by
  cases ht with
  | head ht => exact .head ht
  | input hi hih ht =>
      obtain ⟨i', hi', _⟩ := exists_of_map_eq h hi
      exact .input hi' hih ht
  | consumed hi hih ho =>
      obtain ⟨i', hi', houts⟩ := exists_of_map_eq h hi
      rw [← houts] at ho
      exact .consumed hi' hih ho
  | source hsrc hnar => exact .source hsrc hnar
  | output ho hp hoh ht => exact .output ho hp hoh ht

/-- An input may be given as a list of outputs or in the structured form. -/
theorem derivationFragment_inputs {inputs : BTreeMap InputDrv}
    (h : ∀ q : String, (inputs[q]?).map InputDrv.outputs = (d.inputDrvs[q]?).map InputDrv.outputs) :
    derivationFragment x drvPath { d with inputDrvs := inputs } srcHashes = .ok f ↔
      derivationFragment x drvPath d srcHashes = .ok f :=
  derivationFragment_congr (Hashed.of_inputs h) fun _ _ =>
    ⟨States.of_inputs (d := d) h, States.of_inputs (d := d) fun q => (h q).symm⟩

/-- Derivations with one path and one fragment have the same content, and the fragment depends neither on
NAR hashes of other sources, nor on the order of the sources, nor on the form of the inputs. -/
theorem derivationFragment_lossless_local (x : Extern) (drvPath : String) :
    (∀ (d d' : DrvInfo) (srcHashes srcHashes' : BTreeMap String) (f : Fragment), DistinctHashes d →
      DistinctHashes d' →
      derivationFragment x drvPath d srcHashes = .ok f → derivationFragment x drvPath d' srcHashes' = .ok f →
        SameContent d d' srcHashes srcHashes') ∧
    ∀ (d : DrvInfo) (srcHashes : BTreeMap String) (f : Fragment),
      (∀ srcHashes' : BTreeMap String, (∀ src ∈ d.inputSrcs, srcHashes'[src]? = srcHashes[src]?) →
        (derivationFragment x drvPath d srcHashes' = .ok f ↔ derivationFragment x drvPath d srcHashes = .ok f)) ∧
      (∀ srcs : List String, (∀ src, src ∈ srcs ↔ src ∈ d.inputSrcs) →
        (derivationFragment x drvPath { d with inputSrcs := srcs } srcHashes = .ok f ↔
          derivationFragment x drvPath d srcHashes = .ok f)) ∧
      ∀ inputs : BTreeMap InputDrv,
        (∀ q : String, (inputs[q]?).map InputDrv.outputs = (d.inputDrvs[q]?).map InputDrv.outputs) →
          (derivationFragment x drvPath { d with inputDrvs := inputs } srcHashes = .ok f ↔
            derivationFragment x drvPath d srcHashes = .ok f) := by
  refine ⟨fun d d' srcHashes srcHashes' f hd hd' h h' => ?_, fun d srcHashes f => ⟨?_, ?_, ?_⟩⟩
  · obtain ⟨hash, hhash, _, hlines⟩ := mem_derivationFragment h
    obtain ⟨hash', hhash', _, hlines'⟩ := mem_derivationFragment h'
    cases hhash.symm.trans hhash'
    have hle : Included x drvPath (Iri.drv hash) d d' srcHashes srcHashes' :=
      fun t ht => (hlines' t).mp ((hlines t).mpr ht)
    have hge : Included x drvPath (Iri.drv hash) d' d srcHashes' srcHashes :=
      fun t ht => (hlines t).mp ((hlines' t).mpr ht)
    exact sameContent_of_included hle hge hd hd' (exists_derivationFragment.mp ⟨f, h⟩).2
      (exists_derivationFragment.mp ⟨f, h'⟩).2
  · intro srcHashes' hsame
    refine derivationFragment_sources (fun src nar => ?_) (fun _ : String => Iff.rfl)
    exact and_congr_right fun hsrc => by rw [hsame src hsrc]
  · intro srcs hsrcs
    exact derivationFragment_sources (fun src nar => and_congr_left fun _ => hsrcs src) hsrcs
  · intro inputs hinputs
    exact derivationFragment_inputs hinputs

end

end Extract

end Nix2Rdf
