import Nix2Rdf.Extract.Sources

/-!
# What the fragment of a derivation says

A derivation has a fragment exactly when every path it names has a store hash and every source has a
NAR hash. The fragment states the derivation, its inputs, its sources and its known outputs, and
nothing else.
-/

namespace Nix2Rdf

open Triple

theorem Iri.out_inj {h h' : String} : Iri.out h = Iri.out h' ↔ h = h' := by
  simp [Iri.out, Text.slash_pair]

namespace Extract

variable {x : Extern} {drvPath : String} {d : DrvInfo} {srcHashes : BTreeMap String} {f : Fragment}

/-! ## When there is a fragment -/

/-- Every path that the fragment names by a hash has one. -/
structure Hashed (d : DrvInfo) (srcHashes : BTreeMap String) : Prop where
  inputs : ∀ p ∈ d.inputDrvs, ∃ h, storePathHash p = some h
  srcs : ∀ src ∈ d.inputSrcs, ∃ nar, srcHashes[src]? = some nar
  outputs : ∀ (name : String) (o : OutputInfo) (p : String), d.outputs[name]? = some o → o.path = some p →
    ∃ h, storePathHash p = some h

theorem storeHash_ok {p : String} : (∃ h, storeHash p = .ok h) ↔ ∃ h, storePathHash p = some h :=
  exists_congr fun _ => storeHash_eq_ok

theorem inputTriples_eq_ok {n : Iri} {input : String × InputDrv} {ts : List Triple} :
    inputTriples n input = .ok ts ↔ ∃ ih, storePathHash input.1 = some ih ∧
      [addIri n (nix "inputDrv") (Iri.drv ih), addIri n (nix "dependsOn") (Iri.drv ih)]
        ++ input.2.outputs.map (fun o => addStr n (nix "inputDrvOutput") (ih ++ "!" ++ o)) = ts := by
  simp only [inputTriples, Result.bind_eq_ok, Result.pure_eq_ok, storeHash_eq_ok]

theorem sourceTriples_eq_ok {n : Iri} {src : String} {ts : List Triple} :
    sourceTriples drvPath srcHashes n src = .ok ts ↔
      ∃ nar, srcHashes[src]? = some nar ∧ [addIri n (nix "inputSrc") (Iri.src nar)] = ts := by
  rw [sourceTriples]
  cases srcHashes[src]? <;> simp

theorem outputTriples_eq_ok {n : Iri} {output : String × OutputInfo} {ts : List Triple} :
    outputTriples n output = .ok ts ↔ (output.2.path = none ∧ [] = ts) ∨
      ∃ p oh, output.2.path = some p ∧ storePathHash p = some oh ∧
        [addIri n (nix "hasOutput") (Iri.out oh), addType (Iri.out oh) (nix "Output"),
          addStr (Iri.out oh) (nix "outputName") output.1, addStr (Iri.out oh) (nix "storePath") p] = ts := by
  rw [outputTriples]
  cases output.2.path with
  | none => simp
  | some p => simp only [Result.bind_eq_ok, Result.pure_eq_ok, storeHash_eq_ok]; simp

theorem exists_derivationFragment : (∃ f, derivationFragment x drvPath d srcHashes = .ok f) ↔
    (∃ h, storePathHash drvPath = some h) ∧ Hashed d srcHashes := by
  constructor
  · intro h
    obtain ⟨f, h⟩ := h
    simp only [derivationFragment, Result.bind_eq_ok] at h
    obtain ⟨hash, hhash, inputs, hinputs, srcs, hsrcs, outs, houts, _⟩ := h
    refine ⟨⟨hash, storeHash_eq_ok.mp hhash⟩, ⟨fun p hp => ?_, fun src hsrc => ?_, fun name o p ho hp => ?_⟩⟩
    · obtain ⟨i, hi⟩ := Option.isSome_iff_exists.mp (Std.ExtTreeMap.mem_iff_isSome_getElem?.mp hp)
      obtain ⟨ts, _, hts⟩ := Result.mem_mapM hinputs (Std.ExtTreeMap.mem_toList_iff_getElem?_eq_some.mpr hi)
      obtain ⟨ih, hih, _⟩ := inputTriples_eq_ok.mp hts
      exact ⟨ih, hih⟩
    · obtain ⟨ts, _, hts⟩ := Result.mem_mapM hsrcs hsrc
      obtain ⟨nar, hnar, _⟩ := sourceTriples_eq_ok.mp hts
      exact ⟨nar, hnar⟩
    · obtain ⟨ts, _, hts⟩ := Result.mem_mapM houts (Std.ExtTreeMap.mem_toList_iff_getElem?_eq_some.mpr ho)
      rcases outputTriples_eq_ok.mp hts with ⟨hnone, _⟩ | ⟨p', oh, hp', hoh, _⟩
      · cases hnone.symm.trans hp
      · cases hp'.symm.trans hp
        exact ⟨oh, hoh⟩
  · intro h
    obtain ⟨⟨hash, hhash⟩, hd⟩ := h
    obtain ⟨inputs, hinputs⟩ : ∃ inputs, d.inputDrvs.toList.mapM (inputTriples (Iri.drv hash)) = .ok inputs := by
      refine Result.exists_mapM fun input hinput => ?_
      have hi := Std.ExtTreeMap.mem_toList_iff_getElem?_eq_some.mp hinput
      obtain ⟨ih, hih⟩ := hd.inputs input.1 (Std.ExtTreeMap.mem_iff_isSome_getElem?.mpr (by rw [hi]; rfl))
      exact ⟨_, inputTriples_eq_ok.mpr ⟨ih, hih, rfl⟩⟩
    obtain ⟨srcs, hsrcs⟩ : ∃ srcs, d.inputSrcs.mapM (sourceTriples drvPath srcHashes (Iri.drv hash)) = .ok srcs := by
      refine Result.exists_mapM fun src hsrc => ?_
      obtain ⟨nar, hnar⟩ := hd.srcs src hsrc
      exact ⟨_, sourceTriples_eq_ok.mpr ⟨nar, hnar, rfl⟩⟩
    obtain ⟨outs, houts⟩ : ∃ outs, d.outputs.toList.mapM (outputTriples (Iri.drv hash)) = .ok outs := by
      refine Result.exists_mapM fun output houtput => ?_
      have ho := Std.ExtTreeMap.mem_toList_iff_getElem?_eq_some.mp houtput
      cases hp : output.2.path with
      | none => exact ⟨_, outputTriples_eq_ok.mpr (.inl ⟨hp, rfl⟩)⟩
      | some p =>
          obtain ⟨oh, hoh⟩ := hd.outputs output.1 output.2 p ho hp
          exact ⟨_, outputTriples_eq_ok.mpr (.inr ⟨p, oh, hp, hoh, rfl⟩)⟩
    simp only [derivationFragment, Result.bind_eq_ok, Result.pure_eq_ok]
    exact ⟨_, hash, storeHash_eq_ok.mpr hhash, inputs, hinputs, srcs, hsrcs, outs, houts, rfl⟩

/-! ## What it says -/

/-- What the fragment of a derivation states, about the node of the derivation and those of its outputs. -/
inductive States (x : Extern) (drvPath : String) (d : DrvInfo) (srcHashes : BTreeMap String) (n : Iri) :
    Triple → Prop
  | head {t : Triple} : t ∈ headTriples x drvPath d n → States x drvPath d srcHashes n t
  | input {p ih : String} {i : InputDrv} {t : Triple} : d.inputDrvs[p]? = some i → storePathHash p = some ih →
      t ∈ [addIri n (nix "inputDrv") (Iri.drv ih), addIri n (nix "dependsOn") (Iri.drv ih)] →
      States x drvPath d srcHashes n t
  | consumed {p ih o : String} {i : InputDrv} : d.inputDrvs[p]? = some i → storePathHash p = some ih →
      o ∈ i.outputs → States x drvPath d srcHashes n (addStr n (nix "inputDrvOutput") (ih ++ "!" ++ o))
  | source {src nar : String} : src ∈ d.inputSrcs → srcHashes[src]? = some nar →
      States x drvPath d srcHashes n (addIri n (nix "inputSrc") (Iri.src nar))
  | output {name p oh : String} {o : OutputInfo} {t : Triple} : d.outputs[name]? = some o → o.path = some p →
      storePathHash p = some oh →
      t ∈ [addIri n (nix "hasOutput") (Iri.out oh), addType (Iri.out oh) (nix "Output"),
        addStr (Iri.out oh) (nix "outputName") name, addStr (Iri.out oh) (nix "storePath") p] →
      States x drvPath d srcHashes n t

/-- The fragment states just this. -/
theorem mem_derivationFragment (h : derivationFragment x drvPath d srcHashes = .ok f) :
    ∃ hash, storePathHash drvPath = some hash ∧ f.kind = .drv hash ∧
      ∀ t, t ∈ f.lines ↔ States x drvPath d srcHashes (Iri.drv hash) t := by
  simp only [derivationFragment, Result.bind_eq_ok, Result.pure_eq_ok] at h
  obtain ⟨hash, hhash, inputs, hinputs, srcs, hsrcs, outs, houts, rfl⟩ := h
  refine ⟨hash, storeHash_eq_ok.mp hhash, rfl, fun t => ?_⟩
  simp only [Fragment.mem_ofTriples, List.mem_append, List.mem_flatten]
  constructor
  · intro ht
    rcases ht with ((ht | ⟨ts, hts, ht⟩) | ⟨ts, hts, ht⟩) | ⟨ts, hts, ht⟩
    · exact .head ht
    · obtain ⟨input, hinput, hok⟩ := Result.mem_of_mapM hinputs hts
      obtain ⟨ih, hih, rfl⟩ := inputTriples_eq_ok.mp hok
      have hi := Std.ExtTreeMap.mem_toList_iff_getElem?_eq_some.mp hinput
      rcases List.mem_append.mp ht with ht | ht
      · exact .input hi hih ht
      · obtain ⟨o, ho, rfl⟩ := List.mem_map.mp ht
        exact .consumed hi hih ho
    · obtain ⟨src, hsrc, hok⟩ := Result.mem_of_mapM hsrcs hts
      obtain ⟨nar, hnar, rfl⟩ := sourceTriples_eq_ok.mp hok
      cases List.mem_singleton.mp ht
      exact .source hsrc hnar
    · obtain ⟨output, houtput, hok⟩ := Result.mem_of_mapM houts hts
      have ho := Std.ExtTreeMap.mem_toList_iff_getElem?_eq_some.mp houtput
      rcases outputTriples_eq_ok.mp hok with ⟨_, rfl⟩ | ⟨p, oh, hp, hoh, rfl⟩
      · cases ht
      · exact .output ho hp hoh ht
  · intro ht
    cases ht with
    | head ht => exact .inl (.inl (.inl ht))
    | input hi hih ht =>
        obtain ⟨ts, hts, hok⟩ := Result.mem_mapM hinputs (Std.ExtTreeMap.mem_toList_iff_getElem?_eq_some.mpr hi)
        obtain ⟨ih', hih', rfl⟩ := inputTriples_eq_ok.mp hok
        cases hih.symm.trans hih'
        exact .inl (.inl (.inr ⟨_, hts, List.mem_append_left _ ht⟩))
    | consumed hi hih ho =>
        obtain ⟨ts, hts, hok⟩ := Result.mem_mapM hinputs (Std.ExtTreeMap.mem_toList_iff_getElem?_eq_some.mpr hi)
        obtain ⟨ih', hih', rfl⟩ := inputTriples_eq_ok.mp hok
        cases hih.symm.trans hih'
        exact .inl (.inl (.inr ⟨_, hts, List.mem_append_right _ (List.mem_map_of_mem ho)⟩))
    | source hsrc hnar =>
        obtain ⟨ts, hts, hok⟩ := Result.mem_mapM hsrcs hsrc
        obtain ⟨nar', hnar', rfl⟩ := sourceTriples_eq_ok.mp hok
        cases hnar.symm.trans hnar'
        exact .inl (.inr ⟨_, hts, List.mem_cons_self⟩)
    | output ho hp hoh ht =>
        obtain ⟨ts, hts, hok⟩ := Result.mem_mapM houts (Std.ExtTreeMap.mem_toList_iff_getElem?_eq_some.mpr ho)
        rcases outputTriples_eq_ok.mp hok with ⟨hnone, _⟩ | ⟨p', oh', hp', hoh', rfl⟩
        · cases hnone.symm.trans hp
        · cases hp.symm.trans hp'
          cases hoh.symm.trans hoh'
          exact .inr ⟨_, hts, ht⟩

section
variable {n : Iri} {t : Triple}

/-- The properties of the derivation itself. -/
def headWords : List String :=
  ["drvPath", "name", "system", "builder", "arg", "pname", "version", "envHash", "structuredAttrs",
    "contentAddressed"]

theorem headTriples_p (h : t ∈ headTriples x drvPath d n) :
    t.p = rdfType ∨ ∃ q ∈ headWords, t.p = nix q := by
  simp only [headTriples, List.mem_append, List.mem_map, List.mem_filterMap, Option.map_eq_some_iff] at h
  rcases h with ((h | ⟨a, _, rfl⟩) | ⟨k, _, w, _, rfl⟩) | h
  · simp only [List.mem_cons, List.not_mem_nil, or_false] at h
    rcases h with rfl | rfl | rfl | rfl | rfl <;> simp [headWords]
  · simp [headWords]
  · by_cases hk : k = "pname" <;> simp [headWords, hk]
  · simp only [List.mem_cons, List.not_mem_nil, or_false] at h
    rcases h with rfl | rfl | rfl <;> simp [headWords]

theorem not_head {q : String} (hq : q ∉ headWords) (ht : t.p = nix q) :
    t ∉ headTriples x drvPath d n := by
  intro h
  rcases headTriples_p h with hp | ⟨q', hq', hp⟩
  · rw [ht] at hp
    exact nix_ne_rdfType q hp
  · rw [ht, nix_inj] at hp
    exact hq (hp ▸ hq')

/-- A source that is pointed at is one of the derivation, by its NAR hash. -/
theorem States.inputSrc (h : States x drvPath d srcHashes n t) (hp : t.p = nix "inputSrc") :
    ∃ src nar, src ∈ d.inputSrcs ∧ srcHashes[src]? = some nar ∧ t = addIri n (nix "inputSrc") (Iri.src nar) := by
  cases h with
  | head h => exact absurd h (not_head (by decide) hp)
  | input _ _ h =>
      simp only [List.mem_cons, List.not_mem_nil, or_false] at h
      rcases h with rfl | rfl <;> simp at hp
  | consumed _ _ _ => simp at hp
  | source hsrc hnar => exact ⟨_, _, hsrc, hnar, rfl⟩
  | output _ _ _ h =>
      simp only [List.mem_cons, List.not_mem_nil, or_false] at h
      rcases h with rfl | rfl | rfl | rfl <;> simp at hp

end

end Extract

end Nix2Rdf
