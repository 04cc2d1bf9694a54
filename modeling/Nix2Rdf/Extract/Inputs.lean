import Nix2Rdf.Extract.Follows
import Nix2Rdf.Packs.Program
import Mathlib.Order.Filter.Finite

/-!
# Flake inputs end to end

The edges of the lock graph, and what the core pack derives from them: an input resolves to the pin
it is pinned to, or to what the input that it follows resolves to.
-/

namespace Nix2Rdf.Flake.Lock

open Filter Packs Triple

variable {k : Lock}

theorem eq_of_singleton_eq_append {name last : String} {before : List String}
    (h : [name] = before ++ [last]) : before = [] ∧ last = name := by
  cases before with
  | nil => exact ⟨rfl, (List.singleton_inj.mp h).symm⟩
  | cons x xs => simp at h

/-! ## The edges -/

/-- A triple that resolution does not read. -/
def Beside (t : Triple) : Prop :=
  t.p ≠ nix "pinnedTo" ∧ t.p ≠ nix "follows" ∧ t.p ≠ nix "resolvesTo"

theorem beside_addPin {pin : Iri} {locked : Json} {t : Triple} (h : t ∈ addPin pin locked) :
    Beside t := by
  simp only [addPin, List.mem_append, List.mem_cons, List.not_mem_nil, or_false, List.mem_map] at h
  rcases h with ((((((((rfl | ⟨_, _, rfl⟩) | ⟨_, _, rfl⟩) | ⟨_, _, rfl⟩) | ⟨_, _, rfl⟩) | ⟨_, _, rfl⟩) |
    ⟨_, _, rfl⟩) | ⟨_, _, rfl⟩) | ⟨_, _, rfl⟩) | ⟨_, _, rfl⟩ <;> simp [Beside]

/-- What the entry of an input adds, as far as resolution reads it. -/
def Edge (k : Lock) (depth : Nat) (id : String) (entry : String × Json) (t : Triple) : Prop :=
  (∃ target tp, entry.2 = .str target ∧ k.pinOf target = some tp ∧
    t = addIri (Iri.flakeInput k.rootNar id entry.1) (nix "pinnedTo") tp) ∨
  ∃ p parent n, entry.2 = .arr p ∧
    resolveFollows k.nodes k.rootId depth (strings p) = some (some (parent, n)) ∧
    t = addIri (Iri.flakeInput k.rootNar id entry.1) (nix "follows") (Iri.flakeInput k.rootNar parent n)

theorem mem_targetTriples {input : Iri} {target : String} {t : Triple}
    (h : t ∈ k.targetTriples input target) :
    Beside t ∨ ∃ tp, k.pinOf target = some tp ∧ t = addIri input (nix "pinnedTo") tp := by
  simp only [targetTriples, List.mem_cons, List.mem_append, List.mem_map, Option.mem_toList] at h
  rcases h with (rfl | ⟨tp, htp, rfl⟩) | h
  · exact Or.inl (by simp [Beside])
  · exact Or.inr ⟨tp, htp, rfl⟩
  · left
    split at h
    · cases h
    · simp only [List.mem_append, List.mem_map, Option.mem_toList] at h
      rcases h with ⟨_, _, rfl⟩ | h
      · simp [Beside]
      · split at h
        · rw [List.mem_singleton.mp h]
          simp [Beside]
        · cases h

theorem inputTriples_eq_ok {depth : Nat} {pin : Iri} {id : String} {entry : String × Json}
    {ts : List Triple} (h : k.inputTriples depth pin id entry = .ok ts) {t : Triple} :
    (t ∈ ts → Beside t ∨ k.Edge depth id entry t) ∧ (k.Edge depth id entry t → t ∈ ts) := by
  simp only [inputTriples, Result.bind_eq_ok, Result.pure_eq_ok] at h
  obtain ⟨target, htarget, rfl⟩ := h
  simp only [List.mem_append, List.mem_cons, List.not_mem_nil, or_false]
  constructor
  · rintro ((rfl | rfl | rfl) | ht)
    · exact Or.inl (by simp [Beside])
    · exact Or.inl (by simp [Beside])
    · exact Or.inl (by simp [Beside])
    · unfold valueTriples at htarget
      split at htarget
      · next tid hentry =>
          cases htarget
          refine (mem_targetTriples ht).imp_right ?_
          rintro ⟨tp, htp, rfl⟩
          exact Or.inl ⟨tid, tp, hentry, htp, rfl⟩
      · next p hentry =>
          unfold followsTriples at htarget
          split at htarget <;> cases htarget
          · cases ht
          · next parent n hres =>
              exact Or.inr (Or.inr ⟨p, parent, n, hentry, hres, List.mem_singleton.mp ht⟩)
      · cases htarget
        cases ht
  · rintro (⟨tid, tp, hentry, htp, rfl⟩ | ⟨p, parent, n, hentry, hres, rfl⟩)
    · rw [hentry] at htarget
      cases htarget
      exact Or.inr (by simp [targetTriples, htp])
    · rw [hentry] at htarget
      simp only [valueTriples, followsTriples, hres] at htarget
      cases htarget
      exact Or.inr List.mem_cons_self

theorem nodeTriples_eq_ok {depth : Nat} {id : String} {ts : List Triple}
    (hpin : (k.pinOf id).isSome) (h : k.nodeTriples depth id = .ok ts) {t : Triple} :
    (t ∈ ts → Beside t ∨ ∃ entry ∈ k.inputsOf id, k.Edge depth id entry t) ∧
      ∀ entry ∈ k.inputsOf id, k.Edge depth id entry t → t ∈ ts := by
  obtain ⟨pin, hpin⟩ := Option.isSome_iff_exists.mp hpin
  simp only [nodeTriples, hpin, Result.bind_eq_ok, Result.pure_eq_ok] at h
  obtain ⟨inputs, hinputs, rfl⟩ := h
  simp only [List.mem_append, List.mem_flatten]
  constructor
  · rintro (ht | ⟨us, hus, ht⟩)
    · cases hlocked : k.lockedOf id with
      | none => simp [hlocked] at ht
      | some locked =>
          rw [hlocked] at ht
          exact Or.inl (beside_addPin ht)
    · obtain ⟨entry, hentry, hok⟩ := Result.mem_of_mapM hinputs hus
      exact ((inputTriples_eq_ok hok).1 ht).imp_right fun he => ⟨entry, hentry, he⟩
  · intro entry hentry he
    obtain ⟨us, hus, hok⟩ := Result.mem_mapM hinputs hentry
    exact Or.inr ⟨us, hus, (inputTriples_eq_ok hok).2 he⟩

/-- Some declared input adds this triple. -/
def Emits (k : Lock) (depth : Nat) (t : Triple) : Prop :=
  ∃ id ∈ k.nodes.keys, ∃ entry ∈ k.inputsOf id, k.Edge depth id entry t

theorem lockGraph_eq_ok {depth : Nat} {metadata : Json} {rootNar : String}
    (hk : lockOf metadata rootNar = .ok k) (hw : k.WellFormed) {lock : List Fragment × List Triple}
    (h : lockGraph depth metadata rootNar = .ok lock) {t : Triple} :
    (t ∈ lock.2 → Beside t ∨ k.Emits depth t) ∧ (k.Emits depth t → t ∈ lock.2) := by
  simp only [lockGraph, hk, Result.bind_eq_ok, Result.pure_eq_ok, Except.ok.injEq] at h
  obtain ⟨_, rfl, triples, htriples, rfl⟩ := h
  simp only [List.mem_flatten]
  constructor
  · rintro ⟨ts, hts, ht⟩
    obtain ⟨id, hid, hok⟩ := Result.mem_of_mapM htriples hts
    rcases (nodeTriples_eq_ok (hw.locked id hid) hok).1 ht with hbeside | hentry
    · exact .inl hbeside
    · exact .inr ⟨id, hid, hentry⟩
  · rintro ⟨id, hid, entry, hentry, he⟩
    obtain ⟨ts, hts, hok⟩ := Result.mem_mapM htriples hid
    exact ⟨ts, hts, (nodeTriples_eq_ok (hw.locked id hid) hok).2 entry hentry he⟩

/-- The lock graph is written once the stack is deep enough for every declared path. -/
theorem lockGraph_eventually_ok {metadata : Json} {rootNar : String}
    (hk : lockOf metadata rootNar = .ok k) (hw : k.WellFormed) :
    ∀ᶠ depth in atTop, ∃ lock, lockGraph depth metadata rootNar = .ok lock := by
  have hall : ∀ᶠ depth in atTop, ∀ id ∈ k.nodes.keys, ∀ entry ∈ k.inputsOf id,
      ∀ p, entry.2 = .arr p → resolveFollows k.nodes k.rootId depth (strings p) ≠ none := by
    refine (eventually_all_finite (List.finite_toSet k.nodes.keys)).mpr fun id hid => ?_
    refine (eventually_all_finite (List.finite_toSet (k.inputsOf id))).mpr fun entry hentry => ?_
    obtain ⟨name, v⟩ := entry
    obtain ⟨target, ht⟩ := hw.resolves id hid (name, v) hentry
    have hin := k.mem_inputsOf.mp hentry
    rcases Resolves.single_iff.mp ht with ⟨hin', _⟩ | ⟨path, hin', hpath⟩
    · rw [hin] at hin'
      cases hin'
      exact Eventually.of_forall fun _ p hp => by cases hp
    · rw [hin] at hin'
      cases hin'
      filter_upwards [resolveFollows_eventually hw hpath] with depth hdepth p hp
      cases hp
      simpa using hdepth
  filter_upwards [hall] with depth hdepth
  simp only [lockGraph, hk, Result.bind_eq_ok, Result.pure_eq_ok, Except.ok.injEq]
  have hnodes : ∀ id ∈ k.nodes.keys, ∃ ts, k.nodeTriples depth id = .ok ts := by
    intro id hid
    obtain ⟨pin, hpin⟩ := Option.isSome_iff_exists.mp (hw.locked id hid)
    have hinputs : ∀ entry ∈ k.inputsOf id, ∃ ts, k.inputTriples depth pin id entry = .ok ts := by
      intro entry hentry
      simp only [inputTriples, Result.bind_eq_ok, Result.pure_eq_ok]
      cases hv : entry.2 with
      | str target => exact ⟨_, _, rfl, rfl⟩
      | arr p =>
          have hne := hdepth id hid entry hentry p hv
          simp only [valueTriples, followsTriples]
          cases hres : resolveFollows k.nodes k.rootId depth (strings p) with
          | none => exact absurd hres hne
          | some r =>
              cases r with
              | none => exact ⟨_, _, rfl, rfl⟩
              | some found => exact ⟨_, _, rfl, rfl⟩
      | _ => exact ⟨_, _, rfl, rfl⟩
    obtain ⟨us, hus⟩ := Result.exists_mapM hinputs
    simp only [nodeTriples, hpin, Result.bind_eq_ok, Result.pure_eq_ok]
    exact ⟨_, us, hus, rfl⟩
  obtain ⟨bs, hbs⟩ := Result.exists_mapM hnodes
  exact ⟨_, k, rfl, bs, hbs, rfl⟩

/-! ## What the core pack derives -/

/-- The quads that the lock graph puts into the fragment of the root pin. -/
def quads (k : Lock) (lock : List Fragment × List Triple) (x : Quad) : Prop :=
  x ∈ (Fragment.ofTriples (.pin k.rootNar) lock.2).quads

def value (i : Iri) : Val := .const (.iri i)

/-- The core pack derives that an input resolves to a value. -/
def ResolvesTo (k : Lock) (lock : List Fragment × List Triple) (input : Iri) (x : Val) : Prop :=
  coreRules.Derived (k.quads lock) ⟨.t, [value input, value (nix "resolvesTo"), x]⟩

/-- Each declared input resolves to one pin, that of the node it leads to. -/
def ResolvesRight (k : Lock) (lock : List Fragment × List Triple) : Prop :=
  ∀ id ∈ k.nodes.keys, ∀ entry ∈ k.inputsOf id, ∀ target, k.Resolves id [entry.1] target →
    ∃ pin, k.pinOf target = some pin ∧
      ∀ x, k.ResolvesTo lock (Iri.flakeInput k.rootNar id entry.1) x ↔ x = value pin

section Resolution

variable {depth : Nat} {metadata : Json} {rootNar : String} {lock : List Fragment × List Triple}
  (hk : lockOf metadata rootNar = .ok k) (hw : k.WellFormed)
  (h : lockGraph depth metadata rootNar = .ok lock)

theorem mem_quads {x : Quad} :
    k.quads lock x ↔ x.g = Iri.pin k.rootNar ∧ ⟨x.s, x.p, x.o⟩ ∈ lock.2 := by
  simp only [quads, Fragment.mem_quads, Fragment.mem_ofTriples]
  rfl

theorem derived_of_mem {t : Triple} (ht : t ∈ lock.2) :
    coreRules.Derived (k.quads lock) ⟨.t, [.const t.s, value t.p, .const t.o]⟩ := by
  have hq : k.quads lock (t.inGraph (Iri.pin k.rootNar)) := mem_quads.mpr ⟨rfl, ht⟩
  exact coreRules.t_of_quad hq

include hk hw h in
theorem pinnedTo_iff {s o : Val} :
    coreRules.Derived (k.quads lock) ⟨.t, [s, value (nix "pinnedTo"), o]⟩ ↔
      ∃ id name target tp, inputOf k.nodes id name = some (.str target) ∧ k.pinOf target = some tp ∧
        s = value (Iri.flakeInput k.rootNar id name) ∧ o = value tp := by
  have hrules : coreRules.rulesOfT (nix "pinnedTo") = [tRule] := rfl
  constructor
  · intro hd
    obtain ⟨x, hx, rfl, hp, rfl⟩ := (coreRules.t_iff_asserted hrules).mp hd
    obtain ⟨_, hmem⟩ := mem_quads.mp hx
    rcases (lockGraph_eq_ok hk hw h).1 hmem with hb | ⟨id, hid, ⟨name, v⟩, hentry, he⟩
    · exact absurd hp.symm hb.1
    · rcases he with ⟨target, tp, rfl, htp, heq⟩ | ⟨p, parent, n, _, _, heq⟩
      · simp only [addIri, add, Triple.mk.injEq] at heq
        exact ⟨id, name, target, tp, k.mem_inputsOf.mp hentry, htp, by rw [heq.1]; rfl,
          by rw [heq.2.2]; rfl⟩
      · have hfollows := congrArg Triple.p heq
        simp [← hp] at hfollows
  · rintro ⟨id, name, target, tp, hin, htp, rfl, rfl⟩
    have hmem := (lockGraph_eq_ok hk hw h).2 ⟨id, k.mem_keys_of_inputOf hin, (name, .str target),
      k.mem_inputsOf.mpr hin, Or.inl ⟨target, tp, rfl, htp, rfl⟩⟩
    exact derived_of_mem hmem

include hk hw h in
theorem follows_iff {s o : Val} :
    coreRules.Derived (k.quads lock) ⟨.t, [s, value (nix "follows"), o]⟩ ↔
      ∃ id name p parent n, inputOf k.nodes id name = some (.arr p) ∧
        resolveFollows k.nodes k.rootId depth (strings p) = some (some (parent, n)) ∧
        s = value (Iri.flakeInput k.rootNar id name) ∧ o = value (Iri.flakeInput k.rootNar parent n) := by
  have hrules : coreRules.rulesOfT (nix "follows") = [tRule] := rfl
  constructor
  · intro hd
    obtain ⟨x, hx, rfl, hp, rfl⟩ := (coreRules.t_iff_asserted hrules).mp hd
    obtain ⟨_, hmem⟩ := mem_quads.mp hx
    rcases (lockGraph_eq_ok hk hw h).1 hmem with hb | ⟨id, hid, ⟨name, v⟩, hentry, he⟩
    · exact absurd hp.symm hb.2.1
    · rcases he with ⟨target, tp, _, _, heq⟩ | ⟨p, parent, n, rfl, hres, heq⟩
      · have hpinned := congrArg Triple.p heq
        simp [← hp] at hpinned
      · simp only [addIri, add, Triple.mk.injEq] at heq
        exact ⟨id, name, p, parent, n, k.mem_inputsOf.mp hentry, hres, by rw [heq.1]; rfl,
          by rw [heq.2.2]; rfl⟩
  · rintro ⟨id, name, p, parent, n, hin, hres, rfl, rfl⟩
    have hmem := (lockGraph_eq_ok hk hw h).2 ⟨id, k.mem_keys_of_inputOf hin, (name, .arr p),
      k.mem_inputsOf.mpr hin, Or.inr ⟨p, parent, n, rfl, hres, rfl⟩⟩
    exact derived_of_mem hmem

include hk hw h in
theorem resolvesTo_not_asserted (args : List Val) (hargs : args[1]? = some (value (nix "resolvesTo"))) :
    ¬ tRule.Derives (coreRules.Derived (k.quads lock)) ⟨.t, args⟩ := by
  rw [coreRules.tRule_derives]
  rintro ⟨x, hx, rfl⟩
  simp only [List.getElem?_cons_succ, List.getElem?_cons_zero, Option.some.injEq, value,
    Datalog.Value.const.injEq, Term.iri.injEq] at hargs
  obtain ⟨_, hmem⟩ := mem_quads.mp hx
  rcases (lockGraph_eq_ok hk hw h).1 hmem with hb | ⟨id, hid, entry, hentry, he⟩
  · exact hb.2.2 hargs
  · rcases he with ⟨_, _, _, _, heq⟩ | ⟨_, _, _, _, _, heq⟩
    · have hp := congrArg Triple.p heq
      simp [hargs] at hp
    · have hp := congrArg Triple.p heq
      simp [hargs] at hp

include hk hw h in
/-- An input resolves through its pin, or through the input that it follows. -/
theorem resolvesTo_iff {s o : Val} :
    coreRules.Derived (k.quads lock) ⟨.t, [s, value (nix "resolvesTo"), o]⟩ ↔
      coreRules.Derived (k.quads lock) ⟨.t, [s, value (nix "pinnedTo"), o]⟩ ∨
      ∃ j, coreRules.Derived (k.quads lock) ⟨.t, [s, value (nix "follows"), j]⟩ ∧
        coreRules.Derived (k.quads lock) ⟨.t, [j, value (nix "resolvesTo"), o]⟩ := by
  have hnot := resolvesTo_not_asserted hk hw h [s, value (nix "resolvesTo"), o] rfl
  rw [show value (nix "resolvesTo") = .const (.iri (nix "resolvesTo")) from rfl] at hnot ⊢
  rw [coreRules.derived_t_iff, coreRules_resolvesTo]
  constructor
  · rintro ⟨r, hr, hderives⟩
    simp only [List.mem_cons, List.not_mem_nil, or_false] at hr
    rcases hr with rfl | rfl | rfl
    · exact absurd hderives hnot
    · obtain ⟨σ, hbody, hhead⟩ := clause_derives.mp hderives
      have hpin := hbody _ List.mem_cons_self
      simp only [ground_tr, ground_var, Datalog.Fact.mk.injEq, List.cons.injEq, and_true,
        true_and] at hhead
      exact Or.inl (by simpa [hhead, value] using hpin)
    · obtain ⟨σ, hbody, hhead⟩ := clause_derives.mp hderives
      have hfollows := hbody _ List.mem_cons_self
      have hrest := hbody _ (List.mem_cons_of_mem _ List.mem_cons_self)
      simp only [ground_tr, ground_var, Datalog.Fact.mk.injEq, List.cons.injEq, and_true,
        true_and] at hhead
      exact Or.inr ⟨σ "j", by simpa [hhead, value] using hfollows, by simpa [hhead] using hrest⟩
  · rintro (hpin | ⟨j, hfollows, hrest⟩)
    · refine ⟨pinnedRule, by simp, clause_derives.mpr ⟨.of o [("i", s)], ?_, by simp⟩⟩
      simpa [value] using hpin
    · refine ⟨followsRule, by simp, clause_derives.mpr ⟨.of o [("i", s), ("j", j)], ?_, by simp⟩⟩
      simpa [value] using And.intro hfollows hrest

include hk hw h in
/-- What the core pack derives for an input is the pin of the node the input leads to. -/
theorem resolvesTo_sound {s o : Val}
    (hd : coreRules.Derived (k.quads lock) ⟨.t, [s, value (nix "resolvesTo"), o]⟩) :
    ∃ id name target tp, k.Resolves id [name] target ∧ k.pinOf target = some tp ∧
      s = value (Iri.flakeInput k.rootNar id name) ∧ o = value tp := by
  have hfact := coreRules.induction_t (motive := fun f => ∃ id name target tp,
    k.Resolves id [name] target ∧ k.pinOf target = some tp ∧
    f = ⟨.t, [value (Iri.flakeInput k.rootNar id name), value (nix "resolvesTo"), value tp]⟩) ?_ hd
  · obtain ⟨id, name, target, tp, hres, htp, heq⟩ := hfact
    simp only [Datalog.Fact.mk.injEq, List.cons.injEq, and_true, true_and] at heq
    exact ⟨id, name, target, tp, hres, htp, heq.1, heq.2.2⟩
  rw [coreRules_resolvesTo]
  intro r hr σ hbody hpos a ha hat
  simp only [List.mem_cons, List.not_mem_nil, or_false] at hr
  rcases hr with rfl | rfl | rfl
  · obtain rfl := List.mem_singleton.mp ha
    have hnot := resolvesTo_not_asserted hk hw h [σ "s", σ "p", σ "o"] hat.2
    exact absurd (clause_derives.mpr ⟨σ, hbody, rfl⟩) hnot
  · obtain rfl := List.mem_singleton.mp ha
    have hpin := hbody _ List.mem_cons_self
    simp only [Datalog.Literal.holds_pos, ground_tr, ground_var] at hpin ⊢
    obtain ⟨id, name, target, tp, hin, htp, hs, ho⟩ := (pinnedTo_iff hk hw h).mp hpin
    obtain ⟨target', ht⟩ := hw.input hin
    rcases Resolves.single_iff.mp ht with ⟨hin', hmem⟩ | ⟨_, hin', _⟩
    · exact ⟨id, name, target, tp, .node hin (by simp_all) .nil, htp, by rw [hs, ho]; rfl⟩
    · simp [hin] at hin'
  · obtain rfl := List.mem_singleton.mp ha
    have hfollows := hbody _ List.mem_cons_self
    simp only [Datalog.Literal.holds_pos, ground_tr, ground_var] at hfollows ⊢
    obtain ⟨id, name, p, parent, n, hin, hres, hs, hj⟩ := (follows_iff hk hw h).mp hfollows
    obtain ⟨id', name', target, tp, hrest, htp, heq⟩ :=
      hpos (tr (var "j") (nix "resolvesTo") (var "p")) (by simp [followsRule, clause]) ⟨rfl, rfl⟩
    simp only [ground_tr, ground_var, Datalog.Fact.mk.injEq, List.cons.injEq, and_true, true_and,
      hj, value, Datalog.Value.const.injEq, Term.iri.injEq, Iri.flakeInput_inj] at heq
    obtain ⟨⟨rfl, rfl⟩, ho⟩ := heq
    obtain ⟨target', ht⟩ := hw.input hin
    rcases Resolves.single_iff.mp ht with ⟨hin', _⟩ | ⟨path, hin', hpath⟩
    · simp [hin] at hin'
    · rw [hin] at hin'
      cases hin'
      rw [strings_map_str] at hres
      obtain ⟨before, rfl, hbefore⟩ := resolveFollows_sound hw hres
      exact ⟨id, name, target, tp, .follows hin (hbefore.append hrest) .nil, htp, by
        rw [hs, ho]; rfl⟩

include hk hw h in
/-- Where every declared path is found, each input gets the pin of the node it leads to. -/
theorem resolvesTo_complete {cur target : String} {path : List String} (hd : k.AllDirect)
    (hdeep : ∀ id name p, inputOf k.nodes id name = some (.arr p) →
      resolveFollows k.nodes k.rootId depth (strings p) ≠ none)
    (hres : k.Resolves cur path target) {tp : Iri} (htp : k.pinOf target = some tp) :
    path = [] ∨ ∃ before last parent, path = before ++ [last] ∧ k.Resolves cur before parent ∧
      k.ResolvesTo lock (Iri.flakeInput k.rootNar parent last) (value tp) := by
  induction hres with
  | nil => exact Or.inl rfl
  | @node cur name next target rest hin hmem hrest ih =>
      rcases ih htp with rfl | ⟨before, last, parent, rfl, hbefore, hlast⟩
      · cases hrest
        refine Or.inr ⟨[], name, cur, rfl, .nil, (resolvesTo_iff hk hw h).mpr (Or.inl ?_)⟩
        exact (pinnedTo_iff hk hw h).mpr ⟨cur, name, _, tp, hin, htp, rfl, rfl⟩
      · exact Or.inr ⟨name :: before, last, parent, rfl, .node hin hmem hbefore, hlast⟩
  | @follows cur name next target q rest hin hq hrest ihq ihrest =>
      rcases ihrest htp with rfl | ⟨before, last, parent, rfl, hbefore, hlast⟩
      · cases hrest
        have hdirect := hd cur (k.mem_keys_of_inputOf hin) name q (k.mem_inputsOf.mpr hin)
        have hdepth := hdeep cur name _ hin
        rw [strings_map_str] at hdepth
        have hmissing := resolveFollows_ne_missing hw hd depth hdirect hq
        obtain ⟨⟨parent, last⟩, hfound⟩ : ∃ found,
            resolveFollows k.nodes k.rootId depth q = some (some found) := by
          cases hr : resolveFollows k.nodes k.rootId depth q with
          | none => exact absurd hr hdepth
          | some r =>
              cases r with
              | none => exact absurd hr hmissing
              | some found => exact ⟨found, rfl⟩
        obtain ⟨before, rfl, hbefore⟩ := resolveFollows_sound hw hfound
        rcases ihq htp with hnil | ⟨before', last', parent', heq, hbefore', hlast'⟩
        · simp at hnil
        · obtain ⟨rfl, hlasts⟩ := List.append_inj' heq rfl
          obtain rfl := List.singleton_inj.mp hlasts
          obtain rfl := hbefore.det hbefore'
          refine Or.inr ⟨[], name, cur, rfl, .nil, (resolvesTo_iff hk hw h).mpr (Or.inr ?_)⟩
          refine ⟨_, (follows_iff hk hw h).mpr
            ⟨cur, name, _, parent, last, hin, ?_, rfl, rfl⟩, hlast'⟩
          rw [strings_map_str, hfound]
      · exact Or.inr ⟨name :: before, last, parent, rfl, .follows hin hq hbefore, hlast⟩

include hk hw h in
/-- A lock graph that was written had the stack for every declared path. -/
theorem resolveFollows_ne_none {id name : String} {p : List Json}
    (hin : inputOf k.nodes id name = some (.arr p)) :
    resolveFollows k.nodes k.rootId depth (strings p) ≠ none := by
  intro hnone
  have hid := k.mem_keys_of_inputOf hin
  simp only [lockGraph, hk, Result.bind_eq_ok, Result.pure_eq_ok, Except.ok.injEq] at h
  obtain ⟨_, rfl, triples, htriples, _⟩ := h
  obtain ⟨ts, _, hts⟩ := Result.mem_mapM htriples hid
  obtain ⟨pin, hpin⟩ := Option.isSome_iff_exists.mp (hw.locked id hid)
  simp only [nodeTriples, hpin, Result.bind_eq_ok, Result.pure_eq_ok] at hts
  obtain ⟨inputs, hinputs, _⟩ := hts
  obtain ⟨us, _, hus⟩ := Result.mem_mapM hinputs (k.mem_inputsOf.mpr hin)
  simp only [inputTriples, valueTriples, followsTriples, hnone, Result.bind_eq_ok] at hus
  obtain ⟨_, herr, _⟩ := hus
  cases herr

include hk hw h in
theorem resolvesRight_iff : k.ResolvesRight lock ↔ k.AllDirect := by
  constructor
  · intro hright id hid name path hentry
    obtain ⟨target, ht⟩ := hw.resolves id hid _ hentry
    obtain ⟨pin, _, hpin⟩ := hright id hid _ hentry target ht
    have hin := k.mem_inputsOf.mp hentry
    rcases (resolvesTo_iff hk hw h).mp ((hpin (value pin)).mpr rfl) with hp | ⟨j, hfollows, _⟩
    · obtain ⟨id', name', t, tp, hin', _, hs, _⟩ := (pinnedTo_iff hk hw h).mp hp
      simp only [value, Datalog.Value.const.injEq, Term.iri.injEq, Iri.flakeInput_inj] at hs
      obtain ⟨rfl, rfl⟩ := hs
      simp [hin] at hin'
    · obtain ⟨id', name', p, parent, n, hin', hres, hs, _⟩ := (follows_iff hk hw h).mp hfollows
      simp only [value, Datalog.Value.const.injEq, Term.iri.injEq, Iri.flakeInput_inj] at hs
      obtain ⟨rfl, rfl⟩ := hs
      rw [hin] at hin'
      cases hin'
      rw [strings_map_str] at hres
      exact direct_of_resolveFollows hw hres
  · intro hd id hid entry hentry target ht
    obtain ⟨pin, hpin⟩ := Option.isSome_iff_exists.mp
      (hw.locked target (ht.mem_keys hw.root hid))
    refine ⟨pin, hpin, fun x => ⟨fun hx => ?_, ?_⟩⟩
    · obtain ⟨id', name', target', tp, hres, htp, hs, rfl⟩ := resolvesTo_sound hk hw h hx
      simp only [value, Datalog.Value.const.injEq, Term.iri.injEq, Iri.flakeInput_inj] at hs
      obtain ⟨rfl, rfl⟩ := hs
      obtain rfl := ht.det hres
      rw [Option.some.inj (hpin.symm.trans htp)]
    · rintro rfl
      rcases resolvesTo_complete hk hw h hd (fun _ _ _ => resolveFollows_ne_none hk hw h) ht hpin with
        hnil | ⟨before, last, parent, heq, hb, hr⟩
      · cases hnil
      · obtain ⟨rfl, rfl⟩ := eq_of_singleton_eq_append heq
        cases hb
        exact hr

end Resolution

/-- With a deep enough stack the lock graph is written; and each declared input gets exactly the pin
of the node it leads to if and only if every follows path of the lock file is direct. -/
theorem lockGraph_resolves_iff {metadata : Json} {rootNar : String}
    (hk : lockOf metadata rootNar = .ok k) (hw : k.WellFormed) :
    (∀ᶠ depth in atTop, ∃ lock, lockGraph depth metadata rootNar = .ok lock) ∧
      ∀ depth lock, lockGraph depth metadata rootNar = .ok lock → (k.ResolvesRight lock ↔ k.AllDirect) :=
  ⟨lockGraph_eventually_ok hk hw, fun _ _ h => resolvesRight_iff hk hw h⟩

/-! ## A path through an input that follows another one -/

def lockedNode (nar : String) (inputs : List (String × Json)) : Json :=
  .obj [("locked", .obj [("narHash", .str nar)]), ("inputs", .obj inputs)]

/-- `f` follows `e`, which follows the node `n`; `g` follows the given path. -/
def chainNodes (g : List String) : Json :=
  .obj [("root", .obj [("inputs", .obj [("n", .str "n"), ("e", .arr [.str "n"]),
      ("f", .arr [.str "e"]), ("g", .arr (g.map .str))])]),
    ("n", lockedNode "sha256-QUFB" [("dep", .str "d")]), ("d", lockedNode "sha256-QkJC" [])]

def chainMetadata (g : List String) : Json :=
  .obj [("locks", .obj [("nodes", chainNodes g), ("root", .str "root")])]

def chainLock (g : List String) : Lock := ⟨chainNodes g, "root", "sha256-Q0ND"⟩

theorem chain_keys (g : List String) : (chainLock g).nodes.keys = ["root", "n", "d"] := rfl

theorem chain_n (g : List String) : (chainLock g).Resolves "root" ["n"] "n" :=
  .node rfl (by simp [chain_keys]) .nil

theorem chain_e (g : List String) : (chainLock g).Resolves "root" ["e"] "n" := by
  have hin : inputOf (chainLock g).nodes "root" "e" = some (.arr (["n"].map .str)) := rfl
  exact .follows hin (chain_n g) .nil

theorem chain_f (g : List String) : (chainLock g).Resolves "root" ["f"] "n" := by
  have hin : inputOf (chainLock g).nodes "root" "f" = some (.arr (["e"].map .str)) := rfl
  exact .follows hin (chain_e g) .nil

theorem chain_dep (g : List String) : (chainLock g).Resolves "n" ["dep"] "d" :=
  .node rfl (by simp [chain_keys]) .nil

theorem chain_wellFormed {g : List String} {target : String}
    (hg : (chainLock g).Resolves "root" g target) : (chainLock g).WellFormed where
  root := by
    rw [chain_keys]
    exact List.mem_cons_self
  resolves id hid entry hentry := by
    simp only [chain_keys, List.mem_cons, List.not_mem_nil, or_false] at hid
    rcases hid with rfl | rfl | rfl
    · have hinputs : (chainLock g).inputsOf "root" = [("n", .str "n"), ("e", .arr [.str "n"]),
          ("f", .arr [.str "e"]), ("g", .arr (g.map .str))] := rfl
      simp only [hinputs, List.mem_cons, List.not_mem_nil, or_false] at hentry
      rcases hentry with rfl | rfl | rfl | rfl
      · exact ⟨_, chain_n g⟩
      · exact ⟨_, chain_e g⟩
      · exact ⟨_, chain_f g⟩
      · exact ⟨_, .follows rfl hg .nil⟩
    · have hinputs : (chainLock g).inputsOf "n" = [("dep", .str "d")] := rfl
      simp only [hinputs, List.mem_cons, List.not_mem_nil, or_false] at hentry
      subst hentry
      exact ⟨_, chain_dep g⟩
    · cases hentry
  locked id hid := by
    simp only [chain_keys, List.mem_cons, List.not_mem_nil, or_false] at hid
    rcases hid with rfl | rfl | rfl <;> rfl

theorem lockGraph_resolves_iff_chain :
    (∀ᶠ depth in atTop, ∃ lock, lockGraph depth (chainMetadata ["f"]) "sha256-Q0ND" = .ok lock) ∧
      ∀ depth lock, lockGraph depth (chainMetadata ["f"]) "sha256-Q0ND" = .ok lock →
        ((chainLock ["f"]).ResolvesRight lock ↔ (chainLock ["f"]).AllDirect) :=
  lockGraph_resolves_iff (k := chainLock ["f"]) rfl (chain_wellFormed (chain_f _))

/-- The path `f`, `dep` leads on from an input that follows a follows input, and is dropped. -/
theorem path_through_follows_dropped :
    ¬ ∀ (k : Lock) (metadata : Json) (rootNar : String), lockOf metadata rootNar = .ok k →
      k.WellFormed → ∀ depth lock, lockGraph depth metadata rootNar = .ok lock → k.ResolvesRight lock := by
  intro hclaim
  have hg : (chainLock ["f", "dep"]).Resolves "root" ["f", "dep"] "d" :=
    (chain_f _).append (chain_dep _)
  have hw := chain_wellFormed hg
  have hk : lockOf (chainMetadata ["f", "dep"]) "sha256-Q0ND" = .ok (chainLock ["f", "dep"]) := rfl
  obtain ⟨depth, lock, hlock⟩ := (lockGraph_eventually_ok hk hw).exists
  have hdirect := (resolvesRight_iff hk hw hlock).mp (hclaim _ _ _ hk hw depth lock hlock)
  have hpath := hdirect "root" (by simp [chain_keys]) "g" ["f", "dep"]
    ((chainLock ["f", "dep"]).mem_inputsOf.mpr rfl)
  obtain ⟨before, last, parent, target, heq, hbefore, hin⟩ :=
    hpath.2 [] "f" ["dep"] "root" ["e"] rfl (by simp) .nil rfl
  obtain ⟨rfl, rfl⟩ := eq_of_singleton_eq_append heq
  cases hbefore
  cases hin

end Nix2Rdf.Flake.Lock
