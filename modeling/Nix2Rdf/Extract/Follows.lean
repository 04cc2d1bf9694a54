import Nix2Rdf.Extract.Flake
import Mathlib.Order.Filter.AtTopBot.Basic

/-!
# Follows paths

What an input of a lock file resolves to: the path is walked from the root, and an input that is
itself a path is replaced by its own resolution. The code resolves a path without its last input, so
that an input on the way which ends in another path has no node.
-/

namespace Nix2Rdf.Flake.Lock

open Filter

variable (k : Lock)

/-- The node that the inputs of a path lead to, from a node on. -/
inductive Resolves : String → List String → String → Prop
  | nil {cur : String} : Resolves cur [] cur
  | node {cur name next target : String} {rest : List String} :
      inputOf k.nodes cur name = some (.str next) → next ∈ k.nodes.keys → Resolves next rest target →
      Resolves cur (name :: rest) target
  | follows {cur name next target : String} {path rest : List String} :
      inputOf k.nodes cur name = some (.arr (path.map .str)) → Resolves k.rootId path next →
      Resolves next rest target → Resolves cur (name :: rest) target

/-- A lock file as Nix writes it: each declared input resolves, and all nodes but the root are
locked to a NAR hash. -/
structure WellFormed : Prop where
  root : k.rootId ∈ k.nodes.keys
  resolves : ∀ id ∈ k.nodes.keys, ∀ entry ∈ k.inputsOf id, ∃ target, k.Resolves id [entry.1] target
  locked : ∀ id ∈ k.nodes.keys, (k.pinOf id).isSome

/-- The last input of the path is a node and not a path. -/
def EndsInNode (path : List String) : Prop :=
  ∃ before last parent target, path = before ++ [last] ∧ k.Resolves k.rootId before parent ∧
    inputOf k.nodes parent last = some (.str target)

/-- The path names an input, and each input before its last one that is a path ends in a node. -/
def Direct (path : List String) : Prop :=
  path ≠ [] ∧ ∀ before name after cur q, path = before ++ name :: after → after ≠ [] →
    k.Resolves k.rootId before cur → inputOf k.nodes cur name = some (.arr (q.map .str)) →
    k.EndsInNode q

/-- Every follows path of the lock file is direct. -/
def AllDirect : Prop :=
  ∀ id ∈ k.nodes.keys, ∀ name path, (name, Json.arr (path.map .str)) ∈ k.inputsOf id → k.Direct path

/-! ## Reading the lock file -/

theorem mem_inputsOf {id name : String} {v : Json} :
    (name, v) ∈ k.inputsOf id ↔ inputOf k.nodes id name = some v := by
  simp only [inputsOf, node, Json.index, inputOf]
  cases hnode : k.nodes.get? id with
  | none => simp [Json.get?]
  | some n =>
      cases hin : n.get? "inputs" with
      | none => simp [hin]
      | some inputs => simp [hin, Json.mem_entries]

theorem mem_keys_of_inputOf {id name : String} {v : Json} (h : inputOf k.nodes id name = some v) :
    id ∈ k.nodes.keys := by
  simp only [inputOf, Option.bind_eq_some_iff] at h
  obtain ⟨_, ⟨n, hn, _⟩, _⟩ := h
  exact Json.mem_keys_iff.mpr ⟨n, hn⟩

@[simp] theorem strings_map_str (path : List String) : strings (path.map .str) = path := by
  induction path with
  | nil => rfl
  | cons p ps ih => simpa [strings, Json.asStr?] using ih

variable {k}

theorem Resolves.single_iff {cur name target : String} : k.Resolves cur [name] target ↔
    (inputOf k.nodes cur name = some (.str target) ∧ target ∈ k.nodes.keys) ∨
      ∃ path, inputOf k.nodes cur name = some (.arr (path.map .str)) ∧
        k.Resolves k.rootId path target := by
  constructor
  · intro h
    cases h with
    | node hin hmem hrest =>
        cases hrest
        exact Or.inl ⟨hin, hmem⟩
    | follows hin hpath hrest =>
        cases hrest
        exact Or.inr ⟨_, hin, hpath⟩
  · rintro (⟨hin, hmem⟩ | ⟨path, hin, hpath⟩)
    · exact .node hin hmem .nil
    · exact .follows hin hpath .nil

theorem map_str_injective {p q : List String} (h : p.map Json.str = q.map Json.str) : p = q :=
  List.map_injective_iff.mpr (fun _ _ hab => Json.str.inj hab) h

theorem Resolves.det {cur a b : String} {path : List String} (ha : k.Resolves cur path a)
    (hb : k.Resolves cur path b) : a = b := by
  induction ha generalizing b with
  | nil =>
      cases hb
      rfl
  | node hin _ _ ih =>
      cases hb with
      | node hin' _ hrest =>
          rw [hin] at hin'
          cases hin'
          exact ih hrest
      | follows hin' _ _ => simp [hin] at hin'
  | follows hin _ _ ihpath ihrest =>
      cases hb with
      | node hin' _ _ => simp [hin] at hin'
      | follows hin' hpath hrest =>
          rw [hin] at hin'
          obtain rfl := map_str_injective (Json.arr.inj (Option.some.inj hin'))
          obtain rfl := ihpath hpath
          exact ihrest hrest

theorem Resolves.append {a b c : String} {p q : List String} (hp : k.Resolves a p b)
    (hq : k.Resolves b q c) : k.Resolves a (p ++ q) c := by
  induction hp with
  | nil => exact hq
  | node hin hmem _ ih => exact .node hin hmem (ih hq)
  | follows hin hpath _ _ ih => exact .follows hin hpath (ih hq)

theorem Resolves.split {a c : String} {p q : List String} (h : k.Resolves a (p ++ q) c) :
    ∃ b, k.Resolves a p b ∧ k.Resolves b q c := by
  induction p generalizing a with
  | nil => exact ⟨a, .nil, h⟩
  | cons name p ih =>
      cases h with
      | node hin hmem hrest =>
          obtain ⟨b, hb, hc⟩ := ih hrest
          exact ⟨b, .node hin hmem hb, hc⟩
      | follows hin hpath hrest =>
          obtain ⟨b, hb, hc⟩ := ih hrest
          exact ⟨b, .follows hin hpath hb, hc⟩

theorem Resolves.mem_keys {cur target : String} {path : List String} (h : k.Resolves cur path target)
    (hroot : k.rootId ∈ k.nodes.keys) (hcur : cur ∈ k.nodes.keys) : target ∈ k.nodes.keys := by
  induction h with
  | nil => exact hcur
  | node _ hmem _ ih => exact ih hmem
  | follows _ _ _ ihpath ihrest => exact ihrest (ihpath hroot)

/-- What an input of a well-formed lock file is. -/
theorem WellFormed.input (hw : k.WellFormed) {cur name : String} {v : Json}
    (h : inputOf k.nodes cur name = some v) : ∃ target, k.Resolves cur [name] target :=
  hw.resolves cur (k.mem_keys_of_inputOf h) (name, v) (k.mem_inputsOf.mpr h)

/-! ## What the code finds is right -/

/-- One step with a resolver that is right. -/
theorem followStep_sound (hw : k.WellFormed) {resolve : List String → Option (Option (String × String))}
    (hres : ∀ path parent last, resolve path = some (some (parent, last)) →
      ∃ before, path = before ++ [last] ∧ k.Resolves k.rootId before parent)
    {cur name next : String} (h : followStep resolve k.nodes cur name = some (some next)) :
    k.Resolves cur [name] next := by
  unfold followStep at h
  split at h
  · next id hin =>
      cases h
      obtain ⟨target, ht⟩ := hw.input hin
      rcases Resolves.single_iff.mp ht with ⟨hin', hmem⟩ | ⟨_, hin', _⟩
      · rw [hin] at hin'
        cases hin'
        exact ht
      · simp [hin] at hin'
  · next p hin =>
      obtain ⟨target, ht⟩ := hw.input hin
      rcases Resolves.single_iff.mp ht with ⟨hin', _⟩ | ⟨path, hin', hpath⟩
      · simp [hin] at hin'
      · rw [hin] at hin'
        cases hin'
        rw [strings_map_str, Option.map_eq_some_iff] at h
        obtain ⟨r, hr, hbind⟩ := h
        simp only [Option.bind_eq_some_iff] at hbind
        obtain ⟨⟨parent, last⟩, rfl, v, hv, hstr⟩ := hbind
        obtain ⟨before, rfl, hbefore⟩ := hres path parent last hr
        obtain ⟨target', ht'⟩ := hw.input hv
        cases v with
        | str id =>
            cases hstr
            rcases Resolves.single_iff.mp ht' with ⟨hv', hmem⟩ | ⟨_, hv', _⟩
            · exact .follows hin (hbefore.append (.node hv (by simp_all) .nil)) .nil
            · simp [hv] at hv'
        | _ => cases hstr
  · cases h

theorem followWalk_sound {step : String → String → Option (Option String)}
    (hstep : ∀ cur name next, step cur name = some (some next) → k.Resolves cur [name] next)
    {cur parent : String} {path : List String} (h : followWalk step cur path = some (some parent)) :
    k.Resolves cur path parent := by
  induction path generalizing cur with
  | nil =>
      cases h
      exact .nil
  | cons name rest ih =>
      simp only [followWalk] at h
      split at h
      · next id hid => exact (hstep cur name id hid).append (ih h)
      · next hne => exact absurd h (hne parent)

theorem resolveFollows_sound (hw : k.WellFormed) {depth : Nat} {path : List String}
    {parent last : String}
    (h : resolveFollows k.nodes k.rootId depth path = some (some (parent, last))) :
    ∃ before, path = before ++ [last] ∧ k.Resolves k.rootId before parent := by
  induction depth generalizing path parent last with
  | zero => cases h
  | succ depth ih =>
      simp only [resolveFollows] at h
      split at h
      · cases h
      · next l hlast =>
          simp only [Option.map_eq_some_iff] at h
          obtain ⟨_, hwalk, _, rfl, hp⟩ := h
          cases hp
          refine ⟨path.dropLast, (List.dropLast_append_getLast? last hlast).symm, ?_⟩
          exact followWalk_sound (fun _ _ _ => followStep_sound hw fun _ _ _ => ih) hwalk

/-! ## The code comes to an end -/

theorem followWalk_prefix {step : String → String → Option (Option String)} {cur : String}
    {p q : List String} (h : followWalk step cur (p ++ q) ≠ none) : followWalk step cur p ≠ none := by
  induction p generalizing cur with
  | nil => simp [followWalk]
  | cons name p ih =>
      simp only [List.cons_append, followWalk] at h ⊢
      cases hstep : step cur name with
      | none => simp [hstep] at h
      | some r =>
          cases r with
          | none => simp
          | some id => exact ih (by simpa [hstep] using h)

theorem resolveFollows_succ_ne_none {depth : Nat} {path : List String}
    (h : followWalk (followStep (resolveFollows k.nodes k.rootId depth) k.nodes) k.rootId path ≠ none) :
    resolveFollows k.nodes k.rootId (depth + 1) path ≠ none := by
  simp only [resolveFollows]
  split
  · simp
  · next last hlast =>
      rw [← List.dropLast_append_getLast? last hlast] at h
      simpa using followWalk_prefix h

theorem resolveFollows_eventually_of_walk {path : List String}
    (h : ∀ᶠ depth in atTop, followWalk (followStep (resolveFollows k.nodes k.rootId depth) k.nodes)
      k.rootId path ≠ none) :
    ∀ᶠ depth in atTop, resolveFollows k.nodes k.rootId depth path ≠ none := by
  obtain ⟨n, hn⟩ := eventually_atTop.mp h
  refine eventually_atTop.mpr ⟨n + 1, fun depth hdepth => ?_⟩
  obtain ⟨m, rfl⟩ := Nat.exists_eq_add_of_le' hdepth
  exact resolveFollows_succ_ne_none (hn (m + n) (Nat.le_add_left n m))

theorem followWalk_eventually (hw : k.WellFormed) {cur target : String} {path : List String}
    (h : k.Resolves cur path target) :
    ∀ᶠ depth in atTop,
      followWalk (followStep (resolveFollows k.nodes k.rootId depth) k.nodes) cur path ≠ none := by
  induction h with
  | nil => exact Eventually.of_forall fun _ => by simp [followWalk]
  | node hin _ _ ih =>
      filter_upwards [ih] with depth hrest
      simpa [followWalk, followStep, hin] using hrest
  | @follows cur name next target path rest hin hpath _ ihpath ihrest =>
      filter_upwards [resolveFollows_eventually_of_walk ihpath, ihrest] with depth hres hrest
      have hsound : ∀ n, followStep (resolveFollows k.nodes k.rootId depth) k.nodes cur name = some (some n) →
          k.Resolves cur [name] n :=
        fun n => followStep_sound hw fun _ _ _ => resolveFollows_sound hw
      simp only [followWalk]
      cases hstep : followStep (resolveFollows k.nodes k.rootId depth) k.nodes cur name with
      | none => simp [followStep, hin, hres] at hstep
      | some r =>
          cases r with
          | none => simp
          | some id =>
              obtain rfl := (hsound id hstep).det (.follows hin hpath .nil)
              exact hrest

/-- With a stack that is deep enough every declared follows path comes to an end. -/
theorem resolveFollows_eventually (hw : k.WellFormed) {path : List String} {target : String}
    (h : k.Resolves k.rootId path target) :
    ∀ᶠ depth in atTop, resolveFollows k.nodes k.rootId depth path ≠ none :=
  resolveFollows_eventually_of_walk (followWalk_eventually hw h)

/-! ## When the code finds a path -/

theorem followWalk_append {step : String → String → Option (Option String)} {cur target : String}
    {p q : List String} (h : followWalk step cur (p ++ q) = some (some target)) :
    ∃ mid, followWalk step cur p = some (some mid) ∧ followWalk step mid q = some (some target) := by
  induction p generalizing cur with
  | nil => exact ⟨cur, rfl, h⟩
  | cons name p ih =>
      simp only [List.cons_append, followWalk] at h
      split at h
      · next id hid =>
          obtain ⟨mid, hmid, hrest⟩ := ih h
          exact ⟨mid, by simpa [followWalk, hid] using hmid, hrest⟩
      · next hne => exact absurd h (hne target)

/-- A path that the code resolves is direct. -/
theorem direct_of_resolveFollows (hw : k.WellFormed) {depth : Nat} {path : List String}
    {found : String × String} (h : resolveFollows k.nodes k.rootId depth path = some (some found)) :
    k.Direct path := by
  cases depth with
  | zero => cases h
  | succ depth =>
      have hsound : ∀ cur name next,
          followStep (resolveFollows k.nodes k.rootId depth) k.nodes cur name = some (some next) →
          k.Resolves cur [name] next :=
        fun _ _ _ => followStep_sound hw fun _ _ _ => resolveFollows_sound hw
      simp only [resolveFollows] at h
      split at h
      · cases h
      · next last hlast =>
          have hne : path ≠ [] := by
            rintro rfl
            cases hlast
          refine ⟨hne, ?_⟩
          rintro before name after cur q rfl hafter hcur hin
          simp only [Option.map_eq_some_iff] at h
          obtain ⟨_, hwalk, parent, rfl, _⟩ := h
          have hdrop : (before ++ name :: after).dropLast = before ++ name :: after.dropLast := by
            rw [List.dropLast_append_of_ne_nil (by simp), List.dropLast_cons_of_ne_nil hafter]
          rw [hdrop] at hwalk
          obtain ⟨mid, hmid, hwalk⟩ := followWalk_append hwalk
          obtain rfl := hcur.det (followWalk_sound hsound hmid)
          simp only [followWalk] at hwalk
          split at hwalk
          · next id hid =>
              simp only [followStep, hin, strings_map_str, Option.map_eq_some_iff] at hid
              obtain ⟨_, hres, hid⟩ := hid
              simp only [Option.bind_eq_some_iff] at hid
              obtain ⟨⟨p, l⟩, rfl, v, hv, hstr⟩ := hid
              obtain ⟨pre, rfl, hpre⟩ := resolveFollows_sound hw hres
              cases v with
              | str t => exact ⟨pre, l, p, t, rfl, hpre, hv⟩
              | _ => cases hstr
          · next hne => exact absurd hwalk (hne parent)

theorem followStep_of_endsInNode (hw : k.WellFormed) {depth : Nat} {cur name next : String}
    {q : List String} (hin : inputOf k.nodes cur name = some (.arr (q.map .str)))
    (hend : k.EndsInNode q) (hnext : k.Resolves k.rootId q next)
    (hres : resolveFollows k.nodes k.rootId depth q ≠ some none) :
    followStep (resolveFollows k.nodes k.rootId depth) k.nodes cur name = none ∨
      followStep (resolveFollows k.nodes k.rootId depth) k.nodes cur name = some (some next) := by
  simp only [followStep, hin, strings_map_str]
  cases hr : resolveFollows k.nodes k.rootId depth q with
  | none => exact Or.inl rfl
  | some r =>
      cases r with
      | none => exact absurd hr hres
      | some found =>
          obtain ⟨parent, last⟩ := found
          obtain ⟨before, rfl, hbefore⟩ := resolveFollows_sound hw hr
          obtain ⟨before', last', parent', target, heq, hbefore', hin'⟩ := hend
          obtain ⟨rfl, rfl⟩ := List.append_inj' heq rfl |>.imp_right List.singleton_inj.mp
          obtain rfl := hbefore.det hbefore'
          obtain ⟨mid, hmid, hlast⟩ := hnext.split
          obtain rfl := hbefore.det hmid
          rcases Resolves.single_iff.mp hlast with ⟨hin'', _⟩ | ⟨_, hin'', _⟩
          · rw [hin'] at hin''
            cases hin''
            exact Or.inr (by simp [hin', Json.asStr?])
          · simp [hin'] at hin''

theorem followWalk_ne_missing (hw : k.WellFormed) (hd : k.AllDirect) {depth : Nat}
    (ih : ∀ q next, k.Direct q → k.Resolves k.rootId q next →
      resolveFollows k.nodes k.rootId depth q ≠ some none)
    {path before rest : List String} {last cur target : String} (hpath : k.Direct path)
    (heq : path = before ++ (rest ++ [last])) (hbefore : k.Resolves k.rootId before cur)
    (hrest : k.Resolves cur (rest ++ [last]) target) :
    followWalk (followStep (resolveFollows k.nodes k.rootId depth) k.nodes) cur rest ≠ some none := by
  induction rest generalizing before cur with
  | nil => simp [followWalk]
  | cons name rest ihrest =>
      have hsplit : path = (before ++ [name]) ++ (rest ++ [last]) := by simp [heq]
      simp only [followWalk]
      cases hrest with
      | node hin hmem hrest =>
          simp only [followStep, hin]
          exact ihrest hsplit (hbefore.append (.node hin hmem .nil)) hrest
      | @follows _ _ next _ q _ hin hq hrest =>
          have hend := hpath.2 before name (rest ++ [last]) cur q (by simp [heq]) (by simp) hbefore hin
          have hdirect := hd cur (k.mem_keys_of_inputOf hin) name q (k.mem_inputsOf.mpr hin)
          rcases followStep_of_endsInNode hw hin hend hq (ih q next hdirect hq) with hstep | hstep
          · simp [hstep]
          · simp only [hstep]
            exact ihrest hsplit (hbefore.append (.follows hin hq .nil)) hrest

theorem resolveFollows_ne_missing (hw : k.WellFormed) (hd : k.AllDirect) (depth : Nat)
    {path : List String} {target : String} (hpath : k.Direct path)
    (htarget : k.Resolves k.rootId path target) :
    resolveFollows k.nodes k.rootId depth path ≠ some none := by
  induction depth generalizing path target with
  | zero => simp [resolveFollows]
  | succ depth ih =>
      simp only [resolveFollows]
      split
      · next hnil => exact absurd (List.getLast?_eq_none_iff.mp hnil) hpath.1
      · next last hlast =>
          have heq := (List.dropLast_append_getLast? last hlast).symm
          have hsplit : path = [] ++ (path.dropLast ++ [last]) := heq
          have hwalk := followWalk_ne_missing hw hd (fun q next => ih) hpath hsplit .nil (heq ▸ htarget)
          simp only [ne_eq, Option.map_eq_some_iff, Option.map_eq_none_iff, exists_eq_right]
          exact hwalk

end Nix2Rdf.Flake.Lock
