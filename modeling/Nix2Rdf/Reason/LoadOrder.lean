import Nix2Rdf.Packs.Resolve
import Nix2Rdf.Reason.Run

/-!
# Selections of the same packs

Two selections can need the same packs. Whether these are loaded in the same order is decided by the
routes on which the selections come to them.
-/

namespace Nix2Rdf

open Packs

/-- The packs that are found, by name; the first one of a name is kept. -/
def Packs.discover (found : List Pack) : BTreeMap Pack :=
  found.foldl (fun all p => all.insertIfNew p.name p) ∅

/-- Every pack is under its own name. -/
def Packs.Keyed (all : BTreeMap Pack) : Prop := ∀ (name : String) (p : Pack), all[name]? = some p → p.name = name

theorem Packs.keyed_discover (found : List Pack) : Keyed (discover found) := by
  have hfold : ∀ all : BTreeMap Pack, Keyed all →
      Keyed (found.foldl (fun all p => all.insertIfNew p.name p) all) := by
    induction found with
    | nil => exact fun all hall => hall
    | cons p found ih =>
        intro all hall
        refine ih _ fun name q hq => ?_
        rw [Std.ExtTreeMap.getElem?_insertIfNew] at hq
        split at hq
        · rename_i hnew
          cases hq
          exact compare_eq_iff_eq.mp hnew.1
        · exact hall name q hq
  exact hfold ∅ fun name p hp => by simp at hp

namespace Reason

variable {Bytes : Type} (x : Extern)

/-- Runs and collections with the one list of packs treat every store as those with the other one. -/
structure SameRuns (Bytes : Type) (order order' : List Pack) : Prop where
  same : order = order'
  hash : rulesetHash x order = rulesetHash x order'
  found : ∀ (st : Store Bytes) (inputs : List InputGraph),
    st.exists? (derivedKind x order inputs) = st.exists? (derivedKind x order' inputs)
  kept : ∀ st : Store Bytes, gcDerived st [rulesetHash x order] = gcDerived st [rulesetHash x order']

/-- The least routes to the needed packs compare alike in both selections. -/
def RoutesAlike (all : BTreeMap Pack) (selected selected' : List String) : Prop :=
  ∀ a, Needed all selected a → ∀ b, Needed all selected b →
    (PostOrder.Before (DependsOn all) (· ∈ selected) a b ↔ PostOrder.Before (DependsOn all) (· ∈ selected') a b)

theorem sameRuns_iff {order order' : List Pack} : SameRuns x Bytes order order' ↔ order = order' := by
  constructor
  · intro h
    exact h.same
  · intro h
    subst h
    exact ⟨rfl, rfl, fun _ _ => rfl, fun _ => rfl⟩

/-- The names of the load order of a selection that can be resolved go by its least routes. -/
theorem resolve_routes {all : BTreeMap Pack} {selected : List String} (h : Resolvable all selected) {depth : Nat}
    (hdepth : all.size < depth) :
    ∃ names : List String, resolve all depth selected = .ok (names.filterMap (all[·]?)) ∧
      (∀ n ∈ names, n ∈ all) ∧ names.Nodup ∧ (∀ n, n ∈ names ↔ Needed all selected n) ∧
      names.Pairwise (PostOrder.Before (DependsOn all) (· ∈ selected)) := by
  rcases resolve_answers all selected with ⟨l, hl, hall, hok⟩ | ⟨m, hm, _⟩
  · have hdeps : ∀ n, (depsOf all n).Pairwise (· ≤ ·) := by
      intro n
      rw [depsOf]
      cases all[n]? with
      | none => exact .nil
      | some p => exact List.pairwise_insertionSort _ _
    obtain ⟨_, hroutes⟩ := hl.leastRoutes closed_nil hdeps (List.pairwise_insertionSort _ _)
    have hstarts : (fun n => n ∈ sorted selected) = (fun n => n ∈ selected) := funext fun n => propext mem_sorted
    rw [follows_depsOf, hstarts] at hroutes
    exact ⟨l, hok depth hdepth, hall, (hl.topological closed_nil).1, fun n => mem_listed hl, hroutes⟩
  · exact absurd hm h.not_fails

/-- In a map of packs under their own names the load order tells the names. -/
theorem names_of_order {all : BTreeMap Pack} (hkeyed : Keyed all) {names : List String}
    (hall : ∀ n ∈ names, n ∈ all) : (names.filterMap (all[·]?)).map Pack.name = names := by
  induction names with
  | nil => rfl
  | cons n names ih =>
      obtain ⟨p, hp⟩ := Option.isSome_iff_exists.mp
        (Std.ExtTreeMap.mem_iff_isSome_getElem?.mp (hall n List.mem_cons_self))
      rw [List.filterMap_cons_some hp, List.map_cons, hkeyed n p hp, ih fun m hm =>
        hall m (List.mem_cons_of_mem _ hm)]

/-- Two selections of the same packs load them in the same order, and so make the same runs, exactly when
they come to them on routes that compare alike. -/
theorem sameRuns_iff_routesAlike {all : BTreeMap Pack} (hkeyed : Keyed all) (hacyclic : ∀ name, ¬ Circular all name)
    {selected selected' : List String} (hknown : ∀ name, Needed all selected name → name ∈ all)
    (hsame : ∀ name, Needed all selected name ↔ Needed all selected' name) {depth : Nat} (hdepth : all.size < depth) :
    ∃ order order', resolve all depth selected = .ok order ∧ resolve all depth selected' = .ok order' ∧
      (SameRuns x Bytes order order' ↔ RoutesAlike all selected selected') := by
  have hres : Resolvable all selected := ⟨hknown, fun name _ => hacyclic name⟩
  have hres' : Resolvable all selected' :=
    ⟨fun name h => hknown name ((hsame name).mpr h), fun name _ => hacyclic name⟩
  obtain ⟨names, hok, hall, hnodup, hmem, hroutes⟩ := resolve_routes hres hdepth
  obtain ⟨names', hok', hall', hnodup', hmem', hroutes'⟩ := resolve_routes hres' hdepth
  refine ⟨_, _, hok, hok', ?_⟩
  have hnames : names.filterMap (all[·]?) = names'.filterMap (all[·]?) ↔ names = names' := by
    constructor
    · intro h
      rw [← names_of_order hkeyed hall, h, names_of_order hkeyed hall']
    · intro h
      rw [h]
  have hmems : ∀ n, n ∈ names ↔ n ∈ names' := fun n => by rw [hmem, hmem', hsame]
  rw [sameRuns_iff, hnames, PostOrder.eq_iff_before hroutes hroutes' hnodup hnodup' hmems, RoutesAlike]
  simp only [hmem]

/-- Neither the order nor the repetitions of a selection matter. -/
theorem routesAlike_of_mem_iff {all : BTreeMap Pack} {selected selected' : List String}
    (h : ∀ n, n ∈ selected ↔ n ∈ selected') : RoutesAlike all selected selected' := by
  intro a _ b _
  rw [show (fun n => n ∈ selected) = (fun n => n ∈ selected') from funext fun n => propext (h n)]

/-! ## An implied pack that is named -/

def plainPack (name : String) (deps : List String) : Pack where
  manifest := ⟨name, "1", deps, ""⟩
  dir := ""
  vocabTtl := none
  ruleFiles := []
  contentHash := ""

def plainPacks : BTreeMap Pack :=
  discover [plainPack "a" [], plainPack "b" ["z"], plainPack "c" ["a"], plainPack "z" []]

theorem keyed_plainPacks : Keyed plainPacks := keyed_discover _

theorem resolve_implied : resolve plainPacks 5 ["b", "c"] =
    .ok [plainPack "z" [], plainPack "b" ["z"], plainPack "a" [], plainPack "c" ["a"]] := rfl

theorem resolve_named : resolve plainPacks 5 ["a", "b", "c"] =
    .ok [plainPack "a" [], plainPack "z" [], plainPack "b" ["z"], plainPack "c" ["a"]] := rfl

theorem resolve_all : resolve plainPacks 5 ["a", "b", "c", "z"] =
    .ok [plainPack "a" [], plainPack "z" [], plainPack "b" ["z"], plainPack "c" ["a"]] := rfl

/-- What a load order tells of the selection. -/
theorem of_resolve {all : BTreeMap Pack} (hkeyed : Keyed all) {selected : List String} {depth : Nat}
    (hdepth : all.size < depth) {order : List Pack} (h : resolve all depth selected = .ok order) :
    Resolvable all selected ∧ ∀ n, Needed all selected n ↔ n ∈ order.map Pack.name := by
  rcases resolve_answers all selected with ⟨l, hl, hall, hok⟩ | ⟨m, _, herr⟩
  · rw [hok depth hdepth] at h
    cases h
    refine ⟨⟨fun n hn => hall n ((mem_listed hl).mpr hn), fun n hn hc => ?_⟩, fun n => ?_⟩
    · rw [Circular, ← follows_depsOf] at hc
      exact hl.acyclic closed_nil ((mem_listed hl).mpr hn) hc
    · rw [names_of_order hkeyed hall, mem_listed hl]
  · rw [herr depth hdepth] at h
    cases h

theorem plainPacks_acyclic (name : String) : ¬ Circular plainPacks name := by
  intro hc
  obtain ⟨hres, _⟩ := of_resolve keyed_plainPacks (by decide) resolve_all
  obtain ⟨dep, ⟨p, hp, _⟩, _⟩ := Relation.TransGen.head'_iff.mp hc
  have hkeys : name ∈ plainPacks.keys := Std.ExtTreeMap.mem_keys.mpr
    (Std.ExtTreeMap.mem_iff_isSome_getElem?.mpr (by rw [hp]; rfl))
  have hall : plainPacks.keys = ["a", "b", "c", "z"] := rfl
  rw [hall] at hkeys
  exact hres.acyclic name (.selected hkeys) hc

theorem plainPacks_needed (name : String) :
    Needed plainPacks ["b", "c"] name ↔ Needed plainPacks ["a", "b", "c"] name := by
  have himplied := (of_resolve keyed_plainPacks (by decide) resolve_implied).2 name
  have hnamed := (of_resolve keyed_plainPacks (by decide) resolve_named).2 name
  rw [himplied, hnamed]
  simp only [List.map_cons, List.map_nil, plainPack, Pack.name, List.mem_cons, List.not_mem_nil, or_false]
  tauto

theorem plainPacks_known (name : String) (h : Needed plainPacks ["b", "c"] name) : name ∈ plainPacks :=
  (of_resolve keyed_plainPacks (by decide) resolve_implied).1.known name h

/-- Naming a pack that is needed anyway changes the load order and the ruleset hash. -/
theorem named_pack_reorders : Keyed plainPacks ∧ (∀ name, ¬ Circular plainPacks name) ∧
    (∀ name, Needed plainPacks ["b", "c"] name ↔ Needed plainPacks ["a", "b", "c"] name) ∧
    ∃ order order', resolve plainPacks 5 ["b", "c"] = .ok order ∧ resolve plainPacks 5 ["a", "b", "c"] = .ok order' ∧
      order ≠ order' ∧ rulesetHash hexExtern order ≠ rulesetHash hexExtern order' := by
  refine ⟨keyed_plainPacks, plainPacks_acyclic, plainPacks_needed, _, _, resolve_implied,
    resolve_named, by decide, by decide +kernel⟩

theorem sameRuns_iff_routesAlike_plainPacks : ∃ order order', resolve plainPacks 5 ["b", "c"] = .ok order ∧
    resolve plainPacks 5 ["a", "b", "c"] = .ok order' ∧
      (SameRuns hexExtern (Finset Quad) order order' ↔ RoutesAlike plainPacks ["b", "c"] ["a", "b", "c"]) :=
  sameRuns_iff_routesAlike hexExtern keyed_plainPacks plainPacks_acyclic plainPacks_known
    plainPacks_needed (by decide)

end Reason

end Nix2Rdf
