import Nix2Rdf.Extract.Follows
import Mathlib.Data.Fintype.Card
import Mathlib.Data.Set.Finite.List

/-!
# Follows paths that come to an end

To resolve a follows path the code resolves every follows path that it meets on the way, again from
the root. Nothing stops it where a path leads back to itself.
-/

namespace Nix2Rdf.Flake

open Filter Triple

section Finite

variable {α : Type} {r : α → α → Prop} {a : α}

theorem not_transGen_of_acc (h : Acc (fun c b => r b c) a) : ¬ Relation.TransGen r a a := by
  have hacc := h.transGen
  intro hcycle
  have hswap : Relation.TransGen (fun c b => r b c) a a := Relation.transGen_swap.mpr hcycle
  clear h hcycle
  induction hacc with
  | intro a _ ih => exact ih a hswap hswap

/-- Where only finitely many places can be reached, all ways come to an end unless one leads into a cycle. -/
theorem acc_iff_not_cycle (hfin : {b | Relation.ReflTransGen r a b}.Finite) :
    Acc (fun c b => r b c) a ↔ ¬ ∃ b, Relation.ReflTransGen r a b ∧ Relation.TransGen r b b := by
  constructor
  · intro hacc h
    obtain ⟨b, hab, hcycle⟩ := h
    have hb : Acc (fun c b => r b c) b := by
      clear hcycle
      induction hab with
      | refl => exact hacc
      | tail _ hbc ih => exact ih.inv hbc
    exact not_transGen_of_acc hb hcycle
  · intro h
    have hfinite : Finite {b // Relation.ReflTransGen r a b} := hfin
    have hwf : WellFounded fun c b : {b // Relation.ReflTransGen r a b} => Relation.TransGen r b.1 c.1 := by
      have htrans : IsTrans {b // Relation.ReflTransGen r a b} fun c b => Relation.TransGen r b.1 c.1 :=
        ⟨fun _ _ _ hcb hdc => hdc.trans hcb⟩
      have hirrefl : Std.Irrefl fun c b : {b // Relation.ReflTransGen r a b} => Relation.TransGen r b.1 c.1 :=
        ⟨fun b hb => h ⟨b.1, b.2, hb⟩⟩
      exact Finite.wellFounded_of_trans_of_irrefl _
    have hall : ∀ b : {b // Relation.ReflTransGen r a b}, Acc (fun c b => r b c) b.1 := by
      intro b
      induction b using hwf.induction with
      | _ b ih => exact .intro _ fun c hbc => ih ⟨c, b.2.tail hbc⟩ (.single hbc)
    exact hall ⟨a, .refl⟩

end Finite

namespace Lock

variable (k : Lock)

/-! ## What the code meets on the way -/

/-- The node that the code comes to: an input on the way that is a path has to end in a node. -/
inductive Leads : String → List String → String → Prop
  | nil {cur : String} : Leads cur [] cur
  | node {cur name next target : String} {rest : List String} :
      inputOf k.nodes cur name = some (.str next) → Leads next rest target → Leads cur (name :: rest) target
  | follows {cur name last parent next target : String} {p : List Json} {before rest : List String} :
      inputOf k.nodes cur name = some (.arr p) → strings p = before ++ [last] → Leads k.rootId before parent →
      inputOf k.nodes parent last = some (.str next) → Leads next rest target → Leads cur (name :: rest) target

/-- An input before the last one of the path is itself a path. -/
def Calls (path called : List String) : Prop :=
  ∃ before name after cur p, path = before ++ name :: after ∧ after ≠ [] ∧ k.Leads k.rootId before cur ∧
    inputOf k.nodes cur name = some (.arr p) ∧ called = strings p

/-- Resolving the path comes to a path whose own resolution comes back to it. -/
def Circles (path : List String) : Prop :=
  ∃ q, Relation.ReflTransGen k.Calls path q ∧ Relation.TransGen k.Calls q q

/-- A follows path of a node that is pinned. -/
def Declared (path : List String) : Prop :=
  ∃ id name p, (k.pinOf id).isSome ∧ inputOf k.nodes id name = some (.arr p) ∧ path = strings p

variable {k}

theorem Leads.append {a b c : String} {p q : List String} (hp : k.Leads a p b) (hq : k.Leads b q c) :
    k.Leads a (p ++ q) c := by
  induction hp with
  | nil => exact hq
  | node hin _ ih => exact .node hin (ih hq)
  | follows hin hsplit hbefore hlast _ _ ih => exact .follows hin hsplit hbefore hlast (ih hq)

/-- A path has finitely many to call: they are written in the lock file. -/
theorem finite_called (path : List String) : {q | Relation.ReflTransGen k.Calls path q}.Finite := by
  have hsub : {q | Relation.ReflTransGen k.Calls path q} ⊆ insert path
      {q | q ∈ k.nodes.keys.flatMap fun id => (k.inputsOf id).filterMap fun e => e.2.asArr?.map strings} := by
    intro q hq
    rcases Relation.ReflTransGen.cases_tail hq with heq | ⟨_, _, _, name, _, cur, p, _, _, _, hin, rfl⟩
    · exact .inl heq
    · refine .inr (List.mem_flatMap.mpr ⟨cur, k.mem_keys_of_inputOf hin, ?_⟩)
      exact List.mem_filterMap.mpr ⟨_, k.mem_inputsOf.mpr hin, rfl⟩
  exact ((List.finite_toSet _).insert _).subset hsub

/-! ## Results on deeper stacks -/

theorem followStep_mono {resolve resolve' : List String → Option (Option (String × String))}
    (h : ∀ q r, resolve q = some r → resolve' q = some r) {cur name : String} {r : Option String}
    (hr : followStep resolve k.nodes cur name = some r) : followStep resolve' k.nodes cur name = some r := by
  unfold followStep at hr ⊢
  split at hr
  · exact hr
  · obtain ⟨r', hr', heq⟩ := Option.map_eq_some_iff.mp hr
    rw [h _ _ hr', Option.map_some, heq]
  · exact hr

theorem followWalk_mono {step step' : String → String → Option (Option String)}
    (h : ∀ cur name r, step cur name = some r → step' cur name = some r) {cur : String} {path : List String}
    {r : Option String} (hr : followWalk step cur path = some r) : followWalk step' cur path = some r := by
  induction path generalizing cur with
  | nil => exact hr
  | cons name path ih =>
      rw [followWalk] at hr ⊢
      cases hs : step cur name with
      | none => rw [hs] at hr; cases hr
      | some next =>
          rw [hs] at hr
          rw [h _ _ _ hs]
          cases next with
          | none => exact hr
          | some id => exact ih hr

theorem resolveFollows_mono {depth depth' : Nat} (hle : depth ≤ depth') {path : List String}
    {r : Option (String × String)} (hr : resolveFollows k.nodes k.rootId depth path = some r) :
    resolveFollows k.nodes k.rootId depth' path = some r := by
  induction depth generalizing depth' path r with
  | zero => cases hr
  | succ depth ih =>
      obtain ⟨d, rfl⟩ := Nat.exists_eq_add_of_le' hle
      have hd : depth ≤ d + depth := Nat.le_add_left _ _
      rw [resolveFollows] at hr
      rw [← Nat.add_assoc, resolveFollows]
      cases hlast : path.getLast? with
      | none => rw [hlast] at hr; exact hr
      | some last =>
          rw [hlast] at hr
          obtain ⟨w, hw, rfl⟩ := Option.map_eq_some_iff.mp hr
          have hwalk := followWalk_mono (fun _ _ _ => followStep_mono fun _ _ => ih hd) hw
          dsimp only
          rw [hwalk, Option.map_some]

/-! ## What is found is led to -/

theorem followStep_leads {resolve : List String → Option (Option (String × String))}
    (hres : ∀ q parent last, resolve q = some (some (parent, last)) →
      ∃ before, q = before ++ [last] ∧ k.Leads k.rootId before parent)
    {cur name next : String} (h : followStep resolve k.nodes cur name = some (some next)) :
    k.Leads cur [name] next := by
  unfold followStep at h
  split at h
  · rename_i id hin
    cases h
    exact .node hin .nil
  · rename_i p hin
    obtain ⟨r, hr, hbind⟩ := Option.map_eq_some_iff.mp h
    obtain ⟨⟨parent, last⟩, rfl, hv⟩ := Option.bind_eq_some_iff.mp hbind
    obtain ⟨v, hlast, hstr⟩ := Option.bind_eq_some_iff.mp hv
    obtain ⟨before, hsplit, hbefore⟩ := hres _ _ _ hr
    cases v with
    | str id =>
        cases hstr
        exact .follows hin hsplit hbefore hlast .nil
    | _ => cases hstr
  · cases h

theorem followWalk_leads {step : String → String → Option (Option String)}
    (hstep : ∀ cur name next, step cur name = some (some next) → k.Leads cur [name] next)
    {cur target : String} {path : List String} (h : followWalk step cur path = some (some target)) :
    k.Leads cur path target := by
  induction path generalizing cur with
  | nil =>
      cases h
      exact .nil
  | cons name rest ih =>
      rw [followWalk] at h
      split at h
      · rename_i id hid
        exact (hstep cur name id hid).append (ih h)
      · rename_i hne
        exact absurd h (hne target)

theorem resolveFollows_leads {depth : Nat} {path : List String} {parent last : String}
    (h : resolveFollows k.nodes k.rootId depth path = some (some (parent, last))) :
    ∃ before, path = before ++ [last] ∧ k.Leads k.rootId before parent := by
  induction depth generalizing path parent last with
  | zero => cases h
  | succ depth ih =>
      rw [resolveFollows] at h
      cases hlast : path.getLast? with
      | none =>
          rw [hlast] at h
          cases h
      | some l =>
          rw [hlast] at h
          obtain ⟨r, hwalk, hmap⟩ := Option.map_eq_some_iff.mp h
          obtain ⟨_, rfl, heq⟩ := Option.map_eq_some_iff.mp hmap
          cases heq
          refine ⟨path.dropLast, (List.dropLast_append_getLast? _ hlast).symm, ?_⟩
          exact followWalk_leads (fun _ _ _ => followStep_leads fun _ _ _ => ih) hwalk

/-- A walk that ends passes through every node that it is led to. -/
theorem followWalk_of_leads {cur target : String} {path : List String} (h : k.Leads cur path target) {depth : Nat}
    {rest : List String} {r : Option String}
    (hr : followWalk (followStep (resolveFollows k.nodes k.rootId depth) k.nodes) cur (path ++ rest) = some r) :
    followWalk (followStep (resolveFollows k.nodes k.rootId depth) k.nodes) target rest = some r := by
  induction h generalizing depth rest r with
  | nil => exact hr
  | node hin _ ih =>
      rw [List.cons_append, followWalk, followStep, hin] at hr
      exact ih hr
  | @follows cur name last parent next target p before path hin hsplit hbefore hlast _ ihbefore ih =>
      rw [List.cons_append, followWalk, followStep, hin] at hr
      dsimp only at hr
      cases hq : resolveFollows k.nodes k.rootId depth (strings p) with
      | none => rw [hq] at hr; cases hr
      | some found =>
          have hfound : found = some (parent, last) := by
            cases depth with
            | zero => cases hq
            | succ depth =>
                rw [resolveFollows, hsplit, List.getLast?_concat, List.dropLast_concat] at hq
                obtain ⟨w, hw, rfl⟩ := Option.map_eq_some_iff.mp hq
                rw [← List.append_nil before] at hw
                have hw' := ihbefore hw
                cases hw'
                rfl
          rw [hq, hfound, Option.map_some, Option.bind_some, hlast] at hr
          exact ih hr

/-! ## Coming to an end -/

/-- A path that is resolved has called only paths that are resolved on the rest of the stack. -/
theorem resolveFollows_called {depth : Nat} {path called : List String}
    (h : resolveFollows k.nodes k.rootId (depth + 1) path ≠ none) (hcalls : k.Calls path called) :
    resolveFollows k.nodes k.rootId depth called ≠ none := by
  obtain ⟨before, name, after, cur, p, rfl, hafter, hbefore, hin, rfl⟩ := hcalls
  obtain rfl | ⟨after, last, rfl⟩ := List.eq_nil_or_concat' after
  · exact absurd rfl hafter
  · intro hnone
    refine h ?_
    rw [← List.cons_append, ← List.append_assoc, resolveFollows, List.getLast?_concat, List.dropLast_concat]
    dsimp only
    rw [Option.map_eq_none_iff]
    by_contra hwalk
    obtain ⟨w, hw⟩ := Option.ne_none_iff_exists'.mp hwalk
    have hrest := followWalk_of_leads hbefore hw
    rw [followWalk, followStep, hin] at hrest
    dsimp only at hrest
    rw [hnone] at hrest
    cases hrest

/-- A path is resolved on some stack unless it circles. -/
theorem acc_of_resolveFollows {depth : Nat} {path : List String}
    (h : resolveFollows k.nodes k.rootId depth path ≠ none) : Acc (fun q p => k.Calls p q) path := by
  induction depth generalizing path with
  | zero => exact absurd rfl h
  | succ depth ih => exact .intro _ fun called hcalls => ih (resolveFollows_called h hcalls)

/-- The walk along a path ends when all that the path calls is resolved. -/
theorem followWalk_ends {path : List String} {last : String}
    (hcalled : ∀ q, k.Calls path q → ∃ depth r, resolveFollows k.nodes k.rootId depth q = some r)
    {before rest : List String} {cur : String} (hpath : path = before ++ rest ++ [last])
    (hbefore : k.Leads k.rootId before cur) :
    ∃ depth w, followWalk (followStep (resolveFollows k.nodes k.rootId depth) k.nodes) cur rest = some w := by
  induction rest generalizing before cur with
  | nil => exact ⟨0, _, rfl⟩
  | cons name rest ih =>
      have hsplit : path = before ++ [name] ++ rest ++ [last] := by simp [hpath]
      cases hin : inputOf k.nodes cur name with
      | none => exact ⟨0, none, by rw [followWalk, followStep, hin]⟩
      | some v =>
          cases v with
          | str id =>
              obtain ⟨depth, w, hw⟩ := ih hsplit (hbefore.append (.node hin .nil))
              exact ⟨depth, w, by rw [followWalk, followStep, hin]; exact hw⟩
          | arr p =>
              have hcalls : k.Calls path (strings p) :=
                ⟨before, name, rest ++ [last], cur, p, by simp [hpath], by simp, hbefore, hin, rfl⟩
              obtain ⟨d, r, hr⟩ := hcalled _ hcalls
              obtain ⟨next, hnext⟩ : ∃ next,
                  followStep (resolveFollows k.nodes k.rootId d) k.nodes cur name = some next := by
                rw [followStep, hin]
                dsimp only
                rw [hr]
                exact ⟨_, rfl⟩
              have hstep : ∀ d', d ≤ d' →
                  followStep (resolveFollows k.nodes k.rootId d') k.nodes cur name = some next :=
                fun d' hle => followStep_mono (fun _ _ => resolveFollows_mono hle) hnext
              cases next with
              | none => exact ⟨d, none, by rw [followWalk, hstep d (le_refl _)]⟩
              | some id =>
                  have hleads := followStep_leads (fun _ _ _ => resolveFollows_leads) (hstep d (le_refl _))
                  obtain ⟨d', w, hw⟩ := ih hsplit (hbefore.append hleads)
                  refine ⟨max d d', w, ?_⟩
                  rw [followWalk, hstep _ (le_max_left _ _)]
                  exact followWalk_mono (fun _ _ _ => followStep_mono fun _ _ =>
                    resolveFollows_mono (le_max_right d d')) hw
          | _ => exact ⟨0, none, by rw [followWalk, followStep, hin]⟩

theorem resolveFollows_of_acc {path : List String} (h : Acc (fun q p => k.Calls p q) path) :
    ∃ depth r, resolveFollows k.nodes k.rootId depth path = some r := by
  induction h with
  | intro path _ ih =>
      obtain rfl | ⟨before, last, rfl⟩ := List.eq_nil_or_concat' path
      · exact ⟨1, none, rfl⟩
      · have hpath : before ++ [last] = [] ++ before ++ [last] := by rw [List.nil_append]
        obtain ⟨depth, w, hw⟩ := followWalk_ends ih hpath .nil
        refine ⟨depth + 1, w.map fun parent => (parent, last), ?_⟩
        rw [resolveFollows, List.getLast?_concat, List.dropLast_concat]
        dsimp only
        rw [hw, Option.map_some]

theorem resolveFollows_ends_iff {path : List String} :
    (∃ depth r, resolveFollows k.nodes k.rootId depth path = some r) ↔ ¬ k.Circles path := by
  rw [Circles, ← acc_iff_not_cycle (finite_called path)]
  constructor
  · intro h
    obtain ⟨depth, r, hr⟩ := h
    exact acc_of_resolveFollows (by rw [hr]; exact Option.some_ne_none r)
  · exact resolveFollows_of_acc

/-! ## The lock graph -/

theorem mapM_eventually {α β : Type} {f : Nat → α → Result β} {l : List α}
    (h : ∀ a ∈ l, ∃ b, ∀ᶠ depth in atTop, f depth a = .ok b) :
    ∃ bs, ∀ᶠ depth in atTop, l.mapM (f depth) = .ok bs := by
  induction l with
  | nil => exact ⟨[], Eventually.of_forall fun _ => rfl⟩
  | cons a l ih =>
      obtain ⟨b, hb⟩ := h a List.mem_cons_self
      obtain ⟨bs, hbs⟩ := ih fun a ha => h a (List.mem_cons_of_mem _ ha)
      refine ⟨b :: bs, ?_⟩
      filter_upwards [hb, hbs] with depth hb hbs
      rw [List.mapM_cons, hb, hbs]
      rfl

/-- What one input records, when its path is resolved. -/
theorem inputTriples_ends {pin : Iri} {id : String} {entry : String × Json}
    (h : ∀ p, entry.2 = .arr p → ∃ depth r, resolveFollows k.nodes k.rootId depth (strings p) = some r) :
    ∃ ts, ∀ᶠ depth in atTop, k.inputTriples depth pin id entry = .ok ts := by
  have hvalue : ∀ input, ∃ ts, ∀ᶠ depth in atTop, k.valueTriples depth input entry.2 = .ok ts := by
    intro input
    cases hv : entry.2 with
    | arr p =>
        obtain ⟨depth, r, hr⟩ := h p hv
        have hfollows : ∃ ts, k.followsTriples depth input p = .ok ts := by
          rw [followsTriples, hr]
          cases r with
          | none => exact ⟨_, rfl⟩
          | some found => exact ⟨_, rfl⟩
        obtain ⟨ts, hts⟩ := hfollows
        refine ⟨ts, eventually_atTop.mpr ⟨depth, fun deeper hle => ?_⟩⟩
        rw [followsTriples, hr] at hts
        rw [valueTriples, followsTriples, resolveFollows_mono hle hr]
        exact hts
    | str target => exact ⟨_, Eventually.of_forall fun _ => rfl⟩
    | _ => exact ⟨[], Eventually.of_forall fun _ => rfl⟩
  obtain ⟨ts, hts⟩ := hvalue (Iri.flakeInput k.rootNar id entry.1)
  refine ⟨[addType (Iri.flakeInput k.rootNar id entry.1) (nix "FlakeInput"),
    addStr (Iri.flakeInput k.rootNar id entry.1) (nix "name") entry.1,
    addIri pin (nix "locksInput") (Iri.flakeInput k.rootNar id entry.1)] ++ ts, ?_⟩
  filter_upwards [hts] with depth hts
  rw [inputTriples, hts]
  rfl

/-- What one node records, when the paths of its inputs are resolved. -/
theorem nodeTriples_ends {id : String}
    (h : (k.pinOf id).isSome → ∀ name p, inputOf k.nodes id name = some (.arr p) →
      ∃ depth r, resolveFollows k.nodes k.rootId depth (strings p) = some r) :
    ∃ ts, ∀ᶠ depth in atTop, k.nodeTriples depth id = .ok ts := by
  cases hpin : k.pinOf id with
  | none => exact ⟨[], Eventually.of_forall fun _ => by rw [nodeTriples, hpin]⟩
  | some pin =>
      have hinputs : ∀ entry ∈ k.inputsOf id, ∃ ts, ∀ᶠ depth in atTop,
          k.inputTriples depth pin id entry = .ok ts := by
        intro entry hentry
        refine inputTriples_ends fun p hp => h (by rw [hpin]; rfl) entry.1 p ?_
        rw [← hp]
        exact k.mem_inputsOf.mp hentry
      obtain ⟨tss, htss⟩ := mapM_eventually hinputs
      refine ⟨((k.lockedOf id).map (addPin pin)).getD [] ++ tss.flatten, ?_⟩
      filter_upwards [htss] with depth htss
      rw [nodeTriples, hpin]
      dsimp only
      rw [htss]
      rfl

/-- The lock graph is the same on every deep stack, and not what a stack gives that runs out. -/
def Returns (metadata : Json) (rootNar : String) : Prop :=
  ∃ r, r ≠ .error "stack overflow" ∧ ∀ᶠ depth in atTop, lockGraph depth metadata rootNar = r

/-- Every follows path that the lock graph asks for is resolved with finitely many calls. -/
def AllResolved (metadata : Json) (rootNar : String) : Prop :=
  ∀ k, lockOf metadata rootNar = .ok k → ∀ path, k.Declared path →
    ∃ depth r, resolveFollows k.nodes k.rootId depth path = some r

theorem AllResolved.returns {metadata : Json} {rootNar : String} (h : AllResolved metadata rootNar) :
    Returns metadata rootNar := by
  cases hk : lockOf metadata rootNar with
  | error m =>
      refine ⟨.error m, ?_, Eventually.of_forall fun _ => by rw [lockGraph, hk]; rfl⟩
      rw [lockOf] at hk
      split at hk
      · cases hk
        simp
      · split at hk
        · cases hk
          simp
        · cases hk
  | ok k =>
      have hnodes : ∀ id ∈ k.nodes.keys, ∃ ts, ∀ᶠ depth in atTop, k.nodeTriples depth id = .ok ts := by
        intro id _
        exact nodeTriples_ends fun hpin name p hin => h k hk _ ⟨id, name, p, hpin, hin, rfl⟩
      obtain ⟨tss, htss⟩ := mapM_eventually hnodes
      refine ⟨.ok (k.nodes.keys.filterMap k.nodeFragment, tss.flatten), by simp, ?_⟩
      filter_upwards [htss] with depth htss
      simp only [lockGraph, hk, htss, Bind.bind, Except.bind, Pure.pure, Except.pure]

theorem mapM_eq_error {α β : Type} {f : α → Result β} {l : List α} {m : String} (h : l.mapM f = .error m) :
    ∃ a ∈ l, f a = .error m := by
  induction l with
  | nil => cases h
  | cons a l ih =>
      rw [List.mapM_cons] at h
      cases ha : f a with
      | error m' =>
          rw [ha] at h
          cases h
          exact ⟨a, List.mem_cons_self, ha⟩
      | ok b =>
          rw [ha] at h
          cases hl : l.mapM f with
          | error m' =>
              rw [hl] at h
              cases h
              obtain ⟨c, hc, hm⟩ := ih hl
              exact ⟨c, List.mem_cons_of_mem _ hc, hm⟩
          | ok bs =>
              rw [hl] at h
              cases h

/-- The only failure of a node is a stack that runs out. -/
theorem nodeTriples_eq_error {depth : Nat} {id m : String} (h : k.nodeTriples depth id = .error m) :
    m = "stack overflow" := by
  cases hpin : k.pinOf id with
  | none =>
      rw [nodeTriples, hpin] at h
      cases h
  | some pin =>
      rw [nodeTriples, hpin] at h
      dsimp only at h
      cases hins : (k.inputsOf id).mapM (k.inputTriples depth pin id) with
      | ok tss =>
          rw [hins] at h
          cases h
      | error m' =>
          rw [hins] at h
          cases h
          obtain ⟨entry, _, hentry⟩ := mapM_eq_error hins
          cases hv : k.valueTriples depth (Iri.flakeInput k.rootNar id entry.1) entry.2 with
          | ok ts =>
              rw [inputTriples, hv] at hentry
              cases hentry
          | error m' =>
              rw [inputTriples, hv] at hentry
              cases hentry
              cases hentry2 : entry.2 with
              | arr p =>
                  rw [hentry2, valueTriples, followsTriples] at hv
                  split at hv
                  · cases hv
                    rfl
                  · cases hv
                  · cases hv
              | _ =>
                  rw [hentry2] at hv
                  cases hv

theorem Returns.allResolved {metadata : Json} {rootNar : String} (h : Returns metadata rootNar) :
    AllResolved metadata rootNar := by
  obtain ⟨r, hne, hr⟩ := h
  obtain ⟨depth, hr⟩ := hr.exists
  intro k hk path hpath
  obtain ⟨id, name, p, hpin, hin, rfl⟩ := hpath
  cases htss : k.nodes.keys.mapM (k.nodeTriples depth) with
  | error m =>
      obtain ⟨id, _, hid⟩ := mapM_eq_error htss
      have hm := nodeTriples_eq_error hid
      simp only [lockGraph, hk, htss, Bind.bind, Except.bind, hm] at hr
      exact absurd hr.symm hne
  | ok tss =>
      obtain ⟨ts, _, hts⟩ := Result.mem_mapM htss (k.mem_keys_of_inputOf hin)
      obtain ⟨pin, hpin⟩ := Option.isSome_iff_exists.mp hpin
      simp only [nodeTriples, hpin, Result.bind_eq_ok] at hts
      obtain ⟨inputs, hinputs, _⟩ := hts
      obtain ⟨_, _, hinput⟩ := Result.mem_mapM hinputs (k.mem_inputsOf.mpr hin)
      simp only [inputTriples, valueTriples, followsTriples, Result.bind_eq_ok] at hinput
      obtain ⟨_, hvalue, _⟩ := hinput
      cases hres : resolveFollows k.nodes k.rootId depth (strings p) with
      | none =>
          rw [hres] at hvalue
          cases hvalue
      | some found => exact ⟨depth, found, hres⟩

/-- The lock graph is written and its follows paths are resolved exactly when none of them circles. -/
theorem lockGraph_returns_iff (metadata : Json) (rootNar : String) :
    (Returns metadata rootNar ∧ AllResolved metadata rootNar ↔
      ∀ k, lockOf metadata rootNar = .ok k → ∀ path, k.Declared path → ¬ k.Circles path) ∧
    (Returns metadata rootNar ↔ AllResolved metadata rootNar) := by
  have hresolved : AllResolved metadata rootNar ↔
      ∀ k, lockOf metadata rootNar = .ok k → ∀ path, k.Declared path → ¬ k.Circles path := by
    refine forall_congr' fun k => forall_congr' fun _ => forall_congr' fun path => forall_congr' fun _ => ?_
    exact resolveFollows_ends_iff
  rw [← hresolved]
  exact ⟨⟨fun h => h.2, fun h => ⟨h.returns, h⟩⟩, fun h => h.allResolved, fun h => h.returns⟩

/-- A flake whose only input follows an input of itself. -/
def selfFollowing : Json :=
  .obj [("locks", .obj [("nodes", .obj [("root", .obj [("inputs", .obj [("a", .arr [.str "a", .str "x"])])])]),
    ("root", .str "root")])]

def selfLock : Lock where
  nodes := .obj [("root", .obj [("inputs", .obj [("a", .arr [.str "a", .str "x"])])])]
  rootId := "root"
  rootNar := "sha256-Q0ND"

theorem selfLock_calls : selfLock.Calls ["a", "x"] ["a", "x"] :=
  ⟨[], "a", ["x"], "root", [.str "a", .str "x"], rfl, by simp, .nil, rfl, rfl⟩

/-- No stack is deep enough for the path, nor for the lock graph. -/
theorem selfFollowing_overflows : ¬ Returns selfFollowing "sha256-Q0ND" ∧
    ∀ depth, resolveFollows selfLock.nodes selfLock.rootId depth ["a", "x"] = none := by
  have hnone : ¬ ∃ depth r, resolveFollows selfLock.nodes selfLock.rootId depth ["a", "x"] = some r := by
    rw [resolveFollows_ends_iff, not_not]
    exact ⟨["a", "x"], .refl, .single selfLock_calls⟩
  constructor
  · intro h
    exact hnone (h.allResolved selfLock rfl ["a", "x"] ⟨"root", "a", [.str "a", .str "x"], rfl, rfl, rfl⟩)
  · intro depth
    cases hres : resolveFollows selfLock.nodes selfLock.rootId depth ["a", "x"] with
    | none => rfl
    | some r => exact absurd ⟨depth, r, hres⟩ hnone

end Lock

end Nix2Rdf.Flake
