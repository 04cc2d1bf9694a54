import Nix2Rdf.Packs.Load
import Nix2Rdf.Lib.PostOrder

/-!
# Resolving packs

The selected packs and their dependencies are put into load order by a depth-first visit.
-/

namespace Nix2Rdf

namespace Packs

/-- The packs that were visited, those that are being visited, and the load order so far. -/
structure Visit where
  done : List String := []
  visiting : List String := []
  order : List Pack := []

def cycleError (name : String) : String := "pack error: dependency cycle at pack '" ++ name ++ "'"

def unknownError (name : String) : String := "pack error: unknown pack '" ++ name ++ "'"

def visit (all : BTreeMap Pack) : Nat → Visit → String → Result Visit
  | 0, _, _ => .error "stack overflow"
  | depth + 1, st, name =>
      if name ∈ st.done then .ok st
      else if name ∈ st.visiting then .error (cycleError name)
      else
        match all[name]? with
        | none => .error (unknownError name)
        | some p => do
            let st ← (sorted p.manifest.dependsOn).foldlM (visit all depth) { st with visiting :=
              name :: st.visiting }
            return { done := name :: st.done, visiting := st.visiting.erase name, order := st.order ++ [p] }

/-- The selected packs and their dependencies in load order, with a stack of the depth. -/
def resolve (all : BTreeMap Pack) (depth : Nat) (selected : List String) : Result (List Pack) := do
  let st ← (sorted selected).foldlM (visit all depth) {}
  return st.order

/-! ## What is needed -/

def DependsOn (all : BTreeMap Pack) (name dep : String) : Prop :=
  ∃ p : Pack, all[name]? = some p ∧ dep ∈ p.manifest.dependsOn

/-- The pack is selected or a selected pack depends on it, directly or through others. -/
def Needed (all : BTreeMap Pack) (selected : List String) (name : String) : Prop :=
  ∃ s ∈ selected, Relation.ReflTransGen (DependsOn all) s name

/-- The pack depends on itself, directly or through others. -/
def Circular (all : BTreeMap Pack) (name : String) : Prop := Relation.TransGen (DependsOn all) name name

/-- Why a selection cannot be resolved. -/
inductive Fails (all : BTreeMap Pack) (selected : List String) : String → Prop
  | cycle {name : String} : Needed all selected name → Circular all name → Fails all selected (cycleError name)
  | unknown {name : String} : Needed all selected name → all[name]? = none → Fails all selected (unknownError name)

/-- Every needed pack exists, and none depends on itself. -/
structure Resolvable (all : BTreeMap Pack) (selected : List String) : Prop where
  known : ∀ name, Needed all selected name → name ∈ all
  acyclic : ∀ name, Needed all selected name → ¬ Circular all name

/-- The needed packs, each once and after all that it depends on. -/
structure LoadOrder (all : BTreeMap Pack) (selected : List String) (names : List String) (order : List Pack) :
    Prop where
  packs : order.map some = names.map (all[·]?)
  nodup : names.Nodup
  mem_iff : ∀ name, name ∈ names ↔ Needed all selected name
  after : ∀ l₁ name l₂, names = l₁ ++ name :: l₂ → ∀ dep, DependsOn all name dep → dep ∈ l₁

/-! ## The visits -/

/-- The dependencies of a pack in the order of their visits. -/
def depsOf (all : BTreeMap Pack) (name : String) : List String :=
  (all[name]?.map fun p => sorted p.manifest.dependsOn).getD []

theorem follows_depsOf {all : BTreeMap Pack} : PostOrder.Follows (depsOf all) = DependsOn all := by
  funext name dep
  rw [PostOrder.Follows, depsOf, DependsOn]
  cases all[name]? with
  | none => simp
  | some p => simp

theorem reaches_depsOf {all : BTreeMap Pack} {selected : List String} {name : String} :
    PostOrder.Reaches (depsOf all) selected name ↔ Needed all selected name := by
  rw [PostOrder.Reaches, follows_depsOf]
  rfl

/-- The visit after these packs were listed. -/
def Visit.list (st : Visit) (all : BTreeMap Pack) (names : List String) : Visit where
  done := names.reverse ++ st.done
  visiting := st.visiting
  order := st.order ++ names.filterMap (all[·]?)

/-- What the visits of some packs come to on every stack that is deeper than `room`. -/
def Answers (all : BTreeMap Pack) (room : Nat) (st : Visit) (names : List String) : Prop :=
  (∃ l, PostOrder.Lists (depsOf all) st.done names l ∧ (∀ n ∈ l, n ∈ all) ∧
    ∀ depth, room < depth → names.foldlM (visit all depth) st = .ok (st.list all l)) ∨
  ∃ m, Fails all names m ∧ ∀ depth, room < depth → names.foldlM (visit all depth) st = .error m

/-- The packs that are not being visited. -/
def waiting (all : BTreeMap Pack) (visiting : List String) : List String := all.keys.filter (· ∉ visiting)

section Visits

variable {all : BTreeMap Pack} {st : Visit} {names : List String} {name : String}

theorem length_waiting (hall : name ∈ all) (hnew : name ∉ st.visiting) :
    (waiting all (name :: st.visiting)).length < (waiting all st.visiting).length := by
  have hmem : name ∈ waiting all st.visiting := by
    rw [waiting, List.mem_filter, Std.ExtTreeMap.mem_keys]
    exact ⟨hall, decide_eq_true hnew⟩
  have hsub : waiting all (name :: st.visiting) = (waiting all st.visiting).filter (· ≠ name) := by
    rw [waiting, waiting, List.filter_filter]
    refine List.filter_congr fun n _ => ?_
    simp [List.mem_cons, not_or]
  rw [hsub]
  refine List.length_filter_lt_length_iff_exists.mpr ⟨name, hmem, ?_⟩
  simp

theorem Needed.mono {selected : List String} (h : Needed all names name) (hsub : ∀ n ∈ names, Needed all selected n) :
    Needed all selected name := by
  obtain ⟨s, hs, h⟩ := h
  obtain ⟨r, hr, hrs⟩ := hsub s hs
  exact ⟨r, hr, hrs.trans h⟩

theorem Fails.mono {selected : List String} {m : String} (h : Fails all names m)
    (hsub : ∀ n ∈ names, Needed all selected n) : Fails all selected m := by
  cases h with
  | cycle hn hc => exact .cycle (hn.mono hsub) hc
  | unknown hn hu => exact .unknown (hn.mono hsub) hu

theorem Needed.selected (h : name ∈ names) : Needed all names name := ⟨name, h, .refl⟩

theorem visit_of_foldlM {depth : Nat} {r : Result Visit} (h : [name].foldlM (visit all depth) st = r) :
    visit all depth st name = r := by
  rw [← h, List.foldlM_cons]
  cases visit all depth st name with
  | error m => rfl
  | ok st' => rfl

/-- Visits in turn answer when each of them does. -/
theorem answers_foldlM {room : Nat} (hst : PostOrder.Closed (depsOf all) st.done)
    (h : ∀ st' : Visit, st'.visiting = st.visiting → PostOrder.Closed (depsOf all) st'.done → ∀ n ∈ names,
      Answers all room st' [n]) :
    Answers all room st names := by
  induction names generalizing st with
  | nil => exact .inl ⟨[], .nil, by simp, fun depth _ => by simp [Visit.list, pure, Except.pure]⟩
  | cons n names ih =>
      rcases h st rfl hst n List.mem_cons_self with ⟨k, hk, hkall, hok⟩ | ⟨m, hm, herr⟩
      · have hclosed : PostOrder.Closed (depsOf all) (st.list all k).done := (hk.mem_iff hst).1
        rcases ih hclosed fun st' hv hc n hn => h st' hv hc n (List.mem_cons_of_mem _ hn) with
          ⟨l, hl, hlall, hoks⟩ | ⟨m, hm, herr⟩
        · refine .inl ⟨k ++ l, hk.cons hl, fun n hn => ?_, fun depth hdepth => ?_⟩
          · rcases List.mem_append.mp hn with hn | hn
            · exact hkall n hn
            · exact hlall n hn
          · rw [List.foldlM_cons, visit_of_foldlM (hok depth hdepth)]
            refine (hoks depth hdepth).trans ?_
            simp [Visit.list]
        · refine .inr ⟨m, hm.mono fun n hn => .selected (List.mem_cons_of_mem _ hn), fun depth hdepth => ?_⟩
          rw [List.foldlM_cons, visit_of_foldlM (hok depth hdepth)]
          exact herr depth hdepth
      · refine .inr ⟨m, hm.mono fun n hn => ?_, fun depth hdepth => ?_⟩
        swap
        · rw [List.foldlM_cons, visit_of_foldlM (herr depth hdepth)]
          rfl
        exact .selected (List.mem_cons.mpr (.inl (List.mem_singleton.mp hn)))

/-- A visit lists what is needed or says why it cannot, with room for the packs that wait. -/
theorem visit_answers (hst : PostOrder.Closed (depsOf all) st.done)
    (hvisiting : ∀ a ∈ st.visiting, Relation.TransGen (DependsOn all) a name) :
    Answers all (waiting all st.visiting).length st [name] := by
  induction hn : (waiting all st.visiting).length using Nat.strong_induction_on generalizing st name with
  | _ room ih =>
      subst hn
      have hvisit : ∀ depth, (waiting all st.visiting).length < depth → ∃ d, (waiting all st.visiting).length ≤ d ∧
          [name].foldlM (visit all depth) st = visit all (d + 1) st name := by
        intro depth hdepth
        refine ⟨depth - 1, by omega, (visit_of_foldlM ?_).symm⟩
        rw [Nat.sub_add_cancel (by omega)]
      by_cases hdone : name ∈ st.done
      · refine .inl ⟨[], .skip hdone .nil, by simp, fun depth hdepth => ?_⟩
        obtain ⟨d, _, hd⟩ := hvisit depth hdepth
        rw [hd, visit, if_pos hdone]
        simp [Visit.list]
      · by_cases hv : name ∈ st.visiting
        · refine .inr ⟨_, .cycle (.selected List.mem_cons_self) (hvisiting name hv), fun depth hdepth => ?_⟩
          obtain ⟨d, _, hd⟩ := hvisit depth hdepth
          rw [hd, visit, if_neg hdone, if_pos hv]
        · cases hget : all[name]? with
          | none =>
              refine .inr ⟨_, .unknown (.selected List.mem_cons_self) hget, fun depth hdepth => ?_⟩
              obtain ⟨d, _, hd⟩ := hvisit depth hdepth
              rw [hd, visit, if_neg hdone, if_neg hv, hget]
          | some p =>
              have hall : name ∈ all := Std.ExtTreeMap.mem_iff_isSome_getElem?.mpr (by simp [hget])
              have hdeps : depsOf all name = sorted p.manifest.dependsOn := by rw [depsOf, hget]; rfl
              have hdep : ∀ d ∈ depsOf all name, DependsOn all name d := by
                intro d hd
                rw [hdeps, mem_sorted] at hd
                exact ⟨p, hget, hd⟩
              have hlt := length_waiting hall hv
              have hcalls : Answers all (waiting all (name :: st.visiting)).length
                  { st with visiting := name :: st.visiting } (depsOf all name) := by
                refine answers_foldlM hst fun st' hv' hc d hd => ?_
                refine ih _ hlt hc (fun a ha => ?_) (by rw [hv'])
                rw [hv'] at ha
                rcases List.mem_cons.mp ha with rfl | ha
                · exact .single (hdep d hd)
                · exact (hvisiting a ha).tail (hdep d hd)
              rw [hdeps] at hcalls
              rcases hcalls with ⟨k, hk, hkall, hok⟩ | ⟨m, hm, herr⟩
              · rw [← hdeps] at hk
                refine .inl ⟨k ++ [name], .visit hdone hk .nil, fun n hn => ?_, fun depth hdepth => ?_⟩
                · rcases List.mem_append.mp hn with hn | hn
                  · exact hkall n hn
                  · rw [List.mem_singleton.mp hn]
                    exact hall
                · obtain ⟨d, hle, hd⟩ := hvisit depth hdepth
                  rw [hd, visit, if_neg hdone, if_neg hv, hget]
                  dsimp only
                  rw [hok d (by omega)]
                  simp [Visit.list, hget, bind, Except.bind, pure, Except.pure]
              · rw [← hdeps] at hm
                refine .inr ⟨m, hm.mono fun d hd => ⟨name, List.mem_cons_self, .single (hdep d hd)⟩,
                  fun depth hdepth => ?_⟩
                obtain ⟨d, hle, hd⟩ := hvisit depth hdepth
                rw [hd, visit, if_neg hdone, if_neg hv, hget]
                dsimp only
                rw [herr d (by omega)]
                rfl

theorem map_some_filterMap {l : List String} (h : ∀ n ∈ l, (all[n]?).isSome) :
    (l.filterMap (all[·]?)).map some = l.map (all[·]?) := by
  induction l with
  | nil => rfl
  | cons n l ih =>
      obtain ⟨p, hp⟩ := Option.isSome_iff_exists.mp (h n List.mem_cons_self)
      rw [List.filterMap_cons_some hp, List.map_cons, List.map_cons, hp, ih fun n hn =>
        h n (List.mem_cons_of_mem _ hn)]

theorem Resolvable.not_fails {selected : List String} (h : Resolvable all selected) {m : String} :
    ¬ Fails all selected m := by
  intro hm
  cases hm with
  | cycle hn hc => exact h.acyclic _ hn hc
  | unknown hn hu =>
      have hin := h.known _ hn
      rw [Std.ExtTreeMap.mem_iff_isSome_getElem?, hu] at hin
      cases hin

/-- A selection is resolved or fails for a reason, the same on every stack that holds all packs. -/
theorem resolve_answers (all : BTreeMap Pack) (selected : List String) :
    (∃ l, PostOrder.Lists (depsOf all) [] (sorted selected) l ∧ (∀ n ∈ l, n ∈ all) ∧
      ∀ depth, all.size < depth → resolve all depth selected = .ok (l.filterMap (all[·]?))) ∨
    ∃ m, Fails all selected m ∧ ∀ depth, all.size < depth → resolve all depth selected = .error m := by
  have hstart : PostOrder.Closed (depsOf all) ({} : Visit).done := by simp [PostOrder.Closed]
  have hwaiting : (waiting all ({} : Visit).visiting).length = all.size := by
    simp [waiting, Std.ExtTreeMap.length_keys]
  have hsorted : ∀ n ∈ sorted selected, Needed all selected n := fun n hn => .selected (mem_sorted.mp hn)
  have h : Answers all all.size {} (sorted selected) := by
    rw [← hwaiting]
    refine answers_foldlM hstart fun st' hv hc n _ => ?_
    rw [← hv]
    exact visit_answers hc fun a ha => by simp [hv] at ha
  rcases h with ⟨l, hl, hall, hok⟩ | ⟨m, hm, herr⟩
  · refine .inl ⟨l, hl, hall, fun depth hdepth => ?_⟩
    rw [resolve, hok depth hdepth]
    simp [Visit.list, bind, Except.bind, pure, Except.pure]
  · refine .inr ⟨m, hm.mono hsorted, fun depth hdepth => ?_⟩
    rw [resolve, herr depth hdepth]
    rfl

theorem closed_nil : PostOrder.Closed (depsOf all) [] := by simp [PostOrder.Closed]

/-- The packs that are listed from the selection are those that it needs. -/
theorem mem_listed {selected l : List String} (hl : PostOrder.Lists (depsOf all) [] (sorted selected) l) :
    name ∈ l ↔ Needed all selected name := by
  rw [(hl.mem_iff closed_nil).2, reaches_depsOf]
  constructor
  · intro h
    exact h.1.mono fun n hn => .selected (mem_sorted.mp hn)
  · intro h
    exact ⟨h.mono fun n hn => .selected (mem_sorted.mpr hn), List.not_mem_nil⟩

/-- Resolving comes to an end: with a load order exactly when the selection can be resolved, and with a
reason otherwise. -/
theorem resolve_sorts (all : BTreeMap Pack) (selected : List String) :
    ∃ r, (∀ depth, all.size < depth → resolve all depth selected = r) ∧
      ((∃ order, r = .ok order) ↔ Resolvable all selected) ∧
      (∀ order, r = .ok order → ∃ names, LoadOrder all selected names order) ∧
      ∀ m, r = .error m → Fails all selected m := by
  have hclosed : PostOrder.Closed (depsOf all) [] := closed_nil
  rcases resolve_answers all selected with ⟨l, hl, hall, hok⟩ | ⟨m, hm, herr⟩
  · obtain ⟨hnodup, hord⟩ := hl.topological hclosed
    have hmem : ∀ name, name ∈ l ↔ Needed all selected name := fun name => mem_listed hl
    refine ⟨_, hok, ⟨fun _ => ⟨fun name hn => hall name ((hmem name).mpr hn), fun name hn hc => ?_⟩,
      fun _ => ⟨_, rfl⟩⟩, fun order horder => ?_, fun m hm => by cases hm⟩
    · rw [Circular, ← follows_depsOf] at hc
      exact hl.acyclic hclosed ((hmem name).mpr hn) hc
    · cases horder
      refine ⟨l, ?_, hnodup, hmem, fun l₁ name l₂ hl₁ dep hdep => ?_⟩
      · exact map_some_filterMap fun n hn => Std.ExtTreeMap.mem_iff_isSome_getElem?.mp (hall n hn)
      · rw [← follows_depsOf] at hdep
        exact (hord l₁ name l₂ hl₁ dep hdep).resolve_left List.not_mem_nil
  · refine ⟨_, herr, ⟨fun h => ?_, fun h => ?_⟩, fun order h => (by cases h), fun m' h => ?_⟩
    · obtain ⟨order, h⟩ := h
      cases h
    · exact absurd hm h.not_fails
    · cases h
      exact hm

end Visits

end Packs

end Nix2Rdf
