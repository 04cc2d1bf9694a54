import Nix2Rdf.Lib.Datalog.Semantics
import Nix2Rdf.Lib.Transition
import Mathlib.Data.Set.Finite.List

/-!
# The chase

A run of the rules fires one match after another, each of which adds a fact. A null is named after
its rule and the values it was minted for, so that a match is fired once. What the engine reads where
a rule negates or counts is left open: whatever it reads, its runs are among these.

A run cannot go on for ever if the frontiers of the existential rules stay within finitely many
values, and so does what the rules compute.
-/

namespace Datalog

variable {P C : Type}

/-! ## Variables -/

def Atom.vars (a : Atom P C) : List String := a.args.flatMap Term.vars

def Literal.vars : Literal P C → List String
  | .pos a | .neg a => a.vars
  | .count _ n x a => n :: x :: a.vars
  | .test _ args => args.flatMap Term.vars

/-- The variables that a positive literal binds. -/
def Literal.posVars : Literal P C → List String
  | .pos a => a.vars
  | _ => []

def Rule.bodyVars (r : Rule P C) : List String := r.body.flatMap Literal.vars

def Rule.posVars (r : Rule P C) : List String := r.body.flatMap Literal.posVars

/-! ## Firings -/

/-- The atoms of the body hold, and so do its tests. -/
structure Rule.Matches (r : Rule P C) (N : Interp P C) (σ : Valuation C) : Prop where
  pos : ∀ a, .pos a ∈ r.body → N (a.ground σ)
  test : ∀ rel args, .test rel args ∈ r.body → rel (args.map (Term.ground σ))

structure Firing (P C : Type) where
  rule : Rule P C
  val : Valuation C

/-- The facts after a firing. -/
def Firing.add (a : Firing P C) (N : Interp P C) : Interp P C :=
  fun f => N f ∨ ∃ h ∈ a.rule.head, h.ground a.val = f

/-- A rule fires on a match of its body, and one of its heads is new. -/
structure Fires (rules : List (Rule P C)) (N : Interp P C) (a : Firing P C) (N' : Interp P C) : Prop where
  mem : a.rule ∈ rules
  fresh : a.rule.Fresh a.val
  matched : a.rule.Matches N a.val
  new : ∃ h ∈ a.rule.head, ¬ N (h.ground a.val)
  result : N' = a.add N

/-- A run of the rules from the facts `I`. -/
abbrev Chase (rules : List (Rule P C)) (I : Interp P C) (as : List (Firing P C)) (N : Interp P C) : Prop :=
  Transition.Run (Fires rules) Transition.free I as N

variable {rules : List (Rule P C)} {I N N' : Interp P C} {as : List (Firing P C)}

theorem Rule.Matches.mono {r : Rule P C} {σ : Valuation C} (h : r.Matches N σ) (hN : ∀ f, N f → N' f) :
    r.Matches N' σ := ⟨fun a ha => hN _ (h.pos a ha), h.test⟩

/-- A variable of a positive literal has a value that is in some fact. -/
theorem Rule.Matches.exists_fact {r : Rule P C} {σ : Valuation C} (h : r.Matches N σ) {x : String}
    (hx : x ∈ r.posVars) : ∃ f, N f ∧ σ x ∈ f.args := by
  obtain ⟨l, hl, hx⟩ := List.mem_flatMap.mp hx
  cases l with
  | pos a =>
      obtain ⟨t, ht, hx⟩ := List.mem_flatMap.mp hx
      cases t with
      | var y =>
          rw [Term.vars, List.mem_singleton] at hx
          rw [hx]
          exact ⟨_, h.pos a hl, List.mem_map.mpr ⟨_, ht, rfl⟩⟩
      | const c => cases hx
  | neg a => cases hx
  | count numeral n y a => cases hx
  | test rel args => cases hx

theorem Fires.le {a : Firing P C} (h : Fires rules N a N') {f : Fact P C} (hf : N f) : N' f := by
  rw [h.result]
  exact .inl hf

namespace Chase

theorem le (h : Chase rules I as N) {f : Fact P C} (hf : I f) : N f := by
  induction h with
  | nil => exact hf
  | cons hstep _ _ ih => exact ih (hstep.le hf)

/-- What was fired matches in the end. -/
theorem fired (h : Chase rules I as N) {a : Firing P C} (ha : a ∈ as) :
    a.rule ∈ rules ∧ a.rule.Fresh a.val ∧ a.rule.Matches N a.val := by
  induction h with
  | nil => cases ha
  | cons hstep _ hrun ih =>
      rcases List.mem_cons.mp ha with rfl | ha
      · exact ⟨hstep.mem, hstep.fresh, hstep.matched.mono fun f hf => Chase.le hrun (hstep.le hf)⟩
      · exact ih ha

/-- Where it was fired, the first facts were there. -/
theorem fires (h : Chase rules I as N) {a : Firing P C} (ha : a ∈ as) :
    ∃ M M', (∀ f, I f → M f) ∧ Fires rules M a M' := by
  induction h with
  | nil => cases ha
  | @cons I M N b as hstep _ _ ih =>
      rcases List.mem_cons.mp ha with rfl | ha
      · exact ⟨I, M, fun _ hf => hf, hstep⟩
      · obtain ⟨L, L', hle, hfires⟩ := ih ha
        exact ⟨L, L', fun f hf => hle f (hstep.le hf), hfires⟩

/-- A rule that names its nulls after its matches fires once on each. -/
theorem fires_once (h : Chase rules I as N) (hfrontier : ∀ r ∈ rules, r.nulls ≠ [] → ∀ y ∈ r.frontier,
    y ∈ r.bodyVars) :
    as.Pairwise fun a a' => a.rule = a'.rule → a.rule.nulls ≠ [] → ∃ x ∈ a.rule.bodyVars, a.val x ≠ a'.val x := by
  induction h with
  | nil => exact .nil
  | @cons I M N a as hstep _ hrun ih =>
      refine List.pairwise_cons.mpr ⟨fun a' ha' hrule hnulls => ?_, ih⟩
      by_contra hsame
      simp only [not_exists, not_and, not_not] at hsame
      obtain ⟨L, L', hle, hfires⟩ := Chase.fires hrun ha'
      obtain ⟨b, hb, hnew⟩ := hfires.new
      have hvalues : ∀ y ∈ a.rule.frontier, a.val y = a'.val y := fun y hy =>
        hsame y (hfrontier a.rule hstep.mem hnulls y hy)
      have hground : b.ground a'.val = b.ground a.val := by
        refine congrArg (Fact.mk b.pred) (List.map_congr_left fun t ht => ?_)
        cases t with
        | const c => rfl
        | var x =>
            have hfresh' := hfires.fresh
            rw [← hrule] at hb hfresh'
            by_cases hnull : x ∈ a.rule.nulls
            · rw [Term.ground_var, Term.ground_var, hfresh' x hnull, hstep.fresh x hnull,
                List.map_congr_left hvalues]
            · refine (hvalues x ?_).symm
              rw [Rule.frontier, List.mem_dedup, List.mem_filter]
              refine ⟨List.mem_flatMap.mpr ⟨b, hb, List.mem_flatMap.mpr ⟨_, ht, List.mem_singleton_self x⟩⟩, ?_⟩
              exact decide_eq_true hnull
      refine hnew (hle _ ?_)
      rw [hstep.result, hground]
      exact .inr ⟨b, hrule ▸ hb, rfl⟩

/-- What holds of the first facts and is kept by every rule holds of all facts of a run. -/
theorem induction {motive : Fact P C → Prop} (h : Chase rules I as N) (base : ∀ f, I f → motive f)
    (fire : ∀ r ∈ rules, ∀ σ, r.Fresh σ → r.Matches (fun f => N f ∧ motive f) σ →
      ∀ a ∈ r.head, motive (a.ground σ)) {f : Fact P C} (hf : N f) : motive f := by
  induction h with
  | nil => exact base f hf
  | @cons M M' N a as hstep _ hrun ih =>
      refine ih (fun f hf => ?_) fire hf
      rw [hstep.result] at hf
      rcases hf with hf | ⟨b, hb, rfl⟩
      · exact base f hf
      · refine fire a.rule hstep.mem a.val hstep.fresh (hstep.matched.mono fun f hf => ⟨?_, base f hf⟩) b hb
        exact Chase.le hrun (hstep.le hf)

/-- Every firing adds a fact. -/
theorem length_le (h : Chase rules I as N) (hfin : {f | N f}.Finite) :
    as.length + {f | I f}.ncard ≤ {f | N f}.ncard := by
  induction h with
  | nil => simp
  | @cons M M' N a as hstep _ hrun ih =>
      have hsub : {f | M f} ⊆ {f | M' f} := fun f hf => hstep.le hf
      have hgrow : {f | M f}.ncard < {f | M' f}.ncard := by
        obtain ⟨b, hb, hnew⟩ := hstep.new
        have hin : M' (b.ground a.val) := by
          rw [hstep.result]
          exact .inr ⟨b, hb, rfl⟩
        exact Set.ncard_lt_ncard ⟨hsub, fun hback => hnew (hback hin)⟩
          (hfin.subset fun f hf => Chase.le hrun hf)
      have hrest := ih hfin
      rw [List.length_cons]
      omega

end Chase

/-! ## Finitely many facts -/

theorem finite_lists {α : Type} {V : Set α} (hV : V.Finite) (n : Nat) :
    {l : List α | l.length ≤ n ∧ ∀ v ∈ l, v ∈ V}.Finite := by
  have hfin : Finite V := hV
  refine ((List.finite_length_le V n).image (List.map Subtype.val)).subset fun l hl => ?_
  refine ⟨l.pmap Subtype.mk hl.2, ?_, ?_⟩
  · rw [Set.mem_ofPred_eq, List.length_pmap]
    exact hl.1
  · rw [List.map_pmap]
    exact List.pmap_eq_self.mpr fun _ _ => rfl

/-- Where the head variables of a rule get their values: a null of a frontier in `K`, a fact, or `S`. -/
def Rule.Feeds (K S : Set (Value C)) (r : Rule P C) (σ : Valuation C) : Prop :=
  ∀ a ∈ r.head, ∀ x ∈ a.vars, x ∈ r.nulls ∧ (∀ y ∈ r.frontier, σ y ∈ K) ∨ x ∈ r.posVars ∨ σ x ∈ S

/-- In every run, whatever matches gets its values there. -/
def Feeding (rules : List (Rule P C)) (I : Interp P C) (K S : Set (Value C)) : Prop :=
  ∀ as N, Chase rules I as N → ∀ r ∈ rules, ∀ σ, r.Fresh σ → r.Matches N σ → r.Feeds K S σ

/-- The constants of a rule's head. -/
def Rule.headConsts (r : Rule P C) : Set (Value C) := {v | ∃ a ∈ r.head, ∃ c, Term.const c ∈ a.args ∧ v = .const c}

/-- The nulls of a rule whose frontiers have their values in `K`. -/
def Rule.nullsOver (r : Rule P C) (K : Set (Value C)) : Set (Value C) :=
  {v | ∃ x ∈ r.nulls, ∃ vs : List (Value C), vs.length ≤ r.frontier.length ∧ (∀ w ∈ vs, w ∈ K) ∧
    v = .null r.name x vs}

theorem Rule.finite_headConsts (r : Rule P C) : r.headConsts.Finite := by
  have hcover : r.headConsts ⊆ ⋃ a ∈ {a | a ∈ r.head}, (fun t : Term C => t.ground fun _ => .null "" "" [])
      '' {t | t ∈ a.args} := by
    intro v hv
    obtain ⟨a, ha, c, hc, rfl⟩ := hv
    exact Set.mem_biUnion ha ⟨_, hc, rfl⟩
  exact ((List.finite_toSet r.head).biUnion fun a _ => (List.finite_toSet a.args).image _).subset hcover

theorem Rule.finite_nullsOver (r : Rule P C) {K : Set (Value C)} (hK : K.Finite) : (r.nullsOver K).Finite := by
  have hcover : r.nullsOver K ⊆ ⋃ x ∈ {x | x ∈ r.nulls}, (fun vs => Value.null r.name x vs) ''
      {vs | vs.length ≤ r.frontier.length ∧ ∀ w ∈ vs, w ∈ K} := by
    intro v hv
    obtain ⟨x, hx, vs, hlen, hvs, rfl⟩ := hv
    exact Set.mem_biUnion hx ⟨vs, ⟨hlen, hvs⟩, rfl⟩
  exact ((List.finite_toSet r.nulls).biUnion fun x _ => (finite_lists hK _).image _).subset hcover

/-- The values that a run may show. -/
def Shown (rules : List (Rule P C)) (I : Interp P C) (K S : Set (Value C)) : Set (Value C) :=
  (⋃ f ∈ {f | I f}, {v | v ∈ f.args}) ∪ (⋃ r ∈ {r | r ∈ rules}, (r.headConsts ∪ r.nullsOver K)) ∪ S

/-- The facts that it may have. -/
def Within (rules : List (Rule P C)) (I : Interp P C) (K S : Set (Value C)) : Set (Fact P C) :=
  {f | I f} ∪ ⋃ r ∈ {r | r ∈ rules}, ⋃ a ∈ {a | a ∈ r.head},
    Fact.mk a.pred '' {vs | vs.length ≤ a.args.length ∧ ∀ v ∈ vs, v ∈ Shown rules I K S}

section Finite

variable {K S : Set (Value C)}

theorem finite_shown (hI : {f | I f}.Finite) (hK : K.Finite) (hS : S.Finite) : (Shown rules I K S).Finite := by
  refine ((hI.biUnion fun f _ => List.finite_toSet f.args).union ?_).union hS
  exact (List.finite_toSet rules).biUnion fun r _ => r.finite_headConsts.union (r.finite_nullsOver hK)

theorem finite_within (hI : {f | I f}.Finite) (hK : K.Finite) (hS : S.Finite) : (Within rules I K S).Finite := by
  refine hI.union ((List.finite_toSet rules).biUnion fun r _ => (List.finite_toSet r.head).biUnion fun a _ => ?_)
  exact (finite_lists (finite_shown hI hK hS) _).image _

theorem shown_of_base {f : Fact P C} (hf : I f) {v : Value C} (hv : v ∈ f.args) : v ∈ Shown rules I K S :=
  .inl (.inl (Set.mem_biUnion hf hv))

/-- The values of a head that a firing adds. -/
theorem Rule.Feeds.shown {r : Rule P C} {σ : Valuation C} (h : r.Feeds K S σ) (hr : r ∈ rules) (hfresh : r.Fresh σ)
    (hpos : ∀ x ∈ r.posVars, σ x ∈ Shown rules I K S) {a : Atom P C} (ha : a ∈ r.head) {v : Value C}
    (hv : v ∈ (a.ground σ).args) : v ∈ Shown rules I K S := by
  obtain ⟨t, ht, rfl⟩ := List.mem_map.mp hv
  cases t with
  | const c => exact .inl (.inr (Set.mem_biUnion hr (.inl ⟨a, ha, c, ht, rfl⟩)))
  | var x =>
      have hx : x ∈ a.vars := List.mem_flatMap.mpr ⟨_, ht, List.mem_singleton_self x⟩
      rcases h a ha x hx with ⟨hnull, hfrontier⟩ | hbound | hcomputed
      · refine .inl (.inr (Set.mem_biUnion hr
          (.inr ⟨x, hnull, r.frontier.map σ, ?_, fun w hw => ?_, hfresh x hnull⟩)))
        · rw [List.length_map]
        · obtain ⟨y, hy, rfl⟩ := List.mem_map.mp hw
          exact hfrontier y hy
      · exact hpos x hbound
      · exact .inr hcomputed

/-- The facts of every run are among finitely many. -/
theorem Chase.within (hfeed : Feeding rules I K S) (h : Chase rules I as N) {f : Fact P C} (hf : N f) :
    f ∈ Within rules I K S ∧ ∀ v ∈ f.args, v ∈ Shown rules I K S := by
  refine h.induction (motive := fun f => f ∈ Within rules I K S ∧ ∀ v ∈ f.args, v ∈ Shown rules I K S)
    (fun f hf => ⟨.inl hf, fun v hv => shown_of_base hf hv⟩) ?_ hf
  intro r hr σ hfresh hmatch a ha
  have hfeeds := hfeed as N h r hr σ hfresh (hmatch.mono fun f hf => hf.1)
  have hpos : ∀ x ∈ r.posVars, σ x ∈ Shown rules I K S := by
    intro x hx
    obtain ⟨f, hf, hmem⟩ := hmatch.exists_fact hx
    exact hf.2.2 _ hmem
  have hshown : ∀ v ∈ (a.ground σ).args, v ∈ Shown rules I K S := fun v hv => hfeeds.shown hr hfresh hpos ha hv
  refine ⟨.inr (Set.mem_biUnion hr (Set.mem_biUnion ha ⟨_, ⟨?_, hshown⟩, rfl⟩)), hshown⟩
  rw [Atom.ground, List.length_map]

theorem Chase.finite (hfeed : Feeding rules I K S) (hI : {f | I f}.Finite) (hK : K.Finite) (hS : S.Finite)
    (h : Chase rules I as N) : {f | N f}.Finite :=
  (finite_within hI hK hS).subset fun _ hf => (h.within hfeed hf).1

/-- The chase ends: no run has more firings than there are facts for it. -/
theorem Chase.bounded (hfeed : Feeding rules I K S) (hI : {f | I f}.Finite) (hK : K.Finite) (hS : S.Finite)
    (h : Chase rules I as N) : as.length ≤ (Within rules I K S).ncard := by
  have hlen := h.length_le (h.finite hfeed hI hK hS)
  have hcard : {f | N f}.ncard ≤ (Within rules I K S).ncard :=
    Set.ncard_le_ncard (fun _ hf => (h.within hfeed hf).1) (finite_within hI hK hS)
  omega

end Finite

/-! ## How many nulls -/

def Value.IsNull : Value C → Prop
  | .const _ => False
  | .null _ _ _ => True

def nullsOf (N : Interp P C) : Set (Value C) := {v | v.IsNull ∧ ∃ f, N f ∧ v ∈ f.args}

/-- The facts without nulls. -/
def nullFree (N : Interp P C) : Interp P C := fun f => N f ∧ ∀ v ∈ f.args, ¬ v.IsNull

/-- The matches of a rule's body, as the values of its variables. -/
def Rule.matchesIn (r : Rule P C) (N : Interp P C) : Set (List (Value C)) :=
  {vs | ∃ σ, r.Matches N σ ∧ vs = r.bodyVars.map σ}

/-- The nulls that a rule mints for the matches of its body. -/
def Rule.mintedIn (r : Rule P C) (N : Interp P C) (x : String) : Set (Value C) :=
  {v | ∃ σ, r.Matches N σ ∧ v = .null r.name x (r.frontier.map σ)}

theorem Rule.finite_matchesIn {r : Rule P C} (hN : {f | N f}.Finite) (hvars : ∀ x ∈ r.bodyVars, x ∈ r.posVars) :
    (r.matchesIn N).Finite := by
  have hvalues : (⋃ f ∈ {f | N f}, {v | v ∈ f.args}).Finite := hN.biUnion fun f _ => List.finite_toSet f.args
  refine (finite_lists hvalues r.bodyVars.length).subset fun vs hvs => ?_
  obtain ⟨σ, hmatch, rfl⟩ := hvs
  refine ⟨by rw [List.length_map], fun v hv => ?_⟩
  obtain ⟨x, hx, rfl⟩ := List.mem_map.mp hv
  obtain ⟨f, hf, hmem⟩ := hmatch.exists_fact (hvars x hx)
  exact Set.mem_biUnion hf hmem

/-- One null a match. -/
theorem Rule.mintedIn_subset {r : Rule P C} {x : String} (hfrontier : ∀ y ∈ r.frontier, y ∈ r.bodyVars) :
    r.mintedIn N x ⊆ (fun vs => Value.null r.name x
      (r.frontier.map fun y => (vs[r.bodyVars.idxOf y]?).getD (.null "" "" []))) '' r.matchesIn N := by
  intro v hv
  obtain ⟨σ, hmatch, rfl⟩ := hv
  refine ⟨_, ⟨σ, hmatch, rfl⟩, ?_⟩
  refine congrArg (Value.null r.name x) (List.map_congr_left fun y hy => ?_)
  rw [List.getElem?_map, List.getElem?_idxOf (hfrontier y hy)]
  rfl

/-- A null of a head is minted for a match without nulls, or was there, or the variable has a constant. -/
def Rule.Mints (r : Rule P C) (N : Interp P C) (σ : Valuation C) : Prop :=
  ∀ a ∈ r.head, ∀ x ∈ a.vars, x ∈ r.nulls ∧ r.Matches (nullFree N) σ ∨ x ∈ r.posVars ∨ ¬ (σ x).IsNull

theorem Chase.nulls_subset (h : Chase rules I as N) (hfree : ∀ f, I f → ∀ v ∈ f.args, ¬ v.IsNull)
    (hmint : ∀ r ∈ rules, ∀ σ, r.Fresh σ → r.Matches N σ → r.Mints N σ) :
    nullsOf N ⊆ ⋃ r ∈ {r | r ∈ rules}, ⋃ x ∈ {x | x ∈ r.nulls}, r.mintedIn (nullFree N) x := by
  intro v hv
  obtain ⟨hnull, f, hf, hmem⟩ := hv
  refine h.induction (motive := fun f => ∀ v ∈ f.args, v.IsNull →
    v ∈ ⋃ r ∈ {r | r ∈ rules}, ⋃ x ∈ {x | x ∈ r.nulls}, r.mintedIn (nullFree N) x)
    (fun f hf v hv hnull => absurd hnull (hfree f hf v hv)) ?_ hf v hmem hnull
  intro r hr σ hfresh hmatch a ha v hv hnull
  obtain ⟨t, ht, rfl⟩ := List.mem_map.mp hv
  cases t with
  | const c => exact hnull.elim
  | var x =>
      have hx : x ∈ a.vars := List.mem_flatMap.mpr ⟨_, ht, List.mem_singleton_self x⟩
      rcases hmint r hr σ hfresh (hmatch.mono fun f hf => hf.1) a ha x hx with ⟨hminted, hbare⟩ | hbound | hconst
      · exact Set.mem_biUnion hr (Set.mem_biUnion hminted ⟨σ, hbare, hfresh x hminted⟩)
      · obtain ⟨f, hf, hmem⟩ := hmatch.exists_fact hbound
        exact hf.2 _ hmem hnull
      · exact absurd hnull hconst

theorem ncard_biUnion_le {α β : Type} {l : List β} {f : β → Set α} {g : β → Nat} (h : ∀ b ∈ l, (f b).ncard ≤ g b) :
    (⋃ b ∈ {b | b ∈ l}, f b).ncard ≤ (l.map g).sum := by
  induction l with
  | nil => simp
  | cons b l ih =>
      have hunion : (⋃ c ∈ {c | c ∈ b :: l}, f c) = f b ∪ ⋃ c ∈ {c | c ∈ l}, f c := by
        ext v
        simp
      rw [hunion, List.map_cons, List.sum_cons]
      have hhead := h b List.mem_cons_self
      have htail := ih fun c hc => h c (List.mem_cons_of_mem _ hc)
      have hle := Set.ncard_union_le (f b) (⋃ c ∈ {c | c ∈ l}, f c)
      omega

/-- There are no more nulls than matches of existential rules among the facts without nulls. -/
theorem Chase.ncard_nulls_le (h : Chase rules I as N) (hfin : {f | N f}.Finite)
    (hfree : ∀ f, I f → ∀ v ∈ f.args, ¬ v.IsNull)
    (hmint : ∀ r ∈ rules, ∀ σ, r.Fresh σ → r.Matches N σ → r.Mints N σ)
    (hvars : ∀ r ∈ rules, r.nulls ≠ [] → (∀ x ∈ r.bodyVars, x ∈ r.posVars) ∧ ∀ y ∈ r.frontier, y ∈ r.bodyVars) :
    (nullsOf N).Finite ∧
      (nullsOf N).ncard ≤ (rules.map fun r => r.nulls.length * (r.matchesIn (nullFree N)).ncard).sum := by
  have hvalues : (nullsOf N).Finite := by
    refine (hfin.biUnion fun f _ => List.finite_toSet f.args).subset fun v hv => ?_
    obtain ⟨_, f, hf, hmem⟩ := hv
    exact Set.mem_biUnion hf hmem
  have hbare : {f | nullFree N f}.Finite := hfin.subset fun f hf => hf.1
  have hmatches : ∀ r ∈ rules, ∀ x ∈ r.nulls, (r.matchesIn (nullFree N)).Finite := fun r hr x hx =>
    Rule.finite_matchesIn hbare (hvars r hr (List.ne_nil_of_mem hx)).1
  have hminted : ∀ r ∈ rules, ∀ x ∈ r.nulls, r.mintedIn (nullFree N) x ⊆ _ := fun r hr x hx =>
    Rule.mintedIn_subset (hvars r hr (List.ne_nil_of_mem hx)).2
  have hrule : ∀ r ∈ rules, (⋃ x ∈ {x | x ∈ r.nulls}, r.mintedIn (nullFree N) x).ncard ≤
      r.nulls.length * (r.matchesIn (nullFree N)).ncard := by
    intro r hr
    have hone : ∀ x ∈ r.nulls, (r.mintedIn (nullFree N) x).ncard ≤ (r.matchesIn (nullFree N)).ncard := fun x hx =>
      (Set.ncard_le_ncard (hminted r hr x hx) ((hmatches r hr x hx).image _)).trans
        (Set.ncard_image_le (hmatches r hr x hx))
    have hsum := ncard_biUnion_le hone
    rw [List.map_const', List.sum_replicate_nat] at hsum
    exact hsum
  refine ⟨hvalues, (Set.ncard_le_ncard (h.nulls_subset hfree hmint) ?_).trans (ncard_biUnion_le hrule)⟩
  refine (List.finite_toSet rules).biUnion fun r hr => (List.finite_toSet r.nulls).biUnion fun x hx => ?_
  exact ((hmatches r hr x hx).image _).subset (hminted r hr x hx)

end Datalog
