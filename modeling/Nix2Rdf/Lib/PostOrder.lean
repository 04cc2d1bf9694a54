import Mathlib.Logic.Relation
import Mathlib.Order.Lattice
import Mathlib.Data.List.Lex
import Mathlib.Data.List.Pairwise

/-!
# Depth-first post-order

A graph is walked depth first from a list of roots. A node is listed after everything that it leads to,
unless it was listed before. The listing is a topological order; when the roots and the nodes that
follow a node are taken in order, it is the order of the least routes to the nodes.
-/

namespace PostOrder

variable {α : Type}

/-- From these roots the nodes `l` are listed, when those of `done` were listed before. -/
inductive Lists (succ : α → List α) : List α → List α → List α → Prop
  | nil {done : List α} : Lists succ done [] []
  | skip {done roots l : List α} {a : α} : a ∈ done → Lists succ done roots l → Lists succ done (a :: roots) l
  | visit {done roots l k : List α} {a : α} : a ∉ done → Lists succ done (succ a) k →
      Lists succ (a :: (k.reverse ++ done)) roots l → Lists succ done (a :: roots) (k ++ a :: l)

def Follows (succ : α → List α) (a b : α) : Prop := b ∈ succ a

/-- The node can be reached from the roots. -/
def Reaches (succ : α → List α) (roots : List α) (b : α) : Prop :=
  ∃ a ∈ roots, Relation.ReflTransGen (Follows succ) a b

/-- The node leads back to itself. -/
def OnCycle (succ : α → List α) (a : α) : Prop := Relation.TransGen (Follows succ) a a

/-- Whatever follows a listed node was listed. -/
def Closed (succ : α → List α) (done : List α) : Prop := ∀ a ∈ done, ∀ b ∈ succ a, b ∈ done

/-- Whatever follows a node of the list comes before it or was done. -/
def Ordered (succ : α → List α) (done l : List α) : Prop :=
  ∀ l₁ a l₂, l = l₁ ++ a :: l₂ → ∀ b ∈ succ a, b ∈ done ∨ b ∈ l₁

section Reaching

variable {succ : α → List α} {roots done : List α} {a b : α}

theorem reaches_nil : ¬ Reaches succ [] b := by
  intro h
  obtain ⟨a, ha, _⟩ := h
  cases ha

theorem reaches_cons :
    Reaches succ (a :: roots) b ↔ Relation.ReflTransGen (Follows succ) a b ∨ Reaches succ roots b := by
  constructor
  · intro h
    obtain ⟨r, hr, h⟩ := h
    rcases List.mem_cons.mp hr with rfl | hr
    · exact .inl h
    · exact .inr ⟨r, hr, h⟩
  · intro h
    rcases h with h | ⟨r, hr, h⟩
    · exact ⟨a, List.mem_cons_self, h⟩
    · exact ⟨r, List.mem_cons_of_mem _ hr, h⟩

theorem Reaches.root (h : a ∈ roots) : Reaches succ roots a := ⟨a, h, .refl⟩

/-- What a node leads to is the node or reached from those that follow it. -/
theorem reflTransGen_iff : Relation.ReflTransGen (Follows succ) a b ↔ b = a ∨ Reaches succ (succ a) b := by
  rw [Relation.ReflTransGen.cases_head_iff]
  constructor
  · intro h
    rcases h with h | ⟨c, hc, h⟩
    · exact .inl h.symm
    · exact .inr ⟨c, hc, h⟩
  · intro h
    rcases h with h | ⟨c, hc, h⟩
    · exact .inl h.symm
    · exact .inr ⟨c, hc, h⟩

theorem onCycle_iff : OnCycle succ a ↔ Reaches succ (succ a) a := by
  rw [OnCycle, Relation.TransGen.head'_iff]
  rfl

theorem Closed.of_reflTransGen (hdone : Closed succ done) (ha : a ∈ done)
    (h : Relation.ReflTransGen (Follows succ) a b) : b ∈ done := by
  induction h with
  | refl => exact ha
  | tail _ hb ih => exact hdone _ ih _ hb

end Reaching

section Order

variable {succ : α → List α} {roots done l : List α}

theorem Ordered.nil : Ordered succ done [] := by
  intro l₁ a l₂ h
  simp at h

theorem ordered_cons {a : α} :
    Ordered succ done (a :: l) ↔ (∀ b ∈ succ a, b ∈ done) ∧ Ordered succ (a :: done) l := by
  constructor
  · intro h
    refine ⟨fun b hb => (h [] a l rfl b hb).resolve_right List.not_mem_nil, fun l₁ c l₂ hl b hb => ?_⟩
    rcases h (a :: l₁) c l₂ (by rw [hl, List.cons_append]) b hb with hd | hl₁
    · exact .inl (List.mem_cons_of_mem _ hd)
    · rcases List.mem_cons.mp hl₁ with rfl | hl₁
      · exact .inl List.mem_cons_self
      · exact .inr hl₁
  · intro h l₁ c l₂ hl b hb
    cases l₁ with
    | nil =>
        obtain ⟨rfl, rfl⟩ := List.cons.inj hl
        exact .inl (h.1 b hb)
    | cons d l₁ =>
        obtain ⟨rfl, rfl⟩ := List.cons.inj hl
        rcases h.2 l₁ c l₂ rfl b hb with hd | hl₁
        · rcases List.mem_cons.mp hd with rfl | hd
          · exact .inr List.mem_cons_self
          · exact .inl hd
        · exact .inr (List.mem_cons_of_mem _ hl₁)

theorem ordered_append {k : List α} :
    Ordered succ done (k ++ l) ↔ Ordered succ done k ∧ Ordered succ (k.reverse ++ done) l := by
  induction k generalizing done with
  | nil => exact ⟨fun h => ⟨.nil, h⟩, fun h => h.2⟩
  | cons a k ih =>
      rw [List.cons_append, ordered_cons, ordered_cons, ih, and_assoc, List.reverse_cons, List.append_assoc,
        List.singleton_append]

/-- The nodes that are listed are those that can be reached and were not done; what follows them is listed. -/
theorem Lists.mem_iff (h : Lists succ done roots l) (hdone : Closed succ done) :
    Closed succ (l.reverse ++ done) ∧ ∀ b, b ∈ l ↔ Reaches succ roots b ∧ b ∉ done := by
  induction h with
  | nil => exact ⟨hdone, fun b => by simp [reaches_nil]⟩
  | @skip done roots l a ha _ ih =>
      obtain ⟨hclosed, hmem⟩ := ih hdone
      refine ⟨hclosed, fun b => ?_⟩
      rw [hmem, reaches_cons]
      constructor
      · intro hb
        exact ⟨.inr hb.1, hb.2⟩
      · intro hb
        exact ⟨hb.1.resolve_left fun hr => hb.2 (hdone.of_reflTransGen ha hr), hb.2⟩
  | @visit done roots l k a ha _ _ ihk ihl =>
      obtain ⟨hkclosed, hkmem⟩ := ihk hdone
      have hsucc : ∀ b ∈ succ a, b ∈ k.reverse ++ done := by
        intro b hb
        rw [List.mem_append, List.mem_reverse, hkmem]
        by_cases hd : b ∈ done
        · exact .inr hd
        · exact .inl ⟨.root hb, hd⟩
      have hclosed : Closed succ (a :: (k.reverse ++ done)) := by
        intro c hc b hb
        refine List.mem_cons_of_mem _ ?_
        rcases List.mem_cons.mp hc with rfl | hc
        · exact hsucc b hb
        · exact hkclosed c hc b hb
      obtain ⟨hall, hmem⟩ := ihl hclosed
      refine ⟨by simpa using hall, fun b => ?_⟩
      rw [List.mem_append, List.mem_cons, hmem, List.mem_cons, List.mem_append, List.mem_reverse, hkmem,
        reaches_cons, reflTransGen_iff]
      by_cases hb : b ∈ done
      · have hne : b ≠ a := fun heq => ha (heq ▸ hb)
        simp [hb, hne]
      · by_cases heq : b = a
        · simp [heq, ha]
        · by_cases hr : Reaches succ (succ a) b
          · simp [hb, hr]
          · simp [hb, heq, hr]

/-- A listing goes on from where another one ended. -/
theorem Lists.cons {a : α} {k : List α} (hk : Lists succ done [a] k) (hl : Lists succ (k.reverse ++ done) roots l) :
    Lists succ done (a :: roots) (k ++ l) := by
  cases hk with
  | skip ha h =>
      cases h
      exact .skip ha hl
  | @visit _ _ _ k _ ha hk h =>
      cases h
      rw [List.append_assoc, List.singleton_append]
      refine .visit ha hk ?_
      simpa using hl

/-- Every node of a listing was visited. -/
theorem Lists.visited (h : Lists succ done roots l) (hdone : Closed succ done) {a : α} (ha : a ∈ l) :
    ∃ done' k, a ∉ done' ∧ Closed succ done' ∧ Lists succ done' (succ a) k ∧ k.length < l.length := by
  induction h with
  | nil => cases ha
  | skip _ _ ih => exact ih hdone ha
  | @visit done roots l k c hc hk hl ihk ihl =>
      rw [List.mem_append, List.mem_cons] at ha
      rcases ha with ha | rfl | ha
      · obtain ⟨done', k', hnew, hclosed, hlists, hlt⟩ := ihk hdone ha
        refine ⟨done', k', hnew, hclosed, hlists, Nat.lt_of_lt_of_le hlt ?_⟩
        rw [List.length_append]
        exact Nat.le_add_right _ _
      · refine ⟨done, k, hc, hdone, hk, ?_⟩
        rw [List.length_append, List.length_cons]
        omega
      · have hv := (Lists.visit hc hk .nil).mem_iff hdone
        rw [List.reverse_append, List.reverse_cons, List.reverse_nil, List.nil_append, List.append_assoc,
          List.singleton_append] at hv
        obtain ⟨done', k', hnew, hclosed, hlists, hlt⟩ := ihl hv.1 ha
        refine ⟨done', k', hnew, hclosed, hlists, ?_⟩
        rw [List.length_append, List.length_cons]
        omega

/-- A node that is visited is not among those that it leads to: each of its visits would need a shorter one. -/
theorem Lists.not_onCycle {a : α} (h : Lists succ done (succ a) l) (hdone : Closed succ done) (ha : a ∉ done) :
    ¬ OnCycle succ a := by
  intro hcycle
  rw [onCycle_iff] at hcycle
  induction hn : l.length using Nat.strongRecOn generalizing done l with
  | ind n ih =>
      subst hn
      have hmem := ((h.mem_iff hdone).2 a).mpr ⟨hcycle, ha⟩
      obtain ⟨done', k, hnew, hclosed, hk, hlt⟩ := h.visited hdone hmem
      exact ih k.length hlt hk hclosed hnew rfl

theorem Lists.acyclic (h : Lists succ done roots l) (hdone : Closed succ done) {a : α} (ha : a ∈ l) :
    ¬ OnCycle succ a := by
  obtain ⟨done', k, hnew, hclosed, hk, _⟩ := h.visited hdone ha
  exact hk.not_onCycle hclosed hnew

theorem Closed.visit (hdone : Closed succ done) {a : α} {k : List α} (ha : a ∉ done)
    (hk : Lists succ done (succ a) k) : Closed succ (a :: (k.reverse ++ done)) := by
  have hv := (Lists.visit ha hk .nil).mem_iff hdone
  simpa using hv.1

/-- A listing is a topological order: each node once, after everything that it leads to. -/
theorem Lists.topological (h : Lists succ done roots l) (hdone : Closed succ done) :
    l.Nodup ∧ Ordered succ done l := by
  induction h with
  | nil => exact ⟨List.nodup_nil, .nil⟩
  | skip _ _ ih => exact ih hdone
  | @visit done roots l k a ha hk hl ihk ihl =>
      have hclosed := hdone.visit ha hk
      have hout : ∀ b ∈ l, b ≠ a ∧ b ∉ k := by
        intro b hb
        have hnew := (((hl.mem_iff hclosed).2 b).mp hb).2
        rw [List.mem_cons, List.mem_append, List.mem_reverse, not_or, not_or] at hnew
        exact ⟨hnew.1, hnew.2.1⟩
      have hak : a ∉ k := by
        intro hmem
        have hr := (((hk.mem_iff hdone).2 a).mp hmem).1
        exact hk.not_onCycle hdone ha (onCycle_iff.mpr hr)
      obtain ⟨hknodup, hkord⟩ := ihk hdone
      obtain ⟨hlnodup, hlord⟩ := ihl hclosed
      constructor
      · refine List.nodup_append.mpr ⟨hknodup, List.nodup_cons.mpr ⟨fun h => (hout a h).1 rfl, hlnodup⟩, ?_⟩
        intro b hbk c hc heq
        subst heq
        rcases List.mem_cons.mp hc with rfl | hl
        · exact hak hbk
        · exact (hout b hl).2 hbk
      · rw [ordered_append, ordered_cons]
        refine ⟨hkord, fun b hb => ?_, hlord⟩
        rw [List.mem_append, List.mem_reverse, (hk.mem_iff hdone).2]
        by_cases hd : b ∈ done
        · exact .inr hd
        · exact .inl ⟨.root hb, hd⟩

end Order

/-! ## Routes -/

/-- A way to the node, from one that the way may start at. -/
inductive Route (step : α → α → Prop) : (α → Prop) → α → List α → Prop
  | here {starts : α → Prop} {a : α} : starts a → Route step starts a [a]
  | next {starts : α → Prop} {a b : α} {p : List α} : starts a → Route step (step a) b p →
    Route step starts b (a :: p)

/-- A way comes before the ones that it extends; otherwise the first difference decides. -/
inductive Precedes [LT α] : List α → List α → Prop
  | longer {a : α} {p : List α} : Precedes (a :: p) []
  | first {a b : α} {p q : List α} : a < b → Precedes (a :: p) (b :: q)
  | tail {a : α} {p q : List α} : Precedes p q → Precedes (a :: p) (a :: q)

/-- No other route to the node is less. -/
def LeastRoute [LT α] (step : α → α → Prop) (starts : α → Prop) (b : α) (p : List α) : Prop :=
  Route step starts b p ∧ ∀ q, Route step starts b q → ¬ q < p

/-- The least route to the one node precedes the least route to the other. -/
def Before [LT α] (step : α → α → Prop) (starts : α → Prop) (a b : α) : Prop :=
  ∃ p q, LeastRoute step starts a p ∧ LeastRoute step starts b q ∧ Precedes p q

section Routes

variable {succ : α → List α} {step : α → α → Prop} {starts : α → Prop} {roots : List α} {a b : α} {p q : List α}

theorem Route.mono {starts' : α → Prop} (h : Route step starts b p) (hsub : ∀ a, starts a → starts' a) :
    Route step starts' b p := by
  cases h with
  | here ha => exact .here (hsub _ ha)
  | next ha h => exact .next (hsub _ ha) h

theorem Route.reaches (h : Route step starts b p) : ∃ a, starts a ∧ Relation.ReflTransGen step a b := by
  induction h with
  | here ha => exact ⟨_, ha, .refl⟩
  | next ha _ ih =>
      obtain ⟨c, hc, h⟩ := ih
      exact ⟨_, ha, .head hc h⟩

/-- Routes to what a root does not lead to start at the other roots. -/
theorem route_cons (h : ¬ Relation.ReflTransGen (Follows succ) a b) :
    Route (Follows succ) (· ∈ a :: roots) b p ↔ Route (Follows succ) (· ∈ roots) b p := by
  constructor
  · intro hr
    cases hr with
    | here ha => exact .here ((List.mem_cons.mp ha).resolve_left fun heq => h (heq ▸ .refl))
    | next ha hr =>
        refine .next ((List.mem_cons.mp ha).resolve_left fun heq => ?_) hr
        obtain ⟨c, hc, hr⟩ := hr.reaches
        exact h (heq ▸ .head hc hr)
  · intro hr
    exact hr.mono fun c hc => List.mem_cons_of_mem _ hc

variable [LinearOrder α]

theorem Precedes.asymm (h : Precedes p q) : ¬ Precedes q p := by
  induction h with
  | longer =>
      intro h
      cases h
  | first hlt =>
      intro h
      cases h with
      | first hgt => exact lt_asymm hlt hgt
      | tail _ => exact lt_irrefl _ hlt
  | tail _ ih =>
      intro h
      cases h with
      | first hlt => exact lt_irrefl _ hlt
      | tail h => exact ih h

theorem LeastRoute.unique (hp : LeastRoute step starts a p) (hq : LeastRoute step starts a q) : p = q :=
  Std.Trichotomous.trichotomous p q (hq.2 p hp.1) (hp.2 q hq.1)

theorem Before.asymm (h : Before step starts a b) : ¬ Before step starts b a := by
  intro h'
  obtain ⟨p, q, hp, hq, hpq⟩ := h
  obtain ⟨q', p', hq', hp', hqp⟩ := h'
  rw [hq'.unique hq, hp'.unique hp] at hqp
  exact hpq.asymm hqp

theorem leastRoute_cons (h : ¬ Relation.ReflTransGen (Follows succ) a b) :
    LeastRoute (Follows succ) (· ∈ a :: roots) b p ↔ LeastRoute (Follows succ) (· ∈ roots) b p := by
  simp only [LeastRoute, route_cons h]

/-- The least route to the least root. -/
theorem leastRoute_root (hroots : ∀ c ∈ roots, a ≤ c) : LeastRoute step (· ∈ a :: roots) a [a] := by
  refine ⟨.here List.mem_cons_self, fun q hq hlt => ?_⟩
  have hle : ∀ c ∈ a :: roots, a ≤ c := by simpa using hroots
  cases hq with
  | here ha => exact List.lt_irrefl _ hlt
  | next ha hq =>
      rcases List.cons_lt_cons_iff.mp hlt with hlt | ⟨_, hlt⟩
      · exact absurd (hle _ ha) (not_le_of_gt hlt)
      · exact List.not_lt_nil _ hlt

/-- The least route to what the least root leads to starts there. -/
theorem LeastRoute.next (hroots : ∀ c ∈ roots, a ≤ c) (hne : a ≠ b)
    (h : LeastRoute (Follows succ) (· ∈ succ a) b p) : LeastRoute (Follows succ) (· ∈ a :: roots) b (a :: p) := by
  refine ⟨.next List.mem_cons_self h.1, fun q hq hlt => ?_⟩
  have hle : ∀ c ∈ a :: roots, a ≤ c := by simpa using hroots
  cases hq with
  | here hb =>
      rcases List.cons_lt_cons_iff.mp hlt with hlt | ⟨heq, _⟩
      · exact absurd (hle _ hb) (not_le_of_gt hlt)
      · exact hne heq.symm
  | next hc hq =>
      rcases List.cons_lt_cons_iff.mp hlt with hlt | ⟨heq, hless⟩
      · exact absurd (hle _ hc) (not_le_of_gt hlt)
      · subst heq
        exact h.2 _ hq hless

/-- A listing of sorted nodes goes by the least routes. -/
theorem Lists.leastRoutes {done l : List α} (h : Lists succ done roots l) (hdone : Closed succ done)
    (hsucc : ∀ a, (succ a).Pairwise (· ≤ ·)) (hroots : roots.Pairwise (· ≤ ·)) :
    (∀ b ∈ l, ∃ p, LeastRoute (Follows succ) (· ∈ roots) b p) ∧
      l.Pairwise (Before (Follows succ) (· ∈ roots)) := by
  induction h with
  | nil => exact ⟨by simp, .nil⟩
  | @skip done roots l a ha hl ih =>
      obtain ⟨hleast, hbefore⟩ := ih hdone hroots.tail
      have hout : ∀ b ∈ l, ¬ Relation.ReflTransGen (Follows succ) a b := by
        intro b hb hr
        exact (((hl.mem_iff hdone).2 b).mp hb).2 (hdone.of_reflTransGen ha hr)
      constructor
      · intro b hb
        obtain ⟨p, hp⟩ := hleast b hb
        exact ⟨p, (leastRoute_cons (hout b hb)).mpr hp⟩
      · refine hbefore.imp_of_mem fun hb hc hbc => ?_
        obtain ⟨p, q, hp, hq, hpq⟩ := hbc
        exact ⟨p, q, (leastRoute_cons (hout _ hb)).mpr hp, (leastRoute_cons (hout _ hc)).mpr hq, hpq⟩
  | @visit done roots l k a ha hk hl ihk ihl =>
      have hclosed := hdone.visit ha hk
      have hle : ∀ c ∈ roots, a ≤ c := (List.pairwise_cons.mp hroots).1
      have hin : ∀ b ∈ k, a ≠ b := by
        intro b hb heq
        subst heq
        have hr := (((hk.mem_iff hdone).2 a).mp hb).1
        exact hk.not_onCycle hdone ha (onCycle_iff.mpr hr)
      have hout : ∀ b ∈ l, ¬ Relation.ReflTransGen (Follows succ) a b := by
        intro b hb hr
        have hnew := (((hl.mem_iff hclosed).2 b).mp hb).2
        rw [List.mem_cons, List.mem_append, List.mem_reverse, (hk.mem_iff hdone).2, not_or, not_or, not_and] at hnew
        rcases reflTransGen_iff.mp hr with heq | hr
        · exact hnew.1 heq
        · exact hnew.2.1 hr hnew.2.2
      obtain ⟨hkleast, hkbefore⟩ := ihk hdone (hsucc a)
      obtain ⟨hlleast, hlbefore⟩ := ihl hclosed hroots.tail
      have hkroute : ∀ b ∈ k, ∃ c p, LeastRoute (Follows succ) (· ∈ a :: roots) b (a :: c :: p) := by
        intro b hb
        obtain ⟨p, hp⟩ := hkleast b hb
        have hp' := hp.next hle (hin b hb)
        cases hp.1 with
        | here _ => exact ⟨_, _, hp'⟩
        | next _ _ => exact ⟨_, _, hp'⟩
      -- The other roots lead to the rest, and they are greater.
      have hlroute : ∀ b ∈ l, ∃ c p, a < c ∧ LeastRoute (Follows succ) (· ∈ a :: roots) b (c :: p) := by
        intro b hb
        obtain ⟨p, hp⟩ := hlleast b hb
        have hp' := (leastRoute_cons (hout b hb)).mpr hp
        have hne : ∀ c, Relation.ReflTransGen (Follows succ) c b → a ≠ c := by
          intro c hc heq
          exact hout b hb (heq ▸ hc)
        cases hp.1 with
        | here hc => exact ⟨b, [], lt_of_le_of_ne (hle b hc) (hne b .refl), hp'⟩
        | @next _ c _ p hc hr =>
            obtain ⟨d, hd, hr⟩ := hr.reaches
            exact ⟨c, p, lt_of_le_of_ne (hle c hc) (hne c (.head hd hr)), hp'⟩
      constructor
      · intro b hb
        rw [List.mem_append, List.mem_cons] at hb
        rcases hb with hb | rfl | hb
        · obtain ⟨c, p, hp⟩ := hkroute b hb
          exact ⟨_, hp⟩
        · exact ⟨_, leastRoute_root hle⟩
        · obtain ⟨c, p, _, hp⟩ := hlroute b hb
          exact ⟨_, hp⟩
      · refine List.pairwise_append.mpr ⟨?_, List.pairwise_cons.mpr ⟨fun c hc => ?_, ?_⟩, fun b hb c hc => ?_⟩
        · refine hkbefore.imp_of_mem fun hb hc hbc => ?_
          obtain ⟨p, q, hp, hq, hpq⟩ := hbc
          exact ⟨_, _, hp.next hle (hin _ hb), hq.next hle (hin _ hc), .tail hpq⟩
        · obtain ⟨d, q, hlt, hq⟩ := hlroute c hc
          exact ⟨_, _, leastRoute_root hle, hq, .first hlt⟩
        · refine hlbefore.imp_of_mem fun hb hc hbc => ?_
          obtain ⟨p, q, hp, hq, hpq⟩ := hbc
          exact ⟨p, q, (leastRoute_cons (hout _ hb)).mpr hp, (leastRoute_cons (hout _ hc)).mpr hq, hpq⟩
        · obtain ⟨_, p, hp⟩ := hkroute b hb
          rcases List.mem_cons.mp hc with rfl | hc
          · exact ⟨_, _, hp, leastRoute_root hle, .tail .longer⟩
          · obtain ⟨d, q, hlt, hq⟩ := hlroute c hc
            exact ⟨_, _, hp, hq, .first hlt⟩

/-- Listings of the same nodes agree exactly when the least routes to them compare alike. -/
theorem eq_iff_before {starts starts' : α → Prop} {l l' : List α} (h : l.Pairwise (Before step starts))
    (h' : l'.Pairwise (Before step starts')) (hnodup : l.Nodup) (hnodup' : l'.Nodup) (hmem : ∀ a, a ∈ l ↔ a ∈ l') :
    l = l' ↔ ∀ a ∈ l, ∀ b ∈ l, Before step starts a b ↔ Before step starts' a b := by
  constructor
  · intro heq
    subst heq
    have hboth : l.Pairwise fun a b => (Before step starts a b ∧ Before step starts' a b) ∨
        (Before step starts b a ∧ Before step starts' b a) := (h.and h').imp .inl
    have hsymm : Std.Symm fun a b => (Before step starts a b ∧ Before step starts' a b) ∨
        (Before step starts b a ∧ Before step starts' b a) := ⟨fun _ _ => .symm⟩
    intro a ha b hb
    constructor
    · intro hab
      have hne : a ≠ b := fun heq => (heq ▸ hab).asymm (heq ▸ hab)
      exact (hboth.forall ha hb hne).elim (fun hall => hall.2) fun hall => absurd hall.1 hab.asymm
    · intro hab
      have hne : a ≠ b := fun heq => (heq ▸ hab).asymm (heq ▸ hab)
      exact (hboth.forall ha hb hne).elim (fun hall => hall.1) fun hall => absurd hall.2 hab.asymm
  · intro hiff
    have hperm : l.Perm l' := (List.perm_ext_iff_of_nodup hnodup hnodup').mpr hmem
    refine hperm.eq_of_pairwise (fun a b ha hb hab hba => absurd hba hab.asymm) h ?_
    refine h'.imp_of_mem fun ha hb hab => ?_
    exact (hiff _ ((hmem _).mpr ha) _ ((hmem _).mpr hb)).mpr hab

end Routes

end PostOrder
