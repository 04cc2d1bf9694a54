import Mathlib.Data.Finset.Card
import Mathlib.Data.Finset.Basic

/-!
# Worklist search

A graph is searched from a stack of nodes. What was seen is kept by the key of the node: a node with a
key that was seen is skipped; another is expanded, which may fail, may find nothing there, or gives a
value and the nodes that follow. Where nodes with one key lead on alike, the search ends with every
reachable key expanded once, or with the failure of a reachable node.
-/

namespace Worklist

variable {α κ β ε : Type} [DecidableEq κ]

structure Graph (α κ β ε : Type) where
  key : α → κ
  expand : α → Except ε (Option (β × List α))
  /-- Everything that follows some node. -/
  nodes : Finset α
  next_mem : ∀ {a b next}, expand a = .ok (some (b, next)) → ∀ n ∈ next, n ∈ nodes

structure State (α κ β : Type) where
  /-- The top comes first. -/
  stack : List α
  seen : List κ := []
  /-- In the order of the visits. -/
  found : List (α × β) := []

namespace Graph

variable (g : Graph α κ β ε)

/-- One turn, with the node that was on top of the rest of the stack. -/
def visit (s : State α κ β) (a : α) (rest : List α) : Except ε (State α κ β) :=
  if g.key a ∈ s.seen then .ok { s with stack := rest }
  else
    match g.expand a with
    | .error e => .error e
    | .ok none => .ok { s with stack := rest, seen := g.key a :: s.seen }
    | .ok (some (b, next)) =>
        .ok ⟨(next.filter (g.key · ∉ g.key a :: s.seen)).reverse ++ rest, g.key a :: s.seen, s.found ++ [(a, b)]⟩

open Classical in
/-- The nodes that may still be expanded. -/
noncomputable def pending (s : State α κ β) : Finset α := (g.nodes ∪ s.stack.toFinset).filter (g.key · ∉ s.seen)

/-! ## What one turn does -/

variable {g} {s t : State α κ β} {a : α} {rest : List α}

theorem visit_seen (h : g.key a ∈ s.seen) : g.visit s a rest = .ok { s with stack := rest } := if_pos h

theorem visit_none (h : g.key a ∉ s.seen) (hexp : g.expand a = .ok none) :
    g.visit s a rest = .ok { s with stack := rest, seen := g.key a :: s.seen } := by
  rw [visit, if_neg h, hexp]

theorem visit_some {b : β} {next : List α} (h : g.key a ∉ s.seen) (hexp : g.expand a = .ok (some (b, next))) :
    g.visit s a rest =
      .ok ⟨(next.filter (g.key · ∉ g.key a :: s.seen)).reverse ++ rest, g.key a :: s.seen, s.found ++ [(a, b)]⟩ := by
  rw [visit, if_neg h, hexp]

/-- A node is skipped, or it is new and nothing is there, or it is new and gives a value. -/
theorem visit_cases (h : g.visit s a rest = .ok t) :
    (g.key a ∈ s.seen ∧ t = { s with stack := rest }) ∨
    (g.key a ∉ s.seen ∧ g.expand a = .ok none ∧ t = { s with stack := rest, seen := g.key a :: s.seen }) ∨
    (g.key a ∉ s.seen ∧ ∃ b next, g.expand a = .ok (some (b, next)) ∧
      t = ⟨(next.filter (g.key · ∉ g.key a :: s.seen)).reverse ++ rest, g.key a :: s.seen, s.found ++ [(a, b)]⟩) := by
  unfold visit at h
  split at h
  · rename_i hseen
    cases h
    exact .inl ⟨hseen, rfl⟩
  · rename_i hnew
    split at h
    · cases h
    · rename_i hnone
      cases h
      exact .inr (.inl ⟨hnew, hnone, rfl⟩)
    · rename_i b next hsome
      cases h
      exact .inr (.inr ⟨hnew, b, next, hsome, rfl⟩)

/-- Only a new node fails. -/
theorem visit_eq_error {e : ε} (h : g.visit s a rest = .error e) : g.key a ∉ s.seen ∧ g.expand a = .error e := by
  unfold visit at h
  split at h
  · cases h
  · rename_i hnew
    split at h
    · rename_i hexp
      cases h
      exact ⟨hnew, hexp⟩
    · cases h
    · cases h

theorem mem_pending {n : α} : n ∈ g.pending s ↔ (n ∈ g.nodes ∨ n ∈ s.stack) ∧ g.key n ∉ s.seen := by
  simp [pending]

theorem visit_decreases (hs : s.stack = a :: rest) (h : g.visit s a rest = .ok t) :
    Prod.Lex (· < ·) (· < ·) ((g.pending t).card, t.stack.length) ((g.pending s).card, s.stack.length) := by
  have hrest : ∀ n ∈ rest, n ∈ s.stack := by
    intro n hn
    rw [hs]
    exact List.mem_cons_of_mem a hn
  -- A node that was expanded is pending no more.
  have hless : g.key a ∉ s.seen → t.seen = g.key a :: s.seen → (∀ n ∈ t.stack, n ∈ g.nodes ∨ n ∈ s.stack) →
      (g.pending t).card < (g.pending s).card := by
    intro hnew hseen hstack
    refine Finset.card_lt_card ⟨fun n hn => ?_, fun hsub => ?_⟩
    · obtain ⟨hn, hkey⟩ := mem_pending.mp hn
      rw [hseen, List.mem_cons, not_or] at hkey
      exact mem_pending.mpr ⟨hn.elim .inl (hstack n), hkey.2⟩
    · have ha : a ∈ g.pending s := mem_pending.mpr ⟨.inr (by rw [hs]; exact List.mem_cons_self), hnew⟩
      refine (mem_pending.mp (hsub ha)).2 ?_
      rw [hseen]
      exact List.mem_cons_self
  rcases visit_cases h with ⟨_, rfl⟩ | ⟨hnew, _, rfl⟩ | ⟨hnew, b, next, hexp, rfl⟩
  · have hle : (g.pending { s with stack := rest }).card ≤ (g.pending s).card := by
      refine Finset.card_le_card fun n hn => ?_
      obtain ⟨hn, hkey⟩ := mem_pending.mp hn
      exact mem_pending.mpr ⟨hn.imp_right (hrest n), hkey⟩
    rcases hle.lt_or_eq with hlt | heq
    · exact Prod.Lex.left _ _ hlt
    · rw [heq]
      refine Prod.Lex.right _ ?_
      simp [hs]
  · exact Prod.Lex.left _ _ (hless hnew rfl fun n hn => .inr (hrest n hn))
  · refine Prod.Lex.left _ _ (hless hnew rfl fun n hn => ?_)
    rcases List.mem_append.mp hn with hn | hn
    · exact .inl (g.next_mem hexp n (List.mem_filter.mp (List.mem_reverse.mp hn)).1)
    · exact .inr (hrest n hn)

variable (g)

/-- Search until the stack is empty. -/
def run (s : State α κ β) : Except ε (State α κ β) :=
  match _hs : s.stack with
  | [] => .ok s
  | a :: rest =>
      match _hv : g.visit s a rest with
      | .error e => .error e
      | .ok t => run t
termination_by ((g.pending s).card, s.stack.length)
decreasing_by exact _hs ▸ visit_decreases _hs _hv

/-- The nodes that were expanded from these, with their values. -/
def search (stack : List α) : Except ε (List (α × β)) := (g.run { stack }).map State.found

inductive Reach (roots : List α) : α → Prop
  | root {a : α} : a ∈ roots → Reach roots a
  | next {a n : α} {b : β} {next : List α} : Reach roots a → g.expand a = .ok (some (b, next)) →
      n ∈ next → Reach roots n

variable {g}

/-! ## Runs -/

theorem run_nil (hs : s.stack = []) : g.run s = .ok s := by
  rw [run.eq_def]
  split
  · rfl
  · rename_i hcons
    rw [hs] at hcons
    cases hcons

theorem run_cons (hs : s.stack = a :: rest) : g.run s = g.visit s a rest >>= g.run := by
  rw [run.eq_def]
  split
  · rename_i hnil
    rw [hs] at hnil
    cases hnil
  · rename_i a' rest' hcons
    rw [hs] at hcons
    cases hcons
    split <;> rename_i hv <;> rw [hv] <;> rfl

theorem run_visit (hs : s.stack = a :: rest) (hv : g.visit s a rest = .ok t) : g.run s = g.run t := by
  rw [run_cons hs, hv]
  rfl

/-- What every turn keeps, a search that succeeds keeps, and one that fails keeps up to its last turn. -/
theorem run_induction {P : State α κ β → Prop}
    (hstep : ∀ s a rest t, P s → s.stack = a :: rest → g.visit s a rest = .ok t → P t) (hs : P s) :
    (∀ t, g.run s = .ok t → P t ∧ t.stack = []) ∧
      ∀ e, g.run s = .error e → ∃ t a rest, P t ∧ t.stack = a :: rest ∧ g.visit t a rest = .error e := by
  induction s using run.induct g with
  | case1 s hnil =>
      rw [run_nil hnil]
      refine ⟨fun t ht => ?_, fun e he => ?_⟩
      · cases ht
        exact ⟨hs, hnil⟩
      · cases he
  | case2 s a rest hcons e hv =>
      rw [run_cons hcons, hv]
      refine ⟨fun t ht => ?_, fun e' he => ?_⟩
      · cases ht
      · cases he
        exact ⟨s, a, rest, hs, hcons, hv⟩
  | case3 s a rest hcons t hv ih =>
      rw [run_cons hcons, hv]
      exact ih (hstep s a rest t hs hcons hv)

/-! ## What is found -/

/-- What was expanded is reachable, and what follows it is on the stack or has a key that was seen. -/
structure Searched (g : Graph α κ β ε) (roots : List α) (s : State α κ β) : Prop where
  reach : ∀ a ∈ s.stack, g.Reach roots a
  rooted : ∀ a ∈ roots, a ∈ s.stack ∨ g.key a ∈ s.seen
  seen : ∀ k ∈ s.seen, ∃ a r, g.key a = k ∧ g.Reach roots a ∧ g.expand a = .ok r ∧ ∀ b next, r = some (b, next) →
    (a, b) ∈ s.found ∧ ∀ n ∈ next, n ∈ s.stack ∨ g.key n ∈ s.seen
  found : ∀ ab ∈ s.found, g.key ab.1 ∈ s.seen ∧ g.Reach roots ab.1 ∧ ∃ next, g.expand ab.1 = .ok (some (ab.2, next))
  nodup : (s.found.map fun ab => g.key ab.1).Nodup

/-- Where a node does not fail, another one with its key does not, and leads on alike. -/
def Coherent (g : Graph α κ β ε) (roots : List α) : Prop :=
  ∀ a a', g.Reach roots a → g.Reach roots a' → g.key a = g.key a' → ∀ r, g.expand a = .ok r →
    ∃ r', g.expand a' = .ok r' ∧ r'.map Prod.snd = r.map Prod.snd

variable {roots : List α}

omit [DecidableEq κ] in
theorem Searched.start : Searched g roots { stack := roots } where
  reach a ha := .root ha
  rooted a ha := .inl ha
  seen k hk := by cases hk
  found ab hab := by cases hab
  nodup := List.nodup_nil

theorem Searched.visit (h : Searched g roots s) (hs : s.stack = a :: rest)
    (hv : g.visit s a rest = .ok t) : Searched g roots t := by
  have hstack : ∀ n, n ∈ s.stack ∨ g.key n ∈ s.seen → n = a ∨ n ∈ rest ∨ g.key n ∈ s.seen := by
    intro n hn
    rw [hs, List.mem_cons, or_assoc] at hn
    exact hn
  have hreach : g.Reach roots a := h.reach a (by rw [hs]; exact List.mem_cons_self)
  have hrest : ∀ n ∈ rest, g.Reach roots n := fun n hn => h.reach n (by rw [hs]; exact List.mem_cons_of_mem a hn)
  rcases visit_cases hv with ⟨hseen, rfl⟩ | ⟨hnew, hexp, rfl⟩ | ⟨hnew, b, next, hexp, rfl⟩
  · have hkeep : ∀ n, n ∈ s.stack ∨ g.key n ∈ s.seen → n ∈ rest ∨ g.key n ∈ s.seen := by
      intro n hn
      rcases hstack n hn with rfl | hn
      · exact .inr hseen
      · exact hn
    refine ⟨hrest, fun n hn => hkeep n (h.rooted n hn), fun k hk => ?_, h.found, h.nodup⟩
    obtain ⟨n, r, hkey, hn, hr, hall⟩ := h.seen k hk
    exact ⟨n, r, hkey, hn, hr, fun b next heq =>
      ⟨(hall b next heq).1, fun m hm => hkeep m ((hall b next heq).2 m hm)⟩⟩
  · have hkeep : ∀ n, n ∈ s.stack ∨ g.key n ∈ s.seen → n ∈ rest ∨ g.key n ∈ g.key a :: s.seen := by
      intro n hn
      rcases hstack n hn with rfl | hn | hn
      · exact .inr List.mem_cons_self
      · exact .inl hn
      · exact .inr (List.mem_cons_of_mem _ hn)
    refine ⟨hrest, fun n hn => hkeep n (h.rooted n hn), fun k hk => ?_, fun ab hab => ?_, h.nodup⟩
    · rcases List.mem_cons.mp hk with rfl | hk
      · exact ⟨a, none, rfl, hreach, hexp, fun b next heq => by cases heq⟩
      · obtain ⟨n, r, hkey, hn, hr, hall⟩ := h.seen k hk
        exact ⟨n, r, hkey, hn, hr, fun b next heq =>
          ⟨(hall b next heq).1, fun m hm => hkeep m ((hall b next heq).2 m hm)⟩⟩
    · exact ⟨List.mem_cons_of_mem _ (h.found ab hab).1, (h.found ab hab).2⟩
  · have hkeep : ∀ n, n ∈ s.stack ∨ g.key n ∈ s.seen →
        n ∈ (next.filter (g.key · ∉ g.key a :: s.seen)).reverse ++ rest ∨ g.key n ∈ g.key a :: s.seen := by
      intro n hn
      rcases hstack n hn with rfl | hn | hn
      · exact .inr List.mem_cons_self
      · exact .inl (List.mem_append_right _ hn)
      · exact .inr (List.mem_cons_of_mem _ hn)
    refine ⟨fun n hn => ?_, fun n hn => hkeep n (h.rooted n hn), fun k hk => ?_, fun ab hab => ?_, ?_⟩
    · rcases List.mem_append.mp hn with hn | hn
      · exact .next hreach hexp (List.mem_filter.mp (List.mem_reverse.mp hn)).1
      · exact hrest n hn
    · rcases List.mem_cons.mp hk with rfl | hk
      · refine ⟨a, _, rfl, hreach, hexp, fun b' next' heq => ?_⟩
        cases heq
        refine ⟨by simp, fun m hm => ?_⟩
        by_cases hseen : g.key m ∈ g.key a :: s.seen
        · exact .inr hseen
        · refine .inl (List.mem_append_left _ (List.mem_reverse.mpr (List.mem_filter.mpr ⟨hm, ?_⟩)))
          exact decide_eq_true hseen
      · obtain ⟨n, r, hkey, hn, hr, hall⟩ := h.seen k hk
        refine ⟨n, r, hkey, hn, hr, fun b' next' heq => ⟨?_, fun m hm => hkeep m ((hall b' next' heq).2 m hm)⟩⟩
        exact List.mem_append_left _ (hall b' next' heq).1
    · rcases List.mem_append.mp hab with hab | hab
      · exact ⟨List.mem_cons_of_mem _ (h.found ab hab).1, (h.found ab hab).2⟩
      · rw [List.mem_singleton.mp hab]
        exact ⟨List.mem_cons_self, hreach, next, hexp⟩
    · rw [List.map_append, List.nodup_append]
      refine ⟨h.nodup, List.nodup_singleton _, fun n hn m hm => ?_⟩
      obtain ⟨ab, hab, rfl⟩ := List.mem_map.mp hn
      rw [List.map_singleton, List.mem_singleton] at hm
      rw [hm]
      intro heq
      have hseen := (h.found ab hab).1
      rw [heq] at hseen
      exact hnew hseen

/-- A search that succeeds ends in such a state. -/
theorem search_eq_ok {found : List (α × β)} (h : g.search roots = .ok found) :
    ∃ s, Searched g roots s ∧ s.stack = [] ∧ s.found = found := by
  unfold search at h
  cases hrun : g.run { stack := roots } with
  | error e =>
      rw [hrun] at h
      cases h
  | ok s =>
      rw [hrun] at h
      cases h
      have hstart : Searched g roots { stack := roots } := .start
      obtain ⟨hall, _⟩ := run_induction (fun s a rest t hs hstack hv => hs.visit hstack hv) hstart
      exact ⟨s, (hall s hrun).1, (hall s hrun).2, rfl⟩

/-- What is found is reachable and there. -/
theorem of_mem_search {found : List (α × β)} (h : g.search roots = .ok found) {a : α} {b : β} (hab : (a, b) ∈ found) :
    g.Reach roots a ∧ ∃ next, g.expand a = .ok (some (b, next)) := by
  obtain ⟨s, hs, _, rfl⟩ := search_eq_ok h
  exact (hs.found _ hab).2

/-- A search fails with the failure of a reachable node. -/
theorem search_eq_error {e : ε} (h : g.search roots = .error e) : ∃ a, g.Reach roots a ∧ g.expand a = .error e := by
  have hstart : Searched g roots { stack := roots } := .start
  obtain ⟨_, herr⟩ := run_induction (fun s a rest t hs hstack hv => hs.visit hstack hv) hstart
  unfold search at h
  cases hrun : g.run { stack := roots } with
  | ok s =>
      rw [hrun] at h
      cases h
  | error e' =>
      rw [hrun] at h
      cases h
      obtain ⟨t, a, rest, ht, hstack, hv⟩ := herr e hrun
      exact ⟨a, ht.reach a (by rw [hstack]; exact List.mem_cons_self), (visit_eq_error hv).2⟩

/-! ## Where nodes with one key are alike -/

section Coherent

omit [DecidableEq κ] in
/-- Nodes that are told apart by their keys are alike. -/
theorem coherent_of_injective (h : ∀ a a', g.key a = g.key a' → a = a') : Coherent g roots := by
  intro a a' _ _ hkey r hr
  obtain rfl := h a a' hkey
  exact ⟨r, hr, rfl⟩

variable (hg : Coherent g roots)

include hg

omit [DecidableEq κ] in
theorem Coherent.next {a a' : α} {b : β} {next : List α} {r : Option (β × List α)} (ha : g.Reach roots a)
    (ha' : g.Reach roots a') (hkey : g.key a = g.key a') (hexp : g.expand a = .ok (some (b, next)))
    (hr : g.expand a' = .ok r) : ∃ b', r = some (b', next) := by
  obtain ⟨r', hr', hnext⟩ := hg a a' ha ha' hkey _ hexp
  rw [hr, Except.ok.injEq] at hr'
  subst hr'
  obtain ⟨bn, rfl, rfl⟩ := Option.map_eq_some_iff.mp hnext
  exact ⟨bn.1, rfl⟩

omit [DecidableEq κ] in
theorem Searched.mem_seen (h : Searched g roots s) (hs : s.stack = []) {a : α} (ha : g.Reach roots a) :
    g.key a ∈ s.seen := by
  have hseen : ∀ n, n ∈ s.stack ∨ g.key n ∈ s.seen → g.key n ∈ s.seen := by
    intro n hn
    rw [hs] at hn
    exact hn.resolve_left List.not_mem_nil
  induction ha with
  | root ha => exact hseen _ (h.rooted _ ha)
  | next ha hexp hn ih =>
      obtain ⟨a', r, hkey, ha', hr, hall⟩ := h.seen _ ih
      obtain ⟨b', rfl⟩ := hg.next ha ha' hkey.symm hexp hr
      exact hseen _ ((hall _ _ rfl).2 _ hn)

/-- What is reachable and there is found, at that node or at another one with its key. -/
theorem exists_mem_search {found : List (α × β)} (h : g.search roots = .ok found) {a : α} {b : β} {next : List α}
    (ha : g.Reach roots a) (hexp : g.expand a = .ok (some (b, next))) : ∃ a' b', g.key a' = g.key a ∧
      (a', b') ∈ found := by
  obtain ⟨s, hs, hstack, rfl⟩ := search_eq_ok h
  obtain ⟨a', r, hkey, ha', hr, hall⟩ := hs.seen _ (hs.mem_seen hg hstack ha)
  obtain ⟨b', rfl⟩ := hg.next ha ha' hkey.symm hexp hr
  exact ⟨a', b', hkey, (hall _ _ rfl).1⟩

/-- A search succeeds exactly when nothing reachable fails. -/
theorem search_succeeds_iff :
    (∃ found, g.search roots = .ok found) ↔ ∀ a, g.Reach roots a → ∃ r, g.expand a = .ok r := by
  constructor
  · intro h a ha
    obtain ⟨found, h⟩ := h
    obtain ⟨s, hs, hstack, _⟩ := search_eq_ok h
    obtain ⟨a', r, hkey, ha', hr, _⟩ := hs.seen _ (hs.mem_seen hg hstack ha)
    obtain ⟨r', hr', _⟩ := hg a' a ha' ha hkey r hr
    exact ⟨r', hr'⟩
  · intro h
    cases hsearch : g.search roots with
    | ok found => exact ⟨found, rfl⟩
    | error e =>
        obtain ⟨a, ha, he⟩ := search_eq_error hsearch
        obtain ⟨r, hr⟩ := h a ha
        rw [hr] at he
        cases he

end Coherent

/-- Where the keys tell the nodes apart, what is found is what is reachable and there. -/
theorem mem_search (hkey : ∀ a a', g.key a = g.key a' → a = a') {found : List (α × β)}
    (h : g.search roots = .ok found)
    {a : α} {b : β} : (a, b) ∈ found ↔ g.Reach roots a ∧ ∃ next, g.expand a = .ok (some (b, next)) := by
  constructor
  · exact of_mem_search h
  · intro hab
    obtain ⟨ha, next, hexp⟩ := hab
    obtain ⟨a', b', hsame, hmem⟩ := exists_mem_search (coherent_of_injective hkey) h ha hexp
    obtain rfl := hkey _ _ hsame
    obtain ⟨_, next', hexp'⟩ := of_mem_search h hmem
    rw [hexp, Except.ok.injEq, Option.some.injEq, Prod.mk.injEq] at hexp'
    rwa [hexp'.1]

/-! ## Other roots and other graphs -/

/-- Graphs that agree on what is reachable are searched alike. -/
theorem search_congr {g' : Graph α κ β ε} (hkey : g'.key = g.key)
    (h : ∀ a, g.Reach roots a → g'.expand a = g.expand a) : g'.search roots = g.search roots := by
  have hvisit : ∀ {s : State α κ β} {a : α} {rest : List α}, Searched g roots s → s.stack = a :: rest →
      g'.visit s a rest = g.visit s a rest := by
    intro s a rest hs hstack
    have ha := h a (hs.reach a (by simp [hstack]))
    rw [Graph.visit, Graph.visit, ha, hkey]
  have hrun : ∀ s : State α κ β, Searched g roots s → g'.run s = g.run s := by
    intro s hs
    induction s using run.induct g with
    | case1 s hnil => rw [run_nil hnil, run_nil hnil]
    | case2 s a rest hcons e hv => rw [run_cons hcons, run_cons hcons, hvisit hs hcons, hv]; rfl
    | case3 s a rest hcons t hv ih =>
        rw [run_cons hcons, run_cons hcons, hvisit hs hcons, hv]
        exact ih (hs.visit hcons hv)
  rw [search, search, hrun _ Searched.start]

end Graph

end Worklist
