import Nix2Rdf.Nix
import Nix2Rdf.Lib.Lines

/-!
# The terms that rules use

Two patterns stand in for a lexer: names with the prefix `nix:` or `k8s:`, and full IRIs in the two
namespaces. They are looked for in each line up to its first `%`.
-/

namespace Nix2Rdf.Ontology

/-- `[A-Za-z0-9_]` -/
def nameChar (c : Char) : Bool := isAsciiAlphanumeric c || c = '_'

/-- `[A-Za-z_]` -/
def nameStart (c : Char) : Bool := nameChar c && !(48 ≤ c.toNat && c.toNat ≤ 57)

/-- The word characters of a pattern, beyond ASCII those of Unicode. -/
structure WordChars where
  word : Char → Bool
  ascii : ∀ c, c.toNat < 128 → word c = nameChar c

def localName (ns : String) : List Char → Option (String × List Char)
  | c :: l => if nameStart c then some (ns ++ String.ofList (c :: l.takeWhile nameChar),
    l.dropWhile nameChar) else none
  | [] => none

/-- The first pattern at the start of a text: the name that it captures, and what follows. -/
def nameAt : List Char → Option (String × List Char)
  | 'n' :: 'i' :: 'x' :: ':' :: l => localName nixNs l
  | 'k' :: '8' :: 's' :: ':' :: l => localName k8sNs l
  | _ => none

theorem length_nameAt {l rest : List Char} {n : String} (h : nameAt l = some (n, rest)) : rest.length < l.length := by
  have hlocal : ∀ {ns : String} {l : List Char}, localName ns l = some (n, rest) → rest.length < l.length := by
    intro ns l h
    unfold localName at h
    split at h
    · split at h
      · obtain ⟨_, rfl⟩ := Prod.mk.inj (Option.some.inj h)
        exact Nat.lt_succ_of_le (List.dropWhile_sublist nameChar).length_le
      · cases h
    · cases h
  unfold nameAt at h
  split at h
  · exact (hlocal h).trans (by simp only [List.length_cons]; omega)
  · exact (hlocal h).trans (by simp only [List.length_cons]; omega)
  · cases h

/-- The names that the first pattern captures; `prev` tells whether a word character stands before. -/
def names (w : WordChars) (prev : Bool) (l : List Char) : List String :=
  match l with
  | [] => []
  | c :: l =>
      match _h : nameAt (c :: l) with
      | some (n, rest) => if prev then names w (w.word c) l else n :: names w true rest
      | none => names w (w.word c) l
termination_by l.length
decreasing_by
  · simp
  · exact length_nameAt _h
  · simp

/-- An IRI in the namespace, in angle brackets. -/
def iriIn (ns : String) (l : List Char) : Option String :=
  (List.isPrefixOf? ('<' :: ns.toList) l).bind fun rest =>
    if rest.takeWhile nameChar ≠ [] ∧ (rest.dropWhile nameChar).head? = some '>' then
      some (ns ++ String.ofList (rest.takeWhile nameChar))
    else none

/-- The IRIs that the second pattern captures. An opening bracket stands only at the start of a match, so
that matches do not overlap. -/
def iris : List Char → List String
  | [] => []
  | c :: l => (iriIn nixNs (c :: l)).toList ++ (iriIn k8sNs (c :: l)).toList ++ iris l

/-- A line before its first `%`. -/
def uncommented (line : String) : List Char := line.toList.takeWhile (· ≠ '%')

def ruleTerms (w : WordChars) (ruleText : String) : List String :=
  btreeSet ((Text.lines ruleText).flatMap fun line => names w false (uncommented line) ++ iris (uncommented line))

/-! ## Where the patterns match -/

/-- A name with its prefix spells a term. -/
inductive SpellsName : List Char → String → Prop
  | nix {c : Char} {l : List Char} : nameStart c = true → (∀ d ∈ l, nameChar d = true) →
      SpellsName ('n' :: 'i' :: 'x' :: ':' :: c :: l) (nixNs ++ String.ofList (c :: l))
  | k8s {c : Char} {l : List Char} : nameStart c = true → (∀ d ∈ l, nameChar d = true) →
      SpellsName ('k' :: '8' :: 's' :: ':' :: c :: l) (k8sNs ++ String.ofList (c :: l))

/-- An IRI in angle brackets spells a term. -/
inductive SpellsIri : List Char → String → Prop
  | mk {ns : String} {l : List Char} : ns ∈ [nixNs, k8sNs] → l ≠ [] → (∀ d ∈ l, nameChar d = true) →
      SpellsIri ('<' :: ns.toList ++ l ++ ['>']) (ns ++ String.ofList l)

/-- A name may start after these characters, of which the last comes first: none of them belongs to a
word, and they are not the start of a name themselves. -/
def free (w : WordChars) : List Char → Bool
  | ':' :: 'x' :: 'i' :: 'n' :: l => !free w l
  | ':' :: 's' :: '8' :: 'k' :: l => !free w l
  | c :: _ => !w.word c
  | [] => true

/-- A pattern matches between what stands before it on its line, last first, and what comes next. -/
inductive Matches (w : WordChars) (before : List Char) (next : Option Char) (u : List Char) (n : String) : Prop
  | name : SpellsName u n → free w before = true → (∀ c ∈ next, nameChar c = false) → Matches w before next u n
  | iri : SpellsIri u n → Matches w before next u n

variable {w : WordChars}

theorem nameStart_nameChar {c : Char} (h : nameStart c = true) : nameChar c = true := by
  rw [nameStart, Bool.and_eq_true] at h
  exact h.1

theorem word_of_nameChar {c : Char} (h : nameChar c = true) : w.word c = true := by
  have hascii : c.toNat < 128 := by
    simp only [nameChar, isAsciiAlphanumeric, Bool.or_eq_true, Bool.and_eq_true, decide_eq_true_eq] at h
    rcases h with h | rfl
    · omega
    · decide
  rw [w.ascii c hascii, h]

theorem localName_eq_some {ns n : String} {l rest : List Char} : localName ns l = some (n, rest) ↔
    ∃ c u, l = c :: u ++ rest ∧ nameStart c = true ∧ (∀ d ∈ u, nameChar d = true) ∧
      (∀ d ∈ rest.head?, nameChar d = false) ∧ n = ns ++ String.ofList (c :: u) := by
  cases l with
  | nil => simp [localName]
  | cons c l =>
      rw [localName]
      constructor
      · intro h
        split at h
        · rename_i hc
          obtain ⟨rfl, rfl⟩ := Prod.mk.inj (Option.some.inj h)
          refine ⟨c, l.takeWhile nameChar, ?_, hc, List.all_eq_true.mp List.all_takeWhile, fun d hd => ?_, rfl⟩
          · rw [List.cons_append, List.takeWhile_append_dropWhile]
          · have := List.head?_dropWhile_not nameChar l
            rw [Option.mem_def.mp hd] at this
            simpa using this
        · cases h
      · intro h
        obtain ⟨c', u, hl, hc, hu, hrest, rfl⟩ := h
        obtain ⟨rfl, rfl⟩ := List.cons.inj hl
        have htake : (u ++ rest).takeWhile nameChar = u := by
          rw [List.takeWhile_append_of_pos hu]
          cases rest with
          | nil => simp
          | cons d rest => rw [List.takeWhile_cons_of_neg (by simp [hrest d rfl]), List.append_nil]
        have hdrop : (u ++ rest).dropWhile nameChar = rest := by
          rw [List.dropWhile_append_of_pos hu]
          cases rest with
          | nil => rfl
          | cons d rest => rw [List.dropWhile_cons_of_neg (by simp [hrest d rfl])]
        rw [if_pos hc, List.append_eq, htake, hdrop]

theorem nameAt_eq_some {n : String} {l rest : List Char} : nameAt l = some (n, rest) ↔
    ∃ u, l = u ++ rest ∧ SpellsName u n ∧ ∀ d ∈ rest.head?, nameChar d = false := by
  constructor
  · intro h
    unfold nameAt at h
    split at h
    · obtain ⟨c, u, rfl, hc, hu, hrest, rfl⟩ := localName_eq_some.mp h
      exact ⟨_, rfl, .nix hc hu, hrest⟩
    · obtain ⟨c, u, rfl, hc, hu, hrest, rfl⟩ := localName_eq_some.mp h
      exact ⟨_, rfl, .k8s hc hu, hrest⟩
    · cases h
  · intro h
    obtain ⟨u, rfl, hu, hrest⟩ := h
    cases hu with
    | nix hc hl => exact localName_eq_some.mpr ⟨_, _, rfl, hc, hl, hrest, rfl⟩
    | k8s hc hl => exact localName_eq_some.mpr ⟨_, _, rfl, hc, hl, hrest, rfl⟩

/-! ## Names -/

theorem free_cons {c : Char} (hc : c ≠ ':') (l : List Char) : free w (c :: l) = !w.word c := by
  rw [free]
  · exact fun _ h => absurd h hc
  · exact fun _ h => absurd h hc

theorem free_nameChar {c : Char} (hc : nameChar c = true) (l : List Char) : free w (c :: l) = false := by
  have hne : c ≠ ':' := by
    rintro rfl
    exact absurd hc (by decide)
  rw [free_cons hne, word_of_nameChar hc]
  rfl

/-- A name is a word, a colon and a word. -/
theorem SpellsName.parts {u : List Char} {n : String} (h : SpellsName u n) (w : WordChars) :
    ∃ p c l, u = p ++ ':' :: c :: l ∧
    p ≠ [] ∧ (∀ d ∈ p, nameChar d = true) ∧ nameStart c = true ∧ (∀ d ∈ c :: l, nameChar d = true) ∧
    ∀ before, free w ((p ++ [':']).reverse ++ before) = !free w before := by
  cases h with
  | @nix c l hc hl =>
      refine ⟨['n', 'i', 'x'], c, l, rfl, by simp, by decide, hc, ?_, fun before => by simp [free]⟩
      exact List.forall_mem_cons.mpr ⟨nameStart_nameChar hc, hl⟩
  | @k8s c l hc hl =>
      refine ⟨['k', '8', 's'], c, l, rfl, by simp, by decide, hc, ?_, fun before => by simp [free]⟩
      exact List.forall_mem_cons.mpr ⟨nameStart_nameChar hc, hl⟩

theorem SpellsName.ne_nil {u : List Char} {n : String} (h : SpellsName u n) : u ≠ [] := by
  cases h with
  | nix _ _ => exact List.cons_ne_nil _ _
  | k8s _ _ => exact List.cons_ne_nil _ _

/-- A name ends in a word character. -/
theorem SpellsName.word_last {u : List Char} {n : String} (h : SpellsName u n) (before : List Char) :
    (u.reverse ++ before).head?.any w.word = true := by
  obtain ⟨p, c, l, rfl, _, _, _, hl, _⟩ := h.parts w
  obtain ⟨t, d, hd⟩ := (List.eq_nil_or_concat (c :: l)).resolve_left (List.cons_ne_nil c l)
  rw [List.concat_eq_append] at hd
  have hmem : d ∈ c :: l := hd ▸ List.mem_append_right t List.mem_cons_self
  have hrev : (p ++ ':' :: c :: l).reverse ++ before = d :: ((p ++ ':' :: t).reverse ++ before) := by
    rw [hd]
    simp
  rw [hrev, List.head?_cons, Option.any_some, word_of_nameChar (hl d hmem)]

/-- Nothing starts within a match. -/
theorem not_free_within {u v s before : List Char} {n : String} (hu : SpellsName u n) (hfree : free w before = true)
    (h : u = v ++ s) (hv : v ≠ []) : free w (v.reverse ++ before) = false := by
  obtain ⟨p, c, l, rfl, _, hp, _, hl, hcolon⟩ := hu.parts w
  obtain ⟨v, d, rfl⟩ := (List.eq_nil_or_concat v).resolve_left hv
  have hno : ':' ∉ p ∧ ':' ∉ c :: l := ⟨fun h => absurd (hp _ h) (by decide), fun h => absurd (hl _ h) (by decide)⟩
  rw [List.concat_eq_append] at h ⊢
  have hd : d ∈ p ++ ':' :: c :: l := by
    rw [h]
    simp
  rw [List.mem_append, List.mem_cons] at hd
  have hname : nameChar d = true → free w ((v ++ [d]).reverse ++ before) = false := by
    intro hd
    rw [List.reverse_append, List.reverse_singleton, List.singleton_append, List.cons_append]
    exact free_nameChar hd _
  rcases hd with hd | rfl | hd
  · exact hname (hp d hd)
  · rw [List.append_assoc, List.singleton_append, List.append_eq_append_iff] at h
    have hvp : v = p := by
      rcases h with ⟨a, rfl, ha⟩ | ⟨a, rfl, ha⟩
      · cases a with
        | nil => rw [List.append_nil]
        | cons e a =>
            have he : e = ':' ∧ c :: l = a ++ ':' :: s := by
              obtain ⟨h1, h2⟩ := List.cons.inj ha
              exact ⟨h1.symm, h2⟩
            exact absurd (he.2 ▸ List.mem_append_right a List.mem_cons_self) hno.2
      · cases a with
        | nil => rw [List.append_nil]
        | cons e a =>
            obtain ⟨rfl, _⟩ := List.cons.inj ha
            exact absurd (List.mem_append_right v List.mem_cons_self) hno.1
    rw [hvp, hcolon, hfree]
    rfl
  · exact hname (hl d hd)

/-- No match that starts before this place goes on beyond it. -/
def Settled (w : WordChars) (before l : List Char) : Prop :=
  ∀ s r n rest, s ≠ [] → before = s.reverse ++ r → free w r = true → nameAt (s ++ l) = some (n, rest) →
    l.length ≤ rest.length

/-- At a name the place is free exactly if no word character stands before it. -/
theorem Settled.free_eq {before l rest : List Char} {n : String} (h : Settled w before l)
    (hat : nameAt l = some (n, rest)) : free w before = !before.head?.any w.word := by
  have hlonger : ∀ ns, ∃ m rest', localName ns l = some (m, rest') ∧ rest'.length < l.length := by
    intro ns
    have hstart : ∃ c t, l = c :: t ∧ nameStart c = true := by
      obtain ⟨u, rfl, hu, _⟩ := nameAt_eq_some.mp hat
      cases hu with
      | nix _ _ => exact ⟨'n', _, rfl, by decide⟩
      | k8s _ _ => exact ⟨'k', _, rfl, by decide⟩
    obtain ⟨c, t, rfl, hc⟩ := hstart
    refine ⟨_, _, by rw [localName, if_pos hc], ?_⟩
    exact Nat.lt_succ_of_le (List.dropWhile_sublist nameChar).length_le
  have hcolon : w.word ':' = false := by
    rw [w.ascii ':' (by decide)]
    decide
  unfold free
  split
  · rename_i r
    obtain ⟨m, rest', hm, hlt⟩ := hlonger nixNs
    cases hr : free w r with
    | true => exact absurd (h ['n', 'i', 'x', ':'] r m rest' (by simp) rfl hr hm) (by omega)
    | false => rw [List.head?_cons, Option.any_some, hcolon]
  · rename_i r
    obtain ⟨m, rest', hm, hlt⟩ := hlonger k8sNs
    cases hr : free w r with
    | true => exact absurd (h ['k', '8', 's', ':'] r m rest' (by simp) rfl hr hm) (by omega)
    | false => rw [List.head?_cons, Option.any_some, hcolon]
  · rw [List.head?_cons, Option.any_some]
  · rfl

theorem Settled.cons {c : Char} {before l : List Char} (h : Settled w before (c :: l))
    (hno : free w before = true → nameAt (c :: l) = none) : Settled w (c :: before) l := by
  intro s r n rest hs heq hfree hat
  obtain ⟨t, d, rfl⟩ := List.eq_nil_or_concat s |>.resolve_left hs
  rw [List.concat_eq_append, List.reverse_append, List.reverse_singleton, List.singleton_append, List.cons_append,
    List.cons.injEq] at heq
  obtain ⟨rfl, rfl⟩ := heq
  rw [List.concat_eq_append, List.append_assoc, List.singleton_append] at hat
  cases t with
  | nil =>
      rw [List.nil_append] at hat
      rw [hno hfree] at hat
      cases hat
  | cons e t =>
      have hlen := h _ _ _ _ (List.cons_ne_nil e t) rfl hfree hat
      rw [List.length_cons] at hlen
      omega

theorem Settled.append {before u rest : List Char} {n : String} (h : Settled w before (u ++ rest))
    (hfree : free w before = true) (hu : SpellsName u n) (hat : nameAt (u ++ rest) = some (n, rest)) :
    Settled w (u.reverse ++ before) rest := by
  intro s r m rest' hs heq hr hm
  have hsplit : before.reverse ++ u = r.reverse ++ s := by
    have := congrArg List.reverse heq
    simpa using this
  rw [List.append_eq_append_iff] at hsplit
  rcases hsplit with ⟨v, hbefore, rfl⟩ | ⟨t, hbefore, rfl⟩
  · have hv : r = v.reverse ++ before := by
      have := congrArg List.reverse hbefore
      simpa using this
    cases v with
    | nil =>
        rw [List.nil_append] at hat
        rw [hat] at hm
        rw [(Prod.mk.inj (Option.some.inj hm)).2]
    | cons d v =>
        rw [hv, not_free_within hu hfree rfl (List.cons_ne_nil d v)] at hr
        cases hr
  · have ht : before = t.reverse ++ r := by
      have := congrArg List.reverse hbefore
      simpa using this
    rw [List.append_assoc] at hm
    cases t with
    | nil =>
        rw [List.nil_append, hat] at hm
        rw [(Prod.mk.inj (Option.some.inj hm)).2]
    | cons d t =>
        have hlen := h _ _ _ _ (List.cons_ne_nil d t) ht hr hm
        rw [List.length_append] at hlen
        omega

/-- A name stands in the text, after these characters. -/
def HasName (w : WordChars) (before l : List Char) (n : String) : Prop :=
  ∃ a u b, l = a ++ u ++ b ∧ SpellsName u n ∧ free w (a.reverse ++ before) = true ∧ ∀ c ∈ b.head?, nameChar c = false

theorem hasName_cons {c : Char} {before l : List Char} {n : String}
    (hno : free w before = true → nameAt (c :: l) = none) : HasName w before (c :: l) n ↔
      HasName w (c :: before) l n := by
  constructor
  · intro h
    obtain ⟨a, u, b, heq, hu, hfree, hb⟩ := h
    cases a with
    | nil =>
        have hat := nameAt_eq_some.mpr ⟨u, heq, hu, hb⟩
        rw [hno hfree] at hat
        cases hat
    | cons d a =>
        obtain ⟨rfl, rfl⟩ := List.cons.inj heq
        refine ⟨a, u, b, rfl, hu, ?_, hb⟩
        rwa [List.reverse_cons, List.append_assoc, List.singleton_append] at hfree
  · intro h
    obtain ⟨a, u, b, rfl, hu, hfree, hb⟩ := h
    refine ⟨c :: a, u, b, rfl, hu, ?_, hb⟩
    rwa [List.reverse_cons, List.append_assoc, List.singleton_append]

theorem hasName_append {before u rest : List Char} {n m : String} (hu : SpellsName u m) (hfree : free w before = true)
    (hat : nameAt (u ++ rest) = some (m, rest)) :
    HasName w before (u ++ rest) n ↔ n = m ∨ HasName w (u.reverse ++ before) rest n := by
  constructor
  · intro h
    obtain ⟨a, v, b, heq, hv, hfree', hb⟩ := h
    rw [List.append_assoc] at heq
    rcases List.append_eq_append_iff.mp heq with ⟨t, rfl, ht⟩ | ⟨t, rfl, ht⟩
    · refine .inr ⟨t, v, b, by rw [ht, List.append_assoc], hv, ?_, hb⟩
      rwa [List.reverse_append, List.append_assoc] at hfree'
    · cases a with
      | nil =>
          simp only [List.nil_append] at heq hat
          rw [heq, nameAt_eq_some.mpr ⟨v, rfl, hv, hb⟩] at hat
          exact .inl (Prod.mk.inj (Option.some.inj hat)).1
      | cons d a =>
          rw [not_free_within hu hfree rfl (List.cons_ne_nil d a)] at hfree'
          cases hfree'
  · intro h
    rcases h with rfl | ⟨a, v, b, rfl, hv, hfree', hb⟩
    · obtain ⟨u', heq, hu', hrest⟩ := nameAt_eq_some.mp hat
      exact ⟨[], u', rest, heq, hu', hfree, hrest⟩
    · refine ⟨u ++ a, v, b, by simp only [List.append_assoc], hv, ?_, hb⟩
      rwa [List.reverse_append, List.append_assoc]

theorem not_hasName_nil {before : List Char} {n : String} : ¬ HasName w before [] n := by
  intro h
  obtain ⟨a, u, b, heq, hu, _, _⟩ := h
  rw [eq_comm, List.append_eq_nil_iff, List.append_eq_nil_iff] at heq
  exact hu.ne_nil heq.1.2

/-- The names that are captured are those that stand in the text. -/
theorem mem_names {prev : Bool} {l before : List Char} {n : String} (hset : Settled w before l)
    (hprev : prev = before.head?.any w.word) : n ∈ names w prev l ↔ HasName w before l n := by
  induction prev, l using names.induct w generalizing before with
  | case1 prev =>
      rw [names]
      exact iff_of_false List.not_mem_nil not_hasName_nil
  | case2 c l m rest hat ih =>
      have hno : free w before = false := by rw [hset.free_eq hat, ← hprev]; rfl
      have hcons : free w before = true → nameAt (c :: l) = none := fun h => by rw [hno] at h; cases h
      rw [names, hat]
      dsimp only
      rw [if_pos rfl, ih (hset.cons hcons) rfl, hasName_cons hcons]
  | case3 prev c l m rest hat hp ih =>
      have hfree : free w before = true := by
        rw [hset.free_eq hat, ← hprev]
        simpa using hp
      obtain ⟨u, heq, hu, _⟩ := nameAt_eq_some.mp hat
      have hat' : nameAt (u ++ rest) = some (m, rest) := heq ▸ hat
      have hset' : Settled w before (u ++ rest) := heq ▸ hset
      rw [names, hat]
      dsimp only
      rw [if_neg hp, List.mem_cons, ih (hset'.append hfree hu hat') (hu.word_last before).symm, heq,
        hasName_append hu hfree hat']
  | case4 prev c l hat ih =>
      rw [names, hat]
      dsimp only
      rw [ih (hset.cons fun _ => hat) rfl, hasName_cons fun _ => hat]

theorem names_of_no_colon {prev : Bool} {l : List Char} (h : ':' ∉ l) : names w prev l = [] := by
  have hat : ∀ l : List Char, ':' ∉ l → nameAt l = none := by
    intro l hl
    cases hnone : nameAt l with
    | none => rfl
    | some p =>
        obtain ⟨u, rfl, hu, _⟩ := nameAt_eq_some.mp hnone
        obtain ⟨p, c, t, rfl, _⟩ := hu.parts w
        exact absurd (by simp) hl
  induction l generalizing prev with
  | nil => rw [names]
  | cons c l ih =>
      rw [names, hat (c :: l) h]
      exact ih fun hmem => h (List.mem_cons_of_mem c hmem)

/-! ## IRIs -/

theorem iriIn_eq_some {ns n : String} {l : List Char} : iriIn ns l = some n ↔
    ∃ t b, l = '<' :: ns.toList ++ t ++ '>' :: b ∧ t ≠ [] ∧ (∀ d ∈ t, nameChar d = true) ∧
      n = ns ++ String.ofList t := by
  rw [iriIn, Option.bind_eq_some_iff]
  constructor
  · intro h
    obtain ⟨rest, hrest, h⟩ := h
    split at h
    · rename_i hname
      obtain ⟨hne, hclose⟩ := hname
      obtain ⟨b, hb⟩ := List.head?_eq_some_iff.mp hclose
      refine ⟨rest.takeWhile nameChar, b, ?_, hne, List.all_eq_true.mp List.all_takeWhile, (Option.some.inj h).symm⟩
      rw [List.append_assoc, ← hb, List.takeWhile_append_dropWhile]
      exact (List.isPrefixOf?_eq_some_iff_append_eq.mp hrest).symm
    · cases h
  · intro h
    obtain ⟨t, b, rfl, hne, ht, rfl⟩ := h
    have hstop : nameChar '>' = false := by decide
    have htake : (t ++ '>' :: b).takeWhile nameChar = t := by
      rw [List.takeWhile_append_of_pos ht, List.takeWhile_cons_of_neg (by simp [hstop]), List.append_nil]
    have hdrop : (t ++ '>' :: b).dropWhile nameChar = '>' :: b := by
      rw [List.dropWhile_append_of_pos ht, List.dropWhile_cons_of_neg (by simp [hstop])]
    refine ⟨t ++ '>' :: b, List.isPrefixOf?_eq_some_iff_append_eq.mpr (List.append_assoc _ _ _).symm, ?_⟩
    rw [htake, hdrop, if_pos ⟨hne, rfl⟩]

/-- The IRIs that are captured are those that stand in the text. -/
theorem mem_iris {l : List Char} {n : String} : n ∈ iris l ↔ ∃ a u b, l = a ++ u ++ b ∧ SpellsIri u n := by
  have hat : ∀ l, (n ∈ (iriIn nixNs l).toList ++ (iriIn k8sNs l).toList) ↔ ∃ u b, l = u ++ b ∧ SpellsIri u n := by
    intro l
    rw [List.mem_append, Option.mem_toList, Option.mem_toList, iriIn_eq_some, iriIn_eq_some]
    constructor
    · intro h
      rcases h with ⟨t, b, rfl, hne, ht, rfl⟩ | ⟨t, b, rfl, hne, ht, rfl⟩
      · exact ⟨_, b, by simp, .mk (by simp) hne ht⟩
      · exact ⟨_, b, by simp, .mk (by simp) hne ht⟩
    · intro h
      obtain ⟨u, b, rfl, hu⟩ := h
      cases hu with
      | @mk ns t hns hne ht =>
          rw [List.mem_cons, List.mem_singleton] at hns
          rcases hns with rfl | rfl
          · exact .inl ⟨t, b, by simp, hne, ht, rfl⟩
          · exact .inr ⟨t, b, by simp, hne, ht, rfl⟩
  induction l with
  | nil =>
      rw [iris]
      refine iff_of_false List.not_mem_nil fun h => ?_
      obtain ⟨a, u, b, heq, hu⟩ := h
      rw [eq_comm, List.append_eq_nil_iff, List.append_eq_nil_iff] at heq
      cases hu with
      | mk _ _ _ => simp at heq
  | cons c l ih =>
      rw [iris, List.mem_append, hat]
      constructor
      · intro h
        rcases h with ⟨u, b, heq, hu⟩ | h
        · exact ⟨[], u, b, heq, hu⟩
        · obtain ⟨a, u, b, rfl, hu⟩ := ih.mp h
          exact ⟨c :: a, u, b, rfl, hu⟩
      · intro h
        obtain ⟨a, u, b, heq, hu⟩ := h
        cases a with
        | nil => exact .inl ⟨u, b, heq, hu⟩
        | cons d a =>
            obtain ⟨rfl, rfl⟩ := List.cons.inj heq
            exact .inr (ih.mpr ⟨a, u, b, rfl, hu⟩)

/-- Both patterns together match where the text says so. -/
theorem mem_patterns {l : List Char} {n : String} : n ∈ names w false l ++ iris l ↔
    ∃ a u b, l = a ++ u ++ b ∧ Matches w a.reverse b.head? u n := by
  have hset : Settled w [] l := by
    intro s r m rest hs heq
    rw [eq_comm, List.append_eq_nil_iff, List.reverse_eq_nil_iff] at heq
    exact absurd heq.1 hs
  have hprev : false = ([] : List Char).head?.any w.word := rfl
  rw [List.mem_append, mem_names hset hprev, mem_iris]
  constructor
  · intro h
    rcases h with ⟨a, u, b, heq, hu, hfree, hb⟩ | ⟨a, u, b, heq, hu⟩
    · rw [List.append_nil] at hfree
      exact ⟨a, u, b, heq, .name hu hfree hb⟩
    · exact ⟨a, u, b, heq, .iri hu⟩
  · intro h
    obtain ⟨a, u, b, heq, hu⟩ := h
    cases hu with
    | name hu hfree hb => exact .inl ⟨a, u, b, heq, hu, by rwa [List.append_nil], hb⟩
    | iri hu => exact .inr ⟨a, u, b, heq, hu⟩

/-! ## Texts -/

/-- A term is spelled in the text, with no `%` before it on its line. -/
def Spelled (w : WordChars) (text a u b : List Char) (n : String) : Prop :=
  text = a ++ u ++ b ∧ '%' ∉ Text.lineBefore a ∧ Matches w (Text.lineBefore a) b.head? u n

/-- There is no line end and no `%` within a match. -/
theorem Matches.unbroken {before u : List Char} {next : Option Char} {n : String} (h : Matches w before next u n) :
    u ≠ [] ∧ ∀ c ∈ ['%', '\n', '\r'], c ∉ u := by
  have hword : ∀ {l : List Char}, (∀ d ∈ l, nameChar d = true) → ∀ c ∈ ['%', '\n', '\r'], c ∉ l := by
    intro l hl c hc hmem
    have hno : ∀ c ∈ ['%', '\n', '\r'], nameChar c = false := by decide
    exact absurd (hl c hmem) (by rw [hno c hc]; decide)
  cases h with
  | name hu _ _ =>
      refine ⟨hu.ne_nil, fun c hc hmem => ?_⟩
      obtain ⟨p, d, l, rfl, _, hp, _, hl, _⟩ := hu.parts w
      have hcolon : ∀ c ∈ ['%', '\n', '\r'], c ≠ ':' := by decide
      rw [List.mem_append, List.mem_cons] at hmem
      rcases hmem with hmem | hmem | hmem
      · exact hword hp c hc hmem
      · exact hcolon c hc hmem
      · exact hword hl c hc hmem
  | iri hu =>
      cases hu with
      | @mk ns l hns _ hl =>
          have hns' : ∀ ns ∈ [nixNs, k8sNs], ∀ c ∈ ['%', '\n', '\r'], c ∉ '<' :: ns.toList ++ ['>'] := by decide
          refine ⟨by simp, fun c hc hmem => ?_⟩
          have hfixed := hns' ns hns c hc
          rw [List.mem_append, not_or] at hfixed
          rw [List.mem_append, List.mem_append] at hmem
          rcases hmem with (hmem | hmem) | hmem
          · exact hfixed.1 hmem
          · exact hword hl c hc hmem
          · exact hfixed.2 hmem

/-- At the end of a line or of what is searched a match is one still. -/
theorem matches_end {c : Char} (hc : c ∈ ['%', '\n', '\r']) {before u : List Char} {n : String} :
    Matches w before (some c) u n ↔ Matches w before none u n := by
  have hno : ∀ c ∈ ['%', '\n', '\r'], nameChar c = false := by decide
  constructor
  · intro h
    cases h with
    | name hu hfree _ => exact .name hu hfree nofun
    | iri hu => exact .iri hu
  · intro h
    cases h with
    | name hu hfree _ =>
        refine .name hu hfree fun d hd => ?_
        rw [← Option.some.inj hd]
        exact hno c hc
    | iri hu => exact .iri hu

/-- The terms of a text are those that are spelled in it. -/
theorem mem_ruleTerms {text n : String} : n ∈ ruleTerms w text ↔ ∃ a u b, Spelled w text.toList a u b n := by
  have hstands : ∀ u : List Char, u ≠ [] → (∀ c ∈ ['%', '\n', '\r'], c ∉ u) →
      ((∃ line ∈ Text.lines text, Text.Stands (fun before next => Matches w before next u n) u (uncommented line)) ↔
        ∃ a b, Spelled w text.toList a u b n) :=
    fun u hne hu => Text.stands_uncut hne hu (fun c hc _ => matches_end hc) text
  rw [ruleTerms, mem_btreeSet, List.mem_flatMap]
  constructor
  · intro h
    obtain ⟨line, hline, hn⟩ := h
    obtain ⟨a, u, b, heq, hmatch⟩ := mem_patterns.mp hn
    obtain ⟨hne, hu⟩ := hmatch.unbroken
    obtain ⟨a', b', h⟩ := (hstands u hne hu).mp ⟨line, hline, a, b, heq, hmatch⟩
    exact ⟨a', u, b', h⟩
  · intro h
    obtain ⟨a, u, b, h⟩ := h
    obtain ⟨hne, hu⟩ := h.2.2.unbroken
    obtain ⟨line, hline, a', b', heq, hmatch⟩ := (hstands u hne hu).mpr ⟨a, b, h⟩
    exact ⟨line, hline, mem_patterns.mpr ⟨a', u, b', heq, hmatch⟩⟩

end Nix2Rdf.Ontology
