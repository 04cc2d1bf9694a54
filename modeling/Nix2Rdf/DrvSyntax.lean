import Nix2Rdf.DrvFile

/-!
# What the reader of `.drv` files accepts

The concrete syntax of the terms, and the texts that the reader takes for a derivation. The reader
stops at the closing bracket of the term, and coerces what stands inside of it.
-/

namespace Nix2Rdf.DrvFile

/-! ## Concrete syntax -/

/-- The bytes between two quotes, and the bytes that they stand for. -/
inductive Body : List UInt8 → List UInt8 → Prop
  | nil : Body [] []
  | plain {b : UInt8} {bs vs : List UInt8} : b ≠ byte '"' → b ≠ byte '\\' → Body bs vs → Body (b :: bs) (b :: vs)
  | escape {c : UInt8} {bs vs : List UInt8} : Body bs vs → Body (byte '\\' :: c :: bs) (unescape c :: vs)

/-- A term, or one or more terms with commas between them. -/
inductive Piece where
  | one (t : Term)
  | items (ts : List Term)

/-- The bytes spell the piece. Strings may escape more than they need to. -/
inductive Spells : Piece → List UInt8 → Prop
  | str {bs vs : List UInt8} {s : String} : Body bs vs → Encoding.ofUtf8 vs = some s →
      Spells (.one (.str s)) (byte '"' :: (bs ++ [byte '"']))
  | emptyList : Spells (.one (.list [])) [byte '[', byte ']']
  | list {ts : List Term} {bs : List UInt8} : Spells (.items ts) bs →
      Spells (.one (.list ts)) (byte '[' :: (bs ++ [byte ']']))
  | emptyTuple : Spells (.one (.tuple [])) [byte '(', byte ')']
  | tuple {ts : List Term} {bs : List UInt8} : Spells (.items ts) bs →
      Spells (.one (.tuple ts)) (byte '(' :: (bs ++ [byte ')']))
  | last {t : Term} {bs : List UInt8} : Spells (.one t) bs → Spells (.items [t]) bs
  | more {t : Term} {ts : List Term} {bs cs : List UInt8} : Spells (.one t) bs → Spells (.items ts) cs →
      Spells (.items (t :: ts)) (bs ++ byte ',' :: cs)

/-- A piece starts with what closes no sequence. -/
theorem Spells.head {piece : Piece} {bs : List UInt8} (h : Spells piece bs) : ∃ b cs, bs = b :: cs ∧ ¬ Closes b := by
  induction h with
  | str _ _ => exact ⟨_, _, rfl, by decide⟩
  | emptyList => exact ⟨_, _, rfl, by decide⟩
  | list _ _ => exact ⟨_, _, rfl, by decide⟩
  | emptyTuple => exact ⟨_, _, rfl, by decide⟩
  | tuple _ _ => exact ⟨_, _, rfl, by decide⟩
  | last _ ih => exact ih
  | more _ _ ih _ =>
      obtain ⟨b, cs, rfl, hb⟩ := ih
      exact ⟨b, _, rfl, hb⟩

/-! ## What is spelled is read -/

theorem stringLoop_body {bs vs : List UInt8} (h : Body bs vs) (rest : List UInt8) (i : Nat) (out : List UInt8) :
    stringLoop (bs ++ byte '"' :: rest) i out = .ok (out ++ vs, ⟨rest, i + bs.length + 1⟩) := by
  induction h generalizing i out with
  | nil => simp [stringLoop_close]
  | plain hquote hback _ ih =>
      rw [List.cons_append, stringLoop_plain hquote hback, ih, List.append_assoc, List.singleton_append,
        List.length_cons]
      congr 4
      omega
  | escape _ ih =>
      rw [List.cons_append, List.cons_append, stringLoop_backslash, ih, List.append_assoc, List.singleton_append,
        List.length_cons, List.length_cons]
      congr 4
      omega

/-- The reader reads the piece from these bytes, whatever follows. -/
def Piece.ReadFrom (bs : List UInt8) : Piece → Prop
  | .one t => ∀ (rest : List UInt8) (i turns : Nat), 2 * (bs ++ rest).length + 1 ≤ turns →
      term turns ⟨bs ++ rest, i⟩ = .ok (t, ⟨rest, i + bs.length⟩)
  | .items ts => ∀ (close : UInt8) (items : List Term) (rest : List UInt8) (i turns : Nat), Closes close →
      2 * (bs ++ close :: rest).length + 2 ≤ turns →
      seqLoop turns close items ⟨bs ++ close :: rest, i⟩ = .ok (items ++ ts, ⟨rest, i + bs.length + 1⟩)

theorem seq_of_readFrom {ts : List Term} {bs : List UInt8} (hspells : Spells (.items ts) bs)
    (h : Piece.ReadFrom bs (.items ts)) {close : UInt8} (hclose : Closes close) (rest : List UInt8) (i turns : Nat)
    (hturns : 2 * (bs ++ close :: rest).length + 2 ≤ turns) :
    seq (seqLoop turns close []) close ⟨bs ++ close :: rest, i⟩ = .ok (ts, ⟨rest, i + bs.length + 1⟩) := by
  obtain ⟨b, cs, hb, hno⟩ := hspells.head
  have hpeek : Parser.peek ⟨bs ++ close :: rest, i⟩ ≠ some close := by
    rw [Parser.peek, hb, List.cons_append, List.head?_cons]
    intro heq
    cases heq
    exact hno hclose
  exact (if_neg hpeek).trans (h close [] rest i turns hclose hturns)

theorem Spells.readFrom {piece : Piece} {bs : List UInt8} (h : Spells piece bs) : piece.ReadFrom bs := by
  have hbracket : some (byte '[') ≠ some (byte '"') := by decide
  have hparen : some (byte '(') ≠ some (byte '"') := by decide
  have hparen' : some (byte '(') ≠ some (byte '[') := by decide
  induction h with
  | @str bs vs s hbody hs =>
      intro rest i turns hturns
      obtain ⟨turns, rfl⟩ : ∃ n, turns = n + 1 := ⟨turns - 1, by omega⟩
      have hloop := stringLoop_body hbody rest (i + 1) []
      rw [List.cons_append, List.append_assoc, List.singleton_append]
      rw [term, Parser.peek, List.head?_cons, if_pos rfl, string, expect, Parser.peek, List.head?_cons, if_pos rfl,
        Outcome.bind_ok, Parser.next, List.tail_cons, hloop, Outcome.bind_ok, List.nil_append]
      simp only [hs, Except.map, List.length_cons, List.length_append, List.length_nil]
      congr 3
      omega
  | emptyList =>
      intro rest i turns hturns
      obtain ⟨turns, rfl⟩ : ∃ n, turns = n + 1 := ⟨turns - 1, by omega⟩
      rw [term, Parser.peek, List.cons_append, List.head?_cons, if_neg hbracket, if_pos rfl]
      rfl
  | @list ts bs hitems ih =>
      intro rest i turns hturns
      obtain ⟨turns, rfl⟩ : ∃ n, turns = n + 1 := ⟨turns - 1, by omega⟩
      rw [List.cons_append, List.append_assoc, List.singleton_append, List.length_cons] at hturns
      have hseq := seq_of_readFrom hitems ih (.inl rfl) rest (i + 1) turns (by omega)
      rw [List.cons_append, List.append_assoc, List.singleton_append, term, Parser.peek, List.head?_cons,
        if_neg hbracket, if_pos rfl, Parser.next, List.tail_cons, hseq]
      simp only [Except.map, List.length_cons, List.length_append, List.length_nil]
      congr 3
      omega
  | emptyTuple =>
      intro rest i turns hturns
      obtain ⟨turns, rfl⟩ : ∃ n, turns = n + 1 := ⟨turns - 1, by omega⟩
      rw [term, Parser.peek, List.cons_append, List.head?_cons, if_neg hparen, if_neg hparen', if_pos rfl]
      rfl
  | @tuple ts bs hitems ih =>
      intro rest i turns hturns
      obtain ⟨turns, rfl⟩ : ∃ n, turns = n + 1 := ⟨turns - 1, by omega⟩
      rw [List.cons_append, List.append_assoc, List.singleton_append, List.length_cons] at hturns
      have hseq := seq_of_readFrom hitems ih (.inr rfl) rest (i + 1) turns (by omega)
      rw [List.cons_append, List.append_assoc, List.singleton_append, term, Parser.peek, List.head?_cons,
        if_neg hparen, if_neg hparen', if_pos rfl, Parser.next, List.tail_cons, hseq]
      simp only [Except.map, List.length_cons, List.length_append, List.length_nil]
      congr 3
      omega
  | @last t bs _ ih =>
      intro close items rest i turns hclose hturns
      obtain ⟨turns, rfl⟩ : ∃ n, turns = n + 1 := ⟨turns - 1, by omega⟩
      have hcomma : some close ≠ some (byte ',') := by
        rcases hclose with rfl | rfl <;> decide
      rw [seqLoop, ih (close :: rest) i turns (by omega)]
      dsimp only
      rw [Parser.peek, List.head?_cons, if_neg hcomma, if_pos rfl]
      rfl
  | @more t ts bs cs _ _ iht ihts =>
      intro close items rest i turns hclose hturns
      obtain ⟨turns, rfl⟩ : ∃ n, turns = n + 1 := ⟨turns - 1, by omega⟩
      rw [List.append_assoc, List.cons_append] at hturns ⊢
      simp only [List.length_append, List.length_cons] at hturns
      have ht := iht (byte ',' :: (cs ++ close :: rest)) i turns (by
        simp only [List.length_append, List.length_cons]
        omega)
      have hts := ihts close (items ++ [t]) rest (i + bs.length + 1) turns hclose (by
        simp only [List.length_append, List.length_cons]
        omega)
      rw [seqLoop, ht]
      dsimp only
      rw [Parser.peek, List.head?_cons, if_pos rfl, Parser.next, List.tail_cons, hts, List.append_assoc,
        List.singleton_append]
      simp only [List.length_append, List.length_cons]
      congr 3
      omega

/-! ## What is read is spelled -/

theorem stringLoop_cases (rest : List UInt8) (i : Nat) (out : List UInt8) :
    (∃ bs vs q, stringLoop rest i out = .ok (out ++ vs, q) ∧ rest = bs ++ byte '"' :: q.rest ∧ Body bs vs) ∨
      ∃ m, stringLoop rest i out = .error (.error m) := by
  fun_induction stringLoop rest i out with
  | case1 i out => exact .inr ⟨_, rfl⟩
  | case2 rest i out => exact .inl ⟨[], [], _, by rw [List.append_nil], rfl, .nil⟩
  | case3 i out hquote => exact .inr ⟨_, rfl⟩
  | case4 i out c rest hquote ih =>
      rcases ih with ⟨bs, vs, q, hloop, hrest, hbody⟩ | ⟨m, hloop⟩
      · refine .inl ⟨_, _, q, ?_, ?_, .escape (c := c) hbody⟩
        · rw [hloop, List.append_assoc, List.singleton_append]
        · rw [hrest]
          rfl
      · exact .inr ⟨m, hloop⟩
  | case5 b rest i out hquote hback ih =>
      rcases ih with ⟨bs, vs, q, hloop, hrest, hbody⟩ | ⟨m, hloop⟩
      · refine .inl ⟨_, _, q, ?_, ?_, .plain hquote hback hbody⟩
        · rw [hloop, List.append_assoc, List.singleton_append]
        · rw [hrest]
          rfl
      · exact .inr ⟨m, hloop⟩

theorem peek_eq_some {p : Parser} {b : UInt8} (h : p.peek = some b) : p.rest = b :: p.next.rest := by
  obtain ⟨rest, i⟩ := p
  cases rest with
  | nil => cases h
  | cons c rest =>
      cases h
      rfl

theorem string_cases {p : Parser} (h : p.peek = some (byte '"')) :
    (∃ s bs q, string p = .ok (s, q) ∧ p.rest = bs ++ q.rest ∧ Spells (.one (.str s)) bs) ∨
      ∃ m, string p = .error (.error m) := by
  have hopen : expect (byte '"') p = .ok p.next := if_pos h
  rw [string, hopen, Outcome.bind_ok]
  rcases stringLoop_cases p.next.rest p.next.i [] with ⟨bs, vs, q, hloop, hrest, hbody⟩ | ⟨m, hloop⟩
  · rw [hloop, Outcome.bind_ok, List.nil_append]
    cases hs : Encoding.ofUtf8 vs with
    | none => exact .inr ⟨_, by simp only [hs]; rfl⟩
    | some s =>
        refine .inl ⟨s, _, q, by simp only [hs], ?_, .str hbody hs⟩
        rw [peek_eq_some h, hrest]
        simp
  · rw [hloop]
    exact .inr ⟨m, rfl⟩

/-- The term that is read is spelled by the bytes that are read; no index is out of bounds, and the
turns suffice. -/
def TermRead (turns : Nat) : Prop :=
  ∀ p : Parser, 2 * p.rest.length + 1 ≤ turns →
    (∃ t bs q, term turns p = .ok (t, q) ∧ p.rest = bs ++ q.rest ∧ Spells (.one t) bs) ∨
      ∃ m, term turns p = .error (.error m)

def ItemsRead (turns : Nat) : Prop :=
  ∀ (close : UInt8) (items : List Term) (p : Parser), 2 * p.rest.length + 2 ≤ turns →
    (∃ ts bs q, seqLoop turns close items p = .ok (items ++ ts, q) ∧ p.rest = bs ++ close :: q.rest ∧
        Spells (.items ts) bs) ∨
      ∃ m, seqLoop turns close items p = .error (.error m)

/-- What is read between two brackets. -/
theorem seq_cases {turns : Nat} (hitems : ItemsRead turns) (close : UInt8) (p : Parser)
    (hturns : 2 * p.rest.length + 2 ≤ turns) :
    (∃ q, seq (seqLoop turns close []) close p = .ok ([], q) ∧ p.rest = close :: q.rest) ∨
    (∃ ts bs q, seq (seqLoop turns close []) close p = .ok (ts, q) ∧ p.rest = bs ++ close :: q.rest ∧
        Spells (.items ts) bs) ∨
      ∃ m, seq (seqLoop turns close []) close p = .error (.error m) := by
  by_cases hclose : p.peek = some close
  · exact .inl ⟨p.next, if_pos hclose, peek_eq_some hclose⟩
  · have hseq : seq (seqLoop turns close []) close p = seqLoop turns close [] p := if_neg hclose
    rw [hseq]
    exact .inr (hitems close [] p hturns)

theorem term_cases {turns : Nat} (hitems : ItemsRead turns) : TermRead (turns + 1) := by
  intro p hturns
  rw [term]
  split
  · rename_i hquote
    rcases string_cases hquote with ⟨s, bs, q, hs, hrest, hspells⟩ | ⟨m, hs⟩
    · exact .inl ⟨.str s, bs, q, by rw [hs]; rfl, hrest, hspells⟩
    · exact .inr ⟨m, by rw [hs]; rfl⟩
  split
  · rename_i hbracket
    have hlen : p.next.rest.length + 1 = p.rest.length := by rw [peek_eq_some hbracket, List.length_cons]
    rcases seq_cases hitems (byte ']') p.next (by omega) with
      ⟨q, hs, hrest⟩ | ⟨ts, bs, q, hs, hrest, hspells⟩ | ⟨m, hs⟩
    · exact .inl ⟨.list [], _, q, by rw [hs]; rfl, by rw [peek_eq_some hbracket, hrest]; rfl, .emptyList⟩
    · exact .inl ⟨.list ts, _, q, by rw [hs]; rfl, by rw [peek_eq_some hbracket, hrest]; simp, .list hspells⟩
    · exact .inr ⟨m, by rw [hs]; rfl⟩
  split
  · rename_i hparen
    have hlen : p.next.rest.length + 1 = p.rest.length := by rw [peek_eq_some hparen, List.length_cons]
    rcases seq_cases hitems (byte ')') p.next (by omega) with
      ⟨q, hs, hrest⟩ | ⟨ts, bs, q, hs, hrest, hspells⟩ | ⟨m, hs⟩
    · exact .inl ⟨.tuple [], _, q, by rw [hs]; rfl, by rw [peek_eq_some hparen, hrest]; rfl, .emptyTuple⟩
    · exact .inl ⟨.tuple ts, _, q, by rw [hs]; rfl, by rw [peek_eq_some hparen, hrest]; simp, .tuple hspells⟩
    · exact .inr ⟨m, by rw [hs]; rfl⟩
  · exact .inr ⟨_, rfl⟩

theorem items_cases {turns : Nat} (hterm : TermRead turns) (hitems : ItemsRead turns) : ItemsRead (turns + 1) := by
  intro close items p hturns
  rw [seqLoop]
  rcases hterm p (by omega) with ⟨t, bs, q, ht, hrest, hspells⟩ | ⟨m, ht⟩
  · rw [ht]
    dsimp only
    obtain ⟨b, cs, hb, _⟩ := hspells.head
    have hlen : q.rest.length + 1 ≤ p.rest.length := by
      rw [hrest, hb, List.length_append, List.length_cons]
      omega
    split
    · rename_i hcomma
      have hnext : q.next.rest.length + 1 = q.rest.length := by rw [peek_eq_some hcomma, List.length_cons]
      rcases hitems close (items ++ [t]) q.next (by omega) with ⟨ts, cs, r, hts, hrest', hspells'⟩ | ⟨m, hts⟩
      · refine .inl ⟨t :: ts, _, r, ?_, ?_, .more hspells hspells'⟩
        · rw [hts, List.append_assoc, List.singleton_append]
        · rw [hrest, peek_eq_some hcomma, hrest', List.append_assoc, List.cons_append]
      · exact .inr ⟨m, hts⟩
    split
    · rename_i hclose
      exact .inl ⟨[t], bs, q.next, rfl, by rw [hrest, peek_eq_some hclose], .last hspells⟩
    · exact .inr ⟨_, rfl⟩
  · rw [ht]
    exact .inr ⟨m, rfl⟩

theorem reads_spelled (turns : Nat) : TermRead turns ∧ ItemsRead turns := by
  induction turns with
  | zero => exact ⟨fun _ h => by omega, fun _ _ _ h => by omega⟩
  | succ turns ih => exact ⟨term_cases ih.2, items_cases ih.1 ih.2⟩

/-! ## What is made of the terms -/

def Term.items : Term → Option (List Term)
  | .str _ => none
  | .list l => some l
  | .tuple l => some l

def Term.IsStr (t : Term) : Prop := ∃ s, t = .str s

/-- The outcome is a value when `ok` holds, an index out of bounds when `short` does, and else an error. -/
def Outcome.Judged {α : Type} (o : Outcome α) (ok short : Prop) : Prop :=
  (ok ∧ ¬ short ∧ ∃ a, o = .ok a) ∨ (short ∧ ¬ ok ∧ o = .error .panic) ∨
    (¬ ok ∧ ¬ short ∧ ∃ m, o = .error (.error m))

theorem Outcome.Judged.bind {α β : Type} {o : Outcome α} {f : α → Outcome β} {ok short ok' short' : Prop}
    (h : o.Judged ok short) (h' : ∀ a, o = .ok a → (f a).Judged ok' short') :
    (o >>= f).Judged (ok ∧ ok') (short ∨ ok ∧ short') := by
  rcases h with ⟨hok, hno, a, rfl⟩ | ⟨hshort, hno, rfl⟩ | ⟨hno, hno', m, rfl⟩
  · rcases h' a rfl with ⟨hok', hno', b, hb⟩ | ⟨hshort', hno', hb⟩ | ⟨hno', hno'', m, hb⟩
    · exact .inl ⟨⟨hok, hok'⟩, by tauto, b, hb⟩
    · exact .inr (.inl ⟨.inr ⟨hok, hshort'⟩, by tauto, hb⟩)
    · exact .inr (.inr ⟨by tauto, by tauto, m, hb⟩)
  · exact .inr (.inl ⟨.inl hshort, by tauto, rfl⟩)
  · exact .inr (.inr ⟨by tauto, by tauto, m, rfl⟩)

theorem Outcome.Judged.congr {α : Type} {o : Outcome α} {ok short ok' short' : Prop} (h : o.Judged ok short)
    (hok : ok ↔ ok') (hshort : short ↔ short') : o.Judged ok' short' := by
  rw [← hok, ← hshort]
  exact h

theorem judged_ok {α : Type} (a : α) : Outcome.Judged (.ok a) True False :=
  .inl ⟨trivial, fun h => h, a, rfl⟩

theorem asStr_judged (t : Term) : (asStr t).Judged t.IsStr False := by
  cases t with
  | str s => exact .inl ⟨⟨s, rfl⟩, fun h => h, s, rfl⟩
  | list l => exact .inr (.inr ⟨by simp [Term.IsStr], fun h => h, _, rfl⟩)
  | tuple l => exact .inr (.inr ⟨by simp [Term.IsStr], fun h => h, _, rfl⟩)

theorem asList_eq {t : Term} {l : List Term} (h : t.items = some l) : asList t = .ok l := by
  cases t with
  | str s => cases h
  | list l' =>
      cases h
      rfl
  | tuple l' =>
      cases h
      rfl

/-- What is done with the items of a term. -/
theorem bind_asList_judged {β : Type} {t : Term} {f : List Term → Outcome β} {ok short : List Term → Prop}
    (h : ∀ l, (f l).Judged (ok l) (short l)) :
    (asList t >>= f).Judged (∃ l, t.items = some l ∧ ok l) (∃ l, t.items = some l ∧ short l) := by
  cases hl : t.items with
  | none =>
      cases t with
      | str s => exact .inr (.inr ⟨by simp, by simp, _, rfl⟩)
      | list l => cases hl
      | tuple l => cases hl
  | some l =>
      rw [asList_eq hl, Outcome.bind_ok]
      exact (h l).congr (by simp) (by simp)

theorem mapM_asStr_judged (l : List Term) : Outcome.Judged (l.mapM asStr) (∀ t ∈ l, t.IsStr) False := by
  induction l with
  | nil => exact (judged_ok []).congr (by simp) Iff.rfl
  | cons t l ih =>
      rw [List.mapM_cons]
      have hall := (asStr_judged t).bind fun s _ => ih.bind fun ss _ => judged_ok (s :: ss)
      exact hall.congr (by simp) (by simp)

theorem strings_judged (t : Term) : (strings t).Judged (∃ l, t.items = some l ∧ ∀ u ∈ l, u.IsStr) False :=
  (bind_asList_judged mapM_asStr_judged).congr Iff.rfl (by simp)

/-! ## Entries -/

/-- There is a string at the position. -/
def StrAt (l : List Term) (n : Nat) : Prop := ∃ t, l[n]? = some t ∧ t.IsStr

theorem bind_strAt_judged {β : Type} {l : List Term} {n : Nat} {f : String → Outcome β} {ok short : Prop}
    (h : ∀ s, (f s).Judged ok short) :
    Outcome.Judged (item l n >>= fun t => asStr t >>= f) (StrAt l n ∧ ok) (l[n]? = none ∨ StrAt l n ∧ short) := by
  cases ht : l[n]? with
  | none =>
      have hitem : item l n = .error .panic := by simp only [item, ht]
      rw [hitem]
      exact .inr (.inl ⟨.inl rfl, by simp [StrAt, ht], rfl⟩)
  | some t =>
      have hitem : item l n = .ok t := by simp only [item, ht]
      have hat : StrAt l n ↔ t.IsStr := by simp [StrAt, ht]
      rw [hitem, Outcome.bind_ok, hat]
      exact ((asStr_judged t).bind fun s _ => h s).congr Iff.rfl (by simp)

/-- Reading strings at these positions in turn comes to one that is missing. -/
def RunsOut (l : List Term) : List Nat → Prop
  | [] => False
  | n :: ns => l[n]? = none ∨ StrAt l n ∧ RunsOut l ns

/-- How the entries of a list are read: as they should be, or past the end of a tuple. -/
structure EntryKind where
  ok : Term → Prop
  short : Term → Prop

def outputEntry : EntryKind where
  ok t := ∃ l, t.items = some l ∧ StrAt l 0 ∧ StrAt l 1 ∧ StrAt l 2 ∧ StrAt l 3
  short t := ∃ l, t.items = some l ∧ RunsOut l [0, 1, 2, 3]

def inputDrvEntry : EntryKind where
  ok t := ∃ l, t.items = some l ∧ StrAt l 0 ∧
    ∃ outs, l[1]? = some outs ∧ ∃ names, outs.items = some names ∧ ∀ u ∈ names, u.IsStr
  short t := ∃ l, t.items = some l ∧ (l[0]? = none ∨ StrAt l 0 ∧ l[1]? = none)

def variableEntry : EntryKind where
  ok t := ∃ l, t.items = some l ∧ StrAt l 0 ∧ StrAt l 1
  short t := ∃ l, t.items = some l ∧ RunsOut l [0, 1]

theorem readOutput_judged (outputs : BTreeMap OutputInfo) (t : Term) :
    (readOutput outputs t).Judged (outputEntry.ok t) (outputEntry.short t) := by
  refine bind_asList_judged fun l => ?_
  have hread := bind_strAt_judged (l := l) (n := 0) fun name => bind_strAt_judged (l := l) (n := 1) fun path =>
    bind_strAt_judged (l := l) (n := 2) fun algo => bind_strAt_judged (l := l) (n := 3) fun hash =>
      judged_ok (outputs.insert name
        { path := nonEmpty path, hashAlgo := (splitAlgo algo).2, method := (splitAlgo algo).1,
          hash := nonEmpty hash })
  exact hread.congr (by simp) Iff.rfl

theorem readVariable_judged (env : BTreeMap String) (t : Term) :
    (readVariable env t).Judged (variableEntry.ok t) (variableEntry.short t) := by
  refine bind_asList_judged fun l => ?_
  have hread := bind_strAt_judged (l := l) (n := 0) fun name => bind_strAt_judged (l := l) (n := 1) fun value =>
    judged_ok (env.insert name value)
  exact hread.congr (by simp) Iff.rfl

theorem readInputDrv_judged (inputDrvs : BTreeMap InputDrv) (t : Term) :
    (readInputDrv inputDrvs t).Judged (inputDrvEntry.ok t) (inputDrvEntry.short t) := by
  refine bind_asList_judged fun l => ?_
  refine bind_strAt_judged fun path => ?_
  cases hone : l[1]? with
  | none =>
      have hitem : item l 1 = .error .panic := by simp only [item, hone]
      rw [hitem]
      exact .inr (.inl ⟨rfl, by simp, rfl⟩)
  | some outs =>
      have hitem : item l 1 = .ok outs := by simp only [item, hone]
      rw [hitem, Outcome.bind_ok]
      have hread := (strings_judged outs).bind fun names _ =>
        judged_ok (inputDrvs.insert path (.structured names (.obj [])))
      exact hread.congr (by simp) (by simp)

/-- The first entry that cannot be read as it should be is too short. -/
def EntryKind.firstShort (k : EntryKind) : List Term → Prop
  | [] => False
  | t :: ts => k.short t ∨ k.ok t ∧ k.firstShort ts

theorem foldlM_judged {β : Type} {read : β → Term → Outcome β} {k : EntryKind}
    (h : ∀ b t, (read b t).Judged (k.ok t) (k.short t)) (l : List Term) (b : β) :
    Outcome.Judged (l.foldlM read b) (∀ t ∈ l, k.ok t) (k.firstShort l) := by
  induction l generalizing b with
  | nil => exact (judged_ok b).congr (by simp) Iff.rfl
  | cons t l ih =>
      rw [List.foldlM_cons]
      exact ((h b t).bind fun b' _ => ih b').congr (by simp) Iff.rfl

/-- All entries of the field can be read. -/
def EntryKind.Readable (k : EntryKind) (field : Term) : Prop := ∃ l, field.items = some l ∧ ∀ t ∈ l, k.ok t

/-- The reading of the entries of the field comes to one that is too short. -/
def EntryKind.Breaks (k : EntryKind) (field : Term) : Prop := ∃ l, field.items = some l ∧ k.firstShort l

theorem entries_judged {β : Type} {read : β → Term → Outcome β} {k : EntryKind}
    (h : ∀ b t, (read b t).Judged (k.ok t) (k.short t)) (field : Term) (b : β) :
    Outcome.Judged (asList field >>= fun l => l.foldlM read b) (k.Readable field) (k.Breaks field) :=
  bind_asList_judged fun l => foldlM_judged h l b

/-! ## Derivations -/

/-- A list or a tuple of strings. -/
def Strings (field : Term) : Prop := ∃ l, field.items = some l ∧ ∀ t ∈ l, t.IsStr

/-- Seven fields, in their order. -/
structure Fields where
  outputs : Term
  inputDrvs : Term
  inputSrcs : Term
  system : Term
  builder : Term
  args : Term
  env : Term

namespace Fields

def terms (f : Fields) : List Term := [f.outputs, f.inputDrvs, f.inputSrcs, f.system, f.builder, f.args, f.env]

/-- The reader takes the fields for a derivation. -/
def Accepted (f : Fields) : Prop :=
  outputEntry.Readable f.outputs ∧ inputDrvEntry.Readable f.inputDrvs ∧ Strings f.inputSrcs ∧ f.system.IsStr ∧
    f.builder.IsStr ∧ Strings f.args ∧ variableEntry.Readable f.env

/-- The reader indexes past the end of a tuple. -/
def Panics (f : Fields) : Prop :=
  outputEntry.Breaks f.outputs ∨ outputEntry.Readable f.outputs ∧ (inputDrvEntry.Breaks f.inputDrvs ∨
    inputDrvEntry.Readable f.inputDrvs ∧ Strings f.inputSrcs ∧ f.system.IsStr ∧ f.builder.IsStr ∧ Strings f.args ∧
      variableEntry.Breaks f.env)

/-- The documented shapes: lists of tuples with four, two and two elements, lists and strings. -/
def Documented (f : Fields) : Prop :=
  (∃ l, f.outputs = .list l ∧ ∀ t ∈ l, ∃ name path algo hash,
      t = .tuple [.str name, .str path, .str algo, .str hash]) ∧
    (∃ l, f.inputDrvs = .list l ∧ ∀ t ∈ l, ∃ path names, t = .tuple [.str path, .list names] ∧ ∀ u ∈ names, u.IsStr) ∧
    (∃ l, f.inputSrcs = .list l ∧ ∀ t ∈ l, t.IsStr) ∧ f.system.IsStr ∧ f.builder.IsStr ∧
    (∃ l, f.args = .list l ∧ ∀ t ∈ l, t.IsStr) ∧
    ∃ l, f.env = .list l ∧ ∀ t ∈ l, ∃ name value, t = .tuple [.str name, .str value]

end Fields

theorem readFields_judged (name : String) (f : Fields) : (readFields name f.terms).Judged f.Accepted f.Panics := by
  have hread := (entries_judged readOutput_judged f.outputs ∅).bind fun outputs _ =>
    (entries_judged readInputDrv_judged f.inputDrvs ∅).bind fun inputDrvs _ =>
      (strings_judged f.inputSrcs).bind fun inputSrcs _ => (asStr_judged f.system).bind fun system _ =>
        (asStr_judged f.builder).bind fun builder _ => (strings_judged f.args).bind fun args _ =>
          (entries_judged readVariable_judged f.env ∅).bind fun env _ =>
            judged_ok ({ name, system, builder, args, env, inputDrvs, inputSrcs, outputs } : DrvInfo)
  simp only [bind_assoc] at hread
  have hsame : (readFields name f.terms).Judged _ _ := hread
  refine hsame.congr ?_ ?_
  · simp only [Fields.Accepted, Strings, and_true]
  · simp only [Fields.Panics, Strings, false_or, and_false, or_false]

/-! ## Whole texts -/

/-- The text without whitespace at its end is one `Derive(..)` term of the documented shape. -/
def OneDerivation (text : String) : Prop :=
  ∃ (f : Fields) (bs : List UInt8), Encoding.utf8 (Text.trimEnd Text.isWhitespace text) =
    Encoding.utf8 "Derive" ++ bs ∧ Spells (.one (.tuple f.terms)) bs ∧ f.Documented

/-- The reader ends with a derivation or an error, and takes one `Derive(..)` term only. -/
def ReadsOneDerivation (drvPath text : String) : Prop :=
  parseDrv drvPath text ≠ .error .panic ∧ parseDrv drvPath text ≠ .error .turns ∧
    ∀ d, parseDrv drvPath text = .ok d → OneDerivation text

/-- Where the text starts with a `Derive(..)` term of seven fields, no entry that is read is too short,
and fields that can be read have the documented shapes and nothing behind them. -/
def Guarded (text : String) : Prop :=
  ∀ (f : Fields) (bs rest : List UInt8),
    Encoding.utf8 (Text.trimEnd Text.isWhitespace text) = Encoding.utf8 "Derive" ++ (bs ++ rest) →
    Spells (.one (.tuple f.terms)) bs → ¬ f.Panics ∧ (f.Accepted → rest = [] ∧ f.Documented)

theorem Fields.exists_of_length {l : List Term} (h : l.length = 7) : ∃ f : Fields, l = f.terms := by
  obtain ⟨a, l, rfl⟩ := List.exists_cons_of_length_eq_add_one h
  obtain ⟨b, l, rfl⟩ := List.exists_cons_of_length_eq_add_one (Nat.succ.inj h)
  obtain ⟨c, l, rfl⟩ := List.exists_cons_of_length_eq_add_one (Nat.succ.inj (Nat.succ.inj h))
  obtain ⟨d, e, f, g, rfl⟩ : ∃ d e f g, l = [d, e, f, g] := by
    simp only [List.length_cons] at h
    exact List.length_eq_four.mp (by omega)
  exact ⟨⟨a, b, c, d, e, f, g⟩, rfl⟩

theorem Fields.terms_inj {f g : Fields} (h : f.terms = g.terms) : g = f := by
  cases f
  cases g
  simp only [Fields.terms, List.cons.injEq, and_true] at h
  simp [h]

theorem utf8_derive : (Encoding.utf8 "Derive").length = 6 := by decide

/-- What is made of the term that the text spells. -/
def fromTerm (drvPath : String) : Outcome (Term × Parser) → Outcome DrvInfo
  | .error e => .error e
  | .ok (.tuple fields, _) =>
      if fields.length ≠ 7 then
        .error (.error (drvPath ++ ": expected 7 fields, got " ++ toString fields.length))
      else readFields (drvName drvPath) fields
  | .ok _ => .error (.error (drvPath ++ ": malformed Derive term"))

theorem fromTerm_tuple {drvPath : String} {fields : List Term} {p : Parser} (h : fields.length = 7) :
    fromTerm drvPath (.ok (.tuple fields, p)) = readFields (drvName drvPath) fields := by
  have hseven : ¬ fields.length ≠ 7 := fun hne => hne h
  exact if_neg hseven

theorem parseDrv_eq {drvPath text : String} {cs : List UInt8}
    (hstarts : Text.startsWith "Derive(" (Text.trimEnd Text.isWhitespace text) = true)
    (htext : Encoding.utf8 (Text.trimEnd Text.isWhitespace text) = Encoding.utf8 "Derive" ++ cs) :
    parseDrv drvPath text = fromTerm drvPath (term (2 * cs.length + 1) ⟨cs, 6⟩) := by
  have hbytes : (Encoding.utf8 (Text.trimEnd Text.isWhitespace text)).drop 6 = cs := by
    rw [htext, ← utf8_derive, List.drop_left]
  rw [parseDrv, hstarts, hbytes]
  rfl

/-- A text that spells a term of seven fields after `Derive` is read up to the end of that term. -/
theorem parseDrv_of_spelled {drvPath text : String} {f : Fields} {bs rest : List UInt8}
    (htext : Encoding.utf8 (Text.trimEnd Text.isWhitespace text) = Encoding.utf8 "Derive" ++ (bs ++ rest))
    (hspells : Spells (.one (.tuple f.terms)) bs) : parseDrv drvPath text = readFields (drvName drvPath) f.terms := by
  have hstarts : Text.startsWith "Derive(" (Text.trimEnd Text.isWhitespace text) = true := by
    obtain ⟨cs, rfl⟩ : ∃ cs, bs = byte '(' :: cs := by
      generalize hpiece : Piece.one (.tuple f.terms) = piece at hspells
      cases hspells with
      | emptyTuple => exact ⟨_, rfl⟩
      | tuple _ => exact ⟨_, rfl⟩
      | str _ _ => cases hpiece
      | emptyList => cases hpiece
      | list _ => cases hpiece
      | last _ => cases hpiece
      | more _ _ => cases hpiece
    have hascii : ∀ c ∈ "Derive(".toList, c.toNat < 128 := by
      have hall : ("Derive(".toList.all fun c => decide (c.toNat < 128)) = true := by decide
      intro c hc
      exact of_decide_eq_true (List.all_eq_true.mp hall c hc)
    have hparen : "Derive(".toList.flatMap String.utf8EncodeChar = Encoding.utf8 "Derive" ++ [byte '('] := by decide
    have hbytes : (Text.trimEnd Text.isWhitespace text).toList.flatMap String.utf8EncodeChar =
        "Derive(".toList.flatMap String.utf8EncodeChar ++ (cs ++ rest) := by
      rw [hparen, List.append_assoc]
      exact htext
    obtain ⟨l, hl, _⟩ := Encoding.eq_append_of_utf8 hascii hbytes
    rw [Text.startsWith, hl, List.isPrefixOf_iff_prefix]
    exact List.prefix_append _ _
  have hread := hspells.readFrom rest 6 (2 * (bs ++ rest).length + 1) (le_refl _)
  rw [parseDrv_eq hstarts htext, hread, fromTerm_tuple rfl]

/-- What the reader makes of a text that spells no such term is an error. -/
theorem parseDrv_cases (drvPath text : String) :
    (∃ (f : Fields) (bs rest : List UInt8),
      Encoding.utf8 (Text.trimEnd Text.isWhitespace text) = Encoding.utf8 "Derive" ++ (bs ++ rest) ∧
        Spells (.one (.tuple f.terms)) bs) ∨ ∃ m, parseDrv drvPath text = .error (.error m) := by
  by_cases hstarts : Text.startsWith "Derive(" (Text.trimEnd Text.isWhitespace text) = true
  · obtain ⟨cs, hcs⟩ : ∃ cs, Encoding.utf8 (Text.trimEnd Text.isWhitespace text) = Encoding.utf8 "Derive" ++ cs := by
      rw [Text.startsWith, List.isPrefixOf_iff_prefix] at hstarts
      obtain ⟨l, hl⟩ := hstarts
      refine ⟨byte '(' :: l.flatMap String.utf8EncodeChar, ?_⟩
      have hparen : "Derive(".toList.flatMap String.utf8EncodeChar = Encoding.utf8 "Derive" ++ [byte '('] := by decide
      rw [Encoding.utf8, ← hl, List.flatMap_append, hparen, List.append_assoc, List.singleton_append]
    have hparse : parseDrv drvPath text = _ := parseDrv_eq hstarts hcs
    rcases (reads_spelled (2 * cs.length + 1)).1 ⟨cs, 6⟩ (le_refl _) with ⟨t, bs, q, ht, hrest, hspells⟩ | ⟨m, ht⟩
    · rw [ht] at hparse
      cases t with
      | str s => exact .inr ⟨_, hparse⟩
      | list l => exact .inr ⟨_, hparse⟩
      | tuple l =>
          by_cases hlen : l.length = 7
          · obtain ⟨f, rfl⟩ := Fields.exists_of_length hlen
            exact .inl ⟨f, bs, q.rest, by rw [hcs, ← hrest], hspells⟩
          · exact .inr ⟨_, hparse.trans (if_pos hlen)⟩
    · rw [ht] at hparse
      exact .inr ⟨m, hparse⟩
  · have hno : Text.startsWith "Derive(" (Text.trimEnd Text.isWhitespace text) = false := by simpa using hstarts
    refine .inr ⟨drvPath ++ ": not a Derive(...) term", ?_⟩
    rw [parseDrv, hno]
    rfl

/-- The reader takes exactly one derivation of the documented shape, and never panics, exactly on the
texts that put no other derivation before it. -/
theorem parseDrv_guarded_iff (drvPath text : String) : ReadsOneDerivation drvPath text ↔ Guarded text := by
  constructor
  · intro h f bs rest htext hspells
    obtain ⟨hpanic, _, hone⟩ := h
    rw [parseDrv_of_spelled htext hspells] at hpanic hone
    rcases readFields_judged (drvName drvPath) f with ⟨_, hno, d, hd⟩ | ⟨_, _, hp⟩ | ⟨hno, hno', _⟩
    · refine ⟨hno, fun _ => ?_⟩
      obtain ⟨f', bs', htext', hspells', hdoc⟩ := hone d hd
      have hsame : bs' = bs ++ rest := List.append_cancel_left (htext'.symm.trans htext)
      have hread := hspells.readFrom rest 0 _ (le_refl _)
      have hread' := hspells'.readFrom [] 0 (2 * (bs ++ rest).length + 1) (by rw [List.append_nil, hsame])
      rw [List.append_nil, hsame, hread, Except.ok.injEq, Prod.mk.injEq, Term.tuple.injEq, Parser.mk.injEq] at hread'
      obtain ⟨hterms, hrest, _⟩ := hread'
      exact ⟨hrest, Fields.terms_inj hterms ▸ hdoc⟩
    · exact absurd hp hpanic
    · exact ⟨hno', fun h => absurd h hno⟩
  · intro h
    rcases parseDrv_cases drvPath text with ⟨f, bs, rest, htext, hspells⟩ | ⟨m, hm⟩
    · obtain ⟨hpanics, hall⟩ := h f bs rest htext hspells
      rw [ReadsOneDerivation, parseDrv_of_spelled htext hspells]
      rcases readFields_judged (drvName drvPath) f with ⟨hok, _, d, hd⟩ | ⟨hp, _, _⟩ | ⟨_, _, m, hm⟩
      · obtain ⟨rfl, hdoc⟩ := hall hok
        rw [hd]
        refine ⟨by simp, by simp, fun _ _ => ⟨f, bs, ?_, hspells, hdoc⟩⟩
        rw [htext, List.append_nil]
      · exact absurd hp hpanics
      · rw [hm]
        exact ⟨by simp, by simp, fun _ h => by cases h⟩
    · rw [ReadsOneDerivation, hm]
      exact ⟨by simp, by simp, fun _ h => by cases h⟩

def Outcome.panics {α : Type} : Outcome α → Bool
  | .error .panic => true
  | _ => false

theorem Outcome.eq_panic {α : Type} {o : Outcome α} (h : o.panics = true) : o = .error .panic := by
  cases o with
  | ok a => cases h
  | error e =>
      cases e with
      | panic => rfl
      | error m => cases h
      | turns => cases h

/-- An output of which only the name is given. -/
theorem short_output_panics : ¬ ReadsOneDerivation "/nix/store/x.drv"
    "Derive([(\"out\")],[],[],\"x86_64-linux\",\"/bin/sh\",[],[])" := by
  intro h
  exact h.1 (Outcome.eq_panic (by decide +kernel))

end Nix2Rdf.DrvFile
