import Nix2Rdf.Ontology.RuleTerms

/-!
# The tokens of rules

Every character of a rule text is code or belongs to a string literal, an IRI in angle brackets or a
comment. A comment starts with a `%` outside of literals and IRIs and ends with its line.
-/

namespace Nix2Rdf.Ontology

inductive Kind where
  | code | quoted | iri | comment
  deriving DecidableEq, Repr

/-- Where a reader of the text is. -/
inductive Mode where
  | code
  /-- After one quote, and after two: an empty literal, or the start of a long one. -/
  | quote | quotes
  | quoted
  /-- In a long literal, after so many quotes in a row. -/
  | long (quotes : Nat)
  | iri
  | comment
  deriving DecidableEq, Repr

def iriChar (c : Char) : Bool := c ∉ ['<', '>', '"', ' ', '\n']

/-- An IRI up to its closing bracket. -/
def iriAhead (rest : List Char) : Bool :=
  rest.takeWhile iriChar ≠ [] && (rest.dropWhile iriChar).head? = some '>'

def codeStep (c : Char) (rest : List Char) : Kind × Mode :=
  if c = '%' then (.comment, .comment)
  else if c = '"' then (.quoted, .quote)
  else if c = '<' ∧ iriAhead rest = true then (.iri, .iri)
  else (.code, .code)

/-- The kind of a character before the rest of the text, and where the reader is after it. -/
def step : Mode → Char → List Char → Kind × Mode
  | .code, c, rest => codeStep c rest
  | .quote, c, _ => (.quoted, if c = '"' then .quotes else .quoted)
  | .quotes, c, rest => if c = '"' then (.quoted, .long 0) else codeStep c rest
  | .quoted, c, _ => (.quoted, if c = '"' then .code else .quoted)
  | .long n, c, _ => (.quoted, if c ≠ '"' then .long 0 else if n < 2 then .long (n + 1) else .code)
  | .iri, c, _ => (.iri, if c = '>' then .code else .iri)
  | .comment, c, _ => if c = '\n' then (.code, .code) else (.comment, .comment)

/-- The kinds of some characters before the rest of the text. -/
def kinds : Mode → List Char → List Char → List Kind
  | _, [], _ => []
  | m, c :: l, rest => (step m c (l ++ rest)).1 :: kinds (step m c (l ++ rest)).2 l rest

def after : Mode → List Char → List Char → Mode
  | m, [], _ => m
  | m, c :: l, rest => after (step m c (l ++ rest)).2 l rest

/-- All characters of a part of a text are of one kind. -/
def AllOf (k : Kind) (a u b : List Char) : Prop := ∀ k' ∈ kinds (after .code a (u ++ b)) u b, k' = k

/-- What stands directly before a name and makes it part of another token. -/
def joins (c : Char) : Bool := nameChar c || c ∈ [':', '?', '!', '$', '@', '#']

/-- Rules use a term: a name with a prefix, or a full IRI in one of the namespaces. -/
inductive Used (text : List Char) : String → Prop
  | name {a u b : List Char} {n : String} : text = a ++ u ++ b → SpellsName u n → u[4]? ≠ some '_' →
      (∀ c ∈ a.getLast?, joins c = false) → (∀ c ∈ b.head?, nameChar c = false) → AllOf .code a u b → Used text n
  | iri {a l b : List Char} {ns : String} : ns ∈ [nixNs, k8sNs] → l ≠ [] → '>' ∉ l →
      text = a ++ ('<' :: ns.toList ++ l ++ ['>']) ++ b → AllOf .iri a ('<' :: ns.toList ++ l ++ ['>']) b →
      Used text (ns ++ String.ofList l)

section

variable (w : WordChars) (text : List Char) (n : String)

/-- A term is spelled outside of comments and string literals. -/
def Outside : Prop :=
  ∃ a u b, text = a ++ u ++ b ∧ Matches w (Text.lineBefore a) b.head? u n ∧ (AllOf .code a u b ∨ AllOf .iri a u b)

/-- A term is spelled in a string literal, with no `%` before it on its line. -/
def SpelledInLiteral : Prop := ∃ a u b, Spelled w text a u b n ∧ AllOf .quoted a u b

end

/-! ## One kind at a time -/

variable {w : WordChars}

theorem lineBefore_cons {c d : Char} {l : List Char} (h : d ∈ Text.lineBefore l) : d ∈ Text.lineBefore (c :: l) := by
  rw [Text.lineBefore, List.reverse_cons, List.takeWhile_append]
  split
  · exact List.mem_append_left _ ((List.takeWhile_sublist _).subset h)
  · exact h

/-- A comment begins with a `%`, and a line feed ends it. -/
theorem step_comment {m : Mode} {c : Char} {rest : List Char} (h : (step m c rest).2 = .comment) :
    c = '%' ∨ (m = .comment ∧ c ≠ '\n') := by
  have hcode : (codeStep c rest).2 = .comment → c = '%' := by
    unfold codeStep
    split_ifs with h1 h2 h3
    · exact fun _ => h1
    · exact nofun
    · exact nofun
    · exact nofun
  cases m with
  | code => exact .inl (hcode h)
  | quote =>
      simp only [step] at h
      split at h <;> cases h
  | quotes =>
      simp only [step] at h
      split at h
      · cases h
      · exact .inl (hcode h)
  | quoted =>
      simp only [step] at h
      split at h <;> cases h
  | long n =>
      simp only [step] at h
      split_ifs at h
  | iri =>
      simp only [step] at h
      split at h <;> cases h
  | comment =>
      simp only [step] at h
      split at h
      · cases h
      · rename_i hc
        exact .inr ⟨rfl, hc⟩

/-- A `%` in a comment, or one that opens it. -/
theorem step_percent {m : Mode} {rest : List Char} (h : (step m '%' rest).1 = .comment) :
    (step m '%' rest).2 = .comment := by
  cases m with
  | code => rfl
  | quotes => rfl
  | comment => rfl
  | _ => cases h

/-- In a comment a `%` stands before on the line. -/
theorem mem_lineBefore_of_comment {m : Mode} {a rest : List Char} (h : after m a rest = .comment) :
    '%' ∈ Text.lineBefore a ∨ (m = .comment ∧ '\n' ∉ a) := by
  induction a generalizing m with
  | nil => exact .inr ⟨h, List.not_mem_nil⟩
  | cons c a ih =>
      rw [after] at h
      rcases ih h with hmem | ⟨hm, hno⟩
      · exact .inl (lineBefore_cons hmem)
      · rcases step_comment hm with rfl | ⟨rfl, hc⟩
        · refine .inl ?_
          rw [Text.lineBefore_of_not_mem (by simpa using hno)]
          simp
        · exact .inr ⟨rfl, by simpa [hc.symm] using hno⟩

/-- Characters that neither open nor close anything stay code. -/
theorem kinds_code {l : List Char} (h : ∀ c ∈ ['%', '"', '<'], c ∉ l) {m : Mode} (hm : m = .code ∨ m = .quotes)
    (rest : List Char) : ∀ k ∈ kinds m l rest, k = .code := by
  induction l generalizing m with
  | nil => exact nofun
  | cons c l ih =>
      have hc : ∀ d ∈ ['%', '"', '<'], c ≠ d := fun d hd he => h d hd (he ▸ List.mem_cons_self)
      have hcode : codeStep c (l ++ rest) = (.code, .code) := by
        rw [codeStep, if_neg (hc '%' (by simp)), if_neg (hc '"' (by simp)), if_neg fun he => hc '<' (by simp) he.1]
      have hstep : step m c (l ++ rest) = (.code, .code) := by
        rcases hm with rfl | rfl
        · exact hcode
        · rw [step, if_neg (hc '"' (by simp)), hcode]
      rw [kinds, hstep, List.forall_mem_cons]
      exact ⟨rfl, ih (fun d hd hmem => h d hd (List.mem_cons_of_mem _ hmem)) (.inl rfl)⟩

/-- A literal goes on up to a quote. -/
theorem kinds_quoted {l : List Char} (h : '"' ∉ l) {m : Mode} (hm : m = .quote ∨ m = .quoted ∨ ∃ n, m = .long n)
    (rest : List Char) : ∀ k ∈ kinds m l rest, k = .quoted := by
  induction l generalizing m with
  | nil => exact nofun
  | cons c l ih =>
      rw [List.mem_cons, not_or] at h
      obtain ⟨hc, hl⟩ := h
      rw [kinds, List.forall_mem_cons]
      rcases hm with rfl | rfl | ⟨n, rfl⟩
      · rw [step, if_neg (Ne.symm hc)]
        exact ⟨rfl, ih hl (.inr (.inl rfl))⟩
      · rw [step, if_neg (Ne.symm hc)]
        exact ⟨rfl, ih hl (.inr (.inl rfl))⟩
      · rw [step, if_pos (Ne.symm hc)]
        exact ⟨rfl, ih hl (.inr (.inr ⟨0, rfl⟩))⟩

/-- An IRI goes on up to its closing bracket. -/
theorem kinds_iri {l : List Char} (h : '>' ∉ l) {last : List Char} (hlast : last = [] ∨ last = ['>'])
    (rest : List Char) : ∀ k ∈ kinds .iri (l ++ last) rest, k = .iri := by
  induction l with
  | nil =>
      rcases hlast with rfl | rfl
      · exact nofun
      · simp [kinds, step]
  | cons c l ih =>
      rw [List.mem_cons, not_or] at h
      rw [List.cons_append, kinds, step, if_neg (Ne.symm h.1), List.forall_mem_cons]
      exact ⟨rfl, ih h.2⟩

/-- The kind of what neither opens nor closes anything. -/
def Mode.kind : Mode → Kind
  | .code | .quotes => .code
  | .quote | .quoted | .long _ => .quoted
  | .iri => .iri
  | .comment => .comment

theorem Mode.kind_mem {m : Mode} (h : m ≠ .comment) : m.kind ∈ [Kind.code, .quoted, .iri] := by
  cases m with
  | comment => exact absurd rfl h
  | _ => simp [Mode.kind]

theorem kinds_steady {l : List Char} (h : ∀ c ∈ ['%', '"', '<', '>'], c ∉ l) {m : Mode} (hm : m ≠ .comment)
    (rest : List Char) : ∀ k ∈ kinds m l rest, k = m.kind := by
  have hopen : ∀ c ∈ ['%', '"', '<'], c ∉ l := fun c hc => h c (by simp only [List.mem_cons] at hc ⊢; tauto)
  have hquote : '"' ∉ l := h '"' (by simp)
  cases m with
  | code => exact kinds_code hopen (.inl rfl) rest
  | quotes => exact kinds_code hopen (.inr rfl) rest
  | quote => exact kinds_quoted hquote (.inl rfl) rest
  | quoted => exact kinds_quoted hquote (.inr (.inl rfl)) rest
  | long n => exact kinds_quoted hquote (.inr (.inr ⟨n, rfl⟩)) rest
  | iri =>
      have hiri := kinds_iri (h '>' (by simp)) (.inl rfl) rest
      rwa [List.append_nil] at hiri
  | comment => exact absurd rfl hm

/-- An IRI is one token, or within one. -/
theorem kinds_bracketed {l : List Char} (hne : l ≠ []) (h : ∀ c ∈ l, iriChar c = true) {m : Mode} (hm : m ≠ .comment)
    (rest : List Char) : ∃ k ∈ [Kind.code, .quoted, .iri], ∀ k' ∈ kinds m ('<' :: l ++ ['>']) rest, k' = k := by
  have hno : ∀ c, iriChar c = false → c ∉ l := fun c hc hmem => absurd (h c hmem) (by rw [hc]; decide)
  have hquote : '"' ∉ '<' :: l ++ ['>'] := by simp [hno '"' (by decide)]
  have hclose : '>' ∉ l := hno '>' (by decide)
  have htail : ∀ k ∈ kinds .iri (l ++ ['>']) rest, k = .iri := kinds_iri hclose (.inr rfl) rest
  have hahead : iriAhead (l ++ ['>'] ++ rest) = true := by
    have hstop : iriChar '>' = false := by decide
    rw [iriAhead, List.append_assoc, List.takeWhile_append_of_pos h, List.dropWhile_append_of_pos h,
      List.singleton_append, List.takeWhile_cons_of_neg (by simp [hstop]), List.dropWhile_cons_of_neg
        (by simp [hstop])]
    simp [hne]
  have hopen : codeStep '<' (l ++ ['>'] ++ rest) = (.iri, .iri) := by
    rw [codeStep, if_neg (by decide), if_neg (by decide), if_pos ⟨rfl, hahead⟩]
  cases m with
  | code =>
      refine ⟨.iri, by simp, ?_⟩
      rw [List.cons_append, kinds, step, hopen, List.forall_mem_cons]
      exact ⟨rfl, htail⟩
  | quotes =>
      refine ⟨.iri, by simp, ?_⟩
      rw [List.cons_append, kinds, step, if_neg (by decide), hopen, List.forall_mem_cons]
      exact ⟨rfl, htail⟩
  | quote => exact ⟨.quoted, by simp, kinds_quoted hquote (.inl rfl) rest⟩
  | quoted => exact ⟨.quoted, by simp, kinds_quoted hquote (.inr (.inl rfl)) rest⟩
  | long n => exact ⟨.quoted, by simp, kinds_quoted hquote (.inr (.inr ⟨n, rfl⟩)) rest⟩
  | iri =>
      refine ⟨.iri, by simp, ?_⟩
      have hclose' : '>' ∉ '<' :: l := by simp [hclose]
      exact kinds_iri hclose' (.inr rfl) rest
  | comment => exact absurd rfl hm

theorem iriChar_nameChar {c : Char} (h : nameChar c = true) : iriChar c = true := by
  have hno : ∀ c ∈ ['<', '>', '"', ' ', '\n'], nameChar c = false := by decide
  refine decide_eq_true fun hc => ?_
  rw [hno c hc] at h
  cases h

/-- What is spelled is of one kind, and no comment. -/
theorem Spelled.uniform {text a u b : List Char} {n : String} (h : Spelled w text a u b n) :
    ∃ k ∈ [Kind.code, .quoted, .iri], AllOf k a u b := by
  obtain ⟨_, huncut, hmatch⟩ := h
  have hcomment : after .code a (u ++ b) ≠ .comment := by
    intro hm
    rcases mem_lineBefore_of_comment hm with hmem | ⟨hm, _⟩
    · exact huncut hmem
    · cases hm
  cases hmatch with
  | name hu _ _ =>
      have hsteady : ∀ c ∈ ['%', '"', '<', '>'], c ∉ u := by
        intro c hc hmem
        have hno : ∀ c ∈ ['%', '"', '<', '>'], nameChar c = false ∧ c ≠ ':' := by decide
        obtain ⟨p, d, l, rfl, _, hp, _, hl, _⟩ := hu.parts w
        rw [List.mem_append, List.mem_cons] at hmem
        rcases hmem with hmem | hmem | hmem
        · exact absurd (hp c hmem) (by rw [(hno c hc).1]; decide)
        · exact (hno c hc).2 hmem
        · exact absurd (hl c hmem) (by rw [(hno c hc).1]; decide)
      exact ⟨_, Mode.kind_mem hcomment, kinds_steady hsteady hcomment b⟩
  | iri hu =>
      cases hu with
      | @mk ns l hns hne hl =>
          have hns' : ∀ ns ∈ [nixNs, k8sNs], ∀ c ∈ ns.toList, iriChar c = true := by decide
          have hchars : ∀ c ∈ ns.toList ++ l, iriChar c = true := by
            intro c hc
            rcases List.mem_append.mp hc with hc | hc
            · exact hns' ns hns c hc
            · exact iriChar_nameChar (hl c hc)
          exact kinds_bracketed (by simp [hne]) hchars hcomment b

/-! ## Texts that do not mislead -/

theorem after_append (m : Mode) (a b rest : List Char) :
    after m (a ++ b) rest = after (after m a (b ++ rest)) b rest := by
  induction a generalizing m with
  | nil => rfl
  | cons c a ih => rw [List.cons_append, after, after, ih, List.append_assoc]

theorem after_comment {l : List Char} (h : '\n' ∉ l) (rest : List Char) : after .comment l rest = .comment := by
  induction l with
  | nil => rfl
  | cons c l ih =>
      rw [List.mem_cons, not_or] at h
      rw [after, step, if_neg (Ne.symm h.1), ih h.2]

/-- A character of another kind than comment is not hidden, where every `%` is in a comment. -/
theorem uncut_of_comments {text a b : List Char} {c : Char} {k : Kind}
    (hpercent : ∀ a b, text = a ++ '%' :: b → AllOf .comment a ['%'] b) (htext : text = a ++ c :: b) (hc : c ≠ '\n')
    (h : AllOf k a [c] b) (hk : k ≠ .comment) : '%' ∉ Text.lineBefore a := by
  intro hmem
  obtain ⟨s, t, hst⟩ := List.append_of_mem hmem
  have ha : a = (t ++ a.reverse.dropWhile (· ≠ '\n')).reverse ++ '%' :: s.reverse := by
    rw [← List.reverse_inj, List.reverse_append, List.reverse_reverse, List.reverse_cons, List.reverse_reverse,
      List.append_assoc, List.singleton_append, ← List.cons_append, ← List.append_assoc, ← hst, Text.lineBefore,
      List.takeWhile_append_dropWhile]
  have hline : '\n' ∉ s.reverse := by
    intro hs
    have hin : '\n' ∈ Text.lineBefore a := hst ▸ List.mem_append_left _ (List.mem_reverse.mp hs)
    have hne := List.all_eq_true.mp List.all_takeWhile _ hin
    exact absurd rfl (of_decide_eq_true hne)
  generalize (t ++ a.reverse.dropWhile (· ≠ '\n')).reverse = a₁ at ha
  have hcomment := hpercent a₁ (s.reverse ++ c :: b) (by rw [htext, ha, List.append_assoc, List.cons_append])
  have hmode : after .code (a₁ ++ ['%']) (s.reverse ++ c :: b) = .comment := by
    rw [after_append, after, after]
    exact step_percent (hcomment _ (by rw [kinds]; exact List.mem_cons_self))
  have hafter : after .code a (c :: b) = .comment := by
    rw [ha, List.append_cons, after_append, hmode, after_comment hline]
  have hkind := h (step .comment c b).1 (by rw [List.singleton_append, hafter, kinds]; exact List.mem_cons_self)
  rw [step, if_neg hc] at hkind
  exact hk hkind.symm

/-- Code follows what is no code only after a closing quote or bracket. -/
theorem closes {m : Mode} {c d : Char} {r r' : List Char} (hc : (step m c r).1 ≠ .code) (hd : d ≠ '\n')
    (h : (step (step m c r).2 d r').1 = .code) : c = '"' ∨ c = '>' := by
  have hcode : (codeStep c r).1 ≠ .code → (step (codeStep c r).2 d r').1 = .code → c = '"' ∨ c = '>' := by
    unfold codeStep
    split_ifs with h1 h2 h3
    · intro _ h
      rw [step, if_neg hd] at h
      cases h
    · exact fun _ _ => .inl h2
    · intro _ h
      cases h
    · exact fun h _ => absurd rfl h
  cases m with
  | code => exact hcode hc h
  | quote =>
      by_cases hq : c = '"'
      · exact .inl hq
      · rw [step, if_neg hq] at h
        cases h
  | quotes =>
      by_cases hq : c = '"'
      · exact .inl hq
      · rw [step, if_neg hq] at h hc
        exact hcode hc h
  | quoted =>
      by_cases hq : c = '"'
      · exact .inl hq
      · rw [step, if_neg hq] at h
        cases h
  | long n =>
      by_cases hq : c = '"'
      · exact .inl hq
      · rw [step, if_pos hq] at h
        cases h
  | iri =>
      by_cases hq : c = '>'
      · exact .inr hq
      · rw [step, if_neg hq] at h
        cases h
  | comment =>
      by_cases hq : c = '\n'
      · rw [step, if_pos hq] at hc
        exact absurd rfl hc
      · rw [step, if_neg hq, step, if_neg hd] at h
        cases h

/-- A text in which every `%` is in a comment, code is ASCII, and full IRIs end in word characters. -/
structure Plain (text : List Char) : Prop where
  percent : ∀ a b, text = a ++ '%' :: b → AllOf .comment a ['%'] b
  ascii : ∀ a c b, text = a ++ c :: b → AllOf .code a [c] b → c.toNat < 128
  iri : ∀ ns ∈ [nixNs, k8sNs], ∀ a l b, text = a ++ ('<' :: ns.toList ++ l ++ ['>']) ++ b →
    AllOf .iri a ('<' :: ns.toList ++ l ++ ['>']) b → ∀ c ∈ l, nameChar c = true

theorem AllOf.head {k : Kind} {a u b : List Char} {c : Char} (h : AllOf k a (c :: u) b) : AllOf k a [c] (u ++ b) := by
  intro k' hk'
  rw [kinds, kinds, List.mem_singleton] at hk'
  exact h k' (by rw [kinds, hk']; exact List.mem_cons_self)

/-- Where a name is used in a plain text, it may start. -/
theorem Plain.free {text a u b : List Char} {c : Char} (h : Plain text) (htext : text = a ++ (c :: u) ++ b)
    (hc : c ≠ '\n') (hall : AllOf .code a (c :: u) b) (hjoins : ∀ c ∈ a.getLast?, joins c = false) :
    free w (Text.lineBefore a) = true := by
  cases List.eq_nil_or_concat a with
  | inl ha =>
      rw [ha]
      rfl
  | inr ha =>
      obtain ⟨a, d, rfl⟩ := ha
      rw [List.concat_eq_append] at htext hall hjoins ⊢
      rw [Text.lineBefore, List.reverse_append, List.reverse_singleton, List.singleton_append]
      by_cases hd : d = '\n'
      · rw [List.takeWhile_cons_of_neg (by simpa using hd)]
        rfl
      · have hjoin : joins d = false := hjoins d (by simp)
        rw [joins, Bool.or_eq_false_iff] at hjoin
        have hcolon : d ≠ ':' := by
          rintro rfl
          exact absurd hjoin.2 (by decide)
        have hascii : d.toNat < 128 := by
          by_cases hkind : (step (after .code a (d :: (c :: u ++ b))) d (c :: u ++ b)).1 = .code
          · refine h.ascii a d (c :: u ++ b) (by rw [htext]; simp) fun k hk => ?_
            rw [kinds, kinds, List.mem_singleton] at hk
            rw [hk]
            exact hkind
          · have hnext := hall.head (step (after .code (a ++ [d]) (c :: u ++ b)) c (u ++ b)).1
              (by rw [kinds]; exact List.mem_cons_self)
            rw [after_append, after, after] at hnext
            rcases closes hkind hc hnext with rfl | rfl
            · decide
            · decide
        rw [List.takeWhile_cons_of_pos (by simpa using hd), free_cons hcolon, w.ascii d hascii, hjoin.1]
        rfl

/-- In a plain text whatever is used is spelled. -/
theorem Plain.spelled {text : List Char} (h : Plain text) {n : String} (hused : Used text n) :
    ∃ a u b, Spelled w text a u b n := by
  cases hused with
  | @name a u b n htext hu _ hjoins hb hall =>
      have hstart : ∃ c t, u = c :: t ∧ c ≠ '\n' := by
        cases hu with
        | nix _ _ => exact ⟨'n', _, rfl, by decide⟩
        | k8s _ _ => exact ⟨'k', _, rfl, by decide⟩
      obtain ⟨c, t, rfl, hc⟩ := hstart
      have htext' : text = a ++ c :: (t ++ b) := by rw [htext, List.append_assoc, List.cons_append]
      refine ⟨a, c :: t, b, htext, uncut_of_comments h.percent htext' hc hall.head (by decide), ?_⟩
      exact .name hu (h.free htext hc hall hjoins) hb
  | @iri a l b ns hns hne hclose htext hall =>
      have hl := h.iri ns hns a l b htext hall
      have htext' : text = a ++ '<' :: (ns.toList ++ l ++ ['>'] ++ b) := by
        rw [htext]
        simp
      have hhead : AllOf .iri a ['<'] (ns.toList ++ l ++ ['>'] ++ b) := AllOf.head hall
      exact ⟨a, _, b, htext, uncut_of_comments h.percent htext' (by decide) hhead (by decide), .iri (.mk hns hne hl)⟩

end Nix2Rdf.Ontology
