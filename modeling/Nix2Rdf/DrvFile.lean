import Nix2Rdf.Nix

/-!
# `.drv` files

The reader of the ATerm format, which needs no call of Nix:
`Derive([outputs],[inputDrvs],[inputSrcs],"system","builder",[args],[env])`.
The text is read byte by byte, by recursive descent.
-/

namespace Nix2Rdf.DrvFile

inductive Term where
  | str (s : String)
  | list (items : List Term)
  | tuple (items : List Term)
  deriving Repr

inductive Fault where
  | error (message : String)
  /-- An index past the end of a vector. -/
  | panic
  /-- The turns have run out. -/
  | turns
  deriving DecidableEq, Repr

abbrev Outcome := Except Fault

theorem Outcome.bind_ok {α β : Type} (a : α) (f : α → Outcome β) : (.ok a : Outcome α) >>= f = f a := rfl

/-! ## The parser -/

def byte (c : Char) : UInt8 := UInt8.ofNat c.toNat

/-- The bytes still to be read, and the position of the first of them. -/
structure Parser where
  rest : List UInt8
  i : Nat
  deriving DecidableEq, Repr

namespace Parser

def peek (p : Parser) : Option UInt8 := p.rest.head?

def next (p : Parser) : Parser := ⟨p.rest.tail, p.i + 1⟩

end Parser

def failed {α : Type} (message : String) : Outcome α := .error (.error ("drv parse: " ++ message))

def charOf (b : UInt8) : Char := Char.ofNat b.toNat

def lowerHex (n : Nat) : String := String.ofList (Nat.toDigits 16 n)

/-- A Latin-1 character as Rust's `Debug` writes it between single quotes. -/
def debugChar (b : UInt8) : String :=
  if b = 0 then "\\0"
  else if b = byte '\t' then "\\t"
  else if b = byte '\n' then "\\n"
  else if b = byte '\r' then "\\r"
  else if b = byte '\'' then "\\'"
  else if b = byte '\\' then "\\\\"
  else if b < 32 ∨ (127 ≤ b ∧ b ≤ 160) ∨ b = 173 then "\\u\x7b" ++ lowerHex b.toNat ++ "\x7d"
  else String.singleton (charOf b)

def debugPeek : Option UInt8 → String
  | some b => "Some('" ++ debugChar b ++ "')"
  | none => "None"

def expect (b : UInt8) (p : Parser) : Outcome Parser :=
  if p.peek = some b then .ok p.next
  else failed ("expected '" ++ String.singleton (charOf b) ++ "' at " ++ toString p.i)

def unescape (c : UInt8) : UInt8 :=
  if c = byte 'n' then byte '\n'
  else if c = byte 'r' then byte '\r'
  else if c = byte 't' then byte '\t'
  else c

/-- The loop of `string`, up to the closing quote. -/
def stringLoop : List UInt8 → Nat → List UInt8 → Outcome (List UInt8 × Parser)
  | [], _, _ => failed "unterminated string"
  | b :: rest, i, out =>
      if b = byte '"' then .ok (out, ⟨rest, i + 1⟩)
      else if b = byte '\\' then
        match rest with
        | [] => failed "bad escape"
        | c :: rest => stringLoop rest (i + 2) (out ++ [unescape c])
      else stringLoop rest (i + 1) (out ++ [b])

def string (p : Parser) : Outcome (String × Parser) := do
  let p ← expect (byte '"') p
  let (out, p) ← stringLoop p.rest p.i []
  -- The text is UTF-8 and only ASCII bytes are dropped or put in, so that this is UTF-8 as well.
  match Encoding.ofUtf8 out with
  | some s => .ok (s, p)
  | none => failed "invalid utf-8 sequence"

/-- The items up to `close`; `loop` reads one or more. -/
def seq (loop : Parser → Outcome (List Term × Parser)) (close : UInt8) (p : Parser) :
    Outcome (List Term × Parser) :=
  if p.peek = some close then .ok ([], p.next) else loop p

mutual
def term : Nat → Parser → Outcome (Term × Parser)
  | 0, _ => .error .turns
  | turns + 1, p =>
      if p.peek = some (byte '"') then (string p).map fun r => (.str r.1, r.2)
      else if p.peek = some (byte '[') then
        (seq (seqLoop turns (byte ']') []) (byte ']') p.next).map fun r => (.list r.1, r.2)
      else if p.peek = some (byte '(') then
        (seq (seqLoop turns (byte ')') []) (byte ')') p.next).map fun r => (.tuple r.1, r.2)
      else failed ("unexpected " ++ debugPeek p.peek ++ " at " ++ toString p.i)

/-- The loop of `seq`. -/
def seqLoop : Nat → UInt8 → List Term → Parser → Outcome (List Term × Parser)
  | 0, _, _, _ => .error .turns
  | turns + 1, close, items, p =>
      match term turns p with
      | .error e => .error e
      | .ok (t, p) =>
          if p.peek = some (byte ',') then seqLoop turns close (items ++ [t]) p.next
          else if p.peek = some close then .ok (items ++ [t], p.next)
          else failed ("bad sequence at " ++ toString p.i)
end

/-! ## The fields -/

def asStr : Term → Outcome String
  | .str s => .ok s
  | _ => failed "expected string"

def asList : Term → Outcome (List Term)
  | .list l => .ok l
  | .tuple l => .ok l
  | _ => failed "expected list"

def item (t : List Term) (n : Nat) : Outcome Term :=
  match t[n]? with
  | some x => .ok x
  | none => .error .panic

def strings (t : Term) : Outcome (List String) := do (← asList t).mapM asStr

/-- `r:sha256` is `nar` and `sha256`, `sha256` is `flat` and `sha256`, `text:sha256` is `text` and
`sha256`, and the empty string is nothing. -/
def splitAlgo (a : String) : Option String × Option String :=
  if a = "" then (none, none)
  else
    match Text.splitOnce ':' a with
    | some (m, algo) => (some (if m = "r" then "nar" else m), some algo)
    | none => (some "flat", some a)

def nonEmpty (s : String) : Option String := if s = "" then none else some s

def readOutput (outputs : BTreeMap OutputInfo) (o : Term) : Outcome (BTreeMap OutputInfo) := do
  let t ← asList o
  let name ← asStr (← item t 0)
  let path ← asStr (← item t 1)
  let algo ← asStr (← item t 2)
  let hash ← asStr (← item t 3)
  let (method, hashAlgo) := splitAlgo algo
  return outputs.insert name { path := nonEmpty path, hashAlgo, method, hash := nonEmpty hash }

def readInputDrv (inputDrvs : BTreeMap InputDrv) (i : Term) : Outcome (BTreeMap InputDrv) := do
  let t ← asList i
  let path ← asStr (← item t 0)
  let outs ← strings (← item t 1)
  return inputDrvs.insert path (.structured outs (.obj []))

def readVariable (env : BTreeMap String) (e : Term) : Outcome (BTreeMap String) := do
  let t ← asList e
  return env.insert (← asStr (← item t 0)) (← asStr (← item t 1))

def readFields (name : String) (fields : List Term) : Outcome DrvInfo := do
  let outputs ← (← asList (← item fields 0)).foldlM readOutput ∅
  let inputDrvs ← (← asList (← item fields 1)).foldlM readInputDrv ∅
  let inputSrcs ← strings (← item fields 2)
  let system ← asStr (← item fields 3)
  let builder ← asStr (← item fields 4)
  let args ← strings (← item fields 5)
  let env ← (← asList (← item fields 6)).foldlM readVariable ∅
  return { name, system, builder, args, env, inputDrvs, inputSrcs, outputs }

def drvName (drvPath : String) : String :=
  Text.trimEndMatches ".drv" ((storePathName drvPath).getD "")

/-- Parse the text of a `.drv` file into the same shape `nix derivation show` gives. -/
def parseDrv (drvPath text : String) : Outcome DrvInfo :=
  let text := Text.trimEnd Text.isWhitespace text
  if !Text.startsWith "Derive(" text then .error (.error (drvPath ++ ": not a Derive(...) term"))
  else
    let bytes := (Encoding.utf8 text).drop 6
    match term (2 * bytes.length + 1) ⟨bytes, 6⟩ with
    | .error e => .error e
    | .ok (.tuple fields, _) =>
        if fields.length ≠ 7 then
          .error (.error (drvPath ++ ": expected 7 fields, got " ++ toString fields.length))
        else readFields (drvName drvPath) fields
    | .ok _ => .error (.error (drvPath ++ ": malformed Derive term"))

/-! ## The printer -/

def escapeChar (c : Char) : List Char :=
  if c = '"' then ['\\', '"']
  else if c = '\\' then ['\\', '\\']
  else if c = '\n' then ['\\', 'n']
  else if c = '\r' then ['\\', 'r']
  else if c = '\t' then ['\\', 't']
  else [c]

def quote (s : String) : String := String.ofList ('"' :: s.toList.flatMap escapeChar ++ ['"'])

mutual
def Term.print : Term → String
  | .str s => quote s
  | .list items => "[" ++ printItems items ++ "]"
  | .tuple items => "(" ++ printItems items ++ ")"

def printItems : List Term → String
  | [] => ""
  | [t] => t.print
  | t :: u :: ts => t.print ++ "," ++ printItems (u :: ts)
end

/-- The field that `splitAlgo` reads. -/
def joinAlgo : Option String → Option String → String
  | some m, some algo =>
      if m = "nar" then "r:" ++ algo
      else if m = "flat" ∧ algo ≠ "" ∧ ':' ∉ algo.toList then algo
      else m ++ ":" ++ algo
  | _, _ => ""

def outputTerm (o : String × OutputInfo) : Term :=
  .tuple [.str o.1, .str (o.2.path.getD ""), .str (joinAlgo o.2.method o.2.hashAlgo),
    .str (o.2.hash.getD "")]

def inputDrvTerm (i : String × InputDrv) : Term :=
  .tuple [.str i.1, .list (i.2.outputs.map .str)]

def variableTerm (e : String × String) : Term := .tuple [.str e.1, .str e.2]

def fieldTerms (d : DrvInfo) : List Term :=
  [.list (d.outputs.toList.map outputTerm), .list (d.inputDrvs.toList.map inputDrvTerm),
    .list (d.inputSrcs.map .str), .str d.system, .str d.builder, .list (d.args.map .str),
    .list (d.env.toList.map variableTerm)]

/-- The text of the `.drv` file of a derivation. -/
def render (d : DrvInfo) : String := "Derive" ++ (Term.tuple (fieldTerms d)).print

/-! ## Strings are read back -/

def escapeByte (b : UInt8) : List UInt8 :=
  if b = byte '"' then [byte '\\', byte '"']
  else if b = byte '\\' then [byte '\\', byte '\\']
  else if b = byte '\n' then [byte '\\', byte 'n']
  else if b = byte '\r' then [byte '\\', byte 'r']
  else if b = byte '\t' then [byte '\\', byte 't']
  else [b]

theorem stringLoop_close (rest : List UInt8) (i : Nat) (out : List UInt8) :
    stringLoop (byte '"' :: rest) i out = .ok (out, ⟨rest, i + 1⟩) := by
  rw [stringLoop.eq_def]
  exact if_pos rfl

theorem stringLoop_backslash (c : UInt8) (rest : List UInt8) (i : Nat) (out : List UInt8) :
    stringLoop (byte '\\' :: c :: rest) i out = stringLoop rest (i + 2) (out ++ [unescape c]) := by
  have hquote : byte '\\' ≠ byte '"' := by decide
  rw [stringLoop.eq_def]
  exact (if_neg hquote).trans (if_pos rfl)

theorem stringLoop_plain {b : UInt8} (hquote : b ≠ byte '"') (hback : b ≠ byte '\\')
    (rest : List UInt8) (i : Nat) (out : List UInt8) :
    stringLoop (b :: rest) i out = stringLoop rest (i + 1) (out ++ [b]) := by
  rw [stringLoop.eq_def]
  exact (if_neg hquote).trans (if_neg hback)

theorem stringLoop_escape (bs rest : List UInt8) (i : Nat) (out : List UInt8) :
    stringLoop (bs.flatMap escapeByte ++ byte '"' :: rest) i out
      = .ok (out ++ bs, ⟨rest, i + (bs.flatMap escapeByte).length + 1⟩) := by
  induction bs generalizing i out with
  | nil => simp [stringLoop_close]
  | cons b bs ih =>
      rw [List.flatMap_cons, List.append_assoc, List.length_append]
      by_cases hplain : b = byte '"' ∨ b = byte '\\' ∨ b = byte '\n' ∨ b = byte '\r' ∨ b = byte '\t'
      · -- Two bytes are printed and the second stands for `b`.
        obtain ⟨c, hc, hb⟩ : ∃ c, escapeByte b = [byte '\\', c] ∧ unescape c = b := by
          rcases hplain with rfl | rfl | rfl | rfl | rfl
          · exact ⟨byte '"', by decide, by decide⟩
          · exact ⟨byte '\\', by decide, by decide⟩
          · exact ⟨byte 'n', by decide, by decide⟩
          · exact ⟨byte 'r', by decide, by decide⟩
          · exact ⟨byte 't', by decide, by decide⟩
        rw [hc, List.cons_append, List.cons_append, List.nil_append, stringLoop_backslash,
          ih, hb, List.append_assoc, List.singleton_append]
        simp only [List.length_cons, List.length_nil]
        congr 4
        omega
      · simp only [not_or] at hplain
        have hesc : escapeByte b = [b] := by simp [escapeByte, hplain]
        rw [hesc, List.singleton_append, stringLoop_plain hplain.1 hplain.2.1, ih,
          List.append_assoc, List.singleton_append]
        simp only [List.length_singleton]
        congr 4
        omega

/-- Escaping the characters of a text escapes the bytes of its encoding. -/
theorem utf8_escape (l : List Char) :
    Encoding.utf8 (String.ofList (l.flatMap escapeChar))
      = (Encoding.utf8 (String.ofList l)).flatMap escapeByte := by
  simp only [Encoding.utf8, String.toList_ofList, List.flatMap_assoc]
  congr 1
  funext c
  by_cases hplain : c = '"' ∨ c = '\\' ∨ c = '\n' ∨ c = '\r' ∨ c = '\t'
  · rcases hplain with rfl | rfl | rfl | rfl | rfl <;> decide
  · simp only [not_or] at hplain
    have hne : ∀ b ∈ String.utf8EncodeChar c, ∀ d : Char, d.toNat < 128 → c ≠ d → b ≠ byte d := by
      rintro b hb d hd hcd rfl
      have hval : (byte d).toNat = d.toNat := by
        rw [byte, UInt8.toNat_ofNat', Nat.mod_eq_of_lt (by omega)]
      have hcode := Encoding.toNat_of_mem_utf8EncodeChar hb (by omega)
      exact hcd (Char.toNat_inj.mp (hcode.symm.trans hval))
    have hbytes : ∀ b ∈ String.utf8EncodeChar c, escapeByte b = [b] := by
      intro b hb
      rw [escapeByte, if_neg (hne b hb _ (by decide) hplain.1), if_neg (hne b hb _ (by decide) hplain.2.1),
        if_neg (hne b hb _ (by decide) hplain.2.2.1), if_neg (hne b hb _ (by decide) hplain.2.2.2.1),
        if_neg (hne b hb _ (by decide) hplain.2.2.2.2)]
    rw [List.flatMap_congr hbytes, List.flatMap_singleton']
    simp [escapeChar, hplain]

theorem utf8_quote (s : String) : Encoding.utf8 (quote s)
    = byte '"' :: (Encoding.utf8 s).flatMap escapeByte ++ [byte '"'] := by
  have hs : quote s = "\"" ++ String.ofList (s.toList.flatMap escapeChar) ++ "\"" := by
    apply String.toList_inj.mp
    simp [quote]
  have hq : Encoding.utf8 "\"" = [byte '"'] := by decide
  rw [hs, Encoding.utf8_append, Encoding.utf8_append, utf8_escape, String.ofList_toList, hq]
  rfl

theorem string_quote (s : String) (rest : List UInt8) (i : Nat) :
    string ⟨Encoding.utf8 (quote s) ++ rest, i⟩
      = .ok (s, ⟨rest, i + (Encoding.utf8 (quote s)).length⟩) := by
  have hloop := stringLoop_escape (Encoding.utf8 s) rest (i + 1) []
  simp only [utf8_quote, List.cons_append, List.append_assoc, List.nil_append] at hloop ⊢
  rw [string, expect, Parser.peek, List.head?_cons, if_pos rfl, Outcome.bind_ok, Parser.next,
    List.tail_cons, hloop, Outcome.bind_ok]
  simp only [Encoding.ofUtf8_utf8]
  simp only [List.length_cons, List.length_append, List.length_nil]
  congr 3
  omega

/-! ## Terms are read back -/

/-- A bracket that closes a sequence. -/
def Closes (b : UInt8) : Prop := b = byte ']' ∨ b = byte ')'

instance (b : UInt8) : Decidable (Closes b) := inferInstanceAs (Decidable (_ ∨ _))

theorem utf8_list (items : List Term) : Encoding.utf8 (Term.list items).print
    = byte '[' :: (Encoding.utf8 (printItems items) ++ [byte ']']) := by
  have hopen : Encoding.utf8 "[" = [byte '['] := by decide
  have hclose : Encoding.utf8 "]" = [byte ']'] := by decide
  rw [Term.print, Encoding.utf8_append, Encoding.utf8_append, hopen, hclose]
  rfl

theorem utf8_tuple (items : List Term) : Encoding.utf8 (Term.tuple items).print
    = byte '(' :: (Encoding.utf8 (printItems items) ++ [byte ')']) := by
  have hopen : Encoding.utf8 "(" = [byte '('] := by decide
  have hclose : Encoding.utf8 ")" = [byte ')'] := by decide
  rw [Term.print, Encoding.utf8_append, Encoding.utf8_append, hopen, hclose]
  rfl

/-- What opens a term closes no sequence. -/
theorem utf8_print_head (t : Term) : ∃ b bs, Encoding.utf8 t.print = b :: bs ∧ ¬ Closes b := by
  cases t with
  | str s => exact ⟨_, _, utf8_quote s, by decide⟩
  | list items => exact ⟨_, _, utf8_list items, by decide⟩
  | tuple items => exact ⟨_, _, utf8_tuple items, by decide⟩

theorem utf8_printItems_cons (t u : Term) (ts : List Term) :
    Encoding.utf8 (printItems (t :: u :: ts))
      = Encoding.utf8 t.print ++ byte ',' :: Encoding.utf8 (printItems (u :: ts)) := by
  have hcomma : Encoding.utf8 "," = [byte ','] := by decide
  rw [printItems, Encoding.utf8_append, Encoding.utf8_append, hcomma, List.append_assoc]
  rfl

theorem peek_printItems {close : UInt8} (hclose : Closes close) (t : Term) (ts : List Term)
    (rest : List UInt8) (i : Nat) :
    Parser.peek ⟨Encoding.utf8 (printItems (t :: ts)) ++ rest, i⟩ ≠ some close := by
  obtain ⟨b, bs, hb, hno⟩ := utf8_print_head t
  have hhead : ∃ bs, Encoding.utf8 (printItems (t :: ts)) = b :: bs := by
    cases ts with
    | nil => exact ⟨bs, by rw [printItems, hb]⟩
    | cons u ts => exact ⟨_, by rw [utf8_printItems_cons, hb, List.cons_append]⟩
  obtain ⟨bs, hbs⟩ := hhead
  rw [Parser.peek, hbs, List.cons_append, List.head?_cons]
  rintro ⟨⟩
  exact hno hclose

theorem seq_print {close : UInt8} (hclose : Closes close) {items : List Term} {turns : Nat}
    {rest : List UInt8} {i : Nat}
    (hloop : items ≠ [] → seqLoop turns close [] ⟨Encoding.utf8 (printItems items) ++ close :: rest, i⟩
      = .ok (items, ⟨rest, i + (Encoding.utf8 (printItems items)).length + 1⟩)) :
    seq (seqLoop turns close []) close ⟨Encoding.utf8 (printItems items) ++ close :: rest, i⟩
      = .ok (items, ⟨rest, i + (Encoding.utf8 (printItems items)).length + 1⟩) := by
  cases items with
  | nil => exact if_pos rfl
  | cons t ts => exact (if_neg (peek_printItems hclose t ts _ i)).trans (hloop (List.cons_ne_nil t ts))

/-- A printed term is read by `term turns`. -/
def ReadsTerm (turns : Nat) : Prop :=
  ∀ (t : Term) (rest : List UInt8) (i : Nat), 2 * (Encoding.utf8 t.print ++ rest).length + 1 ≤ turns →
    term turns ⟨Encoding.utf8 t.print ++ rest, i⟩
      = .ok (t, ⟨rest, i + (Encoding.utf8 t.print).length⟩)

/-- One or more printed terms are read by `seqLoop turns`. -/
def ReadsItems (turns : Nat) : Prop :=
  ∀ (close : UInt8) (ts items : List Term) (rest : List UInt8) (i : Nat), Closes close → ts ≠ [] →
    2 * (Encoding.utf8 (printItems ts) ++ close :: rest).length + 2 ≤ turns →
    seqLoop turns close items ⟨Encoding.utf8 (printItems ts) ++ close :: rest, i⟩
      = .ok (items ++ ts, ⟨rest, i + (Encoding.utf8 (printItems ts)).length + 1⟩)

theorem term_step {turns : Nat} (hitems : ReadsItems turns) : ReadsTerm (turns + 1) := by
  intro t rest i h
  cases t with
  | str s =>
      have hpeek : Parser.peek ⟨Encoding.utf8 (quote s) ++ rest, i⟩ = some (byte '"') := by
        rw [Parser.peek, utf8_quote]
        rfl
      rw [Term.print, term, if_pos hpeek, string_quote]
      rfl
  | list items =>
      have hquote : some (byte '[') ≠ some (byte '"') := by decide
      rw [utf8_list, List.cons_append, List.append_assoc, List.singleton_append] at h ⊢
      have hseq := seq_print (.inl rfl) fun hne =>
        hitems (byte ']') items [] rest (i + 1) (.inl rfl) hne (by
          simp only [List.length_cons] at h
          omega)
      rw [term, Parser.peek, List.head?_cons, if_neg hquote, if_pos rfl, Parser.next, List.tail_cons,
        hseq]
      simp only [Except.map, List.length_cons, List.length_append, List.length_nil]
      congr 3
      omega
  | tuple items =>
      have hquote : some (byte '(') ≠ some (byte '"') := by decide
      have hbracket : some (byte '(') ≠ some (byte '[') := by decide
      rw [utf8_tuple, List.cons_append, List.append_assoc, List.singleton_append] at h ⊢
      have hseq := seq_print (.inr rfl) fun hne =>
        hitems (byte ')') items [] rest (i + 1) (.inr rfl) hne (by
          simp only [List.length_cons] at h
          omega)
      rw [term, Parser.peek, List.head?_cons, if_neg hquote, if_neg hbracket, if_pos rfl, Parser.next,
        List.tail_cons, hseq]
      simp only [Except.map, List.length_cons, List.length_append, List.length_nil]
      congr 3
      omega

theorem seqLoop_step {turns : Nat} (hterm : ReadsTerm turns) (hitems : ReadsItems turns) :
    ReadsItems (turns + 1) := by
  intro close ts items rest i hclose hne h
  cases ts with
  | nil => exact absurd rfl hne
  | cons t ts =>
      cases ts with
      | nil =>
          have hcomma : some close ≠ some (byte ',') := by
            rcases hclose with rfl | rfl <;> decide
          rw [printItems] at h ⊢
          rw [seqLoop, hterm t (close :: rest) i (by omega)]
          dsimp only
          rw [Parser.peek, List.head?_cons, if_neg hcomma, if_pos rfl]
          rfl
      | cons u ts =>
          rw [utf8_printItems_cons, List.append_assoc, List.cons_append] at h ⊢
          simp only [List.length_append, List.length_cons] at h
          have ht := hterm t (byte ',' :: (Encoding.utf8 (printItems (u :: ts)) ++ close :: rest)) i (by
            simp only [List.length_append, List.length_cons]
            omega)
          have hts := hitems close (u :: ts) (items ++ [t]) rest
            (i + (Encoding.utf8 t.print).length + 1) hclose (List.cons_ne_nil u ts) (by
              simp only [List.length_append, List.length_cons]
              omega)
          rw [seqLoop, ht]
          dsimp only
          rw [Parser.peek, List.head?_cons, if_pos rfl, Parser.next, List.tail_cons, hts,
            List.append_assoc, List.singleton_append]
          simp only [List.length_append, List.length_cons]
          congr 3
          omega

/-- Two turns for each byte are enough to read what has been printed. -/
theorem reads_print (turns : Nat) : ReadsTerm turns ∧ ReadsItems turns := by
  induction turns with
  | zero => exact ⟨fun _ _ _ h => by omega, fun _ _ _ _ _ _ _ h => by omega⟩
  | succ turns ih => exact ⟨term_step ih.2, seqLoop_step ih.1 ih.2⟩

theorem term_whole (t : Term) (i : Nat) :
    term (2 * (Encoding.utf8 t.print).length + 1) ⟨Encoding.utf8 t.print, i⟩
      = .ok (t, ⟨[], i + (Encoding.utf8 t.print).length⟩) := by
  have hread := (reads_print (2 * (Encoding.utf8 t.print).length + 1)).1 t [] i
  rw [List.append_nil] at hread
  exact hread (Nat.le_refl _)

/-! ## Fields are read back -/

/-- What the format can say of an output: no empty text where nothing is an empty string, and a
method together with an algorithm or neither. `r` is not a method, it stands for `nar`. -/
structure Expressible (o : OutputInfo) : Prop where
  path : o.path ≠ some ""
  hash : o.hash ≠ some ""
  algo : (o.method = none ∧ o.hashAlgo = none) ∨
    ∃ m algo, o.method = some m ∧ o.hashAlgo = some algo ∧ ':' ∉ m.toList ∧ m ≠ "r"

theorem nonEmpty_getD {s : Option String} (h : s ≠ some "") : nonEmpty (s.getD "") = s := by
  cases s with
  | none => rfl
  | some s =>
      have hs : s ≠ "" := fun he => h (by rw [he])
      simp [nonEmpty, hs]

theorem splitAlgo_colon {m : String} (hm : ':' ∉ m.toList) (algo : String) :
    splitAlgo (m ++ ":" ++ algo) = (some (if m = "r" then "nar" else m), some algo) := by
  have hne : m ++ ":" ++ algo ≠ "" := by
    intro he
    have := congrArg String.toList he
    simp at this
  have hcolon : m ++ ":" ++ algo = m ++ String.singleton ':' ++ algo := rfl
  rw [splitAlgo, if_neg hne, hcolon, Text.splitOnce_append hm]

theorem splitAlgo_joinAlgo {o : OutputInfo} (h : Expressible o) :
    splitAlgo (joinAlgo o.method o.hashAlgo) = (o.method, o.hashAlgo) := by
  rcases h.algo with ⟨hm, ha⟩ | ⟨m, algo, hm, ha, hcolon, hr⟩
  · rw [hm, ha]
    rfl
  · rw [hm, ha, joinAlgo]
    split
    · rename_i hnar
      have hsplit := splitAlgo_colon (m := "r") (by decide) algo
      rw [hnar]
      exact hsplit
    · split
      · rename_i hflat
        obtain ⟨rfl, hne, hno⟩ := hflat
        rw [splitAlgo, if_neg hne, Text.splitOnce_eq_none.mpr hno]
      · rw [splitAlgo_colon hcolon, if_neg hr]

theorem mapM_asStr (l : List String) : (l.map Term.str).mapM asStr = .ok l := by
  induction l with
  | nil => rfl
  | cons s l ih =>
      rw [List.map_cons, List.mapM_cons, ih]
      rfl

theorem strings_map (l : List String) : strings (.list (l.map .str)) = .ok l := mapM_asStr l

theorem readOutput_outputTerm (outputs : BTreeMap OutputInfo) {o : String × OutputInfo}
    (h : Expressible o.2) : readOutput outputs (outputTerm o) = .ok (outputs.insert o.1 o.2) := by
  have hread : readOutput outputs (outputTerm o) = .ok (outputs.insert o.1
      { path := nonEmpty (o.2.path.getD "")
        hashAlgo := (splitAlgo (joinAlgo o.2.method o.2.hashAlgo)).2
        method := (splitAlgo (joinAlgo o.2.method o.2.hashAlgo)).1
        hash := nonEmpty (o.2.hash.getD "") }) := rfl
  rw [hread, splitAlgo_joinAlgo h, nonEmpty_getD h.path, nonEmpty_getD h.hash]

/-- The form in which an input derivation is read: with its outputs, and no dynamic ones. -/
def asRead (_ : String) (i : InputDrv) : InputDrv := .structured i.outputs (.obj [])

theorem readInputDrv_inputDrvTerm (inputDrvs : BTreeMap InputDrv) (i : String × InputDrv) :
    readInputDrv inputDrvs (inputDrvTerm i) = .ok (inputDrvs.insert i.1 (asRead i.1 i.2)) := by
  have hread : readInputDrv inputDrvs (inputDrvTerm i) = (do
      let outs ← strings (.list (i.2.outputs.map .str))
      return inputDrvs.insert i.1 (.structured outs (.obj []))) := rfl
  rw [hread, strings_map]
  rfl

theorem readVariable_variableTerm (env : BTreeMap String) (e : String × String) :
    readVariable env (variableTerm e) = .ok (env.insert e.1 e.2) := rfl

section Maps

variable {V W : Type} {read : BTreeMap W → Term → Outcome (BTreeMap W)} {put : String × V → Term}
  {f : String → V → W}

/-- Reading printed entries inserts them one after the other. -/
theorem foldlM_insert {l : List (String × V)}
    (h : ∀ m, ∀ kv ∈ l, read m (put kv) = .ok (m.insert kv.1 (f kv.1 kv.2))) (m : BTreeMap W) :
    (l.map put).foldlM read m = .ok (l.foldl (fun m kv => m.insert kv.1 (f kv.1 kv.2)) m) := by
  induction l generalizing m with
  | nil => rfl
  | cons kv l ih =>
      rw [List.map_cons, List.foldlM_cons, h m kv List.mem_cons_self, Outcome.bind_ok,
        ih fun m kv hkv => h m kv (List.mem_cons_of_mem _ hkv)]
      rfl

theorem getElem?_foldl_of_not_mem {l : List (String × V)} {k : String} (h : k ∉ l.map Prod.fst)
    (m : BTreeMap W) : (l.foldl (fun m kv => m.insert kv.1 (f kv.1 kv.2)) m)[k]? = m[k]? := by
  induction l generalizing m with
  | nil => rfl
  | cons kv l ih =>
      simp only [List.map_cons, List.mem_cons, not_or] at h
      rw [List.foldl_cons, ih h.2, Std.ExtTreeMap.getElem?_insert, if_neg]
      rw [compare_eq_iff_eq]
      exact Ne.symm h.1

theorem getElem?_foldl_of_mem {l : List (String × V)} (h : (l.map Prod.fst).Nodup) {k : String} {v : V}
    (hkv : (k, v) ∈ l) (m : BTreeMap W) :
    (l.foldl (fun m kv => m.insert kv.1 (f kv.1 kv.2)) m)[k]? = some (f k v) := by
  induction l generalizing m with
  | nil => cases hkv
  | cons kv l ih =>
      rw [List.map_cons, List.nodup_cons] at h
      rw [List.foldl_cons]
      rcases List.mem_cons.mp hkv with rfl | hkv
      · rw [getElem?_foldl_of_not_mem h.1, Std.ExtTreeMap.getElem?_insert_self]
      · exact ih h.2 hkv _

/-- A map that is printed entry by entry is read back. -/
theorem foldlM_toList {m : BTreeMap V}
    (h : ∀ acc, ∀ kv ∈ m.toList, read acc (put kv) = .ok (acc.insert kv.1 (f kv.1 kv.2))) :
    (m.toList.map put).foldlM read ∅ = .ok (m.map f) := by
  rw [foldlM_insert h]
  congr 1
  apply Std.ExtTreeMap.ext_getElem?
  intro k
  rw [Std.ExtTreeMap.getElem?_map]
  cases hk : m[k]? with
  | none =>
      have hno : k ∉ m.toList.map Prod.fst := by
        rw [Std.ExtTreeMap.map_fst_toList_eq_keys, Std.ExtTreeMap.mem_keys,
          Std.ExtTreeMap.mem_iff_isSome_getElem?, hk]
        exact Bool.false_ne_true
      rw [getElem?_foldl_of_not_mem hno, Std.ExtTreeMap.getElem?_empty]
      rfl
  | some v =>
      have hnodup : (m.toList.map Prod.fst).Nodup := by
        rw [Std.ExtTreeMap.map_fst_toList_eq_keys]
        exact Std.ExtTreeMap.nodup_keys
      exact getElem?_foldl_of_mem hnodup (Std.ExtTreeMap.mem_toList_iff_getElem?_eq_some.mpr hk) _

end Maps

theorem map_id {V : Type} (m : BTreeMap V) : m.map (fun _ v => v) = m := by
  apply Std.ExtTreeMap.ext_getElem?
  intro k
  rw [Std.ExtTreeMap.getElem?_map, Option.map_id']

theorem readFields_fieldTerms {d : DrvInfo} (h : ∀ (k : String) o, d.outputs[k]? = some o → Expressible o) :
    readFields d.name (fieldTerms d) = .ok { d with inputDrvs := d.inputDrvs.map asRead } := by
  have houtputs : (d.outputs.toList.map outputTerm).foldlM readOutput ∅ = .ok d.outputs := by
    rw [foldlM_toList (f := fun _ o => o), map_id]
    intro acc kv hkv
    exact readOutput_outputTerm acc (h kv.1 kv.2 (Std.ExtTreeMap.mem_toList_iff_getElem?_eq_some.mp hkv))
  have hinputs : (d.inputDrvs.toList.map inputDrvTerm).foldlM readInputDrv ∅
      = .ok (d.inputDrvs.map asRead) :=
    foldlM_toList fun acc kv _ => readInputDrv_inputDrvTerm acc kv
  have henv : (d.env.toList.map variableTerm).foldlM readVariable ∅ = .ok d.env := by
    rw [foldlM_toList (f := fun _ v => v), map_id]
    exact fun acc kv _ => readVariable_variableTerm acc kv
  have hread : readFields d.name (fieldTerms d) = (do
      let outputs ← (d.outputs.toList.map outputTerm).foldlM readOutput ∅
      let inputDrvs ← (d.inputDrvs.toList.map inputDrvTerm).foldlM readInputDrv ∅
      let inputSrcs ← strings (.list (d.inputSrcs.map .str))
      let args ← strings (.list (d.args.map .str))
      let env ← (d.env.toList.map variableTerm).foldlM readVariable ∅
      return { d with args, env, inputDrvs, inputSrcs, outputs }) := rfl
  rw [hread, houtputs, hinputs, strings_map, strings_map, henv]
  rfl

/-- The path of a derivation in the store. -/
def drvPathOf (hash name : String) : String := "/nix/store/" ++ hash ++ "-" ++ name ++ ".drv"

theorem drvName_drvPathOf {hash name : String} (hhash : '-' ∉ hash.toList ∧ '/' ∉ hash.toList)
    (hname : '/' ∉ name.toList) (hdrv : Text.endsWith ".drv" name = false) :
    drvName (drvPathOf hash name) = name := by
  have hbase : '/' ∉ (hash ++ String.singleton '-' ++ (name ++ ".drv")).toList := by
    simp only [String.toList_append, List.mem_append, not_or]
    exact ⟨⟨hhash.2, by decide⟩, hname, by decide⟩
  have hpath : drvPathOf hash name
      = "/nix/store" ++ String.singleton '/' ++ (hash ++ String.singleton '-' ++ (name ++ ".drv")) := by
    apply String.toList_inj.mp
    simp [drvPathOf]
  have hpart : storePathName (drvPathOf hash name) = some (name ++ ".drv") := by
    rw [storePathName, hpath, Text.lastPart_append hbase, Text.splitOnce_append hhash.1]
    rfl
  rw [drvName, hpart, Option.getD_some, Text.trimEndMatches_append (by decide) hdrv]

theorem trimEnd_render (d : DrvInfo) : Text.trimEnd Text.isWhitespace (render d) = render d := by
  have hlast : (render d).toList = ("Derive(" ++ printItems (fieldTerms d)).toList ++ [')'] := by
    rw [render, Term.print]
    simp
  exact Text.trimEnd_of_last hlast (by decide)

theorem startsWith_render (d : DrvInfo) : Text.startsWith "Derive(" (render d) = true := by
  have happ : (render d).toList = "Derive(".toList ++ (printItems (fieldTerms d) ++ ")").toList := by
    rw [render, Term.print]
    simp
  rw [Text.startsWith, happ, List.isPrefixOf_iff_prefix]
  exact List.prefix_append _ _

/-- A derivation is read back from the text of its `.drv` file. Its input derivations are read with
their outputs; they are read as they were when they were given so. -/
theorem parseDrv_render {hash : String} {d : DrvInfo}
    (hhash : '-' ∉ hash.toList ∧ '/' ∉ hash.toList) (hname : '/' ∉ d.name.toList)
    (hdrv : Text.endsWith ".drv" d.name = false)
    (houtputs : ∀ (k : String) o, d.outputs[k]? = some o → Expressible o) :
    parseDrv (drvPathOf hash d.name) (render d) = .ok { d with inputDrvs := d.inputDrvs.map asRead } ∧
      ((∀ (k : String) i, d.inputDrvs[k]? = some i → i = asRead k i) →
        parseDrv (drvPathOf hash d.name) (render d) = .ok d) := by
  have hparse : parseDrv (drvPathOf hash d.name) (render d)
      = .ok { d with inputDrvs := d.inputDrvs.map asRead } := by
    have hbytes : (Encoding.utf8 (render d)).drop 6
        = Encoding.utf8 (Term.tuple (fieldTerms d)).print := by
      have hderive : Encoding.utf8 "Derive" = [68, 101, 114, 105, 118, 101] := by decide
      rw [render, Encoding.utf8_append, hderive]
      rfl
    have hterm := term_whole (.tuple (fieldTerms d)) 6
    rw [parseDrv, trimEnd_render, startsWith_render]
    simp only [Bool.not_true, Bool.false_eq_true, ↓reduceIte, hbytes, hterm]
    rw [drvName_drvPathOf hhash hname hdrv, readFields_fieldTerms houtputs]
    exact if_neg fun hlen => hlen rfl
  refine ⟨hparse, fun hinputs => ?_⟩
  have hmap : d.inputDrvs.map asRead = d.inputDrvs := by
    apply Std.ExtTreeMap.ext_getElem?
    intro k
    rw [Std.ExtTreeMap.getElem?_map]
    cases hk : d.inputDrvs[k]? with
    | none => rfl
    | some i => exact congrArg some (hinputs k i hk).symm
  rw [hparse, hmap]

/-- A derivation with an input, a source, text to escape and an output that is not yet known. -/
def echoDrv : DrvInfo where
  name := "x"
  system := "x86_64-linux"
  builder := "/bin/sh"
  args := ["-c", "echo \"hi\\n\""]
  env := (∅ : BTreeMap String).insert "name" "x"
  inputDrvs := (∅ : BTreeMap InputDrv).insert
    "/nix/store/bbbbbbbbbbbbbbbbbbbbbbbbbbbbbbbb-y.drv" (.structured ["out", "dev"] (.obj []))
  inputSrcs := ["/nix/store/cccccccccccccccccccccccccccccccc-s"]
  outputs := (∅ : BTreeMap OutputInfo).insert "out" { hashAlgo := some "sha256", method := some "nar" }

theorem parseDrv_render_echo :
    parseDrv (drvPathOf "dddddddddddddddddddddddddddddddd" "x") (render echoDrv) = .ok echoDrv := by
  refine (parseDrv_render (d := echoDrv) ⟨by decide, by decide⟩ (by decide) (by decide) ?_).2 ?_
  · intro k o ho
    have hout : (if compare "out" k = .eq then some _ else (∅ : BTreeMap OutputInfo)[k]?) = some o :=
      Std.ExtTreeMap.getElem?_insert.symm.trans ho
    split at hout
    · cases hout
      exact ⟨by decide, by decide, .inr ⟨"nar", "sha256", rfl, rfl, by decide, by decide⟩⟩
    · rw [Std.ExtTreeMap.getElem?_empty] at hout
      cases hout
  · intro k i hi
    have hin : (if compare _ k = .eq then some _ else (∅ : BTreeMap InputDrv)[k]?) = some i :=
      Std.ExtTreeMap.getElem?_insert.symm.trans hi
    split at hin
    · cases hin
      rfl
    · rw [Std.ExtTreeMap.getElem?_empty] at hin
      cases hin

end Nix2Rdf.DrvFile
