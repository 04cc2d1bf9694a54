import Nix2Rdf.Lib.Text

/-!
# Byte encodings of text

UTF-8, percent-encoding and Base64. Percent-encoding keeps a set of ASCII bytes and writes every
other byte as `%` and two hexadecimal digits.
-/

namespace Encoding

/-! ## UTF-8 -/

def utf8 (s : String) : List UInt8 := s.toList.flatMap String.utf8EncodeChar

theorem utf8_injective : Function.Injective utf8 := by
  intro s t h
  have hbytes : s.toList.utf8Encode = t.toList.utf8Encode := by
    exact congrArg List.toByteArray h
  have hof : String.ofList s.toList = String.ofList t.toList :=
    String.toByteArray_inj.mp (by simpa using hbytes)
  simpa using hof

@[simp] theorem utf8_append (s t : String) : utf8 (s ++ t) = utf8 s ++ utf8 t := by simp [utf8]

theorem val_lt (c : Char) : c.val.toNat < 1114112 := by
  have hvalid : Nat.isValidChar c.val.toNat := c.valid
  unfold Nat.isValidChar at hvalid
  omega

/-- The bytes of two characters differ as the characters do, whatever follows them. -/
theorem utf8EncodeChar_lt {c d : Char} (h : c < d) (r s : List UInt8) :
    String.utf8EncodeChar c ++ r < String.utf8EncodeChar d ++ s := by
  have hcode : c.val.toNat < d.val.toNat := UInt32.lt_iff_toNat_lt.mp h
  have hc := val_lt c
  have hd := val_lt d
  have hcont : ∀ n : Nat, (n % 64 + 128) % 2 ^ 8 = n % 64 + 128 := fun n => Nat.mod_eq_of_lt (by omega)
  have hdiv : ∀ {m n : Nat}, m ≤ n → m / 64 ≤ n / 64 := fun hle => Nat.div_le_div_right hle
  have hfirst := hdiv hcode.le
  have hsecond := hdiv hfirst
  have hthird := hdiv hsecond
  have hdigit : ∀ n : Nat, n / 4096 = n / 64 / 64 ∧ n / 262144 = n / 64 / 64 / 64 := fun n => by omega
  simp only [String.utf8EncodeChar]
  split_ifs <;>
    simp only [List.cons_append, List.nil_append, List.cons_lt_cons_iff, UInt8.lt_iff_toNat_lt, ← UInt8.toNat_inj,
      UInt8.toNat_ofNat', hcont, hdigit] <;> omega

/-- The order of texts is that of their bytes. -/
theorem utf8_lt {s t : String} (h : s < t) : utf8 s < utf8 t := by
  have hlist : ∀ l m : List Char, l < m → l.flatMap String.utf8EncodeChar < m.flatMap String.utf8EncodeChar := by
    intro l m hlt
    induction hlt with
    | nil =>
      rw [List.flatMap_nil, List.flatMap_cons]
      cases hd : String.utf8EncodeChar _ with
      | nil => exact absurd hd String.utf8EncodeChar_ne_nil
      | cons b bs => exact List.nil_lt_cons _ _
    | rel hcd =>
      rw [List.flatMap_cons, List.flatMap_cons]
      exact utf8EncodeChar_lt hcd _ _
    | cons _ ih =>
      rw [List.flatMap_cons, List.flatMap_cons]
      exact List.append_left_lt ih
  exact hlist _ _ h

def ofUtf8 (bs : List UInt8) : Option String := String.fromUTF8? bs.toByteArray

theorem ofUtf8_utf8 (s : String) : ofUtf8 (utf8 s) = some s := by
  have hbytes : (utf8 s).toByteArray = s.toByteArray := by
    have hs : s.toList.utf8Encode = s.toByteArray := by
      rw [← String.toByteArray_ofList, String.ofList_toList]
    exact hs
  rw [ofUtf8, hbytes, String.fromUTF8?, dif_pos s.isValidUTF8]
  rfl

/-- Of the bytes of a character only those of the ASCII range are small. -/
theorem toNat_of_mem_utf8EncodeChar {b : UInt8} {c : Char} (h : b ∈ String.utf8EncodeChar c)
    (hb : b.toNat < 128) : b.toNat = c.toNat := by
  unfold String.utf8EncodeChar at h
  dsimp only at h
  split at h
  · rw [List.mem_singleton] at h
    rw [h, UInt8.toNat_ofNat', Nat.mod_eq_of_lt (by omega)]
    rfl
  · split at h
    · simp only [List.mem_cons, List.not_mem_nil, or_false] at h
      rcases h with rfl | rfl <;> simp only [UInt8.toNat_ofNat'] at hb <;> omega
    · split at h
      · simp only [List.mem_cons, List.not_mem_nil, or_false] at h
        rcases h with rfl | rfl | rfl <;> simp only [UInt8.toNat_ofNat'] at hb <;> omega
      · simp only [List.mem_cons, List.not_mem_nil, or_false] at h
        rcases h with rfl | rfl | rfl | rfl <;> simp only [UInt8.toNat_ofNat'] at hb <;> omega

/-- A byte of the ASCII range stands for its character. -/
theorem mem_of_mem_utf8 {b : UInt8} {s : String} (h : b ∈ utf8 s) (hb : b.toNat < 128) :
    Char.ofNat b.toNat ∈ s.toList := by
  obtain ⟨c, hc, h⟩ := List.mem_flatMap.mp h
  rw [toNat_of_mem_utf8EncodeChar h hb, Char.ofNat_toNat]
  exact hc

theorem utf8EncodeChar_ascii {c : Char} (h : c.toNat < 128) :
    String.utf8EncodeChar c = [UInt8.ofNat c.toNat] := by
  have hval : c.val.toNat ≤ 127 := by
    change c.toNat ≤ 127
    omega
  rw [String.utf8EncodeChar.eq_def]
  exact if_pos hval

/-- A text whose bytes start with those of ASCII characters starts with these. -/
theorem eq_append_of_utf8 {p : List Char} (hp : ∀ c ∈ p, c.toNat < 128) {l : List Char} {rest : List UInt8}
    (h : l.flatMap String.utf8EncodeChar = p.flatMap String.utf8EncodeChar ++ rest) :
    ∃ l', l = p ++ l' ∧ l'.flatMap String.utf8EncodeChar = rest := by
  induction p generalizing l with
  | nil => exact ⟨l, rfl, h⟩
  | cons c p ih =>
      have hc : c.toNat < 128 := hp c List.mem_cons_self
      rw [List.flatMap_cons, utf8EncodeChar_ascii hc, List.singleton_append, List.cons_append] at h
      cases l with
      | nil => cases h
      | cons d l =>
          have hfirst : UInt8.ofNat c.toNat ∈ String.utf8EncodeChar d := by
            rw [List.flatMap_cons] at h
            cases hd : String.utf8EncodeChar d with
            | nil => exact absurd hd (List.ne_nil_of_length_pos (by
                rw [String.length_utf8EncodeChar]
                exact d.utf8Size_pos))
            | cons b bs =>
                rw [hd, List.cons_append, List.cons.injEq] at h
                rw [h.1]
                exact List.mem_cons_self
          have hbyte : (UInt8.ofNat c.toNat).toNat = c.toNat := by
            rw [UInt8.toNat_ofNat', Nat.mod_eq_of_lt (by omega)]
          have hval := toNat_of_mem_utf8EncodeChar hfirst (by rw [hbyte]; exact hc)
          have hdc : c = d := Char.toNat_inj.mp (by rw [← hval, hbyte])
          subst hdc
          rw [List.flatMap_cons, utf8EncodeChar_ascii hc, List.singleton_append, List.cons.injEq] at h
          obtain ⟨l', rfl, hrest⟩ := ih (fun c hc => hp c (List.mem_cons_of_mem _ hc)) h.2
          exact ⟨l', rfl, hrest⟩

/-! ### Bytes that may be no text -/

def isContinuation (b : UInt8) : Bool := 128 ≤ b && b < 192

/-- No character starts with a byte that continues one. -/
theorem head_utf8EncodeChar (c : Char) : (String.utf8EncodeChar c).head?.any isContinuation = false := by
  have hsmall : ∀ n : Nat, n ≤ 127 → isContinuation (UInt8.ofNat n) = false := by decide
  have hlead : ∀ n : Nat, 192 ≤ n → n < 256 → isContinuation (UInt8.ofNat n) = false := by
    intro n hlo hhi
    rw [isContinuation, Bool.and_eq_false_iff, decide_eq_false_iff_not, decide_eq_false_iff_not]
    refine .inr fun hlt => ?_
    rw [UInt8.lt_iff_toNat_lt, UInt8.toNat_ofNat', Nat.mod_eq_of_lt hhi] at hlt
    exact absurd hlt (by simpa using hlo)
  unfold String.utf8EncodeChar
  dsimp only
  split
  · exact hsmall _ ‹_›
  · split
    · exact hlead _ (by omega) (by omega)
    · split
      · exact hlead _ (by omega) (by omega)
      · exact hlead _ (by omega) (by omega)

/-- The second bytes that may follow a first one. -/
def followsLead (lead b : UInt8) : Bool :=
  if lead = 224 then 160 ≤ b && b < 192
  else if lead = 237 then 128 ≤ b && b < 160
  else if lead = 240 then 144 ≤ b && b < 192
  else if lead = 244 then 128 ≤ b && b < 144
  else 194 ≤ lead && lead < 244 && isContinuation b

/-- The length of the longest start that a character could have, where no character stands. -/
def invalidLength : List UInt8 → Nat
  | lead :: b :: rest =>
      if !followsLead lead b then 1
      else if 240 ≤ lead && rest.head?.any isContinuation then 3
      else 2
  | _ => 1

/-- The character that the bytes start with, and the number of its bytes. -/
def decodeChar (bs : List UInt8) : Option (Char × Nat) :=
  [1, 2, 3, 4].findSome? fun k =>
    match (ofUtf8 (bs.take k)).map String.toList with
    | some [c] => some (c, k)
    | _ => none

def lossyChars : Nat → List UInt8 → List Char
  | 0, _ => []
  | _, [] => []
  | turns + 1, bs =>
      match decodeChar bs with
      | some (c, k) => c :: lossyChars turns (bs.drop k)
      | none => Char.ofNat 0xfffd :: lossyChars turns (bs.drop (invalidLength bs))

/-- The text, with a replacement character where the bytes are not UTF-8. -/
def fromUtf8Lossy (bs : List UInt8) : String :=
  match ofUtf8 bs with
  | some s => s
  | none => String.ofList (lossyChars bs.length bs)

theorem fromUtf8Lossy_utf8 (s : String) : fromUtf8Lossy (utf8 s) = s := by
  rw [fromUtf8Lossy, ofUtf8_utf8]

/-! ### Slices -/

/-- Text may be cut before a character and at its end. -/
def atBoundary (rest : List UInt8) : Bool := !rest.head?.any isContinuation

/-- The text between two byte offsets, if it may be cut at both. -/
def slice (s : String) (i j : Nat) : Option String :=
  let bs := utf8 s
  if i ≤ j ∧ j ≤ bs.length ∧ atBoundary (bs.drop i) ∧ atBoundary (bs.drop j) then ofUtf8 ((bs.drop i).take (j - i))
  else none

theorem atBoundary_utf8 (s : String) : atBoundary (utf8 s) = true := by
  rw [atBoundary, utf8]
  cases s.toList with
  | nil => rfl
  | cons c l =>
      have hne : String.utf8EncodeChar c ≠ [] := List.ne_nil_of_length_pos (by
        rw [String.length_utf8EncodeChar]
        exact c.utf8Size_pos)
      rw [List.flatMap_cons, List.head?_append_of_ne_nil _ hne, head_utf8EncodeChar, Bool.not_false]

theorem slice_append (a b c : String) :
    slice (a ++ b ++ c) (utf8 a).length ((utf8 a).length + (utf8 b).length) = some b := by
  have hi : (utf8 (a ++ b ++ c)).drop (utf8 a).length = utf8 (b ++ c) := by
    rw [String.append_assoc, utf8_append, List.drop_left]
  have hj : (utf8 (a ++ b ++ c)).drop ((utf8 a).length + (utf8 b).length) = utf8 c := by
    rw [← List.length_append, ← utf8_append, utf8_append (a ++ b), List.drop_left]
  have hlen : (utf8 a).length + (utf8 b).length ≤ (utf8 (a ++ b ++ c)).length := by
    rw [utf8_append, utf8_append, List.length_append, List.length_append]
    omega
  rw [slice, hi, hj, if_pos ⟨Nat.le_add_right _ _, hlen, atBoundary_utf8 _, atBoundary_utf8 _⟩,
    Nat.add_sub_cancel_left, utf8_append, List.take_left, ofUtf8_utf8]

/-! ## Percent-encoding -/

def upperHex (n : Nat) : Char := if n < 10 then Char.ofNat (48 + n) else Char.ofNat (55 + n)

def hexValue (c : Char) : Nat := if c.toNat < 58 then c.toNat - 48 else c.toNat - 55

def percentByte (safe : UInt8 → Bool) (b : UInt8) : List Char :=
  if safe b then [Char.ofNat b.toNat] else ['%', upperHex (b.toNat / 16), upperHex (b.toNat % 16)]

def percentBytes (safe : UInt8 → Bool) (bs : List UInt8) : List Char := bs.flatMap (percentByte safe)

def percentEncode (safe : UInt8 → Bool) (s : String) : String :=
  String.ofList (percentBytes safe (utf8 s))

/-- Read the first encoded byte back. -/
def unpercent : List Char → Option (UInt8 × List Char)
  | '%' :: h :: l :: cs => some (UInt8.ofNat (16 * hexValue h + hexValue l), cs)
  | c :: cs => some (UInt8.ofNat c.toNat, cs)
  | [] => none

theorem hexValue_upperHex : ∀ {n : Nat}, n < 16 → hexValue (upperHex n) = n := by decide

theorem byte_toNat (b : UInt8) : (Char.ofNat b.toNat).toNat = b.toNat := by
  have hb := UInt8.toNat_lt_size b
  have hv : Nat.isValidChar b.toNat := Or.inl (by simp only [UInt8.size] at hb; omega)
  rw [Char.ofNat, dif_pos hv]
  rfl

variable {safe : UInt8 → Bool}

/-- `%` itself is never kept. -/
def Escapes (safe : UInt8 → Bool) : Prop := safe 37 = false

theorem unpercent_percentByte (hs : Escapes safe) (b : UInt8) (cs : List Char) :
    unpercent (percentByte safe b ++ cs) = some (b, cs) := by
  by_cases hb : safe b
  · have hne : Char.ofNat b.toNat ≠ '%' := by
      intro he
      have h37 : b.toNat = 37 := by rw [← byte_toNat b, he]; rfl
      rw [Escapes, ← UInt8.toNat_inj.mp (show b.toNat = (37 : UInt8).toNat from h37), hb] at hs
      cases hs
    simp only [percentByte, hb, ↓reduceIte, List.cons_append, List.nil_append]
    rw [unpercent.eq_def]
    split
    · rename_i he; simp only [List.cons.injEq] at he; exact absurd he.1 hne
    · rename_i he
      simp only [List.cons.injEq] at he
      obtain ⟨rfl, rfl⟩ := he
      simp [byte_toNat]
    · simp at *
  · have hhi : b.toNat / 16 < 16 := by have := UInt8.toNat_lt_size b; simp only [UInt8.size] at this; omega
    have hlo : b.toNat % 16 < 16 := Nat.mod_lt _ (by omega)
    simp only [percentByte, hb, Bool.false_eq_true, ↓reduceIte, List.cons_append, List.nil_append,
      unpercent, hexValue_upperHex hhi, hexValue_upperHex hlo, Nat.div_add_mod]
    simp

theorem percentBytes_injective (hs : Escapes safe) {as bs : List UInt8}
    (h : percentBytes safe as = percentBytes safe bs) : as = bs := by
  induction as generalizing bs with
  | nil =>
      cases bs with
      | nil => rfl
      | cons b bs =>
          have hb := unpercent_percentByte hs b (percentBytes safe bs)
          simp only [percentBytes, List.flatMap_nil, List.flatMap_cons] at h hb
          rw [← h] at hb
          cases hb
  | cons a as ih =>
      have ha := unpercent_percentByte hs a (percentBytes safe as)
      cases bs with
      | nil =>
          simp only [percentBytes, List.flatMap_nil, List.flatMap_cons] at h ha
          rw [h] at ha
          cases ha
      | cons b bs =>
          have hb := unpercent_percentByte hs b (percentBytes safe bs)
          simp only [percentBytes, List.flatMap_cons] at h ha hb ih
          rw [h, hb] at ha
          simp only [Option.some.injEq, Prod.mk.injEq] at ha
          rw [ha.1, ih ha.2.symm]

theorem percentEncode_injective (hs : Escapes safe) : Function.Injective (percentEncode safe) := by
  intro s t h
  exact utf8_injective (percentBytes_injective hs (String.ofList_injective h))

/-- A character of the encoded text is a kept byte, `%` or a digit. -/
theorem mem_percentBytes {c : Char} {bs : List UInt8} (h : c ∈ percentBytes safe bs) :
    (∃ b ∈ bs, safe b ∧ c = Char.ofNat b.toNat) ∨ c = '%' ∨ ∃ n < 16, c = upperHex n := by
  obtain ⟨b, hmem, hc⟩ := List.mem_flatMap.mp h
  by_cases hb : safe b
  · simp only [percentByte, hb, ↓reduceIte, List.mem_singleton] at hc
    exact Or.inl ⟨b, hmem, hb, hc⟩
  · simp only [percentByte, hb, Bool.false_eq_true, ↓reduceIte, List.mem_cons, List.not_mem_nil,
      or_false] at hc
    have hlt : b.toNat < 256 := UInt8.toNat_lt_size b
    rcases hc with hc | hc | hc
    · exact Or.inr (Or.inl hc)
    · exact Or.inr (Or.inr ⟨_, by omega, hc⟩)
    · exact Or.inr (Or.inr ⟨_, Nat.mod_lt _ (by omega), hc⟩)

/-- The bytes of an encoded byte. -/
def percentOctets (safe : UInt8 → Bool) (b : UInt8) : List UInt8 :=
  if safe b then [b]
  else [37, UInt8.ofNat (upperHex (b.toNat / 16)).toNat, UInt8.ofNat (upperHex (b.toNat % 16)).toNat]

theorem upperHex_ascii : ∀ {n : Nat}, n < 16 → (upperHex n).toNat < 128 := by decide

theorem utf8_percentBytes (hascii : ∀ b, safe b → b.toNat < 128) (bs : List UInt8) :
    utf8 (String.ofList (percentBytes safe bs)) = bs.flatMap (percentOctets safe) := by
  rw [utf8, String.toList_ofList, percentBytes, List.flatMap_assoc]
  congr 1
  funext b
  have hlt : b.toNat < 256 := UInt8.toNat_lt_size b
  by_cases hb : safe b
  · have hchar : (Char.ofNat b.toNat).toNat < 128 := by
      rw [byte_toNat]
      exact hascii b hb
    rw [percentByte, percentOctets, if_pos hb, if_pos hb, List.flatMap_singleton,
      utf8EncodeChar_ascii hchar, byte_toNat, UInt8.ofNat_toNat]
  · have hpercent : String.utf8EncodeChar '%' = [37] := by decide
    rw [percentByte, percentOctets, if_neg hb, if_neg hb]
    simp only [List.flatMap_cons, List.flatMap_nil, hpercent,
      utf8EncodeChar_ascii (upperHex_ascii (n := b.toNat / 16) (by omega)),
      utf8EncodeChar_ascii (upperHex_ascii (n := b.toNat % 16) (by omega))]
    rfl

/-! ## Base64 -/

def base64Digit (c62 c63 : Char) (n : Nat) : Char :=
  if n < 26 then Char.ofNat (65 + n)
  else if n < 52 then Char.ofNat (71 + n)
  else if n < 62 then Char.ofNat (n - 4)
  else if n = 62 then c62 else c63

def base64Value (c62 c63 : Char) (c : Char) : Option Nat :=
  let n := c.toNat
  if 65 ≤ n ∧ n ≤ 90 then some (n - 65)
  else if 97 ≤ n ∧ n ≤ 122 then some (n - 71)
  else if 48 ≤ n ∧ n ≤ 57 then some (n + 4)
  else if c = c62 then some 62
  else if c = c63 then some 63
  else none

/-- The URL-safe alphabet, without padding. -/
def base64Url : List UInt8 → List Char
  | a :: b :: c :: rest =>
      let v := a.toNat * 65536 + b.toNat * 256 + c.toNat
      base64Digit '-' '_' (v / 262144) :: base64Digit '-' '_' (v / 4096 % 64) ::
        base64Digit '-' '_' (v / 64 % 64) :: base64Digit '-' '_' (v % 64) :: base64Url rest
  | [a, b] =>
      let v := a.toNat * 1024 + b.toNat * 4
      [base64Digit '-' '_' (v / 4096), base64Digit '-' '_' (v / 64 % 64), base64Digit '-' '_' (v % 64)]
  | [a] => [base64Digit '-' '_' (a.toNat / 4), base64Digit '-' '_' (a.toNat % 4 * 16)]
  | [] => []

theorem mem_base64Url {bs : List UInt8} {c : Char} (h : c ∈ base64Url bs) :
    ∃ n < 64, c = base64Digit '-' '_' n := by
  fun_induction base64Url bs with
  | case1 a b d rest v ih =>
      have ha := a.toNat_lt
      have hb := b.toNat_lt
      have hd := d.toNat_lt
      have hv : v = a.toNat * 65536 + b.toNat * 256 + d.toNat := rfl
      simp only [List.mem_cons] at h
      rcases h with rfl | rfl | rfl | rfl | h
      · exact ⟨_, by omega, rfl⟩
      · exact ⟨_, by omega, rfl⟩
      · exact ⟨_, by omega, rfl⟩
      · exact ⟨_, by omega, rfl⟩
      · exact ih h
  | case2 a b v =>
      have ha := a.toNat_lt
      have hb := b.toNat_lt
      have hv : v = a.toNat * 1024 + b.toNat * 4 := rfl
      simp only [List.mem_cons, List.not_mem_nil, or_false] at h
      rcases h with rfl | rfl | rfl
      · exact ⟨_, by omega, rfl⟩
      · exact ⟨_, by omega, rfl⟩
      · exact ⟨_, by omega, rfl⟩
  | case3 a =>
      have ha := a.toNat_lt
      simp only [List.mem_cons, List.not_mem_nil, or_false] at h
      rcases h with rfl | rfl
      · exact ⟨_, by omega, rfl⟩
      · exact ⟨_, by omega, rfl⟩
  | case4 => cases h

/-- The standard alphabet, with its padding and with no bit set that belongs to no byte. -/
def unbase64 : List Char → Option (List UInt8)
  | [] => some []
  | [a, b, '=', '='] => do
      let x ← base64Value '+' '/' a
      let y ← base64Value '+' '/' b
      if y % 16 = 0 then some [UInt8.ofNat (x * 4 + y / 16)] else none
  | [a, b, c, '='] => do
      let x ← base64Value '+' '/' a
      let y ← base64Value '+' '/' b
      let z ← base64Value '+' '/' c
      if z % 4 = 0 then
        some [UInt8.ofNat (x * 4 + y / 16), UInt8.ofNat (y % 16 * 16 + z / 4)]
      else none
  | a :: b :: c :: d :: rest => do
      let x ← base64Value '+' '/' a
      let y ← base64Value '+' '/' b
      let z ← base64Value '+' '/' c
      let w ← base64Value '+' '/' d
      let bytes ← unbase64 rest
      some (UInt8.ofNat (x * 4 + y / 16) :: UInt8.ofNat (y % 16 * 16 + z / 4) ::
        UInt8.ofNat (z % 4 * 64 + w) :: bytes)
  | _ => none

/-- The standard alphabet, with padding. -/
def base64 : List UInt8 → List Char
  | a :: b :: c :: rest =>
      let v := a.toNat * 65536 + b.toNat * 256 + c.toNat
      base64Digit '+' '/' (v / 262144) :: base64Digit '+' '/' (v / 4096 % 64) ::
        base64Digit '+' '/' (v / 64 % 64) :: base64Digit '+' '/' (v % 64) :: base64 rest
  | [a, b] =>
      let v := a.toNat * 1024 + b.toNat * 4
      [base64Digit '+' '/' (v / 4096), base64Digit '+' '/' (v / 64 % 64),
        base64Digit '+' '/' (v % 64), '=']
  | [a] => [base64Digit '+' '/' (a.toNat / 4), base64Digit '+' '/' (a.toNat % 4 * 16), '=', '=']
  | [] => []

/-- The URL-safe alphabet without padding, with no bit set that belongs to no byte. -/
def unbase64Url : List Char → Option (List UInt8)
  | a :: b :: c :: d :: rest => do
      let x ← base64Value '-' '_' a
      let y ← base64Value '-' '_' b
      let z ← base64Value '-' '_' c
      let w ← base64Value '-' '_' d
      let bytes ← unbase64Url rest
      some (UInt8.ofNat (x * 4 + y / 16) :: UInt8.ofNat (y % 16 * 16 + z / 4) ::
        UInt8.ofNat (z % 4 * 64 + w) :: bytes)
  | [a, b, c] => do
      let x ← base64Value '-' '_' a
      let y ← base64Value '-' '_' b
      let z ← base64Value '-' '_' c
      if z % 4 = 0 then
        some [UInt8.ofNat (x * 4 + y / 16), UInt8.ofNat (y % 16 * 16 + z / 4)]
      else none
  | [a, b] => do
      let x ← base64Value '-' '_' a
      let y ← base64Value '-' '_' b
      if y % 16 = 0 then some [UInt8.ofNat (x * 4 + y / 16)] else none
  | [_] => none
  | [] => some []

theorem base64Value_digit : ∀ n < 64, base64Value '+' '/' (base64Digit '+' '/' n) = some n := by
  decide

theorem base64Value_digitUrl : ∀ n < 64, base64Value '-' '_' (base64Digit '-' '_' n) = some n := by
  decide

theorem base64Digit_ne_pad : ∀ n < 64, base64Digit '+' '/' n ≠ '=' := by decide

theorem ofNat_eq {a : UInt8} {n : Nat} (h : n = a.toNat) : UInt8.ofNat n = a := by
  rw [h, UInt8.ofNat_toNat]

theorem unbase64Url_base64Url (bs : List UInt8) : unbase64Url (base64Url bs) = some bs := by
  fun_induction base64Url bs with
  | case1 a b c rest v ih =>
      have ha : a.toNat < 256 := UInt8.toNat_lt_size a
      have hb : b.toNat < 256 := UInt8.toNat_lt_size b
      have hc : c.toNat < 256 := UInt8.toNat_lt_size c
      have hv : v = a.toNat * 65536 + b.toNat * 256 + c.toNat := rfl
      rw [unbase64Url, base64Value_digitUrl _ (by omega), base64Value_digitUrl _ (by omega),
        base64Value_digitUrl _ (by omega), base64Value_digitUrl _ (by omega), ih]
      simp only [Option.bind_eq_bind, Option.bind_some]
      rw [ofNat_eq (a := a) (by omega), ofNat_eq (a := b) (by omega), ofNat_eq (a := c) (by omega)]
  | case2 a b v =>
      have ha : a.toNat < 256 := UInt8.toNat_lt_size a
      have hb : b.toNat < 256 := UInt8.toNat_lt_size b
      have hv : v = a.toNat * 1024 + b.toNat * 4 := rfl
      rw [unbase64Url, base64Value_digitUrl _ (by omega), base64Value_digitUrl _ (by omega),
        base64Value_digitUrl _ (by omega)]
      simp only [Option.bind_eq_bind, Option.bind_some]
      rw [if_pos (by omega), ofNat_eq (a := a) (by omega), ofNat_eq (a := b) (by omega)]
  | case3 a =>
      have ha : a.toNat < 256 := UInt8.toNat_lt_size a
      rw [unbase64Url, base64Value_digitUrl _ (by omega), base64Value_digitUrl _ (by omega)]
      simp only [Option.bind_eq_bind, Option.bind_some]
      rw [if_pos (by omega), ofNat_eq (a := a) (by omega)]
  | case4 => rfl

theorem unbase64_base64 (bs : List UInt8) : unbase64 (base64 bs) = some bs := by
  fun_induction base64 bs with
  | case1 a b c rest v ih =>
      have ha : a.toNat < 256 := UInt8.toNat_lt_size a
      have hb : b.toNat < 256 := UInt8.toNat_lt_size b
      have hc : c.toNat < 256 := UInt8.toNat_lt_size c
      have hv : v = a.toNat * 65536 + b.toNat * 256 + c.toNat := rfl
      have hpad : ∀ n < 64, base64Digit '+' '/' n ≠ '=' := base64Digit_ne_pad
      rw [unbase64, base64Value_digit _ (by omega), base64Value_digit _ (by omega),
        base64Value_digit _ (by omega), base64Value_digit _ (by omega), ih]
      · simp only [Option.bind_eq_bind, Option.bind_some]
        rw [ofNat_eq (a := a) (by omega), ofNat_eq (a := b) (by omega), ofNat_eq (a := c) (by omega)]
      · exact fun _ h _ => hpad _ (by omega) h
      · exact fun h _ => hpad _ (by omega) h
  | case2 a b v =>
      have ha : a.toNat < 256 := UInt8.toNat_lt_size a
      have hb : b.toNat < 256 := UInt8.toNat_lt_size b
      have hv : v = a.toNat * 1024 + b.toNat * 4 := rfl
      rw [unbase64, base64Value_digit _ (by omega), base64Value_digit _ (by omega),
        base64Value_digit _ (by omega)]
      · simp only [Option.bind_eq_bind, Option.bind_some]
        rw [if_pos (by omega), ofNat_eq (a := a) (by omega), ofNat_eq (a := b) (by omega)]
      · exact fun h => base64Digit_ne_pad _ (by omega) h
  | case3 a =>
      have ha : a.toNat < 256 := UInt8.toNat_lt_size a
      rw [unbase64, base64Value_digit _ (by omega), base64Value_digit _ (by omega)]
      simp only [Option.bind_eq_bind, Option.bind_some]
      rw [if_pos (by omega), ofNat_eq (a := a) (by omega)]
  | case4 => rfl

end Encoding
