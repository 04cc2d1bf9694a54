import Nix2Rdf.Lib.Encoding

/-!
# The SPARQL endpoint

A query comes in the address, as the body, or form-encoded in the body. Forms are decoded by hand,
byte by byte, with slices of the text that panic where they cut a character.
-/

namespace Nix2Rdf.Endpoint

open Encoding (utf8 fromUtf8Lossy atBoundary isContinuation)

/-! ## Decoding -/

def hexDigit? (b : UInt8) : Option Nat :=
  if 48 ≤ b ∧ b ≤ 57 then some (b.toNat - 48)
  else if 65 ≤ b ∧ b ≤ 70 then some (b.toNat - 55)
  else if 97 ≤ b ∧ b ≤ 102 then some (b.toNat - 87)
  else none

/-- `u8::from_str_radix` on two bytes; it takes a plus sign. -/
def fromHex (hi lo : UInt8) : Option UInt8 :=
  (if hi = 43 then some 0 else hexDigit? hi).bind fun h => (hexDigit? lo).map fun l => UInt8.ofNat (16 * h + l)

/-- The loop of `percent_decode`, `none` where a slice panics. The slice after a `%` is taken only where
two bytes follow. -/
def percentDecodeBytes : List UInt8 → Option (List UInt8)
  | b :: hi :: lo :: rest =>
      if b = 37 then
        if atBoundary (hi :: lo :: rest) ∧ atBoundary rest then
          match fromHex hi lo with
          | some v => (percentDecodeBytes rest).map fun bs => v :: bs
          | none => (percentDecodeBytes (hi :: lo :: rest)).map fun bs => b :: bs
        else none
      else (percentDecodeBytes (hi :: lo :: rest)).map fun bs => b :: bs
  | b :: rest => (percentDecodeBytes rest).map fun bs => b :: bs
  | [] => some []

def percentDecode (s : String) : Option String := (percentDecodeBytes (utf8 s)).map fromUtf8Lossy

def plusToSpace (s : String) : String := String.ofList (s.toList.map fun c => if c = '+' then ' ' else c)

/-- The loop over the pairs. A pair without `=` ends it. -/
def findPair (key : String) : List String → Option (Option String)
  | [] => some none
  | pair :: pairs =>
      match Text.splitOnce '=' pair with
      | none => some none
      | some (k, v) => if k = key then (percentDecode (plusToSpace v)).map some else findPair key pairs

/-- `serde_urlencoded_get`, `none` where it panics. -/
def urlencodedGet (body key : String) : Option (Option String) := findPair key (Text.split '&' body)

/-- The query that a request asks. -/
def queryOf (query : Option String) (contentType body : String) : Option String :=
  match query with
  | some q => some q
  | none =>
      if Text.startsWith "application/sparql-query" contentType then some body
      else if Text.startsWith "application/x-www-form-urlencoded" contentType then
        (urlencodedGet body "query").map fun q => q.getD ""
      else some body

/-! ## Encoding -/

/-- What a form leaves as it is; the space becomes a plus sign. -/
def formSafe (b : UInt8) : Bool :=
  (48 ≤ b && b ≤ 57) || (65 ≤ b && b ≤ 90) || (97 ≤ b && b ≤ 122) || b ∈ ([42, 45, 46, 95, 32] : List UInt8)

def spaceToPlus (s : String) : String := String.ofList (s.toList.map fun c => if c = ' ' then '+' else c)

def formEncode (s : String) : String := spaceToPlus (Encoding.percentEncode formSafe s)

/-- A pair of a form, which may lack its value. -/
abbrev Pair := String × Option String

def pairText (p : Pair) : String := formEncode p.1 ++ ((p.2.map fun v => "=" ++ formEncode v).getD "")

def formBody (ps : List Pair) : String := "&".intercalate (ps.map pairText)

/-! ## Where a slice cuts a character -/

/-- Two bytes on from here is within a character. -/
def cutsHere : List Char → Bool
  | c :: d :: _ => 3 ≤ c.utf8Size || (c.utf8Size = 1 && 2 ≤ d.utf8Size)
  | [c] => 3 ≤ c.utf8Size
  | [] => false

/-- Two bytes on from a `%` is within a character. -/
def cuts : List Char → Bool
  | [] => false
  | c :: l => (c = '%' && cutsHere l) || cuts l

/-- The bytes of a character are one that starts it and others that continue it. -/
theorem exists_bytes (c : Char) : ∃ b bs, String.utf8EncodeChar c = b :: bs ∧ isContinuation b = false ∧
    (∀ d ∈ bs, isContinuation d = true) ∧ bs.length + 1 = c.utf8Size := by
  have hlast : ∀ n : Nat, isContinuation (UInt8.ofNat (n % 64 + 128)) = true := by
    have hsmall : ∀ n < 64, isContinuation (UInt8.ofNat (n + 128)) = true := by decide
    exact fun n => hsmall _ (Nat.mod_lt _ (by omega))
  have htail : ∀ b ∈ (String.utf8EncodeChar c).tail, isContinuation b = true := by
    unfold String.utf8EncodeChar
    dsimp only
    split_ifs with h1 h2 h3
    · simp
    · simp only [List.tail_cons, List.mem_singleton, forall_eq]
      exact hlast _
    · simp only [List.tail_cons, List.mem_cons, List.not_mem_nil, or_false, forall_eq_or_imp, forall_eq]
      exact ⟨hlast _, hlast _⟩
    · simp only [List.tail_cons, List.mem_cons, List.not_mem_nil, or_false, forall_eq_or_imp, forall_eq]
      exact ⟨hlast _, hlast _, hlast _⟩
  have hhead := Encoding.head_utf8EncodeChar c
  have hlen := String.length_utf8EncodeChar c
  cases hbytes : String.utf8EncodeChar c with
  | nil =>
      rw [hbytes, List.length_nil] at hlen
      exact absurd c.utf8Size_pos (by omega)
  | cons b bs =>
      rw [hbytes] at htail hhead hlen
      exact ⟨b, bs, rfl, by simpa using hhead, htail, by simpa using hlen⟩

def bytes (l : List Char) : List UInt8 := l.flatMap String.utf8EncodeChar

/-- After two bytes of a text stands a character exactly if no character is cut there. -/
theorem atBoundary_bytes {l : List Char} {x y : UInt8} {rest : List UInt8} (h : bytes l = x :: y :: rest) :
    atBoundary (x :: y :: rest) = true ∧ atBoundary rest = !cutsHere l := by
  have hboundary : ∀ l : List Char, atBoundary (bytes l) = true := by
    intro l
    have hutf8 := Encoding.atBoundary_utf8 (String.ofList l)
    rwa [utf8, String.toList_ofList] at hutf8
  have hcut : ∀ {z : UInt8} {zs : List UInt8}, isContinuation z = true → atBoundary (z :: zs) = false := by
    intro z zs hz
    rw [atBoundary, List.head?_cons, Option.any_some, hz]
    rfl
  refine ⟨h ▸ hboundary l, ?_⟩
  cases l with
  | nil => cases h
  | cons c l =>
      obtain ⟨b, bs, hbytes, _, hcont, hsize⟩ := exists_bytes c
      rw [bytes, List.flatMap_cons, hbytes, List.cons_append, List.cons.injEq] at h
      cases bs with
      | nil =>
          cases l with
          | nil => cases h.2
          | cons d l =>
              obtain ⟨e, es, hbytes', _, hcont', hsize'⟩ := exists_bytes d
              rw [List.nil_append, List.flatMap_cons, hbytes', List.cons_append, List.cons.injEq] at h
              obtain ⟨_, _, hrest⟩ := h
              cases es with
              | nil =>
                  rw [← hrest, List.nil_append, show l.flatMap String.utf8EncodeChar = bytes l from rfl, hboundary]
                  simp [cutsHere, ← hsize, ← hsize']
              | cons z zs =>
                  rw [← hrest, List.cons_append, hcut (hcont' z List.mem_cons_self)]
                  simp [cutsHere, ← hsize, ← hsize']
      | cons y' bs =>
          obtain ⟨_, hrest⟩ := h
          cases bs with
          | nil =>
              rw [List.singleton_append, List.cons.injEq] at hrest
              rw [← hrest.2, show l.flatMap String.utf8EncodeChar = bytes l from rfl, hboundary]
              cases l <;> simp [cutsHere, ← hsize]
          | cons z zs =>
              rw [List.cons_append, List.cons_append, List.cons.injEq] at hrest
              rw [← hrest.2, hcut (hcont z (by simp))]
              cases l <;> simp [cutsHere, ← hsize]

/-! ## When decoding panics -/

theorem percentDecodeBytes_cons {b : UInt8} (hb : b ≠ 37) (rest : List UInt8) :
    percentDecodeBytes (b :: rest) = (percentDecodeBytes rest).map fun bs => b :: bs := by
  cases rest with
  | nil => rfl
  | cons x rest =>
      cases rest with
      | nil => rfl
      | cons y rest => rw [percentDecodeBytes, if_neg hb]

theorem percentDecodeBytes_append {bs : List UInt8} (hbs : ∀ b ∈ bs, b ≠ 37) (rest : List UInt8) :
    percentDecodeBytes (bs ++ rest) = (percentDecodeBytes rest).map fun cs => bs ++ cs := by
  induction bs with
  | nil => simp
  | cons b bs ih =>
      rw [List.forall_mem_cons] at hbs
      rw [List.cons_append, percentDecodeBytes_cons hbs.1, ih hbs.2, Option.map_map]
      rfl

theorem ne_percent {c : Char} (hc : c ≠ '%') : ∀ b ∈ String.utf8EncodeChar c, b ≠ 37 := by
  rintro b hb rfl
  have hnat := Encoding.toNat_of_mem_utf8EncodeChar hb (by decide)
  exact hc (Char.toNat_inj.mp hnat.symm)

/-- What is read as a digit is an ASCII character other than `%`. -/
def Plain (b : UInt8) : Prop := b.toNat < 128 ∧ b ≠ 37

theorem plain_of_fromHex {hi lo v : UInt8} (h : fromHex hi lo = some v) : Plain hi ∧ Plain lo := by
  have hdigit : ∀ {b : UInt8} {m : Nat}, hexDigit? b = some m → Plain b := by
    have hall : ∀ n < 256, (hexDigit? (UInt8.ofNat n)).isSome = true → n < 128 ∧ n ≠ 37 := by
      decide +kernel
    intro b m hb
    obtain ⟨hlt, hne⟩ := hall b.toNat b.toNat_lt (by rw [UInt8.ofNat_toNat, hb]; rfl)
    exact ⟨hlt, fun h37 => hne (by rw [h37]; rfl)⟩
  obtain ⟨a, ha, h⟩ := Option.bind_eq_some_iff.mp h
  obtain ⟨c, hc, _⟩ := Option.map_eq_some_iff.mp h
  refine ⟨?_, hdigit hc⟩
  by_cases hplus : hi = 43
  · rw [hplus]
    exact ⟨by decide, by decide⟩
  · rw [if_neg hplus] at ha
    exact hdigit ha

/-- A plain byte is the whole of the character it starts. -/
theorem exists_plain {l : List Char} {x : UInt8} {rest : List UInt8} (hx : Plain x) (h : bytes l = x :: rest) :
    ∃ c l', l = c :: l' ∧ c ≠ '%' ∧ bytes l' = rest := by
  cases l with
  | nil => cases h
  | cons c l =>
      obtain ⟨b, bs, hbytes, _⟩ := exists_bytes c
      rw [bytes, List.flatMap_cons, hbytes, List.cons_append, List.cons.injEq] at h
      obtain ⟨rfl, hrest⟩ := h
      have hnat := Encoding.toNat_of_mem_utf8EncodeChar (hbytes ▸ List.mem_cons_self) hx.1
      have hascii := Encoding.utf8EncodeChar_ascii (c := c) (by rw [← hnat]; exact hx.1)
      rw [hbytes, List.cons.injEq] at hascii
      rw [hascii.2, List.nil_append] at hrest
      refine ⟨c, l, rfl, ?_, hrest⟩
      rintro rfl
      exact hx.2 (UInt8.toNat_inj.mp hnat)

/-- A single byte is a single character. -/
theorem cutsHere_single {l : List Char} {x : UInt8} (h : bytes l = [x]) : cutsHere l = false := by
  cases l with
  | nil => rfl
  | cons c l =>
      obtain ⟨b, bs, hbytes, _, _, hsize⟩ := exists_bytes c
      rw [bytes, List.flatMap_cons, hbytes, List.cons_append, List.cons.injEq, List.append_eq_nil_iff] at h
      obtain ⟨_, rfl, hl⟩ := h
      rw [List.length_nil] at hsize
      cases l with
      | nil => simp [cutsHere, ← hsize]
      | cons d l =>
          obtain ⟨e, es, he, _⟩ := exists_bytes d
          rw [List.flatMap_cons, he] at hl
          cases hl

theorem cuts_cons {c : Char} (hc : c ≠ '%') (l : List Char) : cuts (c :: l) = cuts l := by
  rw [cuts, decide_eq_false hc, Bool.false_and, Bool.false_or]

theorem cuts_percent (l : List Char) : cuts ('%' :: l) = (cutsHere l || cuts l) := rfl

/-- Decoding panics exactly if after some `%` a character is cut. -/
theorem percentDecodeBytes_eq_none (l : List Char) : percentDecodeBytes (bytes l) = none ↔ cuts l = true := by
  induction hn : l.length using Nat.strong_induction_on generalizing l with
  | _ n ih =>
      cases l with
      | nil => simp [bytes, percentDecodeBytes, cuts]
      | cons c l =>
          have hl := ih l.length (by rw [← hn, List.length_cons]; omega) l rfl
          by_cases hc : c = '%'
          · subst hc
            have hpercent : bytes ('%' :: l) = 37 :: bytes l := rfl
            rw [hpercent, cuts_percent]
            cases hbytes : bytes l with
            | nil =>
                cases l with
                | nil => simp [percentDecodeBytes, cuts, cutsHere]
                | cons d l =>
                    obtain ⟨b, bs, hb, _⟩ := exists_bytes d
                    rw [bytes, List.flatMap_cons, hb] at hbytes
                    cases hbytes
            | cons x rest =>
                cases rest with
                | nil =>
                    have hstep : percentDecodeBytes [37, x] = (percentDecodeBytes [x]).map fun bs => 37 :: bs := rfl
                    rw [hstep, Option.map_eq_none_iff, ← hbytes, hl, cutsHere_single hbytes, Bool.false_or]
                | cons y rest =>
                    obtain ⟨hhere, hrest⟩ := atBoundary_bytes hbytes
                    rw [percentDecodeBytes, if_pos rfl]
                    cases hcut : cutsHere l with
                    | true =>
                        rw [hcut] at hrest
                        rw [if_neg (by simp [hrest])]
                        simp
                    | false =>
                        rw [hcut] at hrest
                        rw [if_pos ⟨hhere, hrest⟩]
                        cases hhex : fromHex x y with
                        | none =>
                            dsimp only
                            rw [Option.map_eq_none_iff, ← hbytes, hl, Bool.false_or]
                        | some v =>
                            dsimp only
                            obtain ⟨hx, hy⟩ := plain_of_fromHex hhex
                            obtain ⟨d, l', rfl, hd, hl'⟩ := exists_plain hx hbytes
                            obtain ⟨e, r, rfl, he, hr⟩ := exists_plain hy hl'
                            have hlen : r.length < n := by
                              rw [← hn, List.length_cons, List.length_cons, List.length_cons]
                              omega
                            rw [Option.map_eq_none_iff, ← hr, ih r.length hlen r rfl, Bool.false_or, cuts_cons hd,
                              cuts_cons he]
          · rw [bytes, List.flatMap_cons, percentDecodeBytes_append (ne_percent hc), Option.map_eq_none_iff,
              cuts_cons hc]
            exact hl

theorem percentDecode_eq_none (s : String) : percentDecode s = none ↔ cuts s.toList = true := by
  rw [percentDecode, Option.map_eq_none_iff]
  exact percentDecodeBytes_eq_none s.toList

/-! ## What a form encodes is decoded -/

theorem plusToSpace_spaceToPlus {s : String} (h : '+' ∉ s.toList) : plusToSpace (spaceToPlus s) = s := by
  apply String.toList_inj.mp
  rw [plusToSpace, spaceToPlus, String.toList_ofList, String.toList_ofList, List.map_map]
  conv => rhs; rw [← List.map_id s.toList]
  refine List.map_congr_left fun c hc => ?_
  rw [Function.comp_apply, id]
  by_cases hspace : c = ' '
  · rw [if_pos hspace, if_pos rfl, hspace]
  · rw [if_neg hspace, if_neg]
    rintro rfl
    exact h hc

/-- What stands for itself in a form is ASCII, not special there, and starts a character. -/
theorem formSafe_byte : ∀ n < 256, formSafe (UInt8.ofNat n) = true →
    n < 128 ∧ Char.ofNat n ∉ ['+', '&', '='] ∧ UInt8.ofNat n ≠ 37 ∧ isContinuation (UInt8.ofNat n) = false := by
  decide +kernel

/-- The characters of an encoded text. -/
theorem mem_percentEncode {c : Char} {s : String} (h : c ∈ (Encoding.percentEncode formSafe s).toList) :
    c.toNat < 128 ∧ c ∉ ['+', '&', '='] := by
  have hhex : ∀ n < 16, (Encoding.upperHex n).toNat < 128 ∧ Encoding.upperHex n ∉ ['+', '&', '='] := by decide
  rw [Encoding.percentEncode, String.toList_ofList] at h
  rcases Encoding.mem_percentBytes h with ⟨b, _, hb, rfl⟩ | rfl | ⟨n, hn, rfl⟩
  · obtain ⟨hlt, hno, _⟩ := formSafe_byte b.toNat b.toNat_lt (by rwa [UInt8.ofNat_toNat])
    exact ⟨by rwa [Encoding.byte_toNat], hno⟩
  · exact ⟨by decide, by decide⟩
  · exact hhex n hn

/-- The two digits of a byte are read as the byte, and the first starts a character. -/
theorem fromHex_upperHex : ∀ n < 256,
    fromHex (UInt8.ofNat (Encoding.upperHex (n / 16)).toNat) (UInt8.ofNat (Encoding.upperHex (n % 16)).toNat) =
      some (UInt8.ofNat n) ∧ isContinuation (UInt8.ofNat (Encoding.upperHex (n / 16)).toNat) = false := by
  decide +kernel

theorem percentDecodeBytes_octets (bs : List UInt8) :
    percentDecodeBytes (bs.flatMap (Encoding.percentOctets formSafe)) = some bs := by
  have hboundary : ∀ bs : List UInt8, atBoundary (bs.flatMap (Encoding.percentOctets formSafe)) = true := by
    intro bs
    cases bs with
    | nil => rfl
    | cons b bs =>
        rw [List.flatMap_cons, Encoding.percentOctets]
        by_cases hb : formSafe b = true
        · obtain ⟨_, _, _, hstart⟩ := formSafe_byte b.toNat b.toNat_lt (by rwa [UInt8.ofNat_toNat])
          rw [UInt8.ofNat_toNat] at hstart
          rw [if_pos hb, List.singleton_append, atBoundary, List.head?_cons, Option.any_some, hstart]
          rfl
        · rw [if_neg hb]
          rfl
  induction bs with
  | nil => rfl
  | cons b bs ih =>
      rw [List.flatMap_cons, Encoding.percentOctets]
      by_cases hb : formSafe b = true
      · obtain ⟨_, _, hne, _⟩ := formSafe_byte b.toNat b.toNat_lt (by rwa [UInt8.ofNat_toNat])
        rw [UInt8.ofNat_toNat] at hne
        rw [if_pos hb, List.singleton_append, percentDecodeBytes_cons hne, ih]
        rfl
      · obtain ⟨hread, hhi⟩ := fromHex_upperHex b.toNat b.toNat_lt
        rw [UInt8.ofNat_toNat] at hread
        have hstart : atBoundary (UInt8.ofNat (Encoding.upperHex (b.toNat / 16)).toNat ::
            UInt8.ofNat (Encoding.upperHex (b.toNat % 16)).toNat ::
              bs.flatMap (Encoding.percentOctets formSafe)) = true := by
          rw [atBoundary, List.head?_cons, Option.any_some, hhi]
          rfl
        rw [if_neg hb, List.cons_append, List.cons_append, List.cons_append, List.nil_append, percentDecodeBytes,
          if_pos rfl, if_pos ⟨hstart, hboundary bs⟩, hread, ih]
        rfl

theorem percentDecode_formEncode (s : String) : percentDecode (plusToSpace (formEncode s)) = some s := by
  have hascii : ∀ b, formSafe b = true → b.toNat < 128 := fun b hb =>
    (formSafe_byte b.toNat b.toNat_lt (by rwa [UInt8.ofNat_toNat])).1
  have hplus : '+' ∉ (Encoding.percentEncode formSafe s).toList := fun h => (mem_percentEncode h).2 (by decide)
  rw [formEncode, plusToSpace_spaceToPlus hplus, percentDecode, Encoding.percentEncode,
    Encoding.utf8_percentBytes hascii, percentDecodeBytes_octets, Option.map_some, Encoding.fromUtf8Lossy_utf8]

theorem formEncode_injective : Function.Injective formEncode := by
  intro s t h
  have hs := percentDecode_formEncode s
  rw [h, percentDecode_formEncode] at hs
  exact (Option.some.inj hs).symm

theorem mem_formEncode {c : Char} {s : String} (h : c ∈ (formEncode s).toList) : c ≠ '&' ∧ c ≠ '=' := by
  rw [formEncode, spaceToPlus, String.toList_ofList, List.mem_map] at h
  obtain ⟨d, hd, rfl⟩ := h
  have hno := (mem_percentEncode hd).2
  split
  · decide
  · simp only [List.mem_cons, List.not_mem_nil, or_false, not_or] at hno
    exact hno.2

/-! ## Pairs -/

/-- A pair with a value, under another name. -/
def OtherPair (key pair : String) : Prop := ∃ k v, Text.splitOnce '=' pair = some (k, v) ∧ k ≠ key

theorem findPair_append {key : String} {before : List String} (h : ∀ p ∈ before, OtherPair key p)
    (pairs : List String) : findPair key (before ++ pairs) = findPair key pairs := by
  induction before with
  | nil => rfl
  | cons p before ih =>
      rw [List.forall_mem_cons] at h
      obtain ⟨k, v, hsplit, hk⟩ := h.1
      rw [List.cons_append, findPair, hsplit]
      dsimp only
      rw [if_neg hk, ih h.2]

/-- The pairs are gone through up to the first that has the name or no value. -/
theorem findPair_cases (key : String) (pairs : List String) :
    (findPair key pairs = some none ∨ ∃ before pair after v, pairs = before ++ pair :: after ∧
      (∀ p ∈ before, OtherPair key p) ∧ Text.splitOnce '=' pair = some (key, v) ∧
      findPair key pairs = (percentDecode (plusToSpace v)).map some) := by
  induction pairs with
  | nil => exact .inl rfl
  | cons pair pairs ih =>
      cases hsplit : Text.splitOnce '=' pair with
      | none =>
          refine .inl ?_
          rw [findPair, hsplit]
      | some p =>
          obtain ⟨k, v⟩ := p
          have hstep : findPair key (pair :: pairs) =
              if k = key then (percentDecode (plusToSpace v)).map some else findPair key pairs := by
            rw [findPair, hsplit]
          by_cases hk : k = key
          · subst hk
            rw [if_pos rfl] at hstep
            exact .inr ⟨[], pair, pairs, v, rfl, by simp, hsplit, hstep⟩
          · rw [if_neg hk] at hstep
            rw [hstep]
            refine ih.imp id fun hfound => ?_
            obtain ⟨before, found, after, w, rfl, hbefore, hfound⟩ := hfound
            refine ⟨pair :: before, found, after, w, rfl, ?_, hfound⟩
            exact List.forall_mem_cons.mpr ⟨⟨k, v, hsplit, hk⟩, hbefore⟩

theorem splitOnce_pairText (k : String) (v : String) :
    Text.splitOnce '=' (pairText (k, some v)) = some (formEncode k, formEncode v) := by
  have hno : '=' ∉ (formEncode k).toList := fun h => (mem_formEncode h).2 rfl
  have htext : pairText (k, some v) = formEncode k ++ String.singleton '=' ++ formEncode v :=
    String.append_assoc.symm
  rw [htext, Text.splitOnce_append hno]

theorem splitOnce_pairText_none (k : String) : Text.splitOnce '=' (pairText (k, none)) = none := by
  have htext : pairText (k, none) = formEncode k := String.append_empty
  rw [htext, Text.splitOnce_eq_none]
  exact fun h => (mem_formEncode h).2 rfl

theorem split_formBody {ps : List Pair} (h : ps ≠ []) : Text.split '&' (formBody ps) = ps.map pairText := by
  have hno : ∀ l ∈ (ps.map pairText).map String.toList, '&' ∉ l := by
    intro l hl hmem
    obtain ⟨t, ht, rfl⟩ := List.mem_map.mp hl
    obtain ⟨⟨k, v⟩, _, rfl⟩ := List.mem_map.mp ht
    cases v with
    | none =>
        have htext : pairText (k, none) = formEncode k := String.append_empty
        rw [htext] at hmem
        exact (mem_formEncode hmem).1 rfl
    | some v =>
        have htext : (pairText (k, some v)).toList = (formEncode k).toList ++ '=' :: (formEncode v).toList := by
          simp [pairText]
        rw [htext, List.mem_append, List.mem_cons] at hmem
        rcases hmem with hmem | hmem | hmem
        · exact (mem_formEncode hmem).1 rfl
        · cases hmem
        · exact (mem_formEncode hmem).1 rfl
  have hamp : "&".toList = ['&'] := rfl
  rw [Text.split, formBody, String.toList_intercalate, hamp, List.splitOn_intercalate '&' hno (by simpa using h),
    List.map_map]
  refine (List.map_congr_left fun t _ => ?_).trans (List.map_id _)
  exact String.ofList_toList

/-- Other pairs are passed over, up to one that lacks its value. -/
theorem findPair_pairTexts {key : String} {before : List Pair} (hother : ∀ p ∈ before, p.1 ≠ key)
    (pairs : List String) :
    findPair (formEncode key) (before.map pairText ++ pairs) =
      if ∀ p ∈ before, p.2.isSome = true then findPair (formEncode key) pairs else some none := by
  induction before with
  | nil => simp
  | cons p before ih =>
      obtain ⟨k, v⟩ := p
      rw [List.forall_mem_cons] at hother
      obtain ⟨hk, hother⟩ := hother
      rw [List.map_cons, List.cons_append, findPair]
      cases v with
      | none => rw [splitOnce_pairText_none, if_neg (by simp)]
      | some v =>
          have hne : formEncode k ≠ formEncode key := fun h => hk (formEncode_injective h)
          have hall : (∀ p ∈ (k, some v) :: before, p.2.isSome = true) ↔ ∀ p ∈ before, p.2.isSome = true := by
            simp
          rw [splitOnce_pairText]
          dsimp only
          rw [if_neg hne, ih hother]
          exact if_congr hall.symm rfl rfl

/-- Decoding panics exactly where in the value of the query a character is cut after a `%`. What a form
encodes as the query is decoded exactly if every pair before it has a value. -/
theorem urlencodedGet_exact (body q : String) (before after : List Pair) :
    (urlencodedGet body "query" = none ↔ ∃ before pair after v, Text.split '&' body = before ++ pair :: after ∧
      (∀ p ∈ before, OtherPair "query" p) ∧ Text.splitOnce '=' pair = some ("query", v) ∧
      cuts (plusToSpace v).toList = true) ∧
    ((∀ p ∈ before, p.1 ≠ "query") →
      (urlencodedGet (formBody (before ++ ("query", some q) :: after)) "query" = some (some q) ↔
        ∀ p ∈ before, p.2.isSome = true)) := by
  refine ⟨⟨fun h => ?_, fun h => ?_⟩, fun hother => ?_⟩
  · rcases findPair_cases "query" (Text.split '&' body) with hnone | ⟨before, pair, after, v, hsplit,
      hbefore, hpair, hget⟩
    · rw [urlencodedGet, hnone] at h
      cases h
    · rw [urlencodedGet, hget, Option.map_eq_none_iff, percentDecode_eq_none] at h
      exact ⟨before, pair, after, v, hsplit, hbefore, hpair, h⟩
  · obtain ⟨before, pair, after, v, hsplit, hbefore, hpair, hcuts⟩ := h
    rw [urlencodedGet, hsplit, findPair_append hbefore, findPair, hpair]
    dsimp only
    rw [if_pos rfl, (percentDecode_eq_none _).mpr hcuts, Option.map_none]
  · have hkey : formEncode "query" = "query" := by decide
    have hfound : findPair "query" (pairText ("query", some q) :: after.map pairText) = some (some q) := by
      rw [findPair, splitOnce_pairText, hkey]
      dsimp only
      rw [if_pos rfl, percentDecode_formEncode, Option.map_some]
    have hpairs := findPair_pairTexts hother (pairText ("query", some q) :: after.map pairText)
    rw [hkey, hfound] at hpairs
    rw [urlencodedGet, split_formBody (by simp), List.map_append, List.map_cons, hpairs, ite_eq_left_iff]
    refine ⟨fun h => ?_, fun h hno => absurd h hno⟩
    by_contra hno
    exact absurd (h hno) (by simp)

/-- A pair without a value before the query hides it, and a character cut after a `%` is a panic. -/
theorem urlencodedGet_hidden :
    urlencodedGet (formBody [("a", none), ("query", some "x")]) "query" = some none ∧
      queryOf none "application/x-www-form-urlencoded" (formBody [("a", none), ("query", some "x")]) = some "" ∧
      urlencodedGet "query=%aé" "query" = none := by
  decide

end Nix2Rdf.Endpoint
