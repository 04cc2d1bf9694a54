import Nix2Rdf.Lib.Encoding
import Nix2Rdf.Lib.Text

/-!
# The characters of IRIs

What may follow the authority of an IRI: a path, a query and a fragment, with escapes.
-/

namespace IriSyntax

/-- Where in an IRI a character stands. -/
inductive Part where
  | path
  | query
  | fragment
  deriving DecidableEq, Repr

def within (lo hi : Nat) (c : Char) : Bool := lo ≤ c.toNat && c.toNat ≤ hi

def hexDigit (c : Char) : Bool := within 48 57 c || within 65 70 c || within 97 102 c

def alphanumeric (c : Char) : Bool := within 65 90 c || within 97 122 c || within 48 57 c

/-- `ucschar` -/
def ucschar (c : Char) : Bool :=
  within 0xA0 0xD7FF c || within 0xF900 0xFDCF c || within 0xFDF0 0xFFEF c ||
    (within 0x10000 0xEFFFD c && c.toNat % 0x10000 ≤ 0xFFFD && !within 0xE0000 0xE0FFF c)

/-- `iprivate` -/
def iprivate (c : Char) : Bool := within 0xE000 0xF8FF c || within 0xF0000 0xFFFFD c || within 0x100000 0x10FFFD c

/-- The slash, and `ipchar` without escapes. -/
def plain (c : Char) : Bool :=
  alphanumeric c || ucschar c ||
    c ∈ ['/', '-', '.', '_', '~', '!', '$', '&', '\u0027', '(', ')', '*', '+', ',', ';', '=', ':', '@']

/-- The part that goes on after a character. -/
def after (part : Part) (c : Char) : Option Part :=
  if plain c then some part
  else
    match part with
    | .path => if c = '?' then some .query else if c = '#' then some .fragment else none
    | .query => if c = '?' ∨ iprivate c = true then some .query else if c = '#' then some .fragment else none
    | .fragment => if c = '?' then some .fragment else none

/-- Read to the end, or up to a character that may not stand there. -/
def read : Part → List Char → Option Part
  | part, [] => some part
  | part, c :: cs =>
      if c = '%' then
        match cs with
        | hi :: lo :: rest => if hexDigit hi && hexDigit lo then read part rest else none
        | _ => none
      else (after part c).bind fun p => read p cs

/-- What may follow a slash in the path of an IRI. -/
def valid (s : String) : Bool := (read .path s.toList).isSome

variable {part p : Part} {a b : List Char} {c : Char}

theorem read_cons (hc : c ≠ '%') (cs : List Char) :
    read part (c :: cs) = (after part c).bind fun p => read p cs := by
  rw [read.eq_def]
  exact if_neg hc

theorem read_escape (hi lo : Char) (rest : List Char) :
    read part ('%' :: hi :: lo :: rest) = if hexDigit hi && hexDigit lo then read part rest else none := by
  rw [read.eq_def]
  exact if_pos rfl

/-- Too little after a percent sign. -/
theorem read_short {cs : List Char} (h : ∀ hi lo rest, cs = hi :: lo :: rest → False) :
    read part ('%' :: cs) = none := by
  cases cs with
  | nil => rfl
  | cons hi cs =>
      cases cs with
      | nil => rfl
      | cons lo rest => exact (h hi lo rest rfl).elim

/-- What has been read to its end goes on with anything. -/
theorem read_append (h : read part a = some p) : read part (a ++ b) = read p b := by
  induction part, a using read.induct with
  | case1 part =>
      cases h
      rfl
  | case2 part hi lo rest hhex ih =>
      rw [read_escape, if_pos hhex] at h
      rw [List.cons_append, List.cons_append, List.cons_append, read_escape, if_pos hhex]
      exact ih h
  | case3 part hi lo rest hhex =>
      rw [read_escape, if_neg hhex] at h
      cases h
  | case4 part cs hcs =>
      rw [read_short hcs] at h
      cases h
  | case5 part c cs hc ih =>
      rw [read_cons hc] at h
      rw [List.cons_append, read_cons hc]
      obtain ⟨q, hq, hrest⟩ := Option.bind_eq_some_iff.mp h
      rw [hq, Option.bind_some]
      exact ih q hrest

/-- What stops stays stopped, unless an escape at the end is completed. -/
theorem read_append_none (h : read part a = none) (hb : ∀ c ∈ b.head?, hexDigit c = false) :
    read part (a ++ b) = none := by
  induction part, a using read.induct with
  | case1 part => cases h
  | case2 part hi lo rest hhex ih =>
      rw [read_escape, if_pos hhex] at h
      rw [List.cons_append, List.cons_append, List.cons_append, read_escape, if_pos hhex]
      exact ih h
  | case3 part hi lo rest hhex =>
      rw [List.cons_append, List.cons_append, List.cons_append, read_escape, if_neg hhex]
  | case4 part cs hcs =>
      cases cs with
      | nil =>
          cases b with
          | nil => rfl
          | cons d b =>
              cases b with
              | nil => rfl
              | cons e rest =>
                  rw [List.cons_append, List.nil_append, read_escape, hb d rfl, Bool.false_and]
                  rfl
      | cons hi cs =>
          cases cs with
          | nil =>
              cases b with
              | nil => rfl
              | cons d rest =>
                  rw [List.cons_append, List.cons_append, List.nil_append, read_escape, hb d rfl, Bool.and_false]
                  rfl
          | cons lo rest => exact (hcs hi lo rest rfl).elim
  | case5 part c cs hc ih =>
      rw [read_cons hc] at h
      rw [List.cons_append, read_cons hc]
      cases hq : after part c with
      | none => rfl
      | some q =>
          rw [hq, Option.bind_some] at h
          exact ih q h

/-! ## Text that stands in every part -/

def Transparent (s : String) : Prop := ∀ part, read part s.toList = some part

theorem after_plain (h : plain c = true) : after part c = some part := by
  unfold after
  exact if_pos h

theorem read_plain {l : List Char} (h : ∀ c ∈ l, plain c = true) : read part l = some part := by
  induction l with
  | nil => rfl
  | cons c l ih =>
      have hc := h c List.mem_cons_self
      have hne : c ≠ '%' := by
        rintro rfl
        cases hc
      rw [read_cons hne, after_plain hc, Option.bind_some]
      exact ih fun d hd => h d (List.mem_cons_of_mem _ hd)

theorem transparent_of_plain {s : String} (h : ∀ c ∈ s.toList, plain c = true) : Transparent s :=
  fun _ => read_plain h

theorem Transparent.append {s t : String} (hs : Transparent s) (ht : Transparent t) : Transparent (s ++ t) := by
  intro part
  rw [String.toList_append, read_append (hs part)]
  exact ht part

theorem Transparent.valid {s : String} (h : Transparent s) : valid s = true := by
  rw [IriSyntax.valid, h .path]
  rfl

/-- Nothing but the text between two transparent ones matters. -/
theorem valid_between {pre s post : String} (hpre : Transparent pre) (hpost : Transparent post)
    (hhead : ∀ c ∈ post.toList.head?, hexDigit c = false) : valid (pre ++ s ++ post) = valid s := by
  rw [valid, valid, String.toList_append, String.toList_append, List.append_assoc, read_append (hpre .path)]
  cases hs : read .path s.toList with
  | none => rw [read_append_none hs hhead]
  | some p => rw [read_append hs, hpost p]

theorem hexDigit_upperHex : ∀ n < 16, hexDigit (Encoding.upperHex n) = true := by decide

/-- Encoded text stands in every part. -/
theorem transparent_percentEncode {safe : UInt8 → Bool} (h : ∀ b, safe b = true → plain (Char.ofNat b.toNat) = true)
    (s : String) : Transparent (Encoding.percentEncode safe s) := by
  intro part
  rw [Encoding.percentEncode, String.toList_ofList, Encoding.percentBytes]
  induction Encoding.utf8 s with
  | nil => rfl
  | cons b bs ih =>
      have hb : read part (Encoding.percentByte safe b) = some part := by
        unfold Encoding.percentByte
        split
        · rename_i hsafe
          refine read_plain fun c hc => ?_
          rw [List.mem_singleton.mp hc]
          exact h b hsafe
        · have hlt := b.toNat_lt
          rw [read_escape, hexDigit_upperHex _ (by omega), hexDigit_upperHex _ (by omega)]
          rfl
      rw [List.flatMap_cons, read_append hb]
      exact ih

theorem of_after (h : after part c = some p) : plain c = true ∨ iprivate c = true ∨ c = '?' ∨ c = '#' := by
  by_cases hplain : plain c = true
  · exact .inl hplain
  · by_cases hmark : c = '?' ∨ c = '#'
    · exact .inr (.inr hmark)
    · rw [not_or] at hmark
      unfold after at h
      rw [if_neg hplain] at h
      cases part with
      | path => simp [hmark] at h
      | fragment => simp [hmark] at h
      | query =>
          by_cases hprivate : iprivate c = true
          · exact .inr (.inl hprivate)
          · simp [hmark, hprivate] at h

/-- The characters of what is read to its end. -/
theorem mem_of_read (h : read part a = some p) (hc : c ∈ a) :
    plain c = true ∨ iprivate c = true ∨ hexDigit c = true ∨ c = '%' ∨ c = '?' ∨ c = '#' := by
  induction part, a using read.induct with
  | case1 part => cases hc
  | case2 part hi lo rest hhex ih =>
      rw [read_escape, if_pos hhex] at h
      rw [Bool.and_eq_true] at hhex
      rcases List.mem_cons.mp hc with rfl | hc
      · simp
      · rcases List.mem_cons.mp hc with rfl | hc
        · simp [hhex.1]
        · rcases List.mem_cons.mp hc with rfl | hc
          · simp [hhex.2]
          · exact ih h hc
  | case3 part hi lo rest hhex =>
      rw [read_escape, if_neg hhex] at h
      cases h
  | case4 part cs hcs =>
      rw [read_short hcs] at h
      cases h
  | case5 part d cs hd ih =>
      rw [read_cons hd] at h
      obtain ⟨q, hq, hrest⟩ := Option.bind_eq_some_iff.mp h
      rcases List.mem_cons.mp hc with rfl | hc
      · exact (of_after hq).imp_right fun h => h.imp_right fun h => .inr (.inr h)
      · exact ih q hrest hc

/-! ## Escapes -/

/-- Two hexadecimal digits follow every percent sign. -/
def escaped : List Char → Bool
  | [] => true
  | c :: cs =>
      if c = '%' then
        match cs with
        | hi :: lo :: rest => hexDigit hi && hexDigit lo && escaped rest
        | _ => false
      else escaped cs

theorem escaped_cons (hc : c ≠ '%') (cs : List Char) : escaped (c :: cs) = escaped cs := by
  rw [escaped.eq_def]
  exact if_neg hc

theorem escaped_escape (hi lo : Char) (rest : List Char) :
    escaped ('%' :: hi :: lo :: rest) = (hexDigit hi && hexDigit lo && escaped rest) := by
  rw [escaped.eq_def]
  exact if_pos rfl

/-- Too little after a percent sign. -/
theorem escaped_short {cs : List Char} (h : ∀ hi lo rest, cs = hi :: lo :: rest → False) :
    escaped ('%' :: cs) = false := by
  cases cs with
  | nil => rfl
  | cons hi cs =>
      cases cs with
      | nil => rfl
      | cons lo rest => exact (h hi lo rest rfl).elim

theorem escaped_of_not_mem {l : List Char} (h : '%' ∉ l) : escaped l = true := by
  induction l with
  | nil => rfl
  | cons c l ih =>
      rw [List.mem_cons, not_or] at h
      rw [escaped_cons (Ne.symm h.1)]
      exact ih h.2

/-- No escape goes over a character that is no digit. -/
theorem escaped_split (hne : c ≠ '%') (hc : hexDigit c = false) :
    escaped (a ++ c :: b) = (escaped a && escaped b) := by
  induction a using escaped.induct with
  | case1 => exact escaped_cons hne b
  | case2 hi lo rest ih =>
      rw [List.cons_append, List.cons_append, List.cons_append, escaped_escape, escaped_escape, ih]
      exact (Bool.and_assoc _ _ _).symm
  | case3 cs hcs =>
      cases cs with
      | nil =>
          cases b with
          | nil => rfl
          | cons d b =>
              rw [List.cons_append, List.nil_append, escaped_escape, hc]
              rfl
      | cons hi cs =>
          cases cs with
          | nil =>
              rw [List.cons_append, List.cons_append, List.nil_append, escaped_escape, hc, Bool.and_false]
              rfl
          | cons lo rest => exact (hcs hi lo rest rfl).elim
  | case4 d cs hd ih => rw [List.cons_append, escaped_cons hd, escaped_cons hd, ih]

theorem escaped_append (ha : escaped a = true) : escaped (a ++ b) = escaped b := by
  induction a using escaped.induct with
  | case1 => rfl
  | case2 hi lo rest ih =>
      rw [escaped_escape, Bool.and_eq_true] at ha
      rw [List.cons_append, List.cons_append, List.cons_append, escaped_escape, ih ha.2, ha.1, Bool.true_and]
  | case3 cs hcs =>
      rw [escaped_short hcs] at ha
      cases ha
  | case4 d cs hd ih =>
      rw [escaped_cons hd] at ha
      rw [List.cons_append, escaped_cons hd, ih ha]

/-! ## Replacing -/

/-- Plain text stays valid where plain text is replaced, unless an occurrence begins within an escape. -/
theorem read_replaceFrom {pat rep : List Char} (hpat : pat ≠ []) (hhead : ∀ c ∈ pat.head?, hexDigit c = false)
    (hplain : ∀ c ∈ pat, plain c = true) (hrep : ∀ c ∈ rep, plain c = true) {l : List Char}
    (h : read part l = some p) : read part (Text.replaceFrom pat rep 0 l) = some p := by
  induction hn : l.length using Nat.strong_induction_on generalizing part l with
  | _ n ih =>
      by_cases hpre : pat <+: l
      · obtain ⟨rest, rfl⟩ := hpre
        have hlen : 0 < pat.length := List.length_pos_iff.mpr hpat
        rw [List.length_append] at hn
        rw [read_append (read_plain hplain)] at h
        rw [Text.replaceFrom_append hpat, read_append (read_plain hrep)]
        exact ih rest.length (by omega) h rfl
      · cases l with
        | nil => exact h
        | cons c l =>
            rw [List.length_cons] at hn
            by_cases hc : c = '%'
            · rw [hc] at h ⊢
              by_cases hlong : ∃ hi lo rest, l = hi :: lo :: rest
              · obtain ⟨hi, lo, rest, rfl⟩ := hlong
                rw [read_escape] at h
                split at h
                · rename_i hhex
                  have hescape : ∀ d ∈ ['%', hi, lo], pat.head? ≠ some d := by
                    intro d hd hfirst
                    have hno := hhead d hfirst
                    have hd' : plain d = true := hplain d (List.mem_of_mem_head? hfirst)
                    simp only [List.mem_cons, List.not_mem_nil, or_false] at hd
                    rw [Bool.and_eq_true] at hhex
                    rcases hd with rfl | rfl | rfl
                    · exact absurd hd' (by decide)
                    · exact absurd hhex.1 (by simp [hno])
                    · exact absurd hhex.2 (by simp [hno])
                  have hkeep := @Text.replaceFrom_append_of_head _ rep _ hpat hescape rest
                  rw [List.length_cons, List.length_cons] at hn
                  rw [List.cons_append, List.cons_append, List.cons_append, List.nil_append] at hkeep
                  rw [hkeep, List.cons_append, List.cons_append, List.cons_append, List.nil_append, read_escape,
                    if_pos hhex]
                  exact ih rest.length (by omega) h rfl
                · cases h
              · rw [read_short fun hi lo rest heq => hlong ⟨hi, lo, rest, heq⟩] at h
                cases h
            · rw [read_cons hc] at h
              rw [Text.replaceFrom_cons hpre, read_cons hc]
              obtain ⟨q, hq, hrest⟩ := Option.bind_eq_some_iff.mp h
              exact Option.bind_eq_some_iff.mpr ⟨q, hq, ih l.length (by omega) hrest rfl⟩

theorem valid_replace {pat rep s : String} (hpat : pat ≠ "") (hhead : ∀ c ∈ pat.toList.head?, hexDigit c = false)
    (hplain : ∀ c ∈ pat.toList, plain c = true) (hrep : ∀ c ∈ rep.toList, plain c = true) (h : valid s = true) :
    valid (Text.replace pat rep s) = true := by
  obtain ⟨p, hp⟩ := Option.isSome_iff_exists.mp h
  have hread := read_replaceFrom (by simpa using hpat) hhead hplain hrep hp
  rw [valid, Text.replace, String.toList_ofList, hread]
  rfl

end IriSyntax
