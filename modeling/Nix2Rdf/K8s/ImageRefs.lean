import Nix2Rdf.K8s.Model
import Nix2Rdf.Lib.Encoding

/-!
# Image references

A reference is a repository with a tag and a digest, each of which may be missing. Ports, tags and
digests are all written with colons; the last slash and the first `@` tell them apart. The code cuts
the text at byte offsets.
-/

namespace Nix2Rdf.K8s

open Encoding (utf8 slice slice_append)

/-- The byte offset of the last occurrence. -/
def rfind (c : Char) (s : String) : Option Nat := (Text.rsplitOnce c s).map fun p => (utf8 p.1).length

def splitDigest (r : String) : String × Option String :=
  match Text.splitOnce '@' r with
  | some p => (p.1, some p.2)
  | none => (r, none)

/-- `parse_image_ref` as it slices the text, `none` where a slice panics. -/
def sliceImageRef (r : String) : Option (String × Option String × Option String) :=
  let rest := (splitDigest r).1
  let lastSlash := ((rfind '/' rest).map (· + 1)).getD 0
  (slice rest lastSlash (utf8 rest).length).bind fun last =>
    match rfind ':' last with
    | some i =>
        (slice rest 0 (lastSlash + i)).bind fun repo =>
          (slice rest (lastSlash + i + 1) (utf8 rest).length).map fun tag => (repo, some tag, (splitDigest r).2)
    | none => some (rest, none, (splitDigest r).2)

def composeImageRef (repo : String) (tag digest : Option String) : String :=
  repo ++ (tag.map (":" ++ ·)).getD "" ++ (digest.map ("@" ++ ·)).getD ""

/-! ## The last component of a path -/

/-- What may stand before the last component: nothing, or a path and a slash. -/
def EndsOpen (front : String) : Prop := front = "" ∨ ∃ dir, front = dir ++ "/"

theorem rsplitOnce_eq_none {c : Char} {s : String} : Text.rsplitOnce c s = none ↔ c ∉ s.toList := by
  simp [Text.rsplitOnce, Text.splitFirst_eq_none]

theorem lastPart_front {front last : String} (hfront : EndsOpen front) (h : '/' ∉ last.toList) :
    Text.lastPart '/' (front ++ last) = last := by
  obtain rfl | ⟨dir, rfl⟩ := hfront
  · rw [String.empty_append, Text.lastPart, List.splitOn_eq_singleton h]
    simp
  · exact Text.lastPart_append h dir

theorem exists_front (s : String) : ∃ front last, s = front ++ last ∧ EndsOpen front ∧ '/' ∉ last.toList := by
  cases hs : Text.rsplitOnce '/' s with
  | none => exact ⟨"", s, by rw [String.empty_append], .inl rfl, rsplitOnce_eq_none.mp hs⟩
  | some p =>
      obtain ⟨dir, last⟩ := p
      obtain ⟨hlist, hlast⟩ := Text.rsplitOnce_eq_some hs
      refine ⟨dir ++ "/", last, String.toList_inj.mp ?_, .inr ⟨dir, rfl⟩, hlast⟩
      simpa using hlist

/-- The component begins one byte after the last slash. -/
theorem rfind_front {front last : String} (hfront : EndsOpen front) (h : '/' ∉ last.toList) :
    ((rfind '/' (front ++ last)).map (· + 1)).getD 0 = (utf8 front).length := by
  obtain rfl | ⟨dir, rfl⟩ := hfront
  · rw [String.empty_append, rfind, rsplitOnce_eq_none.mpr h]
    rfl
  · rw [rfind, show dir ++ "/" ++ last = dir ++ String.singleton '/' ++ last from rfl, Text.rsplitOnce_append h]
    rw [Encoding.utf8_append, List.length_append]
    rfl

/-! ## Composed references -/

/-- The parts that parsing gives: a tag is what follows the last colon of the last component. -/
structure Splittable (repo : String) (tag : Option String) : Prop where
  noAt : '@' ∉ repo.toList
  untagged : tag = none → ':' ∉ (Text.lastPart '/' repo).toList
  plain : ∀ t, tag = some t → ∀ c ∈ ['/', ':', '@'], c ∉ t.toList

/-- The reference without its digest. -/
def tagged (repo : String) (tag : Option String) : String := repo ++ (tag.map (":" ++ ·)).getD ""

section
variable {repo : String} {tag : Option String} {digest : Option String}

theorem Splittable.tagged (h : Splittable repo tag) : '@' ∉ (tagged repo tag).toList := by
  cases tag with
  | none => simpa [K8s.tagged] using h.noAt
  | some t =>
      have ht := h.plain t rfl '@' (by decide)
      simp [K8s.tagged, h.noAt, ht]

/-- The digest is cut off at the first `@`. -/
theorem splitDigest_compose (h : Splittable repo tag) :
    splitDigest (composeImageRef repo tag digest) = (tagged repo tag, digest) := by
  cases digest with
  | none =>
      have hcompose : composeImageRef repo tag none = tagged repo tag := by simp [composeImageRef, tagged]
      rw [hcompose, splitDigest, Text.splitOnce_eq_none.mpr h.tagged]
  | some d =>
      have hcompose : composeImageRef repo tag (some d) = tagged repo tag ++ String.singleton '@' ++ d := by
        simp only [composeImageRef, tagged, Option.map_some, Option.getD_some, ← String.append_assoc]
        rfl
      rw [hcompose, splitDigest, Text.splitOnce_append h.tagged]

/-- The last component with its tag. -/
theorem exists_last (h : Splittable repo tag) : ∃ front last, repo = front ++ last ∧ EndsOpen front ∧
    '/' ∉ (tagged last tag).toList ∧ tagged repo tag = front ++ tagged last tag ∧
      (tag = none → ':' ∉ last.toList) := by
  obtain ⟨front, last, rfl, hfront, hlast⟩ := exists_front repo
  refine ⟨front, last, rfl, hfront, ?_, String.append_assoc, fun hnone => ?_⟩
  · cases tag with
    | none => simpa [tagged] using hlast
    | some t =>
        have ht := h.plain t rfl '/' (by decide)
        simp [tagged, hlast, ht]
  · rw [← lastPart_front hfront hlast]
    exact h.untagged hnone

theorem rsplitOnce_tagged {last : String} (h : Splittable repo tag) (hnone : tag = none → ':' ∉ last.toList) :
    Text.rsplitOnce ':' (tagged last tag) = tag.map fun t => (last, t) := by
  cases tag with
  | none =>
      have hlast : tagged last none = last := by simp [tagged]
      rw [hlast, rsplitOnce_eq_none.mpr (hnone rfl)]
      rfl
  | some t =>
      have hlast : tagged last (some t) = last ++ String.singleton ':' ++ t := by
        simp only [tagged, Option.map_some, Option.getD_some, ← String.append_assoc]
        rfl
      rw [hlast, Text.rsplitOnce_append (h.plain t rfl ':' (by decide))]
      rfl

theorem parseImageRef_eq (r : String) : parseImageRef r =
    match Text.rsplitOnce ':' (Text.lastPart '/' (splitDigest r).1) with
    | some p =>
        (String.ofList ((splitDigest r).1.toList.take
          ((splitDigest r).1.toList.length - (Text.lastPart '/' (splitDigest r).1).toList.length)) ++ p.1,
          some p.2, (splitDigest r).2)
    | none => ((splitDigest r).1, none, (splitDigest r).2) := by
  unfold parseImageRef splitDigest
  cases Text.splitOnce '@' r with
  | none => rfl
  | some p => rfl

/-- What is composed of parts is parsed into them. -/
theorem parseImageRef_compose (h : Splittable repo tag) :
    parseImageRef (composeImageRef repo tag digest) = (repo, tag, digest) := by
  obtain ⟨front, last, hrepo, hfront, hslash, htagged, hnone⟩ := exists_last h
  rw [parseImageRef_eq, splitDigest_compose h, htagged]
  dsimp only
  rw [lastPart_front hfront hslash, rsplitOnce_tagged h hnone]
  cases tag with
  | none =>
      have hlast : tagged last none = last := by simp [tagged]
      rw [hlast, ← hrepo]
      rfl
  | some t =>
      have htake : (front ++ tagged last (some t)).toList.take
          ((front ++ tagged last (some t)).toList.length - (tagged last (some t)).toList.length) = front.toList := by
        rw [String.toList_append, List.length_append, Nat.add_sub_cancel, List.take_left]
      dsimp only [Option.map_some]
      rw [htake, String.ofList_toList, ← hrepo]

/-- The byte offsets stand where the text is split. -/
theorem sliceImageRef_compose (h : Splittable repo tag) :
    sliceImageRef (composeImageRef repo tag digest) = some (repo, tag, digest) := by
  obtain ⟨front, last, hrepo, hfront, hslash, htagged, hnone⟩ := exists_last h
  have hwhole := slice_append front (tagged last tag) ""
  rw [String.append_empty, ← List.length_append, ← Encoding.utf8_append] at hwhole
  rw [sliceImageRef, splitDigest_compose h, htagged]
  dsimp only
  rw [rfind_front hfront hslash, hwhole, Option.bind_some, rfind, rsplitOnce_tagged h hnone]
  cases tag with
  | none =>
      have hlast : tagged last none = last := by simp [tagged]
      rw [hlast, ← hrepo]
      rfl
  | some t =>
      have hrest : front ++ tagged last (some t) = front ++ last ++ (":" ++ t) := (String.append_assoc).symm
      have hcut := slice_append "" (front ++ last) (":" ++ t)
      have htail := slice_append (front ++ last ++ ":") t ""
      have hrest' : front ++ last ++ ":" ++ t ++ "" = front ++ last ++ (":" ++ t) := by
        rw [String.append_empty, String.append_assoc]
      have hcolon : (utf8 (front ++ last ++ ":")).length = (utf8 front).length + (utf8 last).length + 1 := by
        rw [Encoding.utf8_append, Encoding.utf8_append, List.length_append, List.length_append]
        rfl
      have hend : (utf8 (front ++ last ++ (":" ++ t))).length = (utf8 (front ++ last ++ ":")).length +
          (utf8 t).length := by
        rw [← String.append_assoc, Encoding.utf8_append, List.length_append]
      have hzero : (utf8 "").length = 0 := rfl
      rw [String.empty_append, hzero, Nat.zero_add, Encoding.utf8_append, List.length_append] at hcut
      rw [hrest', hcolon] at htail
      rw [hcolon] at hend
      dsimp only [Option.map_some]
      rw [hrest, hend, hcut, htail, hrepo]
      rfl

/-- Every text is composed of the parts that it is parsed into. -/
theorem exists_splittable (r : String) : ∃ repo tag digest, Splittable repo tag ∧
    r = composeImageRef repo tag digest := by
  have htail : ∀ rest : String, '@' ∉ rest.toList → ∃ repo tag, Splittable repo tag ∧ rest = tagged repo tag := by
    intro rest hat
    obtain ⟨front, last, rfl, hfront, hlast⟩ := exists_front rest
    rw [String.toList_append, List.mem_append, not_or] at hat
    cases hs : Text.rsplitOnce ':' last with
    | none =>
        refine ⟨front ++ last, none, ⟨?_, fun _ => ?_, fun t ht => ?_⟩, by simp [tagged]⟩
        · rw [String.toList_append, List.mem_append, not_or]
          exact hat
        · rw [lastPart_front hfront hlast]
          exact rsplitOnce_eq_none.mp hs
        · cases ht
    | some p =>
        obtain ⟨a, t⟩ := p
        obtain ⟨hlist, hcolon⟩ := Text.rsplitOnce_eq_some hs
        have hcomponent : last = a ++ ":" ++ t := String.toList_inj.mp (by simpa using hlist)
        subst hcomponent
        simp only [String.toList_append, List.mem_append, not_or] at hat hlast
        refine ⟨front ++ a, some t, ⟨?_, fun hnone => ?_, fun u hu c hc => ?_⟩, ?_⟩
        · rw [String.toList_append, List.mem_append, not_or]
          exact ⟨hat.1, hat.2.1.1⟩
        · cases hnone
        · cases hu
          simp only [List.mem_cons, List.not_mem_nil, or_false] at hc
          rcases hc with rfl | rfl | rfl
          · exact hlast.2
          · exact hcolon
          · exact hat.2.2
        · simp [tagged, String.append_assoc]
  cases hs : Text.splitOnce '@' r with
  | none =>
      obtain ⟨repo, tag, hsep, htagged⟩ := htail r (Text.splitOnce_eq_none.mp hs)
      exact ⟨repo, tag, none, hsep, by rw [htagged]; simp [composeImageRef, tagged]⟩
  | some p =>
      obtain ⟨rest, d⟩ := p
      obtain ⟨hlist, hat⟩ := Text.splitOnce_eq_some hs
      obtain ⟨repo, tag, hsep, rfl⟩ := htail rest hat
      refine ⟨repo, tag, some d, hsep, String.toList_inj.mp ?_⟩
      rw [hlist]
      simp [composeImageRef, tagged]

end

/-- References are split without loss, at places where text may be cut. Parts with a repository whose
last component has no colon are parsed as they were composed. -/
theorem parseImageRef_lossless :
    (∀ r, sliceImageRef r = some (parseImageRef r)) ∧
    (∀ r, composeImageRef (parseImageRef r).1 (parseImageRef r).2.1 (parseImageRef r).2.2 = r ∧
      ∀ t, (parseImageRef r).2.1 = some t → '/' ∉ t.toList) ∧
    ∀ repo tag digest, '@' ∉ repo.toList → ':' ∉ (Text.lastPart '/' repo).toList →
      (∀ t, tag = some t → '/' ∉ t.toList ∧ ':' ∉ t.toList ∧ '@' ∉ t.toList) →
        parseImageRef (composeImageRef repo tag digest) = (repo, tag, digest) := by
  refine ⟨fun r => ?_, fun r => ?_, fun repo tag digest hat hcolon htag => ?_⟩
  · obtain ⟨repo, tag, digest, hsep, rfl⟩ := exists_splittable r
    rw [sliceImageRef_compose hsep, parseImageRef_compose hsep]
  · obtain ⟨repo, tag, digest, hsep, rfl⟩ := exists_splittable r
    rw [parseImageRef_compose hsep]
    exact ⟨rfl, fun t ht => hsep.plain t ht '/' (by decide)⟩
  · refine parseImageRef_compose ⟨hat, fun _ => hcolon, fun t ht c hc => ?_⟩
    obtain ⟨hslash, hcolon', hat'⟩ := htag t ht
    simp only [List.mem_cons, List.not_mem_nil, or_false] at hc
    rcases hc with rfl | rfl | rfl
    · exact hslash
    · exact hcolon'
    · exact hat'

end Nix2Rdf.K8s
