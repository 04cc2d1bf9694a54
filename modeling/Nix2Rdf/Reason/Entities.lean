import Nix2Rdf.Nix
import Nix2Rdf.Lib.IriSyntax

/-!
# From entities back to fragments

An entity IRI is mapped to the fragment that defines it, where the mapping is a function of the IRI.
A closure is followed along this mapping.
-/

namespace Nix2Rdf

open Encoding
open Text (slash)

namespace Reason

/-- Inverse of `narHashSegment`. -/
def decodeNar (seg : String) : String :=
  match Text.splitOnce '-' seg with
  | some (algo, b) =>
      match unbase64Url b.toList with
      | some bytes => algo ++ "-" ++ String.ofList (base64 bytes)
      | none => seg
  | none => seg

def hexDigit (b : UInt8) : Option UInt8 :=
  if 48 ≤ b ∧ b ≤ 57 then some (b - 48)
  else if 65 ≤ b ∧ b ≤ 70 then some (b - 55)
  else if 97 ≤ b ∧ b ≤ 102 then some (b - 87)
  else none

/-- Two bytes as a number; a plus sign may stand in front of a single digit. -/
def fromRadix16 (x y : UInt8) : Option UInt8 :=
  match hexDigit x, hexDigit y with
  | some h, some l => some (16 * h + l)
  | none, some l => if x = 43 then some l else none
  | _, none => none

/-- The slice after a percent sign ends inside of a character. -/
def slicePanic : String := "byte index is not a char boundary"

def percentLoop : List UInt8 → Result (List UInt8)
  | [] => .ok []
  | b :: rest =>
      match rest with
      | x :: y :: after =>
          if b = 37 then
            -- The program panics here.
            if after.head?.any isContinuation then .error slicePanic
            else
              match fromRadix16 x y with
              | some v => (percentLoop after).map (v :: ·)
              | none => (percentLoop (x :: y :: after)).map (b :: ·)
          else (percentLoop (x :: y :: after)).map (b :: ·)
      | rest => (percentLoop rest).map (b :: ·)

def percentDecode (s : String) : Result String := (percentLoop (utf8 s)).map fromUtf8Lossy

/-- The fragment that defines an entity. -/
def fragmentForIri (iri : Iri) : Result (Option FragmentKind) :=
  match (Text.stripPrefix? idBase iri).bind (Text.splitOnce '/') with
  | none => .ok none
  | some (kind, ident) =>
      let single := '/' ∉ ident.toList
      if kind = "drv" then .ok (some (.drv ident))
      else if kind = "src" then .ok (some (.src (decodeNar ident)))
      else if kind = "pin" ∧ single then .ok (some (.pin (decodeNar ident)))
      else if kind = "gen" ∧ single then .ok (some (.gen ident))
      else if kind = "nixpkgs" ∧ single then .ok (some (.nixpkgs ident))
      else if kind = "oci" then .ok ((Text.stripPrefix? "sha256/" ident).map .image)
      else if kind = "git" then
        match Text.rsplitOnce '/' ident with
        | none => .ok none
        | some (repo, sha) => (percentDecode repo).map fun repo => some (.commit repo sha)
      else if kind = "k8s" then
        match Text.splitOnce '/' ident with
        | none => .ok none
        | some (cluster, rest) =>
            match Text.splitOnce '/' rest with
            | none => .ok none
            | some (k, h) =>
                if k = "snapshot" then
                  (percentDecode cluster).map fun cluster => some (.k8sSnapshot cluster h)
                else if k = "nodes" then
                  (percentDecode cluster).map fun cluster => some (.k8sNodes cluster h)
                else .ok none
      else .ok none

/-! ## Percent-encoding is read back -/

theorem percentLoop_plain {b : UInt8} (hb : b ≠ 37) (rest : List UInt8) :
    percentLoop (b :: rest) = (percentLoop rest).map (b :: ·) := by
  rw [percentLoop.eq_def]
  dsimp only
  split
  · exact if_neg hb
  · rfl

theorem percentLoop_escape {x y v : UInt8} (hv : fromRadix16 x y = some v) {after : List UInt8}
    (hafter : after.head?.any isContinuation = false) :
    percentLoop (37 :: x :: y :: after) = (percentLoop after).map (v :: ·) := by
  rw [percentLoop.eq_def]
  simp [hv, hafter]

theorem fromRadix16_upperHex : ∀ n < 256,
    fromRadix16 (UInt8.ofNat (upperHex (n / 16)).toNat) (UInt8.ofNat (upperHex (n % 16)).toNat)
      = some (UInt8.ofNat n) := by
  decide +kernel

theorem percentOctets_head : ∀ n < 256,
    (percentOctets segmentSafe (UInt8.ofNat n)).head?.any isContinuation = false := by
  decide +kernel

theorem head_percentOctets (bs : List UInt8) :
    (bs.flatMap (percentOctets segmentSafe)).head?.any isContinuation = false := by
  cases bs with
  | nil => rfl
  | cons b bs =>
      have hb := percentOctets_head b.toNat (UInt8.toNat_lt_size b)
      rw [UInt8.ofNat_toNat] at hb
      have hne : percentOctets segmentSafe b ≠ [] := by
        unfold percentOctets
        split <;> exact List.cons_ne_nil _ _
      rw [List.flatMap_cons, List.head?_append_of_ne_nil _ hne]
      exact hb

theorem percentLoop_percentOctets (bs : List UInt8) :
    percentLoop (bs.flatMap (percentOctets segmentSafe)) = .ok bs := by
  induction bs with
  | nil => rfl
  | cons b bs ih =>
      rw [List.flatMap_cons, percentOctets]
      split
      · rename_i hb
        have hne : b ≠ 37 := by
          rintro rfl
          exact absurd hb (by decide)
        rw [List.singleton_append, percentLoop_plain hne, ih]
        rfl
      · have hv := fromRadix16_upperHex b.toNat (UInt8.toNat_lt_size b)
        rw [UInt8.ofNat_toNat] at hv
        rw [List.cons_append, List.cons_append, List.cons_append, List.nil_append,
          percentLoop_escape hv (head_percentOctets bs), ih]
        rfl

/-- Any string is read back from its segment. -/
theorem percentDecode_encodeSegment (s : String) : percentDecode (encodeSegment s) = .ok s := by
  have hascii : ∀ b, segmentSafe b → b.toNat < 128 := by
    intro b hb
    exact segmentSafe_ascii b.toNat (UInt8.toNat_lt_size b) (by rwa [UInt8.ofNat_toNat])
  rw [percentDecode, encodeSegment, percentEncode, utf8_percentBytes hascii,
    percentLoop_percentOctets]
  exact congrArg Except.ok (fromUtf8Lossy_utf8 s)

/-! ## Escaped text is decoded -/

theorem fromRadix16_hexDigit {hi lo : Char} (hhi : IriSyntax.hexDigit hi = true)
    (hlo : IriSyntax.hexDigit lo = true) :
    String.utf8EncodeChar hi = [UInt8.ofNat hi.toNat] ∧ String.utf8EncodeChar lo = [UInt8.ofNat lo.toNat] ∧
      ∃ v, fromRadix16 (UInt8.ofNat hi.toNat) (UInt8.ofNat lo.toNat) = some v := by
  have hdigit : ∀ n < 128, IriSyntax.hexDigit (Char.ofNat n) = true → (hexDigit (UInt8.ofNat n)).isSome = true := by
    decide
  have hascii : ∀ c, IriSyntax.hexDigit c = true → c.toNat < 128 := by
    intro c hc
    simp only [IriSyntax.hexDigit, IriSyntax.within, Bool.or_eq_true, Bool.and_eq_true, decide_eq_true_eq] at hc
    omega
  have hvalue : ∀ c, IriSyntax.hexDigit c = true → ∃ v, hexDigit (UInt8.ofNat c.toNat) = some v := by
    intro c hc
    refine Option.isSome_iff_exists.mp (hdigit c.toNat (hascii c hc) ?_)
    rw [Char.ofNat_toNat]
    exact hc
  obtain ⟨h, hh⟩ := hvalue hi hhi
  obtain ⟨l, hl⟩ := hvalue lo hlo
  refine ⟨utf8EncodeChar_ascii (hascii hi hhi), utf8EncodeChar_ascii (hascii lo hlo), 16 * h + l, ?_⟩
  simp [fromRadix16, hh, hl]

theorem percentLoop_append {bs : List UInt8} (h : ∀ b ∈ bs, b ≠ 37) (rest : List UInt8) :
    percentLoop (bs ++ rest) = (percentLoop rest).map (bs ++ ·) := by
  induction bs with
  | nil =>
      rw [List.nil_append]
      cases percentLoop rest with
      | error e => rfl
      | ok bs => rfl
  | cons b bs ih =>
      rw [List.cons_append, percentLoop_plain (h b List.mem_cons_self),
        ih fun c hc => h c (List.mem_cons_of_mem _ hc)]
      cases percentLoop rest with
      | error e => rfl
      | ok cs => rfl

/-- The slices after the percent signs of an IRI hold two digits. -/
theorem percentLoop_escaped {l : List Char} (h : IriSyntax.escaped l = true) :
    ∃ bs, percentLoop (l.flatMap String.utf8EncodeChar) = .ok bs := by
  induction l using IriSyntax.escaped.induct with
  | case1 => exact ⟨[], rfl⟩
  | case2 hi lo rest ih =>
      rw [IriSyntax.escaped_escape, Bool.and_eq_true, Bool.and_eq_true] at h
      obtain ⟨bs, hbs⟩ := ih h.2
      obtain ⟨hhi, hlo, v, hv⟩ := fromRadix16_hexDigit h.1.1 h.1.2
      have hpercent : String.utf8EncodeChar '%' = [37] := by decide
      have hhead : (rest.flatMap String.utf8EncodeChar).head?.any isContinuation = false := by
        cases rest with
        | nil => rfl
        | cons c rest =>
            rw [List.flatMap_cons, List.head?_append_of_ne_nil _ (String.utf8EncodeChar_ne_nil)]
            exact head_utf8EncodeChar c
      refine ⟨v :: bs, ?_⟩
      rw [List.flatMap_cons, List.flatMap_cons, List.flatMap_cons, hpercent, hhi, hlo, List.singleton_append,
        List.singleton_append, List.singleton_append, percentLoop_escape hv hhead, hbs]
      rfl
  | case3 cs hcs =>
      rw [IriSyntax.escaped_short hcs] at h
      cases h
  | case4 c cs hc ih =>
      rw [IriSyntax.escaped_cons hc] at h
      obtain ⟨bs, hbs⟩ := ih h
      have hbytes : ∀ b ∈ String.utf8EncodeChar c, b ≠ 37 := by
        intro b hb heq
        have hsmall : b.toNat < 128 := by
          rw [heq]
          decide
        have hcode := toNat_of_mem_utf8EncodeChar hb hsmall
        refine hc ?_
        rw [← Char.ofNat_toNat c, ← hcode, heq]
        rfl
      exact ⟨_, by rw [List.flatMap_cons, percentLoop_append hbytes, hbs]; rfl⟩

theorem percentDecode_escaped {s : String} (h : IriSyntax.escaped s.toList = true) :
    ∃ t, percentDecode s = .ok t := by
  obtain ⟨bs, hbs⟩ := percentLoop_escaped h
  exact ⟨fromUtf8Lossy bs, by rw [percentDecode, utf8, hbs]; rfl⟩

/-- The mapping is defined for everything that is an IRI. -/
theorem fragmentForIri_escaped {iri : Iri} (h : IriSyntax.escaped iri.toList = true) :
    ∃ k, fragmentForIri iri = .ok k := by
  have hsplit : ∀ {a b : List Char}, IriSyntax.escaped (a ++ '/' :: b) = true →
      IriSyntax.escaped a = true ∧ IriSyntax.escaped b = true := by
    intro a b hab
    rw [IriSyntax.escaped_split (by decide) (by decide), Bool.and_eq_true] at hab
    exact hab
  cases hparts : (Text.stripPrefix? idBase iri).bind (Text.splitOnce '/') with
  | none => exact ⟨none, by rw [fragmentForIri, hparts]⟩
  | some parts =>
      obtain ⟨kind, ident⟩ := parts
      obtain ⟨rest, hrest, honce⟩ := Option.bind_eq_some_iff.mp hparts
      have hident : IriSyntax.escaped ident.toList = true := by
        have hbase : IriSyntax.escaped idBase.toList = true := IriSyntax.escaped_of_not_mem (by decide)
        rw [Text.stripPrefix?_eq_some hrest, String.toList_append, IriSyntax.escaped_append hbase,
          (Text.splitOnce_eq_some honce).1] at h
        exact (hsplit h).2
      unfold fragmentForIri
      rw [hparts]
      dsimp only
      split_ifs
      · exact ⟨_, rfl⟩
      · exact ⟨_, rfl⟩
      · exact ⟨_, rfl⟩
      · exact ⟨_, rfl⟩
      · exact ⟨_, rfl⟩
      · exact ⟨_, rfl⟩
      · cases hgit : Text.rsplitOnce '/' ident with
        | none => exact ⟨none, rfl⟩
        | some parts =>
            obtain ⟨repo, sha⟩ := parts
            rw [(Text.rsplitOnce_eq_some hgit).1] at hident
            obtain ⟨repo', hrepo⟩ := percentDecode_escaped (hsplit hident).1
            exact ⟨_, by dsimp only; rw [hrepo]; rfl⟩
      · cases hk8s : Text.splitOnce '/' ident with
        | none => exact ⟨none, rfl⟩
        | some parts =>
            obtain ⟨cluster, rest⟩ := parts
            rw [(Text.splitOnce_eq_some hk8s).1] at hident
            obtain ⟨cluster', hcluster⟩ := percentDecode_escaped (hsplit hident).1
            dsimp only
            cases Text.splitOnce '/' rest with
            | none => exact ⟨none, rfl⟩
            | some parts =>
                dsimp only
                rw [hcluster]
                split_ifs
                · exact ⟨_, rfl⟩
                · exact ⟨_, rfl⟩
                · exact ⟨none, rfl⟩
      · exact ⟨none, rfl⟩

/-! ## NAR hashes are read back -/

/-- An algorithm, a dash, and the bytes in padded Base64. -/
def CanonicalSri (sri : String) : Prop :=
  ∃ (algo : String) (bytes : List UInt8), '-' ∉ algo.toList ∧ '/' ∉ algo.toList ∧
    sri = algo ++ "-" ++ String.ofList (base64 bytes)

theorem narHashSegment_sri {algo : String} (halgo : '-' ∉ algo.toList) (bytes : List UInt8) :
    narHashSegment (algo ++ "-" ++ String.ofList (base64 bytes))
      = algo ++ "-" ++ String.ofList (base64Url bytes) := by
  have hsplit := Text.splitOnce_append halgo (String.ofList (base64 bytes))
  have hdash : algo ++ "-" ++ String.ofList (base64 bytes)
      = algo ++ String.singleton '-' ++ String.ofList (base64 bytes) := rfl
  rw [narHashSegment, hdash, hsplit]
  dsimp only
  rw [String.toList_ofList, unbase64_base64]

theorem decodeNar_narHashSegment {sri : String} (h : CanonicalSri sri) :
    decodeNar (narHashSegment sri) = sri := by
  obtain ⟨algo, bytes, hdash, _, rfl⟩ := h
  have hsplit := Text.splitOnce_append hdash (String.ofList (base64Url bytes))
  have heq : algo ++ "-" ++ String.ofList (base64Url bytes)
      = algo ++ String.singleton '-' ++ String.ofList (base64Url bytes) := rfl
  rw [narHashSegment_sri hdash, decodeNar, heq, hsplit]
  dsimp only
  rw [String.toList_ofList, unbase64Url_base64Url]

theorem base64Digit_ne_slash : ∀ n < 64, base64Digit '-' '_' n ≠ '/' := by decide

theorem slash_not_mem_base64Url (bs : List UInt8) : '/' ∉ base64Url bs := by
  intro h
  obtain ⟨n, hn, heq⟩ := Encoding.mem_base64Url h
  exact base64Digit_ne_slash n hn heq.symm

theorem slash_not_mem_narHashSegment {sri : String} (h : CanonicalSri sri) :
    '/' ∉ (narHashSegment sri).toList := by
  obtain ⟨algo, bytes, hdash, hslash, rfl⟩ := h
  rw [narHashSegment_sri hdash]
  simp only [String.toList_append, String.toList_ofList, List.mem_append, not_or]
  exact ⟨⟨hslash, by decide⟩, slash_not_mem_base64Url bytes⟩

/-! ## Entities are mapped back -/

theorem split_id {kind : String} (h : '/' ∉ kind.toList) (ident : String) :
    (Text.stripPrefix? idBase (id (kind ++ "/" ++ ident))).bind (Text.splitOnce '/')
      = some (kind, ident) := by
  rw [id, Text.stripPrefix?_append]
  exact Text.splitOnce_append h ident

/-- The kinds whose graph names an entity that is mapped back, with hashes that are one segment. -/
def MapsBack : FragmentKind → Prop
  | .drv hash | .gen hash => '/' ∉ hash.toList
  | .nixpkgs rev => '/' ∉ rev.toList
  | .image digest => '/' ∉ digest.toList
  | .src narHash | .pin narHash => CanonicalSri narHash
  | .commit _ sha => '/' ∉ sha.toList
  | .k8sSnapshot _ hash | .k8sNodes _ hash => '/' ∉ hash.toList
  | _ => False

theorem fragmentForIri_k8s (cluster k h : String) (hk : '/' ∉ k.toList) :
    fragmentForIri (id (slash ["k8s", encodeSegment cluster, k, h]))
      = if k = "snapshot" then .ok (some (.k8sSnapshot cluster h))
        else if k = "nodes" then .ok (some (.k8sNodes cluster h)) else .ok none := by
  have hcluster := Text.splitOnce_append (slash_not_mem_encodeSegment cluster) (k ++ "/" ++ h)
  have hrest := Text.splitOnce_append hk h
  have hs : slash ["k8s", encodeSegment cluster, k, h]
      = "k8s" ++ "/" ++ (encodeSegment cluster ++ String.singleton '/' ++ (k ++ "/" ++ h)) := by
    rw [Text.slash_cons, Text.slash_cons, Text.slash_pair]
    rfl
  have hk' : k ++ "/" ++ h = k ++ String.singleton '/' ++ h := rfl
  rw [fragmentForIri, hs, split_id (by decide)]
  simp only [String.reduceEq, ↓reduceIte, false_and]
  rw [hcluster]
  dsimp only
  rw [hk', hrest]
  simp only [percentDecode_encodeSegment]
  rfl

theorem fragmentForIri_image (digest : String) : fragmentForIri (Iri.image digest) = .ok (some (.image digest)) := by
  have hstrip := Text.stripPrefix?_append "sha256/" digest
  have hs : slash ["oci", "sha256", digest] = "oci" ++ "/" ++ ("sha256/" ++ digest) := by
    rw [Text.slash_cons, Text.slash_pair]
    rfl
  rw [Iri.image, hs, fragmentForIri, split_id (by decide)]
  simp [hstrip]

theorem fragmentForIri_graph {k : FragmentKind} (h : MapsBack k) :
    fragmentForIri k.graph = .ok (some k) ∧
      ∀ k', fragmentForIri k.graph = .ok (some k') → Store.pathOf k' = Store.pathOf k := by
  have hback : fragmentForIri k.graph = .ok (some k) := by
    cases k with
    | drv hash =>
        rw [FragmentKind.graph, Iri.drv, Text.slash_pair, fragmentForIri, split_id (by decide)]
        rfl
    | src narHash =>
        rw [FragmentKind.graph, Iri.src, Text.slash_pair, fragmentForIri, split_id (by decide)]
        simp [decodeNar_narHashSegment h]
    | pin narHash =>
        rw [FragmentKind.graph, Iri.pin, Text.slash_pair, fragmentForIri, split_id (by decide)]
        simp [decodeNar_narHashSegment h, slash_not_mem_narHashSegment h]
    | gen hash =>
        have hs : '/' ∉ hash.toList := h
        rw [FragmentKind.graph, Iri.gen, Text.slash_pair, fragmentForIri, split_id (by decide)]
        simp [hs]
    | nixpkgs rev =>
        have hs : '/' ∉ rev.toList := h
        rw [FragmentKind.graph, Iri.nixpkgs, Text.slash_pair, fragmentForIri, split_id (by decide)]
        simp [hs]
    | image digest => exact fragmentForIri_image digest
    | commit repo sha =>
        have hsplit := Text.rsplitOnce_append (b := sha) h (encodeSegment repo)
        have hs : slash ["git", encodeSegment repo, sha]
            = "git" ++ "/" ++ (encodeSegment repo ++ String.singleton '/' ++ sha) := by
          rw [Text.slash_cons, Text.slash_pair]
          rfl
        rw [FragmentKind.graph, Iri.commit, hs, fragmentForIri, split_id (by decide)]
        simp only [String.reduceEq, ↓reduceIte, false_and]
        rw [hsplit]
        simp only [percentDecode_encodeSegment]
        rfl
    | k8sSnapshot cluster hash => exact fragmentForIri_k8s cluster "snapshot" hash (by decide)
    | k8sNodes cluster hash => exact fragmentForIri_k8s cluster "nodes" hash (by decide)
    | _ => exact h.elim
  refine ⟨hback, fun k' hk' => ?_⟩
  rw [hback] at hk'
  cases hk'
  rfl

theorem fragmentForIri_graph_commit :
    fragmentForIri (FragmentKind.commit "git@host:a/ü" "ab12").graph
      = .ok (some (.commit "git@host:a/ü" "ab12")) :=
  (fragmentForIri_graph (k := .commit "git@host:a/ü" "ab12") (by decide : '/' ∉ "ab12".toList)).1

end Reason

end Nix2Rdf
