import Nix2Rdf.Extract.Image

/-!
# Docker archives

The archive is read in one pass. What an entry is, is guessed from its name, before the manifest may
have been seen; the manifest then picks the config and the layers out of what was remembered.
-/

namespace Nix2Rdf

/-- The entries of a layer, as the parser of tar files lists them. -/
structure TarReader where
  paths : List UInt8 → Result (List String)
  /-- How many bytes have been read when the listing ends. -/
  consumed : List UInt8 → Nat

/-- A reader that hashes what is read through it. -/
structure HashingReader where
  inner : List UInt8
  hashed : List UInt8 := []

namespace HashingReader

def read (r : HashingReader) (n : Nat) : HashingReader := ⟨r.inner.drop n, r.hashed ++ r.inner.take n⟩

/-- Read until nothing is left. -/
def drain (r : HashingReader) : HashingReader :=
  if r.inner.isEmpty then r else drain (r.read 8192)
termination_by r.inner.length
decreasing_by
  cases hr : r.inner with
  | nil => simp_all
  | cons b bs =>
      simp only [read, hr, List.length_drop, List.length_cons]
      omega

theorem read_whole (r : HashingReader) (n : Nat) : (r.read n).hashed ++ (r.read n).inner = r.hashed ++ r.inner := by
  rw [read, List.append_assoc, List.take_append_drop]

/-- However much was read before, in the end everything is hashed. -/
theorem drain_hashed (r : HashingReader) : r.drain.hashed = r.hashed ++ r.inner := by
  induction r using drain.induct with
  | case1 r hempty =>
      rw [drain, if_pos hempty, List.isEmpty_iff.mp hempty, List.append_nil]
  | case2 r hmore ih => rw [drain, if_neg hmore, ih, read_whole]

end HashingReader

structure ArchiveEntry where
  path : String
  bytes : List UInt8

/-- A leading `./` is not part of the name. -/
def ArchiveEntry.name (e : ArchiveEntry) : String := (Text.stripPrefix? "./" e.path).getD e.path

namespace Extract

/-- The hash, the dash and a name, as the last part of a store path has them. -/
def isStoreName (comp : String) : Bool :=
  33 < (Encoding.utf8 comp).length && (Encoding.utf8 comp)[32]? == some 45

/-- Store paths mentioned by a tar entry path such as `nix/store/<hash>-name/bin/x`. -/
def storePathOfEntry (p : String) : Option String :=
  let rest := (Text.stripPrefix? "./" p).getD p
  let rest := (Text.stripPrefix? "/" rest).getD rest
  (Text.stripPrefix? "nix/store/" rest).bind fun rest =>
    let comp := ((Text.splitOnce '/' rest).map Prod.fst).getD rest
    if isStoreName comp then some ("/nix/store/" ++ comp) else none

/-- What the pass over the archive remembers. -/
structure ArchiveScan where
  manifest : Option Json := none
  configName : Option String := none
  layersByName : BTreeMap LayerDesc := ∅
  configDigestFromContent : Option String := none

def readLayer (x : Extern) (tar : TarReader) (bytes : List UInt8) : Result LayerDesc := do
  let paths ← tar.paths bytes
  -- the listing has read some of the bytes, and the rest is drained
  let reader := (HashingReader.read { inner := bytes } (tar.consumed bytes)).drain
  return {
    digestHex := x.sha256Hex reader.hashed
    mediaType := some "application/vnd.oci.image.layer.v1.tar"
    storePaths := btreeSet (paths.filterMap storePathOfEntry) }

def readManifest (x : Extern) (bytes : List UInt8) : Result Json :=
  match (Encoding.ofUtf8 bytes).map x.parseJson with
  | none => .error "stream did not contain valid UTF-8"
  | some none => .error "json error"
  | some (some v) => .ok v

def isTopJson (name : String) : Bool :=
  Text.endsWith ".json" name && !name.toList.contains '/' && name ≠ "repositories"

/-- One entry of the archive. -/
def scanEntry (x : Extern) (tar : TarReader) (s : ArchiveScan) (e : ArchiveEntry) : Result ArchiveScan :=
  if e.name = "manifest.json" then do
    return { s with manifest := some (← readManifest x e.bytes) }
  else if isTopJson e.name then
    .ok { s with configName := some e.name, configDigestFromContent := some (x.sha256Hex e.bytes) }
  else if Text.endsWith "layer.tar" e.name || Text.endsWith ".tar" e.name then do
    return { s with layersByName := s.layersByName.insert e.name (← readLayer x tar e.bytes) }
  else .ok s

/-- The first image of the manifest. -/
def firstImage (manifest : Json) : Json := ((manifest.asArr?).bind List.head?).getD manifest

/-- The name of a file called by a digest, without `.json`. -/
def digestInName (name : String) : Option String :=
  (Text.stripSuffix? ".json" name).filter fun h => (Encoding.utf8 h).length == 64

def describeArchive (path : String) (s : ArchiveScan) : Result ImageDesc :=
  match s.manifest with
  | none => .error (path ++ ": no manifest.json (not a docker archive?)")
  | some manifest =>
      let m0 := firstImage manifest
      let cfg := ((m0.get? "Config").bind Json.asStr?).or s.configName
      .ok {
        tool := "dockerTools"
        configDigestHex := (cfg.bind digestInName).or s.configDigestFromContent
        repoTags := (((m0.get? "RepoTags").bind Json.asArr?).getD []).filterMap Json.asStr?
        -- a layer that is listed but was not found is left out, with a warning
        layers := (((m0.get? "Layers").bind Json.asArr?).getD []).filterMap fun l =>
          s.layersByName[(l.asStr?).getD ""]? }

/-- Parse a docker archive, given the entries of the tarball. -/
def readDockerArchive (x : Extern) (tar : TarReader) (path : String) (archive : List ArchiveEntry) :
    Result ImageDesc := do
  describeArchive path (← archive.foldlM (scanEntry x tar) {})

/-! ## What an archive says -/

/-- The last entry of a name: it is the one that unpacking leaves. -/
def entryNamed (archive : List ArchiveEntry) (name : String) : Option ArchiveEntry :=
  archive.reverse.find? fun e => e.name == name

/-- The store path that an entry of a layer lies under. -/
def LiesUnder (p storePath : String) : Prop :=
  ∃ lead ∈ ["", "./", "/", ".//"], ∃ comp below, p = lead ++ "nix/store/" ++ comp ++ below ∧
    '/' ∉ comp.toList ∧ (below = "" ∨ ∃ b, below = "/" ++ b) ∧ isStoreName comp = true ∧
      storePath = "/nix/store/" ++ comp

/-- The manifest names the config and the layers of the image. -/
def ManifestNames (x : Extern) (archive : List ArchiveEntry) (config : String) (layers : List String) : Prop :=
  ∃ e manifest, entryNamed archive "manifest.json" = some e ∧ readManifest x e.bytes = .ok manifest ∧
    (firstImage manifest).get? "Config" = some (.str config) ∧
      (firstImage manifest).get? "Layers" = some (.arr (layers.map .str))

/-- The layer is the one in the entry of the name. -/
def Describes (x : Extern) (tar : TarReader) (archive : List ArchiveEntry) (name : String) (l : LayerDesc) : Prop :=
  ∃ e paths, entryNamed archive name = some e ∧ l.digestHex = x.sha256Hex e.bytes ∧ tar.paths e.bytes = .ok paths ∧
    ∀ sp, sp ∈ l.storePaths ↔ ∃ p ∈ paths, LiesUnder p sp

/-- The image has the digest of its config, and the layers that the archive contains, in the order of
the manifest. -/
structure IdentifiedByContent (x : Extern) (tar : TarReader) (archive : List ArchiveEntry) (config : String)
    (layers : List String) (desc : ImageDesc) : Prop where
  config : ∃ e, entryNamed archive config = some e ∧ desc.configDigestHex = some (x.sha256Hex e.bytes)
  layers : List.Forall₂ (Describes x tar archive) (layers.filter fun l => (entryNamed archive l).isSome) desc.layers

/-- The last `.json` file at the top, the manifest apart. -/
def lastJson (archive : List ArchiveEntry) : Option ArchiveEntry :=
  archive.reverse.find? fun e => e.name != "manifest.json" && isTopJson e.name

/-! ## Store paths -/

theorem firstPart_eq {comp below : String} (hcomp : '/' ∉ comp.toList) (hbelow : below = "" ∨ ∃ b, below = "/" ++ b) :
    ((Text.splitOnce '/' (comp ++ below)).map Prod.fst).getD (comp ++ below) = comp := by
  rcases hbelow with rfl | ⟨b, rfl⟩
  · rw [String.append_empty, Text.splitOnce_eq_none.mpr hcomp]
    rfl
  · have hslash : comp ++ ("/" ++ b) = comp ++ String.singleton '/' ++ b := by
      rw [String.append_assoc]
      rfl
    rw [hslash, Text.splitOnce_append hcomp]
    rfl

theorem exists_firstPart (rest : String) : ∃ comp below, rest = comp ++ below ∧ '/' ∉ comp.toList ∧
    (below = "" ∨ ∃ b, below = "/" ++ b) := by
  cases hsplit : Text.splitOnce '/' rest with
  | none => exact ⟨rest, "", String.append_empty.symm, Text.splitOnce_eq_none.mp hsplit, .inl rfl⟩
  | some parts =>
      obtain ⟨heq, hno⟩ := Text.splitOnce_eq_some hsplit
      refine ⟨parts.1, "/" ++ parts.2, ?_, hno, .inr ⟨parts.2, rfl⟩⟩
      apply String.toList_inj.mp
      rw [heq, String.toList_append, String.toList_append]
      rfl

theorem strip_getD (pre s : String) : ∃ a, (a = "" ∨ a = pre) ∧ s = a ++ (Text.stripPrefix? pre s).getD s := by
  cases hstrip : Text.stripPrefix? pre s with
  | none => exact ⟨"", .inl rfl, String.empty_append.symm⟩
  | some t => exact ⟨pre, .inr rfl, Text.stripPrefix?_eq_some hstrip⟩

/-- The text of the entry gives the store path that it lies under. -/
theorem storePathOfEntry_eq_some {p sp : String} : storePathOfEntry p = some sp ↔ LiesUnder p sp := by
  rw [storePathOfEntry]
  constructor
  · intro h
    obtain ⟨a, ha, hp⟩ := strip_getD "./" p
    obtain ⟨b, hb, hrest⟩ := strip_getD "/" ((Text.stripPrefix? "./" p).getD p)
    obtain ⟨rest, hstrip, h⟩ := Option.bind_eq_some_iff.mp h
    obtain ⟨comp, below, rfl, hcomp, hbelow⟩ := exists_firstPart rest
    rw [firstPart_eq hcomp hbelow] at h
    dsimp only at h
    split at h
    · rename_i hname
      cases h
      rw [Text.stripPrefix?_eq_some hstrip] at hrest
      rw [hrest, ← String.append_assoc, ← String.append_assoc, ← String.append_assoc] at hp
      refine ⟨a ++ b, ?_, comp, below, hp, hcomp, hbelow, hname, rfl⟩
      rcases ha with rfl | rfl <;> rcases hb with rfl | rfl <;> decide
    · cases h
  · intro h
    obtain ⟨lead, hlead, comp, below, rfl, hcomp, hbelow, hname, rfl⟩ := h
    have hdot : ∀ s, Text.stripPrefix? "./" ("nix/store/" ++ s) = none := fun s => by
      simp [Text.stripPrefix?, String.toList_append]
    have hslash : ∀ s, Text.stripPrefix? "/" ("nix/store/" ++ s) = none := fun s => by
      simp [Text.stripPrefix?, String.toList_append]
    have hdot' : ∀ s, Text.stripPrefix? "./" ("/" ++ s) = none := fun s => by
      simp [Text.stripPrefix?, String.toList_append]
    have hrest : (Text.stripPrefix? "/" ((Text.stripPrefix? "./" (lead ++ "nix/store/" ++ comp ++ below)).getD
        (lead ++ "nix/store/" ++ comp ++ below))).getD
          ((Text.stripPrefix? "./" (lead ++ "nix/store/" ++ comp ++ below)).getD
        (lead ++ "nix/store/" ++ comp ++ below)) = "nix/store/" ++ (comp ++ below) := by
      rw [String.append_assoc, String.append_assoc]
      simp only [List.mem_cons, List.not_mem_nil, or_false] at hlead
      rcases hlead with rfl | rfl | rfl | rfl
      · rw [String.empty_append, hdot, Option.getD_none, hslash, Option.getD_none]
      · rw [Text.stripPrefix?_append, Option.getD_some, hslash, Option.getD_none]
      · rw [hdot', Option.getD_none, Text.stripPrefix?_append, Option.getD_some]
      · have hboth : (".//" : String) = "./" ++ "/" := by decide
        rw [hboth, String.append_assoc, Text.stripPrefix?_append, Option.getD_some, Text.stripPrefix?_append,
          Option.getD_some]
    dsimp only
    rw [hrest, Text.stripPrefix?_append, Option.bind_some, firstPart_eq hcomp hbelow, if_pos hname]

/-! ## The pass -/

section
variable {x : Extern} {tar : TarReader} {archive : List ArchiveEntry} {s t : ArchiveScan} {e : ArchiveEntry}

theorem entryNamed_concat (archive : List ArchiveEntry) (e : ArchiveEntry) (name : String) :
    entryNamed (archive ++ [e]) name = if e.name = name then some e else entryNamed archive name := by
  rw [entryNamed, List.reverse_append, List.reverse_singleton, List.singleton_append, List.find?_cons]
  by_cases h : e.name = name
  · simp [h]
  · rw [beq_false_of_ne h, if_neg h]
    rfl

theorem entryNamed_eq_none {name : String} (h : entryNamed (archive ++ [e]) name = none) :
    entryNamed archive name = none := by
  rw [entryNamed_concat] at h
  split at h
  · cases h
  · exact h

theorem lastJson_concat (archive : List ArchiveEntry) (e : ArchiveEntry) : lastJson (archive ++ [e]) =
    if e.name ≠ "manifest.json" ∧ isTopJson e.name = true then some e else lastJson archive := by
  rw [lastJson, List.reverse_append, List.reverse_singleton, List.singleton_append, List.find?_cons]
  by_cases hm : e.name = "manifest.json"
  · simp [hm, lastJson]
  · rw [bne_iff_ne.mpr hm, Bool.true_and]
    cases hj : isTopJson e.name <;> simp [hm, lastJson]

/-- A name has one ending. -/
theorem not_json_of_tar {name : String} (h : Text.endsWith ".tar" name = true) :
    name ≠ "manifest.json" ∧ isTopJson name = false := by
  have hjson : Text.endsWith ".json" name = false := by
    rw [← Bool.not_eq_true]
    intro hjson
    obtain ⟨a, ha⟩ := List.isSuffixOf_iff_suffix.mp h
    obtain ⟨b, hb⟩ := List.isSuffixOf_iff_suffix.mp hjson
    have hlast := congrArg List.getLast? (ha.trans hb.symm)
    simp at hlast
  refine ⟨fun heq => ?_, by rw [isTopJson, hjson]; rfl⟩
  rw [heq] at hjson
  exact absurd hjson (by decide)

theorem endsWith_tar_of_layer {name : String} (h : Text.endsWith "layer.tar" name = true) :
    Text.endsWith ".tar" name = true := by
  obtain ⟨a, ha⟩ := List.isSuffixOf_iff_suffix.mp h
  exact List.isSuffixOf_iff_suffix.mpr ⟨a ++ "layer".toList, by rw [List.append_assoc, ← ha]; rfl⟩

/-- Only the manifest, the JSON files and the layers are looked at. -/
theorem scanEntry_cases (h : scanEntry x tar s e = .ok t) :
    (e.name = "manifest.json" ∧ ∃ m, readManifest x e.bytes = .ok m ∧ t = { s with manifest := some m }) ∨
    (e.name ≠ "manifest.json" ∧ isTopJson e.name = true ∧
      t = { s with configName := some e.name, configDigestFromContent := some (x.sha256Hex e.bytes) }) ∨
    (Text.endsWith ".tar" e.name = true ∧ ∃ l, readLayer x tar e.bytes = .ok l ∧
      t = { s with layersByName := s.layersByName.insert e.name l }) ∨
    (e.name ≠ "manifest.json" ∧ isTopJson e.name = false ∧ Text.endsWith ".tar" e.name = false ∧ t = s) := by
  rw [scanEntry] at h
  split at h
  · rename_i hname
    obtain ⟨m, hm, h⟩ := Result.bind_eq_ok.mp h
    cases h
    exact .inl ⟨hname, m, hm, rfl⟩
  · rename_i hname
    split at h
    · rename_i hjson
      cases h
      exact .inr (.inl ⟨hname, hjson, rfl⟩)
    · rename_i hjson
      split at h
      · rename_i htar
        obtain ⟨l, hl, h⟩ := Result.bind_eq_ok.mp h
        cases h
        refine .inr (.inr (.inl ⟨?_, l, hl, rfl⟩))
        rcases (Bool.or_eq_true _ _).mp htar with hlayer | htar
        · exact endsWith_tar_of_layer hlayer
        · exact htar
      · rename_i htar
        cases h
        rw [Bool.or_eq_true, not_or, Bool.not_eq_true, Bool.not_eq_true] at htar
        exact .inr (.inr (.inr ⟨hname, by simpa using hjson, htar.2, rfl⟩))

/-- What has been remembered of the entries so far: of each kind and name the last one. -/
structure Scanned (x : Extern) (tar : TarReader) (archive : List ArchiveEntry) (s : ArchiveScan) : Prop where
  manifest : ∀ e, entryNamed archive "manifest.json" = some e → ∃ m, readManifest x e.bytes = .ok m ∧
    s.manifest = some m
  digest : s.configDigestFromContent = (lastJson archive).map fun e => x.sha256Hex e.bytes
  layer : ∀ name e, Text.endsWith ".tar" name = true → entryNamed archive name = some e →
    ∃ l : LayerDesc, readLayer x tar e.bytes = .ok l ∧ s.layersByName[name]? = some l
  noLayer : ∀ name : String, Text.endsWith ".tar" name = false ∨ entryNamed archive name = none →
    s.layersByName[name]? = none
  noManifest : entryNamed archive "manifest.json" = none → s.manifest = none

theorem Scanned.step (h : Scanned x tar archive s) (hstep : scanEntry x tar s e = .ok t) :
    Scanned x tar (archive ++ [e]) t := by
  rcases scanEntry_cases hstep with ⟨hname, m, hm, rfl⟩ | ⟨hname, hjson, rfl⟩ | ⟨htar, l, hl, rfl⟩ |
    ⟨hname, hjson, htar, rfl⟩
  · have hother : ∀ name, Text.endsWith ".tar" name = true →
        entryNamed (archive ++ [e]) name = entryNamed archive name := by
      intro name htar
      rw [entryNamed_concat, hname, if_neg (not_json_of_tar htar).1.symm]
    refine ⟨fun e' he' => ?_, ?_, fun name e' htar he' => ?_, fun name hno =>
      h.noLayer name (hno.imp_right entryNamed_eq_none), fun hno => ?_⟩
    · rw [entryNamed_concat, if_pos hname] at he'
      cases he'
      exact ⟨m, hm, rfl⟩
    · rw [lastJson_concat, if_neg (fun hne => hne.1 hname)]
      exact h.digest
    · rw [hother name htar] at he'
      exact h.layer name e' htar he'
    · rw [entryNamed_concat, if_pos hname] at hno
      cases hno
  · have hnotar : ∀ name, Text.endsWith ".tar" name = true → e.name ≠ name := by
      intro name htar heq
      rw [heq, (not_json_of_tar htar).2] at hjson
      cases hjson
    refine ⟨fun e' he' => ?_, ?_, fun name e' htar he' => ?_, fun name hno =>
      h.noLayer name (hno.imp_right entryNamed_eq_none), fun hno => h.noManifest (entryNamed_eq_none hno)⟩
    · rw [entryNamed_concat, if_neg hname] at he'
      exact h.manifest e' he'
    · rw [lastJson_concat, if_pos ⟨hname, hjson⟩]
      rfl
    · rw [entryNamed_concat, if_neg (hnotar name htar)] at he'
      exact h.layer name e' htar he'
  · obtain ⟨hname, hjson⟩ := not_json_of_tar htar
    refine ⟨fun e' he' => ?_, ?_, fun name e' htar' he' => ?_, fun name hno => ?_,
      fun hno => h.noManifest (entryNamed_eq_none hno)⟩
    · rw [entryNamed_concat, if_neg hname] at he'
      exact h.manifest e' he'
    · rw [lastJson_concat, if_neg (fun hj => by rw [hjson] at hj; cases hj.2)]
      exact h.digest
    · rw [entryNamed_concat] at he'
      by_cases heq : e.name = name
      · rw [if_pos heq] at he'
        cases he'
        refine ⟨l, hl, ?_⟩
        rw [Std.ExtTreeMap.getElem?_insert, heq, if_pos Std.ReflCmp.compare_self]
      · rw [if_neg heq] at he'
        obtain ⟨l', hl', hget⟩ := h.layer name e' htar' he'
        refine ⟨l', hl', ?_⟩
        rw [Std.ExtTreeMap.getElem?_insert, if_neg (fun hc => heq (compare_eq_iff_eq.mp hc))]
        exact hget
    · have hne : e.name ≠ name := by
        intro heq
        rcases hno with hno | hno
        · rw [← heq, htar] at hno
          cases hno
        · rw [entryNamed_concat, if_pos heq] at hno
          cases hno
      rw [Std.ExtTreeMap.getElem?_insert, if_neg (fun hc => hne (compare_eq_iff_eq.mp hc))]
      rw [entryNamed_concat, if_neg hne] at hno
      exact h.noLayer name hno
  · refine ⟨fun e' he' => ?_, ?_, fun name e' htar' he' => ?_, fun name hno =>
      h.noLayer name (hno.imp_right entryNamed_eq_none), fun hno => h.noManifest (entryNamed_eq_none hno)⟩
    · rw [entryNamed_concat, if_neg hname] at he'
      exact h.manifest e' he'
    · rw [lastJson_concat, if_neg (fun hj => by rw [hjson] at hj; cases hj.2)]
      exact h.digest
    · have hne : e.name ≠ name := by
        intro heq
        rw [heq, htar'] at htar
        cases htar
      rw [entryNamed_concat, if_neg hne] at he'
      exact h.layer name e' htar' he'

theorem Scanned.start : Scanned x tar [] {} where
  manifest e he := by cases he
  digest := rfl
  layer name e _ he := by cases he
  noLayer name _ := Std.ExtTreeMap.getElem?_empty
  noManifest _ := rfl

/-- The whole pass. -/
theorem Scanned.run (h : archive.foldlM (scanEntry x tar) {} = .ok s) : Scanned x tar archive s := by
  induction archive using List.reverseRecOn generalizing s with
  | nil =>
      cases h
      exact .start
  | append_singleton archive e ih =>
      rw [List.foldlM_append] at h
      obtain ⟨s', hs', h⟩ := Result.bind_eq_ok.mp h
      rw [List.foldlM_cons] at h
      obtain ⟨t, ht, h⟩ := Result.bind_eq_ok.mp h
      cases h
      exact (ih hs').step ht

theorem readLayer_eq_ok {bytes : List UInt8} {l : LayerDesc} (h : readLayer x tar bytes = .ok l) :
    l.digestHex = x.sha256Hex bytes ∧ ∃ paths, tar.paths bytes = .ok paths ∧
      ∀ sp, sp ∈ l.storePaths ↔ ∃ p ∈ paths, LiesUnder p sp := by
  obtain ⟨paths, hpaths, h⟩ := Result.bind_eq_ok.mp h
  cases h
  refine ⟨?_, paths, hpaths, fun sp => ?_⟩
  · rw [HashingReader.drain_hashed, HashingReader.read_whole, List.nil_append]
  · rw [mem_btreeSet, List.mem_filterMap]
    simp only [storePathOfEntry_eq_some]

/-! ## When the image is the one of its content -/

/-- The config is in the archive; a digest that it is called by is its own; and if it is not called by a
digest, the last JSON file at the top has the same one. -/
def ConfigFound (x : Extern) (archive : List ArchiveEntry) (config : String) : Prop :=
  ∃ e, entryNamed archive config = some e ∧ (∀ h, digestInName config = some h → h = x.sha256Hex e.bytes) ∧
    (digestInName config = none → ∃ j, lastJson archive = some j ∧ x.sha256Hex j.bytes = x.sha256Hex e.bytes)

/-- The layers that the archive contains are called `.tar`. -/
def LayersAreTars (archive : List ArchiveEntry) (layers : List String) : Prop :=
  ∀ l ∈ layers, (entryNamed archive l).isSome → Text.endsWith ".tar" l = true

variable {path config : String} {layers : List String} {desc : ImageDesc}

/-- What the reader makes of an archive whose manifest names a config and layers. -/
theorem readDockerArchive_eq_ok (h : readDockerArchive x tar path archive = .ok desc)
    (hnames : ManifestNames x archive config layers) : ∃ s, Scanned x tar archive s ∧
      desc.configDigestHex = (digestInName config).or ((lastJson archive).map fun e => x.sha256Hex e.bytes) ∧
        desc.layers = layers.filterMap fun l => s.layersByName[l]? := by
  obtain ⟨s, hs, h⟩ := Result.bind_eq_ok.mp h
  have hscan := Scanned.run hs
  obtain ⟨e, m, he, hm, hconfig, hlayers⟩ := hnames
  obtain ⟨m', hm', hmanifest⟩ := hscan.manifest e he
  cases hm.symm.trans hm'
  rw [describeArchive, hmanifest] at h
  cases h
  refine ⟨s, hscan, ?_, ?_⟩
  · simp only [hconfig, Option.bind_some, Json.asStr?, Option.some_or, hscan.digest]
  · simp only [hlayers, Option.bind_some, Json.asArr?, Option.getD_some, List.filterMap_map]
    rfl

theorem layers_iff {s : ArchiveScan} (hs : Scanned x tar archive s) (layers : List String) :
    List.Forall₂ (Describes x tar archive) (layers.filter fun l => (entryNamed archive l).isSome)
      (layers.filterMap fun l => s.layersByName[l]?) ↔ LayersAreTars archive layers := by
  have hget : ∀ l : String, (s.layersByName[l]?).isSome = true ↔
      (entryNamed archive l).isSome = true ∧ Text.endsWith ".tar" l = true := by
    intro l
    cases htar : Text.endsWith ".tar" l with
    | false => simp [hs.noLayer l (.inl htar)]
    | true =>
        cases hentry : entryNamed archive l with
        | none => simp [hs.noLayer l (.inr hentry)]
        | some e =>
            obtain ⟨d, _, hd⟩ := hs.layer l e htar hentry
            simp [hd]
  constructor
  · intro h l hl hin
    have hlen := h.length_eq
    have hcount : (layers.filterMap fun l => s.layersByName[l]?).length =
        (layers.filter fun l => (s.layersByName[l]?).isSome).length := by
      rw [List.length_filterMap_eq_countP, List.countP_eq_length_filter]
    have hboth : (layers.filter fun l => (s.layersByName[l]?).isSome) =
        (layers.filter fun l => (entryNamed archive l).isSome).filter (Text.endsWith ".tar") := by
      rw [List.filter_filter]
      apply List.filter_congr
      intro l _
      rw [Bool.eq_iff_iff, hget, Bool.and_eq_true, and_comm]
    rw [hcount, hboth] at hlen
    exact List.length_filter_eq_length_iff.mp hlen.symm l (List.mem_filter.mpr ⟨hl, hin⟩)
  · intro h
    induction layers with
    | nil => exact .nil
    | cons l layers ih =>
        have ih := ih fun l hl => h l (List.mem_cons_of_mem _ hl)
        cases hentry : entryNamed archive l with
        | none =>
            rw [List.filter_cons, if_neg (by rw [hentry]; simp), List.filterMap_cons_none
              (hs.noLayer l (.inr hentry))]
            exact ih
        | some e =>
            have htar := h l List.mem_cons_self (by rw [hentry]; rfl)
            obtain ⟨d, hd, hget'⟩ := hs.layer l e htar hentry
            obtain ⟨hdigest, paths, hpaths, hstore⟩ := readLayer_eq_ok hd
            rw [List.filter_cons, if_pos (by rw [hentry]; rfl), List.filterMap_cons_some hget']
            exact .cons ⟨e, paths, hentry, hdigest, hpaths, hstore⟩ ih

/-- An image that was read is identified by its content exactly when the config is found and every layer
that is there is called `.tar`. -/
theorem archive_identified_iff (h : readDockerArchive x tar path archive = .ok desc)
    (hnames : ManifestNames x archive config layers) :
    IdentifiedByContent x tar archive config layers desc ↔ ConfigFound x archive config ∧
      LayersAreTars archive layers := by
  obtain ⟨s, hs, hdigest, hlayers⟩ := readDockerArchive_eq_ok h hnames
  constructor
  · intro hid
    obtain ⟨e, he, hconfig⟩ := hid.config
    rw [hdigest] at hconfig
    refine ⟨⟨e, he, fun h hname => ?_, fun hname => ?_⟩, ?_⟩
    · rw [hname] at hconfig
      exact Option.some.inj hconfig
    · rw [hname, Option.none_or] at hconfig
      exact Option.map_eq_some_iff.mp hconfig
    · have hall := hid.layers
      rw [hlayers] at hall
      exact (layers_iff hs layers).mp hall
  · intro hcond
    obtain ⟨⟨e, he, hnamed, hunnamed⟩, htars⟩ := hcond
    refine ⟨⟨e, he, ?_⟩, ?_⟩
    · rw [hdigest]
      cases hname : digestInName config with
      | some h => rw [Option.some_or, hnamed h hname]
      | none =>
          obtain ⟨j, hj, heq⟩ := hunnamed hname
          rw [hj, Option.none_or, Option.map_some, heq]
    · rw [hlayers]
      exact (layers_iff hs layers).mpr htars

end

/-! ## When there is an image at all -/

section
variable {x : Extern} {tar : TarReader} {archive : List ArchiveEntry} {e : ArchiveEntry}

/-- A manifest is read, and a layer is listed. -/
def Readable (x : Extern) (tar : TarReader) (e : ArchiveEntry) : Prop :=
  (e.name = "manifest.json" → ∃ m, readManifest x e.bytes = .ok m) ∧
    (Text.endsWith ".tar" e.name = true → ∃ paths, tar.paths e.bytes = .ok paths)

theorem exists_readLayer {bytes : List UInt8} : (∃ l, readLayer x tar bytes = .ok l) ↔
    ∃ paths, tar.paths bytes = .ok paths := by
  rw [readLayer]
  cases tar.paths bytes with
  | error e =>
      constructor
      · intro h
        obtain ⟨_, h⟩ := h
        cases h
      · intro h
        obtain ⟨_, h⟩ := h
        cases h
  | ok paths => exact ⟨fun _ => ⟨paths, rfl⟩, fun _ => ⟨_, rfl⟩⟩

theorem exists_scanEntry (s : ArchiveScan) : (∃ t, scanEntry x tar s e = .ok t) ↔ Readable x tar e := by
  constructor
  · intro h
    obtain ⟨t, h⟩ := h
    rcases scanEntry_cases h with ⟨hname, m, hm, _⟩ | ⟨hname, hjson, _⟩ | ⟨htar, l, hl, _⟩ | ⟨hname, _, htar, _⟩
    · exact ⟨fun _ => ⟨m, hm⟩, fun htar => absurd hname (not_json_of_tar htar).1⟩
    · refine ⟨fun h => absurd h hname, fun htar => ?_⟩
      rw [(not_json_of_tar htar).2] at hjson
      cases hjson
    · exact ⟨fun h => absurd h (not_json_of_tar htar).1, fun _ => exists_readLayer.mp ⟨l, hl⟩⟩
    · refine ⟨fun h => absurd h hname, fun h => ?_⟩
      rw [htar] at h
      cases h
  · intro h
    rw [scanEntry]
    split
    · rename_i hname
      obtain ⟨m, hm⟩ := h.1 hname
      exact ⟨_, Result.bind_eq_ok.mpr ⟨m, hm, rfl⟩⟩
    · split
      · exact ⟨_, rfl⟩
      · split
        · rename_i htar
          have htar : Text.endsWith ".tar" e.name = true := by
            rcases (Bool.or_eq_true _ _).mp htar with hlayer | htar
            · exact endsWith_tar_of_layer hlayer
            · exact htar
          obtain ⟨l, hl⟩ := exists_readLayer.mpr (h.2 htar)
          exact ⟨_, Result.bind_eq_ok.mpr ⟨l, hl, rfl⟩⟩
        · exact ⟨_, rfl⟩

theorem describeArchive_ok (path : String) {s : ArchiveScan} {m : Json} (h : s.manifest = some m) :
    ∃ desc, describeArchive path s = .ok desc := by
  rw [describeArchive, h]
  exact ⟨_, rfl⟩

/-- An archive is read exactly when it has a manifest, and every manifest and every layer can be read. -/
theorem exists_readDockerArchive (path : String) : (∃ desc, readDockerArchive x tar path archive = .ok desc) ↔
    (entryNamed archive "manifest.json").isSome ∧ ∀ e ∈ archive, Readable x tar e := by
  have hscan : ∀ s, (∃ t, archive.foldlM (scanEntry x tar) s = .ok t) ↔ ∀ e ∈ archive, Readable x tar e := by
    induction archive with
    | nil => exact fun s => ⟨fun _ e he => (nomatch he), fun _ => ⟨s, rfl⟩⟩
    | cons e archive ih =>
        intro s
        rw [List.forall_mem_cons, List.foldlM_cons]
        constructor
        · intro h
          obtain ⟨t, h⟩ := h
          obtain ⟨s', hs', h⟩ := Result.bind_eq_ok.mp h
          exact ⟨(exists_scanEntry s).mp ⟨s', hs'⟩, (ih s').mp ⟨t, h⟩⟩
        · intro h
          obtain ⟨s', hs'⟩ := (exists_scanEntry s).mpr h.1
          obtain ⟨t, ht⟩ := (ih s').mpr h.2
          exact ⟨t, Result.bind_eq_ok.mpr ⟨s', hs', ht⟩⟩
  constructor
  · intro h
    obtain ⟨desc, h⟩ := h
    obtain ⟨s, hs, h⟩ := Result.bind_eq_ok.mp h
    refine ⟨?_, (hscan _).mp ⟨s, hs⟩⟩
    cases he : entryNamed archive "manifest.json" with
    | some e => rfl
    | none =>
        rw [describeArchive, (Scanned.run hs).noManifest he] at h
        cases h
  · intro h
    obtain ⟨hm, hall⟩ := h
    obtain ⟨s, hs⟩ := (hscan {}).mpr hall
    obtain ⟨e, he⟩ := Option.isSome_iff_exists.mp hm
    obtain ⟨m, _, hmanifest⟩ := (Scanned.run hs).manifest e he
    obtain ⟨desc, hdesc⟩ := describeArchive_ok path hmanifest
    exact ⟨desc, Result.bind_eq_ok.mpr ⟨s, hs, hdesc⟩⟩

end

/-! ### Two archives -/

/-- SHA-256 of nothing and of the texts `{}` and `[]`, and one manifest that is read back. -/
def sampleExtern (manifest : Json) : Extern where
  sha256Hex bytes :=
    if bytes = [] then "e3b0c44298fc1c149afbf4c8996fb92427ae41e4649b934ca495991b7852b855"
    else if bytes = [123, 125] then "44136fa355b3678a1146ad16f7e8649e94fb4fc21fe77e8310c060f61caaff8a"
    else "4f53cda18c2baa0c0354bb5f9a3ecbe5ed12ab4d8e11ba873c2f11161202b945"
  parseJson s := if s = manifest.print then some manifest else none
  stack := 8

theorem readManifest_sample (m : Json) : readManifest (sampleExtern m) (Encoding.utf8 m.print) = .ok m := by
  rw [readManifest, Encoding.ofUtf8_utf8]
  simp [sampleExtern]

/-- Layers with nothing in them. -/
def emptyTar : TarReader := ⟨fun _ => .ok [], fun _ => 0⟩

def imageOf (config : String) (layers : List String) : Json :=
  .arr [.obj [("Config", .str config), ("Layers", .arr (layers.map .str))]]

/-- The manifest comes last, after a config and one more file. -/
def sampleArchive (config : String) (layers : List String) (other : ArchiveEntry) : List ArchiveEntry :=
  [⟨config, [123, 125]⟩, other] ++ [⟨"manifest.json", Encoding.utf8 (imageOf config layers).print⟩]

section
variable {config : String} {layers : List String} {other : ArchiveEntry}

theorem name_manifest (bytes : List UInt8) : (⟨"manifest.json", bytes⟩ : ArchiveEntry).name = "manifest.json" := by
  have hstrip : (Text.stripPrefix? "./" "manifest.json").getD "manifest.json" = "manifest.json" := by decide
  exact hstrip

theorem firstImage_imageOf (config : String) (layers : List String) :
    firstImage (imageOf config layers) = .obj [("Config", .str config), ("Layers", .arr (layers.map .str))] := rfl

theorem sampleArchive_names (config : String) (layers : List String) (other : ArchiveEntry) :
    ManifestNames (sampleExtern (imageOf config layers)) (sampleArchive config layers other) config layers := by
  refine ⟨⟨"manifest.json", Encoding.utf8 (imageOf config layers).print⟩, imageOf config layers, ?_, ?_, ?_, ?_⟩
  · rw [sampleArchive, entryNamed_concat, if_pos (name_manifest _)]
  · dsimp only
    rw [readManifest_sample]
  · rw [firstImage_imageOf]
    simp [Json.get?]
  · rw [firstImage_imageOf]
    simp [Json.get?, List.lookup_cons]

theorem exists_sampleArchive (hconfig : (⟨config, []⟩ : ArchiveEntry).name ≠ "manifest.json")
    (hother : other.name ≠ "manifest.json") : ∃ desc,
      readDockerArchive (sampleExtern (imageOf config layers)) emptyTar "image.tar"
        (sampleArchive config layers other) = .ok desc := by
  have hnames := sampleArchive_names config layers other
  obtain ⟨e, _, he, _⟩ := hnames
  refine (exists_readDockerArchive "image.tar").mpr
    ⟨by rw [he]; rfl, fun e he => ⟨fun hname => ?_, fun _ => ⟨[], rfl⟩⟩⟩
  simp only [sampleArchive, List.mem_append, List.mem_cons, List.not_mem_nil, or_false] at he
  rcases he with (rfl | rfl) | rfl
  · exact absurd hname hconfig
  · exact absurd hname hother
  · dsimp only
    rw [readManifest_sample]
    exact ⟨_, rfl⟩

end

/-- The name that a config has with its digest. -/
def digestJson : String := "44136fa355b3678a1146ad16f7e8649e94fb4fc21fe77e8310c060f61caaff8a.json"

theorem digestInName_digestJson :
    digestInName digestJson = some "44136fa355b3678a1146ad16f7e8649e94fb4fc21fe77e8310c060f61caaff8a" := by
  decide +kernel

/-- The config is called by its digest and the layer is a `layer.tar`, as `dockerTools` has them. -/
theorem archive_identified_iff_tools : ∃ desc, IdentifiedByContent
    (sampleExtern (imageOf digestJson ["e3/layer.tar"])) emptyTar
    (sampleArchive digestJson ["e3/layer.tar"] ⟨"e3/layer.tar", []⟩) digestJson ["e3/layer.tar"] desc := by
  obtain ⟨desc, hdesc⟩ := @exists_sampleArchive digestJson ["e3/layer.tar"] ⟨"e3/layer.tar", []⟩
    (by decide) (by decide)
  have hentry : entryNamed (sampleArchive digestJson ["e3/layer.tar"] ⟨"e3/layer.tar", []⟩) digestJson =
      some ⟨digestJson, [123, 125]⟩ := rfl
  refine ⟨desc, (archive_identified_iff hdesc (sampleArchive_names _ _ _)).mpr ⟨⟨_, hentry, fun h hname => ?_,
    fun hno => ?_⟩, fun l hl _ => ?_⟩⟩
  · rw [digestInName_digestJson, Option.some.injEq] at hname
    rw [← hname]
    rfl
  · rw [digestInName_digestJson] at hno
    cases hno
  · rw [List.mem_singleton.mp hl]
    decide

/-- The config is a blob, and another file is called `.json`: the image gets the digest of that file. -/
theorem blob_config_misread : ∃ desc,
    readDockerArchive (sampleExtern (imageOf "blobs/sha256/44" [])) emptyTar "image.tar"
      (sampleArchive "blobs/sha256/44" [] ⟨"index.json", [91, 93]⟩) = .ok desc ∧
    ManifestNames (sampleExtern (imageOf "blobs/sha256/44" []))
      (sampleArchive "blobs/sha256/44" [] ⟨"index.json", [91, 93]⟩) "blobs/sha256/44" [] ∧
    ¬ IdentifiedByContent (sampleExtern (imageOf "blobs/sha256/44" [])) emptyTar
      (sampleArchive "blobs/sha256/44" [] ⟨"index.json", [91, 93]⟩) "blobs/sha256/44" [] desc := by
  obtain ⟨desc, hdesc⟩ := @exists_sampleArchive "blobs/sha256/44" [] ⟨"index.json", [91, 93]⟩
    (by decide) (by decide)
  refine ⟨desc, hdesc, sampleArchive_names _ _ _, fun hid => ?_⟩
  obtain ⟨s, hs, hdigest, _⟩ := readDockerArchive_eq_ok hdesc (sampleArchive_names _ _ _)
  obtain ⟨e, he, hconfig⟩ := hid.config
  have hentry : entryNamed (sampleArchive "blobs/sha256/44" [] ⟨"index.json", [91, 93]⟩) "blobs/sha256/44" =
      some ⟨"blobs/sha256/44", [123, 125]⟩ := rfl
  have hlast : lastJson (sampleArchive "blobs/sha256/44" [] ⟨"index.json", [91, 93]⟩) =
      some ⟨"index.json", [91, 93]⟩ :=
    rfl
  have hname : digestInName "blobs/sha256/44" = none := by decide
  rw [hentry] at he
  cases he
  rw [hdigest, hname, hlast] at hconfig
  revert hconfig
  decide

end Extract

end Nix2Rdf
