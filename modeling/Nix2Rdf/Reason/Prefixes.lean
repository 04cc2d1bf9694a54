import Nix2Rdf.Reason.Assemble

/-!
# What prefixed names mean in a program

A program has one table of prefixes for the rules of all its packs: what any of them declares, and
the prefixes every program may use where none does.
-/

namespace Nix2Rdf

open Packs

/-- The prefix and the IRI of a line that declares one. -/
def declOf (line : String) : Option (String × String) :=
  (Text.stripPrefix? "@prefix" (Text.trim Text.isWhitespace line)).bind prefixDecl

/-- The prefixes that the rule files of the pack bind. -/
def Pack.declarations (p : Pack) : List (String × String) :=
  p.ruleFiles.flatMap fun f => (Text.lines f.2).filterMap declOf

def Pack.Declares (p : Pack) (pfx iri : String) : Prop := (pfx, iri) ∈ p.declarations

namespace Reason

/-! ## The table of prefixes -/

section Table

variable {p : Pack} {acc acc' : BTreeMap String × String} {pfx iri : String}

theorem addLine_declares {line : String} (h : addLine p acc line = .ok acc') :
    acc'.1[pfx]? = some iri ↔ acc.1[pfx]? = some iri ∨ declOf line = some (pfx, iri) := by
  unfold addLine at h
  unfold declOf
  cases hstrip : Text.stripPrefix? "@prefix" (Text.trim Text.isWhitespace line) with
  | none =>
      rw [hstrip] at h
      cases h
      simp
  | some rest =>
      simp only [hstrip] at h
      rw [Option.bind_some]
      cases hdecl : prefixDecl rest with
      | none =>
          simp only [hdecl] at h
          cases h
      | some d =>
          simp only [hdecl] at h
          cases hprev : acc.1[d.1]? with
          | none =>
              simp only [hprev, Except.ok.injEq] at h
              subst h
              rw [Std.ExtTreeMap.getElem?_insert]
              by_cases hk : d.1 = pfx
              · rw [if_pos (compare_eq_iff_eq.mpr hk)]
                subst hk
                simp [hprev, Prod.ext_iff]
              · rw [if_neg (mt compare_eq_iff_eq.mp hk)]
                simp [Prod.ext_iff, hk]
          | some prev =>
              simp only [hprev] at h
              split at h
              · rename_i heq
                cases h
                refine ⟨.inl, fun h => h.elim (fun h => h) fun h => ?_⟩
                cases h
                rw [hprev, heq]
              · cases h

theorem addLines_declares {lines : List String} (h : lines.foldlM (addLine p) acc = .ok acc') :
    acc'.1[pfx]? = some iri ↔
      acc.1[pfx]? = some iri ∨ ∃ line ∈ lines, declOf line = some (pfx, iri) := by
  induction lines generalizing acc with
  | nil =>
      cases h
      simp
  | cons line lines ih =>
      rw [List.foldlM_cons, Result.bind_eq_ok] at h
      obtain ⟨mid, hmid, h⟩ := h
      rw [ih h, addLine_declares hmid, or_assoc]
      simp only [List.mem_cons, exists_eq_or_imp]

theorem addFiles_declares {files : List (String × String)} (h : files.foldlM (addFile p) acc = .ok acc') :
    acc'.1[pfx]? = some iri ↔
      acc.1[pfx]? = some iri ∨ ∃ f ∈ files, ∃ line ∈ Text.lines f.2, declOf line = some (pfx, iri) := by
  induction files generalizing acc with
  | nil =>
      cases h
      simp
  | cons f files ih =>
      rw [List.foldlM_cons, Result.bind_eq_ok] at h
      obtain ⟨mid, hmid, h⟩ := h
      rw [ih h, addLines_declares hmid, or_assoc]
      simp only [List.mem_cons, exists_eq_or_imp]

theorem addPacks_declares {packs : List Pack}
    (h : packs.foldlM (fun acc p => p.ruleFiles.foldlM (addFile p) acc) acc = .ok acc') :
    acc'.1[pfx]? = some iri ↔ acc.1[pfx]? = some iri ∨ ∃ p ∈ packs, p.Declares pfx iri := by
  induction packs generalizing acc with
  | nil =>
      cases h
      simp
  | cons p packs ih =>
      rw [List.foldlM_cons, Result.bind_eq_ok] at h
      obtain ⟨mid, hmid, h⟩ := h
      rw [ih h, addFiles_declares hmid, or_assoc]
      simp only [List.mem_cons, exists_eq_or_imp, Pack.Declares, Pack.declarations, List.mem_flatMap,
        List.mem_filterMap]

/-- Where the declarations do not conflict, the table binds a prefix as the packs declare it. -/
theorem collectPrefixes_declares {packs : List Pack} {c : BTreeMap String × String}
    (h : collectPrefixes packs = .ok c) : c.1[pfx]? = some iri ↔ ∃ p ∈ packs, p.Declares pfx iri := by
  rw [addPacks_declares h]
  simp

end Table

/-- The IRI of a prefix that every program may use. -/
def builtin (pfx : String) : Option String := (prefixes.find? fun d => d.1 == pfx).map Prod.snd

theorem getElem?_withDefaults (m : BTreeMap String) (pfx : String) :
    (withDefaults m)[pfx]? = m[pfx]?.or (builtin pfx) := by
  have hfold : ∀ (l : List (String × String)) (m : BTreeMap String),
      (l.foldl (fun m d => m.insertIfNew d.1 d.2) m)[pfx]? =
        m[pfx]?.or ((l.find? fun d => d.1 == pfx).map Prod.snd) := by
    intro l
    induction l with
    | nil => simp
    | cons d l ih =>
        intro m
        rw [List.foldl_cons, ih, Std.ExtTreeMap.getElem?_insertIfNew]
        by_cases hk : d.1 = pfx
        · rw [List.find?_cons_of_pos (by simpa using hk)]
          subst hk
          cases hm : m[d.1]? with
          | none =>
              have hnot : d.1 ∉ m := fun hc => by
                rw [Std.ExtTreeMap.mem_iff_isSome_getElem?, hm] at hc
                cases hc
              simp [hnot]
          | some iri =>
              have hmem : d.1 ∈ m := Std.ExtTreeMap.mem_iff_isSome_getElem?.mpr (by rw [hm]; rfl)
              simp [hmem]
        · have hne : ¬ (compare d.1 pfx = .eq ∧ d.1 ∉ m) := fun h => hk (compare_eq_iff_eq.mp h.1)
          rw [List.find?_cons_of_neg (by simpa using hk), if_neg hne]
  exact hfold prefixes m

/-! ## Names -/

/-- A prefix and what follows its colon. -/
structure PrefixedName where
  pfx : String
  name : String
  deriving DecidableEq, Repr

/-- The IRI of a name under the declarations of a program. -/
def expandName (decls : List (String × String)) (n : PrefixedName) : Option String :=
  (decls.find? fun d => d.1 == n.pfx).map fun d => d.2 ++ n.name

theorem find?_toList (m : BTreeMap String) (pfx : String) :
    (m.toList.find? fun d => d.1 == pfx).map Prod.snd = m[pfx]? := by
  cases hfind : m.toList.find? fun d => d.1 == pfx with
  | none =>
      rw [List.find?_eq_none] at hfind
      cases hm : m[pfx]? with
      | none => rfl
      | some iri => simpa using hfind (pfx, iri) (Std.ExtTreeMap.mem_toList_iff_getElem?_eq_some.mpr hm)
  | some d =>
      have hk : d.1 = pfx := by simpa using List.find?_some hfind
      have hmem := List.mem_of_find?_eq_some hfind
      rw [← hk, Option.map_some, eq_comm]
      exact Std.ExtTreeMap.mem_toList_iff_getElem?_eq_some.mp hmem

theorem expand_ruleParts {packs : List Pack} {parts : List (String × String) × String}
    {c : BTreeMap String × String} (hc : collectPrefixes packs = .ok c) (h : ruleParts packs = .ok parts)
    (n : PrefixedName) : expandName parts.1 n = (c.1[n.pfx]?.or (builtin n.pfx)).map (· ++ n.name) := by
  rw [ruleParts, hc] at h
  cases h
  rw [← getElem?_withDefaults, ← find?_toList, expandName, Option.map_map]
  rfl

theorem collectPrefixes_of_ruleParts {packs : List Pack} {parts : List (String × String) × String}
    (h : ruleParts packs = .ok parts) : ∃ c, collectPrefixes packs = .ok c := by
  cases hc : collectPrefixes packs with
  | error e =>
      rw [ruleParts, hc] at h
      cases h
  | ok c => exact ⟨c, rfl⟩

theorem append_left_inj_iff {a b : Option String} {s : String} :
    a.map (· ++ s) = b.map (· ++ s) ↔ a = b := by
  refine ⟨fun h => Option.map_injective (fun x y hxy => ?_) h, fun h => h ▸ rfl⟩
  have hlist : x.toList ++ s.toList = y.toList ++ s.toList := by
    rw [← String.toList_append, ← String.toList_append]
    exact congrArg String.toList hxy
  exact String.toList_inj.mp (List.append_cancel_right hlist)

/-- A name means the same among other packs exactly when its pack declares the prefix itself, or no
pack binds the prefix to anything but what every program binds it to. -/
theorem expand_eq_iff {packs : List Pack} {b : Pack} (hb : b ∈ packs)
    {parts own : List (String × String) × String} (h : ruleParts packs = .ok parts)
    (hown : ruleParts [b] = .ok own) {n : PrefixedName} :
    expandName parts.1 n = expandName own.1 n ↔ (∃ iri, b.Declares n.pfx iri) ∨
      ∀ a ∈ packs, ∀ iri, a.Declares n.pfx iri → builtin n.pfx = some iri := by
  obtain ⟨c, hc⟩ := collectPrefixes_of_ruleParts h
  obtain ⟨cb, hcb⟩ := collectPrefixes_of_ruleParts hown
  have hall : ∀ iri, c.1[n.pfx]? = some iri ↔ ∃ a ∈ packs, a.Declares n.pfx iri := fun iri =>
    collectPrefixes_declares hc
  have hself : ∀ iri, cb.1[n.pfx]? = some iri ↔ b.Declares n.pfx iri := fun iri => by
    simp [collectPrefixes_declares hcb]
  rw [expand_ruleParts hc h, expand_ruleParts hcb hown, append_left_inj_iff]
  cases hcbn : cb.1[n.pfx]? with
  | some iri =>
      have hdecl := (hself iri).mp hcbn
      rw [(hall iri).mpr ⟨b, hb, hdecl⟩]
      exact iff_of_true rfl (.inl ⟨iri, hdecl⟩)
  | none =>
      have hnot : ¬ ∃ iri, b.Declares n.pfx iri := by
        intro hany
        obtain ⟨iri, hdecl⟩ := hany
        rw [(hself iri).mpr hdecl] at hcbn
        cases hcbn
      rw [or_iff_right hnot, Option.none_or]
      cases hcn : c.1[n.pfx]? with
      | none =>
          refine iff_of_true rfl fun a ha iri hdecl => ?_
          rw [(hall iri).mpr ⟨a, ha, hdecl⟩] at hcn
          cases hcn
      | some iri =>
          rw [Option.some_or]
          constructor
          · intro heq a ha iri' hdecl
            rw [← heq, ← hcn]
            exact (hall iri').mpr ⟨a, ha, hdecl⟩
          · intro hkept
            obtain ⟨a, ha, hdecl⟩ := (hall iri).mp hcn
            exact (hkept a ha iri hdecl).symm

/-- The names of a pack mean the same among other packs exactly when no pack rebinds a prefix that
the pack uses and does not declare. -/
theorem names_kept_iff (namesIn : String → List PrefixedName) {packs : List Pack} {b : Pack}
    (hb : b ∈ packs) {parts own : List (String × String) × String} (h : ruleParts packs = .ok parts)
    (hown : ruleParts [b] = .ok own) :
    (∀ n ∈ namesIn own.2, expandName parts.1 n = expandName own.1 n) ↔
      ∀ n ∈ namesIn own.2, (∃ iri, b.Declares n.pfx iri) ∨
        ∀ a ∈ packs, ∀ iri, a.Declares n.pfx iri → builtin n.pfx = some iri :=
  forall₂_congr fun _ _ => expand_eq_iff hb h hown

/-! ### Two packs -/

/-- The words with a colon inside. -/
def plainNames (text : String) : List PrefixedName :=
  ((text.toList.splitOnP fun c => !(c.isAlphanum || c == ':')).filterMap (Text.splitFirst ':')).map fun w =>
    ⟨String.ofList w.1, String.ofList w.2⟩

/-- Its only rule relies on a prefix that every program may use. -/
def userPack : Pack where
  manifest := { name := "u", version := "1" }
  dir := "u"
  vocabTtl := none
  ruleFiles := [("m.rls", "t(nix:a, nix:b, nix:c) .\n")]
  contentHash := "0"

def bindingPack (pfx iri : String) : Pack where
  manifest := { name := "b", version := "1" }
  dir := "b"
  vocabTtl := none
  ruleFiles := [("m.rls", "@prefix " ++ pfx ++ ": <" ++ iri ++ "> .\n")]
  contentHash := "1"

theorem exists_ok_of {α β : Type} {r : Result α} {f : α → β} {b : β} (h : r.toOption.map f = some b) :
    ∃ a, r = .ok a ∧ f a = b := by
  cases r with
  | error e => cases h
  | ok a => exact ⟨a, rfl, Option.some.inj h⟩

theorem names_kept_iff_apart : ∃ parts own, ruleParts [bindingPack "q" "x:", userPack] = .ok parts ∧
    ruleParts [userPack] = .ok own ∧ ∀ n ∈ plainNames own.2, expandName parts.1 n = expandName own.1 n := by
  have hparts : (ruleParts [bindingPack "q" "x:", userPack]).toOption.map (fun _ => ()) = some () := by
    decide +kernel
  have hown : (ruleParts [userPack]).toOption.map (fun own => (plainNames own.2).map PrefixedName.pfx) =
      some ["nix", "nix", "nix"] := by decide +kernel
  have hdecls : ∀ a ∈ [bindingPack "q" "x:", userPack], ∀ d ∈ a.declarations, d.1 = "q" := by
    decide +kernel
  obtain ⟨parts, hparts, _⟩ := exists_ok_of hparts
  obtain ⟨own, hown, hnames⟩ := exists_ok_of hown
  refine ⟨parts, own, hparts, hown, ?_⟩
  refine (names_kept_iff plainNames (by simp) hparts hown).mpr fun n hn => .inr fun a ha iri hdecl => ?_
  have hnix : n.pfx = "nix" := by
    have hmem := List.mem_map_of_mem (f := PrefixedName.pfx) hn
    simpa [hnames] using hmem
  have hq : n.pfx = "q" := hdecls a ha _ hdecl
  rw [hnix] at hq
  simp at hq

/-- Another pack binds `nix` to something else, and the rule is about other terms. -/
theorem builtin_prefix_rebound : ∃ parts own, ruleParts [bindingPack "nix" "x:", userPack] = .ok parts ∧
    ruleParts [userPack] = .ok own ∧ ⟨"nix", "a"⟩ ∈ plainNames own.2 ∧
    expandName parts.1 ⟨"nix", "a"⟩ = some ("x:" ++ "a") ∧ expandName own.1 ⟨"nix", "a"⟩ = some (nixNs ++ "a") ∧
    expandName parts.1 ⟨"nix", "a"⟩ ≠ expandName own.1 ⟨"nix", "a"⟩ := by
  have hparts : (ruleParts [bindingPack "nix" "x:", userPack]).toOption.map
      (fun parts => parts.1.find? fun d => d.1 == "nix") = some (some ("nix", "x:")) := by decide +kernel
  have hown : (ruleParts [userPack]).toOption.map
      (fun own => (decide (⟨"nix", "a"⟩ ∈ plainNames own.2), own.1.find? fun d => d.1 == "nix")) =
      some (true, some ("nix", nixNs)) := by decide +kernel
  obtain ⟨parts, hparts, hx⟩ := exists_ok_of hparts
  obtain ⟨own, hown, hnames⟩ := exists_ok_of hown
  obtain ⟨hmem, hnix⟩ := Prod.mk.inj hnames
  have hlist : expandName parts.1 ⟨"nix", "a"⟩ = some ("x:" ++ "a") := by rw [expandName, hx, Option.map_some]
  have halone : expandName own.1 ⟨"nix", "a"⟩ = some (nixNs ++ "a") := by rw [expandName, hnix, Option.map_some]
  refine ⟨parts, own, hparts, hown, of_decide_eq_true hmem, hlist, halone, fun h => ?_⟩
  rw [hlist, halone] at h
  have hiri := (append_left_inj_iff (a := some "x:") (b := some nixNs) (s := "a")).mp h
  simp [nixNs] at hiri

end Reason

end Nix2Rdf
