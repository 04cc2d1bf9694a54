import Nix2Rdf.Ontology.Tokens
import Nix2Rdf.Packs.Covered
import Nix2Rdf.Reason.LoadOrder

/-!
# Validating the rules of packs

Every term that a rule file uses has to be declared in a vocabulary. Terms are looked for by pattern, and
what is found is exactly what the rules use as long as no `%` and no name in a literal misleads it.
-/

namespace Nix2Rdf.Ontology

open Packs (Keyed Loaded discover)

inductive Problem where
  | vocab (pack error : String)
  | rust (term : String)
  | rules (pack file term : String)
  deriving DecidableEq, Repr

def Problem.text : Problem → String
  | vocab pack error => "pack " ++ pack ++ ": vocab.ttl: " ++ error
  | rust term => "Rust uses undeclared term " ++ term
  | rules pack file term => "pack " ++ pack ++ "/" ++ file ++ " uses undeclared term " ++ term

section

variable (w : WordChars) (loadVocabulary : String → Result (List String)) (rustTerms : List String)
  (ttls : List (String × String)) (packs : BTreeMap Pack)

/-- The terms of the vocabularies, by path and text. -/
def vocabularies : Result (List String) := do
  let terms ← ttls.mapM fun ttl => (loadVocabulary ttl.2).mapError fun e => "rdf parse error: " ++ ttl.1 ++ ": " ++ e
  return terms.flatten

/-- The terms of the packs' own vocabularies. -/
def packTerms : List String :=
  packs.values.flatMap fun p => ((p.vocabTtl.bind fun ttl => (loadVocabulary ttl).toOption).getD [])

def vocabProblems : List Problem :=
  packs.values.flatMap fun p =>
    match p.vocabTtl.map loadVocabulary with
    | some (.error e) => [.vocab p.name e]
    | _ => []

def fileProblems (declared : List String) (p : Pack) (f : String × String) : List Problem :=
  ((ruleTerms w f.2).filter (· ∉ declared)).map (.rules p.name f.1)

def problems (declared : List String) : List Problem :=
  vocabProblems loadVocabulary packs ++ (rustTerms.filter (· ∉ declared)).map .rust
  ++ packs.values.flatMap fun p => p.ruleFiles.flatMap (fileProblems w declared p)

def validate : Result (List String) := do
  let terms ← vocabularies loadVocabulary ttls
  return (problems w loadVocabulary rustTerms packs (terms ++ packTerms loadVocabulary packs)).map Problem.text

end

/-! ## One problem for each file -/

section

variable {w : WordChars} {loadVocabulary : String → Result (List String)} {rustTerms : List String}
  {packs : BTreeMap Pack} {declared : List String}

/-- A problem with the rules of a pack comes from a file that uses the term. -/
theorem mem_problems {pack file n : String} : .rules pack file n ∈ problems w loadVocabulary rustTerms
    packs declared ↔
    ∃ p ∈ packs.values, p.name = pack ∧ ∃ f ∈ p.ruleFiles, f.1 = file ∧ n ∈ ruleTerms w f.2 ∧ n ∉ declared := by
  have hvocab : Problem.rules pack file n ∉ vocabProblems loadVocabulary packs := by
    intro h
    obtain ⟨p, _, h⟩ := List.mem_flatMap.mp h
    split at h
    · rw [List.mem_singleton] at h
      cases h
    · cases h
  have hrust : Problem.rules pack file n ∉ (rustTerms.filter (· ∉ declared)).map Problem.rust := by
    intro h
    obtain ⟨_, _, h⟩ := List.mem_map.mp h
    cases h
  rw [problems, List.mem_append, List.mem_append, or_iff_right hvocab, or_iff_right hrust]
  simp only [List.mem_flatMap, fileProblems, List.mem_map, List.mem_filter, decide_eq_true_eq, Problem.rules.injEq]
  constructor
  · intro h
    obtain ⟨p, hp, f, hf, _, hn, rfl, rfl, rfl⟩ := h
    exact ⟨p, hp, rfl, f, hf, rfl, hn⟩
  · intro h
    obtain ⟨p, hp, rfl, f, hf, rfl, hn⟩ := h
    exact ⟨p, hp, f, hf, n, hn, rfl, rfl, rfl⟩

/-- Of packs and files with names of their own each problem belongs to one file. -/
theorem mem_problems_of_file (hkeyed : Keyed packs) {p : Pack} (hp : p ∈ packs.values)
    (hnodup : (p.ruleFiles.map Prod.fst).Nodup) {f : String × String} (hf : f ∈ p.ruleFiles) {n : String} :
    .rules p.name f.1 n ∈ problems w loadVocabulary rustTerms packs declared ↔ n ∈ ruleTerms w f.2 ∧
      n ∉ declared := by
  rw [mem_problems]
  constructor
  · intro h
    obtain ⟨q, hq, hname, g, hg, hfile, hn⟩ := h
    obtain ⟨k, hk⟩ := BTreeMap.mem_values.mp hp
    obtain ⟨k', hk'⟩ := BTreeMap.mem_values.mp hq
    have hkeys : k' = k := by rw [← hkeyed k p hk, ← hkeyed k' q hk', hname]
    rw [hkeys, hk, Option.some.injEq] at hk'
    subst hk'
    rwa [List.inj_on_of_nodup_map hnodup hg hf hfile] at hn
  · exact fun h => ⟨p, hp, rfl, f, hf, rfl, h⟩

end

/-! ## Files with names of their own -/

section

variable {toml : String → Option PackManifest} {x : Extern}

theorem map_of_mapM {α β γ : Type} {r : α → Option β} {g : β → γ} {g' : α → γ} (h : ∀ a b, r a = some b → g b = g' a)
    {l : List α} {bs : List β} (hl : l.mapM r = some bs) : bs.map g = l.map g' := by
  induction l generalizing bs with
  | nil =>
      cases hl
      rfl
  | cons a l ih =>
      simp only [List.mapM_cons, Option.bind_eq_bind, Option.bind_eq_some_iff, Option.pure_def,
        Option.some.injEq] at hl
      obtain ⟨b, hb, cs, hcs, rfl⟩ := hl
      rw [List.map_cons, List.map_cons, h a b hb, ih hcs]

theorem nodup_policyFiles (t : DirTree) : ((Packs.policyFiles t).map Prod.fst).Nodup := by
  have hset : ∀ l : List String, (btreeSet l).Nodup := fun l =>
    Std.ExtTreeSet.distinct_toList.imp Std.ReflCmp.ne_of_cmp_ne_eq
  unfold Packs.policyFiles
  split
  · rename_i entries _
    rw [List.map_map, List.Nodup, List.pairwise_map]
    exact (Std.ExtTreeMap.distinct_keys_toList.filter _).imp Std.ReflCmp.ne_of_cmp_ne_eq
  · exact List.nodup_nil
  · rw [List.map_map]
    exact (List.map_id _).symm ▸ (hset _).filter _

theorem names_namedRules {t : DirTree} {name : String} {rules : List (String × String)}
    (h : Packs.namedRules t name = some rules) : rules.map Prod.fst = [] ∨ rules.map Prod.fst = [name] := by
  obtain ⟨text, _, rfl⟩ := Option.map_eq_some_iff.mp h
  cases text with
  | none => exact .inl rfl
  | some text => exact .inr rfl

/-- The rule files of a pack have names of their own. -/
theorem nodup_ruleFiles (l : Loaded toml x) : (l.pack.ruleFiles.map Prod.fst).Nodup := by
  obtain ⟨_, semantics, mapping, policy, _, _, _, hsem, hmap, hpol, hrules, _⟩ := l.parts
  have hpolicy : policy.map Prod.fst = ((Packs.policyFiles l.tree).map Prod.fst).map ("policy/" ++ ·) := by
    rw [List.map_map]
    refine map_of_mapM (fun f g hfg => ?_) hpol
    obtain ⟨_, _, rfl⟩ := Option.map_eq_some_iff.mp hfg
    rfl
  have hinj : Function.Injective ("policy/" ++ · : String → String) := fun a b h => (String.append_right_inj _).mp h
  have hnodup : (policy.map Prod.fst).Nodup := hpolicy ▸ (nodup_policyFiles l.tree).map hinj
  have hfixed : ∀ name ∈ ["semantics.rls", "mapping.rls"], name ∉ policy.map Prod.fst := by
    intro name hname hmem
    rw [hpolicy] at hmem
    obtain ⟨n, _, rfl⟩ := List.mem_map.mp hmem
    have hlong : ∀ name ∈ ["semantics.rls", "mapping.rls"], ¬ "policy/".toList <+: name.toList := by decide
    refine hlong _ hname ?_
    rw [String.toList_append]
    exact List.prefix_append _ _
  rw [hrules, List.map_append, List.map_append]
  rcases names_namedRules hsem with h1 | h1
  · rcases names_namedRules hmap with h2 | h2
    · rw [h1, h2]
      exact hnodup
    · rw [h1, h2]
      exact List.nodup_cons.mpr ⟨hfixed _ (by simp), hnodup⟩
  · rcases names_namedRules hmap with h2 | h2
    · rw [h1, h2]
      exact List.nodup_cons.mpr ⟨hfixed _ (by simp), hnodup⟩
    · rw [h1, h2]
      refine List.nodup_cons.mpr ⟨?_, List.nodup_cons.mpr ⟨hfixed _ (by simp), hnodup⟩⟩
      have hne : "semantics.rls" ∉ "mapping.rls" :: policy.map Prod.fst :=
        List.mem_cons.not.mpr (not_or.mpr ⟨by decide, hfixed _ (by simp)⟩)
      exact hne

theorem mem_discover {found : List Pack} {k : String} {p : Pack} (h : (discover found)[k]? = some p) : p ∈ found := by
  have hfold : ∀ all : BTreeMap Pack, (found.foldl (fun all p => all.insertIfNew p.name p) all)[k]? = some p →
      all[k]? = some p ∨ p ∈ found := by
    clear h
    induction found with
    | nil => exact fun all hall => .inl hall
    | cons q found ih =>
        intro all hall
        rcases ih _ hall with hall | hmem
        · rw [Std.ExtTreeMap.getElem?_insertIfNew] at hall
          split at hall
          · exact .inr (Option.some.inj hall ▸ List.mem_cons_self)
          · exact .inl hall
        · exact .inr (List.mem_cons_of_mem q hmem)
  rcases hfold ∅ h with hempty | hmem
  · simp at hempty
  · exact hmem

end

/-! ## Exactness -/

section

variable {toml : String → Option PackManifest} {x : Extern} (w : WordChars)
  (loadVocabulary : String → Result (List String)) (rustTerms : List String) (ttls : List (String × String))

/-- What is reported of a rule file are all terms that it uses undeclared, and none that only a comment or a
literal mentions. -/
def Exact (packs : BTreeMap Pack) (declared : List String) (p : Pack) (f : String × String) : Prop :=
  (∀ n, Used f.2.toList n → n ∉ declared →
    .rules p.name f.1 n ∈ problems w loadVocabulary rustTerms packs declared) ∧
  ∀ n, .rules p.name f.1 n ∈ problems w loadVocabulary rustTerms packs declared → Outside w f.2.toList n

/-- Every undeclared term that is used is spelled somewhere with no `%` before it on its line, and if one is
spelled so in a literal, then it is also spelled outside. -/
def NotMisled (declared : List String) (text : String) : Prop :=
  ∀ n, n ∉ declared → (Used text.toList n → ∃ a u b, Spelled w text.toList a u b n) ∧
    (SpelledInLiteral w text.toList n → Outside w text.toList n)

variable {w} {loadVocabulary} {rustTerms} {ttls}

theorem exact_iff {packs : BTreeMap Pack} {declared : List String} (hkeyed : Keyed packs) {p : Pack}
    (hp : p ∈ packs.values) (hnodup : (p.ruleFiles.map Prod.fst).Nodup) {f : String × String} (hf : f ∈ p.ruleFiles) :
    Exact w loadVocabulary rustTerms packs declared p f ↔ NotMisled w declared f.2 := by
  simp only [Exact, mem_problems_of_file hkeyed hp hnodup hf, mem_ruleTerms]
  constructor
  · intro h n hn
    refine ⟨fun hused => (h.1 n hused hn).1, fun hlit => ?_⟩
    obtain ⟨a, u, b, hspelled, _⟩ := hlit
    exact h.2 n ⟨⟨a, u, b, hspelled⟩, hn⟩
  · intro h
    refine ⟨fun n hused hn => ⟨(h n hn).1 hused, hn⟩, fun n hreported => ?_⟩
    obtain ⟨⟨a, u, b, hspelled⟩, hn⟩ := hreported
    obtain ⟨k, hk, hall⟩ := hspelled.uniform
    simp only [List.mem_cons, List.not_mem_nil, or_false] at hk
    rcases hk with rfl | rfl | rfl
    · exact ⟨a, u, b, hspelled.1, hspelled.2.2, .inl hall⟩
    · exact (h n hn).2 ⟨a, u, b, hspelled, hall⟩
    · exact ⟨a, u, b, hspelled.1, hspelled.2.2, .inr hall⟩

/-- Validation is exact for a rule file exactly if its text does not mislead the patterns. -/
theorem validate_exact_iff {found : List (Loaded toml x)} {terms : List String}
    (hterms : vocabularies loadVocabulary ttls = .ok terms) {p : Pack}
    (hp : p ∈ (discover (found.map Loaded.pack)).values) {f : String × String} (hf : f ∈ p.ruleFiles) :
    validate w loadVocabulary rustTerms ttls (discover (found.map Loaded.pack)) =
      .ok ((problems w loadVocabulary rustTerms (discover (found.map Loaded.pack))
        (terms ++ packTerms loadVocabulary (discover (found.map Loaded.pack)))).map Problem.text) ∧
    (Exact w loadVocabulary rustTerms (discover (found.map Loaded.pack))
        (terms ++ packTerms loadVocabulary (discover (found.map Loaded.pack))) p f ↔
      NotMisled w (terms ++ packTerms loadVocabulary (discover (found.map Loaded.pack))) f.2) := by
  obtain ⟨k, hk⟩ := BTreeMap.mem_values.mp hp
  obtain ⟨l, _, rfl⟩ := List.mem_map.mp (mem_discover hk)
  refine ⟨?_, exact_iff (Packs.keyed_discover _) hp (nodup_ruleFiles l) hf⟩
  rw [validate, hterms]
  rfl

/-- Plain rules whose literals spell no terms are validated exactly. -/
theorem notMisled_of_plain {declared : List String} {text : String} (h : Plain text.toList)
    (hlit : ∀ n, ¬ SpelledInLiteral w text.toList n) : NotMisled w declared text :=
  fun n _ => ⟨h.spelled, fun hn => absurd hn (hlit n)⟩

/-! ## A percent sign in a literal -/

/-- The word characters of ASCII. -/
def asciiWords : WordChars := ⟨nameChar, fun _ _ => rfl⟩

def appToml (text : String) : Option PackManifest :=
  if text = "name = \"app\"\nversion = \"1\"\n" then some { name := "app", version := "1" } else none

def appTree (rules : String) : DirTree :=
  ((∅ : DirTree).insert "pack.toml" (.file (Encoding.utf8 "name = \"app\"\nversion = \"1\"\n"))).insert
    "semantics.rls" (.file (Encoding.utf8 rules))

def appPack (rules : String) : Pack where
  manifest := { name := "app", version := "1" }
  dir := ""
  vocabTtl := none
  ruleFiles := [("semantics.rls", rules)]
  contentHash := hashItems plainExtern (Packs.contentItems (appTree rules))

def percentRules : String := "p(\"50%\", nix:foo) .\n"

theorem load_app : Packs.load appToml plainExtern (appPack percentRules).dir (appTree percentRules)
    = some (appPack percentRules) := by
  have hread : Packs.read ((appTree percentRules).find "pack.toml") = some "name = \"app\"\nversion = \"1\"\n" ∧
      Packs.readIfExists ((appTree percentRules).find "vocab.ttl") = some none ∧
      Packs.namedRules (appTree percentRules) "semantics.rls" = some [("semantics.rls", percentRules)] ∧
      Packs.namedRules (appTree percentRules) "mapping.rls" = some [] ∧
      (Packs.policyFiles (appTree percentRules)).isEmpty := by
    decide +kernel
  obtain ⟨hmanifest, hvocab, hsemantics, hmapping, hpolicy⟩ := hread
  rw [List.isEmpty_iff] at hpolicy
  simp only [Packs.load, hmanifest, hvocab, hsemantics, hmapping, hpolicy, appToml]
  rfl

def appLoaded : Loaded appToml plainExtern := ⟨appTree percentRules, appPack percentRules, load_app⟩

theorem appPack_mem : appPack percentRules ∈ (discover ([appLoaded].map Loaded.pack)).values := by
  refine BTreeMap.mem_values.mpr ⟨"app", ?_⟩
  have hname : (appPack percentRules).name = "app" := rfl
  rw [List.map_singleton, discover, List.foldl_cons, List.foldl_nil, Std.ExtTreeMap.getElem?_insertIfNew]
  exact if_pos ⟨by rw [appLoaded, hname]; exact compare_eq_iff_eq.mpr rfl, by simp⟩

theorem validate_exact_iff_app :
    validate asciiWords (fun _ => .ok []) [] [] (discover ([appLoaded].map Loaded.pack)) =
      .ok ((problems asciiWords (fun _ => .ok []) [] (discover ([appLoaded].map Loaded.pack))
        ([] ++ packTerms (fun _ => .ok []) (discover ([appLoaded].map Loaded.pack)))).map Problem.text) ∧
    (Exact asciiWords (fun _ => .ok []) [] (discover ([appLoaded].map Loaded.pack))
        ([] ++ packTerms (fun _ => .ok []) (discover ([appLoaded].map Loaded.pack))) (appPack percentRules)
        ("semantics.rls", percentRules) ↔
      NotMisled asciiWords ([] ++ packTerms (fun _ => .ok []) (discover ([appLoaded].map Loaded.pack)))
        percentRules) :=
  have hterms : vocabularies (fun _ => .ok []) [] = .ok [] := rfl
  validate_exact_iff hterms appPack_mem List.mem_cons_self

/-- An undeclared name after a literal with a percent sign is not reported. -/
theorem percent_hides_name : Used percentRules.toList (nixNs ++ "foo") ∧
    validate asciiWords (fun _ => .ok []) [] [] (discover ([appLoaded].map Loaded.pack)) = .ok [] := by
  have hterms : ∀ n, n ∉ ruleTerms asciiWords percentRules := by
    intro n hn
    have hlines : Text.lines percentRules = ["p(\"50%\", nix:foo) ."] := by decide +kernel
    have hcut : uncommented "p(\"50%\", nix:foo) ." = ['p', '(', '"', '5', '0'] := by decide +kernel
    rw [ruleTerms, mem_btreeSet, hlines, List.flatMap_singleton, hcut, names_of_no_colon (by decide)] at hn
    have hiris : iris ['p', '(', '"', '5', '0'] = [] := by decide +kernel
    rw [hiris] at hn
    cases hn
  have honly : ∀ p ∈ (discover ([appLoaded].map Loaded.pack)).values, p = appPack percentRules := by
    intro p hp
    obtain ⟨k, hk⟩ := BTreeMap.mem_values.mp hp
    exact List.mem_singleton.mp (mem_discover hk)
  constructor
  · have hsplit : percentRules.toList = "p(\"50%\", ".toList ++ "nix:foo".toList ++ ") .\n".toList := by decide
    refine .name hsplit (.nix (by decide) (by decide)) (by decide) (by decide) (by decide) ?_
    unfold AllOf
    decide +kernel
  · have hvocab : vocabProblems (fun _ => .ok []) (discover ([appLoaded].map Loaded.pack)) = [] := by
      refine List.flatMap_eq_nil_iff.mpr fun p hp => ?_
      rw [honly p hp]
      rfl
    have hfiles : ∀ declared : List String, ((discover ([appLoaded].map Loaded.pack)).values.flatMap fun p =>
        p.ruleFiles.flatMap (fileProblems asciiWords declared p)) = [] := by
      intro declared
      refine List.flatMap_eq_nil_iff.mpr fun p hp => List.flatMap_eq_nil_iff.mpr fun f hf => ?_
      rw [honly p hp, appPack, List.mem_singleton] at hf
      rw [hf, fileProblems, List.eq_nil_iff_forall_not_mem.mpr hterms]
      rfl
    have hproblems : ∀ declared : List String,
        problems asciiWords (fun _ => .ok []) [] (discover ([appLoaded].map Loaded.pack)) declared = [] := by
      intro declared
      rw [problems, hvocab, hfiles]
      rfl
    have hok : vocabularies (fun _ => .ok []) [] = .ok [] := rfl
    rw [validate, hok]
    exact congrArg (fun ps => Except.ok (ps.map Problem.text)) (hproblems _)

end

end Nix2Rdf.Ontology
