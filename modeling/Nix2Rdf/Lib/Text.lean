import Mathlib.Data.List.Infix

/-!
# Text

Splitting, joining and replacing on strings. Each function runs on the list of characters, by
recursion on it.
-/

namespace Text

/-- Look through the list, not through all characters. -/
instance (priority := 1100) decidableForallMemList {p : Char → Prop} [DecidablePred p] (l : List Char) :
    Decidable (∀ c ∈ l, p c) :=
  List.decidableBAll p l

instance (priority := 1100) decidableForallMemOption {p : Char → Prop} [DecidablePred p] (o : Option Char) :
    Decidable (∀ c ∈ o, p c) :=
  Option.decidableForallMem o

/-! ## Splitting -/

/-- What stands before and after the first `c`. -/
def splitFirst (c : Char) : List Char → Option (List Char × List Char)
  | [] => none
  | d :: ds => if d = c then some ([], ds) else (splitFirst c ds).map fun p => (d :: p.1, p.2)

def splitOnce (c : Char) (s : String) : Option (String × String) :=
  (splitFirst c s.toList).map fun p => (String.ofList p.1, String.ofList p.2)

/-- What stands before and after the last `c`. -/
def rsplitOnce (c : Char) (s : String) : Option (String × String) :=
  (splitFirst c s.toList.reverse).map fun p => (String.ofList p.2.reverse, String.ofList p.1.reverse)

def split (c : Char) (s : String) : List String := (s.toList.splitOn c).map String.ofList

/-- The part after the last `c`, the whole string if there is none. -/
def lastPart (c : Char) (s : String) : String :=
  String.ofList ((s.toList.splitOn c).getLastD [])

def stripPrefix? (pre s : String) : Option String :=
  if pre.toList.isPrefixOf s.toList then some (String.ofList (s.toList.drop pre.toList.length)) else none

def stripSuffix? (suf s : String) : Option String :=
  if suf.toList.isSuffixOf s.toList then
    some (String.ofList (s.toList.take (s.toList.length - suf.toList.length)))
  else none

def startsWith (pre s : String) : Bool := pre.toList.isPrefixOf s.toList

def endsWith (suf s : String) : Bool := suf.toList.isSuffixOf s.toList

/-- All trailing characters that `p` accepts are dropped. -/
def trimEnd (p : Char → Bool) (s : String) : String :=
  String.ofList (s.toList.reverse.dropWhile p).reverse

def trimStart (p : Char → Bool) (s : String) : String := String.ofList (s.toList.dropWhile p)

def trim (p : Char → Bool) (s : String) : String := trimStart p (trimEnd p s)

/-- The characters with the Unicode property `White_Space`. -/
def isWhitespace (c : Char) : Bool :=
  let n := c.toNat
  (9 ≤ n && n ≤ 13) || n == 0x20 || n == 0x85 || n == 0xa0 || n == 0x1680
    || (0x2000 ≤ n && n ≤ 0x200a) || n == 0x2028 || n == 0x2029 || n == 0x202f || n == 0x205f
    || n == 0x3000

/-- `pre` is dropped from the front as often as it stands there, at most `turns` times. -/
def dropPrefixes (pre : List Char) : Nat → List Char → List Char
  | 0, l => l
  | turns + 1, l =>
      if pre.isPrefixOf l then dropPrefixes pre turns (l.drop pre.length) else l

/-- `suf` is dropped from the end as often as it stands there. -/
def trimEndMatches (suf s : String) : String :=
  String.ofList (dropPrefixes suf.toList.reverse s.toList.length s.toList.reverse).reverse

def stripReturn (l : List Char) : List Char := if l.getLast? = some '\r' then l.dropLast else l

/-- The lines of a text, each without its line feed or carriage return and line feed. What follows
the last line feed is a line only if it is not empty. -/
def lines (s : String) : List String :=
  let segs := s.toList.splitOn '\n'
  (segs.dropLast.map fun l => String.ofList (stripReturn l)) ++
    match segs.getLast? with
    | some (c :: cs) => [String.ofList (c :: cs)]
    | _ => []

theorem splitFirst_eq_none {c : Char} {l : List Char} : splitFirst c l = none ↔ c ∉ l := by
  induction l with
  | nil => simp [splitFirst]
  | cons d ds ih =>
      by_cases h : d = c
      · simp [splitFirst, h]
      · simp [splitFirst, h, ih, Ne.symm h]

theorem splitFirst_append {c : Char} {a b : List Char} (h : c ∉ a) :
    splitFirst c (a ++ c :: b) = some (a, b) := by
  induction a with
  | nil => simp [splitFirst]
  | cons d ds ih =>
      simp only [List.mem_cons, not_or] at h
      simp [splitFirst, Ne.symm h.1, ih h.2]

/-- The first occurrence of a character is where the text is cut. -/
theorem append_cons_inj {c : Char} {a b r s : List Char} (ha : c ∉ a) (hb : c ∉ b) (h : a ++ c :: r = b ++ c :: s) :
    a = b ∧ r = s := by
  have hsplit := splitFirst_append ha (b := r)
  rw [h, splitFirst_append hb, Option.some.injEq, Prod.mk.injEq] at hsplit
  exact ⟨hsplit.1.symm, hsplit.2.symm⟩

theorem splitFirst_eq_some {c : Char} {l a b : List Char} (h : splitFirst c l = some (a, b)) :
    l = a ++ c :: b ∧ c ∉ a := by
  induction l generalizing a with
  | nil => simp [splitFirst] at h
  | cons d ds ih =>
      by_cases hd : d = c
      · simp only [splitFirst, hd, ↓reduceIte, Option.some.injEq, Prod.mk.injEq] at h
        obtain ⟨rfl, rfl⟩ := h
        simp [hd]
      · simp only [splitFirst, hd, ↓reduceIte, Option.map_eq_some_iff, Prod.mk.injEq] at h
        obtain ⟨⟨a', b'⟩, hab, rfl, rfl⟩ := h
        obtain ⟨hds, hc⟩ := ih hab
        exact ⟨by simp [hds], by simp [Ne.symm hd, hc]⟩

theorem rsplitOnce_eq_some {c : Char} {s a b : String} (h : rsplitOnce c s = some (a, b)) :
    s.toList = a.toList ++ c :: b.toList ∧ c ∉ b.toList := by
  simp only [rsplitOnce, Option.map_eq_some_iff, Prod.mk.injEq] at h
  obtain ⟨⟨x, y⟩, hxy, rfl, rfl⟩ := h
  obtain ⟨hs, hc⟩ := splitFirst_eq_some hxy
  constructor
  · rw [← List.reverse_reverse s.toList, hs]
    simp
  · simpa using hc

theorem stripPrefix?_append (pre s : String) : stripPrefix? pre (pre ++ s) = some s := by
  rw [stripPrefix?, if_pos, String.toList_append, List.drop_left, String.ofList_toList]
  rw [String.toList_append]
  exact List.isPrefixOf_iff_prefix.mpr (List.prefix_append _ _)

theorem stripSuffix?_append (suf s : String) : stripSuffix? suf (s ++ suf) = some s := by
  rw [stripSuffix?, if_pos, String.toList_append, List.length_append, Nat.add_sub_cancel,
    List.take_left, String.ofList_toList]
  rw [String.toList_append]
  exact List.isSuffixOf_iff_suffix.mpr (List.suffix_append _ _)

theorem splitOnce_append {c : Char} {a : String} (h : c ∉ a.toList) (b : String) :
    splitOnce c (a ++ String.singleton c ++ b) = some (a, b) := by
  simp [splitOnce, splitFirst_append h]

theorem splitOnce_eq_none {c : Char} {s : String} : splitOnce c s = none ↔ c ∉ s.toList := by
  simp [splitOnce, splitFirst_eq_none]

theorem rsplitOnce_append {c : Char} {b : String} (h : c ∉ b.toList) (a : String) :
    rsplitOnce c (a ++ String.singleton c ++ b) = some (a, b) := by
  have hrev : (a ++ String.singleton c ++ b).toList.reverse
      = b.toList.reverse ++ c :: a.toList.reverse := by simp
  rw [rsplitOnce, hrev, splitFirst_append (by simpa using h)]
  simp

theorem lastPart_append {c : Char} {b : String} (h : c ∉ b.toList) (a : String) :
    lastPart c (a ++ String.singleton c ++ b) = b := by
  have hlist : (a ++ String.singleton c ++ b).toList = a.toList ++ c :: b.toList := by simp
  rw [lastPart, hlist, List.splitOn_append_cons_self, List.splitOn_eq_singleton h]
  simp

theorem trimEnd_of_last {p : Char → Bool} {s : String} {l : List Char} {c : Char}
    (h : s.toList = l ++ [c]) (hc : p c = false) : trimEnd p s = s := by
  apply String.toList_inj.mp
  simp [trimEnd, h, hc]

/-- A suffix that is there once is dropped once. -/
theorem trimEndMatches_append {suf s : String} (hsuf : suf ≠ "") (hs : endsWith suf s = false) :
    trimEndMatches suf (s ++ suf) = s := by
  have hdrop : ∀ turns, dropPrefixes suf.toList.reverse turns s.toList.reverse = s.toList.reverse := by
    intro turns
    cases turns with
    | zero => rfl
    | succ turns =>
        have hno : suf.toList.reverse.isPrefixOf s.toList.reverse = false := hs
        simp [dropPrefixes, hno]
  have hlen : (s ++ suf).toList.length = s.toList.length + (suf.toList.length - 1) + 1 := by
    have : suf.toList ≠ [] := by simpa using hsuf
    have := List.length_pos_of_ne_nil this
    simp only [String.toList_append, List.length_append]
    omega
  apply String.toList_inj.mp
  rw [trimEndMatches, hlen, String.toList_append, List.reverse_append, dropPrefixes,
    if_pos (List.isPrefixOf_iff_prefix.mpr (List.prefix_append _ _)), List.drop_left, hdrop]
  simp

theorem not_mem_of_mem_splitOn {c : Char} {s : List Char} {l : List Char} (h : l ∈ s.splitOn c) :
    c ∉ l := by
  induction s generalizing l with
  | nil =>
      rw [List.splitOn_nil, List.mem_singleton] at h
      rw [h]
      exact List.not_mem_nil
  | cons d ds ih =>
      rw [List.splitOn_cons_eq_if_modifyHead] at h
      split at h
      · rcases List.mem_cons.mp h with rfl | h
        · exact List.not_mem_nil
        · exact ih h
      · rename_i hd
        cases hs : ds.splitOn c with
        | nil => exact absurd hs (List.splitOn_ne_nil c ds)
        | cons x xs =>
            rw [hs, List.modifyHead_cons] at h
            rcases List.mem_cons.mp h with rfl | h
            · have hx : c ∉ x := ih (hs ▸ List.mem_cons_self)
              have hne : c ≠ d := fun he => hd (by rw [he]; exact beq_self_eq_true d)
              rw [List.mem_cons, not_or]
              exact ⟨hne, hx⟩
            · exact ih (hs ▸ List.mem_cons_of_mem _ h)

theorem mem_stripReturn {c : Char} {l : List Char} (h : c ∈ stripReturn l) : c ∈ l := by
  unfold stripReturn at h
  split at h
  · exact List.mem_of_mem_dropLast h
  · exact h

theorem split_append (c : Char) (a b : String) :
    split c (a ++ String.singleton c ++ b) = split c a ++ split c b := by
  rw [split, String.toList_append, String.toList_append, String.toList_singleton, List.append_assoc,
    List.singleton_append, List.splitOn_append_cons_self, List.map_append]
  rfl

theorem split_of_not_mem {c : Char} {a : String} (h : c ∉ a.toList) : split c a = [a] := by
  rw [split, List.splitOn_eq_singleton h, List.map_singleton, String.ofList_toList]

/-- What is trimmed stands around the text once. -/
theorem trim_around {p : Char → Bool} {s : String} {l r : Char} (hl : p l = true) (hr : p r = true)
    (h : ∀ c ∈ s.toList, p c = false) :
    trim p (String.singleton l ++ s ++ String.singleton r) = s := by
  have hkeep : ∀ cs : List Char, (∀ c ∈ cs, p c = false) → cs.dropWhile p = cs := by
    intro cs hcs
    cases cs with
    | nil => rfl
    | cons c cs => rw [List.dropWhile_cons, hcs c List.mem_cons_self]; rfl
  have hback : ((s.toList.reverse ++ [l]).dropWhile p).reverse.dropWhile p = s.toList := by
    cases hs : s.toList.reverse with
    | nil =>
        have hnil : s.toList = [] := List.reverse_eq_nil_iff.mp hs
        simp [hl, hnil]
    | cons c cs =>
        have hc : p c = false := h c (List.mem_reverse.mp (hs ▸ List.mem_cons_self))
        have hlist : s.toList = (c :: cs).reverse := by rw [← hs, List.reverse_reverse]
        have hstay : (c :: cs ++ [l]).dropWhile p = c :: cs ++ [l] := by
          rw [List.cons_append, List.dropWhile_cons, hc]
          rfl
        rw [hstay, List.reverse_append, List.reverse_singleton, List.singleton_append, ← hlist,
          List.dropWhile_cons, hl, if_pos rfl]
        exact hkeep _ h
  have hrev : (String.singleton l ++ s ++ String.singleton r).toList.reverse
      = r :: (s.toList.reverse ++ [l]) := by simp
  apply String.toList_inj.mp
  rw [trim, trimStart, trimEnd, hrev, List.dropWhile_cons, if_pos hr, String.toList_ofList,
    String.toList_ofList, hback]

/-- A line holds no line feed. -/
theorem newline_not_mem_of_mem_lines {s line : String} (h : line ∈ lines s) : '\n' ∉ line.toList := by
  rw [lines, List.mem_append] at h
  rcases h with h | h
  · obtain ⟨l, hl, rfl⟩ := List.mem_map.mp h
    rw [String.toList_ofList]
    exact fun hc => not_mem_of_mem_splitOn (List.mem_of_mem_dropLast hl) (mem_stripReturn hc)
  · split at h
    · rename_i c cs hlast
      rw [List.mem_singleton.mp h, String.toList_ofList]
      exact not_mem_of_mem_splitOn (List.mem_of_getLast? hlast)
    · exact absurd h List.not_mem_nil

theorem splitOn_flatMap {c : Char} {ls : List (List Char)} (h : ∀ l ∈ ls, c ∉ l) :
    (ls.flatMap fun l => l ++ [c]).splitOn c = ls ++ [[]] := by
  induction ls with
  | nil => rfl
  | cons l ls ih =>
      rw [List.forall_mem_cons] at h
      rw [List.flatMap_cons, List.append_assoc, List.singleton_append,
        List.splitOn_append_cons_self_of_not_mem h.1, ih h.2, List.cons_append]

/-- Lines that are each closed by a line feed are read back. -/
theorem lines_join {ls : List String} (h : ∀ l ∈ ls, '\n' ∉ l.toList ∧ l.toList.getLast? ≠ some '\r') :
    lines (String.join (ls.map fun l => l ++ "\n")) = ls := by
  have hlist : ∀ ls : List String, (String.join (ls.map fun l => l ++ "\n")).toList
      = (ls.map String.toList).flatMap fun l => l ++ ['\n'] := by
    intro ls
    induction ls with
    | nil => rfl
    | cons l ls ih =>
        have hsing : "\n".toList = ['\n'] := rfl
        rw [List.map_cons, String.join_cons, String.toList_append, ih, String.toList_append, hsing,
          List.map_cons, List.flatMap_cons]
  have hclean : ∀ l ∈ ls.map String.toList, '\n' ∉ l := by
    intro l hl
    obtain ⟨s, hs, rfl⟩ := List.mem_map.mp hl
    exact (h s hs).1
  have hsplit := splitOn_flatMap hclean
  have hstrip : ∀ l ∈ ls, String.ofList (stripReturn l.toList) = l := by
    intro l hl
    rw [stripReturn, if_neg (h l hl).2, String.ofList_toList]
  rw [lines, hlist, hsplit]
  simp only [List.dropLast_concat, List.getLast?_concat, List.append_nil, List.map_map]
  exact (List.map_congr_left hstrip).trans (List.map_id _)

theorem mem_of_mem_trim {p : Char → Bool} {s : String} {c : Char} (h : c ∈ (trim p s).toList) :
    c ∈ s.toList := by
  rw [trim, trimStart, String.toList_ofList] at h
  have hend := (List.dropWhile_sublist p).subset h
  rw [trimEnd, String.toList_ofList, List.mem_reverse] at hend
  exact List.mem_reverse.mp ((List.dropWhile_sublist p).subset hend)

theorem mem_of_mem_trimEnd {p : Char → Bool} {s : String} {c : Char}
    (h : c ∈ (trimEnd p s).toList) : c ∈ s.toList := by
  rw [trimEnd, String.toList_ofList, List.mem_reverse] at h
  exact List.mem_reverse.mp ((List.dropWhile_sublist p).subset h)

theorem stripPrefix?_eq_some {pre s t : String} (h : stripPrefix? pre s = some t) : s = pre ++ t := by
  unfold stripPrefix? at h
  split at h
  · rename_i hpre
    obtain ⟨u, hu⟩ := List.isPrefixOf_iff_prefix.mp hpre
    rw [Option.some.injEq, ← hu, List.drop_left] at h
    apply String.toList_inj.mp
    rw [← h, String.toList_append, String.toList_ofList, hu]
  · cases h

theorem splitOnce_eq_some {c : Char} {s a b : String} (h : splitOnce c s = some (a, b)) :
    s.toList = a.toList ++ c :: b.toList ∧ c ∉ a.toList := by
  simp only [splitOnce, Option.map_eq_some_iff, Prod.mk.injEq] at h
  obtain ⟨⟨x, y⟩, hxy, rfl, rfl⟩ := h
  rw [String.toList_ofList, String.toList_ofList]
  exact splitFirst_eq_some hxy

/-! ## Joining -/

/-- The segments of a path, put together with a slash between each two. -/
def slash (segs : List String) : String :=
  String.ofList (['/'].intercalate (segs.map String.toList))

theorem slash_singleton (a : String) : slash [a] = a := by
  apply String.toList_inj.mp
  simp [slash, List.intercalate]

theorem slash_pair (a b : String) : slash [a, b] = a ++ "/" ++ b := by
  apply String.toList_inj.mp
  simp [slash, List.intercalate]

theorem slash_cons (a b : String) (segs : List String) :
    slash (a :: b :: segs) = a ++ "/" ++ slash (b :: segs) := by
  apply String.toList_inj.mp
  simp [slash, List.intercalate]

theorem slash_append {xs ys : List String} (hx : xs ≠ []) (hy : ys ≠ []) :
    slash (xs ++ ys) = slash xs ++ "/" ++ slash ys := by
  induction xs with
  | nil => exact absurd rfl hx
  | cons a xs ih =>
      obtain ⟨b, ys, rfl⟩ := List.exists_cons_of_ne_nil hy
      cases xs with
      | nil =>
          rw [slash_singleton]
          exact slash_cons a b ys
      | cons c xs =>
          rw [List.cons_append, List.cons_append, slash_cons, ← List.cons_append,
            ih (List.cons_ne_nil c xs), slash_cons]
          simp only [String.append_assoc]

theorem slash_append_singleton {segs : List String} (h : segs ≠ []) (b : String) :
    slash (segs ++ [b]) = slash segs ++ String.singleton '/' ++ b := by
  rw [slash_append h (List.cons_ne_nil _ _), slash_singleton]
  rfl

theorem mem_slash {c : Char} {segs : List String} (h : c ∈ (slash segs).toList) :
    c = '/' ∨ ∃ s ∈ segs, c ∈ s.toList := by
  induction segs with
  | nil => simp [slash] at h
  | cons a segs ih =>
      cases segs with
      | nil =>
          rw [slash_singleton] at h
          exact .inr ⟨a, List.mem_cons_self, h⟩
      | cons b segs =>
          rw [slash_cons, String.toList_append, String.toList_append, List.mem_append,
            List.mem_append] at h
          rcases h with (h | h) | h
          · exact .inr ⟨a, List.mem_cons_self, h⟩
          · exact .inl (List.mem_singleton.mp h)
          · rcases ih h with h | ⟨s, hs, h⟩
            · exact .inl h
            · exact .inr ⟨s, List.mem_cons_of_mem _ hs, h⟩

/-- Segments without a slash are read back from their path. -/
theorem split_slash {segs : List String} (hne : segs ≠ []) (h : ∀ s ∈ segs, '/' ∉ s.toList) :
    split '/' (slash segs) = segs := by
  have hmap : (segs.map String.toList).map String.ofList = segs := by
    rw [List.map_map]
    exact (List.map_congr_left fun s _ => String.ofList_toList).trans (List.map_id _)
  rw [split, slash, String.toList_ofList,
    List.splitOn_intercalate '/' (by simpa using h) (by simpa using hne), hmap]

theorem slash_inj {xs ys : List String} (hx : xs ≠ []) (hy : ys ≠ [])
    (hxs : ∀ x ∈ xs, '/' ∉ x.toList) (hys : ∀ y ∈ ys, '/' ∉ y.toList) :
    slash xs = slash ys ↔ xs = ys := by
  refine ⟨fun h => ?_, fun h => by rw [h]⟩
  have hlist := String.ofList_injective h
  have hsplit := congrArg (List.splitOn '/') hlist
  rw [List.splitOn_intercalate '/' (by simpa using hxs) (by simpa using hx),
    List.splitOn_intercalate '/' (by simpa using hys) (by simpa using hy)] at hsplit
  exact List.map_injective_iff.mpr (fun a b hab => String.toList_inj.mp hab) hsplit

/-! ## Replacing -/

/-- Every occurrence of `pat` is replaced, from left to right; `skip` characters of one that has
been replaced are still to be dropped. -/
def replaceFrom (pat rep : List Char) : Nat → List Char → List Char
  | _, [] => []
  | skip + 1, _ :: cs => replaceFrom pat rep skip cs
  | 0, c :: cs =>
      if pat.isPrefixOf (c :: cs) then rep ++ replaceFrom pat rep (pat.length - 1) cs
      else c :: replaceFrom pat rep 0 cs

def replace (pat rep s : String) : String :=
  String.ofList (replaceFrom pat.toList rep.toList 0 s.toList)

/-- `pat` occurs in `s`. -/
def Occurs (pat s : String) : Prop := pat.toList <:+: s.toList

theorem replaceFrom_of_not_infix {pat rep l : List Char} (h : ¬ pat <:+: l) :
    replaceFrom pat rep 0 l = l := by
  induction l with
  | nil => rfl
  | cons c cs ih =>
      have hp : pat.isPrefixOf (c :: cs) = false := by
        rw [Bool.eq_false_iff, Ne, List.isPrefixOf_iff_prefix]
        exact fun hpre => h hpre.isInfix
      have hcs : ¬ pat <:+: cs := fun hi => h (hi.trans (List.suffix_cons c cs).isInfix)
      simp [replaceFrom, hp, ih hcs]

/-- An occurrence does not reach over a character that the pattern lacks. -/
theorem replaceFrom_append_cons {pat rep : List Char} (hpat : pat ≠ []) {d : Char} (hd : d ∉ pat)
    (a b : List Char) {skip : Nat} (hskip : skip ≤ a.length) :
    replaceFrom pat rep skip (a ++ d :: b) = replaceFrom pat rep skip a ++ d :: replaceFrom pat rep 0 b := by
  induction a generalizing skip with
  | nil =>
      obtain rfl := Nat.le_zero.mp hskip
      have hno : pat.isPrefixOf (d :: b) = false := by
        cases pat with
        | nil => exact absurd rfl hpat
        | cons p ps =>
            simp only [List.isPrefixOf, Bool.and_eq_false_iff, beq_eq_false_iff_ne]
            exact .inl fun h => hd (h ▸ List.mem_cons_self)
      simp [replaceFrom, hno]
  | cons c cs ih =>
      cases skip with
      | succ skip => exact ih (Nat.le_of_succ_le_succ hskip)
      | zero =>
          have hsame : pat <+: c :: cs ++ d :: b ↔ pat <+: c :: cs := by
            constructor
            · intro h
              rcases List.prefix_or_prefix_of_prefix h (List.prefix_append _ _) with h | ⟨ys, rfl⟩
              · exact h
              · cases ys with
                | nil => simp
                | cons y ys =>
                    obtain rfl := (List.cons_prefix_cons.mp ((List.prefix_append_right_inj _).mp h)).1
                    exact absurd (List.mem_append_right _ List.mem_cons_self) hd
            · exact fun h => h.trans (List.prefix_append _ _)
          have hbool : pat.isPrefixOf (c :: (cs ++ d :: b)) = pat.isPrefixOf (c :: cs) := by
            rw [Bool.eq_iff_iff, List.isPrefixOf_iff_prefix, List.isPrefixOf_iff_prefix]
            exact hsame
          rw [List.cons_append, replaceFrom, replaceFrom, hbool]
          split
          · rename_i h
            have hlen := (List.isPrefixOf_iff_prefix.mp h).length_le
            rw [ih (by simp only [List.length_cons] at hlen; omega), List.append_assoc]
          · rw [ih (Nat.zero_le _)]
            rfl

theorem replace_append_cons {pat rep : String} (hpat : pat ≠ "") {d : Char} (hd : d ∉ pat.toList)
    (a b : String) : replace pat rep (a ++ String.singleton d ++ b)
      = replace pat rep a ++ String.singleton d ++ replace pat rep b := by
  have hne : pat.toList ≠ [] := by simpa using hpat
  apply String.toList_inj.mp
  simp only [replace, String.toList_append, String.toList_ofList, String.toList_singleton,
    List.append_assoc, List.singleton_append, replaceFrom_append_cons hne hd _ _ (Nat.zero_le _)]

/-- Text without the pattern is left as it is. -/
theorem replace_of_not_occurs {pat rep s : String} (h : ¬ Occurs pat s) : replace pat rep s = s := by
  rw [replace, replaceFrom_of_not_infix h, String.ofList_toList]

theorem length_le_replaceFrom {pat rep l : List Char} (hpat : pat ≠ []) (h : pat <:+: l) :
    rep.length ≤ (replaceFrom pat rep 0 l).length := by
  induction l with
  | nil => exact absurd (List.infix_nil.mp h) hpat
  | cons c cs ih =>
      rw [replaceFrom]
      split
      · rw [List.length_append]
        exact Nat.le_add_right _ _
      · rename_i hno
        rcases List.infix_cons_iff.mp h with hpre | hcs
        · exact absurd (List.isPrefixOf_iff_prefix.mpr hpre) hno
        · exact Nat.le_succ_of_le (ih hcs)

/-- A replacement leaves its mark, so that text which is shorter comes from itself only. -/
theorem replace_eq_short {pat rep s t : String} (hpat : pat ≠ "") (ht : ¬ Occurs pat t)
    (hrep : t.toList.length < rep.toList.length) : replace pat rep s = t ↔ s = t := by
  by_cases hs : Occurs pat s
  · constructor
    · rintro rfl
      have hlen : rep.toList.length ≤ _ := length_le_replaceFrom (by simpa using hpat) hs
      simp only [replace, String.toList_ofList] at hrep
      omega
    · rintro rfl
      exact absurd hs ht
  · rw [replace_of_not_occurs hs]

/-- What is replaced at the front, and the rest. -/
theorem replaceFrom_append {pat rep : List Char} (hpat : pat ≠ []) (l : List Char) :
    replaceFrom pat rep 0 (pat ++ l) = rep ++ replaceFrom pat rep 0 l := by
  have hskip : ∀ a b : List Char, replaceFrom pat rep a.length (a ++ b) = replaceFrom pat rep 0 b := by
    intro a b
    induction a with
    | nil => rfl
    | cons c a ih => exact ih
  cases pat with
  | nil => exact absurd rfl hpat
  | cons p ps =>
      rw [List.cons_append, replaceFrom, ← List.cons_append,
        if_pos (List.isPrefixOf_iff_prefix.mpr (List.prefix_append _ _))]
      exact congrArg (rep ++ ·) (hskip ps l)

theorem replaceFrom_cons {pat rep : List Char} {c : Char} {l : List Char} (h : ¬ pat <+: c :: l) :
    replaceFrom pat rep 0 (c :: l) = c :: replaceFrom pat rep 0 l := by
  rw [replaceFrom, if_neg fun hpre => h (List.isPrefixOf_iff_prefix.mp hpre)]

/-- No occurrence begins in text none of whose characters the pattern begins with. -/
theorem replaceFrom_append_of_head {pat rep a : List Char} (hpat : pat ≠ []) (h : ∀ c ∈ a, pat.head? ≠ some c)
    (b : List Char) : replaceFrom pat rep 0 (a ++ b) = a ++ replaceFrom pat rep 0 b := by
  induction a with
  | nil => rfl
  | cons c a ih =>
      have hno : ¬ pat <+: c :: (a ++ b) := by
        intro hpre
        cases pat with
        | nil => exact hpat rfl
        | cons p ps =>
            obtain rfl := (List.cons_prefix_cons.mp hpre).1
            exact h p List.mem_cons_self rfl
      rw [List.cons_append, replaceFrom_cons hno, ih fun d hd => h d (List.mem_cons_of_mem c hd)]
      rfl

/-! ### No occurrence is left -/

theorem prefix_of_prefix_replaceFrom {pat rep p : List Char} (hrep : rep ≠ []) (h : ∀ c ∈ p, c ∉ rep) {skip : Nat}
    {l : List Char} (hp : p <+: replaceFrom pat rep skip l) : p <+: l.drop skip := by
  fun_induction replaceFrom pat rep skip l generalizing p with
  | case1 => simpa using hp
  | case2 skip c cs ih => exact ih h hp
  | case3 c cs hpre ih =>
      cases p with
      | nil => exact List.nil_prefix
      | cons a p =>
          cases rep with
          | nil => exact absurd rfl hrep
          | cons r rs =>
              obtain rfl := (List.cons_prefix_cons.mp hp).1
              exact absurd List.mem_cons_self (h a List.mem_cons_self)
  | case4 c cs hpre ih =>
      cases p with
      | nil => exact List.nil_prefix
      | cons a p =>
          obtain ⟨rfl, htail⟩ := List.cons_prefix_cons.mp hp
          exact List.cons_prefix_cons.mpr ⟨rfl, ih (fun d hd => h d (List.mem_cons_of_mem a hd)) htail⟩

theorem infix_of_infix_append {pat a b : List Char} (hpat : pat ≠ []) (h : ∀ c ∈ pat, c ∉ a)
    (hfound : pat <:+: a ++ b) : pat <:+: b := by
  induction a with
  | nil => exact hfound
  | cons c a ih =>
      rcases List.infix_cons_iff.mp hfound with hpre | hrest
      · cases pat with
        | nil => exact absurd rfl hpat
        | cons p ps =>
            obtain rfl := (List.cons_prefix_cons.mp hpre).1
            exact absurd List.mem_cons_self (h p List.mem_cons_self)
      · exact ih (fun d hd hmem => h d hd (List.mem_cons_of_mem c hmem)) hrest

/-- The replacement shares no character with the pattern. -/
theorem not_infix_replaceFrom {pat rep : List Char} (hpat : pat ≠ []) (hrep : rep ≠ []) (h : ∀ c ∈ pat, c ∉ rep)
    (skip : Nat) (l : List Char) : ¬ pat <:+: replaceFrom pat rep skip l := by
  fun_induction replaceFrom pat rep skip l with
  | case1 => exact fun hfound => hpat (List.infix_nil.mp hfound)
  | case2 skip c cs ih => exact ih
  | case3 c cs hpre ih => exact fun hfound => ih (infix_of_infix_append hpat h hfound)
  | case4 c cs hpre ih =>
      intro hfound
      rcases List.infix_cons_iff.mp hfound with hfront | hrest
      · cases pat with
        | nil => exact hpat rfl
        | cons p ps =>
            obtain ⟨rfl, htail⟩ := List.cons_prefix_cons.mp hfront
            have hps := prefix_of_prefix_replaceFrom hrep (fun d hd => h d (List.mem_cons_of_mem p hd)) htail
            exact hpre (List.isPrefixOf_iff_prefix.mpr (List.cons_prefix_cons.mpr ⟨rfl, hps⟩))
      · exact ih hrest

theorem not_occurs_replace {pat rep : String} (hpat : pat ≠ "") (hrep : rep ≠ "")
    (h : ∀ c ∈ pat.toList, c ∉ rep.toList) (s : String) : ¬ Occurs pat (replace pat rep s) := by
  rw [Occurs, replace, String.toList_ofList]
  exact not_infix_replaceFrom (by simpa using hpat) (by simpa using hrep) h 0 s.toList

/-! ### Replacing in escaped text -/

/-- Neither the pattern nor the replacement is escaped, and no occurrence begins within an escape. -/
structure Unescaped (pat rep : List Char) (esc : Char → List Char) : Prop where
  ne_nil : pat ≠ []
  plain : ∀ c ∈ pat, esc c = [c]
  plain' : ∀ c ∈ rep, esc c = [c]
  escape : ∀ c, esc c ≠ [c] → (∃ d r, esc c = d :: r ∧ d ∉ pat) ∧ ∀ e ∈ esc c, pat.head? ≠ some e

theorem flatMap_eq_self {esc : Char → List Char} {l : List Char} (h : ∀ c ∈ l, esc c = [c]) : l.flatMap esc = l := by
  induction l with
  | nil => rfl
  | cons c l ih =>
      rw [List.flatMap_cons, h c List.mem_cons_self, ih fun d hd => h d (List.mem_cons_of_mem c hd)]
      rfl

theorem Unescaped.prefix_of_flatMap {pat rep : List Char} {esc : Char → List Char} (h : Unescaped pat rep esc)
    {p l : List Char} (hp : ∀ c ∈ p, c ∈ pat) (hpre : p <+: l.flatMap esc) : p <+: l := by
  induction l generalizing p with
  | nil => exact hpre
  | cons c l ih =>
      cases p with
      | nil => exact List.nil_prefix
      | cons a p =>
          rw [List.flatMap_cons] at hpre
          by_cases hc : esc c = [c]
          · rw [hc, List.singleton_append] at hpre
            obtain ⟨rfl, htail⟩ := List.cons_prefix_cons.mp hpre
            exact List.cons_prefix_cons.mpr ⟨rfl, ih (fun d hd => hp d (List.mem_cons_of_mem a hd)) htail⟩
          · obtain ⟨⟨d, r, hesc, hd⟩, _⟩ := h.escape c hc
            rw [hesc, List.cons_append] at hpre
            obtain rfl := (List.cons_prefix_cons.mp hpre).1
            exact absurd (hp a List.mem_cons_self) hd

/-- Replacing in escaped text is escaping what has been replaced. -/
theorem Unescaped.replaceFrom_flatMap {pat rep : List Char} {esc : Char → List Char} (h : Unescaped pat rep esc)
    (l : List Char) : replaceFrom pat rep 0 (l.flatMap esc) = (replaceFrom pat rep 0 l).flatMap esc := by
  induction hn : l.length using Nat.strong_induction_on generalizing l with
  | _ n ih =>
      by_cases hpre : pat <+: l
      · obtain ⟨rest, rfl⟩ := hpre
        have hlen : 0 < pat.length := List.length_pos_iff.mpr h.ne_nil
        rw [List.length_append] at hn
        rw [List.flatMap_append, flatMap_eq_self h.plain, replaceFrom_append h.ne_nil, replaceFrom_append h.ne_nil,
          List.flatMap_append, flatMap_eq_self h.plain', ih rest.length (by omega) rest rfl]
      · cases l with
        | nil => rfl
        | cons c l =>
            have hrest := ih l.length (by rw [← hn]; exact Nat.lt_succ_self _) l rfl
            rw [replaceFrom_cons hpre, List.flatMap_cons, List.flatMap_cons, ← hrest]
            by_cases hc : esc c = [c]
            · have hno : ¬ pat <+: c :: l.flatMap esc := by
                intro hesc
                refine hpre (h.prefix_of_flatMap (fun d hd => hd) ?_)
                rwa [List.flatMap_cons, hc, List.singleton_append]
              rw [hc, List.singleton_append, List.singleton_append, replaceFrom_cons hno]
            · exact replaceFrom_append_of_head h.ne_nil (h.escape c hc).2 _

/-! ## Numbers -/

theorem not_mem_toString {c : Char} (hc : c.isDigit = false) (k : Nat) : c ∉ (toString k).toList := by
  intro h
  rw [Nat.toString_eq_repr, Nat.toList_repr] at h
  rw [Nat.isDigit_of_mem_toDigits (by decide) (by decide) h] at hc
  cases hc

theorem toString_inj {k k' : Nat} (h : toString k = toString k') : k = k' := by
  have hdigits := congrArg String.toList h
  rw [Nat.toString_eq_repr, Nat.toString_eq_repr, Nat.toList_repr, Nat.toList_repr] at hdigits
  rw [← Nat.ofDigitChars_toDigits (b := 10) (n := k) (by decide) (by decide), hdigits,
    Nat.ofDigitChars_toDigits (by decide) (by decide)]

/-! ## Order -/

/-- Two texts stay in order when an ending is put to both, if one that continues the other does so with
larger characters. -/
theorem append_cons_lt {d : Char} {l m : List Char} (h : l < m) (hext : ∀ c r, m = l ++ c :: r → d < c)
    (s : List Char) : l ++ d :: s < m ++ d :: s := by
  induction h with
  | nil => exact List.cons_lt_cons_iff.mpr (.inl (hext _ _ rfl))
  | rel hlt => exact List.cons_lt_cons_iff.mpr (.inl hlt)
  | cons _ ih => exact List.cons_lt_cons_iff.mpr (.inr ⟨rfl, ih fun c r hm => hext c r (congrArg _ hm)⟩)

end Text
