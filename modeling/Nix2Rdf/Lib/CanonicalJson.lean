import Nix2Rdf.Lib.Json
import Nix2Rdf.Lib.Text
import Mathlib.Data.List.Perm.Basic
import Mathlib.Data.String.Basic
import Std.Data.String.ToInt

/-!
# Canonical JSON

Values print alike exactly when they are the same. With the members of every object sorted first they
print alike exactly when they differ in the order of members only.
-/

namespace Json

/-! ## Values and their order -/

/-- The characters of a number. -/
def isNumberChar (c : Char) : Bool := c.isDigit || c ∈ ['-', '+', '.', 'e']

/-- The text of a number that is no integer. -/
structure IsFloat (t : String) : Prop where
  start : t.toList.head?.any (fun c => c.isDigit || c == '-') = true
  chars : ∀ c ∈ t.toList, isNumberChar c = true
  point : ∃ c ∈ t.toList, c = '.' ∨ c = 'e'

/-- A value as it is parsed: no object has a key twice. -/
inductive Proper : Json → Prop
  | null : Proper .null
  | bool (b : Bool) : Proper (.bool b)
  | int (i : Int) : Proper (.int i)
  | float {t : String} : IsFloat t → Proper (.float t)
  | str (s : String) : Proper (.str s)
  | arr {xs : List Json} : (∀ x ∈ xs, Proper x) → Proper (.arr xs)
  | obj {kvs : List (String × Json)} : (kvs.map Prod.fst).Nodup → (∀ kv ∈ kvs, Proper kv.2) → Proper (.obj kvs)

/-- A value that can be parsed. -/
abbrev Value := {v : Json // Proper v}

/-- Equal up to the order of the members of objects, at every depth. -/
inductive Reordered : Json → Json → Prop
  | same (v : Json) : Reordered v v
  | arr {xs ys : List Json} : xs.length = ys.length →
      (∀ (i : Nat) (x y : Json), xs[i]? = some x → ys[i]? = some y → Reordered x y) → Reordered (.arr xs) (.arr ys)
  | obj {kvs lvs : List (String × Json)} : (kvs.map Prod.fst).Perm (lvs.map Prod.fst) →
      (∀ k x y, (k, x) ∈ kvs → (k, y) ∈ lvs → Reordered x y) → Reordered (.obj kvs) (.obj lvs)

/-! ## Sorting -/

theorem sortMembers_eq (kvs : List (String × Json)) : sortMembers kvs = kvs.map fun kv => (kv.1, kv.2.sort) := by
  induction kvs with
  | nil => rfl
  | cons kv kvs ih => rw [sortMembers, ih, List.map_cons]

theorem keys_sortMembers (kvs : List (String × Json)) : (sortMembers kvs).map Prod.fst = kvs.map Prod.fst := by
  rw [sortMembers_eq, List.map_map]
  rfl

theorem lookup_eq_some {α : Type} {kvs : List (String × α)} (h : (kvs.map Prod.fst).Nodup) {k : String} {x : α}
    (hmem : (k, x) ∈ kvs) : kvs.lookup k = some x := by
  induction kvs with
  | nil => cases hmem
  | cons kv kvs ih =>
      rw [List.map_cons, List.nodup_cons] at h
      rcases List.mem_cons.mp hmem with rfl | hmem
      · rw [List.lookup_cons, beq_self_eq_true]
      · have hne : k ≠ kv.1 := fun heq => h.1 (heq ▸ List.mem_map_of_mem hmem)
        rw [List.lookup_cons, beq_false_of_ne hne]
        exact ih h.2 hmem

theorem pairwise_sorted {α : Type} (l : List (String × α)) :
    (l.mergeSort fun a b => decide (a.1 ≤ b.1)).Pairwise fun a b => a.1 ≤ b.1 := by
  have hsorted := @List.pairwise_mergeSort _ (fun a b : String × α => decide (a.1 ≤ b.1)) (fun a b c hab hbc => ?_)
    (fun a b => ?_) l
  · exact hsorted.imp fun h => of_decide_eq_true h
  · exact decide_eq_true (String.le_trans (of_decide_eq_true hab) (of_decide_eq_true hbc))
  · rw [Bool.or_eq_true, decide_eq_true_eq, decide_eq_true_eq]
    exact String.le_total _ _

/-- Members with different keys have one sorted order. -/
theorem mergeSort_eq_of_perm {α : Type} {l l' : List (String × α)} (hperm : l.Perm l') (h : (l.map Prod.fst).Nodup) :
    (l.mergeSort fun a b => decide (a.1 ≤ b.1)) = l'.mergeSort fun a b => decide (a.1 ≤ b.1) := by
  have hall := (List.mergeSort_perm l fun a b => decide (a.1 ≤ b.1)).trans
    (hperm.trans (List.mergeSort_perm l' fun a b => decide (a.1 ≤ b.1)).symm)
  refine List.Perm.eq_of_pairwise (fun a b ha hb hab hba => ?_) (pairwise_sorted l) (pairwise_sorted l') hall
  have hkey : a.1 = b.1 := String.le_antisymm hab hba
  have hla := lookup_eq_some h (k := a.1) (x := a.2) (List.mem_mergeSort.mp ha)
  have hlb := lookup_eq_some h (k := b.1) (x := b.2) (hperm.mem_iff.mpr (List.mem_mergeSort.mp hb))
  rw [hkey, hlb, Option.some.injEq] at hla
  exact Prod.ext hkey hla.symm

theorem Proper.sort {v : Json} (h : Proper v) : Proper v.sort := by
  induction h with
  | null => exact .null
  | bool b => exact .bool b
  | int i => exact .int i
  | float ht => exact .float ht
  | str s => exact .str s
  | @arr xs _ ih =>
      rw [Json.sort, sortList_eq]
      refine .arr fun y hy => ?_
      obtain ⟨x, hx, rfl⟩ := List.mem_map.mp hy
      exact ih x hx
  | @obj kvs hnodup _ ih =>
      have hperm := List.mergeSort_perm (sortMembers kvs) fun a b => decide (a.1 ≤ b.1)
      rw [Json.sort]
      refine .obj ((hperm.map Prod.fst).nodup_iff.mpr (by rwa [keys_sortMembers])) fun kv hkv => ?_
      rw [hperm.mem_iff, sortMembers_eq] at hkv
      obtain ⟨lv, hlv, rfl⟩ := List.mem_map.mp hkv
      exact ih lv hlv

def isScalar : Json → Bool
  | .arr _ => false
  | .obj _ => false
  | _ => true

theorem eq_of_sort_scalar {v w : Json} (hv : v.isScalar = true) (h : v = w.sort) : w = v := by
  subst h
  cases w with
  | arr xs => cases hv
  | obj kvs => cases hv
  | _ => rfl

theorem reordered_of_sort_eq {v w : Json} (hv : Proper v) (hw : Proper w) (h : v.sort = w.sort) : Reordered v w := by
  induction hv generalizing w with
  | null => exact eq_of_sort_scalar rfl h ▸ .same _
  | bool b => exact eq_of_sort_scalar rfl h ▸ .same _
  | int i => exact eq_of_sort_scalar rfl h ▸ .same _
  | float _ => exact eq_of_sort_scalar rfl h ▸ .same _
  | str s => exact eq_of_sort_scalar rfl h ▸ .same _
  | @arr xs _ ih =>
      cases hw with
      | @arr ys hys =>
          rw [Json.sort, Json.sort, sortList_eq, sortList_eq, Json.arr.injEq] at h
          have hlen := congrArg List.length h
          rw [List.length_map, List.length_map] at hlen
          refine .arr hlen fun i x y hx hy => ?_
          have hi := congrArg (fun l : List Json => l[i]?) h
          simp only [List.getElem?_map, hx, hy, Option.map_some, Option.some.injEq] at hi
          exact ih x (List.mem_of_getElem? hx) (hys y (List.mem_of_getElem? hy)) hi
      | _ => simp [Json.sort] at h
  | @obj kvs hnodup _ ih =>
      cases hw with
      | @obj lvs hnodup' hlvs =>
          rw [Json.sort, Json.sort, Json.obj.injEq] at h
          have hperm := (List.mergeSort_perm (sortMembers kvs) fun a b => decide (a.1 ≤ b.1)).symm
          rw [h] at hperm
          have hkeys := (hperm.trans (List.mergeSort_perm (sortMembers lvs) _)).map Prod.fst
          rw [keys_sortMembers, keys_sortMembers] at hkeys
          refine .obj hkeys fun k x y hx hy => ?_
          have hlookup := congrArg (List.lookup k) h
          rw [lookup_mergeSort, lookup_mergeSort, lookup_sortMembers, lookup_sortMembers, lookup_eq_some hnodup hx,
            lookup_eq_some hnodup' hy, Option.map_some, Option.map_some, Option.some.injEq] at hlookup
          exact ih (k, x) hx (hlvs (k, y) hy) hlookup
      | _ => simp [Json.sort] at h

theorem Reordered.sort_eq {v w : Json} (h : Reordered v w) (hv : Proper v) (hw : Proper w) : v.sort = w.sort := by
  induction h with
  | same v => rfl
  | @arr xs ys hlen _ ih =>
      cases hv with
      | arr hxs =>
          cases hw with
          | arr hys =>
              rw [Json.sort, Json.sort, sortList_eq, sortList_eq]
              congr 1
              refine List.ext_getElem? fun i => ?_
              rw [List.getElem?_map, List.getElem?_map]
              cases hx : xs[i]? with
              | none =>
                  rw [List.getElem?_eq_none (by rw [← hlen]; exact List.getElem?_eq_none_iff.mp hx)]
              | some x =>
                  have hi : i < ys.length := by
                    rw [← hlen]
                    exact (List.getElem?_eq_some_iff.mp hx).1
                  rw [List.getElem?_eq_getElem hi, Option.map_some, Option.map_some,
                    ih i x ys[i] hx (List.getElem?_eq_getElem hi) (hxs x (List.mem_of_getElem? hx))
                      (hys _ (List.getElem_mem hi))]
  | @obj kvs lvs hkeys _ ih =>
      cases hv with
      | obj hnodup hkvs =>
          cases hw with
          | obj hnodup' hlvs =>
              rw [Json.sort, Json.sort]
              congr 1
              refine mergeSort_eq_of_perm ?_ (by rwa [keys_sortMembers])
              have hsub : ∀ kvs lvs : List (String × Json), (kvs.map Prod.fst) ⊆ (lvs.map Prod.fst) →
                  (∀ k x y, (k, x) ∈ kvs → (k, y) ∈ lvs → x.sort = y.sort) → sortMembers kvs ⊆ sortMembers lvs := by
                intro kvs lvs hsub hsame kv hkv
                rw [sortMembers_eq] at hkv ⊢
                obtain ⟨⟨k, x⟩, hx, rfl⟩ := List.mem_map.mp hkv
                obtain ⟨⟨k', y⟩, hy, hk⟩ := List.mem_map.mp (hsub (List.mem_map_of_mem hx))
                cases hk
                exact List.mem_map.mpr ⟨(k, y), hy, by rw [hsame _ _ _ hx hy]⟩
              have hsame : ∀ k x y, (k, x) ∈ kvs → (k, y) ∈ lvs → x.sort = y.sort :=
                fun k x y hx hy => ih k x y hx hy (hkvs _ hx) (hlvs _ hy)
              have hnd := (keys_sortMembers kvs).symm ▸ hnodup
              have hnd' := (keys_sortMembers lvs).symm ▸ hnodup'
              exact (List.perm_ext_iff_of_nodup hnd.of_map hnd'.of_map).mpr fun kv =>
                ⟨fun h => hsub kvs lvs hkeys.subset hsame h,
                  fun h => hsub lvs kvs hkeys.symm.subset (fun k x y hx hy => (hsame k y x hy hx).symm) h⟩

theorem sort_eq_iff {v w : Json} (hv : Proper v) (hw : Proper w) : v.sort = w.sort ↔ Reordered v w :=
  ⟨reordered_of_sort_eq hv hw, fun h => h.sort_eq hv hw⟩

/-! ## Strings are read back -/

def hexValue (c : Char) : Nat := if c.toNat < 58 then c.toNat - 48 else c.toNat - 87

/-- The first character of a text in quotes, with what follows it. -/
def readChar : List Char → Option (Char × List Char)
  | '"' :: _ => none
  | '\\' :: 'u' :: _ :: _ :: hi :: lo :: r => some (Char.ofNat (16 * hexValue hi + hexValue lo), r)
  | '\\' :: 'b' :: r => some (Char.ofNat 8, r)
  | '\\' :: 'f' :: r => some (Char.ofNat 12, r)
  | '\\' :: 'n' :: r => some ('\n', r)
  | '\\' :: 'r' :: r => some ('\r', r)
  | '\\' :: 't' :: r => some ('\t', r)
  | '\\' :: c :: r => some (c, r)
  | c :: r => some (c, r)
  | [] => none

theorem readChar_escapeChar (c : Char) (r : List Char) : readChar (escapeChar c ++ r) = some (c, r) := by
  have hcontrol : ∀ n < 32, Char.ofNat (16 * hexValue (hexDigit (n / 16)) + hexValue (hexDigit (n % 16))) =
      Char.ofNat n := by
    decide
  have hnat : ∀ {n : Nat}, c.toNat = n → Char.ofNat n = c := by
    intro n hn
    rw [← hn, Char.ofNat_toNat]
  unfold escapeChar
  split_ifs with hquote hback hb hf hn hr ht hsmall
  · rw [hquote]
    rfl
  · rw [hback]
    rfl
  · rw [← hnat hb]
    rfl
  · rw [← hnat hf]
    rfl
  · rw [hn]
    rfl
  · rw [hr]
    rfl
  · rw [ht]
    rfl
  · have hc := hcontrol c.toNat hsmall
    rw [Char.ofNat_toNat] at hc
    simp only [List.cons_append, List.nil_append, readChar, hc]
  · rw [List.singleton_append]
    unfold readChar
    split <;> simp_all

theorem escaped_append_inj {l m r s : List Char}
    (h : l.flatMap escapeChar ++ '"' :: r = m.flatMap escapeChar ++ '"' :: s) : l = m ∧ r = s := by
  induction l generalizing m with
  | nil =>
      cases m with
      | nil =>
          rw [List.flatMap_nil, List.nil_append, List.nil_append, List.cons.injEq] at h
          exact ⟨rfl, h.2⟩
      | cons d m =>
          have hread := readChar_escapeChar d (m.flatMap escapeChar ++ '"' :: s)
          rw [← List.append_assoc, ← List.flatMap_cons, ← h] at hread
          cases hread
  | cons c l ih =>
      have hread := readChar_escapeChar c (l.flatMap escapeChar ++ '"' :: r)
      rw [← List.append_assoc, ← List.flatMap_cons, h] at hread
      cases m with
      | nil => cases hread
      | cons d m =>
          rw [List.flatMap_cons, List.append_assoc, readChar_escapeChar, Option.some.injEq, Prod.mk.injEq] at hread
          obtain ⟨hm, hr⟩ := ih hread.2.symm
          exact ⟨by rw [hread.1, hm], hr⟩

theorem quote_append_inj {a b : String} {r s : List Char} (h : (quote a).toList ++ r = (quote b).toList ++ s) :
    a = b ∧ r = s := by
  simp only [quote, String.toList_ofList, List.cons_append, List.append_assoc, List.nil_append, List.cons.injEq,
    true_and] at h
  obtain ⟨hlist, hrest⟩ := escaped_append_inj h
  exact ⟨String.toList_inj.mp hlist, hrest⟩

/-! ## Numbers are read back -/

/-- No number goes on here. -/
def Delimited (r : List Char) : Prop := ∀ c ∈ r.head?, isNumberChar c = false

theorem number_append_inj {a b r s : List Char} (ha : ∀ c ∈ a, isNumberChar c = true)
    (hb : ∀ c ∈ b, isNumberChar c = true) (hr : Delimited r) (hs : Delimited s) (h : a ++ r = b ++ s) :
    a = b ∧ r = s := by
  have hread : ∀ {a r : List Char}, (∀ c ∈ a, isNumberChar c = true) → Delimited r →
      (a ++ r).takeWhile isNumberChar = a := by
    intro a r ha hr
    rw [List.takeWhile_append_of_pos ha]
    cases r with
    | nil => simp
    | cons c r => simp [hr c rfl]
  have hfront := hread ha hr
  rw [h, hread hb hs] at hfront
  subst hfront
  exact ⟨rfl, List.append_cancel_left h⟩

theorem exists_toDigits (i : Int) :
    ∃ n, (toString i).toList = Nat.toDigits 10 n ∨ (toString i).toList = '-' :: Nat.toDigits 10 n := by
  cases i with
  | ofNat n => exact ⟨n, .inl Nat.toList_repr⟩
  | negSucc n =>
      refine ⟨n + 1, .inr ?_⟩
      rw [Int.toString_eq_repr, Int.repr_eq_if]
      simp

/-- The text of an integer has a first character, and none that a float needs. -/
theorem text_int (i : Int) : (toString i).toList ≠ [] ∧ ∀ c ∈ (toString i).toList, c.isDigit = true ∨ c = '-' := by
  have hdigits : ∀ {n : Nat} {c : Char}, c ∈ Nat.toDigits 10 n → c.isDigit = true :=
    fun h => Nat.isDigit_of_mem_toDigits (by decide) (by decide) h
  obtain ⟨n, h | h⟩ := exists_toDigits i
  · rw [h]
    exact ⟨Nat.toDigits_ne_nil, fun c hc => .inl (hdigits hc)⟩
  · rw [h]
    refine ⟨List.cons_ne_nil _ _, fun c hc => ?_⟩
    exact (List.mem_cons.mp hc).symm.imp hdigits id

theorem isNumberChar_of_digit {c : Char} (h : c.isDigit = true ∨ c = '-') : isNumberChar c = true := by
  rcases h with h | rfl
  · rw [isNumberChar, h, Bool.true_or]
  · rfl

/-! ## Values are read back -/

/-- The text of one or more items with commas between them. -/
theorem intercalate_cons (a : List Char) (as : List (List Char)) :
    [','].intercalate (a :: as) = a ++ as.flatMap fun b => ',' :: b := by
  induction as generalizing a with
  | nil => simp
  | cons b as ih =>
      rw [List.intercalate_cons_cons, ih, List.flatMap_cons, List.append_assoc, List.singleton_append,
        List.cons_append]

section Items
variable {α : Type} {text : α → List Char} {close : Char}

/-- Whatever follows one of the items, it is read back from its text. -/
def ReadsBack (text : α → List Char) (a : α) (bs : List α) : Prop :=
  ∀ b ∈ bs, ∀ r s, Delimited r → Delimited s → text a ++ r = text b ++ s → a = b ∧ r = s

theorem delimited_tail (hclose : isNumberChar close = false) (as : List α) (r : List Char) :
    Delimited (as.flatMap (fun a => ',' :: text a) ++ close :: r) := by
  cases as with
  | nil =>
      intro c hc
      cases hc
      exact hclose
  | cons a as =>
      intro c hc
      cases hc
      rfl

theorem tail_append_inj (hclose : isNumberChar close = false) (hcomma : close ≠ ',') {as bs : List α}
    (h : ∀ a ∈ as, ReadsBack text a bs) {r s : List Char}
    (heq : as.flatMap (fun a => ',' :: text a) ++ close :: r = bs.flatMap (fun b => ',' :: text b) ++ close :: s) :
    as = bs ∧ r = s := by
  induction as generalizing bs with
  | nil =>
      cases bs with
      | nil =>
          rw [List.flatMap_nil, List.nil_append, List.nil_append, List.cons.injEq] at heq
          exact ⟨rfl, heq.2⟩
      | cons b bs =>
          rw [List.flatMap_nil, List.nil_append, List.flatMap_cons, List.cons_append, List.cons_append,
            List.cons.injEq] at heq
          exact absurd heq.1 hcomma
  | cons a as ih =>
      cases bs with
      | nil =>
          rw [List.flatMap_nil, List.nil_append, List.flatMap_cons, List.cons_append, List.cons_append,
            List.cons.injEq] at heq
          exact absurd heq.1.symm hcomma
      | cons b bs =>
          rw [List.flatMap_cons, List.flatMap_cons, List.cons_append, List.cons_append, List.cons_append,
            List.cons_append, List.cons.injEq, List.append_assoc, List.append_assoc] at heq
          obtain ⟨hab, hrest⟩ := h a List.mem_cons_self b List.mem_cons_self _ _ (delimited_tail hclose as r)
            (delimited_tail hclose bs s) heq.2
          have hsub : ∀ a ∈ as, ReadsBack text a bs := fun a ha b hb =>
            h a (List.mem_cons_of_mem _ ha) b (List.mem_cons_of_mem _ hb)
          obtain ⟨htail, hr⟩ := ih hsub hrest
          exact ⟨by rw [hab, htail], hr⟩

/-- Items in brackets are read back, if no item begins with the closing bracket. -/
theorem items_append_inj (hclose : isNumberChar close = false) (hcomma : close ≠ ',') {as bs : List α}
    (h : ∀ a ∈ as, ReadsBack text a bs) (hfirst : ∀ a ∈ as ++ bs, ∃ c rest, text a = c :: rest ∧ c ≠ close)
    {r s : List Char} (heq : [','].intercalate (as.map text) ++ close :: r =
      [','].intercalate (bs.map text) ++ close :: s) :
    as = bs ∧ r = s := by
  have hempty : ∀ {b : α} {bs : List α} {r s : List Char}, (∃ c rest, text b = c :: rest ∧ c ≠ close) →
      close :: r ≠ [','].intercalate ((b :: bs).map text) ++ close :: s := by
    intro b bs r s hb heq
    obtain ⟨c, rest, hc, hne⟩ := hb
    rw [List.map_cons, intercalate_cons, hc, List.cons_append, List.cons_append, List.cons.injEq] at heq
    exact hne heq.1.symm
  have htail : ∀ as : List α, (as.map text).flatMap (fun b => ',' :: b) = as.flatMap fun a => ',' :: text a :=
    fun as => List.flatMap_map ..
  cases as with
  | nil =>
      cases bs with
      | nil =>
          rw [List.map_nil, List.intercalate_nil, List.nil_append, List.nil_append, List.cons.injEq] at heq
          exact ⟨rfl, heq.2⟩
      | cons b bs => exact absurd heq (hempty (hfirst b (by simp)))
  | cons a as =>
      cases bs with
      | nil => exact absurd heq.symm (hempty (hfirst a (by simp)))
      | cons b bs =>
          rw [List.map_cons, List.map_cons, intercalate_cons, intercalate_cons, htail, htail, List.append_assoc,
            List.append_assoc] at heq
          obtain ⟨hab, hrest⟩ := h a List.mem_cons_self b List.mem_cons_self _ _ (delimited_tail hclose as r)
            (delimited_tail hclose bs s) heq
          have hsub : ∀ a ∈ as, ReadsBack text a bs := fun a ha b hb =>
            h a (List.mem_cons_of_mem _ ha) b (List.mem_cons_of_mem _ hb)
          obtain ⟨hmore, hr⟩ := tail_append_inj hclose hcomma hsub hrest
          exact ⟨by rw [hab, hmore], hr⟩

end Items

/-- What a value is, as its first character tells. -/
def rank : Json → Nat
  | .null => 0
  | .bool true => 1
  | .bool false => 2
  | .str _ => 3
  | .arr _ => 4
  | .obj _ => 5
  | _ => 6

def rankOf (c : Char) : Nat :=
  if c = 'n' then 0
  else if c = 't' then 1
  else if c = 'f' then 2
  else if c = '"' then 3
  else if c = '[' then 4
  else if c.toNat = 123 then 5
  else 6

theorem rankOf_digit {c : Char} (h : c.isDigit = true ∨ c = '-') : rankOf c = 6 := by
  have hlisted : ∀ d ∈ ['n', 't', 'f', '"', '[', Char.ofNat 123], d.isDigit = false ∧ d ≠ '-' := by decide
  have hne : ∀ d ∈ ['n', 't', 'f', '"', '[', Char.ofNat 123], c ≠ d := by
    intro d hd heq
    obtain ⟨hdigit, hminus⟩ := hlisted d hd
    rw [heq, hdigit] at h
    exact h.elim (fun h => absurd h (by decide)) hminus
  have hbrace : c.toNat ≠ 123 := fun h123 => hne (Char.ofNat 123) (by decide) (by rw [← h123, Char.ofNat_toNat])
  rw [rankOf, if_neg (hne _ (by decide)), if_neg (hne _ (by decide)), if_neg (hne _ (by decide)),
    if_neg (hne _ (by decide)), if_neg (hne _ (by decide)), if_neg hbrace]

/-- The first character of the text of a value. -/
theorem exists_first {v : Json} (h : Proper v) : ∃ c rest, v.print.toList = c :: rest ∧ rankOf c = v.rank := by
  cases h with
  | null => exact ⟨'n', "ull".toList, rfl, rfl⟩
  | bool b =>
      cases b with
      | true => exact ⟨'t', "rue".toList, rfl, rfl⟩
      | false => exact ⟨'f', "alse".toList, rfl, rfl⟩
  | int i =>
      obtain ⟨hne, hchars⟩ := text_int i
      obtain ⟨c, rest, hl⟩ := List.exists_cons_of_ne_nil hne
      exact ⟨c, rest, by rw [print, hl], rankOf_digit (hchars c (hl ▸ List.mem_cons_self))⟩
  | @float t ht =>
      cases hl : t.toList with
      | nil =>
          have hstart := ht.start
          rw [hl] at hstart
          cases hstart
      | cons c rest =>
          have hstart := ht.start
          rw [hl, List.head?_cons, Option.any_some, Bool.or_eq_true, beq_iff_eq] at hstart
          exact ⟨c, rest, by rw [print, hl], rankOf_digit hstart⟩
  | str s => exact ⟨'"', _, by rw [print, quote, String.toList_ofList, List.cons_append], rfl⟩
  | arr _ => exact ⟨'[', _, by rw [print, String.toList_append, String.toList_append]; rfl, rfl⟩
  | obj _ _ => exact ⟨Char.ofNat 123, _, by rw [print, String.toList_append, String.toList_append]; rfl, rfl⟩

theorem printList_eq (xs : List Json) : (printList xs).map String.toList = xs.map fun x => x.print.toList := by
  induction xs with
  | nil => rfl
  | cons x xs ih => rw [printList, List.map_cons, ih, List.map_cons]

/-- The text of a member of an object. -/
def memberText (kv : String × Json) : List Char := (quote kv.1).toList ++ ':' :: kv.2.print.toList

theorem printMembers_eq (kvs : List (String × Json)) : (printMembers kvs).map String.toList = kvs.map memberText := by
  induction kvs with
  | nil => rfl
  | cons kv kvs ih =>
      rw [printMembers, List.map_cons, ih, List.map_cons, memberText, String.toList_append, String.toList_append,
        List.append_assoc]
      rfl

theorem toList_print_arr (xs : List Json) (r : List Char) :
    (print (.arr xs)).toList ++ r = '[' :: ([','].intercalate (xs.map fun x => x.print.toList) ++ ']' :: r) := by
  rw [print, String.toList_append, String.toList_append, String.toList_intercalate, printList_eq, List.append_assoc,
    List.append_assoc]
  rfl

theorem toList_print_obj (kvs : List (String × Json)) (r : List Char) : (print (.obj kvs)).toList ++ r =
    Char.ofNat 123 :: ([','].intercalate (kvs.map memberText) ++ Char.ofNat 125 :: r) := by
  rw [print, String.toList_append, String.toList_append, String.toList_intercalate, printMembers_eq,
    List.append_assoc, List.append_assoc]
  rfl

theorem number_chars {v : Json} (hv : Proper v) (h : v.rank = 6) : ∀ c ∈ v.print.toList, isNumberChar c = true := by
  cases hv with
  | null => cases h
  | bool b => cases b <;> cases h
  | int i => exact fun c hc => isNumberChar_of_digit ((text_int i).2 c hc)
  | float ht => exact ht.chars
  | str s => cases h
  | arr _ => cases h
  | obj _ _ => cases h

/-- An integer is not printed as a float is. -/
theorem int_ne_float {i : Int} {t : String} (ht : IsFloat t) : toString i ≠ t := by
  intro h
  obtain ⟨c, hc, hpoint⟩ := ht.point
  rw [← h] at hc
  have hint := (text_int i).2 c hc
  rcases hpoint with rfl | rfl
  · exact absurd hint (by decide)
  · exact absurd hint (by decide)

theorem number_inj {v w : Json} (hv : Proper v) (hw : Proper w) (hrank : v.rank = 6) (hrank' : w.rank = 6)
    (h : v.print = w.print) : v = w := by
  cases hv with
  | null => cases hrank
  | bool b => cases b <;> cases hrank
  | int i =>
      cases hw with
      | null => cases hrank'
      | bool b => cases b <;> cases hrank'
      | int j => rw [Int.repr_injective h]
      | float ht => exact absurd h (int_ne_float ht)
      | str s => cases hrank'
      | arr _ => cases hrank'
      | obj _ _ => cases hrank'
  | float ht =>
      cases hw with
      | null => cases hrank'
      | bool b => cases b <;> cases hrank'
      | int j => exact absurd h.symm (int_ne_float ht)
      | float _ => rw [print, print] at h; rw [h]
      | str s => cases hrank'
      | arr _ => cases hrank'
      | obj _ _ => cases hrank'
  | str s => cases hrank
  | arr _ => cases hrank
  | obj _ _ => cases hrank

theorem eq_null {w : Json} (h : w.rank = 0) : w = .null := by
  unfold rank at h
  split at h <;> simp_all

theorem eq_bool {w : Json} {b : Bool} (h : w.rank = (Json.bool b).rank) : w = .bool b := by
  cases b <;> (unfold rank at h; split at h <;> simp_all)

theorem exists_str {w : Json} (h : w.rank = 3) : ∃ s, w = .str s := by
  unfold rank at h
  split at h <;> simp_all

theorem exists_arr {w : Json} (h : w.rank = 4) : ∃ ys, w = .arr ys := by
  unfold rank at h
  split at h <;> simp_all

theorem exists_obj {w : Json} (h : w.rank = 5) : ∃ lvs, w = .obj lvs := by
  unfold rank at h
  split at h <;> simp_all

/-- No value begins as a bracket closes. -/
theorem exists_first_open {v : Json} (h : Proper v) {close : Char} (hclose : close ∈ [']', Char.ofNat 125]) :
    ∃ c rest, v.print.toList = c :: rest ∧ c ≠ close := by
  have hno : ∀ d ∈ [']', Char.ofNat 125], rankOf d = 6 ∧ isNumberChar d = false := by decide
  obtain ⟨c, rest, hc, hrank⟩ := exists_first h
  refine ⟨c, rest, hc, ?_⟩
  rintro rfl
  obtain ⟨h6, hchar⟩ := hno c hclose
  rw [number_chars h (hrank.symm.trans h6) c (hc ▸ List.mem_cons_self)] at hchar
  cases hchar

theorem rank_eq {v w : Json} (hv : Proper v) (hw : Proper w) {r s : List Char}
    (h : v.print.toList ++ r = w.print.toList ++ s) : w.rank = v.rank := by
  obtain ⟨c, rest, hc, hcr⟩ := exists_first hv
  obtain ⟨d, rest', hd, hdr⟩ := exists_first hw
  have hfirst := congrArg List.head? h
  rw [hc, hd, List.cons_append, List.cons_append, List.head?_cons, List.head?_cons, Option.some.injEq] at hfirst
  rw [← hcr, ← hdr, hfirst]

theorem number_print_inj {v w : Json} (hv : Proper v) (hw : Proper w) (hrank : v.rank = 6) {r s : List Char}
    (hr : Delimited r) (hs : Delimited s) (h : v.print.toList ++ r = w.print.toList ++ s) : v = w ∧ r = s := by
  have hrank' := (rank_eq hv hw h).trans hrank
  obtain ⟨hprint, hrest⟩ := number_append_inj (number_chars hv hrank) (number_chars hw hrank') hr hs h
  exact ⟨number_inj hv hw hrank hrank' (String.toList_inj.mp hprint), hrest⟩

theorem Proper.elems {xs : List Json} (h : Proper (.arr xs)) : ∀ x ∈ xs, Proper x := by
  cases h with
  | arr h => exact h

theorem Proper.members {kvs : List (String × Json)} (h : Proper (.obj kvs)) : ∀ kv ∈ kvs, Proper kv.2 := by
  cases h with
  | obj _ h => exact h

/-- A value is read back from the front of a text, whatever follows that is no number. -/
theorem print_append_inj {v w : Json} (hv : Proper v) (hw : Proper w) {r s : List Char} (hr : Delimited r)
    (hs : Delimited s) (h : v.print.toList ++ r = w.print.toList ++ s) : v = w ∧ r = s := by
  induction hv generalizing w r s with
  | null =>
      obtain rfl := eq_null (rank_eq .null hw h)
      exact ⟨rfl, List.append_cancel_left h⟩
  | bool b =>
      obtain rfl := eq_bool (rank_eq (.bool b) hw h)
      exact ⟨rfl, List.append_cancel_left h⟩
  | int i => exact number_print_inj (.int i) hw rfl hr hs h
  | float ht => exact number_print_inj (.float ht) hw rfl hr hs h
  | str a =>
      obtain ⟨b, rfl⟩ := exists_str (rank_eq (.str a) hw h)
      obtain ⟨rfl, hrest⟩ := quote_append_inj h
      exact ⟨rfl, hrest⟩
  | @arr xs hxs ih =>
      obtain ⟨ys, rfl⟩ := exists_arr (rank_eq (.arr hxs) hw h)
      rw [toList_print_arr, toList_print_arr, List.cons.injEq] at h
      have hread : ∀ x ∈ xs, ReadsBack (fun x : Json => x.print.toList) x ys := fun x hx y hy _ _ hr' hs' h' =>
        ih x hx (hw.elems y hy) hr' hs' h'
      have hopen : ∀ x ∈ xs ++ ys, ∃ c rest, x.print.toList = c :: rest ∧ c ≠ ']' := by
        intro x hx
        refine exists_first_open ?_ (by decide)
        exact (List.mem_append.mp hx).elim (hxs x) (hw.elems x)
      obtain ⟨rfl, hrest⟩ := items_append_inj rfl (by decide) hread hopen h.2
      exact ⟨rfl, hrest⟩
  | @obj kvs hnodup hkvs ih =>
      obtain ⟨lvs, rfl⟩ := exists_obj (rank_eq (.obj hnodup hkvs) hw h)
      rw [toList_print_obj, toList_print_obj, List.cons.injEq] at h
      have hread : ∀ kv ∈ kvs, ReadsBack memberText kv lvs := by
        intro kv hkv lv hlv r' s' hr' hs' h'
        rw [memberText, memberText, List.append_assoc, List.append_assoc] at h'
        obtain ⟨hkey, htail⟩ := quote_append_inj h'
        rw [List.cons_append, List.cons_append, List.cons.injEq] at htail
        obtain ⟨hvalue, hrest⟩ := ih kv hkv (hw.members lv hlv) hr' hs' htail.2
        exact ⟨Prod.ext hkey hvalue, hrest⟩
      have hopen : ∀ kv ∈ kvs ++ lvs, ∃ c rest, memberText kv = c :: rest ∧ c ≠ Char.ofNat 125 := by
        intro kv _
        exact ⟨'"', _, by rw [memberText, quote, String.toList_ofList, List.cons_append, List.cons_append], by decide⟩
      obtain ⟨rfl, hrest⟩ := items_append_inj (by decide) (by decide) hread hopen h.2
      exact ⟨rfl, hrest⟩

theorem print_inj {v w : Json} (hv : Proper v) (hw : Proper w) (h : v.print = w.print) : v = w := by
  have hnil : Delimited [] := fun c hc => absurd hc (by simp)
  exact (print_append_inj hv hw hnil hnil (by rw [h])).1

/-- Sorted values print alike exactly when they are equal up to the order of members. -/
theorem print_sort_eq_iff {v w : Json} (hv : Proper v) (hw : Proper w) :
    v.sort.print = w.sort.print ↔ Reordered v w :=
  ⟨fun h => (sort_eq_iff hv hw).mp (print_inj hv.sort hw.sort h), fun h => by rw [(sort_eq_iff hv hw).mpr h]⟩

end Json
