import Mathlib.Data.List.Dedup
import Mathlib.Data.Nat.Digits.Defs

/-!
# JSON values

The values a JSON document parses to, with the accessors programs use on them. An object is kept as
the association list of its members. Every reader goes through `get?` or `entries`, so a key that is
repeated stands for its first member and an object is the finite map of its keys.
-/

inductive Json where
  | null
  | bool (b : Bool)
  | int (i : Int)
  /-- A number that is no integer, as printed. -/
  | float (text : String)
  | str (s : String)
  | arr (xs : List Json)
  | obj (kvs : List (String × Json))
  deriving Repr, Inhabited

namespace Json

/-! ## Accessors -/

/-- The member of an object under a key. Anything but an object has no members. -/
def get? : Json → String → Option Json
  | .obj kvs, k => kvs.lookup k
  | _, _ => none

/-- The value itself, by `null` where the key is missing. -/
def index (v : Json) (k : String) : Json := (v.get? k).getD .null

def asStr? : Json → Option String
  | .str s => some s
  | _ => none

def asBool? : Json → Option Bool
  | .bool b => some b
  | _ => none

def asArr? : Json → Option (List Json)
  | .arr xs => some xs
  | _ => none

/-- Integers are read as 64-bit signed ones. -/
def asI64? : Json → Option Int
  | .int i => if -2 ^ 63 ≤ i ∧ i < 2 ^ 63 then some i else none
  | _ => none

def isObj : Json → Bool
  | .obj _ => true
  | _ => false

def keys : Json → List String
  | .obj kvs => (kvs.map Prod.fst).dedup
  | _ => []

/-- The members of an object, one for each key. -/
def entries (v : Json) : List (String × Json) := v.keys.map fun k => (k, v.index k)

/-- Walk down a list of keys. -/
def path? : Json → List String → Option Json
  | v, [] => some v
  | v, k :: ks => (v.get? k).bind (path? · ks)

@[simp] theorem path?_nil (v : Json) : v.path? [] = some v := rfl

@[simp] theorem path?_cons (v : Json) (k : String) (ks : List String) :
    v.path? (k :: ks) = (v.get? k).bind (path? · ks) := rfl

theorem lookup_isSome {α : Type} {k : String} {kvs : List (String × α)} :
    (kvs.lookup k).isSome ↔ k ∈ kvs.map Prod.fst := by
  induction kvs with
  | nil => simp
  | cons kv kvs ih =>
      obtain ⟨k', v⟩ := kv
      by_cases h : k = k'
      · simp [h]
      · have hb : (k == k') = false := by simpa using h
        simp only [List.lookup_cons, hb, List.map_cons, List.mem_cons, h, false_or]
        exact ih

theorem mem_keys {v : Json} {k : String} : k ∈ v.keys ↔ (v.get? k).isSome := by
  cases v <;> simp [keys, get?]

theorem mem_keys_iff {v : Json} {k : String} : k ∈ v.keys ↔ ∃ x, v.get? k = some x := by
  rw [mem_keys, Option.isSome_iff_exists]

/-- A member is listed exactly when reading its key gives it. -/
theorem mem_entries {v : Json} {k : String} {x : Json} : (k, x) ∈ v.entries ↔ v.get? k = some x := by
  simp only [entries, List.mem_map, Prod.mk.injEq]
  constructor
  · rintro ⟨k', hk, rfl, rfl⟩
    obtain ⟨y, hy⟩ := mem_keys_iff.mp hk
    simp [index, hy]
  · intro h
    exact ⟨k, mem_keys_iff.mpr ⟨x, h⟩, rfl, by simp [index, h]⟩

/-! ## Changes

An object stays the finite map of its keys: in which order the other members stand after one is taken
out is left open by the readers above.
-/

/-- The object without some of its members. -/
def without (ks : List String) : Json → Json
  | .obj kvs => .obj (kvs.filter fun kv => kv.1 ∉ ks)
  | v => v

/-- The object with one member replaced. -/
def modify (k : String) (f : Json → Json) : Json → Json
  | .obj kvs => .obj (kvs.map fun kv => if kv.1 = k then (kv.1, f kv.2) else kv)
  | v => v

theorem get?_without (ks : List String) (v : Json) (k : String) :
    (v.without ks).get? k = if k ∈ ks then none else v.get? k := by
  cases v with
  | obj kvs =>
      show (kvs.filter fun kv => kv.1 ∉ ks).lookup k = if k ∈ ks then none else kvs.lookup k
      induction kvs with
      | nil => simp
      | cons kv kvs ih =>
          obtain ⟨k', x⟩ := kv
          rw [List.filter_cons]
          by_cases hk' : k' ∈ ks
          · rw [if_neg (by simpa using hk'), ih]
            by_cases hk : k ∈ ks
            · rw [if_pos hk, if_pos hk]
            · have hne : (k == k') = false := by
                simp only [beq_eq_false_iff_ne]
                rintro rfl
                exact hk hk'
              rw [if_neg hk, if_neg hk, List.lookup_cons, hne]
          · rw [if_pos (by simpa using hk'), List.lookup_cons, List.lookup_cons]
            by_cases hkk : k = k'
            · rw [hkk, beq_self_eq_true, if_neg hk']
            · have hne : (k == k') = false := by simpa using hkk
              rw [hne]
              exact ih
  | _ => simp [without, get?]

theorem get?_modify (k : String) (f : Json → Json) (v : Json) (k' : String) :
    (v.modify k f).get? k' = if k' = k then (v.get? k').map f else v.get? k' := by
  cases v with
  | obj kvs =>
      show (kvs.map fun kv => if kv.1 = k then (kv.1, f kv.2) else kv).lookup k' =
        if k' = k then (kvs.lookup k').map f else kvs.lookup k'
      induction kvs with
      | nil => simp
      | cons kv kvs ih =>
          obtain ⟨k'', x⟩ := kv
          rw [List.map_cons, List.lookup_cons]
          by_cases hk'' : k'' = k
          · rw [if_pos hk'', List.lookup_cons]
            by_cases hkk : k' = k''
            · simp [hkk, hk'']
            · have hne : (k' == k'') = false := by simpa using hkk
              rw [hne]
              exact ih
          · rw [if_neg hk'', List.lookup_cons]
            by_cases hkk : k' = k''
            · simp [hkk, hk'']
            · have hne : (k' == k'') = false := by simpa using hkk
              rw [hne]
              exact ih
  | _ => simp [modify, get?]

/-! ## Printing -/

def hexDigit (n : Nat) : Char := if n < 10 then Char.ofNat (48 + n) else Char.ofNat (87 + n)

def escapeChar (c : Char) : List Char :=
  if c = '"' then ['\\', '"']
  else if c = '\\' then ['\\', '\\']
  else if c.toNat = 8 then ['\\', 'b']
  else if c.toNat = 12 then ['\\', 'f']
  else if c = '\n' then ['\\', 'n']
  else if c = '\r' then ['\\', 'r']
  else if c = '\t' then ['\\', 't']
  else if c.toNat < 32 then ['\\', 'u', '0', '0', hexDigit (c.toNat / 16), hexDigit (c.toNat % 16)]
  else [c]

def quote (s : String) : String := String.ofList ('"' :: s.toList.flatMap escapeChar ++ ['"'])

mutual
/-- The compact text of a value, members in the order they are kept. -/
def print : Json → String
  | .null => "null"
  | .bool b => if b then "true" else "false"
  | .int i => toString i
  | .float t => t
  | .str s => quote s
  | .arr xs => "[" ++ ",".intercalate (printList xs) ++ "]"
  | .obj kvs => "\x7b" ++ ",".intercalate (printMembers kvs) ++ "\x7d"

def printList : List Json → List String
  | [] => []
  | x :: xs => x.print :: printList xs

def printMembers : List (String × Json) → List String
  | [] => []
  | (k, x) :: kvs => (quote k ++ ":" ++ x.print) :: printMembers kvs
end

mutual
/-- The same value with the members of every object sorted by key. -/
def sort : Json → Json
  | .arr xs => .arr (sortList xs)
  | .obj kvs => .obj ((sortMembers kvs).mergeSort fun a b => decide (a.1 ≤ b.1))
  | v => v

def sortList : List Json → List Json
  | [] => []
  | x :: xs => x.sort :: sortList xs

def sortMembers : List (String × Json) → List (String × Json)
  | [] => []
  | (k, x) :: kvs => (k, x.sort) :: sortMembers kvs
end

/-! ## Reading a sorted value -/

theorem sortList_eq (xs : List Json) : sortList xs = xs.map sort := by
  induction xs with
  | nil => rfl
  | cons x xs ih => rw [sortList, ih, List.map_cons]

theorem lookup_sortMembers (kvs : List (String × Json)) (k : String) :
    (sortMembers kvs).lookup k = (kvs.lookup k).map sort := by
  induction kvs with
  | nil => rfl
  | cons kv kvs ih =>
      obtain ⟨k', x⟩ := kv
      rw [sortMembers, List.lookup_cons, List.lookup_cons, ih]
      cases k == k' <;> rfl

theorem lookup_eq_head? {α : Type} (l : List (String × α)) (k : String) :
    l.lookup k = ((l.filter fun e => e.1 = k).map Prod.snd).head? := by
  induction l with
  | nil => rfl
  | cons e l ih =>
      obtain ⟨k', x⟩ := e
      rw [List.lookup_cons, List.filter_cons]
      by_cases hk : k = k'
      · simp [hk]
      · have hne : (k == k') = false := by simpa using hk
        have hne' : ¬ k' = k := fun h => hk h.symm
        simp [hne, hne', ih]

/-- Members with one key keep their order. -/
theorem lookup_mergeSort {α : Type} (l : List (String × α)) (k : String) :
    (l.mergeSort fun a b => decide (a.1 ≤ b.1)).lookup k = l.lookup k := by
  have hsub : (l.filter fun e => e.1 = k).Sublist (l.mergeSort fun a b => decide (a.1 ≤ b.1)) := by
    apply List.sublist_mergeSort
    · intro a b c hab hbc
      simp only [decide_eq_true_eq] at *
      exact String.le_trans hab hbc
    · intro a b
      simp only [Bool.or_eq_true, decide_eq_true_eq]
      exact String.le_total _ _
    · refine List.Pairwise.imp_of_mem (R := fun _ _ => True) ?_ (List.pairwise_of_forall fun _ _ => trivial)
      intro a b ha hb _
      have hka := List.mem_filter.mp ha
      have hkb := List.mem_filter.mp hb
      simp only [decide_eq_true_eq] at hka hkb ⊢
      have heq : a.1 = b.1 := hka.2.trans hkb.2.symm
      exact heq ▸ String.le_refl a.1
    · exact List.filter_sublist
  have hperm := (List.mergeSort_perm l fun a b => decide (a.1 ≤ b.1)).filter fun e => e.1 = k
  have hsub' := hsub.filter fun e => decide (e.1 = k)
  rw [List.filter_filter] at hsub'
  simp only [Bool.and_self] at hsub'
  rw [lookup_eq_head?, lookup_eq_head?, ← hsub'.eq_of_length hperm.length_eq.symm]

theorem get?_sort (v : Json) (k : String) : v.sort.get? k = (v.get? k).map sort := by
  cases v with
  | obj kvs =>
      rw [sort, get?, get?, lookup_mergeSort, lookup_sortMembers]
  | _ => rfl

theorem path?_sort (v : Json) (ks : List String) : v.sort.path? ks = (v.path? ks).map sort := by
  induction ks generalizing v with
  | nil => rfl
  | cons k ks ih =>
      rw [path?_cons, path?_cons, get?_sort]
      cases v.get? k with
      | none => rfl
      | some x => exact ih x

@[simp] theorem asStr?_sort (v : Json) : v.sort.asStr? = v.asStr? := by
  cases v with
  | arr xs => rfl
  | obj kvs => rfl
  | _ => rfl

@[simp] theorem asI64?_sort (v : Json) : v.sort.asI64? = v.asI64? := by
  cases v with
  | arr xs => rfl
  | obj kvs => rfl
  | _ => rfl

theorem asArr?_sort (v : Json) : v.sort.asArr? = v.asArr?.map fun xs => xs.map sort := by
  cases v with
  | arr xs => rw [sort, asArr?, asArr?, sortList_eq, Option.map_some]
  | _ => rfl

end Json
