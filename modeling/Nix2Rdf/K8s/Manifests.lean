import Nix2Rdf.K8s.Alike

/-!
# Manifests

The documents of a directory of rendered manifests, with lists flattened. What a GitOps commit would
apply.
-/

namespace Nix2Rdf.K8s

def isListKind (k : String) : Bool := k == "List" || Text.endsWith "List" k

mutual
/-- What a document contributes: the items of a list, and else the normalized object. -/
def pushObject : Json → List Json
  | .obj kvs =>
      if isListKind (kind (.obj kvs)) then pushItems kvs
      else if kind (.obj kvs) = "" then []
      else [normalize (.obj kvs)]
  | _ => []

/-- The member `items` of a list, when it is an array. -/
def pushItems : List (String × Json) → List Json
  | [] => []
  | (k, x) :: kvs => if k = "items" then pushArray x else pushItems kvs

def pushArray : Json → List Json
  | .arr xs => pushAll xs
  | _ => []

def pushAll : List Json → List Json
  | [] => []
  | x :: xs => pushObject x ++ pushAll xs
end

/-- The objects of the documents, in order. -/
def readDocuments (docs : List Json) : List Json := docs.flatMap pushObject

theorem pushAll_eq (xs : List Json) : pushAll xs = readDocuments xs := by
  induction xs with
  | nil => rfl
  | cons x xs ih => rw [pushAll, ih, readDocuments, readDocuments, List.flatMap_cons]

theorem pushItems_eq {kvs : List (String × Json)} {xs : List Json} (h : kvs.lookup "items" = some (.arr xs)) :
    pushItems kvs = readDocuments xs := by
  induction kvs with
  | nil => cases h
  | cons kv kvs ih =>
      obtain ⟨k, x⟩ := kv
      rw [List.lookup_cons] at h
      rw [pushItems]
      by_cases hk : k = "items"
      · rw [hk, beq_self_eq_true] at h
        cases h
        rw [if_pos hk, pushArray, pushAll_eq]
      · have hne : ("items" == k) = false := beq_eq_false_iff_ne.mpr fun h => hk h.symm
        rw [hne] at h
        rw [if_neg hk, ih h]

/-! ## The objects of a document -/

/-- The items of a list wrapper: its kind is that of a list, and it has an array of items. -/
def wrappedItems (v : Json) : Option (List Json) :=
  if isListKind (kind v) then (v.get? "items").bind Json.asArr? else none

theorem sizeOf_lookup_lt {kvs : List (String × Json)} {k : String} {x : Json} (h : kvs.lookup k = some x) :
    sizeOf x < sizeOf kvs := by
  induction kvs with
  | nil => cases h
  | cons kv kvs ih =>
      obtain ⟨k', y⟩ := kv
      rw [List.lookup_cons] at h
      cases hk : k == k' with
      | true =>
          rw [hk] at h
          obtain rfl := Option.some.inj h
          simp only [List.cons.sizeOf_spec, Prod.mk.sizeOf_spec]
          omega
      | false =>
          rw [hk] at h
          have := ih h
          simp only [List.cons.sizeOf_spec]
          omega

theorem get?_items_of_wrappedItems {v : Json} {items : List Json} (h : wrappedItems v = some items) :
    v.get? "items" = some (.arr items) := by
  unfold wrappedItems at h
  split at h
  · obtain ⟨x, hx, harr⟩ := Option.bind_eq_some_iff.mp h
    cases x with
    | arr xs =>
        obtain rfl := Option.some.inj harr
        exact hx
    | _ => cases harr
  · cases h

theorem sizeOf_item_lt {v x : Json} {items : List Json} (h : wrappedItems v = some items) (hx : x ∈ items) :
    sizeOf x < sizeOf v := by
  have hget := get?_items_of_wrappedItems h
  have hitem := List.sizeOf_lt_of_mem hx
  cases v with
  | obj kvs =>
      have harr := sizeOf_lookup_lt hget
      simp only [Json.arr.sizeOf_spec, Json.obj.sizeOf_spec] at harr ⊢
      omega
  | _ => cases hget

/-- Every object with a kind that is not a list wrapper, at top level or within wrappers, in document
order and normalized. -/
def flattened (v : Json) : List Json :=
  match _h : wrappedItems v with
  | some items => items.attach.flatMap fun x => flattened x.1
  | none => if v.isObj ∧ kind v ≠ "" then [normalize v] else []
termination_by sizeOf v
decreasing_by exact sizeOf_item_lt _h x.2

theorem flattened_wrapper {v : Json} {items : List Json} (h : wrappedItems v = some items) :
    flattened v = items.flatMap flattened := by
  rw [flattened]
  split
  · rename_i items' h'
    obtain rfl := Option.some.inj (h.symm.trans h')
    rw [List.flatMap_subtype, List.unattach_attach]
    intro x hx
    rfl
  · rename_i h'
    rw [h] at h'
    cases h'

theorem flattened_object {v : Json} (h : wrappedItems v = none) :
    flattened v = if v.isObj ∧ kind v ≠ "" then [normalize v] else [] := by
  rw [flattened]
  split
  · rename_i items' h'
    rw [h] at h'
    cases h'
  · rfl

/-- The documents that a document holds in wrappers, and itself. -/
inductive Within : Json → Json → Prop
  | self (v : Json) : Within v v
  | item {v x w : Json} {items : List Json} (h : wrappedItems v = some items) (hx : x ∈ items) (hw : Within x w) :
      Within v w

theorem kind_of_not_isObj {v : Json} (h : v.isObj = false) : kind v = "" := by
  cases v with
  | obj kvs => cases h
  | _ => rfl

theorem isObj_of_isListKind {v : Json} (h : isListKind (kind v) = true) : v.isObj = true ∧ kind v ≠ "" := by
  have hne : kind v ≠ "" := by
    intro hempty
    rw [hempty] at h
    revert h
    decide
  cases hobj : v.isObj with
  | true => exact ⟨rfl, hne⟩
  | false => exact absurd (kind_of_not_isObj hobj) hne

/-! ### What the code keeps of them -/

theorem pushItems_none {kvs : List (String × Json)} (h : (kvs.lookup "items").bind Json.asArr? = none) :
    pushItems kvs = [] := by
  induction kvs with
  | nil => rfl
  | cons kv kvs ih =>
      obtain ⟨k, x⟩ := kv
      rw [List.lookup_cons] at h
      rw [pushItems]
      by_cases hk : k = "items"
      · rw [hk, beq_self_eq_true] at h
        rw [if_pos hk]
        cases x with
        | arr xs => cases h
        | _ => rfl
      · have hne : ("items" == k) = false := beq_eq_false_iff_ne.mpr fun h => hk h.symm
        rw [hne] at h
        rw [if_neg hk, ih h]

theorem pushObject_wrapper {v : Json} {items : List Json} (h : wrappedItems v = some items) :
    pushObject v = items.flatMap pushObject := by
  have hget := get?_items_of_wrappedItems h
  cases v with
  | obj kvs =>
      have hkind : isListKind (kind (.obj kvs)) = true := by
        by_contra hno
        rw [wrappedItems, if_neg hno] at h
        cases h
      rw [pushObject, if_pos hkind, pushItems_eq hget, readDocuments]
  | _ => cases hget

theorem pushObject_object {v : Json} (h : wrappedItems v = none) :
    pushObject v = if v.isObj ∧ kind v ≠ "" ∧ isListKind (kind v) = false then [normalize v] else [] := by
  cases v with
  | obj kvs =>
      rw [pushObject]
      by_cases hkind : isListKind (kind (.obj kvs)) = true
      · rw [wrappedItems, if_pos hkind] at h
        rw [if_pos hkind, pushItems_none h, if_neg (by simp [hkind])]
      · rw [if_neg hkind]
        by_cases hempty : kind (.obj kvs) = ""
        · rw [if_pos hempty, if_neg (by simp [hempty])]
        · rw [if_neg hempty, if_pos ⟨rfl, hempty, Bool.not_eq_true _ ▸ hkind⟩]
  | _ => rfl

/-- No object of the kind of a list is dropped for want of items. -/
def NoBareList (v : Json) : Prop := ∀ w, Within v w → isListKind (kind w) = true → (wrappedItems w).isSome

theorem noBareList_wrapper {v : Json} {items : List Json} (h : wrappedItems v = some items) :
    NoBareList v ↔ ∀ x ∈ items, NoBareList x := by
  constructor
  · exact fun hall x hx w hw => hall w (.item h hx hw)
  · intro hall w hw hkind
    cases hw with
    | self => simp [h]
    | @item _ x _ items' h' hx hw =>
        obtain rfl := Option.some.inj (h.symm.trans h')
        exact hall x hx w hw hkind

theorem noBareList_object {v : Json} (h : wrappedItems v = none) : NoBareList v ↔ isListKind (kind v) = false := by
  constructor
  · intro hall
    rw [Bool.eq_false_iff]
    intro hkind
    have hsome := hall v (.self v) hkind
    rw [h] at hsome
    cases hsome
  · intro hkind w hw hkind'
    cases hw with
    | self =>
        rw [hkind] at hkind'
        cases hkind'
    | item h' _ _ =>
        rw [h] at h'
        cases h'

theorem flatMap_sublist {α β : Type} {f g : α → List β} {l : List α} (h : ∀ a ∈ l, (f a).Sublist (g a)) :
    (l.flatMap f).Sublist (l.flatMap g) := by
  induction l with
  | nil => exact .slnil
  | cons a l ih =>
      rw [List.forall_mem_cons] at h
      rw [List.flatMap_cons, List.flatMap_cons]
      exact h.1.append (ih h.2)

/-- Sublists that are joined give all exactly when each of them is all. -/
theorem flatMap_eq_iff {α β : Type} {f g : α → List β} {l : List α} (h : ∀ a ∈ l, (f a).Sublist (g a)) :
    l.flatMap f = l.flatMap g ↔ ∀ a ∈ l, f a = g a := by
  induction l with
  | nil => simp
  | cons a l ih =>
      rw [List.forall_mem_cons] at h
      rw [List.flatMap_cons, List.flatMap_cons, List.forall_mem_cons, ← ih h.2]
      constructor
      · intro heq
        have hlen := congrArg List.length heq
        have hfirst := h.1.length_le
        have hrest := (flatMap_sublist h.2).length_le
        rw [List.length_append, List.length_append] at hlen
        exact ⟨h.1.eq_of_length (by omega), (flatMap_sublist h.2).eq_of_length (by omega)⟩
      · intro heq
        rw [heq.1, heq.2]

theorem pushObject_sublist (v : Json) : (pushObject v).Sublist (flattened v) := by
  induction hn : sizeOf v using Nat.strong_induction_on generalizing v with
  | _ n ih =>
      cases h : wrappedItems v with
      | some items =>
          rw [pushObject_wrapper h, flattened_wrapper h]
          exact flatMap_sublist fun x hx => ih (sizeOf x) (hn ▸ sizeOf_item_lt h hx) x rfl
      | none =>
          rw [pushObject_object h, flattened_object h]
          split
          · rename_i hall
            rw [if_pos ⟨hall.1, hall.2.1⟩]
          · exact List.nil_sublist _

/-- Flattening keeps every object exactly when none is of the kind of a list without being one. -/
theorem pushObject_flattened_iff (v : Json) : pushObject v = flattened v ↔ NoBareList v := by
  induction hn : sizeOf v using Nat.strong_induction_on generalizing v with
  | _ n ih =>
      cases h : wrappedItems v with
      | some items =>
          rw [pushObject_wrapper h, flattened_wrapper h, flatMap_eq_iff fun x _ => pushObject_sublist x,
            noBareList_wrapper h]
          exact forall₂_congr fun x hx => ih (sizeOf x) (hn ▸ sizeOf_item_lt h hx) x rfl
      | none =>
          rw [pushObject_object h, flattened_object h, noBareList_object h]
          cases hkind : isListKind (kind v) with
          | true =>
              rw [if_neg (by simp), if_pos (isObj_of_isListKind hkind)]
              simp
          | false => simp

/-- A custom resource whose kind ends as that of a list does is dropped. -/
theorem pushObject_drops_allowList :
    pushObject (.obj [("kind", .str "AllowList"), ("metadata", .obj [("name", .str "a")])]) = [] ∧
      flattened (.obj [("kind", .str "AllowList"), ("metadata", .obj [("name", .str "a")])])
        = [.obj [("kind", .str "AllowList"), ("metadata", .obj [("name", .str "a")])]] := by
  refine ⟨by decide, ?_⟩
  rw [flattened_object rfl, if_pos (by decide)]
  rfl

/-! ## Secrets -/

/-- Two secrets that differ in nothing but their data and the record of how they were applied. -/
structure SecretAlike (v w : Json) : Prop where
  left : kind v = "Secret"
  isObj : v.isObj ∧ w.isObj
  members : ∀ k, k ∉ secretFields → k ≠ "metadata" → w.get? k = v.get? k
  metadata : ∀ k, k ≠ "annotations" → w.path? ["metadata", k] = v.path? ["metadata", k]
  annotations : ∀ k, k ≠ "kubectl.kubernetes.io/last-applied-configuration" →
    w.path? ["metadata", "annotations", k] = v.path? ["metadata", "annotations", k]

mutual
/-- Two documents that differ in the data of secrets only, at top level or in lists. -/
inductive DocAlike : Json → Json → Prop where
  | same (v : Json) : DocAlike v v
  | secret {v w : Json} (h : SecretAlike v w) : DocAlike v w
  | list {kvs kvs' : List (String × Json)} {xs ys : List Json} (hkind : isListKind (kind (.obj kvs)))
      (hrest : ∀ k, k ≠ "items" → kvs'.lookup k = kvs.lookup k) (hxs : kvs.lookup "items" = some (.arr xs))
      (hys : kvs'.lookup "items" = some (.arr ys)) (h : DocsAlike xs ys) : DocAlike (.obj kvs) (.obj kvs')

inductive DocsAlike : List Json → List Json → Prop where
  | nil : DocsAlike [] []
  | cons {x y : Json} {xs ys : List Json} (h : DocAlike x y) (hs : DocsAlike xs ys) : DocsAlike (x :: xs) (y :: ys)
end

/-- Items of lists pair by pair. -/
theorem DocAlike.induct {P : Json → Json → Prop} (same : ∀ v, P v v) (secret : ∀ v w, SecretAlike v w → P v w)
    (list : ∀ kvs kvs' xs ys, isListKind (kind (.obj kvs)) → (∀ k, k ≠ "items" → kvs'.lookup k = kvs.lookup k) →
      kvs.lookup "items" = some (.arr xs) → kvs'.lookup "items" = some (.arr ys) → List.Forall₂ P xs ys →
      P (.obj kvs) (.obj kvs')) {v w : Json} (h : DocAlike v w) : P v w :=
  @DocAlike.rec (fun v w _ => P v w) (fun xs ys _ => List.Forall₂ P xs ys) same (fun h => secret _ _ h)
    (fun hkind hrest hxs hys _ ih => list _ _ _ _ hkind hrest hxs hys ih) .nil (fun _ _ ih ihs => .cons ih ihs) v w h

/-! ## What the builder reads of a normalized secret -/

theorem get?_normalize (v : Json) {k : String} (hk : k ∉ secretFields) (hmeta : k ≠ "metadata") :
    (normalize v).get? k = v.get? k := by
  have hmodify : (v.modify "metadata" normalizeMetadata).get? k = v.get? k := by
    rw [Json.get?_modify, if_neg hmeta]
  rw [normalize]
  split
  · rw [Json.get?_without, if_neg hk, hmodify]
  · exact hmodify

theorem metadata_normalize (v : Json) : (normalize v).get? "metadata" =
    (v.get? "metadata").map normalizeMetadata := by
  have hmodify : (v.modify "metadata" normalizeMetadata).get? "metadata" =
      (v.get? "metadata").map normalizeMetadata := by
    rw [Json.get?_modify, if_pos rfl]
  rw [normalize]
  split
  · rw [Json.get?_without, if_neg (by decide), hmodify]
  · exact hmodify

theorem path?_metadata_normalize (v : Json) {k : String} (hk : k ∉ volatileFields) (hann : k ≠ "annotations") :
    (normalize v).path? ["metadata", k] = v.path? ["metadata", k] := by
  rw [Json.path?_cons, Json.path?_cons, metadata_normalize]
  cases v.get? "metadata" with
  | none => rfl
  | some m =>
      rw [Option.map_some, Option.bind_some, Option.bind_some, Json.path?_cons, Json.path?_cons, normalizeMetadata,
        Json.get?_modify, if_neg hann, Json.get?_without, if_neg hk]

theorem objectAlike_of_secret {v w : Json} (h : SecretAlike v w) : ObjectAlike (normalize v) (normalize w) := by
  have hfield : ∀ k, k ∉ secretFields → k ≠ "metadata" → s (normalize w) [k] = s (normalize v) [k] := by
    intro k hk hmeta
    rw [s_eq_bind, s_eq_bind, get?_normalize _ hk hmeta, get?_normalize _ hk hmeta, h.members k hk hmeta]
  have hmeta : ∀ k, k ∉ volatileFields → k ≠ "annotations" →
      s (normalize w) ["metadata", k] = s (normalize v) ["metadata", k] := by
    intro k hk hann
    rw [s, s, path?_metadata_normalize _ hk hann, path?_metadata_normalize _ hk hann, h.metadata k hann]
  have hkind : kind (normalize w) = kind (normalize v) := by
    rw [kind, kind, hfield "kind" (by decide) (by decide)]
  constructor
  · rw [keyOf, keyOf, hkind, namespaceOf, namespaceOf, hmeta "namespace" (by decide) (by decide), name, name,
      hmeta "name" (by decide) (by decide)]
  · exact hfield "apiVersion" (by decide) (by decide)
  · intro hne
    rw [kind_normalize] at hne
    exact absurd h.left hne

theorem pushObject_secret {v : Json} (hobj : v.isObj) (hkind : kind v = "Secret") : pushObject v = [normalize v] := by
  cases v with
  | obj kvs => rw [pushObject, hkind, if_neg (by decide), if_neg (by decide)]
  | _ => cases hobj

theorem kind_of_list {kvs kvs' : List (String × Json)} (h : ∀ k, k ≠ "items" → kvs'.lookup k = kvs.lookup k) :
    kind (.obj kvs') = kind (.obj kvs) := by
  rw [kind, kind, s_eq_bind, s_eq_bind]
  exact congrArg (fun o => (Option.bind o fun x => s x []).getD "") (h "kind" (by decide))

theorem forall₂_readDocuments {xs ys : List Json}
    (h : List.Forall₂ (fun v w => List.Forall₂ ObjectAlike (pushObject v) (pushObject w)) xs ys) :
    List.Forall₂ ObjectAlike (readDocuments xs) (readDocuments ys) := by
  induction h with
  | nil => exact .nil
  | cons h _ ih =>
      rw [readDocuments, readDocuments, List.flatMap_cons, List.flatMap_cons]
      exact List.rel_append h ih

/-- Documents that differ in secret data contribute objects that read alike. -/
theorem forall₂_pushObject {v w : Json} (h : DocAlike v w) :
    List.Forall₂ ObjectAlike (pushObject v) (pushObject w) := by
  refine DocAlike.induct (P := fun v w => List.Forall₂ ObjectAlike (pushObject v) (pushObject w)) ?_ ?_ ?_ h
  · exact fun v => List.forall₂_same.mpr fun o _ => ObjectAlike.refl o
  · intro v w h
    have hkind : kind w = "Secret" := by
      rw [← h.left, kind, kind, s_eq_bind, s_eq_bind, h.members "kind" (by decide) (by decide)]
    rw [pushObject_secret h.isObj.1 h.left, pushObject_secret h.isObj.2 hkind]
    exact .cons (objectAlike_of_secret h) .nil
  · intro kvs kvs' xs ys hkind hrest hxs hys ih
    rw [pushObject, pushObject, kind_of_list hrest, if_pos hkind, if_pos hkind, pushItems_eq hxs, pushItems_eq hys]
    exact forall₂_readDocuments ih

/-- Secret data in the documents reaches nothing that is built of them. -/
theorem buildSnapshot_secrets (x : Extern) (now : String) (opts : SnapshotOptions) {docs docs' : List Json}
    (pods : List Json) (failed : List String) (h : List.Forall₂ DocAlike docs docs') :
    buildSnapshot x now ⟨readDocuments docs', pods, failed⟩ opts =
      buildSnapshot x now ⟨readDocuments docs, pods, failed⟩ opts := by
  refine buildSnapshot_alike x now opts failed ?_ (List.forall₂_same.mpr fun p _ => PodAlike.refl p)
  exact forall₂_readDocuments (h.imp fun _ _ hd => forall₂_pushObject hd)

/-- A list that holds one secret. -/
def secretList (data : String) : Json :=
  .obj [("kind", .str "List"), ("items", .arr [.obj [("kind", .str "Secret"),
    ("metadata", .obj [("name", .str "s")]), ("data", .obj [("k", .str data)])]])]

theorem buildSnapshot_secrets_list :
    buildSnapshot plainExtern "t" ⟨readDocuments [secretList "eQ=="], [], []⟩ ⟨"c", .desired, {}, ∅, none⟩ =
      buildSnapshot plainExtern "t" ⟨readDocuments [secretList "eA=="], [], []⟩ ⟨"c", .desired, {}, ∅, none⟩ := by
  refine buildSnapshot_secrets plainExtern "t" _ [] [] (.cons ?_ .nil)
  refine .list (by decide) (fun k hk => ?_) rfl rfl (.cons (.secret ⟨by decide, ⟨rfl, rfl⟩, ?_, ?_, ?_⟩) .nil)
  · simp [List.lookup_cons, beq_eq_false_iff_ne.mpr hk]
  · intro k hk _
    have hdata : k ≠ "data" := fun h => hk (by rw [h]; decide)
    simp [Json.get?, List.lookup_cons, beq_eq_false_iff_ne.mpr hdata]
  · exact fun _ _ => rfl
  · exact fun _ _ => rfl

end Nix2Rdf.K8s
