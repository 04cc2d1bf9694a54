import Nix2Rdf.K8s.Snapshot

/-!
# The index of a snapshot

Of the objects with one key the last is kept. The labels of a namespace are those of the object that
is kept for it.
-/

namespace Nix2Rdf.K8s

/-- Objects without a kind and pods are left out. -/
def Indexable (o : Json) : Prop := kind o ≠ "" ∧ kind o ≠ "Pod"

instance (o : Json) : Decidable (Indexable o) := inferInstanceAs (Decidable (_ ∧ _))

def indexOf (objects : List Json) : KeyMap Json × BTreeMap (Labels × Labels) :=
  objects.foldl indexed (∅, ∅)

theorem keyOf_namespace {o : Json} (h : kind o = "Namespace") : keyOf o = ⟨"Namespace", "", name o⟩ := by
  simp [keyOf, h, clusterKinds]

theorem indexOf_append_singleton (objects : List Json) (o : Json) (k : Key) :
    (indexOf (objects ++ [o])).1[k]? =
      if Indexable o ∧ keyOf o = k then some o else (indexOf objects).1[k]? := by
  rw [indexOf, List.foldl_append, List.foldl_cons, List.foldl_nil, indexed]
  by_cases hskip : kind o = "" ∨ kind o = "Pod"
  · have hno : ¬ Indexable o := by
      rintro ⟨hempty, hpod⟩
      exact hskip.elim hempty hpod
    rw [if_pos hskip, if_neg fun h => hno h.1]
    rfl
  · have hok : Indexable o := not_or.mp hskip
    rw [if_neg hskip, Std.ExtTreeMap.getElem?_insert]
    simp only [Std.LawfulEqCmp.compare_eq_iff_eq, hok, true_and]
    rfl

theorem nsMeta_append_singleton (objects : List Json) (o : Json) (n : String) :
    (indexOf (objects ++ [o])).2[n]? =
      if kind o = "Namespace" ∧ name o = n then some (labels o, annotations o)
      else (indexOf objects).2[n]? := by
  rw [indexOf, List.foldl_append, List.foldl_cons, List.foldl_nil, indexed]
  by_cases hns : kind o = "Namespace"
  · have hskip : ¬ (kind o = "" ∨ kind o = "Pod") := by
      rw [hns]
      decide
    rw [if_neg hskip, if_pos hns, Std.ExtTreeMap.getElem?_insert]
    simp only [Std.LawfulEqCmp.compare_eq_iff_eq, hns, true_and]
    rfl
  · have hno : ¬ (kind o = "Namespace" ∧ name o = n) := fun h => hns h.1
    rw [if_neg hno]
    split
    · rfl
    · rfl

theorem of_mem_indexOf {objects : List Json} {k : Key} {o : Json} (h : (indexOf objects).1[k]? = some o) :
    o ∈ objects ∧ keyOf o = k ∧ Indexable o := by
  induction objects using List.reverseRecOn with
  | nil =>
      rw [indexOf, List.foldl_nil, Std.ExtTreeMap.getElem?_empty] at h
      cases h
  | append_singleton objects o' ih =>
      rw [indexOf_append_singleton] at h
      split at h
      · rename_i hnew
        cases h
        exact ⟨by simp, hnew.2, hnew.1⟩
      · obtain ⟨hmem, hrest⟩ := ih h
        exact ⟨List.mem_append_left _ hmem, hrest⟩

theorem exists_indexOf {objects : List Json} {o : Json} (ho : o ∈ objects) (hok : Indexable o) :
    ∃ o', (indexOf objects).1[keyOf o]? = some o' := by
  induction objects using List.reverseRecOn with
  | nil => cases ho
  | append_singleton objects o' ih =>
      rw [indexOf_append_singleton]
      split
      · exact ⟨o', rfl⟩
      · rename_i hnew
        rcases List.mem_append.mp ho with ho | ho
        · exact ih ho
        · cases List.mem_singleton.mp ho
          exact absurd ⟨hok, rfl⟩ hnew

/-- With one object to a key the index is the map from keys to objects. -/
theorem indexOf_eq_some_iff {objects : List Json} (h : (objects.map keyOf).Nodup) {k : Key} {o : Json} :
    (indexOf objects).1[k]? = some o ↔ o ∈ objects ∧ keyOf o = k ∧ Indexable o := by
  constructor
  · exact of_mem_indexOf
  · intro ho
    obtain ⟨hmem, rfl, hok⟩ := ho
    obtain ⟨o', ho'⟩ := exists_indexOf hmem hok
    obtain ⟨hmem', hkey, _⟩ := of_mem_indexOf ho'
    rw [ho', List.inj_on_of_nodup_map h hmem' hmem hkey]

theorem nsMeta_eq (objects : List Json) (n : String) :
    (indexOf objects).2[n]? =
      ((indexOf objects).1[(⟨"Namespace", "", n⟩ : Key)]?).map fun o => (labels o, annotations o) := by
  induction objects using List.reverseRecOn with
  | nil => simp [indexOf]
  | append_singleton objects o ih =>
      rw [nsMeta_append_singleton, indexOf_append_singleton]
      have hsame : kind o = "Namespace" ∧ name o = n ↔ Indexable o ∧ keyOf o = ⟨"Namespace", "", n⟩ := by
        constructor
        · rintro ⟨hns, rfl⟩
          refine ⟨?_, keyOf_namespace hns⟩
          rw [Indexable, hns]
          decide
        · rintro ⟨_, hkey⟩
          have hns : kind o = "Namespace" := congrArg Key.kind hkey
          exact ⟨hns, congrArg Key.name hkey⟩
      by_cases h : kind o = "Namespace" ∧ name o = n
      · rw [if_pos h, if_pos (hsame.mp h)]
        rfl
      · rw [if_neg h, if_neg fun h' => h (hsame.mpr h'), ih]

/-! ## The context -/

variable {input : SnapshotInput} {opts : SnapshotOptions}

theorem of_mem_index {k : Key} {o : Json} (h : (ctxOf input opts).index[k]? = some o) :
    o ∈ input.objects ∧ keyOf o = k ∧ Indexable o := of_mem_indexOf h

theorem ctxOf_nsMeta (n : String) : (ctxOf input opts).nsMeta[n]? =
    ((ctxOf input opts).index[(⟨"Namespace", "", n⟩ : Key)]?).map fun o => (labels o, annotations o) :=
  nsMeta_eq _ n

/-- Workloads are listed with their own kind and name. -/
theorem mem_workloadsIn {ns : String} {w : Json} : w ∈ (ctxOf input opts).workloadsIn ns ↔
    ∃ k : Key, (ctxOf input opts).index[k]? = some w ∧ k.kind ∈ workloadKinds ∧ k.ns = ns ∧
      kind w = k.kind ∧ name w = k.name := by
  simp only [Ctx.workloadsIn, List.mem_map, List.mem_filter, Prod.exists, exists_eq_right,
    decide_eq_true_eq, Std.ExtTreeMap.mem_toList_iff_getElem?_eq_some]
  constructor
  · rintro ⟨k, hk, hkind, hns⟩
    obtain ⟨_, rfl, _⟩ := of_mem_index hk
    exact ⟨_, hk, hkind, hns, rfl, rfl⟩
  · rintro ⟨k, hk, hkind, hns, _⟩
    exact ⟨k, hk, hkind, hns⟩

end Nix2Rdf.K8s
