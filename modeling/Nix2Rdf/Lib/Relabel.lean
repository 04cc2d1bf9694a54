import Mathlib.Algebra.Group.End
import Mathlib.Logic.Equiv.Basic
import Mathlib.Logic.Relation
import Mathlib.Data.Set.Image

/-!
# Relabelling

Rows over labels that carry no meaning of their own. Two labels are alike when some permutation of
the labels maps the one to the other and the set of rows to itself. This depends only on the parts
of the set that are linked to the two labels.
-/

/-- Rows of type `τ` over labels of type `α`. -/
class Relabel (α : outParam Type) (τ : Type) where
  labels : τ → Set α
  map : (α → α) → τ → τ
  map_congr : ∀ {f g : α → α} {t : τ}, (∀ a ∈ labels t, f a = g a) → map f t = map g t
  map_id : ∀ t : τ, map id t = t
  map_map : ∀ (f g : α → α) (t : τ), map g (map f t) = map (g ∘ f) t
  labels_map : ∀ (f : α → α) (t : τ), labels (map f t) = f '' labels t

namespace Relabel

variable {α τ : Type} [Relabel α τ] {T : Set τ} {a b c : α}

/-- Some row holds both labels. -/
def Linked (T : Set τ) (a b : α) : Prop := ∃ t ∈ T, a ∈ labels t ∧ b ∈ labels t

def Connected (T : Set τ) : α → α → Prop := Relation.ReflTransGen (Linked T)

/-- The rows that hold a label connected to `a`. -/
def part (T : Set τ) (a : α) : Set τ := {t | t ∈ T ∧ ∃ b ∈ labels t, Connected T a b}

/-- A permutation of the labels of `T` maps `a` to `b` and `T` to itself. -/
def Alike (T : Set τ) (a b : α) : Prop :=
  ∃ π : Equiv.Perm α, π a = b ∧ map π '' T = T ∧ ∀ c, (∀ t ∈ T, c ∉ labels t) → π c = c

/-- Seen from `a` and from `b`, what is linked to them looks the same. -/
def SameFrom (T : Set τ) (a b : α) : Prop := ∃ π : Equiv.Perm α, π a = b ∧ map π '' part T a = part T b

theorem Linked.symm (h : Linked T a b) : Linked T b a := by
  obtain ⟨t, ht, ha, hb⟩ := h
  exact ⟨t, ht, hb, ha⟩

theorem Connected.symm (h : Connected T a b) : Connected T b a := by
  induction h with
  | refl => exact .refl
  | tail _ hlink ih => exact (Relation.ReflTransGen.single hlink.symm).trans ih

theorem Connected.trans (h : Connected T a b) (h' : Connected T b c) : Connected T a c :=
  Relation.ReflTransGen.trans h h'

theorem Connected.of_row {t : τ} (ht : t ∈ T) (ha : a ∈ labels t) (hb : b ∈ labels t) :
    Connected T a b := .single ⟨t, ht, ha, hb⟩

/-- In a row of the part of `a`, every label is connected to `a`. -/
theorem connected_of_mem_part {t : τ} (ht : t ∈ part T a) (hc : c ∈ labels t) : Connected T a c := by
  obtain ⟨hT, b, hb, hab⟩ := ht
  exact hab.trans (.of_row hT hb hc)

theorem mem_labels_map {f : α → α} {t : τ} (h : a ∈ labels t) : f a ∈ labels (map f t) := by
  rw [labels_map]
  exact ⟨a, h, rfl⟩

theorem map_symm_map (π : Equiv.Perm α) (t : τ) : map π.symm (map π t) = t := by
  have hid : (π.symm ∘ π : α → α) = id := π.symm_comp_self
  rw [map_map, hid, map_id]

theorem map_map_symm (π : Equiv.Perm α) (t : τ) : map π (map π.symm t) = t := by
  have hid : (π ∘ π.symm : α → α) = id := π.self_comp_symm
  rw [map_map, hid, map_id]

/-! ## From the whole to the parts -/

theorem Connected.map {π : Equiv.Perm α} (hT : map π '' T = T) (h : Connected T a b) :
    Connected T (π a) (π b) := by
  induction h with
  | refl => exact .refl
  | tail _ hlink ih =>
      obtain ⟨t, ht, hb, hc⟩ := hlink
      have hmem : Relabel.map π t ∈ T := hT ▸ ⟨t, ht, rfl⟩
      exact ih.trans (.of_row hmem (mem_labels_map hb) (mem_labels_map hc))

theorem image_symm {π : Equiv.Perm α} (hT : map π '' T = T) : map π.symm '' T = T := by
  ext t
  constructor
  · rintro ⟨u, hu, rfl⟩
    rw [← hT] at hu
    obtain ⟨v, hv, rfl⟩ := hu
    rwa [map_symm_map]
  · intro ht
    exact ⟨map π t, hT ▸ ⟨t, ht, rfl⟩, map_symm_map π t⟩

theorem map_mem_part {π : Equiv.Perm α} (hT : map π '' T = T) {t : τ} (ht : t ∈ part T a) :
    map π t ∈ part T (π a) := by
  obtain ⟨htT, c, hc, hac⟩ := ht
  exact ⟨hT ▸ ⟨t, htT, rfl⟩, π c, mem_labels_map hc, hac.map hT⟩

theorem Alike.sameFrom (h : Alike T a b) : SameFrom T a b := by
  obtain ⟨π, rfl, hT, _⟩ := h
  refine ⟨π, rfl, ?_⟩
  ext t
  constructor
  · rintro ⟨u, hu, rfl⟩
    exact map_mem_part hT hu
  · intro ht
    have hback := map_mem_part (image_symm hT) ht
    rw [Equiv.symm_apply_apply] at hback
    exact ⟨_, hback, map_map_symm π t⟩

/-! ## From the parts to the whole -/

section Parts

variable {π : Equiv.Perm α} (hpart : map π '' part T a = part T (π a))
include hpart

theorem connected_map (h : Connected T a c) : Connected T (π a) (π c) := by
  induction h with
  | refl => exact .refl
  | tail hac hlink ih =>
      obtain ⟨t, ht, hb, hc⟩ := hlink
      have hmem : map π t ∈ part T (π a) := hpart ▸ ⟨t, ⟨ht, _, hb, hac⟩, rfl⟩
      exact connected_of_mem_part hmem (mem_labels_map hc)

theorem connected_of_map (h : Connected T (π a) c) : ∃ c', Connected T a c' ∧ π c' = c := by
  induction h with
  | refl => exact ⟨a, .refl, rfl⟩
  | tail hac hlink ih =>
      obtain ⟨b', hb', rfl⟩ := ih
      obtain ⟨t, ht, hb, hc⟩ := hlink
      have hmem : t ∈ map π '' part T a := hpart ▸ ⟨ht, _, hb, hac⟩
      obtain ⟨u, hu, rfl⟩ := hmem
      rw [labels_map] at hc
      obtain ⟨c', hc', rfl⟩ := hc
      exact ⟨c', connected_of_mem_part hu hc', rfl⟩

theorem connected_map_iff : Connected T (π a) (π c) ↔ Connected T a c := by
  constructor
  · intro h
    obtain ⟨c', hc', heq⟩ := connected_of_map hpart h
    rwa [← π.injective heq]
  · exact connected_map hpart

/-- A permutation that does to each part what `π` says, and leaves the rest of `T` alone. -/
theorem alike_of_perm (hlabel : ∃ t ∈ T, a ∈ labels t) {σ : Equiv.Perm α} (hσ : σ a = π a)
    (hfrom : ∀ c, Connected T a c → σ c = π c)
    (hto : ∀ c, ¬ Connected T a c → Connected T (π a) c → σ c = π.symm c)
    (helse : ∀ c, ¬ Connected T a c → ¬ Connected T (π a) c → σ c = c) : Alike T a (π a) := by
  have hrow : ∀ t ∈ part T a, map σ t = map π t := fun t ht =>
    map_congr fun c hc => hfrom c (connected_of_mem_part ht hc)
  have hback : ∀ t ∈ part T (π a), t ∉ part T a → map σ t = map π.symm t := by
    intro t ht hno
    exact map_congr fun c hc => hto c (fun hac => hno ⟨ht.1, c, hc, hac⟩) (connected_of_mem_part ht hc)
  have hrest : ∀ t ∈ T, t ∉ part T a → t ∉ part T (π a) → map σ t = t := by
    intro t ht hno hno'
    have hid : map σ t = map id t := map_congr fun c hc =>
      helse c (fun h => hno ⟨ht, c, hc, h⟩) (fun h => hno' ⟨ht, c, hc, h⟩)
    rw [hid, map_id]
  have hsymm : ∀ t ∈ part T (π a), map π.symm t ∈ part T a := by
    intro t ht
    rw [← hpart] at ht
    obtain ⟨u, hu, rfl⟩ := ht
    rwa [map_symm_map]
  have hmaps : ∀ t ∈ T, map σ t ∈ T := by
    intro t ht
    by_cases ha : t ∈ part T a
    · rw [hrow t ha]
      exact (hpart ▸ ⟨t, ha, rfl⟩ : map π t ∈ part T (π a)).1
    · by_cases hb : t ∈ part T (π a)
      · rw [hback t hb ha]
        exact (hsymm t hb).1
      · rw [hrest t ht ha hb]
        exact ht
  refine ⟨σ, hσ, ?_, ?_⟩
  · apply Set.Subset.antisymm
    · rintro _ ⟨t, ht, rfl⟩
      exact hmaps t ht
    · intro t ht
      by_cases hb : t ∈ part T (π a)
      · exact ⟨map π.symm t, (hsymm t hb).1, by rw [hrow _ (hsymm t hb), map_map_symm]⟩
      · by_cases ha : t ∈ part T a
        · have hmem : map π t ∈ part T (π a) := hpart ▸ ⟨t, ha, rfl⟩
          have hno : map π t ∉ part T a := by
            rintro ⟨_, c, hc, hac⟩
            have hbc := connected_of_mem_part hmem hc
            obtain ⟨_, c', hc', hac'⟩ := ha
            exact hb ⟨ht, c', hc', (hbc.trans hac.symm).trans hac'⟩
          exact ⟨map π t, hmem.1, by rw [hback _ hmem hno, map_symm_map]⟩
        · exact ⟨t, ht, hrest t ht ha hb⟩
  · intro c hc
    -- A label of no row is connected to itself only.
    have hself : ∀ {d : α}, Connected T d c → d = c := by
      intro d h
      rcases Relation.ReflTransGen.cases_tail h with heq | ⟨e, _, t, ht, _, hct⟩
      · exact heq.symm
      · exact absurd hct (hc t ht)
    obtain ⟨t, ht, hat⟩ := hlabel
    refine helse c (fun h => ?_) (fun h => ?_)
    · exact hc t ht (hself h ▸ hat)
    · have hmem : map π t ∈ part T (π a) := hpart ▸ ⟨t, ⟨ht, a, hat, .refl⟩, rfl⟩
      exact hc _ hmem.1 (hself h ▸ mem_labels_map hat)

theorem alike_of_part (hlabel : ∃ t ∈ T, a ∈ labels t) : Alike T a (π a) := by
  classical
  by_cases hsame : Connected T a (π a)
  · -- One part: `π` permutes its labels.
    have hiff : ∀ c, Connected T a (π c) ↔ Connected T a c := fun c =>
      ⟨fun h => (connected_map_iff hpart).mp (hsame.symm.trans h),
        fun h => hsame.trans (connected_map hpart h)⟩
    let σ : Equiv.Perm α := Equiv.Perm.ofSubtype (π.subtypePerm hiff)
    have hin : ∀ c, Connected T a c → σ c = π c := fun c hc => Equiv.Perm.ofSubtype_apply_of_mem _ hc
    refine alike_of_perm hpart hlabel (hin a .refl) hin (fun c hno h => ?_) (fun c hno _ => ?_)
    · exact absurd (hsame.trans h) hno
    · exact Equiv.Perm.ofSubtype_apply_of_not_mem _ hno
  · -- Two parts: they are exchanged.
    have hdisjoint : ∀ c, Connected T a c → ¬ Connected T (π a) c := fun c hac hbc =>
      hsame (hac.trans hbc.symm)
    have hfrom : ∀ c, Connected T a c → Connected T (π a) (π c) := fun c => connected_map hpart
    have hto : ∀ c, Connected T (π a) c → Connected T a (π.symm c) := by
      intro c hc
      obtain ⟨c', hc', rfl⟩ := connected_of_map hpart hc
      rwa [Equiv.symm_apply_apply]
    let f : α → α := fun c =>
      if Connected T a c then π c else if Connected T (π a) c then π.symm c else c
    have hinv : Function.Involutive f := by
      intro c
      by_cases ha : Connected T a c
      · have hno : ¬ Connected T a (π c) := fun h => hdisjoint _ h (hfrom c ha)
        simp only [f, if_pos ha, if_neg hno, if_pos (hfrom c ha), Equiv.symm_apply_apply]
      · by_cases hb : Connected T (π a) c
        · simp only [f, if_neg ha, if_pos hb, if_pos (hto c hb), Equiv.apply_symm_apply]
        · simp only [f, if_neg ha, if_neg hb]
    refine alike_of_perm hpart hlabel (σ := hinv.toPerm f) ?_ ?_ ?_ ?_
    · exact if_pos .refl
    · exact fun c hc => if_pos hc
    · exact fun c hno hc => (if_neg hno).trans (if_pos hc)
    · exact fun c hno hno' => (if_neg hno).trans (if_neg hno')

end Parts

/-- Two labels are alike exactly when what is linked to them looks the same from them. -/
theorem alike_iff_sameFrom (hlabel : ∃ t ∈ T, a ∈ labels t) : Alike T a b ↔ SameFrom T a b := by
  constructor
  · exact Alike.sameFrom
  · rintro ⟨π, rfl, hpart⟩
    exact alike_of_part hpart hlabel

end Relabel
