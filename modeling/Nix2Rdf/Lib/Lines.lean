import Nix2Rdf.Lib.Text
import Mathlib.Data.List.TakeWhile

/-!
# Where a word stands on its line

A text is searched line by line, each line up to a mark. A word that holds neither the mark nor a line end
is found with what stands around it in the text.
-/

namespace Text

/-- What stands before a place on its line, last first. -/
def lineBefore (a : List Char) : List Char := a.reverse.takeWhile (· ≠ '\n')

/-- A word stands in a line, between what is before it, last first, and what comes next. -/
def Stands (R : List Char → Option Char → Prop) (u l : List Char) : Prop :=
  ∃ a b, l = a ++ u ++ b ∧ R a.reverse b.head?

variable {R : List Char → Option Char → Prop} {u : List Char}

theorem lineBefore_of_not_mem {a : List Char} (h : '\n' ∉ a) : lineBefore a = a.reverse := by
  refine List.takeWhile_eq_self_iff.mpr fun c hc => ?_
  have hne : c ≠ '\n' := fun he => h (he ▸ List.mem_reverse.mp hc)
  simpa using hne

theorem lineBefore_append (a b : List Char) : lineBefore (a ++ '\n' :: b) = lineBefore b := by
  have hstop : ('\n' :: a.reverse).takeWhile (· ≠ '\n') = [] := rfl
  rw [lineBefore, lineBefore, List.reverse_append, List.reverse_cons, List.append_assoc, List.singleton_append,
    List.takeWhile_append, hstop, List.append_nil]
  split
  · rename_i h
    exact ((List.takeWhile_prefix _).eq_of_length h).symm
  · rfl

theorem not_stands_nil (hne : u ≠ []) : ¬ Stands R u [] := by
  intro h
  obtain ⟨a, b, heq, _⟩ := h
  rw [eq_comm, List.append_eq_nil_iff, List.append_eq_nil_iff] at heq
  exact hne heq.1.2

/-- Up to a mark the same is found, where no mark stands before it. -/
theorem stands_takeWhile {m : Char} (hu : m ∉ u) (hR : ∀ before, R before (some m) ↔ R before none) (l : List Char) :
    Stands R u (l.takeWhile (· ≠ m)) ↔ Stands (fun before next => m ∉ before ∧ R before next) u l := by
  have hkeep : ∀ a : List Char, m ∉ a → ∀ c ∈ a, decide (c ≠ m) = true := by
    intro a ha c hc
    exact decide_eq_true fun he => ha (he ▸ hc)
  constructor
  · intro h
    obtain ⟨a, b, heq, hab⟩ := h
    have hl : l = a ++ u ++ (b ++ l.dropWhile (· ≠ m)) := by
      rw [← List.append_assoc, ← heq, List.takeWhile_append_dropWhile]
    refine ⟨a, b ++ l.dropWhile (· ≠ m), hl, fun hm => ?_, ?_⟩
    · have hmem : m ∈ l.takeWhile (· ≠ m) := by
        rw [heq]
        exact List.mem_append_left _ (List.mem_append_left _ (List.mem_reverse.mp hm))
      have := List.all_eq_true.mp List.all_takeWhile m hmem
      exact absurd rfl (of_decide_eq_true this)
    · cases b with
      | cons c b => exact hab
      | nil =>
          rw [List.nil_append]
          cases hd : l.dropWhile (· ≠ m) with
          | nil => exact hab
          | cons c d =>
              have hc := List.head?_dropWhile_not (· ≠ m) l
              rw [hd, List.head?_cons] at hc
              have : c = m := by simpa using hc
              rw [List.head?_cons, this]
              exact (hR _).mpr hab
  · intro h
    obtain ⟨a, b, rfl, ha, hab⟩ := h
    have ha' : m ∉ a := fun hm => ha (List.mem_reverse.mpr hm)
    refine ⟨a, b.takeWhile (· ≠ m), ?_, ?_⟩
    · rw [List.append_assoc, List.takeWhile_append_of_pos (hkeep a ha'), List.takeWhile_append_of_pos (hkeep u hu),
        List.append_assoc]
    · cases b with
      | nil => exact hab
      | cons c b =>
          by_cases hc : c = m
          · rw [List.takeWhile_cons_of_neg (by simpa using hc)]
            rw [hc] at hab
            exact (hR _).mp hab
          · rw [List.takeWhile_cons_of_pos (by simpa using hc)]
            exact hab

theorem stands_stripReturn (hne : u ≠ []) (hu : '\r' ∉ u) (hR : ∀ before, R before (some '\r') ↔ R before none)
    (l : List Char) : Stands R u (stripReturn l) ↔ Stands R u l := by
  rw [stripReturn]
  split
  · rename_i hlast
    obtain ⟨l, rfl⟩ := List.getLast?_eq_some_iff.mp hlast
    rw [List.dropLast_concat]
    constructor
    · intro h
      obtain ⟨a, b, rfl, hab⟩ := h
      refine ⟨a, b ++ ['\r'], List.append_assoc _ _ _, ?_⟩
      cases b with
      | nil => exact (hR _).mpr hab
      | cons c b => exact hab
    · intro h
      obtain ⟨a, b, heq, hab⟩ := h
      cases List.eq_nil_or_concat b with
      | inl hb =>
          obtain ⟨v, c, rfl⟩ := (List.eq_nil_or_concat u).resolve_left hne
          rw [hb, List.append_nil, List.concat_eq_append, ← List.append_assoc] at heq
          have hc := (List.append_inj' heq rfl).2
          rw [List.singleton_inj] at hc
          exact absurd (by rw [List.concat_eq_append, hc]; exact List.mem_append_right _ List.mem_cons_self) hu
      | inr hb =>
          obtain ⟨b, c, rfl⟩ := hb
          rw [List.concat_eq_append, ← List.append_assoc] at heq
          obtain ⟨hl, hc⟩ := List.append_inj' heq rfl
          rw [List.singleton_inj] at hc
          refine ⟨a, b, hl, ?_⟩
          cases b with
          | nil =>
              rw [List.concat_eq_append, ← hc] at hab
              exact (hR _).mp hab
          | cons d b => exact hab
  · exact Iff.rfl

/-- A word without line feed stands on one side of a line feed. -/
theorem append_eq_line (hu : '\n' ∉ u) {l rest a b : List Char} (hl : '\n' ∉ l)
    (h : l ++ '\n' :: rest = a ++ u ++ b) : (∃ b', l = a ++ u ++ b' ∧ b = b' ++ '\n' :: rest) ∨
      ∃ a', a = l ++ '\n' :: a' ∧ rest = a' ++ u ++ b := by
  rcases List.append_eq_append_iff.mp h with ⟨t, hau, hrest⟩ | ⟨t, rfl, hb⟩
  · cases t with
    | nil =>
        rw [List.append_nil] at hau
        exact .inl ⟨[], by rw [List.append_nil, hau], hrest.symm⟩
    | cons c t =>
        obtain ⟨rfl, rfl⟩ := List.cons.inj hrest
        rcases List.append_eq_append_iff.mp hau with ⟨s, rfl, hu'⟩ | ⟨s, rfl, hs⟩
        · exact absurd (hu' ▸ List.mem_append_right s List.mem_cons_self) hu
        · cases s with
          | nil =>
              rw [List.nil_append] at hs
              exact absurd (hs ▸ List.mem_cons_self) hu
          | cons c s =>
              obtain ⟨rfl, rfl⟩ := List.cons.inj hs
              exact .inr ⟨s, rfl, rfl⟩
  · exact .inl ⟨t, rfl, hb⟩

theorem stands_intercalate (hne : u ≠ []) (hu : '\n' ∉ u) (hR : ∀ before, R before (some '\n') ↔ R before none)
    {segs : List (List Char)} (h : ∀ l ∈ segs, '\n' ∉ l) : (∃ l ∈ segs, Stands R u l) ↔
      ∃ a b, List.intercalate ['\n'] segs = a ++ u ++ b ∧ R (lineBefore a) b.head? := by
  induction segs with
  | nil =>
      refine iff_of_false (by simp) fun hstands => ?_
      obtain ⟨a, b, heq, _⟩ := hstands
      rw [List.intercalate_nil, eq_comm, List.append_eq_nil_iff, List.append_eq_nil_iff] at heq
      exact hne heq.1.2
  | cons l segs ih =>
      rw [List.forall_mem_cons] at h
      obtain ⟨hl, hsegs⟩ := h
      have hbefore : ∀ {a b}, l = a ++ u ++ b → lineBefore a = a.reverse := by
        rintro a b rfl
        exact lineBefore_of_not_mem fun hmem => hl (List.mem_append_left _ (List.mem_append_left _ hmem))
      have hsplit : (∃ x ∈ l :: segs, Stands R u x) ↔ Stands R u l ∨ ∃ x ∈ segs, Stands R u x := by
        simp only [List.mem_cons, or_and_right, exists_or, exists_eq_left]
      rw [hsplit, ih hsegs]
      cases segs with
      | nil =>
          rw [List.intercalate_singleton, List.intercalate_nil]
          constructor
          · rintro (⟨a, b, heq, hab⟩ | ⟨a, b, heq, _⟩)
            · exact ⟨a, b, heq, by rwa [hbefore heq]⟩
            · rw [eq_comm, List.append_eq_nil_iff, List.append_eq_nil_iff] at heq
              exact absurd heq.1.2 hne
          · rintro ⟨a, b, heq, hab⟩
            rw [hbefore heq] at hab
            exact .inl ⟨a, b, heq, hab⟩
      | cons l' segs =>
          have hjoin : List.intercalate ['\n'] (l :: l' :: segs) = l ++ '\n' :: List.intercalate ['\n']
              (l' :: segs) := by
            rw [List.intercalate_cons_cons, List.append_assoc, List.singleton_append]
          rw [hjoin]
          constructor
          · rintro (⟨a, b, heq, hab⟩ | ⟨a, b, heq, hab⟩)
            · refine ⟨a, b ++ '\n' :: List.intercalate ['\n'] (l' :: segs), ?_, ?_⟩
              · rw [← List.append_assoc, ← heq]
              · rw [hbefore heq]
                cases b with
                | nil => exact (hR _).mpr hab
                | cons c b => exact hab
            · refine ⟨l ++ '\n' :: a, b, ?_, by rwa [lineBefore_append]⟩
              rw [heq]
              simp
          · rintro ⟨a, b, heq, hab⟩
            rcases append_eq_line hu hl heq with ⟨b', hl', rfl⟩ | ⟨a', rfl, hrest⟩
            · rw [hbefore hl'] at hab
              refine .inl ⟨a, b', hl', ?_⟩
              cases b' with
              | nil => exact (hR _).mp hab
              | cons c b => exact hab
            · rw [lineBefore_append] at hab
              exact .inr ⟨a', b, hrest, hab⟩

theorem stands_lines (hne : u ≠ []) (hu : '\r' ∉ u) (hR : ∀ before, R before (some '\r') ↔ R before none)
    (s : String) : (∃ line ∈ lines s, Stands R u line.toList) ↔ ∃ l ∈ s.toList.splitOn '\n', Stands R u l := by
  have hstrip : ∀ l, Stands R u (stripReturn l) ↔ Stands R u l := stands_stripReturn hne hu hR
  obtain ⟨init, last, hsegs⟩ := (List.eq_nil_or_concat (s.toList.splitOn '\n')).resolve_left (List.splitOn_ne_nil _ _)
  rw [lines, hsegs, List.concat_eq_append, List.dropLast_concat, List.getLast?_concat]
  simp only [List.mem_append, or_and_right, exists_or, List.mem_singleton, exists_eq_left, List.mem_map,
    exists_exists_and_eq_and, String.toList_ofList, hstrip]
  refine or_congr_right ?_
  cases last with
  | nil => exact iff_of_false (by simp) (not_stands_nil hne)
  | cons c cs => simp

/-- What is found in the lines up to a mark stands in the text with no mark before it on its line. -/
theorem stands_uncut {m : Char} (hne : u ≠ []) (hu : ∀ c ∈ [m, '\n', '\r'], c ∉ u)
    (hR : ∀ c ∈ [m, '\n', '\r'], ∀ before, R before (some c) ↔ R before none) (s : String) :
    (∃ line ∈ lines s, Stands R u (line.toList.takeWhile (· ≠ m))) ↔
      ∃ a b, s.toList = a ++ u ++ b ∧ m ∉ lineBefore a ∧ R (lineBefore a) b.head? := by
  have hmark : ∀ l, Stands R u (l.takeWhile (· ≠ m)) ↔ Stands (fun before next => m ∉ before ∧ R before next) u l :=
    stands_takeWhile (hu m (by simp)) (hR m (by simp))
  have hmarked : ∀ c ∈ [m, '\n', '\r'], ∀ before, (m ∉ before ∧ R before (some c)) ↔ m ∉ before ∧ R before none :=
    fun c hc before => and_congr_right fun _ => hR c hc before
  simp only [hmark]
  rw [stands_lines hne (hu '\r' (by simp)) (hmarked '\r' (by simp)), stands_intercalate hne (hu '\n' (by simp))
    (hmarked '\n' (by simp)) fun l hl => not_mem_of_mem_splitOn hl, List.intercalate_splitOn]

end Text
