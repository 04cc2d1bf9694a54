import Nix2Rdf.Lib.Text

/-!
# Paths and their components

A path is resolved by its components, one after another: an empty one and `.` stay where they are, `..`
leads up. A path that was resolved is resolved to itself.
-/

namespace Paths

/-- A component that names the directory it is in. -/
def Dropped (s : String) : Prop := s = "" ∨ s = "."

instance (s : String) : Decidable (Dropped s) := inferInstanceAs (Decidable (_ ∨ _))

/-- A component that stands for itself. -/
def Proper (s : String) : Prop := ¬ Dropped s ∧ s ≠ ".."

instance (s : String) : Decidable (Proper s) := inferInstanceAs (Decidable (_ ∧ _))

/-- One more component of a path that is being resolved. The last one comes first. -/
def resolveStep (acc : List String) (seg : String) : List String :=
  if seg = "" ∨ seg = "." then acc
  else if seg = ".." then
    match acc with
    | [] => [".."]
    | top :: below => if top = ".." then ".." :: acc else below
  else seg :: acc

/-- The path with its `.` and `..` components resolved. -/
def resolvePath (path : String) : String :=
  Text.slash ((Text.split '/' path).foldl resolveStep []).reverse

/-- The path without the components that stay where they are. -/
def components (path : String) : String := Text.slash ((Text.split '/' path).filter fun seg => ¬ Dropped seg)

/-- Such a path means a directory only. -/
def endsAsDir (path : String) : Bool := Text.lastPart '/' path = "" ∨ Text.lastPart '/' path = "."

theorem not_mem_of_mem_split {path s : String} (h : s ∈ Text.split '/' path) : '/' ∉ s.toList := by
  obtain ⟨l, hl, rfl⟩ := List.mem_map.mp h
  rw [String.toList_ofList]
  exact Text.not_mem_of_mem_splitOn hl

theorem split_ne_nil (c : Char) (s : String) : Text.split c s ≠ [] := by
  rw [Text.split, Ne, List.map_eq_nil_iff]
  exact List.splitOn_ne_nil c s.toList

theorem lastPart_eq (c : Char) (s : String) : Text.lastPart c s = (Text.split c s).getLastD "" := by
  have hne := List.splitOn_ne_nil c s.toList
  rw [Text.lastPart, Text.split, List.getLastD_eq_getLast?, List.getLastD_eq_getLast?, List.getLast?_map,
    List.getLast?_eq_some_getLast hne]
  rfl

/-- The last component of a path that may mean a file stands for something. -/
theorem split_of_not_endsAsDir {path : String} (h : endsAsDir path = false) :
    ∃ segs last, Text.split '/' path = segs ++ [last] ∧ ¬ Dropped last := by
  rw [endsAsDir, decide_eq_false_iff_not] at h
  have hne := List.splitOn_ne_nil '/' path.toList
  refine ⟨(path.toList.splitOn '/').dropLast.map String.ofList, Text.lastPart '/' path, ?_, h⟩
  rw [Text.split, Text.lastPart, List.getLastD_eq_getLast?, List.getLast?_eq_some_getLast hne, Option.getD_some]
  conv_lhs => rw [← List.dropLast_append_getLast hne, List.map_append, List.map_singleton]

/-! ## One component -/

section Step

variable {s top : String} {acc below : List String}

theorem resolveStep_dropped (h : Dropped s) (acc : List String) : resolveStep acc s = acc := if_pos h

theorem resolveStep_up (h : top ≠ "..") (below : List String) : resolveStep (top :: below) ".." = below := by
  simp [resolveStep, h]

theorem resolveStep_proper (h : Proper s) (acc : List String) : resolveStep acc s = s :: acc := by
  unfold resolveStep
  exact (if_neg h.1).trans (if_neg h.2)

theorem foldl_resolveStep {segs : List String} (h : ∀ s ∈ segs, Proper s) (acc : List String) :
    segs.foldl resolveStep acc = segs.reverse ++ acc := by
  induction segs generalizing acc with
  | nil => rfl
  | cons s segs ih =>
      rw [List.forall_mem_cons] at h
      rw [List.foldl_cons, resolveStep_proper h.1, ih h.2, List.reverse_cons, List.append_assoc,
        List.singleton_append]

theorem foldl_filter_dropped (segs acc : List String) :
    (segs.filter fun seg => ¬ Dropped seg).foldl resolveStep acc = segs.foldl resolveStep acc := by
  induction segs generalizing acc with
  | nil => rfl
  | cons seg segs ih =>
      by_cases hseg : Dropped seg
      · rw [List.filter_cons_of_neg (by simpa using hseg), List.foldl_cons, resolveStep_dropped hseg, ih]
      · rw [List.filter_cons_of_pos (by simpa using hseg), List.foldl_cons, List.foldl_cons, ih]

end Step

/-! ## Resolved paths -/

/-- What a path resolves to, with the last component first: only at its end does it lead up. -/
def Settled : List String → Prop
  | [] => True
  | seg :: below => ¬ Dropped seg ∧ '/' ∉ seg.toList ∧ (seg = ".." → ∀ b ∈ below.head?, b = "..") ∧ Settled below

theorem settled_step {acc : List String} {seg : String} (h : Settled acc) (hslash : '/' ∉ seg.toList) :
    Settled (resolveStep acc seg) := by
  by_cases hdrop : Dropped seg
  · rwa [resolveStep_dropped hdrop]
  · by_cases hup : seg = ".."
    · subst hup
      cases acc with
      | nil => exact ⟨hdrop, hslash, fun _ b hb => (nomatch hb), trivial⟩
      | cons top below =>
          by_cases htop : top = ".."
          · subst htop
            exact ⟨hdrop, hslash, fun _ b hb => (Option.some.inj hb).symm, h⟩
          · rw [resolveStep_up htop]
            exact h.2.2.2
    · rw [resolveStep_proper ⟨hdrop, hup⟩]
      exact ⟨hdrop, hslash, fun heq => absurd heq hup, h⟩

theorem settled_foldl {segs acc : List String} (hsegs : ∀ s ∈ segs, '/' ∉ s.toList) (h : Settled acc) :
    Settled (segs.foldl resolveStep acc) := by
  induction segs generalizing acc with
  | nil => exact h
  | cons seg segs ih =>
      rw [List.forall_mem_cons] at hsegs
      exact ih hsegs.2 (settled_step h hsegs.1)

theorem settled_split (path : String) : Settled ((Text.split '/' path).foldl resolveStep []) :=
  settled_foldl (fun _ hs => not_mem_of_mem_split hs) trivial

theorem Settled.not_mem {acc : List String} (h : Settled acc) : ∀ s ∈ acc, '/' ∉ s.toList := by
  induction acc with
  | nil => exact fun s hs => nomatch hs
  | cons seg below ih => exact List.forall_mem_cons.mpr ⟨h.2.1, ih h.2.2.2⟩

theorem settled_proper {segs : List String} (h : ∀ s ∈ segs, Proper s ∧ '/' ∉ s.toList) : Settled segs := by
  induction segs with
  | nil => trivial
  | cons s segs ih =>
      rw [List.forall_mem_cons] at h
      obtain ⟨⟨hproper, hslash⟩, h⟩ := h
      exact ⟨hproper.1, hslash, fun hup => absurd hup hproper.2, ih h⟩

/-- What is resolved is kept. -/
theorem foldl_settled {acc : List String} (h : Settled acc) : acc.reverse.foldl resolveStep [] = acc := by
  induction acc with
  | nil => rfl
  | cons seg below ih =>
      obtain ⟨hdrop, _, hup, hbelow⟩ := h
      rw [List.reverse_cons, List.foldl_append, ih hbelow, List.foldl_cons, List.foldl_nil]
      by_cases hseg : seg = ".."
      · subst hseg
        cases below with
        | nil => rfl
        | cons top below =>
            obtain rfl := hup rfl top rfl
            rfl
      · exact resolveStep_proper ⟨hdrop, hseg⟩ below

theorem split_settled {acc : List String} (h : Settled acc) (hne : acc ≠ []) :
    Text.split '/' (Text.slash acc.reverse) = acc.reverse :=
  Text.split_slash (by simpa using hne) fun s hs => h.not_mem s (List.mem_reverse.mp hs)

theorem foldl_split_settled {acc : List String} (h : Settled acc) :
    (Text.split '/' (Text.slash acc.reverse)).foldl resolveStep [] = acc := by
  cases acc with
  | nil => rfl
  | cons seg below => rw [split_settled h (List.cons_ne_nil _ _), foldl_settled h]

/-- A path that was resolved is resolved to itself. -/
theorem resolvePath_idem (path : String) : resolvePath (resolvePath path) = resolvePath path := by
  rw [resolvePath, resolvePath, foldl_split_settled (settled_split path)]

/-! ## The first component -/

/-- The first component that stands for something. -/
def head (path : String) : Option String := ((Text.split '/' path).filter fun seg => ¬ Dropped seg).head?

theorem filter_proper {segs : List String} (h : ∀ s ∈ segs, Proper s) :
    (segs.filter fun seg => ¬ Dropped seg) = segs :=
  List.filter_eq_self.mpr fun s hs => decide_eq_true (h s hs).1

theorem head_slash {segs : List String} (h : ∀ s ∈ segs, Proper s ∧ '/' ∉ s.toList) :
    head (Text.slash segs) = segs.head? := by
  cases segs with
  | nil => rfl
  | cons s segs =>
      rw [head, Text.split_slash (List.cons_ne_nil _ _) fun s hs => (h s hs).2, filter_proper fun s hs => (h s hs).1]

/-- What lies below a path begins with the same component. -/
theorem head_below {p q s : String} (h : Text.startsWith (p ++ "/") q = true) (hp : head p = some s) :
    head q = some s := by
  obtain ⟨t, ht⟩ := List.isPrefixOf_iff_prefix.mp h
  have hq : q = p ++ String.singleton '/' ++ String.ofList t := by
    apply String.toList_inj.mp
    rw [← ht]
    simp
  rw [head, hq, Text.split_append, List.filter_append, List.head?_append]
  rw [head] at hp
  rw [hp, Option.some_or]

/-- Without `..` a path is resolved to its components. -/
theorem foldl_without_up {segs : List String} (h : ".." ∉ segs) :
    (segs.foldl resolveStep []).reverse = segs.filter fun seg => ¬ Dropped seg := by
  have hproper : ∀ s ∈ segs.filter (fun seg => ¬ Dropped seg), Proper s := by
    intro s hs
    obtain ⟨hmem, hkept⟩ := List.mem_filter.mp hs
    exact ⟨of_decide_eq_true hkept, fun heq => h (heq ▸ hmem)⟩
  rw [← foldl_filter_dropped, foldl_resolveStep hproper, List.append_nil, List.reverse_reverse]

theorem head_foldl {segs : List String} (hslash : ∀ s ∈ segs, '/' ∉ s.toList) (h : ".." ∉ segs) :
    head (Text.slash (segs.foldl resolveStep []).reverse) = (segs.filter fun seg => ¬ Dropped seg).head? := by
  rw [foldl_without_up h, head_slash]
  intro s hs
  obtain ⟨hmem, hkept⟩ := List.mem_filter.mp hs
  exact ⟨⟨of_decide_eq_true hkept, fun heq => h (heq ▸ hmem)⟩, hslash s hmem⟩

theorem head_resolvePath {path : String} (h : ".." ∉ Text.split '/' path) : head (resolvePath path) = head path :=
  head_foldl (fun _ hs => not_mem_of_mem_split hs) h

end Paths
