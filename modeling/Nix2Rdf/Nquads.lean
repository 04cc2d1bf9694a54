import Nix2Rdf.Fragment

/-!
# The text of terms

A term is read back from its N-Quads text: no two terms are printed alike.
-/

namespace Nix2Rdf.Fragment

/-- The first character of an escaped text and what follows it. -/
def unescape : List Char → Option (Char × List Char)
  | '\\' :: 'b' :: r => some (Char.ofNat 8, r)
  | '\\' :: 't' :: r => some ('\t', r)
  | '\\' :: 'n' :: r => some ('\n', r)
  | '\\' :: 'f' :: r => some (Char.ofNat 12, r)
  | '\\' :: 'r' :: r => some ('\r', r)
  | '\\' :: '"' :: r => some ('"', r)
  | '\\' :: '\\' :: r => some ('\\', r)
  | '\\' :: 'u' :: _ :: _ :: h :: l :: r =>
      some (Char.ofNat (16 * Encoding.hexValue h + Encoding.hexValue l), r)
  | c :: r => some (c, r)
  | [] => none

theorem unescape_plain {c : Char} (h : c ≠ '\\') (r : List Char) : unescape (c :: r) = some (c, r) := by
  rw [unescape.eq_def]
  split <;> simp_all

theorem unescape_escapeChar (c : Char) (r : List Char) : unescape (escapeChar c ++ r) = some (c, r) := by
  unfold escapeChar
  by_cases hb : c.toNat = 8
  · rw [if_pos hb, ← Char.ofNat_toNat c, hb]
    rfl
  · rw [if_neg hb]
    by_cases ht : c = '\t'
    · rw [if_pos ht, ht]
      rfl
    · rw [if_neg ht]
      by_cases hn : c = '\n'
      · rw [if_pos hn, hn]
        rfl
      · rw [if_neg hn]
        by_cases hf : c.toNat = 12
        · rw [if_pos hf, ← Char.ofNat_toNat c, hf]
          rfl
        · rw [if_neg hf]
          by_cases hr : c = '\r'
          · rw [if_pos hr, hr]
            rfl
          · rw [if_neg hr]
            by_cases hq : c = '"'
            · rw [if_pos hq, hq]
              rfl
            · rw [if_neg hq]
              by_cases hs : c = '\\'
              · rw [if_pos hs, hs]
                rfl
              · rw [if_neg hs]
                by_cases hctl : c.toNat < 32 ∨ c.toNat = 127
                · have hhi := Encoding.hexValue_upperHex (n := c.toNat / 16) (by omega)
                  have hlo := Encoding.hexValue_upperHex (n := c.toNat % 16) (by omega)
                  have hread : unescape (['\\', 'u', '0', '0', Encoding.upperHex (c.toNat / 16),
                      Encoding.upperHex (c.toNat % 16)] ++ r) =
                      some (Char.ofNat (16 * Encoding.hexValue (Encoding.upperHex (c.toNat / 16))
                        + Encoding.hexValue (Encoding.upperHex (c.toNat % 16))), r) := rfl
                  rw [if_pos hctl, hread, hhi, hlo, Nat.div_add_mod, Char.ofNat_toNat]
                · rw [if_neg hctl]
                  exact unescape_plain hs r

theorem escapeChar_ne_quote (c : Char) (r s : List Char) : escapeChar c ++ r ≠ '"' :: s := by
  intro h
  have hread := unescape_escapeChar c r
  have hquote : unescape ('"' :: s) = some ('"', s) := unescape_plain (by decide) s
  rw [h, hquote, Option.some.injEq, Prod.mk.injEq] at hread
  rw [← hread.1] at h
  have hslash : ∀ t, ['\\', '"'] ++ t ≠ '"' :: s := by
    intro t he
    cases he
  exact hslash r h

/-- A quoted text is read back from the front of what follows it. -/
theorem quote_append_inj {v w : List Char} {r s : List Char}
    (h : v.flatMap escapeChar ++ '"' :: r = w.flatMap escapeChar ++ '"' :: s) : v = w ∧ r = s := by
  induction v generalizing w with
  | nil =>
      cases w with
      | nil =>
          rw [List.flatMap_nil, List.nil_append, List.nil_append, List.cons.injEq] at h
          exact ⟨rfl, h.2⟩
      | cons d w =>
          rw [List.flatMap_nil, List.nil_append, List.flatMap_cons, List.append_assoc] at h
          exact absurd h.symm (escapeChar_ne_quote d _ r)
  | cons c v ih =>
      rw [List.flatMap_cons, List.append_assoc] at h
      cases w with
      | nil => exact absurd h (escapeChar_ne_quote c _ s)
      | cons d w =>
          rw [List.flatMap_cons, List.append_assoc] at h
          have hc := unescape_escapeChar c (v.flatMap escapeChar ++ '"' :: r)
          rw [h, unescape_escapeChar, Option.some.injEq, Prod.mk.injEq] at hc
          obtain ⟨hvw, hrs⟩ := ih hc.2.symm
          rw [hc.1, hvw]
          exact ⟨rfl, hrs⟩

/-- What stands after the closing quote of a literal. -/
def literalSuffix : Term → String
  | .literal _ dt => if dt = xsd "string" then "" else "^^" ++ iriText dt
  | .lang _ tag => "@" ++ tag
  | _ => ""

theorem iriText_inj {i j : Iri} (h : iriText i = iriText j) : i = j := by
  rw [iriText, iriText] at h
  exact String.append_right_inj _ |>.mp (String.append_left_inj _ |>.mp h)

theorem toList_quote_append (v t : String) :
    (quote v ++ t).toList = '"' :: (v.toList.flatMap escapeChar ++ '"' :: t.toList) := by
  simp [quote]

theorem quote_inj {v w s t : String} (h : quote v ++ s = quote w ++ t) : v = w ∧ s = t := by
  have hlist := congrArg String.toList h
  rw [toList_quote_append, toList_quote_append, List.cons.injEq] at hlist
  obtain ⟨hv, hs⟩ := quote_append_inj hlist.2
  exact ⟨String.toList_inj.mp hv, String.toList_inj.mp hs⟩

/-- A literal is its quoted text and its suffix. -/
theorem termText_literal (v : String) (dt : Iri) :
    termText (.literal v dt) = quote v ++ literalSuffix (.literal v dt) := by
  simp only [termText, literalSuffix]
  split
  · rw [String.append_empty]
  · rw [String.append_assoc]

theorem termText_lang (v tag : String) :
    termText (.lang v tag) = quote v ++ literalSuffix (.lang v tag) := by
  simp only [termText, literalSuffix]
  rw [String.append_assoc]

/-- What a term's text begins with. -/
def firstChar : Term → Char
  | .iri _ => '<'
  | .bnode _ => '_'
  | .literal _ _ => '"'
  | .lang _ _ => '"'

theorem head_termText (t : Term) : (termText t).toList.head? = some (firstChar t) := by
  cases t with
  | iri i => simp [termText, iriText, firstChar]
  | bnode l => simp [termText, firstChar]
  | literal v dt => rw [termText_literal, toList_quote_append]; rfl
  | lang v tag => rw [termText_lang, toList_quote_append]; rfl

theorem caret_ne (dt : Iri) : ("^^" ++ iriText dt : String) ≠ "" := by
  intro h
  have := congrArg String.toList h
  simp at this

theorem literalSuffix_inj {v w : String} {dt dt' : Iri}
    (h : literalSuffix (.literal v dt) = literalSuffix (.literal w dt')) : dt = dt' := by
  simp only [literalSuffix] at h
  split at h <;> split at h
  · rename_i hdt hdt'
    rw [hdt, hdt']
  · exact absurd h.symm (caret_ne dt')
  · exact absurd h (caret_ne dt)
  · exact iriText_inj (String.append_right_inj _ |>.mp h)

theorem literalSuffix_ne_lang (v w : String) (dt : Iri) (tag : String) :
    literalSuffix (.literal v dt) ≠ literalSuffix (.lang w tag) := by
  intro h
  have hhead := congrArg (fun s : String => s.toList.head?) h
  simp only [literalSuffix] at hhead
  split at hhead <;> simp at hhead

/-- No two terms have one text. -/
theorem termText_injective : Function.Injective termText := by
  intro s t h
  have hfirst : firstChar s = firstChar t := by
    rw [← Option.some.injEq, ← head_termText, ← head_termText, h]
  cases s with
  | iri i =>
      cases t with
      | iri j => rw [iriText_inj h]
      | _ => simp [firstChar] at hfirst
  | bnode l =>
      cases t with
      | bnode l' => rw [String.append_right_inj _ |>.mp h]
      | _ => simp [firstChar] at hfirst
  | literal v dt =>
      cases t with
      | literal w dt' =>
          rw [termText_literal, termText_literal] at h
          obtain ⟨rfl, hs⟩ := quote_inj h
          rw [literalSuffix_inj hs]
      | lang w tag =>
          rw [termText_literal, termText_lang] at h
          exact absurd (quote_inj h).2 (literalSuffix_ne_lang v w dt tag)
      | _ => simp [firstChar] at hfirst
  | lang v tag =>
      cases t with
      | literal w dt' =>
          rw [termText_literal, termText_lang] at h
          exact absurd (quote_inj h).2.symm (literalSuffix_ne_lang w v dt' tag)
      | lang w tag' =>
          rw [termText_lang, termText_lang] at h
          obtain ⟨rfl, hs⟩ := quote_inj h
          rw [String.append_right_inj _ |>.mp hs]
      | _ => simp [firstChar] at hfirst

end Nix2Rdf.Fragment
