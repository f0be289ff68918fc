import FortyTwo.Webserv.ConfigParser
import Mathlib.Data.List.Forall2

/-!
When two runs of the configuration parser do the same. The parser looks at the
types and the texts of the tokens, and at their columns in two places: between
the codes of an `error_page` directive and where a file name could go on.
-/

namespace FortyTwo.Webserv

open Foundation TokenParser ConfigParser

/-- The same type and the same text. -/
def SameToken (t t' : Token) : Prop := t.type = t'.type ∧ t.lexeme = t'.lexeme

/-- An identifier of digits, as a code of `error_page` is. -/
def isNumber (t : Token) : Bool := t.type == .identifier && !hasNonDigit t.lexeme

/-- How many codes `parseErrorPage` reads: the numbers that are followed by
exactly one character and another token. -/
def errorCodes : List Token → Nat
  | [] => 0
  | [_] => 0
  | t :: u :: rest =>
      if isNumber t && isSpaceBetween t u then errorCodes (u :: rest) + 1 else 0

/-- No dot begins where an identifier ends. -/
def Separated (tokens : List Token) : Prop :=
  tokens.IsChain (fun t u => t.type = .identifier → u.type = .dot → u.column ≠ tokenEnd t)

/-- The same tokens, but for the places where the columns are not looked at. -/
structure AlikeTokens (l l' : List Token) : Prop where
  same : List.Forall₂ SameToken l l'
  separated : Separated l'
  codes : ∀ n t, l[n]? = some t → t.type = .errorPage →
    errorCodes (l.drop (n + 1)) = errorCodes (l'.drop (n + 1))

def tokenLikeness : Likeness Token := ⟨Separated, AlikeTokens⟩

/-- Behind `error_page` the codes are looked at. -/
def pageLikeness : Likeness Token :=
  ⟨Separated, fun l l' => AlikeTokens l l' ∧ errorCodes l = errorCodes l'⟩

theorem Separated.left {c d : List Token} (h : Separated (c ++ d)) : Separated c :=
  h.left_of_append

theorem Separated.right {c d : List Token} (h : Separated (c ++ d)) : Separated d :=
  h.right_of_append

theorem errorCodes_left (c d : List Token) :
    errorCodes c = min (errorCodes (c ++ d)) (c.length - 1) := by
  fun_induction errorCodes c with
  | case1 => simp
  | case2 t => simp
  | case3 t u rest hcode ih =>
      rw [List.cons_append, List.cons_append, errorCodes, if_pos hcode, ih]
      simp only [List.cons_append, List.length_cons]
      omega
  | case4 t u rest hcode =>
      rw [List.cons_append, List.cons_append, errorCodes, if_neg hcode]
      simp

private theorem errorCodes_left_eq {c c' d d' : List Token} (hlen : c'.length = c.length)
    (h : errorCodes (c ++ d) = errorCodes (c' ++ d')) : errorCodes c = errorCodes c' := by
  rw [errorCodes_left c d, errorCodes_left c' d', h, hlen]

theorem forall₂_split {c c' d d' : List Token} (hlen : c'.length = c.length)
    (h : List.Forall₂ SameToken (c ++ d) (c' ++ d')) :
    List.Forall₂ SameToken c c' ∧ List.Forall₂ SameToken d d' := by
  have htake := List.forall₂_take_append (c ++ d) c' d' h
  have hdrop := List.forall₂_drop_append (c ++ d) c' d' h
  rw [hlen, List.take_left] at htake
  rw [hlen, List.drop_left] at hdrop
  exact ⟨htake, hdrop⟩

theorem SameToken.rfl {t : Token} : SameToken t t := ⟨Eq.refl _, Eq.refl _⟩

theorem AlikeTokens.refl {l : List Token} (h : Separated l) : AlikeTokens l l where
  same := List.forall₂_same.mpr (fun _ _ => SameToken.rfl)
  separated := h
  codes := fun _ _ _ _ => rfl

theorem AlikeTokens.left {c c' d d' : List Token} (hlen : c'.length = c.length)
    (h : AlikeTokens (c ++ d) (c' ++ d')) : AlikeTokens c c' where
  same := (forall₂_split hlen h.same).1
  separated := h.separated.left
  codes := by
    intro n t ht hpage
    have hn : n < c.length := (List.getElem?_eq_some_iff.mp ht).1
    have hcodes := h.codes n t (by rw [List.getElem?_append_left hn, ht]) hpage
    rw [List.drop_append_of_le_length (by omega), List.drop_append_of_le_length (by omega)]
      at hcodes
    exact errorCodes_left_eq (by simp [hlen]) hcodes

theorem AlikeTokens.right {c c' d d' : List Token} (hlen : c'.length = c.length)
    (h : AlikeTokens (c ++ d) (c' ++ d')) : AlikeTokens d d' where
  same := (forall₂_split hlen h.same).2
  separated := h.separated.right
  codes := by
    intro n t ht hpage
    have hcodes := h.codes (c.length + n) t
      (by rw [List.getElem?_append_right (by omega)]; simpa using ht) hpage
    rw [Nat.add_assoc, ← hlen, List.drop_length_add_append, hlen,
      List.drop_length_add_append] at hcodes
    exact hcodes

theorem tokenLikeness_local : tokenLikeness.Local where
  refl := AlikeTokens.refl
  left := AlikeTokens.left
  leads := fun _ => ⟨Separated.right, AlikeTokens.right⟩

theorem pageLikeness_initial : pageLikeness.Initial where
  refl := fun h => ⟨AlikeTokens.refl h, rfl⟩
  left := fun hlen h => ⟨h.1.left hlen, errorCodes_left_eq hlen h.2⟩

theorem pageLikeness_leads (c : List Token) : pageLikeness.Leads c tokenLikeness where
  sound := Separated.right
  alike := fun hlen h => h.1.right hlen

theorem leads_pageLikeness {t : Token} (ht : t.type = .errorPage) :
    tokenLikeness.Leads [t] pageLikeness where
  sound := Separated.right
  alike := by
    intro c' d d' hlen h
    obtain ⟨t', rfl⟩ := List.length_eq_one_iff.mp hlen
    exact ⟨h.right hlen, h.codes 0 t rfl ht⟩

end FortyTwo.Webserv
