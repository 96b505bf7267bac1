import Mathlib.Tactic.SplitIfs
import RuleTrace.Style.Escape

/-!
# Color codes in text

A color code is an escape sequence whose final letter is `m`. `stripColors` goes through a text from
its start and leaves out each color code that it comes to; other sequences stay.

* `stripColors_eq`: what stays are the tokens of the text that are no color codes.
* `stripColors_unlines`: lines can be taken one by one.
-/

namespace RuleTrace

/-- What follows the color code that a text starts with, if it starts with one. -/
def afterColor? : Text → Option Text
  | c :: d :: t =>
    if c = escapeChar ∧ d = '[' then
      match t.dropWhile Token.isParameter with
      | 'm' :: rest => some rest
      | _ => none
    else none
  | _ => none

theorem afterColor?_eq_some {t rest : Text} :
    afterColor? t = some rest ↔
      ∃ ps, (∀ c ∈ ps, Token.isParameter c = true) ∧ t = escapeSequence ps 'm' ++ rest := by
  constructor
  · intro h
    unfold afterColor? at h
    split at h
    · next c d t =>
      split_ifs at h with hopen
      obtain ⟨rfl, rfl⟩ := hopen
      split at h
      · next after hdrop =>
        cases h
        refine ⟨t.takeWhile Token.isParameter, List.all_eq_true.1 List.all_takeWhile, ?_⟩
        have hsplit := t.takeWhile_append_dropWhile (p := Token.isParameter)
        rw [hdrop] at hsplit
        simp [escapeSequence, hsplit]
      · cases h
    · cases h
  · rintro ⟨ps, hps, rfl⟩
    have hdrop : (ps ++ 'm' :: rest).dropWhile Token.isParameter = 'm' :: rest := by
      rw [List.dropWhile_append_of_pos hps]
      rfl
    simp [afterColor?, escapeSequence, hdrop]

theorem length_afterColor? {t rest : Text} (h : afterColor? t = some rest) :
    rest.length < t.length := by
  obtain ⟨ps, -, rfl⟩ := afterColor?_eq_some.1 h
  simp [escapeSequence]
  omega

/-- A text without its color codes. -/
def stripColors : Text → Text
  | [] => []
  | c :: t =>
    match _h : afterColor? (c :: t) with
    | some rest => stripColors rest
    | none => c :: stripColors t
termination_by t => t.length
decreasing_by
  · exact length_afterColor? _h
  · exact Nat.lt_succ_self t.length

/-! ## Tokens -/

namespace Token

/-- The text of a token, none for a color code. -/
def uncolored : Token → Text
  | .sequence _ 'm' => []
  | token => token.text

/-- The parameters and the final letter that were split off came next. -/
theorem of_body?_eq_some {ts rest : List Token} {ps : Text} {final : Char}
    (h : body? ts = some (ps, final, rest)) :
    (∀ c ∈ ps, isParameter c = true) ∧ final.isAlpha = true ∧
      ts = ps.map .char ++ .char final :: rest := by
  induction ts generalizing ps with
  | nil => cases h
  | cons token ts ih =>
    cases token with
    | sequence => cases h
    | char c =>
      rw [body?] at h
      split_ifs at h with hparameter halpha
      · obtain ⟨⟨qs, _, _⟩, hbody, heq⟩ := Option.map_eq_some_iff.1 h
        cases heq
        obtain ⟨hqs, hfinal, rfl⟩ := ih hbody
        exact ⟨List.forall_mem_cons.2 ⟨hparameter, hqs⟩, hfinal, rfl⟩
      · cases h
        exact ⟨by simp, halpha, rfl⟩

/-- A character is put in front of the tokens, or it opens a sequence. -/
theorem prepend_cases (c : Char) (ts : List Token) :
    prepend c ts = .char c :: ts ∨
      ∃ ps final rest, (∀ d ∈ ps, isParameter d = true) ∧ final.isAlpha = true ∧ c = escapeChar ∧
        ts = .char '[' :: ps.map .char ++ .char final :: rest ∧
        prepend c ts = .sequence ps final :: rest := by
  unfold prepend
  split
  · next hc =>
    split
    · next ts =>
      cases hbody : body? ts with
      | none => exact .inl rfl
      | some found =>
        obtain ⟨ps, final, rest⟩ := found
        obtain ⟨hps, hfinal, rfl⟩ := of_body?_eq_some hbody
        exact .inr ⟨ps, final, rest, hps, hfinal, hc, rfl, rfl⟩
    · exact .inl rfl
  · exact .inl rfl

theorem flatMap_text_prepend (c : Char) (ts : List Token) :
    (prepend c ts).flatMap text = c :: ts.flatMap text := by
  rcases prepend_cases c ts with h | ⟨ps, final, rest, -, -, rfl, rfl, h⟩
  · rw [h]
    rfl
  · rw [h]
    simp [text, escapeSequence, List.flatMap_map]

end Token

/-- The tokens of a text make up the text. -/
theorem flatMap_text_tokens (t : Text) : (tokens t).flatMap Token.text = t := by
  induction t with
  | nil => rfl
  | cons c t ih =>
    show (Token.prepend c (tokens t)).flatMap Token.text = c :: t
    rw [Token.flatMap_text_prepend, ih]

/-- What is left of a text are its tokens that are no color codes. -/
theorem stripColors_eq (t : Text) : stripColors t = (tokens t).flatMap Token.uncolored := by
  fun_induction stripColors t with
  | case1 => rfl
  | case2 c t rest h ih =>
    obtain ⟨ps, hps, heq⟩ := afterColor?_eq_some.1 h
    rw [heq, tokens_escapeSequence_append hps (by decide) (by decide), ih]
    rfl
  | case3 c t h ih =>
    show _ = (Token.prepend c (tokens t)).flatMap Token.uncolored
    rcases Token.prepend_cases c (tokens t) with
      hchar | ⟨ps, final, rest, hps, -, rfl, hts, hsequence⟩
    · rw [hchar, ih]
      rfl
    · -- the color code would have been found at the start of the text
      have hfinal : final ≠ 'm' := by
        rintro rfl
        have htext : t = '[' :: ps ++ 'm' :: rest.flatMap Token.text := by
          rw [← flatMap_text_tokens t, hts]
          simp [Token.text, List.flatMap_map]
        have hcolor : afterColor? (escapeChar :: t) = some (rest.flatMap Token.text) :=
          afterColor?_eq_some.2 ⟨ps, hps, by simp [htext, escapeSequence]⟩
        rw [h] at hcolor
        cases hcolor
      have hkept : Token.uncolored (.sequence ps final) = escapeSequence ps final := by
        unfold Token.uncolored
        split
        · next heq => cases heq; exact absurd rfl hfinal
        · rfl
      rw [hsequence, ih, hts, List.flatMap_cons, hkept]
      simp [escapeSequence, Token.uncolored, Token.text, List.flatMap_map]

theorem stripColors_color_append {ps : Text} (hps : ∀ c ∈ ps, Token.isParameter c = true)
    (rest : Text) : stripColors (escapeSequence ps 'm' ++ rest) = stripColors rest := by
  rw [stripColors_eq, tokens_escapeSequence_append hps (by decide) (by decide), stripColors_eq]
  rfl

theorem stripColors_append_of_notMem {t : Text} (h : escapeChar ∉ t) (rest : Text) :
    stripColors (t ++ rest) = t ++ stripColors rest := by
  have ht : (t.map Token.char).flatMap Token.uncolored = t := by
    rw [List.flatMap_map]
    exact List.flatMap_singleton' t
  rw [stripColors_eq, tokens_append_of_notMem h, List.flatMap_append, ht, stripColors_eq]

/-! ## Lines -/

/-- A sequence does not go on over a newline. -/
theorem Token.body?_append_newline (ts rest : List Token) :
    body? (ts ++ .char '\n' :: rest) =
      (body? ts).map fun (ps, final, after) => (ps, final, after ++ .char '\n' :: rest) := by
  induction ts with
  | nil => rfl
  | cons token ts ih =>
    cases token with
    | sequence => rfl
    | char c =>
      simp only [List.cons_append, body?]
      split_ifs
      · rw [ih]
        cases body? ts <;> rfl
      · rfl
      · rfl

theorem Token.prepend_append_newline (c : Char) (ts rest : List Token) :
    prepend c (ts ++ .char '\n' :: rest) = prepend c ts ++ .char '\n' :: rest := by
  by_cases hc : c = escapeChar
  · subst hc
    rcases ts with _ | ⟨_ | _, ts⟩
    · rfl
    · next d =>
      by_cases hd : d = '['
      · subst hd
        simp only [prepend, if_pos, List.cons_append, body?_append_newline]
        cases body? ts <;> rfl
      · simp [prepend, hd]
    · rfl
  · simp [prepend, hc]

/-- Tokens end before a newline. -/
theorem tokens_append_newline (t rest : Text) :
    tokens (t ++ '\n' :: rest) = tokens t ++ .char '\n' :: tokens rest := by
  induction t with
  | nil => rfl
  | cons c t ih =>
    show Token.prepend c (tokens (t ++ '\n' :: rest)) = Token.prepend c (tokens t) ++ _
    rw [ih, Token.prepend_append_newline]

/-- The lines of a text lose their color codes one by one. -/
theorem stripColors_unlines (ls : List Text) :
    stripColors (Text.unlines ls) = Text.unlines (ls.map stripColors) := by
  fun_induction Text.unlines ls with
  | case1 => simp [Text.unlines, stripColors]
  | case2 line => rfl
  | case3 line rest hrest ih =>
    obtain ⟨next, others, rfl⟩ := List.exists_cons_of_ne_nil hrest
    rw [stripColors_eq, tokens_append_newline, List.flatMap_append, List.flatMap_cons,
      ← stripColors_eq, ← stripColors_eq, ih]
    rfl

end RuleTrace
