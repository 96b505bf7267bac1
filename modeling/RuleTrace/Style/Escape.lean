import RuleTrace.Style.Basic

/-!
# Escape sequences in text

A terminal text is read as a list of tokens: escape sequences, and single characters for all
else. A sequence is the escape character, `[`, a run of digits and semicolons, and an ASCII
letter. An escape character that opens no complete sequence is a character like any other.

The reading goes from the end of the text to its front (`Token.prepend`), so that it distributes
over what is written in front of a text:

* `tokens_escapeSequence_append`: a sequence is read back whatever follows it;
* `tokens_append_of_notMem`: so is text without escape characters.
-/

namespace RuleTrace

/-- A unit of terminal text. -/
inductive Token where
  | char (c : Char)
  | sequence (parameters : Text) (final : Char)
deriving DecidableEq, Repr

namespace Token

/-- The text of a token. -/
def text : Token → Text
  | .char c => [c]
  | .sequence parameters final => escapeSequence parameters final

/-- Whether a character can be among the parameters of a sequence. -/
def isParameter (c : Char) : Bool :=
  c.isDigit || c == ';'

/-- Splits off the parameters and the final letter of a sequence, if they come next. -/
def body? : List Token → Option (Text × Char × List Token)
  | .char c :: ts =>
    if isParameter c then (body? ts).map fun (ps, final, rest) => (c :: ps, final, rest)
    else if c.isAlpha then some ([], c, ts)
    else none
  | _ => none

/-- The tokens of a text with one more character in front of it. -/
def prepend (c : Char) (ts : List Token) : List Token :=
  if c = escapeChar then
    match ts with
    | .char '[' :: ts' =>
      match body? ts' with
      | some (ps, final, rest) => .sequence ps final :: rest
      | none => .char c :: ts
    | _ => .char c :: ts
  else .char c :: ts

end Token

/-- The tokens of a text. -/
def tokens (t : Text) : List Token :=
  t.foldr Token.prepend []

/-- A text without its escape sequences. -/
def stripEscapes (t : Text) : Text :=
  (tokens t).flatMap fun
    | .char c => [c]
    | .sequence _ _ => []

/-! ## What reading gives back -/

theorem Token.prepend_of_ne {c : Char} (h : c ≠ escapeChar) (ts : List Token) :
    Token.prepend c ts = .char c :: ts :=
  if_neg h

/-- Text without escape characters is read as its characters, whatever follows it. -/
theorem tokens_append_of_notMem {t : Text} (h : escapeChar ∉ t) (rest : Text) :
    tokens (t ++ rest) = t.map .char ++ tokens rest := by
  induction t with
  | nil => rfl
  | cons c t ih =>
    have hc : c ≠ escapeChar := fun e => h (e ▸ List.mem_cons_self)
    have ht := ih fun m => h (List.mem_cons_of_mem c m)
    change Token.prepend c (tokens (t ++ rest)) = .char c :: (t.map .char ++ tokens rest)
    rw [ht, Token.prepend_of_ne hc]

theorem Token.body?_map_char {ps : Text} (hps : ∀ c ∈ ps, isParameter c = true) {final : Char}
    (hf : final.isAlpha = true) (hf' : isParameter final = false) (rest : List Token) :
    body? (ps.map .char ++ .char final :: rest) = some (ps, final, rest) := by
  induction ps with
  | nil => simp [body?, hf, hf']
  | cons c ps ih =>
    have hc := hps c List.mem_cons_self
    have := ih fun d m => hps d (List.mem_cons_of_mem c m)
    simp [body?, hc, this]

theorem Token.ne_escapeChar_of_isParameter {c : Char} (h : isParameter c = true) :
    c ≠ escapeChar := by
  rintro rfl
  exact absurd h (by decide)

/-- A sequence is read as one token, whatever follows it. -/
theorem tokens_escapeSequence_append {ps : Text} (hps : ∀ c ∈ ps, Token.isParameter c = true)
    {final : Char} (hf : final.isAlpha = true) (hf' : Token.isParameter final = false)
    (rest : Text) :
    tokens (escapeSequence ps final ++ rest) = .sequence ps final :: tokens rest := by
  have hne : final ≠ escapeChar := by
    rintro rfl
    exact absurd hf (by decide)
  have h : escapeChar ∉ '[' :: ps ++ [final] := by
    intro m
    rcases List.mem_cons.1 m with e | m
    · exact absurd e (by decide)
    · rcases List.mem_append.1 m with m | m
      · exact Token.ne_escapeChar_of_isParameter (hps _ m) rfl
      · exact hne (List.mem_singleton.1 m).symm
  have := tokens_append_of_notMem h rest
  change Token.prepend escapeChar (tokens ('[' :: ps ++ [final] ++ rest)) = _
  rw [this]
  have hb := Token.body?_map_char hps hf hf' (tokens rest)
  simp [Token.prepend, hb]

end RuleTrace
