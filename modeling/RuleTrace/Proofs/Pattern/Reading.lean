import RuleTrace.Pattern.Basic
import RuleTrace.Proofs.Pattern.Parts
import RuleTrace.Proofs.Results

/-!
# Reading a component pattern

A component pattern is read together with the boundaries written around it, so the texts meet
before they are taken apart. They are read in turn all the same, unless the component ends inside
of an escape or a comment.

* `lexemes_wrapComponent`, `lexemes_wrapComponent_cases`: the lexemes of the text with the
  boundaries, from those of the component.
* `Groups.HasOnly.addAll`: the conditions of an expression are those of its lexemes.
* `Groups.Prepended.addAll`: without an outer bar, the lexemes after a piece make up a sequence that
  starts with it.
-/

namespace RuleTrace

/-! ## Lexemes -/

namespace LexState

theorem read_cons_eq_ok {s last : LexState} {c : Char} {t : Text} {ls : List Lexeme} :
    s.read (c :: t) = .ok (last, ls) ↔ ∃ next l m,
      s.step c = .ok (next, l) ∧ next.read t = .ok (last, m) ∧ ls = l ++ m := by
  simp only [read, bind_eq_ok, Prod.exists, pure, Except.pure, Except.ok.injEq, Prod.mk.injEq]
  constructor
  · rintro ⟨next, l, hc, last', m, ht, rfl, rfl⟩
    exact ⟨next, l, m, hc, ht, rfl⟩
  · rintro ⟨next, l, m, hc, ht, rfl⟩
    exact ⟨next, l, hc, last, m, ht, rfl, rfl⟩

/-- Two texts in a row are read one after the other. -/
theorem read_append_eq_ok {s last : LexState} {t u : Text} {ls : List Lexeme} :
    s.read (t ++ u) = .ok (last, ls) ↔ ∃ next l m,
      s.read t = .ok (next, l) ∧ next.read u = .ok (last, m) ∧ ls = l ++ m := by
  induction t generalizing s ls with
  | nil =>
    constructor
    · intro h
      exact ⟨s, [], ls, rfl, h, rfl⟩
    · rintro ⟨next, l, m, h, hu, rfl⟩
      cases h
      exact hu
  | cons c t ih =>
    rw [List.cons_append, read_cons_eq_ok]
    constructor
    · rintro ⟨next, l, m, hc, h, rfl⟩
      obtain ⟨next', l', m', ht, hu, rfl⟩ := ih.1 h
      exact ⟨next', l ++ l', m', read_cons_eq_ok.2 ⟨next, l, l', hc, ht, rfl⟩, hu,
        (List.append_assoc ..).symm⟩
    · rintro ⟨next, l, m, h, hu, rfl⟩
      obtain ⟨next', l', m', hc, ht, rfl⟩ := read_cons_eq_ok.1 h
      exact ⟨next', l', m' ++ m, hc, ih.2 ⟨next, m', m, ht, hu, rfl⟩, List.append_assoc ..⟩

/-- An opening parenthesis completes what the end of the text would. -/
theorem step_opening {s : LexState} {ls : List Lexeme} (h : s.finish = .ok ls) :
    s.step '(' = .ok (.opened, ls) := by
  cases s with
  | ground | opened =>
    cases h
    rfl
  | repeated least most =>
    cases h
    rfl
  | bounds low high =>
    cases h
    simp [step, stepBounds, stepAfter, stepGround, Char.isDigit]
  | escape | extension | comment | set => cases h

/-- A set goes on until its closing bracket. -/
theorem step_set {s : CharSet} {place : SetPlace} {c : Char} {next : LexState} {ls : List Lexeme}
    (hc : c ≠ ']') (h : (set s place).step c = .ok (next, ls)) :
    ∃ s' place', next = set s' place' := by
  have hmember : ∀ s, ∃ s' place', stepMember s c = set s' place' := fun s => by
    unfold stepMember
    split <;> exact ⟨_, _, rfl⟩
  cases place with
  | caret =>
    rw [step, stepSet] at h
    split at h <;> cases h
    · exact ⟨_, _, rfl⟩
    · exact hmember s
  | first =>
    cases h
    exact hmember s
  | next =>
    rw [step, stepSet, stepNext, if_neg hc] at h
    cases h
    exact hmember s
  | member m =>
    rw [step, stepSet, stepNext, if_neg hc] at h
    split at h <;> cases h
    · exact ⟨_, _, rfl⟩
    · exact hmember _
  | escape =>
    obtain ⟨m, -, h⟩ := map_eq_ok.1 h
    cases h
    exact ⟨_, _, rfl⟩
  | dash m =>
    rw [step, stepSet, if_neg hc] at h
    split at h
    · cases h
      exact ⟨_, _, rfl⟩
    · obtain ⟨m', -, h⟩ := map_eq_ok.1 h
      cases h
      exact ⟨_, _, rfl⟩
  | dashEscape m =>
    obtain ⟨last, -, h⟩ := bind_eq_ok.1 h
    obtain ⟨m', -, h⟩ := map_eq_ok.1 h
    cases h
    exact ⟨_, _, rfl⟩

theorem read_set {s : CharSet} {place : SetPlace} {t : Text} {last : LexState} {ls : List Lexeme}
    (ht : ']' ∉ t) (h : (set s place).read t = .ok (last, ls)) :
    ∃ s' place', last = set s' place' := by
  induction t generalizing s place ls with
  | nil =>
    cases h
    exact ⟨s, place, rfl⟩
  | cons c t ih =>
    obtain ⟨next, l, m, hc, hr, -⟩ := read_cons_eq_ok.1 h
    obtain ⟨s', place', rfl⟩ := step_set (fun e => ht (e ▸ List.mem_cons_self)) hc
    exact ih (fun hm => ht (List.mem_cons_of_mem c hm)) hr

end LexState

theorem lexemes_eq_ok {t : Text} {ls : List Lexeme} :
    lexemes t = .ok ls ↔ ∃ last l m,
      LexState.ground.read t = .ok (last, l) ∧ last.finish = .ok m ∧ ls = l ++ m := by
  simp only [lexemes, bind_eq_ok, Prod.exists, pure, Except.pure, Except.ok.injEq]
  constructor
  · rintro ⟨last, l, ht, m, hm, rfl⟩
    exact ⟨last, l, m, ht, hm, rfl⟩
  · rintro ⟨last, l, m, ht, hm, rfl⟩
    exact ⟨last, l, ht, m, hm, rfl⟩

/-- The lexemes in front of a component pattern. -/
def openLexemes : List Lexeme :=
  [.opening false, .anchor .start, .bar, .literal '/', .closing]

/-- The lexemes after a component pattern. -/
def closeLexemes : List Lexeme :=
  [.opening false, .literal '/', .bar, .anchor .lineStop, .closing]

theorem read_openLexemes : LexState.ground.read "(^|/)".toList = .ok (.ground, openLexemes) := rfl

theorem read_closeLexemes {s : LexState} {ls : List Lexeme} (h : s.finish = .ok ls) :
    s.read "(/|$)".toList = .ok (.ground, ls ++ closeLexemes) := by
  have hrest : LexState.opened.read "/|$)".toList = .ok (.ground, closeLexemes) := rfl
  exact LexState.read_cons_eq_ok.2 ⟨_, _, _, LexState.step_opening h, hrest, rfl⟩

/-- A component pattern that can be read to its end is read apart from its boundaries. -/
theorem lexemes_wrapComponent {c : Text} {ls : List Lexeme} (h : lexemes c = .ok ls) :
    lexemes (Pattern.wrapComponent c) = .ok (openLexemes ++ ls ++ closeLexemes) := by
  obtain ⟨last, l, m, hc, hm, rfl⟩ := lexemes_eq_ok.1 h
  refine lexemes_eq_ok.2 ⟨.ground, _, [], ?_, rfl, (List.append_nil _).symm⟩
  refine LexState.read_append_eq_ok.2 ⟨_, _, _,
    LexState.read_append_eq_ok.2 ⟨_, _, _, read_openLexemes, hc, rfl⟩, read_closeLexemes hm, ?_⟩
  simp only [List.append_assoc]

/-- Other component patterns that can be read with their boundaries end in an escape, or in a
comment that takes the boundary after it in. -/
theorem lexemes_wrapComponent_cases {c : Text} {all : List Lexeme}
    (h : lexemes (Pattern.wrapComponent c) = .ok all) :
    ∃ last ls, LexState.ground.read c = .ok (last, ls) ∧
      (last = .escape ∨ (last = .comment ∧ all = openLexemes ++ ls) ∨
        ∃ more, last.finish = .ok more ∧ all = openLexemes ++ (ls ++ more) ++ closeLexemes) := by
  obtain ⟨final, l, m, hread, hfinish, rfl⟩ := lexemes_eq_ok.1 h
  obtain ⟨last, l, close, hbefore, hclose, rfl⟩ := LexState.read_append_eq_ok.1 hread
  obtain ⟨next, opening, ls, hopen, hc, rfl⟩ := LexState.read_append_eq_ok.1 hbefore
  cases read_openLexemes.symm.trans hopen
  refine ⟨last, ls, hc, ?_⟩
  by_cases hlast : ∃ more, last.finish = .ok more
  · obtain ⟨more, hmore⟩ := hlast
    have := lexemes_wrapComponent (lexemes_eq_ok.2 ⟨last, ls, more, hc, hmore, rfl⟩)
    exact .inr (.inr ⟨more, hmore, Except.ok.inj (h.symm.trans this)⟩)
  · cases last with
    | escape => exact .inl rfl
    | comment =>
      have hend : LexState.comment.read "(/|$)".toList = .ok (.ground, []) := rfl
      cases hend.symm.trans hclose
      cases hfinish
      exact .inr (.inl ⟨rfl, by simp only [List.append_nil]⟩)
    | ground | repeated | opened | bounds => exact absurd ⟨_, rfl⟩ hlast
    | extension => cases hclose
    | set s place =>
      obtain ⟨s', place', rfl⟩ := LexState.read_set (by decide) hclose
      cases hfinish

/-! ## Groups -/

namespace Groups

theorem addAll_cons_eq_ok {gs gs' : Groups} {l : Lexeme} {ls : List Lexeme} :
    gs.addAll (l :: ls) = .ok gs' ↔ ∃ next, gs.add l = .ok next ∧ next.addAll ls = .ok gs' := by
  rw [addAll, bind_eq_ok]

theorem addAll_append_eq_ok {gs gs' : Groups} {ls ms : List Lexeme} :
    gs.addAll (ls ++ ms) = .ok gs' ↔
      ∃ next, gs.addAll ls = .ok next ∧ next.addAll ms = .ok gs' := by
  induction ls generalizing gs with
  | nil =>
    rw [List.nil_append]
    exact ⟨fun h => ⟨gs, rfl, h⟩, fun ⟨_, h, h'⟩ => by cases h; exact h'⟩
  | cons l ls ih =>
    simp only [List.cons_append, addAll_cons_eq_ok, ih]
    constructor
    · rintro ⟨a, ha, b, hb, hc⟩
      exact ⟨b, ⟨a, ha, hb⟩, hc⟩
    · rintro ⟨b, ⟨a, ha, hb⟩, hc⟩
      exact ⟨a, ha, b, hb, hc⟩

end Groups

/-- What the boundary in front of a component pattern means. -/
def Regex.componentStart : Regex :=
  .alt (.seq (.anchor .start) .empty) (.seq (.chars (.single '/')) .empty)

/-- What the boundary after a component pattern means. -/
def Regex.componentEnd : Regex :=
  .alt (.seq (.chars (.single '/')) .empty) (.seq (.anchor .lineStop) .empty)

namespace Groups

theorem addAll_openLexemes :
    ({} : Groups).addAll openLexemes = .ok ⟨({} : Group).push .plain .componentStart, []⟩ := rfl

theorem addAll_closeLexemes (gs : Groups) :
    gs.addAll closeLexemes = .ok { gs with inner := gs.inner.push .plain .componentEnd } := rfl

theorem regex_eq_ok {gs : Groups} {r : Regex} :
    gs.regex = .ok r ↔ gs.outer = [] ∧ r = gs.inner.regex := by
  rw [regex]
  cases gs.outer <;> simp [eq_comm]

end Groups

theorem Pattern.ofText_eq_ok {t : Text} {p : Pattern} :
    Pattern.ofText t = .ok p ↔ ∃ ls gs, lexemes t = .ok ls ∧ Groups.addAll {} ls = .ok gs ∧
      gs.outer = [] ∧ p = ⟨t, gs.inner.regex⟩ := by
  simp only [ofText, Regex.ofLexemes, bind_eq_ok, Groups.regex_eq_ok, pure, Except.pure,
    Except.ok.injEq]
  constructor
  · rintro ⟨ls, hls, r, ⟨gs, hgs, houter, rfl⟩, rfl⟩
    exact ⟨ls, gs, hls, hgs, houter, rfl⟩
  · rintro ⟨ls, gs, hls, hgs, houter, rfl⟩
    exact ⟨ls, hls, _, ⟨gs, hgs, houter, rfl⟩, rfl⟩

/-! ## The conditions of an expression -/

/-- A lexeme of an expression without atomic parts whose conditions are all of some kind. -/
def Lexeme.HasOnly (p : Anchor → Prop) : Lexeme → Prop
  | .anchor a => p a
  | .opening isAtomic => isAtomic = false
  | .times _ _ mode => mode ≠ .possessive
  | .chars _ | .closing | .bar => True

section
variable {p : Anchor → Prop}

/-- An open group of such an expression. -/
structure Group.HasOnly (p : Anchor → Prop) (g : Group) : Prop where
  plain : g.isAtomic = false
  earlier : ∀ r ∈ g.earlier, r.HasOnly p
  pieces : ∀ q ∈ g.pieces, q.regex.HasOnly p

namespace Group.HasOnly

theorem empty : ({} : Group).HasOnly p :=
  ⟨rfl, nofun, nofun⟩

variable {g : Group} (h : g.HasOnly p)
include h

theorem push {kind : PieceKind} {r : Regex} (hr : r.HasOnly p) : (g.push kind r).HasOnly p :=
  ⟨h.plain, h.earlier, List.forall_mem_cons.2 ⟨hr, h.pieces⟩⟩

theorem sequence : g.sequence.HasOnly p := by
  have hfold : ∀ (ps : List Piece) (r : Regex), (∀ q ∈ ps, q.regex.HasOnly p) → r.HasOnly p →
      (ps.foldl (fun r q => .seq q.regex r) r).HasOnly p := by
    intro ps
    induction ps with
    | nil => exact fun _ _ hr => hr
    | cons q ps ih =>
      intro r hps hr
      obtain ⟨hq, hps⟩ := List.forall_mem_cons.1 hps
      exact ih _ hps ⟨hq, hr⟩
  exact hfold _ _ h.pieces trivial

theorem alternatives : g.alternatives.HasOnly p := by
  rw [Group.alternatives]
  split
  · exact h.sequence
  · next r hr => exact ⟨h.earlier r hr, h.sequence⟩

theorem regex : g.regex.HasOnly p := by
  rw [Group.regex, h.plain]
  exact h.alternatives

theorem split : g.split.HasOnly p := by
  refine ⟨h.plain, fun r hr => ?_, nofun⟩
  cases hr
  exact h.alternatives

theorem repeatLast {least : Nat} {most : Option Nat} {mode : RepeatMode} {g' : Group}
    (hmode : mode ≠ .possessive) (hg : g.repeatLast least most mode = .ok g') :
    g'.HasOnly p := by
  rw [Group.repeatLast] at hg
  split at hg
  · cases hg
  · next q ps hps =>
    obtain ⟨hq, hps⟩ := List.forall_mem_cons.1 (hps ▸ h.pieces)
    split at hg <;> cases hg
    refine ⟨h.plain, h.earlier, List.forall_mem_cons.2 ⟨?_, hps⟩⟩
    cases mode with
    | eager | lazy => exact hq
    | possessive => exact absurd rfl hmode

end Group.HasOnly

/-- The open groups of such an expression. -/
structure Groups.HasOnly (p : Anchor → Prop) (gs : Groups) : Prop where
  inner : gs.inner.HasOnly p
  outer : ∀ g ∈ gs.outer, g.HasOnly p

namespace Groups.HasOnly

theorem empty : ({} : Groups).HasOnly p :=
  ⟨.empty, fun _ h => by cases h⟩

theorem add {gs gs' : Groups} (h : gs.HasOnly p) {l : Lexeme} (hl : l.HasOnly p)
    (ha : gs.add l = .ok gs') : gs'.HasOnly p := by
  cases l with
  | chars set =>
    cases ha
    exact ⟨h.inner.push trivial, h.outer⟩
  | anchor a =>
    cases ha
    exact ⟨h.inner.push hl, h.outer⟩
  | opening isAtomic =>
    cases ha
    exact ⟨⟨hl, nofun, nofun⟩, List.forall_mem_cons.2 ⟨h.inner, h.outer⟩⟩
  | closing =>
    rw [Groups.add] at ha
    split at ha
    · cases ha
    · next g outer houter =>
      cases ha
      obtain ⟨hg, hrest⟩ := List.forall_mem_cons.1 (houter ▸ h.outer)
      exact ⟨hg.push h.inner.regex, hrest⟩
  | bar =>
    cases ha
    exact ⟨h.inner.split, h.outer⟩
  | times least most mode =>
    rw [Groups.add] at ha
    split at ha
    · cases ha
    · obtain ⟨g, hg, rfl⟩ := map_eq_ok.1 ha
      exact ⟨h.inner.repeatLast hl hg, h.outer⟩

/-- The open groups have the conditions of the lexemes. -/
theorem addAll {gs gs' : Groups} (h : gs.HasOnly p) {ls : List Lexeme}
    (hls : ∀ l ∈ ls, l.HasOnly p) (ha : gs.addAll ls = .ok gs') : gs'.HasOnly p := by
  induction ls generalizing gs with
  | nil =>
    cases ha
    exact h
  | cons l ls ih =>
    obtain ⟨next, hl, ha⟩ := addAll_cons_eq_ok.1 ha
    obtain ⟨hfirst, hls⟩ := List.forall_mem_cons.1 hls
    exact ih (h.add hfirst hl) hls ha

end Groups.HasOnly

end

/-! ## Pieces in front -/

/-- Whether lexemes have a bar outside of their groups, a number of which are open at first. -/
def hasOuterBar : Nat → List Lexeme → Bool
  | _, [] => false
  | depth, .opening _ :: ls => hasOuterBar (depth + 1) ls
  | depth, .closing :: ls => hasOuterBar (depth - 1) ls
  | 0, .bar :: _ => true
  | depth, _ :: ls => hasOuterBar depth ls

/-- A group with pieces in front of those of its current alternative. -/
def Group.after (first : List Piece) (g : Group) : Group :=
  { g with pieces := g.pieces ++ first }

theorem Group.repeatLast_after (first : List Piece) {g g' : Group} {least : Nat}
    {most : Option Nat} {mode : RepeatMode} (h : g.repeatLast least most mode = .ok g') :
    (g.after first).repeatLast least most mode = .ok (g'.after first) ∧ g'.earlier = g.earlier := by
  obtain ⟨isAtomic, earlier, pieces⟩ := g
  cases pieces with
  | nil => cases h
  | cons q ps =>
    obtain ⟨r, kind⟩ := q
    cases kind <;> cases h
    exact ⟨rfl, rfl⟩

namespace Groups

theorem hasOuterBar_cons {gs next : Groups} {l : Lexeme} {ls : List Lexeme}
    (h : gs.add l = .ok next) (hbar : hasOuterBar gs.outer.length (l :: ls) = false) :
    (l = .bar → gs.outer ≠ []) ∧ hasOuterBar next.outer.length ls = false := by
  obtain ⟨inner, outer⟩ := gs
  cases l with
  | chars set =>
    cases h
    exact ⟨nofun, by simpa [hasOuterBar] using hbar⟩
  | anchor a =>
    cases h
    exact ⟨nofun, by simpa [hasOuterBar] using hbar⟩
  | opening isAtomic =>
    cases h
    exact ⟨nofun, hbar⟩
  | closing =>
    cases outer <;> cases h
    exact ⟨nofun, by simpa [hasOuterBar] using hbar⟩
  | bar =>
    cases h
    cases outer with
    | nil => cases hbar
    | cons g outer => exact ⟨fun _ => nofun, by simpa [hasOuterBar] using hbar⟩
  | times least most mode =>
    rw [Groups.add] at h
    split at h
    · cases h
    · obtain ⟨g, -, rfl⟩ := map_eq_ok.1 h
      exact ⟨nofun, by simpa [hasOuterBar] using hbar⟩

/-- Open groups, and the same ones with pieces in front of all that the pattern itself has. -/
inductive Prepended (first : List Piece) : Groups → Groups → Prop where
  | pattern {g : Group} : g.earlier = none → Prepended first ⟨g, []⟩ ⟨g.after first, []⟩
  | group {g h h' : Group} {outer outer' : List Group} :
    Prepended first ⟨h, outer⟩ ⟨h', outer'⟩ → Prepended first ⟨g, h :: outer⟩ ⟨g, h' :: outer'⟩

namespace Prepended

variable {first : List Piece}

theorem push {g g' : Group} {outer outer' : List Group}
    (h : Prepended first ⟨g, outer⟩ ⟨g', outer'⟩) (kind : PieceKind) (r : Regex) :
    Prepended first ⟨g.push kind r, outer⟩ ⟨g'.push kind r, outer'⟩ := by
  cases h with
  | pattern hg => exact .pattern hg
  | group h => exact .group h

theorem add {gs gs' next : Groups} (h : Prepended first gs gs') {l : Lexeme}
    (hbar : l = .bar → gs.outer ≠ []) (ha : gs.add l = .ok next) :
    ∃ next', gs'.add l = .ok next' ∧ Prepended first next next' := by
  cases l with
  | chars set =>
    cases ha
    exact ⟨_, rfl, h.push ..⟩
  | anchor a =>
    cases ha
    exact ⟨_, rfl, h.push ..⟩
  | opening isAtomic =>
    cases ha
    exact ⟨_, rfl, .group h⟩
  | closing =>
    cases h with
    | pattern => cases ha
    | group h =>
      cases ha
      exact ⟨_, rfl, h.push ..⟩
  | bar =>
    cases h with
    | pattern => exact absurd rfl (hbar rfl)
    | group h =>
      cases ha
      exact ⟨_, rfl, .group h⟩
  | times least most mode =>
    rw [Groups.add] at ha
    split at ha
    · cases ha
    · next hle =>
      obtain ⟨g, hg, rfl⟩ := map_eq_ok.1 ha
      rw [Groups.add, if_neg hle]
      cases h with
      | pattern hnone =>
        obtain ⟨hg', he⟩ := Group.repeatLast_after first hg
        exact ⟨_, map_eq_ok.2 ⟨_, hg', rfl⟩, .pattern (he.trans hnone)⟩
      | group h => exact ⟨_, map_eq_ok.2 ⟨g, hg, rfl⟩, .group h⟩

/-- Lexemes without an outer bar leave the pieces in front. -/
theorem addAll {gs gs' next : Groups} (h : Prepended first gs gs') {ls : List Lexeme}
    (hbar : hasOuterBar gs.outer.length ls = false) (ha : gs.addAll ls = .ok next) :
    ∃ next', gs'.addAll ls = .ok next' ∧ Prepended first next next' := by
  induction ls generalizing gs gs' with
  | nil =>
    cases ha
    exact ⟨gs', rfl, h⟩
  | cons l ls ih =>
    obtain ⟨mid, hl, ha⟩ := addAll_cons_eq_ok.1 ha
    obtain ⟨hhere, hrest⟩ := hasOuterBar_cons hl hbar
    obtain ⟨mid', hl', hmid⟩ := h.add hhere hl
    obtain ⟨next', ha', hnext⟩ := ih hmid hrest ha
    exact ⟨next', addAll_cons_eq_ok.2 ⟨mid', hl', ha'⟩, hnext⟩

end Prepended

end Groups

end RuleTrace
