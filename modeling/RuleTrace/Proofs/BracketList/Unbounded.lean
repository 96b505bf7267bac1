import RuleTrace.Proofs.BracketList.Reading

/-!
# The reader without bounds

The rules of the reader as procedures: they call one another without any bound on the nesting or on
the count of items, and move one place along the source. A token leaves the place behind the blanks
before it even when another character follows them; only the end of a rule that fails puts the place
back. Such procedures need not end. They are given here with a depth at which calls are given up,
and they end if some depth is enough (`Ends`).

They do end, at every place, and do what the reader with its bounds does:

* `ends_value`, `ends_items`: the procedures and the reader.
* `ends_readBy`: every rule ends, and if it fails the place is the one where it was entered.
* `ends_scanUnbounded`: a whole source is read as `scan` reads it.
-/

namespace RuleTrace.BracketList

/-- A computation with a limit on its depth ends with a result, if some limit is enough and no
greater one makes a difference. -/
def Ends {α : Type} (f : Nat → Option α) (a : α) : Prop :=
  ∃ n, ∀ m, n ≤ m → f m = some a

/-- One call takes one from the limit. -/
theorem Ends.of_succ {α : Type} {f : Nat → Option α} {a : α} (n : Nat)
    (h : ∀ m, n ≤ m → f (m + 1) = some a) : Ends f a := by
  refine ⟨n + 1, fun m hm => ?_⟩
  obtain ⟨k, rfl⟩ := Nat.exists_eq_add_of_le' (Nat.le_of_add_left_le hm)
  exact h k (Nat.le_of_add_le_add_right hm)

/-- What a procedure came to: its reports, its result if it succeeded, and the place that it left
the reader at. -/
structure Ending (α : Type) where
  reports : List Report
  result : Option α
  place : Cursor
deriving Repr

namespace Ending

variable {α : Type}

/-- The same after some reports. -/
def after (e : Ending α) (earlier : List Report) : Ending α :=
  { e with reports := earlier ++ e.reports }

/-- The end of a rule that was entered at a place: it reports, and if it failed the place is again
that one. -/
def close (e : Ending α) (rule : Rule) (c : Cursor) : Ending α :=
  let enter : Report := ⟨.enter, rule, c.offset, c.offset⟩
  match e.result with
  | some a =>
    ⟨enter :: e.reports ++ [⟨.leave .matched, rule, c.offset, e.place.offset⟩], some a, e.place⟩
  | none => ⟨enter :: e.reports ++ [⟨.leave .failed, rule, c.offset, c.offset⟩], none, c⟩

end Ending

/-! ## The procedures -/

/-- Goes behind the blanks that come next, and behind a character if it is the expected one. -/
def Cursor.token (c : Cursor) (expected : Char) : Bool × Cursor :=
  let c := c.skipBlanks
  if c.rest.head? = some expected then (true, c.advance 1) else (false, c)

/-- Reads an integer. -/
def readInt (c : Cursor) : Ending Value :=
  match c.int? with
  | some (i, c) => ⟨[], some (.int i), c⟩
  | none => ⟨[], none, c.skipBlanks⟩

/-- Reads the closing bracket after the items of a list. -/
def readClose (e : Ending (List Value)) : Ending Value :=
  match e.result with
  | none => ⟨e.reports, none, e.place⟩
  | some vs =>
    let (found, c) := e.place.token ']'
    ⟨e.reports, if found then some (.list vs) else none, c⟩

mutual

/-- Reads by a rule; none if the depth is not enough. -/
def readBy : Nat → Rule → Cursor → Option (Ending Value)
  | 0, _, _ => none
  | n + 1, .start, c => do
    let v ← readBy n .value c
    return v.close .start c
  | n + 1, .value, c => do
    let v ← readBy n .number c
    if v.result.isSome then
      return v.close .value c
    let l ← readBy n .list v.place
    return (l.after v.reports).close .value c
  | _ + 1, .number, c => return (readInt c).close .number c
  | n + 1, .list, c => do
    let (found, c₁) := c.token '['
    if !found then
      return (Ending.mk [] none c₁).close .list c
    let first ← readBy n .value c₁
    match first.result with
    | none => return (readClose ⟨first.reports, some [], first.place⟩).close .list c
    | some v =>
      let items ← readItems n [v] first.place
      return (readClose (items.after first.reports)).close .list c

/-- Reads items as long as there are commas. -/
def readItems : Nat → List Value → Cursor → Option (Ending (List Value))
  | 0, _, _ => none
  | n + 1, vs, c => do
    let (found, c₁) := c.token ','
    if !found then
      return ⟨[], some vs, c₁⟩
    let item ← readBy n .value c₁
    match item.result with
    | none => return ⟨item.reports, none, item.place⟩
    | some v =>
      let items ← readItems n (vs ++ [v]) item.place
      return items.after item.reports

end

/-- Reads a whole source; none if the depth is not enough. -/
def scanUnbounded (depth : Nat) (source : Text) : Option Reading := do
  let e ← readBy depth .start ⟨0, source⟩
  let c := e.place.skipBlanks
  return ⟨e.reports, if c.rest.isEmpty then e.result else none, c.offset⟩

/-! ## Tokens -/

section
variable {c c' : Cursor} {e : Char}

theorem Cursor.token_of_char?_eq_some (h : c.char? e = some c') : c.token e = (true, c') := by
  simp only [char?] at h
  simp only [token]
  split at h
  · next hhead => rw [if_pos hhead, Option.some.inj h]
  · cases h

theorem Cursor.token_of_char?_eq_none (h : c.char? e = none) :
    c.token e = (false, c.skipBlanks) := by
  simp only [char?] at h
  simp only [token]
  split at h
  · cases h
  · next hhead => rw [if_neg hhead]

/-- Behind blanks there are no more of them. -/
theorem Cursor.skipBlanks_skipBlanks (c : Cursor) : c.skipBlanks.skipBlanks = c.skipBlanks := by
  obtain ⟨-, -, hstop⟩ := c.reads_skipBlanks
  exact skipBlanks_eq (b := ⟨[], by simp⟩) ⟨rfl, rfl⟩ hstop

theorem Cursor.char?_skipBlanks (c : Cursor) (e : Char) : c.skipBlanks.char? e = c.char? e := by
  rw [char?, skipBlanks_skipBlanks, char?]

theorem Cursor.length_rest_of_char? (he : isBlank e = false) (h : c.char? e = some c') :
    c'.rest.length < c.rest.length := by
  obtain ⟨b, hr⟩ := (char?_eq_some_iff he).1 h
  have := hr.length
  rw [List.length_append, List.length_singleton] at this
  omega

end

/-! ## The procedures and the reader -/

/-- A procedure does what a run does: if the run succeeds they are at the same place. -/
structure Ending.Does {α : Type} (e : Ending α) (r : Run α) : Prop where
  reports : e.reports = r.reports
  result : e.result = r.result.map Prod.fst
  place : ∀ a c, r.result = some (a, c) → e.place = c

/-- A run from a place as the end of a procedure. -/
def Run.ending {α : Type} (r : Run α) (c : Cursor) : Ending α :=
  ⟨r.reports, r.result.map Prod.fst, (r.result.map Prod.snd).getD c⟩

section
variable {α : Type} {c : Cursor}

theorem Run.ending_does (r : Run α) (c : Cursor) : (r.ending c).Does r where
  reports := rfl
  result := rfl
  place a c' h := by rw [Run.ending, h]; rfl

/-- What a rule adds to its body. -/
theorem Ending.Does.close {rule : Rule} {body : Cursor → Run α} {e : Ending α}
    (h : e.Does (body c)) : e.close rule c = (called rule c body).ending c := by
  have hresult := h.result
  cases hr : (body c).result with
  | none =>
    rw [hr] at hresult
    simp only [Ending.close, Run.ending, called, h.reports, hresult, hr]
    rfl
  | some r =>
    rw [hr] at hresult
    simp only [Ending.close, Run.ending, called, h.reports, hresult, hr, h.place r.1 r.2 hr,
      Option.map_some, Option.getD_some]

theorem Run.ending_of_result_eq_none {r : Run α} (h : r.result = none) :
    r.ending c = ⟨r.reports, none, c⟩ := by
  rw [Run.ending, h]
  rfl

theorem Run.ending_of_result_eq_some {r : Run α} {a : α} {c' : Cursor}
    (h : r.result = some (a, c')) :
    r.ending c = ⟨r.reports, some a, c'⟩ := by
  rw [Run.ending, h]
  rfl

end

theorem ends_number (c : Cursor) : Ends (readBy · .number c) ((number c).ending c) := by
  refine .of_succ 0 fun m _ => ?_
  rw [readBy]
  refine congrArg some (Ending.Does.close (α := Value) ?_)
  cases h : c.int? with
  | none => exact ⟨by rw [readInt, h]; rfl, by rw [readInt, h]; rfl, nofun⟩
  | some r =>
    refine ⟨by rw [readInt, h]; rfl, by rw [readInt, h]; rfl, fun a c' ha => ?_⟩
    obtain ⟨-, rfl⟩ := Prod.mk.inj (Option.some.inj ha)
    rw [readInt, h]

/-- The closing bracket after items. -/
theorem readClose_does {e : Ending (List Value)} {r : Run (List Value)}
    (hreports : e.reports = r.reports) (hresult : e.result = r.result.map (·.1))
    (hplace : ∀ vs c, r.result = some (vs, c) → e.place.skipBlanks = c.skipBlanks) :
    (readClose e).Does (r.bind fun vs c =>
      match c.char? ']' with
      | none => .fail
      | some c => .done (.list vs) c) := by
  cases hr : r.result with
  | none =>
    rw [hr] at hresult
    simp only [readClose, hresult, Run.bind, hr]
    exact ⟨hreports, rfl, fun v c' hv => by cases hv⟩
  | some p =>
    obtain ⟨vs, c⟩ := p
    rw [hr] at hresult
    have hchar : e.place.char? ']' = c.char? ']' := by
      rw [← e.place.char?_skipBlanks, hplace vs c hr, c.char?_skipBlanks]
    simp only [readClose, hresult, Run.bind, hr]
    cases hclose : c.char? ']' with
    | none =>
      rw [hclose] at hchar
      simp only [Cursor.token_of_char?_eq_none hchar]
      exact ⟨by simp [hreports, Run.fail], rfl, fun v c' hv => by cases hv⟩
    | some c₁ =>
      rw [hclose] at hchar
      simp only [Cursor.token_of_char?_eq_some hchar]
      refine ⟨by simp [hreports, Run.done], rfl, fun v c' hv => ?_⟩
      obtain ⟨-, rfl⟩ := Prod.mk.inj (Option.some.inj hv)
      rfl

section
variable {n : Nat} (hvalue : ∀ {c : Cursor}, c.rest.length < n →
  Ends (readBy · .value c) ((valueWithin n c).ending c))
include hvalue

/-- The items after the first ones. The procedure is behind the blanks that come after them. -/
theorem ends_items {k : Nat} {c : Cursor} (hn : c.rest.length < n) (hk : c.rest.length < k)
    (vs : List Value) : ∃ e, Ends (readItems · vs c) e ∧
      e.reports = (moreItems (valueWithin n) k c).reports ∧
      e.result = (moreItems (valueWithin n) k c).result.map (vs ++ ·.1) ∧
      ∀ ws c', (moreItems (valueWithin n) k c).result = some (ws, c') →
        e.place = c'.skipBlanks := by
  induction k generalizing c vs with
  | zero => omega
  | succ k ih =>
    rw [moreItems]
    cases hcomma : c.char? ',' with
    | none =>
      refine ⟨⟨[], some vs, c.skipBlanks⟩, .of_succ 0 fun m _ => ?_, rfl, by simp [Run.done],
        fun ws c' hws => ?_⟩
      · rw [readItems, Cursor.token_of_char?_eq_none hcomma]
        rfl
      · obtain ⟨-, rfl⟩ := Prod.mk.inj (Option.some.inj hws)
        rfl
    | some c₁ =>
      have hlt := Cursor.length_rest_of_char? rfl hcomma
      obtain ⟨depth, hdepth⟩ := hvalue (show c₁.rest.length < n by omega)
      cases hitem : (valueWithin n c₁).result with
      | none =>
        rw [Run.ending_of_result_eq_none hitem] at hdepth
        simp only [Run.bind, hitem]
        refine ⟨⟨(valueWithin n c₁).reports, none, c₁⟩, .of_succ depth fun m hm => ?_, rfl, rfl,
          fun ws c' hws => by cases hws⟩
        simp only [readItems, Cursor.token_of_char?_eq_some hcomma, hdepth m hm, Bool.not_true,
          Bool.false_eq_true, if_false, Option.bind_eq_bind, Option.bind_some]
        rfl
      | some r =>
        obtain ⟨v, c₂⟩ := r
        obtain ⟨d, hd, -⟩ := derivation_of_valueWithin n _ _ _ hitem
        have hle := hd.length
        obtain ⟨e, ⟨depth', hdepth'⟩, hreports, hresult, hplace⟩ :=
          ih (c := c₂) (by omega) (by omega) (vs ++ [v])
        rw [Run.ending_of_result_eq_some hitem] at hdepth
        simp only [Run.bind_cons hitem]
        refine ⟨e.after (valueWithin n c₁).reports, .of_succ (max depth depth') fun m hm => ?_, ?_,
          ?_, fun ws c' hws => ?_⟩
        · simp only [readItems, Cursor.token_of_char?_eq_some hcomma, hdepth m (by omega),
            hdepth' m (by omega), Bool.not_true, Bool.false_eq_true, if_false, Option.bind_eq_bind,
            Option.bind_some]
          rfl
        · rw [Ending.after, hreports]
        · rw [Ending.after, hresult, Option.map_map]
          congr 1
          funext p
          simp
        · obtain ⟨⟨us, c₃⟩, hus, heq⟩ := Option.map_eq_some_iff.1 hws
          obtain ⟨-, rfl⟩ := Prod.mk.inj heq
          exact hplace us c₃ hus

theorem ends_list {c : Cursor} (hn : c.rest.length ≤ n) :
    Ends (readBy · .list c) ((list (valueWithin n) c).ending c) := by
  cases hopen : c.char? '[' with
  | none =>
    refine .of_succ 0 fun m _ => ?_
    rw [readBy, Cursor.token_of_char?_eq_none hopen]
    refine congrArg some (Ending.Does.close ?_)
    rw [hopen]
    exact ⟨rfl, rfl, nofun⟩
  | some c₁ =>
    have hlt := Cursor.length_rest_of_char? rfl hopen
    obtain ⟨depth, hdepth⟩ := hvalue (show c₁.rest.length < n by omega)
    cases hitem : (valueWithin n c₁).result with
    | none =>
      rw [Run.ending_of_result_eq_none hitem] at hdepth
      refine .of_succ depth fun m hm => ?_
      simp only [readBy, Cursor.token_of_char?_eq_some hopen, hdepth m hm, Bool.not_true,
        Bool.false_eq_true, if_false, Option.bind_eq_bind, Option.bind_some]
      refine congrArg some (Ending.Does.close ?_)
      simp only [hopen]
      refine readClose_does ?_ ?_ fun vs c' hvs => ?_
      · rw [items_of_result_eq_none hitem]
      · rw [items_of_result_eq_none hitem]
        rfl
      · rw [items_of_result_eq_none hitem] at hvs
        obtain ⟨-, rfl⟩ := Prod.mk.inj (Option.some.inj hvs)
        rfl
    | some r =>
      obtain ⟨v, c₂⟩ := r
      obtain ⟨d, hd, -⟩ := derivation_of_valueWithin n _ _ _ hitem
      have hle := hd.length
      rw [Run.ending_of_result_eq_some hitem] at hdepth
      obtain ⟨e, ⟨depth', hdepth'⟩, hreports, hresult, hplace⟩ :=
        ends_items @hvalue (c := c₂) (k := c₂.rest.length + 1) (by omega) (by omega) [v]
      have hitems := (items_of_result_eq_some hitem).trans (Run.bind_cons hitem _)
      refine .of_succ (max depth depth') fun m hm => ?_
      simp only [readBy, Cursor.token_of_char?_eq_some hopen, hdepth m (by omega),
        hdepth' m (by omega), Bool.not_true, Bool.false_eq_true, if_false, Option.bind_eq_bind,
        Option.bind_some]
      refine congrArg some (Ending.Does.close ?_)
      simp only [hopen]
      refine readClose_does ?_ ?_ fun vs c' hvs => ?_
      · rw [hitems, Ending.after, hreports]
      · rw [hitems, Ending.after, hresult, Option.map_map]
        rfl
      · rw [hitems] at hvs
        obtain ⟨⟨us, c₃⟩, hus, heq⟩ := Option.map_eq_some_iff.1 hvs
        obtain ⟨-, rfl⟩ := Prod.mk.inj heq
        rw [Ending.after, hplace us c₃ hus, Cursor.skipBlanks_skipBlanks]

end

/-- A value with a bound on the nesting that is greater than the length of the text. -/
theorem ends_value {n : Nat} {c : Cursor} (hn : c.rest.length < n) :
    Ends (readBy · .value c) ((valueWithin n c).ending c) := by
  induction n generalizing c with
  | zero => omega
  | succ n ih =>
    obtain ⟨depth, hdepth⟩ := ends_number c
    cases hnumber : (number c).result with
    | some r =>
      have hsome : ((number c).ending c).result.isSome = true := by
        rw [Run.ending, hnumber]
        rfl
      refine .of_succ depth fun m hm => ?_
      simp only [readBy, hdepth m hm, Option.bind_eq_bind, Option.bind_some]
      rw [if_pos hsome]
      refine congrArg some (Ending.Does.close ?_)
      simp only [Run.orElse, hnumber]
      exact Run.ending_does _ c
    | none =>
      obtain ⟨depth', hdepth'⟩ := ends_list @ih (show c.rest.length ≤ n by omega)
      rw [Run.ending_of_result_eq_none hnumber] at hdepth
      refine .of_succ (max depth depth') fun m hm => ?_
      simp only [readBy, hdepth m (by omega), hdepth' m (by omega), Option.isSome_none,
        Bool.false_eq_true, if_false, Option.bind_eq_bind, Option.bind_some]
      refine congrArg some (Ending.Does.close ?_)
      simp only [Run.orElse, hnumber]
      exact ⟨rfl, rfl, (Run.ending_does _ c).place⟩

/-! ## Termination -/

theorem ends_start (c : Cursor) :
    Ends (readBy · .start c) ((called .start c value).ending c) := by
  obtain ⟨depth, hdepth⟩ := ends_value (Nat.lt_succ_self c.rest.length)
  refine .of_succ depth fun m hm => ?_
  simp only [readBy, hdepth m hm, Option.bind_eq_bind, Option.bind_some]
  exact congrArg some (Run.ending_does _ c).close

/-- Every rule ends at every place, as a run of the reader. -/
theorem exists_ends (rule : Rule) (c : Cursor) :
    ∃ r : Run Value, Ends (readBy · rule c) (r.ending c) := by
  cases rule with
  | start => exact ⟨_, ends_start c⟩
  | value => exact ⟨_, ends_value (Nat.lt_succ_self c.rest.length)⟩
  | number => exact ⟨_, ends_number c⟩
  | list => exact ⟨_, ends_list (fun h => ends_value h) (Nat.le_refl c.rest.length)⟩

/-- Every rule ends at every place, and if it fails it leaves the reader there. -/
theorem ends_readBy (rule : Rule) (c : Cursor) :
    ∃ e, Ends (readBy · rule c) e ∧ (e.result = none → e.place = c) := by
  obtain ⟨r, hr⟩ := exists_ends rule c
  refine ⟨_, hr, fun hnone => ?_⟩
  rw [Run.ending, Option.map_eq_none_iff] at hnone
  rw [Run.ending_of_result_eq_none hnone]

/-- A whole source is read as with the bounds. -/
theorem ends_scanUnbounded (source : Text) : Ends (scanUnbounded · source) (scan source) := by
  obtain ⟨depth, hdepth⟩ := ends_start ⟨0, source⟩
  refine ⟨depth, fun m hm => ?_⟩
  simp only [scanUnbounded, hdepth m hm, scan]
  have hcalled : (called .start ⟨0, source⟩ value).result = (value ⟨0, source⟩).result := rfl
  cases hv : (value ⟨0, source⟩).result with
  | none =>
    rw [Run.ending_of_result_eq_none (hcalled.trans hv)]
    simp [hcalled, hv]
  | some r =>
    rw [Run.ending_of_result_eq_some (hcalled.trans hv)]
    simp [hcalled, hv]

end RuleTrace.BracketList
