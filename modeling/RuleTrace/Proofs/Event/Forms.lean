import RuleTrace.Event.Raw
import RuleTrace.Proofs.Results

/-!
# Forms of an event

An event can be sent in many forms: as a unit or as a record of fields, with a proper kind or a text
for it in one of two fields, and with a proper location or the numbers of its start and its end
(`RawEvent.IsFormOf`). Reading gives back the event from each of its forms, and from nothing else.

What is no form of an event is refused by the first of some checks that it does not pass
(`EventCheck.all`).

* `RawEvent.read_eq_ok`: what is read as an event is a form of it.
* `RawEvent.reports_read`: the error of anything else is that of the first check that fails.
-/

namespace RuleTrace

/-! ## Forms -/

/-- The texts for a kind: its name, and its name after the word that some parsers put in front. -/
def EventKind.spellings (k : EventKind) : List Text :=
  [k.name, "rule.".toList ++ k.name]

/-- Whether a text is one for some kind. -/
def EventKind.isSpelling (t : Text) : Bool :=
  [EventKind.enter, .leave .matched, .leave .failed].any (·.spellings.contains t)

/-- What is sent for a kind: the kind itself, or a value that is shown as a text for it. -/
inductive RawKind.Names : RawKind → EventKind → Prop
  | kind (k : EventKind) : Names (.kind k) k
  | plain {v : PlainValue} {k : EventKind} (hshown : v.shown ∈ k.spellings) : Names (.plain v) k

/-- A place with all its fields. -/
def Position.toRaw (p : Position) : RawPosition :=
  ⟨some p.offset, some p.line, some p.column⟩

/-- What is sent for a location: the location itself, or the fields of its start and its end. -/
inductive RawLocation.Gives : RawLocation → Location → Prop
  | location (l : Location) : Gives (.location l) l
  | fields (l : Location) :
    Gives (.fields (some (some l.start.toRaw)) (some (some l.stop.toRaw))) l

/-- What is sent for an event: a unit, or a record with the kind in its first field for it, or in
the second one if the first one is missing or blank. -/
inductive RawEvent.IsFormOf : RawEvent → Event → Prop
  | unit {kind : RawKind} {location : RawLocation} {e : Event} (hkind : kind.Names e.kind)
    (hlocation : location.Gives e.location) : IsFormOf (.unit kind e.rule location) e
  | first {kind : RawKind} {second : Option RawKind} {location : RawLocation} {e : Event}
    (hfilled : kind.isBlank = false) (hkind : kind.Names e.kind)
    (hlocation : location.Gives e.location) :
    IsFormOf (.fields (some kind) second (some e.rule) (some location)) e
  | second {first : Option RawKind} {kind : RawKind} {location : RawLocation} {e : Event}
    (hblank : ∀ k ∈ first, k.isBlank = true) (hkind : kind.Names e.kind)
    (hlocation : location.Gives e.location) :
    IsFormOf (.fields first (some kind) (some e.rule) (some location)) e

theorem EventKind.isSpelling_iff {t : Text} : isSpelling t = true ↔ ∃ k, t ∈ spellings k := by
  simp only [isSpelling, List.any_eq_true, List.contains_iff_mem]
  refine ⟨fun ⟨k, _, hk⟩ => ⟨k, hk⟩, fun ⟨k, hk⟩ => ⟨k, ?_, hk⟩⟩
  rcases k with _ | _ | _ <;> decide

theorem EventKind.ofName?_eq_some {name : Text} {k : EventKind} :
    ofName? name = some k ↔ name = k.name := by
  refine ⟨fun h => ?_, fun h => h ▸ ofName?_name k⟩
  have hname := List.find?_some h
  exact (of_decide_eq_true hname).symm

/-- One word in front of the name of a kind does not matter. -/
theorem EventKind.ofName?_withoutRuleMark {t : Text} {k : EventKind} :
    ofName? (withoutRuleMark t) = some k ↔ t ∈ k.spellings := by
  have hplain : ¬"rule.".toList <+: k.name := by
    rcases k with _ | _ | _ <;> decide
  rw [ofName?_eq_some, withoutRuleMark, spellings, List.mem_cons, List.mem_singleton]
  split
  · next hmark =>
    obtain ⟨name, rfl⟩ := List.isPrefixOf_iff_prefix.1 hmark
    rw [List.drop_left, List.append_cancel_left_eq]
    exact ⟨.inr, fun h => h.elim (fun h => absurd (h ▸ List.prefix_append _ _) hplain) id⟩
  · next hmark =>
    refine ⟨.inl, fun h => h.elim id fun h => absurd ?_ hmark⟩
    exact List.isPrefixOf_iff_prefix.2 (h ▸ List.prefix_append _ _)

theorem RawKind.read_eq_ok {kind : RawKind} {k : EventKind} :
    kind.read = .ok k ↔ kind.Names k := by
  cases kind with
  | kind k' =>
    constructor
    · rintro ⟨⟩
      exact .kind k
    · rintro ⟨⟩
      rfl
  | plain v =>
    have hread : (RawKind.plain v).read = .ok k ↔
        EventKind.ofName? (withoutRuleMark v.shown) = some k := by
      simp only [read]
      split <;> simp_all
    rw [hread, EventKind.ofName?_withoutRuleMark]
    exact ⟨.plain, fun h => by cases h; assumption⟩

theorem field_eq_ok {α : Type} {name : Text} {value : Option α} {a : α} :
    field name value = .ok a ↔ value = some a := by
  cases value <;> simp [field]

theorem RawPosition.read_eq_ok {p : Option RawPosition} {q : Position} :
    RawPosition.read p = .ok q ↔ p = some q.toRaw := by
  cases p with
  | none => simp [read]
  | some p =>
    obtain ⟨offset, line, column⟩ := p
    simp only [read, bind_eq_ok, field_eq_ok, Position.toRaw, Option.some.injEq,
      RawPosition.mk.injEq]
    constructor
    · rintro ⟨offset, rfl, line, rfl, column, rfl, ⟨⟩⟩
      exact ⟨rfl, rfl, rfl⟩
    · rintro ⟨rfl, rfl, rfl⟩
      exact ⟨_, rfl, _, rfl, _, rfl, rfl⟩

theorem RawLocation.read_eq_ok {location : RawLocation} {l : Location} :
    location.read = .ok l ↔ location.Gives l := by
  cases location with
  | location l' =>
    constructor
    · rintro ⟨⟩
      exact .location l
    · rintro ⟨⟩
      rfl
  | null => exact ⟨nofun, nofun⟩
  | fields start stop =>
    simp only [read, bind_eq_ok, field_eq_ok, RawPosition.read_eq_ok]
    constructor
    · rintro ⟨_, rfl, _, rfl, start, rfl, stop, rfl, ⟨⟩⟩
      exact .fields ⟨start, stop⟩
    · rintro ⟨⟩
      exact ⟨_, rfl, _, rfl, _, rfl, _, rfl, rfl⟩

/-- The kind of a record is that of its first field for it, or of the second one if the first one
says nothing. -/
theorem RawKind.names_choose_iff {first second : Option RawKind} {k : EventKind} :
    (choose first second).Names k ↔
      (∃ kind, first = some kind ∧ kind.isBlank = false ∧ kind.Names k) ∨
        (∀ kind ∈ first, kind.isBlank = true) ∧ ∃ kind, second = some kind ∧ kind.Names k := by
  -- null stands for a second field that is missing, and no kind is spelled like it
  have hnull : ¬(RawKind.plain .null).Names k := by
    rintro (_ | hshown)
    revert hshown
    rcases k with _ | _ | _ <;> decide
  have hsecond : (second.getD (.plain .null)).Names k ↔
      ∃ kind, second = some kind ∧ kind.Names k := by
    cases second with
    | none => simpa using hnull
    | some kind => simp
  cases first with
  | none => simp [choose, hsecond]
  | some kind => cases hblank : kind.isBlank <;> simp [choose, hblank, hsecond]

theorem RawEvent.read_eq_ok {raw : RawEvent} {e : Event} :
    raw.read = .ok e ↔ raw.IsFormOf e := by
  cases raw with
  | unit kind rule location =>
    simp only [read, bind_eq_ok, RawKind.read_eq_ok, RawLocation.read_eq_ok]
    constructor
    · rintro ⟨k, hkind, l, hlocation, ⟨⟩⟩
      exact .unit (e := ⟨k, rule, l⟩) hkind hlocation
    · rintro ⟨hkind, hlocation⟩
      exact ⟨_, hkind, _, hlocation, rfl⟩
  | fields first second rule location =>
    simp only [read, bind_eq_ok, field_eq_ok, RawKind.read_eq_ok, RawLocation.read_eq_ok,
      RawKind.names_choose_iff]
    constructor
    · rintro ⟨rule, rfl, location, rfl, k, hkind, l, hlocation, ⟨⟩⟩
      rcases hkind with ⟨kind, rfl, hfilled, hkind⟩ | ⟨hblank, kind, rfl, hkind⟩
      · exact .first (e := ⟨k, rule, l⟩) hfilled hkind hlocation
      · exact .second (e := ⟨k, rule, l⟩) hblank hkind hlocation
    · rintro (_ | ⟨hfilled, hkind, hlocation⟩ | ⟨hblank, hkind, hlocation⟩)
      · exact ⟨_, rfl, _, rfl, _, .inl ⟨_, rfl, hfilled, hkind⟩, _, hlocation, rfl⟩
      · exact ⟨_, rfl, _, rfl, _, .inr ⟨hblank, _, rfl, hkind⟩, _, hlocation, rfl⟩

/-! ## Checks -/

/-- The places of a location. -/
inductive Part where
  | start
  | stop
deriving DecidableEq, Repr

/-- The numbers of a place. -/
inductive Coordinate where
  | offset
  | line
  | column
deriving DecidableEq, Repr

/-- What is checked of an event. -/
inductive EventCheck where
  | rule
  | location
  | kind
  | part (p : Part)
  | number (p : Part) (c : Coordinate)
deriving DecidableEq, Repr

/-- The checks in their order. -/
def EventCheck.all : List EventCheck :=
  [.rule, .location, .kind, .part .start, .part .stop,
    .number .start .offset, .number .start .line, .number .start .column,
    .number .stop .offset, .number .stop .line, .number .stop .column]

theorem EventCheck.mem_all (check : EventCheck) : check ∈ all := by
  rcases check with _ | _ | _ | (_ | _) | ⟨_ | _, _ | _ | _⟩ <;> decide

/-- A field that is missing is a fault. -/
def missing? {α : Type} (name : Text) : Option α → Option EventError
  | some _ => none
  | none => some (.missingField name)

/-- A value that is shown as no text for a kind is a fault. -/
def RawKind.fault? : RawKind → Option EventError
  | .kind _ => none
  | .plain v =>
    if EventKind.isSpelling v.shown then none
    else some (.unknownKind (withoutRuleMark v.shown))

/-- A missing number is a fault, and every number of null is. -/
def RawPosition.fault? : Option RawPosition → Coordinate → Option EventError
  | none, _ => some .nullRecord
  | some p, .offset => missing? "offset".toList p.offset
  | some p, .line => missing? "line".toList p.line
  | some p, .column => missing? "column".toList p.column

/-- A place of a location, if its fields were sent. -/
def RawLocation.part? : RawLocation → Part → Option (Option RawPosition)
  | .fields start _, .start => start
  | .fields _ stop, .stop => stop
  | _, _ => none

/-- A missing place is a fault, and every place of null is. -/
def RawLocation.fault? : RawLocation → Part → Option EventError
  | .location _, _ => none
  | .null, _ => some .nullRecord
  | .fields start _, .start => missing? "start".toList start
  | .fields _ stop, .stop => missing? "end".toList stop

/-- The fault of a number, in a place that was sent. -/
def RawLocation.numberFault? (location : RawLocation) (p : Part) (c : Coordinate) :
    Option EventError :=
  (location.part? p).bind (RawPosition.fault? · c)

namespace RawEvent

/-- What was sent for the rule. -/
def ruleSent : RawEvent → Option Text
  | .unit _ rule _ => some rule
  | .fields _ _ rule _ => rule

/-- What was sent for the location. -/
def locationSent : RawEvent → Option RawLocation
  | .unit _ _ location => some location
  | .fields _ _ _ location => location

/-- What was sent for the kind. -/
def kindSent : RawEvent → RawKind
  | .unit kind _ _ => kind
  | .fields first second _ _ => RawKind.choose first second

/-- The fault that a check finds; it finds none in what was not sent. -/
def fault? (raw : RawEvent) : EventCheck → Option EventError
  | .rule => missing? "rule".toList raw.ruleSent
  | .location => missing? "location".toList raw.locationSent
  | .kind => raw.kindSent.fault?
  | .part p => raw.locationSent.bind (·.fault? p)
  | .number p c => raw.locationSent.bind (·.numberFault? p c)

end RawEvent

/-- A computation fails with the first fault of a list, and has a value if there is none. -/
def Reports {ε α : Type} (x : Except ε α) (faults : List (Option ε)) : Prop :=
  ∀ err, x = .error err ↔ faults.findSome? id = some err

section
variable {ε α β : Type}

theorem reports_ok (a : α) : Reports (.ok a : Except ε α) [] :=
  fun _ => ⟨nofun, nofun⟩

/-- The faults of two computations one after the other. -/
theorem Reports.bind {x : Except ε α} {f : α → Except ε β} {xs fs : List (Option ε)}
    (hx : Reports x xs) (hf : ∀ a, x = .ok a → Reports (f a) fs) :
    Reports (x >>= f) (xs ++ fs) := by
  intro err
  rw [List.findSome?_append]
  cases x with
  | error e =>
    rw [(hx e).1 rfl, Option.some_or]
    change Except.error e = Except.error err ↔ some e = some err
    rw [Option.some_inj]
    exact ⟨fun h => by cases h; rfl, fun h => congrArg _ h⟩
  | ok a =>
    have hnone : xs.findSome? id = none := Option.eq_none_iff_forall_ne_some.2 fun e he =>
      nomatch (hx e).2 he
    rw [hnone, Option.none_or]
    exact hf a rfl err

theorem Reports.exists_eq_ok_iff {x : Except ε α} {xs : List (Option ε)} (hx : Reports x xs) :
    (∃ a, x = .ok a) ↔ ∀ fault ∈ xs, fault = none := by
  have hfaults : (∀ fault ∈ xs, fault = none) ↔ xs.findSome? id = none :=
    List.findSome?_eq_none_iff.symm
  rw [hfaults, Option.eq_none_iff_forall_ne_some]
  constructor
  · rintro ⟨a, rfl⟩ err herr
    cases (hx err).2 herr
  · intro hnone
    cases x with
    | ok a => exact ⟨a, rfl⟩
    | error e => exact absurd ((hx e).1 rfl) (hnone e)

end

theorem reports_field {α : Type} (name : Text) (value : Option α) :
    Reports (field name value) [missing? name value] := by
  intro err
  cases value <;> simp [field, missing?]

theorem RawKind.reports_read (kind : RawKind) : Reports kind.read [kind.fault?] := by
  intro err
  cases kind with
  | kind k => simp [read, fault?]
  | plain v =>
    cases hname : EventKind.ofName? (withoutRuleMark v.shown) with
    | some k =>
      have hspelling := EventKind.isSpelling_iff.2 ⟨k, EventKind.ofName?_withoutRuleMark.1 hname⟩
      simp [read, fault?, hname, hspelling]
    | none =>
      have hspelling : ¬EventKind.isSpelling v.shown = true := by
        rw [EventKind.isSpelling_iff]
        rintro ⟨k, hk⟩
        cases hname.symm.trans (EventKind.ofName?_withoutRuleMark.2 hk)
      simp [read, fault?, hname, hspelling]

theorem RawPosition.reports_read (p : Option RawPosition) :
    Reports (RawPosition.read p) [fault? p .offset, fault? p .line, fault? p .column] := by
  cases p with
  | none => exact fun err => by simp [read, fault?]
  | some p =>
    exact (reports_field _ _).bind fun _ _ => (reports_field _ _).bind fun _ _ =>
      (reports_field _ _).bind fun _ _ => reports_ok _

theorem RawLocation.reports_read (location : RawLocation) :
    Reports location.read
      [location.fault? .start, location.fault? .stop,
        location.numberFault? .start .offset, location.numberFault? .start .line,
        location.numberFault? .start .column, location.numberFault? .stop .offset,
        location.numberFault? .stop .line, location.numberFault? .stop .column] := by
  cases location with
  | location l => exact fun err => by simp [read, fault?, numberFault?, part?]
  | null => exact fun err => by simp [read, fault?]
  | fields start stop =>
    refine (reports_field _ start).bind fun s hs => ?_
    obtain rfl := field_eq_ok.1 hs
    refine (reports_field _ stop).bind fun t ht => ?_
    obtain rfl := field_eq_ok.1 ht
    exact (RawPosition.reports_read s).bind fun _ _ => (RawPosition.reports_read t).bind fun _ _ =>
      reports_ok _

/-- An event is read from what was sent for its rule, its location and its kind, in that order; the
location is there before the kind is read, and is read after it. -/
theorem RawEvent.read_eq (raw : RawEvent) :
    raw.read = (do
      let rule ← field "rule".toList raw.ruleSent
      let location ← field "location".toList raw.locationSent
      let kind ← raw.kindSent.read
      let location ← location.read
      return ⟨kind, rule, location⟩) := by
  cases raw <;> rfl

/-- What is no event is refused by the first check that it does not pass. -/
theorem RawEvent.reports_read (raw : RawEvent) :
    Reports raw.read (EventCheck.all.map raw.fault?) := by
  rw [read_eq]
  refine (reports_field _ _).bind fun rule _ => (reports_field _ _).bind fun location hlocation =>
    (RawKind.reports_read _).bind fun kind _ => ?_
  have hsent := field_eq_ok.1 hlocation
  simp only [List.map_cons, List.map_nil, fault?, hsent, Option.bind_some]
  exact (RawLocation.reports_read location).bind fun _ _ => reports_ok _

/-- What passes every check is an event. -/
theorem RawEvent.exists_isFormOf_iff {raw : RawEvent} :
    (∃ e, raw.IsFormOf e) ↔ ∀ check, raw.fault? check = none := by
  simp only [← read_eq_ok, raw.reports_read.exists_eq_ok_iff, List.forall_mem_map,
    EventCheck.mem_all, forall_const]

end RuleTrace
