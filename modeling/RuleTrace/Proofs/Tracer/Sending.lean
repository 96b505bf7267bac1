import Mathlib.Data.List.Forall2
import RuleTrace.Proofs.Event.Forms
import RuleTrace.Proofs.Tracer.Chain

/-!
# What parsers send

A parser sends each event in a form of its own choice to the youngest tracer of a chain, or it uses
the shortcut for the kind of the event and sends the rule and the location alone (`Sending`).
Tracers read what is sent before they do anything with it, so that the form of an event does not
matter.

* `Tracer.deliver_eq`: what is sent for an event does what the event does.
* `Tracer.deliverAll_eq`: so does a run of events.
* `Tracer.deliverAll_forms`: which forms an event has, why anything else is refused, and that the
  forms of the events of a run do not matter.
-/

namespace RuleTrace

/-- What a parser sends: an event, or a rule and a location through the shortcut for a kind. -/
inductive Sending where
  | trace (raw : RawEvent)
  | shortcut (kind : EventKind) (rule : Text) (location : RawLocation)
deriving DecidableEq, Repr

namespace Sending

/-- The event that a shortcut sends on, with the location that it reads. -/
def unpack : Sending → Except EventError RawEvent
  | .trace raw => .ok raw
  | .shortcut kind rule location => do
    let location ← location.read
    return .unit (.kind kind) rule (.location location)

/-- What is sent for an event. -/
inductive IsFormOf : Sending → Event → Prop
  | trace {raw : RawEvent} {e : Event} (hraw : raw.IsFormOf e) : IsFormOf (.trace raw) e
  | shortcut {location : RawLocation} {e : Event} (hlocation : location.Gives e.location) :
    IsFormOf (.shortcut e.kind e.rule location) e

/-- The same thing is sent, or the same event in two forms. -/
def SameMeaning (s s' : Sending) : Prop :=
  s = s' ∨ ∃ e, s.IsFormOf e ∧ s'.IsFormOf e

end Sending

namespace Tracer

/-- Sends something to the youngest tracer of a chain: each tracer after it and what happened there,
and the number of the call or the error. -/
def deliver (chain : List Tracer) (s : Sending) :
    List (Tracer × Activity) × Except TraceError Nat :=
  match s.unpack with
  | .error err => (chain.map (·, {}), .error (.unread err))
  | .ok raw => traceChain chain raw

/-- Sends one thing after the other; for each of them what it came to. -/
def deliverAll : List Tracer → List Sending →
    List (List (Tracer × Activity) × Except TraceError Nat)
  | _, [] => []
  | chain, s :: rest =>
    let after := deliver chain s
    after :: deliverAll (after.1.map (·.1)) rest

/-- What is sent for an event does to a chain what the event does. -/
theorem deliver_eq {s : Sending} {e : Event} (h : s.IsFormOf e) (chain : List Tracer) :
    deliver chain s = ((recordChain chain e).1, (recordChain chain e).2.mapError .record) := by
  cases h with
  | trace hraw => exact traceChain_eq (RawEvent.read_eq_ok.2 hraw) chain
  | shortcut hlocation =>
    rw [deliver, Sending.unpack, RawLocation.read_eq_ok.2 hlocation]
    exact traceChain_eq (RawEvent.read_toRaw e) chain

theorem deliver_congr {s s' : Sending} (h : s.SameMeaning s') (chain : List Tracer) :
    deliver chain s = deliver chain s' := by
  rcases h with rfl | ⟨e, hs, hs'⟩
  · rfl
  · rw [deliver_eq hs, deliver_eq hs']

theorem deliverAll_eq {sendings sendings' : List Sending}
    (h : List.Forall₂ Sending.SameMeaning sendings sendings') (chain : List Tracer) :
    deliverAll chain sendings = deliverAll chain sendings' := by
  induction h generalizing chain with
  | nil => rfl
  | cons hs _ ih => rw [deliverAll, deliverAll, deliver_congr hs, ih]

/-- What is sent is read as an event if it is a form of it, and not otherwise. The error of what is
no form of an event is that of the first check that it does not pass. What was read is read again as
itself. Two runs that send the same events in different forms come to the same, at every step: the
numbers of calls and the errors, the tracers of the chain, and what they wrote. -/
theorem deliverAll_forms :
    (∀ raw : RawEvent,
      (∀ e, raw.read = .ok e ↔ raw.IsFormOf e) ∧
      ((∃ e, raw.IsFormOf e) ↔ ∀ check, raw.fault? check = none) ∧
      (∀ err, raw.read = .error err ↔ EventCheck.all.findSome? raw.fault? = some err) ∧
      (raw.read >>= fun e => e.toRaw.read) = raw.read) ∧
    ∀ chain sendings sendings', List.Forall₂ Sending.SameMeaning sendings sendings' →
      deliverAll chain sendings = deliverAll chain sendings' := by
  refine ⟨fun raw => ⟨fun e => RawEvent.read_eq_ok, ?_, fun err => ?_, ?_⟩,
    fun chain _ _ h => deliverAll_eq h chain⟩
  · exact RawEvent.exists_isFormOf_iff
  · rw [raw.reports_read err, List.findSome?_map]
    rfl
  · cases raw.read <;> rfl

/-- A call of `a` that made a call of `b`, as a parser may send them: with a mark in front of a kind
in the second field for it, through a shortcut, with something that is no event in between, with the
name of a kind in a unit, and with a proper kind in a record. -/
def mixedSendings (l : Location) : List Sending :=
  [.trace (.fields (some (.plain (.text []))) (some (.plain (.text "rule.enter".toList)))
      (some ['a']) (some (.location l))),
    .shortcut .enter ['b'] (.fields (some (some l.start.toRaw)) (some (some l.stop.toRaw))),
    .trace (.fields (some (.kind .enter)) none (some ['c']) none),
    .trace (.unit (.plain (.text "fail".toList)) ['b'] (.location l)),
    .trace (.fields (some (.kind (.leave .matched))) (some (.plain .null)) (some ['a'])
      (some (.fields (some (some l.start.toRaw)) (some (some l.stop.toRaw)))))]

/-- The same calls with proper events. -/
def properSendings (l : Location) : List Sending :=
  [.trace (Event.toRaw ⟨.enter, ['a'], l⟩), .trace (Event.toRaw ⟨.enter, ['b'], l⟩),
    .trace (.fields (some (.kind .enter)) none (some ['c']) none),
    .trace (Event.toRaw ⟨.leave .failed, ['b'], l⟩),
    .trace (Event.toRaw ⟨.leave .matched, ['a'], l⟩)]

/-- The calls in a chain of two tracers, of which the older one has a live trace. -/
theorem deliverAll_forms_mixedSendings :
    let l := locate "ab".toList 0 1
    let young : Tracer := ⟨{}, ⟨["ab".toList]⟩, [], ⟨false, false⟩, .empty⟩
    let chain := [young, { young with options := { showTrace := true } }]
    List.Forall₂ Sending.SameMeaning (mixedSendings l) (properSendings l) ∧
      deliverAll chain (mixedSendings l) = deliverAll chain (properSendings l) ∧
      (deliverAll chain (mixedSendings l)).map (·.2) =
        [.ok 1, .ok 2, .error (.unread (.missingField "location".toList)), .ok 2, .ok 1] := by
  intro l young chain
  have hproper : ∀ e, (Sending.trace (Event.toRaw e)).IsFormOf e := fun e =>
    .trace (.unit (.kind e.kind) (.location e.location))
  have hsame : List.Forall₂ Sending.SameMeaning (mixedSendings l) (properSendings l) := by
    refine .cons ?_ (.cons ?_ (.cons (.inl rfl) (.cons ?_ (.cons ?_ .nil))))
    · exact .inr ⟨⟨.enter, ['a'], l⟩, .trace (RawEvent.read_eq_ok.1 rfl), hproper _⟩
    · exact .inr ⟨_, .shortcut (e := ⟨.enter, ['b'], l⟩) (.fields l), hproper _⟩
    · exact .inr ⟨⟨.leave .failed, ['b'], l⟩, .trace (RawEvent.read_eq_ok.1 rfl), hproper _⟩
    · exact .inr ⟨⟨.leave .matched, ['a'], l⟩, .trace (RawEvent.read_eq_ok.1 rfl), hproper _⟩
  refine ⟨hsame, deliverAll_forms.2 chain _ _ hsame, ?_⟩
  rw [deliverAll_forms.2 chain _ _ hsame]
  decide +kernel

end Tracer

end RuleTrace
