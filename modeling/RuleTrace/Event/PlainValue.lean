import RuleTrace.Text.Decimal
import RuleTrace.Text.Quoted

/-!
# Plain values

Parsers put plain values into their records: numbers, texts, lists and records of them. Messages
show such a value as one line of text.
-/

namespace RuleTrace

mutual

/-- A value in a record of a parser. -/
inductive PlainValue where
  | null
  | bool (b : Bool)
  | int (i : Int)
  | text (t : Text)
  | list (items : PlainItems)
  | record (fields : PlainFields)
deriving DecidableEq, Repr

/-- The items of a list. -/
inductive PlainItems where
  | nil
  | cons (item : PlainValue) (rest : PlainItems)
deriving DecidableEq, Repr

/-- The fields of a record. -/
inductive PlainFields where
  | nil
  | cons (name : Text) (value : PlainValue) (rest : PlainFields)
deriving DecidableEq, Repr

end

mutual

/-- A value as it stands inside another one: texts are quoted. -/
def PlainValue.literal : PlainValue → Text
  | .null => "None".toList
  | .bool true => "True".toList
  | .bool false => "False".toList
  | .int i => Decimal.ofInt i
  | .text t => Quoted.quote t
  | .list items => '[' :: items.literals [] ++ [']']
  | .record fields => '{' :: fields.literals [] ++ ['}']

/-- The items of a list, with a lead before the first one and a comma and a blank before every
other. -/
def PlainItems.literals (lead : Text) : PlainItems → Text
  | .nil => []
  | .cons item rest => lead ++ item.literal ++ rest.literals [',', ' ']

/-- The fields of a record, with a lead before the first one and a comma and a blank before every
other. -/
def PlainFields.literals (lead : Text) : PlainFields → Text
  | .nil => []
  | .cons name value rest =>
    lead ++ Quoted.quote name ++ ':' :: ' ' :: value.literal ++ rest.literals [',', ' ']

end

namespace PlainValue

/-- A value on its own: a text is shown as it is. -/
def shown : PlainValue → Text
  | .text t => t
  | v => v.literal

/-- Whether a value says nothing: null, false, zero, or something empty. -/
def isBlank : PlainValue → Bool
  | .null => true
  | .bool b => !b
  | .int i => i == 0
  | .text t => t.isEmpty
  | .list .nil => true
  | .list (.cons ..) => false
  | .record .nil => true
  | .record (.cons ..) => false

end PlainValue

end RuleTrace
