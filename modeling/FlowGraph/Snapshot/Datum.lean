/-!
Structured data, the form in which bodies are stored: numbers, texts, lists, and records of named
fields. A variant of a type with several forms is written as a record with one field, whose name
is that of the form, or as a bare text if the form has no content.

A reader takes the fields of a record by name and ignores others. The fields of a type with a
single form can also be given as a list, in order and complete; the content of one form among
several cannot.
-/

namespace FlowGraph

inductive Datum where
  | null
  | bool (value : Bool)
  | int (value : Int)
  /-- A number that is not an integer. -/
  | fraction
  | text (value : String)
  | list (items : List Datum)
  | record (fields : List (String × Datum))
  deriving Repr, Inhabited, BEq

namespace Datum

def nat (n : Nat) : Datum := .int n

def variant (name : String) (content : Datum) : Datum := .record [(name, content)]

def listOf {α : Type} (item : α → Datum) (xs : List α) : Datum := .list (xs.map item)

def optionOf {α : Type} (item : α → Datum) : Option α → Datum
  | some x => item x
  | none => .null

/-- A natural number below `limit`. -/
def nat? (limit : Nat) : Datum → Option Nat
  | .int n => if 0 ≤ n ∧ n < limit then some n.toNat else none
  | _ => none

/-- An integer of 64 bits with a sign. -/
def int64? : Datum → Option Int
  | .int n => if Int64.minValue.toInt ≤ n ∧ n ≤ Int64.maxValue.toInt then some n else none
  | _ => none

def bool? : Datum → Option Bool
  | .bool b => some b
  | _ => none

def text? : Datum → Option String
  | .text s => some s
  | _ => none

def list? {α : Type} (item : Datum → Option α) : Datum → Option (List α)
  | .list items => items.mapM item
  | _ => none

def option? {α : Type} (item : Datum → Option α) : Datum → Option (Option α)
  | .null => some none
  | d => (item d).map some

def pair? {α β : Type} (first : Datum → Option α) (second : Datum → Option β) :
    Datum → Option (α × β)
  | .list [a, b] => return (← first a, ← second b)
  | _ => none

/-- The fields of a record with the given names; some of them may be missing. -/
def named? (names : List String) : Datum → Option (List (Option Datum))
  | .record fields => some (names.map fun name => fields.lookup name)
  | _ => none

/-- The fields with the given names, of a record or of a list that holds them all in order. -/
def fields? (names : List String) : Datum → Option (List (Option Datum))
  | .list items => if items.length = names.length then some (items.map some) else none
  | d => d.named? names

/-- The name of a form and its content, which is `null` for a bare name. -/
def variant? : Datum → Option (String × Datum)
  | .text name => some (name, .null)
  | .record [(name, content)] => some (name, content)
  | _ => none

end Datum

end FlowGraph
