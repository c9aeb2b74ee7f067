import JsPrune.Binary64.Basic

/-!
# JSON values

A value as it stands in a JSON text. Two kinds of literal are well formed and still denote nothing:
a numeral too large for a number, and a string with half of a surrogate pair. They are kept as
`none`, since a reader that skips over a value need not mind them. A numeral of digits alone is kept
apart from other numbers, since it can also count something.
-/

namespace JsPrune.Json

/-- A JSON value. -/
inductive Value where
  | null
  | bool (value : Bool)
  /-- Digits alone, of a number that fits in 64 bits. -/
  | natural (value : Nat)
  /-- Any other numeral. -/
  | number (value : Option Binary64)
  | string (value : Option String)
  | array (items : List Value)
  /-- Entries in the order of the text; a key may occur more than once. -/
  | object (entries : List (Option String × Value))
deriving Inhabited

namespace Value

/-- A string that denotes itself. -/
def text (value : String) : Value := string (some value)

/-- An object whose keys denote themselves. -/
def record (entries : List (String × Value)) : Value :=
  object (entries.map fun (key, value) => (some key, value))

mutual
/-- Whether every literal in a value denotes something, with at most `room` brackets inside each
other. -/
def isReadable (room : Nat) : Value → Bool
  | null => true
  | bool _ => true
  | natural _ => true
  | number value => value.isSome
  | string value => value.isSome
  | array items => 0 < room && allReadable (room - 1) items
  | object entries => 0 < room && entriesReadable (room - 1) entries
termination_by structural value => value

/-- `isReadable` for the items of an array. -/
def allReadable (room : Nat) : List Value → Bool
  | [] => true
  | item :: rest => isReadable room item && allReadable room rest
termination_by structural items => items

/-- `isReadable` for the entries of an object, keys included. -/
def entriesReadable (room : Nat) : List (Option String × Value) → Bool
  | [] => true
  | entry :: rest => entryReadable room entry && entriesReadable room rest
termination_by structural entries => entries

/-- `isReadable` for one entry. -/
def entryReadable (room : Nat) : Option String × Value → Bool
  | (key, value) => key.isSome && isReadable room value
termination_by structural entry => entry
end

end Value

end JsPrune.Json
