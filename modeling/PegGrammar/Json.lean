namespace PegGrammar

inductive Json where
  | null
  | bool (b : Bool)
  /-- A whole number, written with digits alone. -/
  | nat (n : Nat)
  /-- A number with a sign, a fraction or an exponent, as written. -/
  | number (text : String)
  | string (s : String)
  | array (items : List Json)
  | object (fields : List (String × Json))
  deriving Repr, Inhabited

namespace Json

def ofOption {α : Type} (f : α → Json) : Option α → Json
  | some a => f a
  | none => .null

def ofChar (c : Char) : Json := .string (String.singleton c)

def field? (key : String) : Json → Option Json
  | .object fields => fields.lookup key
  | _ => none

/-- The value of a field that may be left out; it counts as null then. -/
def fieldOrNull? (key : String) : Json → Option Json
  | .object fields => some ((fields.lookup key).getD .null)
  | _ => none

/-- A whole number of at most 64 bits. -/
def nat? : Json → Option Nat
  | .nat n => if n < UInt64.size then some n else none
  | _ => none

def bool? : Json → Option Bool
  | .bool b => some b
  | _ => none

def string? : Json → Option String
  | .string s => some s
  | _ => none

def char? : Json → Option Char
  | .string s =>
    match s.toList with
    | [c] => some c
    | _ => none
  | _ => none

def array? : Json → Option (List Json)
  | .array items => some items
  | _ => none

def nullable? {α : Type} (read : Json → Option α) : Json → Option (Option α)
  | .null => some none
  | j => (read j).map some

theorem sizeOf_lookup {key : String} {fields : List (String × Json)} {j : Json}
    (h : fields.lookup key = some j) : sizeOf j < sizeOf fields := by
  induction fields with
  | nil => simp at h
  | cons field fields ih =>
    obtain ⟨k, v⟩ := field
    rw [List.lookup_cons] at h
    split at h
    · cases h
      simp
      omega
    · have := ih h
      simp
      omega

theorem sizeOf_field? {key : String} {j v : Json} (h : j.field? key = some v) :
    sizeOf v < sizeOf j := by
  cases j <;> simp only [field?, reduceCtorEq] at h
  have := sizeOf_lookup h
  simp
  omega

end Json

end PegGrammar
