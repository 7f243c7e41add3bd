import LeakTrace.Text.Json

/-!
# Reading values out of a JSON tree

Small readers for the parts of a request, and the reasons why a request cannot be read.
-/

namespace LeakTrace

inductive InputError where
  | expected (kind : String) (found : Json)
  | unknown (kind : String) (name : String)
  | unsupported (kind : String) (found : Json)

def InputError.message : InputError → String
  | .expected kind j => "expected " ++ kind ++ ": " ++ j.sorted.write
  | .unknown kind name => "unknown " ++ kind ++ " " ++ name
  | .unsupported kind j => kind ++ ": " ++ j.sorted.write

abbrev Decode := Except InputError

namespace Json

def text (j : Json) : Decode String :=
  match j.str? with
  | some s => pure s
  | none => throw (.expected "string" j)

def nat (j : Json) : Decode Nat :=
  match j.nat? with
  | some n => pure n
  | none => throw (.expected "number" j)

def list : Json → Decode (List Json)
  | .arr items => pure items
  | j => throw (.expected "array" j)

def listOrEmpty : Json → Decode (List Json)
  | .null => pure []
  | j => j.list

def members : Json → List (String × Json)
  | .obj ms => ms
  | _ => []

def optional {α : Type} (read : Json → Decode α) : Json → Decode (Option α)
  | .null => pure none
  | j => some <$> read j

/-- The item at a place of an array, `null` when there is none. -/
def item (j : Json) (i : Nat) : Json :=
  match j with
  | .arr items => items[i]?.getD .null
  | _ => .null

end Json
end LeakTrace
