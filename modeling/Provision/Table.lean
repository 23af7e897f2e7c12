/-!
# Tables

A table maps names to entries and keeps its names in the order of their first insertion. Every
operation of this module keeps names distinct.
-/

namespace Provision

/-- Entries under distinct names, in the order of insertion. -/
abbrev Table (α : Type _) := List (String × α)

namespace Table

variable {α β : Type _}

def find? (t : Table α) (name : String) : Option α := List.lookup name t

def contains (t : Table α) (name : String) : Bool := (t.find? name).isSome

def names (t : Table α) : List String := t.map (·.1)

/-- Puts an entry under a name: in place of the entry there, else at the end. -/
def insert (t : Table α) (name : String) (entry : α) : Table α :=
  match t with
  | [] => [(name, entry)]
  | (n, e) :: rest => if n = name then (n, entry) :: rest else (n, e) :: insert rest name entry

/-- The table of a list of entries, the last entry of a name at the place of the first. -/
def ofList (entries : List (String × α)) : Table α :=
  entries.foldl (fun t e => t.insert e.1 e.2) []

def modify (t : Table α) (name : String) (f : α → α) : Table α :=
  t.map fun e => if e.1 = name then (e.1, f e.2) else e

end Table

end Provision
