/-!
# TOML values and tables

A table is filled in line by line.  Where a key has several parts, the tables on its way are made
as needed, and it is remembered how a table came about: that decides whether a later line may go
into it.
-/

namespace KeywordAudit
namespace Toml

/-- How a table came about. -/
inductive TableKind where
  /-- Written as a value, complete in itself. -/
  | inline
  /-- By a header of its own. -/
  | headed
  /-- On the way to the table of a header. -/
  | implied
  /-- On the way to the value of a key with several parts. -/
  | dotted
deriving DecidableEq, Repr, Inhabited

/-- A TOML value; of numbers and of dates and times only the fact is kept. -/
inductive Value where
  | text (value : String)
  | flag (value : Bool)
  | number
  | moment
  | array (elements : List Value)
  | table (kind : TableKind) (entries : List (String × Value))
  /-- The tables of headers in double brackets, last one first. -/
  | tables (elements : List (List (String × Value)))
deriving Inhabited

/-- The entries of a table. -/
abbrev Entries := List (String × Value)

namespace Entries

/-- Gives an entry a value, in place of the one it has. -/
def set (key : String) (value : Value) : Entries → Entries
  | [] => [(key, value)]
  | (other, known) :: rest =>
    if other = key then (key, value) :: rest else (other, known) :: set key value rest

/-- Changes the table at the end of a path; the tables on the way that do not exist are made, of
the given kind.  A key with several parts goes through no table that has a header or is a value;
a header goes through every table, and through the last one of several.  The kind of the table is
given to `change`, which is `headed` for the outermost one. -/
def within (made : TableKind) (change : TableKind → Entries → Option Entries) :
    (path : List String) → TableKind → Entries → Option Entries
  | [], kind, entries => change kind entries
  | key :: path, _, entries =>
    match (entries.lookup key).getD (.table made []) with
    | .table kind inner =>
      if kind = .inline || (made = .dotted && kind = .headed) then none
      else (within made change path kind inner).map fun inner =>
        entries.set key (.table kind inner)
    | .tables (last :: before) =>
      (within made change path .headed last).map fun last =>
        entries.set key (.tables (last :: before))
    | _ => none

/-- Gives a key a value for the first time; a key with several parts puts it only into tables that
such keys have made. -/
def put (path : List String) (key : String) (value : Value) (entries : Entries) :
    Option Entries :=
  entries.within .dotted (fun kind inner =>
    if (kind = .dotted) = path.isEmpty then none
    else if (inner.lookup key).isSome then none
    else some (inner.set key value)) path .headed

/-- Begins the table of a header: a new one, or one that earlier headers only went through. -/
def beginTable (path : List String) (key : String) (entries : Entries) : Option Entries :=
  entries.within .implied (fun _ inner =>
    match inner.lookup key with
    | none => some (inner.set key (.table .headed []))
    | some (.table .implied known) => some (inner.set key (.table .headed known))
    | some _ => none) path .headed

/-- Begins a further table of a header in double brackets. -/
def beginElement (path : List String) (key : String) (entries : Entries) : Option Entries :=
  entries.within .implied (fun _ inner =>
    match inner.lookup key with
    | none => some (inner.set key (.tables [[]]))
    | some (.tables known) => some (inner.set key (.tables ([] :: known)))
    | some _ => none) path .headed

/-- Gives a key a value inside of the table of the last header. -/
def putUnder (header path : List String) (key : String) (value : Value) (entries : Entries) :
    Option Entries :=
  entries.within .implied (fun _ inner => inner.put path key value) header .headed

end Entries
end Toml
end KeywordAudit
