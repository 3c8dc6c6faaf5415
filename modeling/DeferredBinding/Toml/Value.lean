/-!
TOML values and the rules by which the lines of a document build its tables. A table may be opened by one header only,
dotted keys may extend only tables that dotted keys made, and a value is never extended.
-/
namespace DeferredBinding.Toml

/-- A value. Floats and dates are kept as they are spelled. -/
inductive Value where
  | string (s : String)
  | integer (n : Int)
  | float (spelling : String)
  | boolean (b : Bool)
  | moment (spelling : String)
  | array (items : List Value)
  | table (entries : List (String × Value))
  deriving Repr

/-- How a table came to be: by its own header, by the header of a table inside it, or by dotted keys. -/
inductive Origin where
  | header
  | implied
  | dotted
  deriving DecidableEq, Repr

/-- An entry of a table under construction. -/
inductive Item where
  | value (v : Value)
  | table (origin : Origin) (entries : List (String × Item))
  | tables (list : List (List (String × Item)))

/-- A table under construction. -/
abbrev Entries := List (String × Item)

/-- One line of a document. -/
inductive Line where
  | entry (path : List String) (key : String) (value : Value)
  | table (path : List String) (key : String)
  | tables (path : List String) (key : String)

namespace Entries

/-- The item under a key. -/
def find? (entries : Entries) (key : String) : Option Item :=
  List.lookup key entries

/-- The table with the item under a key put in the place of the old one, or at the end. -/
def put (key : String) (item : Item) : Entries → Entries
  | [] => [(key, item)]
  | (k, old) :: rest => if k = key then (key, item) :: rest else (k, old) :: put key item rest

/-- Adds a value under a dotted key whose last part is `key`. -/
def insert (key : String) (v : Value) : List String → Entries → Option Entries
  | [], entries =>
    match find? entries key with
    | none => some (put key (.value v) entries)
    | some _ => none
  | p :: path, entries =>
    match find? entries p with
    | none => do
      let inner ← insert key v path []
      some (put p (.table .dotted inner) entries)
    | some (.table .dotted inner) => do
      let inner ← insert key v path inner
      some (put p (.table .dotted inner) entries)
    | some (.table .implied inner) =>
      if path.isEmpty then none
      else do
        let inner ← insert key v path inner
        some (put p (.table .implied inner) entries)
    | some (.tables list) =>
      if path.isEmpty then none
      else do
        let inner ← insert key v path (list.getLast?.getD [])
        some (put p (.tables (list.dropLast ++ [inner])) entries)
    | some (.table .header _) => none
    | some (.value _) => none

/-- Changes the table that a header's path leads to; missing tables on the way are implied. -/
def within (change : Entries → Option Entries) : List String → Entries → Option Entries
  | [], entries => change entries
  | p :: path, entries =>
    match find? entries p with
    | none => do
      let inner ← within change path []
      some (put p (.table .implied inner) entries)
    | some (.table origin inner) => do
      let inner ← within change path inner
      some (put p (.table origin inner) entries)
    | some (.tables list) => do
      let inner ← within change path (list.getLast?.getD [])
      some (put p (.tables (list.dropLast ++ [inner])) entries)
    | some (.value _) => none

/-- Opens a table by its header: it is new, or was only implied. -/
def openTable (key : String) (entries : Entries) : Option Entries :=
  match find? entries key with
  | none => some (put key (.table .header []) entries)
  | some (.table .implied inner) => some (put key (.table .header inner) entries)
  | some _ => none

/-- Opens a further table of a list of tables. -/
def openTables (key : String) (entries : Entries) : Option Entries :=
  match find? entries key with
  | none => some (put key (.tables [[]]) entries)
  | some (.tables list) => some (put key (.tables (list ++ [[]])) entries)
  | some _ => none

end Entries

mutual

/-- The finished value of an item. -/
def Item.finish : Item → Value
  | .value v => v
  | .table _ entries => .table (finishEntries entries)
  | .tables list => .array (finishTables list)

/-- The finished entries of a table. -/
def finishEntries : List (String × Item) → List (String × Value)
  | [] => []
  | (k, item) :: rest => (k, item.finish) :: finishEntries rest

/-- The finished tables of a list of tables. -/
def finishTables : List (List (String × Item)) → List Value
  | [] => []
  | entries :: rest => .table (finishEntries entries) :: finishTables rest

end

/-- The state while lines are added: the whole document and the path of the table that is open. -/
structure Draft where
  opened : List String
  entries : Entries

/-- Adds a line to a document. -/
def Draft.add (draft : Draft) : Line → Option Draft
  | .entry path key v => do
    let entries ← draft.entries.within (Entries.insert key v path) draft.opened
    some { draft with entries }
  | .table path key => do
    let entries ← draft.entries.within (Entries.openTable key) path
    some ⟨path ++ [key], entries⟩
  | .tables path key => do
    let entries ← draft.entries.within (Entries.openTables key) path
    some ⟨path ++ [key], entries⟩

/-- The document that a list of lines builds. -/
def assemble (lines : List Line) : Option (List (String × Value)) := do
  let draft ← lines.foldlM Draft.add ⟨[], []⟩
  some (finishEntries draft.entries)

/-- The table that the pairs of an inline table build. -/
def inlineTable (pairs : List (List String × String × Value)) : Option Value := do
  let entries ← pairs.foldlM (fun entries p => Entries.insert p.2.1 p.2.2 p.1 entries) []
  some (.table (finishEntries entries))

end DeferredBinding.Toml
