import FieldMask.NameSelection.Parser
import FieldMask.RecordSelection.Naming
import FieldMask.Value.Json

/-!
# Queries

What a selection can be read from: an expression, a list of names, a map from names to queries,
JSON data of that shape, or another selection.

* `Query.toNames` reads a query as a selection by name.
* `Query.ofValue` reads JSON data as a query: `null` and `true` leave the selection open, texts
  are expressions, arrays list names, and objects map names to queries.
-/

namespace FieldMask

/-- Something that a selection can be read from. -/
inductive Query where
  /-- The selection is left open. -/
  | open
  | expr (text : String)
  /-- Fields that are selected in full. -/
  | names (list : List String)
  /-- Fields with what their selections are read from. -/
  | map (entries : Entries String Query none)
  | byName (s : NameSelection)
  | ofRecord (s : RecordSelection)

namespace Query

instance : Inhabited Query := ⟨.open⟩

mutual

/-- The selection by name that a query asks for. Errors in a map carry the name. -/
def toNames (reg : Registry) : Query → Except Error NameSelection
  | .open => .ok .undefined
  | .expr text => NameSelection.parse text
  | .names ns => .ok (NameSelection.undefined.add ns)
  | .map entries => do return .defined (← toNamesEach reg entries)
  | .byName s => .ok s
  | .ofRecord s => .ok (s.toNames reg)
termination_by structural q => q

/-- The selections that the queries of a map ask for. -/
def toNamesEach {bound : Option String} (reg : Registry) :
    Entries String Query bound → Except Error (Entries String NameSelection bound)
  | .nil => .ok .nil
  | .cons name query above rest => do
    let child ← within name (query.toNames reg)
    return .cons name child above (← toNamesEach reg rest)
termination_by structural qs => qs

end

/-- The names that items are, all of which have to be texts. -/
def namesOfItems : List Value → Except Error (List String)
  | [] => .ok []
  | .string name :: rest => do return name :: (← namesOfItems rest)
  | item :: _ => .error (.of (.nonStringName item.compact))

mutual

/-- The query that JSON data is. Errors in an object carry the key. -/
def ofValue : Value → Except Error Query
  | .null | .bool true => .ok .open
  | .string text => .ok (.expr text)
  | .array items => do return .names (← namesOfItems items)
  | .object entries => do return .map (← ofEntries entries)
  | v => .error (.of (.notASelection v.compact))
termination_by structural v => v

/-- The queries that the values of an object are. -/
def ofEntries {bound : Option String} :
    Entries String Value bound → Except Error (Entries String Query bound)
  | .nil => .ok .nil
  | .cons name v above rest => do
    let query ← within name (ofValue v)
    return .cons name query above (← ofEntries rest)
termination_by structural es => es

end

end Query

end FieldMask
