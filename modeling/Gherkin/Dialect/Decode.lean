import Gherkin.Dialect.Table
import Gherkin.Json
import Gherkin.Registry

/-!
Dialect tables as JSON.

A table is an object from language codes to dialects. A dialect is an object with one member per
field, or the array of the thirteen field values in their fixed order. Members with other names
are ignored. Of two dialects under one code the later counts, but a dialect may give each of its
own fields only once.
-/

namespace Gherkin

namespace Dialect

def ofLists? (name native : Text) : List (List Text) → Option Dialect
  | [feature, rule, background, scenario, scenarioOutline, examples,
      given, when, «then», and, but] =>
      some ⟨name, native, feature, rule, background, scenario, scenarioOutline, examples,
        given, when, «then», and, but⟩
  | _ => none

def ofValues? : List Json → Option Dialect
  | name :: native :: lists => do
      let name ← name.text?
      let native ← native.text?
      let lists ← lists.mapM Json.texts?
      ofLists? name native lists
  | _ => none

def fields : List Text :=
  "name".toList :: "native".toList :: Category.all.map fun category => category.field.toList

/-- The one value of a field. Words for rules may be left out. -/
def fieldValue? (members : List (Text × Json)) (field : Text) : Option Json :=
  match members.filter fun member => member.1 = field with
  | [] => if field = (Category.block .rule).field.toList then some (.array []) else none
  | [member] => some member.2
  | _ => none

def ofJson? : Json → Option Dialect
  | .array values => ofValues? values
  | json => do
      let members ← json.members?
      let values ← fields.mapM (fieldValue? members)
      ofValues? values

end Dialect

namespace Registry

/-- The dialects a table lists, as written, one per code. -/
def listed? (json : Json) : Option (List (Text × Dialect)) := do
  let members ← json.members?
  let dialects ← members.mapM fun member => (Dialect.ofJson? member.2).map (member.1, ·)
  some (keepFirst (·.1) dialects.reverse)

def load (text : Text) : Except DialectError Registry :=
  match (Json.parse text).bind listed? with
  | none => .error .malformed
  | some dialects => empty.insertAll dialects

end Registry

end Gherkin
