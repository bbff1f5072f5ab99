import MarginKG.Theory.Dict
import Mathlib.Data.Finset.Sort
import Mathlib.Data.String.Basic

/-! The fixed core ontology (`graph/model.py`) and the Python values that its property maps
hold.

Strings are Lean strings. `str.casefold` and `repr` belong to the interpreter; they are the
fields of `Python`, and every result holds for whatever they compute. -/

namespace MarginKG

/-- A Python object as a property value. `True` and `1` are two values here, although they are
equal in Python. `set` is a set of strings, such as the labels of a node. `obj` stands for any
other object that is true, cannot be iterated and has no `update` (a float, a date): the code
stores it and hands it back. -/
inductive Value where
  | null
  | bool (b : Bool)
  | int (i : Int)
  | str (s : String)
  | list (items : List Value)
  | set (items : Finset String)
  | obj (id : Nat)

namespace Value

mutual

def decEq : (a b : Value) → Decidable (a = b)
  | .null, b => match b with
    | .null => isTrue rfl
    | .bool _ | .int _ | .str _ | .list _ | .set _ | .obj _ => isFalse nofun
  | .bool x, b => match b with
    | .bool y => decidable_of_iff (x = y) (by simp)
    | .null | .int _ | .str _ | .list _ | .set _ | .obj _ => isFalse nofun
  | .int x, b => match b with
    | .int y => decidable_of_iff (x = y) (by simp)
    | .null | .bool _ | .str _ | .list _ | .set _ | .obj _ => isFalse nofun
  | .str x, b => match b with
    | .str y => decidable_of_iff (x = y) (by simp)
    | .null | .bool _ | .int _ | .list _ | .set _ | .obj _ => isFalse nofun
  | .list xs, b => match b with
    | .list ys => match decEqList xs ys with
      | isTrue h => isTrue (h ▸ rfl)
      | isFalse h => isFalse fun e => h (Value.list.inj e)
    | .null | .bool _ | .int _ | .str _ | .set _ | .obj _ => isFalse nofun
  | .set x, b => match b with
    | .set y => decidable_of_iff (x = y) (by simp)
    | .null | .bool _ | .int _ | .str _ | .list _ | .obj _ => isFalse nofun
  | .obj x, b => match b with
    | .obj y => decidable_of_iff (x = y) (by simp)
    | .null | .bool _ | .int _ | .str _ | .list _ | .set _ => isFalse nofun

def decEqList : (as bs : List Value) → Decidable (as = bs)
  | [], [] => isTrue rfl
  | [], _ :: _ | _ :: _, [] => isFalse nofun
  | a :: as, b :: bs => match decEq a b, decEqList as bs with
    | isTrue h, isTrue h' => isTrue (h ▸ h' ▸ rfl)
    | isFalse h, _ => isFalse fun e => h (List.cons.inj e).1
    | _, isFalse h => isFalse fun e => h (List.cons.inj e).2

end

instance : DecidableEq Value := decEq

instance : Inhabited Value := ⟨.null⟩

/-- `bool(v)`. -/
def truthy : Value → Bool
  | .null => false
  | .bool b => b
  | .int i => i ≠ 0
  | .str s => s ≠ ""
  | .list items => !items.isEmpty
  | .set items => items.card ≠ 0
  | .obj _ => true

/-- Lists and sets cannot be hashed. -/
def hashable : Value → Bool
  | .list _ | .set _ => false
  | _ => true

-- the order in which sets of strings are listed
instance : IsTrans String (· ≤ ·) := inferInstance
instance : Std.Antisymm fun a b : String => a ≤ b := inferInstance
instance : Std.Total fun a b : String => a ≤ b := inferInstance

/-- What `for x in v` runs over. The order of a set is not specified: sorted here. -/
def iter : Value → Option (List Value)
  | .str s => some (s.toList.map fun c => .str (String.singleton c))
  | .list items => some items
  | .set items => some ((items.sort (· ≤ ·)).map .str)
  | _ => none

/-- An optional string argument, `None` when absent. -/
def ofOption : Option String → Value
  | none => .null
  | some s => .str s

end Value

/-- The parts of the interpreter the code relies on and never looks into: `str.casefold`, and
`repr` (which is also `str` on anything but a string). -/
class Python where
  casefold : String → String
  repr : Value → String

export Python (casefold)

/-- An interpreter to evaluate the model with, right for ASCII names and flat values. -/
instance (priority := low) asciiPython : Python where
  casefold s := String.ofList (s.toList.map Char.toLower)
  repr
    | .null => "None"
    | .bool b => if b then "True" else "False"
    | .int i => toString i
    | .str s => "'" ++ s ++ "'"
    | .list _ | .set _ | .obj _ => "..."

/-- `str(v)`. -/
def Value.pyStr [Python] : Value → String
  | .str s => s
  | v => Python.repr v

/-- A value that is a string, as a field of a record holds it. -/
def Value.str? : Value → Option String
  | .str s => some s
  | _ => none

/-- The exceptions the modelled code raises, with the texts it gives them. -/
inductive PyErr where
  | writeValidationError (message : String)
  | valueError (message : String)
  | keyError (message : String)
  | notImplementedError (message : String)
  | typeError
  | attributeError
  deriving DecidableEq

/-- A property map: `dict[str, object]`. -/
abbrev Props := Dict String Value

/-- The six base node labels. -/
inductive CoreLabel where
  | entity
  | metric
  | column
  | document
  | benchmark
  | party
  deriving DecidableEq

namespace CoreLabel

def value : CoreLabel → String
  | entity => "Entity"
  | metric => "Metric"
  | column => "Column"
  | document => "Document"
  | benchmark => "Benchmark"
  | party => "Party"

/-- The properties `CORE_CONSTRAINTS` declares unique for the label. -/
def identity : CoreLabel → List String
  | entity => ["uid"]
  | metric => ["metric_key"]
  | column => ["system", "table", "name"]
  | document => ["uri"]
  | benchmark => ["benchmark_key"]
  | party => ["uid"]

theorem value_injective : Function.Injective value := by
  intro a b h
  cases a <;> cases b <;> first | rfl | exact absurd h (by decide)

@[simp] theorem value_inj {a b : CoreLabel} : a.value = b.value ↔ a = b :=
  value_injective.eq_iff

end CoreLabel

/-- The fixed resolver-spine relationship types. -/
inductive RelType where
  | measures
  | appliesTo
  | definedIn
  | benchmarkedAgainst
  | computedFrom
  | describes
  | hasRole
  | relatedTo
  deriving DecidableEq

namespace RelType

def value : RelType → String
  | measures => "MEASURES"
  | appliesTo => "APPLIES_TO"
  | definedIn => "DEFINED_IN"
  | benchmarkedAgainst => "BENCHMARKED_AGAINST"
  | computedFrom => "COMPUTED_FROM"
  | describes => "DESCRIBES"
  | hasRole => "HAS_ROLE"
  | relatedTo => "RELATED_TO"

theorem value_injective : Function.Injective value := by
  intro a b h
  cases a <;> cases b <;> first | rfl | exact absurd h (by decide)

@[simp] theorem value_inj {a b : RelType} : a.value = b.value ↔ a = b := value_injective.eq_iff

end RelType

/-- Provenance carried on every written edge. -/
structure EdgeProvenance where
  sourceRef : String
  asOf : String
  createdBy : String
  deriving DecidableEq

end MarginKG
