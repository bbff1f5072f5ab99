import MarginKG.Graph.Neo4j

/-! The texts that `Neo4jGraphStore` compiles the calls of the protocol to (`graph/store.py`), with
the parameters that go with them.

Labels, types and property names are interpolated into a fixed template, and property values are
parameters. A statement keeps the two kinds of text apart; `Statement.text` is what the driver
gets.

The parameters go to the driver as keyword arguments of `run(self, query, parameters=None,
**kwargs)`, so that a key property can be taken for an argument of `run` (`Cypher.run`). Of the
driver only this signature is used, and that it sends `dict(parameters or {}, **kwargs)`. -/

namespace MarginKG

/-- A part of a statement: text of the template, or a name that is interpolated into it. -/
inductive Piece where
  | text (s : String)
  | name (s : String)
  deriving DecidableEq

def Piece.str : Piece → String
  | text s | name s => s

abbrev Statement := List Piece

namespace Statement

/-- The text that is run. -/
def text (s : Statement) : String := String.join (s.map Piece.str)

/-- The interpolated names. -/
def names (s : Statement) : List String := s.filterMap fun
  | .text _ => none
  | .name s => some s

@[simp] theorem names_nil : names [] = [] := rfl

@[simp] theorem names_text (s : String) (l : Statement) : names (.text s :: l) = names l := rfl

@[simp] theorem names_name (s : String) (l : Statement) : names (.name s :: l) = s :: names l := rfl

@[simp] theorem names_append (l l' : Statement) : names (l ++ l') = names l ++ names l' :=
  List.filterMap_append ..

theorem names_intercalate (l : List Statement) :
    names ([Piece.text ", "].intercalate l) = l.flatMap names := by
  induction l with
  | nil => rfl
  | cons st l ih =>
    cases l with
    | nil => simp
    | cons st' l =>
      rw [List.intercalate_cons_cons, names_append, names_append, ih]
      simp

end Statement

/-- The value of a parameter. -/
inductive Param where
  | value (v : Value)
  | map (props : Props)
  deriving DecidableEq

/-- What a session runs. -/
structure Query where
  cypher : Statement
  params : Dict String Param
  deriving DecidableEq

/-- What the driver makes of the argument `parameters` before it adds the keyword arguments. -/
class Driver where
  parameters : Param → Except PyErr (Dict String Param)
  parameters_null : parameters (.value .null) = .ok ∅
  parameters_int : parameters (.value (.int 1)) = .error .typeError

/-- A driver to evaluate the model with, right for `None`, numbers, strings and maps. -/
instance (priority := low) neo4jDriver : Driver where
  parameters
    | .map props => .ok (.ofList (props.items.map fun (k, v) => (k, .value v)))
    | .value (.str s) =>
      if s = "" then .ok ∅
      else .error (.valueError
        "dictionary update sequence element #0 has length 1; 2 is required")
    | .value v => if v.truthy then .error .typeError else .ok ∅
  parameters_null := rfl
  parameters_int := rfl

namespace Cypher

/-- The arguments of `run`. -/
def runArguments : List String := ["self", "query", "parameters"]

/-- `s.run(cypher, **params)`, as what is sent to the database. The first two arguments are given
when the parameters come, and Python refuses to have an argument given twice. -/
def run [Driver] (q : Query) : Except PyErr Query :=
  if "self" ∈ q.params.keys ∨ "query" ∈ q.params.keys then .error .typeError
  else match q.params.get? "parameters" with
    | none => .ok q
    | some p => do
      let params ← Driver.parameters p
      return { q with params := params.update (q.params.filter fun k _ => k ≠ "parameters") }

variable [Python]

/-- `_IDENT.match(value)`, where `$` also matches before a final newline. -/
def matchIdent (value : String) : Bool :=
  let cs := value.toList
  isIdent (if cs.getLast? = some '\n' then cs.dropLast else cs)

/-- `_check_ident`. -/
def checkIdent (value : String) : Except PyErr String :=
  if matchIdent value then .ok value
  else .error (.valueError ("unsafe graph identifier: " ++ Python.repr (.str value)))

/-- `", ".join(f"{_check_ident(k)}: ${k}" for k in key_props)`, with the parameters prefixed. -/
def keyPattern (param : String) (keyProps : Props) : Except PyErr Statement := do
  let pats ← keyProps.keys.mapM fun k => do
    return [.name (← checkIdent k), .text (": $" ++ param), .name k]
  return [Piece.text ", "].intercalate pats

/-- The parameters of a key pattern. -/
def keyParams (param : String) (keyProps : Props) : List (String × Param) :=
  keyProps.items.map fun (k, v) => (param ++ k, .value v)

def upsertNode (baseLabel : String) (keyProps setProps : Props) (extraLabels : List String) :
    Except PyErr Query := do
  let label ← checkIdent baseLabel
  let pat ← keyPattern "" keyProps
  let extras ← extraLabels.mapM fun extra => do
    return [.text " SET n:", .name (← checkIdent extra)]
  return {
    cypher := [.text "MERGE (n:", .name label, .text " \x7b"] ++ pat ++
      [.text "\x7d) SET n += $set_props"] ++ extras.flatten
    params := (Dict.ofList (keyParams "" keyProps)).set "set_props" (.map setProps) }

def upsertEdge (relType srcLabel : String) (srcKey : Props) (dstLabel : String)
    (dstKey keyProps setProps : Props) : Except PyErr Query := do
  let rel ← checkIdent relType
  let sl ← checkIdent srcLabel
  let dl ← checkIdent dstLabel
  let sPat ← keyPattern "s_" srcKey
  let dPat ← keyPattern "d_" dstKey
  let rPat ← keyPattern "r_" keyProps
  let rPat := if keyProps.keys = [] then [] else [.text " \x7b"] ++ rPat ++ [.text "\x7d"]
  return {
    cypher := [.text "MATCH (s:", .name sl, .text " \x7b"] ++ sPat ++
      [.text "\x7d) MATCH (d:", .name dl, .text " \x7b"] ++ dPat ++
      [.text "\x7d) MERGE (s)-[r:", .name rel] ++ rPat ++ [.text "]->(d) SET r += $set_props"]
    params := Dict.ofList <| [("set_props", .map setProps)] ++ keyParams "s_" srcKey ++
      keyParams "d_" dstKey ++ keyParams "r_" keyProps }

def getNode (baseLabel : String) (keyProps : Props) : Except PyErr Query := do
  let label ← checkIdent baseLabel
  let pat ← keyPattern "" keyProps
  return {
    cypher := [.text "MATCH (n:", .name label, .text " \x7b"] ++ pat ++
      [.text "\x7d) RETURN n, labels(n) AS labels"]
    params := .ofList (keyParams "" keyProps) }

def outNeighbors (srcLabel : String) (srcKey : Props) (relType : String) :
    Except PyErr Query := do
  let sl ← checkIdent srcLabel
  let rel ← checkIdent relType
  let pat ← keyPattern "" srcKey
  return {
    cypher := [.text "MATCH (s:", .name sl, .text " \x7b"] ++ pat ++
      [.text "\x7d)-[r:", .name rel, .text "]->(d) RETURN d, labels(d) AS labels, r"]
    params := .ofList (keyParams "" srcKey) }

def nodesByLabel (baseLabel : String) : Except PyErr Query := do
  let label ← checkIdent baseLabel
  return {
    cypher := [.text "MATCH (n:", .name label, .text ") RETURN n, labels(n) AS labels"]
    params := ∅ }

/-- What a call of the protocol runs. -/
def compile : StoreCall → Except PyErr Query
  | .upsertNode baseLabel keyProps setProps extraLabels =>
    upsertNode baseLabel keyProps setProps extraLabels
  | .upsertEdge relType srcLabel srcKey dstLabel dstKey keyProps setProps =>
    upsertEdge relType srcLabel srcKey dstLabel dstKey keyProps setProps
  | .getNode baseLabel keyProps => getNode baseLabel keyProps
  | .outNeighbors srcLabel srcKey relType => outNeighbors srcLabel srcKey relType
  | .nodesByLabel baseLabel => nodesByLabel baseLabel

end Cypher

end MarginKG
