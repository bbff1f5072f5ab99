import MarginKG.Graph.Cypher
import MarginKG.Verify.Stores

/-! What the texts of the statements can hold (`Cypher.injectionFree_iff`).

Every name that a call gives is checked before it is interpolated, and nothing else of the call gets
into the text (`Cypher.compile_checked`). The check accepts one kind of name that is no identifier:
an identifier with a newline behind it. And it accepts the names of the arguments of `run`, which
takes a key property of such a name for its own argument. -/

namespace MarginKG

/-- The labels, types and property names that the method interpolates, as they are checked. -/
def StoreCall.names : StoreCall → List String
  | .upsertNode baseLabel keyProps _ extraLabels => baseLabel :: (keyProps.keys ++ extraLabels)
  | .upsertEdge relType srcLabel srcKey dstLabel dstKey keyProps _ =>
    relType :: srcLabel :: dstLabel :: (srcKey.keys ++ (dstKey.keys ++ keyProps.keys))
  | .getNode baseLabel keyProps => baseLabel :: keyProps.keys
  | .outNeighbors srcLabel srcKey relType => srcLabel :: relType :: srcKey.keys
  | .nodesByLabel baseLabel => [baseLabel]

/-- The calls differ only in property values. -/
inductive StoreCall.SameNames : StoreCall → StoreCall → Prop
  | upsertNode {keyProps keyProps' setProps setProps' : Props} :
    keyProps'.keys = keyProps.keys → setProps'.keys = setProps.keys →
    SameNames (.upsertNode baseLabel keyProps setProps extraLabels)
      (.upsertNode baseLabel keyProps' setProps' extraLabels)
  | upsertEdge {srcKey srcKey' dstKey dstKey' keyProps keyProps' setProps setProps' : Props} :
    srcKey'.keys = srcKey.keys → dstKey'.keys = dstKey.keys → keyProps'.keys = keyProps.keys →
    setProps'.keys = setProps.keys →
    SameNames (.upsertEdge relType srcLabel srcKey dstLabel dstKey keyProps setProps)
      (.upsertEdge relType srcLabel srcKey' dstLabel dstKey' keyProps' setProps')
  | getNode {keyProps keyProps' : Props} : keyProps'.keys = keyProps.keys →
    SameNames (.getNode baseLabel keyProps) (.getNode baseLabel keyProps')
  | outNeighbors {srcKey srcKey' : Props} : srcKey'.keys = srcKey.keys →
    SameNames (.outNeighbors srcLabel srcKey relType) (.outNeighbors srcLabel srcKey' relType)
  | nodesByLabel : SameNames (.nodesByLabel baseLabel) (.nodesByLabel baseLabel)

theorem StoreCall.SameNames.names {call call' : StoreCall} (h : call.SameNames call') :
    call'.names = call.names := by
  cases h with
  | upsertNode hkey => simp only [StoreCall.names, hkey]
  | upsertEdge hsrc hdst hkey => simp only [StoreCall.names, hsrc, hdst, hkey]
  | getNode hkey => simp only [StoreCall.names, hkey]
  | outNeighbors hsrc => simp only [StoreCall.names, hsrc]
  | nodesByLabel => rfl

/-- The key properties that go to the driver under their own names. Those of an edge and of its
ends get a prefix. -/
def StoreCall.keywords : StoreCall → Props
  | .upsertNode _ keyProps .. => keyProps
  | .getNode _ keyProps => keyProps
  | .outNeighbors _ srcKey _ => srcKey
  | .upsertEdge .. => ∅
  | .nodesByLabel _ => ∅

/-- The call with the value `v` for one of these properties. -/
def StoreCall.setKeyword (k : String) (v : Value) : StoreCall → StoreCall
  | .upsertNode baseLabel keyProps setProps extraLabels =>
    .upsertNode baseLabel (keyProps.set k v) setProps extraLabels
  | .getNode baseLabel keyProps => .getNode baseLabel (keyProps.set k v)
  | .outNeighbors srcLabel srcKey relType => .outNeighbors srcLabel (srcKey.set k v) relType
  | call => call

theorem StoreCall.SameNames.keywords {call call' : StoreCall} (h : call.SameNames call') :
    call'.keywords.keys = call.keywords.keys := by
  cases h with
  | upsertNode hkey => exact hkey
  | upsertEdge => rfl
  | getNode hkey => exact hkey
  | outNeighbors hsrc => exact hsrc
  | nodesByLabel => rfl

theorem StoreCall.setKeyword_sameNames {call : StoreCall} (h : k ∈ call.keywords.keys)
    (v : Value) : call.SameNames (call.setKeyword k v) := by
  have hset {props : Props} (hk : k ∈ props.keys) : (props.set k v).keys = props.keys := by
    rw [Dict.keys_set, if_pos hk]
  cases call with
  | upsertNode => exact .upsertNode (hset h) rfl
  | upsertEdge => cases h
  | getNode => exact .getNode (hset h)
  | outNeighbors => exact .outNeighbors (hset h)
  | nodesByLabel => cases h

theorem StoreCall.keywords_setKeyword {call : StoreCall} (h : k ∈ call.keywords.keys) (v : Value) :
    (call.setKeyword k v).keywords = call.keywords.set k v := by
  cases call with
  | upsertEdge | nodesByLabel => cases h
  | _ => rfl

namespace Cypher

/-- The template of a key pattern. -/
def keyTemplate (param : String) (keys : List String) : Statement :=
  [Piece.text ", "].intercalate (keys.map fun k => [.name k, .text (": $" ++ param), .name k])

/-- The template of the method, with the names of the call in it, unchecked. -/
def template : StoreCall → Statement
  | .upsertNode baseLabel keyProps _ extraLabels =>
    [.text "MERGE (n:", .name baseLabel, .text " \x7b"] ++ keyTemplate "" keyProps.keys ++
      [.text "\x7d) SET n += $set_props"] ++
      extraLabels.flatMap fun extra => [.text " SET n:", .name extra]
  | .upsertEdge relType srcLabel srcKey dstLabel dstKey keyProps _ =>
    [.text "MATCH (s:", .name srcLabel, .text " \x7b"] ++ keyTemplate "s_" srcKey.keys ++
      [.text "\x7d) MATCH (d:", .name dstLabel, .text " \x7b"] ++ keyTemplate "d_" dstKey.keys ++
      [.text "\x7d) MERGE (s)-[r:", .name relType] ++
      (if keyProps.keys = [] then []
        else [.text " \x7b"] ++ keyTemplate "r_" keyProps.keys ++ [.text "\x7d"]) ++
      [.text "]->(d) SET r += $set_props"]
  | .getNode baseLabel keyProps =>
    [.text "MATCH (n:", .name baseLabel, .text " \x7b"] ++ keyTemplate "" keyProps.keys ++
      [.text "\x7d) RETURN n, labels(n) AS labels"]
  | .outNeighbors srcLabel srcKey relType =>
    [.text "MATCH (s:", .name srcLabel, .text " \x7b"] ++ keyTemplate "" srcKey.keys ++
      [.text "\x7d)-[r:", .name relType, .text "]->(d) RETURN d, labels(d) AS labels, r"]
  | .nodesByLabel baseLabel =>
    [.text "MATCH (n:", .name baseLabel, .text ") RETURN n, labels(n) AS labels"]

theorem mem_names_intercalate {l : List Statement} :
    s ∈ Statement.names ([Piece.text ", "].intercalate l) ↔ ∃ st ∈ l, s ∈ st.names := by
  rw [Statement.names_intercalate, List.mem_flatMap]

theorem mem_names_keyTemplate : s ∈ (keyTemplate param keys).names ↔ s ∈ keys := by
  simp [keyTemplate, mem_names_intercalate, eq_comm]

theorem mem_names_extras {extraLabels : List String} :
    s ∈ Statement.names (extraLabels.flatMap fun extra => [.text " SET n:", .name extra]) ↔
      s ∈ extraLabels := by
  induction extraLabels with
  | nil => rfl
  | cons extra extraLabels ih =>
    rw [List.flatMap_cons, Statement.names_append, List.mem_append, ih, List.mem_cons]
    simp

/-- The names in the template are those that the call gives. -/
theorem mem_names_template : s ∈ (template call).names ↔ s ∈ call.names := by
  cases call with
  | upsertNode => simp [template, StoreCall.names, mem_names_keyTemplate, mem_names_extras]
  | upsertEdge relType srcLabel srcKey dstLabel dstKey keyProps =>
    by_cases hkeys : keyProps.keys = [] <;>
      simp [template, StoreCall.names, mem_names_keyTemplate, hkeys, or_comm, or_left_comm]
  | getNode => simp [template, StoreCall.names, mem_names_keyTemplate]
  | outNeighbors => simp [template, StoreCall.names, mem_names_keyTemplate, or_comm]
  | nodesByLabel => simp [template, StoreCall.names]

/-! ## Checks -/

/-- Some names are checked: all are accepted and `a` is returned, or `ValueError` is raised for
one that is not. -/
def Checked (names : List String) (r : Except PyErr α) (a : α) : Prop :=
  (∀ s ∈ names, matchIdent s) ∧ r = .ok a ∨
    (∃ s ∈ names, ¬ matchIdent s) ∧ ∃ message, r = .error (.valueError message)

namespace Checked

theorem pure (a : α) : Checked [] (.ok a) a := .inl ⟨nofun, rfl⟩

theorem bind {r : Except PyErr α} {f : α → Except PyErr β} (h : Checked names r a)
    (hf : Checked names' (f a) b) : Checked (names ++ names') (r >>= f) b := by
  rcases h with ⟨hnames, rfl⟩ | ⟨⟨s, hs, hrejected⟩, message, rfl⟩
  · rcases hf with ⟨hnames', hf⟩ | ⟨⟨s, hs, hrejected⟩, message, hf⟩
    · exact .inl ⟨fun s hs => (List.mem_append.mp hs).elim (hnames s) (hnames' s), hf⟩
    · exact .inr ⟨⟨s, List.mem_append_right _ hs, hrejected⟩, message, hf⟩
  · exact .inr ⟨⟨s, List.mem_append_left _ hs, hrejected⟩, message, rfl⟩

/-- The last step checks nothing. -/
theorem map {r : Except PyErr α} (h : Checked names r a) (f : α → β) :
    Checked names (do return f (← r)) (f a) := by
  have := h.bind (f := fun a => Pure.pure (f a)) (.pure (f a))
  rwa [List.append_nil] at this

variable [Python]

theorem checkIdent (value : String) : Checked [value] (checkIdent value) value := by
  rw [Cypher.checkIdent]
  split
  · refine .inl ⟨fun s hs => ?_, rfl⟩
    rwa [List.mem_singleton.mp hs]
  · exact .inr ⟨⟨value, List.mem_singleton.mpr rfl, ‹_›⟩, _, rfl⟩

/-- Each of some names is checked before its text is put together. -/
theorem mapM (values : List String) (f : String → String → α) : Checked values
    (values.mapM fun value => do return f value (← Cypher.checkIdent value))
    (values.map fun value => f value value) := by
  induction values with
  | nil => exact .pure []
  | cons value values ih =>
    rw [List.mapM_cons]
    exact ((checkIdent value).map (f value)).bind (ih.map (f value value :: ·))

theorem keyPattern (param : String) (keyProps : Props) :
    Checked keyProps.keys (keyPattern param keyProps) (keyTemplate param keyProps.keys) := by
  let pat (k name : String) : Statement := [.name name, .text (": $" ++ param), .name k]
  exact (mapM keyProps.keys pat).map [Piece.text ", "].intercalate

end Checked

/-! ## Keyword arguments -/

theorem get?_keyParams (keyProps : Props) (k : String) :
    (Dict.ofList (keyParams "" keyProps)).get? k = (keyProps.get? k).map .value := by
  have hkeys : (keyParams "" keyProps).map Prod.fst = keyProps.keys := by
    simp only [keyParams, List.map_map]
    exact List.map_congr_left fun e _ => String.empty_append
  have hget (l : List (String × Value)) :
      Entries.get? k (l.map fun e => ("" ++ e.1, Param.value e.2)) =
        (Entries.get? k l).map .value := by
    induction l with
    | nil => rfl
    | cons e l ih =>
      rw [List.map_cons, Entries.get?, Entries.get?, ih, String.empty_append]
      split <;> rfl
  rw [Dict.get?_ofList (hkeys ▸ keyProps.nodup)]
  exact hget keyProps.items

/-- With a prefix, no key property has the name of an argument of `run`. -/
theorem not_mem_keyParams (hparam : param ∈ ["s_", "d_", "r_"]) (hk : k ∈ runArguments)
    (keyProps : Props) : k ∉ (keyParams param keyProps).map Prod.fst := by
  intro hmem
  obtain ⟨_, he, hname⟩ := List.mem_map.mp hmem
  obtain ⟨e, -, rfl⟩ := List.mem_map.mp he
  have hname : param.toList ++ e.1.toList = k.toList := by rw [← hname, String.toList_append]
  have hparam : param = "s_" ∨ param = "d_" ∨ param = "r_" := by simpa using hparam
  have hk : k = "self" ∨ k = "query" ∨ k = "parameters" := by simpa [runArguments] using hk
  rcases hparam with rfl | rfl | rfl <;> rcases hk with rfl | rfl | rfl <;> simp at hname

section statements
variable [Driver]

/-- What the driver makes of parameters none of which has the name of an argument of `run`. -/
theorem run_free {q : Query} (h : ∀ k ∈ runArguments, q.params.get? k = none) : run q = .ok q := by
  have hself := Dict.get?_eq_none.mp (h "self" (by simp [runArguments]))
  have hquery := Dict.get?_eq_none.mp (h "query" (by simp [runArguments]))
  rw [run, if_neg (not_or.mpr ⟨hself, hquery⟩), h "parameters" (by simp [runArguments])]

theorem run_given {q : Query} (h : k ∈ q.params.keys) (hk : k = "self" ∨ k = "query") :
    run q = .error .typeError := by
  rw [run, if_pos (hk.imp (fun hk => hk ▸ h) fun hk => hk ▸ h)]

/-- With an argument `parameters`, the statement is run or not as the driver takes it. -/
theorem run_parameters {q : Query} (hself : "self" ∉ q.params.keys)
    (hquery : "query" ∉ q.params.keys) (h : q.params.get? "parameters" = some p) :
    Query.cypher <$> run q = (fun _ => q.cypher) <$> Driver.parameters p := by
  rw [run, if_neg (not_or.mpr ⟨hself, hquery⟩), h]
  simp only
  rcases Driver.parameters p with e | params <;> rfl

variable [Python]

/-- The text that a call runs. -/
def statement (call : StoreCall) : Except PyErr Statement :=
  Query.cypher <$> (compile call >>= run)

omit [Driver] in
/-- A call whose names are accepted is compiled to the template of its method. Of its parameters,
only the key properties that have no prefix can have the name of an argument of `run`. -/
theorem compile_checked (call : StoreCall) : ∃ q, Checked call.names (compile call) q ∧
    q.cypher = template call ∧
    ∀ k ∈ runArguments, q.params.get? k = (call.keywords.get? k).map .value := by
  cases call with
  | upsertNode baseLabel keyProps setProps extraLabels =>
    let extra (_ name : String) : Statement := [.text " SET n:", .name name]
    refine ⟨_, (Checked.checkIdent baseLabel).bind <| (Checked.keyPattern _ keyProps).bind <|
      (Checked.mapM extraLabels extra).map _, rfl, fun k hk => ?_⟩
    have hne : "set_props" ≠ k := fun h => absurd hk (h ▸ by decide)
    rw [Dict.get?_set_of_ne hne]
    exact get?_keyParams keyProps k
  | upsertEdge relType srcLabel srcKey dstLabel dstKey keyProps setProps =>
    refine ⟨_, (Checked.checkIdent relType).bind <| (Checked.checkIdent srcLabel).bind <|
      (Checked.checkIdent dstLabel).bind <| (Checked.keyPattern _ srcKey).bind <|
      (Checked.keyPattern _ dstKey).bind <| (Checked.keyPattern _ keyProps).map _, rfl,
      fun k hk => ?_⟩
    have hne : k ≠ "set_props" := fun h => absurd hk (h ▸ by decide)
    have hfree {param : String} (hparam : param ∈ ["s_", "d_", "r_"]) (props : Props) :=
      not_mem_keyParams hparam hk props
    refine Dict.get?_setAll_of_not_mem ?_ ∅
    simp only [List.map_append, List.mem_append, List.map_cons, List.map_nil, List.mem_singleton]
    rintro (((h | h) | h) | h)
    · exact hne h
    · exact hfree (by simp) _ h
    · exact hfree (by simp) _ h
    · exact hfree (by simp) _ h
  | getNode baseLabel keyProps =>
    exact ⟨_, (Checked.checkIdent baseLabel).bind <| (Checked.keyPattern _ keyProps).map _, rfl,
      fun k _ => get?_keyParams keyProps k⟩
  | outNeighbors srcLabel srcKey relType =>
    exact ⟨_, (Checked.checkIdent srcLabel).bind <| (Checked.checkIdent relType).bind <|
      (Checked.keyPattern _ srcKey).map _, rfl, fun k _ => get?_keyParams srcKey k⟩
  | nodesByLabel baseLabel => exact ⟨_, (Checked.checkIdent baseLabel).map _, rfl, fun _ _ => rfl⟩

omit [Driver] in
theorem compile_accepted {call : StoreCall} (h : ∀ s ∈ call.names, matchIdent s) :
    ∃ q, compile call = .ok q ∧ q.cypher = template call ∧
      ∀ k ∈ runArguments, q.params.get? k = (call.keywords.get? k).map .value := by
  obtain ⟨q, ⟨-, hq⟩ | ⟨⟨s, hs, hrejected⟩, -⟩, hspec⟩ := compile_checked call
  · exact ⟨q, hq, hspec⟩
  · exact absurd (h s hs) hrejected

/-- What the driver sends is what the call is compiled to, when no key property is taken for an
argument of `run`. -/
theorem statement_eq {call : StoreCall} (h : (∃ s ∈ call.names, ¬ matchIdent s) ∨
    ∀ k ∈ call.keywords.keys, k ∉ runArguments) :
    statement call = Query.cypher <$> compile call := by
  obtain ⟨q, ⟨hnames, hq⟩ | ⟨-, message, hq⟩, -, hparams⟩ := compile_checked call
  · have hfree := h.resolve_left fun ⟨s, hs, hrejected⟩ => hrejected (hnames s hs)
    have hrun : run q = .ok q := run_free fun k hk => by
      rw [hparams k hk, Dict.get?_eq_none.mpr fun hmem => hfree k hmem hk]
      rfl
    rw [statement, hq]
    exact congrArg (Query.cypher <$> ·) hrun
  · rw [statement, hq]
    rfl

/-- A call with accepted names runs its template. -/
theorem statement_accepted {call : StoreCall} (h : ∀ s ∈ call.names, matchIdent s)
    (hfree : ∀ k ∈ call.keywords.keys, k ∉ runArguments) :
    statement call = .ok (template call) := by
  obtain ⟨q, hq, hcypher, -⟩ := compile_accepted h
  rw [statement_eq (.inr hfree), hq, ← hcypher]
  rfl

theorem statement_given {call : StoreCall} (h : ∀ s ∈ call.names, matchIdent s)
    (hmem : k ∈ call.keywords.keys) (hk : k = "self" ∨ k = "query") :
    statement call = .error .typeError := by
  obtain ⟨q, hq, -, hparams⟩ := compile_accepted h
  obtain ⟨v, hv⟩ := Dict.mem_keys.mp hmem
  have hget := hparams k (by rcases hk with rfl | rfl <;> simp [runArguments])
  rw [hv] at hget
  rw [statement, hq]
  exact congrArg (Query.cypher <$> ·) (run_given (Dict.mem_keys.mpr ⟨_, hget⟩) hk)

theorem statement_parameters {call : StoreCall} (h : ∀ s ∈ call.names, matchIdent s)
    (hself : "self" ∉ call.keywords.keys) (hquery : "query" ∉ call.keywords.keys)
    (hv : call.keywords.get? "parameters" = some v) :
    statement call = (fun _ => template call) <$> Driver.parameters (.value v) := by
  obtain ⟨q, hq, hcypher, hparams⟩ := compile_accepted h
  have hnot {k : String} (hk : k ∈ runArguments) (hmem : k ∉ call.keywords.keys) :
      k ∉ q.params.keys := by
    rw [← Dict.get?_eq_none, hparams k hk, Dict.get?_eq_none.mpr hmem]
    rfl
  have hget := hparams "parameters" (by simp [runArguments])
  rw [hv] at hget
  rw [statement, hq, ← hcypher]
  exact run_parameters (hnot (by simp [runArguments]) hself) (hnot (by simp [runArguments]) hquery)
    hget

omit [Driver] [Python] in
/-- The check accepts an identifier, also with a newline behind it. -/
theorem isIdent_iff (h : matchIdent value) :
    isIdent value.toList ↔ value.toList.getLast? ≠ some '\n' := by
  constructor
  · intro hident hlast
    have hnewline := isIdent_mem hident (List.mem_of_getLast? hlast)
    exact absurd hnewline (by decide)
  · intro hlast
    rwa [matchIdent, if_neg hlast] at h

/-- A call raises `ValueError` before anything is run, or it runs the template of its method with
an identifier for every interpolated name; and its text depends on no property value. -/
structure InjectionFree (call : StoreCall) : Prop where
  identifiers : (∃ message, statement call = .error (.valueError message)) ∨
    ∃ st, statement call = .ok st ∧ st = template call ∧ ∀ s ∈ st.names, isIdent s.toList
  parametrized : ∀ call', call.SameNames call' → statement call' = statement call

/-- `TypeError` is raised for `self` and `query`. For `parameters` it depends on the value. -/
theorem InjectionFree.free {call : StoreCall} (h : InjectionFree call)
    (hnames : ∀ s ∈ call.names, matchIdent s) : ∀ k ∈ call.keywords.keys, k ∉ runArguments := by
  have hnot {k : String} (hk : k = "self" ∨ k = "query") : k ∉ call.keywords.keys := by
    intro hmem
    have hrun := statement_given hnames hmem hk
    rcases h.identifiers with ⟨message, hst⟩ | ⟨st, hst, -⟩ <;> cases hrun.symm.trans hst
  intro k hmem hk
  have hk : k = "self" ∨ k = "query" ∨ k = "parameters" := by simpa [runArguments] using hk
  rcases hk with rfl | rfl | rfl
  · exact hnot (.inl rfl) hmem
  · exact hnot (.inr rfl) hmem
  · have hvalue (v : Value) :
        statement call = (fun _ => template (call.setKeyword "parameters" v)) <$>
          Driver.parameters (.value v) := by
      have hsame := StoreCall.setKeyword_sameNames hmem v
      have hkeywords := StoreCall.keywords_setKeyword hmem v
      have hkept {k : String} (hk : k ∉ call.keywords.keys) (hne : k ≠ "parameters") :
          k ∉ (call.setKeyword "parameters" v).keywords.keys := by
        rw [hkeywords, Dict.mem_keys_set]
        exact not_or.mpr ⟨hne, hk⟩
      rw [← h.parametrized _ hsame]
      refine statement_parameters (hsame.names ▸ hnames) (hkept (hnot (.inl rfl)) (by decide))
        (hkept (hnot (.inr rfl)) (by decide)) ?_
      rw [hkeywords, Dict.get?_set_self]
    have hnull := hvalue .null
    have hint := hvalue (.int 1)
    rw [Driver.parameters_null] at hnull
    rw [Driver.parameters_int] at hint
    cases hnull.symm.trans hint

omit [Driver] in
theorem keyPattern_congr {keyProps keyProps' : Props} (h : keyProps'.keys = keyProps.keys) :
    keyPattern param keyProps' = keyPattern param keyProps := by
  rw [keyPattern, keyPattern, h]

omit [Driver] in
/-- Property values are parameters: the text, or the error, does not depend on them. -/
theorem compile_congr {call call' : StoreCall} (h : call.SameNames call') :
    Query.cypher <$> compile call' = Query.cypher <$> compile call := by
  cases h with
  | upsertNode hkey => simp only [compile, upsertNode, map_bind, map_pure, keyPattern_congr hkey]
  | upsertEdge hsrc hdst hkey =>
    simp only [compile, upsertEdge, map_bind, map_pure, keyPattern_congr hsrc,
      keyPattern_congr hdst, keyPattern_congr hkey, hkey]
  | getNode hkey => simp only [compile, getNode, map_bind, map_pure, keyPattern_congr hkey]
  | outNeighbors hsrc =>
    simp only [compile, outNeighbors, map_bind, map_pure, keyPattern_congr hsrc]
  | nodesByLabel => rfl

/-- **What can be injected**: a newline behind a name; and a key property can be taken for an
argument of `run`. Neither happens in a call that gives a name that is rejected. -/
theorem injectionFree_iff (call : StoreCall) : InjectionFree call ↔
    (∃ s ∈ call.names, ¬ matchIdent s) ∨
      (∀ s ∈ call.names, s.toList.getLast? ≠ some '\n') ∧
        ∀ k ∈ call.keywords.keys, k ∉ runArguments := by
  constructor
  · intro h
    refine (Classical.em (∃ s ∈ call.names, ¬ matchIdent s)).imp_right fun hnames => ?_
    have hnames : ∀ s ∈ call.names, matchIdent s := by simpa using hnames
    have hfree := h.free hnames
    refine ⟨fun s hs => ?_, hfree⟩
    have hrun := statement_accepted hnames hfree
    rcases h.identifiers with ⟨message, herror⟩ | ⟨st, -, rfl, hident⟩
    · cases hrun.symm.trans herror
    · exact (isIdent_iff (hnames s hs)).mp (hident s (mem_names_template.mpr hs))
  · intro h
    have heq := statement_eq (h.imp_right And.right)
    refine ⟨?_, fun call' hsame => ?_⟩
    · obtain ⟨q, ⟨hnames, hq⟩ | ⟨-, message, hq⟩, hcypher, -⟩ := compile_checked call
      · obtain ⟨hnewline, hfree⟩ := h.resolve_left fun ⟨s, hs, hrejected⟩ => hrejected (hnames s hs)
        refine .inr ⟨_, statement_accepted hnames hfree, rfl, fun s hs => ?_⟩
        have hs := mem_names_template.mp hs
        exact (isIdent_iff (hnames s hs)).mpr (hnewline s hs)
      · exact .inl ⟨message, by rw [heq, hq]; rfl⟩
    · have h' : (∃ s ∈ call'.names, ¬ matchIdent s) ∨
          ∀ k ∈ call'.keywords.keys, k ∉ runArguments := by
        rw [hsame.names, hsame.keywords]
        exact h.imp_right And.right
      rw [heq, statement_eq h', compile_congr hsame]

end statements

/-- A label with a newline behind it, as a YAML block scalar ends, gets into the text. -/
theorem injectionFree_newline :
    let call : StoreCall := .upsertNode "Entity" (entityKey "u1") ∅ ["Facility\n"]
    Statement.text <$> statement call =
      .ok "MERGE (n:Entity \x7buid: $uid\x7d) SET n += $set_props SET n:Facility\n" ∧
    ¬ InjectionFree call := by
  intro call
  have hrun : statement call = .ok (template call) := rfl
  refine ⟨rfl, fun h => ?_⟩
  rcases h.identifiers with ⟨message, herror⟩ | ⟨st, -, rfl, hident⟩
  · rw [hrun] at herror
    cases herror
  · have hname : "Facility\n" ∈ (template call).names :=
      mem_names_template.mpr (by simp [call, StoreCall.names])
    exact absurd (hident _ hname) (by decide)

/-! ## The texts and the graph -/

/-- Both raise the same, or both return. -/
def SameError (r : Except PyErr α) (r' : Except PyErr β) : Prop := ∀ e, r = .error e ↔ r' = .error e

theorem SameError.pure (a : α) (b : β) : SameError (pure a) (pure b) := fun _ => ⟨nofun, nofun⟩

theorem SameError.error (e : PyErr) :
    SameError (.error e : Except PyErr α) (.error e : Except PyErr β) :=
  fun _ => ⟨fun h => by cases h; rfl, fun h => by cases h; rfl⟩

theorem SameError.bind {r : Except PyErr α} {r' : Except PyErr β} {f : α → Except PyErr γ}
    {f' : β → Except PyErr δ} (h : SameError r r') (hf : ∀ a b, SameError (f a) (f' b)) :
    SameError (r >>= f) (r' >>= f') := by
  rcases r with e | a
  · rw [(h e).mp rfl]
    exact .error e
  · rcases r' with e | b
    · cases (h e).mpr rfl
    · exact hf a b

theorem SameError.map_left {r : Except PyErr α} {r' : Except PyErr β} (h : SameError r r')
    (f : α → γ) : SameError (r.map f) r' := by
  rcases r with e | a
  · rw [(h e).mp rfl]
    exact .error e
  · exact fun e => ⟨nofun, fun hr' => nomatch (h e).mpr hr'⟩

theorem SameError.map_right {r : Except PyErr α} {r' : Except PyErr β} (h : SameError r r')
    (f : β → γ) : SameError r (do return f (← r')) := by
  rcases r' with e | b
  · rw [(h e).mpr rfl]
    exact .error e
  · exact fun e => ⟨fun hr => (nomatch (h e).mp hr), nofun⟩

theorem SameError.mapM {f : α → Except PyErr β} {f' : α → Except PyErr γ}
    (h : ∀ a, SameError (f a) (f' a)) (l : List α) : SameError (l.mapM f) (l.mapM f') := by
  induction l with
  | nil => exact .pure [] []
  | cons a l ih =>
    rw [List.mapM_cons, List.mapM_cons]
    exact (h a).bind fun _ _ => ih.bind fun _ _ => .pure _ _

section graph
variable [Python]

theorem checkIdent_sameError (value : String) :
    SameError (MarginKG.checkIdent value) (checkIdent value) := by
  let name := if value.toList.getLast? = some '\n' then value.toList.dropLast else value.toList
  have hname : MarginKG.checkIdent value = if matchIdent value then .ok (String.ofList name)
    else .error (.valueError ("unsafe graph identifier: " ++ Python.repr (.str value))) := rfl
  rw [hname, checkIdent]
  split
  · exact .pure _ _
  · exact .error _

theorem checkNames_sameError (param : String) (keyProps : Props) :
    SameError (checkNames keyProps) (keyPattern param keyProps) := by
  let pat (k name : String) : Statement := [.name name, .text (": $" ++ param), .name k]
  have hchecks (keys : List String) :
      SameError (keys.forM fun k => (MarginKG.checkIdent k).map fun _ => ())
        (keys.mapM fun k => do return pat k (← checkIdent k)) := by
    induction keys with
    | nil => exact .pure _ _
    | cons k keys ih =>
      rw [List.mapM_cons]
      exact (((checkIdent_sameError k).map_left _).map_right (pat k)).bind fun _ _ =>
        ih.map_right _
  exact (hchecks keyProps.keys).map_right _

omit [Python] in
theorem write_sameError {r : Except PyErr Neo4jGraph} {r' : Except PyErr α} (g : Neo4jGraph)
    (h : SameError r r') : SameError (Neo4jGraphStore.write g r).1 r' := by
  have := h.map_left fun _ => ()
  rcases r with e | g' <;> exact this

theorem handler_sameError [RowOrder] (call : StoreCall) (g : Neo4jGraph) :
    SameError (Neo4jGraphStore.handler call g).1 (compile call) := by
  cases call with
  | upsertNode baseLabel keyProps setProps extraLabels =>
    refine write_sameError g <| (checkIdent_sameError baseLabel).bind fun _ _ =>
      (checkNames_sameError _ keyProps).bind fun _ _ => ?_
    let set (_ name : String) : Statement := [.text " SET n:", .name name]
    have hextra (extra : String) := (checkIdent_sameError extra).map_right (set extra)
    exact (SameError.mapM hextra extraLabels).bind fun _ _ => .pure _ _
  | upsertEdge relType srcLabel srcKey dstLabel dstKey keyProps setProps =>
    exact write_sameError g <| (checkIdent_sameError relType).bind fun _ _ =>
      (checkIdent_sameError srcLabel).bind fun _ _ =>
      (checkIdent_sameError dstLabel).bind fun _ _ =>
      (checkNames_sameError _ srcKey).bind fun _ _ =>
      (checkNames_sameError _ dstKey).bind fun _ _ =>
      (checkNames_sameError _ keyProps).bind fun _ _ => .pure _ _
  | getNode baseLabel keyProps =>
    exact (checkIdent_sameError baseLabel).bind fun _ _ =>
      (checkNames_sameError _ keyProps).bind fun _ _ => .pure _ _
  | outNeighbors srcLabel srcKey relType =>
    exact (checkIdent_sameError srcLabel).bind fun _ _ =>
      (checkIdent_sameError relType).bind fun _ _ =>
      (checkNames_sameError _ srcKey).bind fun _ _ => .pure _ _
  | nodesByLabel baseLabel => exact (checkIdent_sameError baseLabel).bind fun _ _ => .pure _ _

/-- The graph refuses exactly the calls for which nothing is run, with the same error. It knows no
arguments of `run`: no key property may have the name of one. -/
theorem handler_statement [RowOrder] [Driver] {call : StoreCall}
    (h : ∀ k ∈ call.keywords.keys, k ∉ runArguments) (g : Neo4jGraph) :
    SameError (Neo4jGraphStore.handler call g).1 (statement call) := by
  rw [statement_eq (.inr h)]
  have hcompile := handler_sameError call g
  exact hcompile.map_right Query.cypher

end graph

end Cypher

/-- No identity has a field that could be taken for an argument of `run`. -/
theorem NodeRef.key_free (n : NodeRef) : ∀ k ∈ n.key.keys, k ∉ Cypher.runArguments := by
  rw [n.keys_key]
  rcases n.label <;> decide

/-- Nor has a call that the platform makes. -/
theorem Makes.keywords_free {P : Write → Prop} (h : Makes P c) :
    ∀ k ∈ c.keywords.keys, k ∉ Cypher.runArguments := by
  cases h with
  | write =>
    rename_i w _
    cases w with
    | node n => exact n.key_free
    | link => exact fun k hk => by cases hk
  | metrics => exact fun k hk => by cases hk
  | metric => exact NodeRef.key_free (.metric _)

end MarginKG
