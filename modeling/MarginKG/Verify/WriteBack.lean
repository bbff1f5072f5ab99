import MarginKG.Verify.Contents
import MarginKG.Verify.History

/-! Concurrent write-back: `add_metric_alias` calls whose reads and writes interleave.

A call reads the list of aliases in one call of the store and writes the extended list in another,
and nothing keeps other calls out in between. What is at no moment missing from the metric or from a
list that is about to be written to it stays (`Safe`). That is so of the aliases that were there
before, and of an added alias once no other call holds an older list (`aliases_kept`); one that is
overtaken can be lost (`alias_lost`). -/

namespace MarginKG

open InMemoryGraphStore

/-- `get_node`. -/
def StoreCall.IsRead : StoreCall → Prop
  | .getNode .. => True
  | _ => False

/-- `upsert_node`. -/
def StoreCall.IsWrite : StoreCall → Prop
  | .upsertNode .. => True
  | _ => False

/-- The aliases of a metric, as a list. -/
def InMemoryGraphStore.aliases (g : InMemoryGraphStore) (metricKey : String) : List Value :=
  (((g.nodes.get? (NodeRef.metric (.str metricKey)).id).bind (·.get? "aliases")).bind
    Value.iter).getD []

theorem aliases_eq {g : InMemoryGraphStore} (h : GraphClient.currentAliases
    (g.nodes.get? (NodeRef.metric (.str metricKey)).id) = .ok current) :
    current = g.aliases metricKey :=
  GraphClient.currentAliases_eq_ok h

theorem aliases_aliasWrite (g : InMemoryGraphStore) (metricKey : String) (l : List Value) :
    (handler (aliasWrite metricKey l).call g).2.aliases metricKey = l := by
  rw [InMemoryGraphStore.aliases, aliasWrite, get?_nodes_node, if_pos ⟨rfl, rfl⟩, Option.bind_some,
    updateNode_get? (by decide)]
  rfl

theorem aliases_aliasWrite_of_ne (g : InMemoryGraphStore) {k metricKey : String} (h : k ≠ metricKey)
    (l : List Value) :
    (handler (aliasWrite k l).call g).2.aliases metricKey = g.aliases metricKey := by
  have hne : (NodeRef.metric (.str k)).id ≠ (NodeRef.metric (.str metricKey)).id := fun hid => by
    cases NodeRef.id_injective hid
    exact h rfl
  rw [InMemoryGraphStore.aliases, aliasWrite, get?_nodes_node, if_neg fun hid => hne hid.2]
  rfl

/-! ## One call -/

theorem extendAliases_subset (current : List Value) (aliasName : String) :
    current ⊆ GraphClient.extendAliases current aliasName := by
  rw [GraphClient.extendAliases]
  split
  · exact List.Subset.refl _
  · exact List.subset_append_left ..

/-- How far a call of `add_metric_alias` has got, with the calls of the store that it has made. -/
inductive Lane (metricKey aliasName : String) : List StoreCall → StoreProgram Unit → Prop
  | start : Lane metricKey aliasName [] (GraphClient.addMetricAlias metricKey aliasName)
  | holds : c.IsRead → .str aliasName ∈ items →
    Lane metricKey aliasName [c] (aliasWrite metricKey items).program
  | raised : Lane metricKey aliasName l (.throw e)
  | done : c.IsRead → c'.IsWrite → Lane metricKey aliasName [c, c'] (.ret ())

theorem handler_getNode_metric (g : InMemoryGraphStore) (metricKey : String) :
    handler (.getNode CoreLabel.metric.value (metricKeyProps (.str metricKey))) g =
      (.ok (g.nodes.get? (NodeRef.metric (.str metricKey)).id), g) :=
  Prod.ext (g.getNode_ref (n := .metric (.str metricKey)) rfl) rfl

/-- The first step reads the aliases. -/
theorem addMetricAlias_step {g g' : InMemoryGraphStore} {k : c.Reply → StoreProgram Unit}
    (hp : GraphClient.addMetricAlias metricKey aliasName = .call c k)
    (hc : handler c g = (.ok r, g')) :
    c.IsRead ∧ g' = g ∧ ((∃ e, k r = .throw e) ∨ k r = (aliasWrite metricKey
      (GraphClient.extendAliases (g.aliases metricKey) aliasName)).program) := by
  rw [GraphClient.addMetricAlias_eq] at hp
  cases hp
  cases (handler_getNode_metric g metricKey).symm.trans hc
  refine ⟨trivial, rfl, ?_⟩
  rcases hcur : GraphClient.currentAliases (g.nodes.get? (NodeRef.metric (.str metricKey)).id) with
    e | current
  · refine .inl ⟨e, ?_⟩
    dsimp only
    rw [hcur]
    rfl
  · refine .inr ?_
    dsimp only
    rw [hcur, aliases_eq hcur]
    rfl

/-- The first step does not raise. -/
theorem addMetricAlias_reads {g g' : InMemoryGraphStore} {k : c.Reply → StoreProgram Unit}
    (hp : GraphClient.addMetricAlias metricKey aliasName = .call c k) :
    handler c g ≠ (.error e, g') := by
  intro hc
  rw [GraphClient.addMetricAlias_eq] at hp
  cases hp
  cases (handler_getNode_metric g metricKey).symm.trans hc

/-- The second step writes the list that it holds, also when it raises afterwards. -/
theorem aliasWrite_step {g g' : InMemoryGraphStore} {k : c.Reply → StoreProgram Unit}
    (hp : (aliasWrite metricKey items).program = .call c k) (hc : handler c g = (x, g')) :
    c.IsWrite ∧ (∀ r, k r = .ret ()) ∧ g' = (handler (aliasWrite metricKey items).call g).2 := by
  cases hp
  exact ⟨trivial, fun _ => rfl, (congrArg Prod.snd hc).symm⟩

theorem aliasWrite_program_inj (h : (aliasWrite k items).program = (aliasWrite k' items').program) :
    k = k' ∧ items = items' := by
  have hcall : (aliasWrite k items).call = (aliasWrite k' items').call := by
    injection h
  have hwrite := Write.call_injective hcall
  simp only [aliasWrite, Write.node.injEq, NodeRef.metric.injEq, Value.str.injEq] at hwrite
  obtain ⟨hk, hprops, -⟩ := hwrite
  have hitems : some (Value.list items) = some (.list items') :=
    congrArg (fun props : Props => props.get? "aliases") hprops
  cases hitems
  exact ⟨hk, rfl⟩

/-- A call that has returned has read and written. -/
theorem Lane.of_ret (h : Lane metricKey aliasName l (.ret ())) :
    ∃ c c', l = [c, c'] ∧ c.IsRead ∧ c'.IsWrite := by
  generalize hq : (Program.ret () : StoreProgram Unit) = q at h
  cases h with
  | done hread hwrite => exact ⟨_, _, rfl, hread, hwrite⟩
  | start | holds | raised => cases hq

/-- A call that is about to write has read. -/
theorem Lane.of_aliasWrite (h : Lane metricKey aliasName l (aliasWrite k items).program) :
    metricKey = k ∧ ∃ c, l = [c] ∧ c.IsRead := by
  generalize hq : (aliasWrite k items).program = q at h
  cases h with
  | holds hread _ => exact ⟨(aliasWrite_program_inj hq).1.symm, _, rfl, hread⟩
  | start | raised | done => cases hq

/-- A call that writes next holds a list with its alias. -/
theorem Lane.of_write {k : c.Reply → StoreProgram Unit}
    (h : Lane metricKey aliasName l (.call c k)) (hc : c.IsWrite) :
    ∃ items, .str aliasName ∈ items ∧ (aliasWrite metricKey items).program = .call c k := by
  generalize hq : Program.call c k = q at h
  cases h with
  | holds _ hmem => exact ⟨_, hmem, rfl⟩
  | start =>
    rw [GraphClient.addMetricAlias_eq] at hq
    cases hq
    exact hc.elim
  | raised | done => cases hq

/-! ## Interleavings -/

section pools

variable {calls : List (String × String)} {g g' : InMemoryGraphStore} {l : List (Nat × StoreCall)}
  {ps qs : List (StoreProgram Unit)}

/-- Each program of the pool is a call of `add_metric_alias` on its way. -/
structure Lanes (calls : List (String × String)) (l : List (Nat × StoreCall))
    (ps : List (StoreProgram Unit)) : Prop where
  length_eq : ps.length = calls.length
  lane : ∀ i p metricKey aliasName, ps[i]? = some p → calls[i]? = some (metricKey, aliasName) →
    Lane metricKey aliasName (Program.callsOf i l) p

theorem Lanes.of_getElem? (h : Lanes calls l ps) (hi : ps[i]? = some p) :
    ∃ metricKey aliasName, calls[i]? = some (metricKey, aliasName) ∧
      Lane metricKey aliasName (Program.callsOf i l) p := by
  obtain ⟨hlt, -⟩ := List.getElem?_eq_some_iff.mp hi
  have hcall := List.getElem?_eq_getElem (h.length_eq ▸ hlt : i < calls.length)
  exact ⟨_, _, hcall, h.lane i p _ _ hi hcall⟩

/-- The alias is in the metric, and in every list that is about to be written to the metric. -/
structure Safe (metricKey : String) (a : Value) (ps : List (StoreProgram Unit))
    (g : InMemoryGraphStore) : Prop where
  there : a ∈ g.aliases metricKey
  held : ∀ items, (aliasWrite metricKey items).program ∈ ps → a ∈ items

theorem lanes_start : Lanes calls [] (calls.map fun (metricKey, aliasName) =>
    GraphClient.addMetricAlias metricKey aliasName) where
  length_eq := List.length_map _
  lane i p metricKey aliasName hp hi := by
    rw [List.getElem?_map, hi] at hp
    cases hp
    exact .start

theorem Lanes.step {k : c.Reply → StoreProgram Unit} (h : Lanes calls l ps)
    (hi : ps[i]? = some (.call c k)) (hc : handler c g = (.ok r, g')) :
    Lanes calls (l ++ [(i, c)]) (ps.set i (k r)) where
  length_eq := (List.length_set ..).trans h.length_eq
  lane j p metricKey aliasName hp hj := by
    rw [Program.callsOf_concat]
    by_cases hij : i = j
    · subst hij
      have hlane := h.lane i _ _ _ hi hj
      rw [List.getElem?_set_self (List.getElem?_eq_some_iff.mp hi).1] at hp
      cases hp
      rw [if_pos rfl]
      generalize hq : Program.call c k = q at hlane
      generalize Program.callsOf i l = made at hlane ⊢
      cases hlane with
      | start =>
        obtain ⟨hread, -, ⟨e, he⟩ | hk⟩ := addMetricAlias_step hq.symm hc
        · rw [he]
          exact .raised
        · rw [hk]
          exact .holds hread (extendAliases_mem ..)
      | holds hread _ =>
        obtain ⟨hwrite, hk, -⟩ := aliasWrite_step hq.symm hc
        rw [hk]
        exact .done hread hwrite
      | raised | done => cases hq
    · rw [if_neg hij]
      rw [List.getElem?_set_ne hij] at hp
      exact h.lane j p metricKey aliasName hp hj

theorem Lanes.raise {e : PyErr} (h : Lanes calls l ps) (i : Nat) (c : StoreCall) :
    Lanes calls (l ++ [(i, c)]) (ps.set i (.throw e)) where
  length_eq := (List.length_set ..).trans h.length_eq
  lane j p metricKey aliasName hp hj := by
    by_cases hij : i = j
    · subst hij
      obtain ⟨hlt, rfl⟩ := List.getElem?_eq_some_iff.mp hp
      rw [List.getElem_set_self]
      exact .raised
    · rw [Program.callsOf_concat, if_neg hij]
      rw [List.getElem?_set_ne hij] at hp
      exact h.lane j p metricKey aliasName hp hj

/-- A list that is about to be written keeps the alias. -/
theorem Safe.written (h : Safe metricKey a ps g)
    (hmem : (aliasWrite key items).program ∈ ps) :
    a ∈ (handler (aliasWrite key items).call g).2.aliases metricKey := by
  by_cases hkey : key = metricKey
  · subst hkey
    rw [aliases_aliasWrite]
    exact h.held items hmem
  · rw [aliases_aliasWrite_of_ne g hkey]
    exact h.there

/-- What is safe stays safe. -/
theorem Safe.step {k : c.Reply → StoreProgram Unit} (h : Safe metricKey a ps g)
    (hlanes : Lanes calls l ps) (hi : ps[i]? = some (.call c k))
    (hc : handler c g = (.ok r, g')) : Safe metricKey a (ps.set i (k r)) g' := by
  obtain ⟨key, aliasName, -, hlane⟩ := hlanes.of_getElem? hi
  have hmem := List.mem_of_getElem? hi
  generalize hq : Program.call c k = q at hlane
  generalize Program.callsOf i l = made at hlane
  -- the lists that the other calls hold have the alias
  have hheld (items) (hitems : (aliasWrite metricKey items).program ∈ ps.set i (k r))
      (hne : (aliasWrite metricKey items).program ≠ k r) : a ∈ items :=
    h.held items ((List.mem_or_eq_of_mem_set hitems).resolve_right hne)
  cases hlane with
  | start =>
    obtain ⟨-, rfl, hk⟩ := addMetricAlias_step hq.symm hc
    refine ⟨h.there, fun items hitems => ?_⟩
    by_cases heq : (aliasWrite metricKey items).program = k r
    · rcases hk with ⟨e, he⟩ | hk
      · rw [he] at heq
        cases heq
      · obtain ⟨rfl, rfl⟩ := aliasWrite_program_inj (heq.trans hk)
        exact extendAliases_subset _ _ h.there
    · exact hheld items hitems heq
  | @holds items _ hread _ =>
    obtain ⟨-, hk, rfl⟩ := aliasWrite_step hq.symm hc
    exact ⟨h.written (hq ▸ hmem), fun items' hitems => hheld items' hitems fun heq => by
      rw [hk] at heq
      cases heq⟩
  | raised | done => cases hq

theorem Safe.raise {e : PyErr} {k : c.Reply → StoreProgram Unit} (h : Safe metricKey a ps g)
    (hlanes : Lanes calls l ps) (hi : ps[i]? = some (.call c k))
    (hc : handler c g = (.error e, g')) : Safe metricKey a (ps.set i (.throw e)) g' := by
  obtain ⟨key, aliasName, -, hlane⟩ := hlanes.of_getElem? hi
  have hmem := List.mem_of_getElem? hi
  generalize hq : Program.call c k = q at hlane
  generalize Program.callsOf i l = made at hlane
  have hheld (items) (hitems : (aliasWrite metricKey items).program ∈
      ps.set i (.throw e)) : a ∈ items := by
    rcases List.mem_or_eq_of_mem_set hitems with hitems | heq
    · exact h.held items hitems
    · cases heq
  cases hlane with
  | start => exact (addMetricAlias_reads hq.symm hc).elim
  | holds =>
    obtain ⟨-, -, rfl⟩ := aliasWrite_step hq.symm hc
    exact ⟨h.written (hq ▸ hmem), hheld⟩
  | raised | done => cases hq

/-- A call on its way to the end of an interleaving. -/
theorem Lanes.pool (h : Lanes calls l ps) (H : Program.Pool handler ps g l' qs g') :
    Lanes calls (l ++ l') qs :=
  H.keeps (J := fun l ps _ => Lanes calls l ps) (fun hi hc h => h.step hi hc)
    (fun _ _ h => h.raise _ _) h

theorem Safe.pool (h : Safe metricKey a ps g) (hlanes : Lanes calls l ps)
    (H : Program.Pool handler ps g l' qs g') : Safe metricKey a qs g' :=
  (H.keeps (J := fun l ps g => Lanes calls l ps ∧ Safe metricKey a ps g)
    (fun hi hc h => ⟨h.1.step hi hc, h.2.step h.1 hi hc⟩)
    (fun hi hc h => ⟨h.1.raise _ _, h.2.raise h.1 hi hc⟩) ⟨hlanes, h⟩).2

/-- Another call on the metric of the `i`-th call reads the aliases before that one writes them, and
writes them afterwards. -/
def Overtaken (calls : List (String × String)) (l : List (Nat × StoreCall)) (i : Nat) : Prop :=
  ∃ pre c post j metricKey a b, l = pre ++ (i, c) :: post ∧ c.IsWrite ∧ j ≠ i ∧
    calls[i]? = some (metricKey, a) ∧ calls[j]? = some (metricKey, b) ∧
    (∃ c ∈ Program.callsOf j pre, c.IsRead) ∧ ∃ c ∈ Program.callsOf j post, c.IsWrite

/-- **Concurrent write-back**: whatever the order in which the calls of the store come, a metric
keeps the aliases that it had, and every alias whose write no other call overtakes. -/
theorem aliases_kept
    (H : Program.Pool handler (calls.map fun (metricKey, aliasName) =>
      GraphClient.addMetricAlias metricKey aliasName) g l (calls.map fun _ => .ret ()) g') :
    ∀ metricKey, (∀ a ∈ g.aliases metricKey, a ∈ g'.aliases metricKey) ∧
      ∀ i aliasName, calls[i]? = some (metricKey, aliasName) → ¬ Overtaken calls l i →
        .str aliasName ∈ g'.aliases metricKey := by
  intro metricKey
  constructor
  · intro a ha
    have hsafe : Safe metricKey a (calls.map fun (metricKey, aliasName) =>
        GraphClient.addMetricAlias metricKey aliasName) g := by
      refine ⟨ha, fun items hmem => ?_⟩
      obtain ⟨call, -, hcall⟩ := List.mem_map.mp hmem
      cases hcall
    exact (hsafe.pool lanes_start H).there
  · intro i aliasName hi hovertaken
    have hreturned (j b) (hj : calls[j]? = some (metricKey, b)) :
        ∃ c c', Program.callsOf j l = [c, c'] ∧ c.IsRead ∧ c'.IsWrite := by
      refine ((lanes_start.pool H).lane j (.ret ()) _ _ ?_ hj).of_ret
      rw [List.getElem?_map, hj]
      rfl
    -- the moment of its write
    obtain ⟨c₀, c, hmade, -, hwrite⟩ := hreturned i _ hi
    obtain ⟨pre, post, rfl⟩ : ∃ pre post, l = pre ++ (i, c) :: post := by
      have hmem : c ∈ Program.callsOf i l := hmade ▸ List.mem_cons_of_mem _ List.mem_cons_self
      exact List.append_of_mem (Program.mem_callsOf_iff.mp hmem)
    have hends : ∀ q ∈ (calls.map fun _ => (.ret () : StoreProgram Unit))[i]?, ¬ q.Raised := by
      intro q hq
      rw [List.getElem?_map, hi] at hq
      cases hq
      rintro ⟨e, he⟩
      cases he
    obtain ⟨ps₁, g₁, g₂, r, k, H₁, hi₁, hc, H₂⟩ := H.split hends
    have hlanes : Lanes calls pre ps₁ := lanes_start.pool H₁
    obtain ⟨items, hmem, hprogram⟩ := (hlanes.lane i _ _ _ hi₁ hi).of_write hwrite
    obtain ⟨-, hk, rfl⟩ := aliasWrite_step hprogram hc
    have hsafe : Safe metricKey (.str aliasName) (ps₁.set i (k r))
        (handler (aliasWrite metricKey items).call g₁).2 := by
      refine ⟨by rwa [aliases_aliasWrite], fun items' hitems => ?_⟩
      -- a call that holds another list overtakes this one
      obtain ⟨j, hj⟩ := List.mem_iff_getElem?.mp hitems
      have hij : j ≠ i := fun heq => by
        subst heq
        rw [List.getElem?_set_self (List.getElem?_eq_some_iff.mp hi₁).1, hk] at hj
        cases hj
      rw [List.getElem?_set_ne hij.symm] at hj
      obtain ⟨key, b, hcall, hlane⟩ := hlanes.of_getElem? hj
      obtain ⟨rfl, c₁, hread, hisread⟩ := hlane.of_aliasWrite
      obtain ⟨d, d', hmade', -, hwrite'⟩ := hreturned j _ hcall
      rw [Program.callsOf_append, hread, Program.callsOf_cons, if_neg hij.symm] at hmade'
      have hpost : Program.callsOf j post = [d'] := (List.cons.inj hmade').2
      have hbefore : c₁ ∈ Program.callsOf j pre := hread ▸ List.mem_singleton_self _
      have hafter : d' ∈ Program.callsOf j post := hpost ▸ List.mem_singleton_self _
      exact (hovertaken ⟨pre, c, post, j, _, _, b, rfl, hwrite, hij, hi, hcall,
        ⟨c₁, hbefore, hisread⟩, d', hafter, hwrite'⟩).elim
    exact (hsafe.pool (hlanes.step hi₁ hc) H₂).there

end pools

/-- Two calls on one metric of which the second reads before the first has written. -/
theorem alias_lost :
    let calls : List (String × String) := [("p.x", "a"), ("p.x", "b")]
    ∃ l g', Program.Pool handler (calls.map fun (metricKey, aliasName) =>
        GraphClient.addMetricAlias metricKey aliasName) ∅ l (calls.map fun _ => .ret ()) g' ∧
      g'.aliases "p.x" = [.str "b"] ∧ .str "a" ∉ g'.aliases "p.x" := by
  intro calls
  let read : StoreCall := .getNode CoreLabel.metric.value (metricKeyProps (.str "p.x"))
  let write (a : String) : StoreCall := (aliasWrite "p.x" [.str a]).call
  have haliases : ((handler (write "b") (handler (write "a") ∅).2).2).aliases "p.x" = [.str "b"] :=
    aliases_aliasWrite ..
  refine ⟨[(0, read), (1, read), (0, write "a"), (1, write "b")],
    (handler (write "b") (handler (write "a") ∅).2).2,
    .call rfl rfl (.call rfl rfl (.call rfl rfl (.call rfl rfl .refl))), haliases, ?_⟩
  rw [haliases]
  decide

/-- Three calls on a metric that has an alias. The second reads before the first writes, and drops
its alias; the third reads what the second has written. -/
theorem aliases_kept_in_turn :
    let write (l : List Value) : StoreCall := (aliasWrite "p.x" l).call
    let g := (handler (write [.str "old"]) ∅).2
    let g₁ := (handler (write [.str "old", .str "a"]) g).2
    let g₂ := (handler (write [.str "old", .str "b"]) g₁).2
    let g' := (handler (write [.str "old", .str "b", .str "c"]) g₂).2
    .str "old" ∈ g'.aliases "p.x" ∧ .str "b" ∈ g'.aliases "p.x" ∧
      .str "c" ∈ g'.aliases "p.x" := by
  intro write g g₁ g₂ g'
  let calls : List (String × String) := [("p.x", "a"), ("p.x", "b"), ("p.x", "c")]
  let read : StoreCall := .getNode CoreLabel.metric.value (metricKeyProps (.str "p.x"))
  let l : List (Nat × StoreCall) := [(0, read), (1, read), (0, write [.str "old", .str "a"]),
    (1, write [.str "old", .str "b"]), (2, read), (2, write [.str "old", .str "b", .str "c"])]
  have H : Program.Pool handler (calls.map fun (metricKey, aliasName) =>
      GraphClient.addMetricAlias metricKey aliasName) g l (calls.map fun _ => .ret ()) g' :=
    .call rfl rfl <| .call rfl rfl <| .call rfl rfl <| .call rfl rfl <| .call rfl rfl <|
      .call rfl rfl .refl
  have hold : .str "old" ∈ g.aliases "p.x" := by
    rw [aliases_aliasWrite]
    exact List.mem_singleton_self _
  have hsplit {pre post : List (Nat × StoreCall)} {e : Nat × StoreCall}
      (hl : l = pre ++ e :: post) :
      ∃ n, l[n]? = some e ∧ pre = l.take n ∧ post = l.drop (n + 1) := by
    refine ⟨pre.length, ?_, ?_, ?_⟩ <;> rw [hl] <;> simp
  -- before the second write only the first two calls have read, after it only the third one writes
  have hb : ¬ Overtaken calls l 1 := by
    rintro ⟨pre, c, post, j, -, -, -, hl, hwrite, hj, -, -, ⟨c₁, hbefore, -⟩, c₂, hafter, -⟩
    rw [Program.mem_callsOf_iff] at hbefore hafter
    obtain ⟨n, hi, rfl, rfl⟩ := hsplit hl
    rcases n with _ | _ | _ | _ | _ | _ | n <;> cases hi
    · exact hwrite
    · have hthird : j = 2 := by
        simp [l] at hafter
        omega
      simp [l, hthird] at hbefore
  have hc : ¬ Overtaken calls l 2 := by
    rintro ⟨pre, c, post, j, -, -, -, hl, hwrite, hj, -, -, -, c₂, hafter, -⟩
    rw [Program.mem_callsOf_iff] at hafter
    obtain ⟨n, hi, rfl, rfl⟩ := hsplit hl
    rcases n with _ | _ | _ | _ | _ | _ | n <;> cases hi
    · exact hwrite
    · cases hafter
  obtain ⟨hkept, hadded⟩ := aliases_kept H "p.x"
  exact ⟨hkept _ hold, hadded 1 "b" rfl hb, hadded 2 "c" rfl hc⟩

end MarginKG
