import MarginKG.Theory.Overwrite
import MarginKG.Verify.AliasIndex

/-! The graph as a map from places to contents, the order of its nodes, edges and properties
aside. On this view a write overwrites the contents of one place, and the writes of the client
are absorbing (`writes_absorbing`): whatever comes in between, the repetition of a write hides
its first occurrence.

A write can be refused on account of the labels that it finds. Loads of bundles do not touch
metrics, so the replies to their reads are fixed, and what a load writes (`loadWrites`) is the
same in every graph with the same metrics. -/

namespace MarginKG

open InMemoryGraphStore

/-- A place of the graph: that of a node or that of an edge. -/
abbrev Place := NodeKey ⊕ EdgeIdent

/-- What is stored at a place: a property map, or nothing. -/
abbrev Stored := Option (String → Option Value)

/-- The graph as a map. -/
def InMemoryGraphStore.contents (g : InMemoryGraphStore) : Place → Stored
  | .inl k => (g.nodes.get? k).map Dict.get?
  | .inr ident => (g.edges.get? ident).map Dict.get?

/-! ## Writes -/

/-- Add labels to the value of `_labels`, when it is a set of labels. -/
def addLabels (extraLabels : List String) : Option Value → Option Value
  | some (.set labels) => some (.set (labels ∪ extraLabels.toFinset))
  | v => v

theorem addLabels_self (extra : List String) (v : Option Value) :
    addLabels extra (addLabels extra v) = addLabels extra v := by
  rcases v with _ | v
  · rfl
  · cases v <;> simp [addLabels, Finset.union_assoc]

theorem addLabels_comm (extra extra' : List String) (v : Option Value) :
    addLabels extra (addLabels extra' v) = addLabels extra' (addLabels extra v) := by
  rcases v with _ | v
  · rfl
  · cases v with
    | set labels => simp only [addLabels, Finset.union_right_comm labels]
    | _ => rfl

/-- The properties of a node after a write. -/
theorem updateNode_get (node setProps : Props) (extraLabels : List String) (f : String) :
    (updateNode node setProps extraLabels).2.get? f =
      if f = "_labels" then addLabels extraLabels ((setProps.get? f).or (node.get? f))
      else (setProps.get? f).or (node.get? f) := by
  split
  · subst f
    rw [← Dict.get?_update]
    simp only [updateNode]
    split
    · rename_i h; rw [Dict.get?_set_self, h]; rfl
    · rename_i v hv h
      rw [h]
      cases v <;> first | rfl | exact (hv _ rfl).elim
    · rename_i h; rw [h]; rfl
  · exact updateNode_get? ‹_› ..

namespace Write

def place : Write → Place
  | node n _ _ => .inl n.id
  | link l _ => .inr l.ident

def hashable : Write → Bool
  | node n _ _ => n.hashable
  | link l _ => l.hashable

/-- The properties at the place before the write, or those of a new node or edge. -/
def old (w : Write) (x : Stored) : String → Option Value :=
  x.getD <| match w with
    | node n _ _ => (freshNode n.label.value n.key).get?
    | link l _ => l.key.get?

/-- The properties that the write stores. -/
def setProps : Write → Props
  | node _ setProps _ => setProps
  | link _ prov => prov.setProps

/-- What the write does to the property `f`, beside storing its own value. -/
def finish (w : Write) (f : String) (v : Option Value) : Option Value :=
  match w with
  | node _ _ extraLabels => if f = "_labels" then addLabels extraLabels v else v
  | link .. => v

def update (w : Write) (x : Stored) : Stored :=
  some fun f => w.finish f ((w.setProps.get? f).or (w.old x f))

/-- The store carries out the write over these contents. -/
def Admitted (w : Write) (x : Stored) : Prop :=
  w.hashable ∧ match w with
    | node .. => ∃ labels, (w.setProps.get? "_labels").or (w.old x "_labels") = some (.set labels)
    | link .. => True

/-- Nothing in the write itself makes the store refuse it. -/
def Sound (w : Write) : Prop :=
  w.hashable ∧ match w with
    | node _ setProps _ => ∀ v, setProps.get? "_labels" = some v → ∃ labels, v = .set labels
    | link .. => True

theorem finish_self (w : Write) (f : String) (v : Option Value) :
    w.finish f (w.finish f v) = w.finish f v := by
  cases w with
  | node => simp only [finish]; split <;> simp [addLabels_self]
  | link => rfl

theorem finish_comm (w w' : Write) (f : String) (v : Option Value) :
    w.finish f (w'.finish f v) = w'.finish f (w.finish f v) := by
  cases w <;> cases w' <;> simp only [finish]
  split <;> simp [addLabels_comm]

theorem Admitted.sound {w : Write} (h : w.Admitted x) : w.Sound := by
  refine ⟨h.1, ?_⟩
  cases w with
  | link => trivial
  | node n setProps extraLabels =>
    intro v hv
    have hset : setProps.get? "_labels" = some v := hv
    obtain ⟨labels, hlabels⟩ := h.2
    simp only [Write.setProps, hset, Option.some_or, Option.some.injEq] at hlabels
    exact ⟨labels, hlabels⟩

/-- Writes to one place start from the same node or edge. -/
theorem old_congr {w v : Write} (h : w.place = v.place) (x : Stored) : w.old x = v.old x := by
  cases w <;> cases v <;> simp only [place, Sum.inl.injEq, Sum.inr.injEq, reduceCtorEq] at h
  · cases NodeRef.id_injective h; rfl
  · cases Link.ident_injective h; rfl

/-- What a write leaves behind admits every sound write. -/
theorem Admitted.after {w v : Write} (hplace : v.place = w.place) (hw : w.Admitted x)
    (hv : v.Sound) : v.Admitted (w.update x) := by
  refine ⟨hv.1, ?_⟩
  cases v with
  | link => trivial
  | node n setProps extraLabels =>
    rcases hset : setProps.get? "_labels" with _ | value
    · cases w with
      | link => cases hplace
      | node m setProps' extraLabels' =>
        obtain ⟨labels, hlabels⟩ := hw.2
        refine ⟨labels ∪ extraLabels'.toFinset, ?_⟩
        simp only [Write.setProps, hset, Option.none_or, old, update, Option.getD_some, finish,
          if_true]
        simp only [Write.setProps, old] at hlabels
        rw [hlabels]
        rfl
    · obtain ⟨labels, rfl⟩ := hv.2 _ hset
      exact ⟨labels, by simp [Write.setProps, hset]⟩

end Write

/-- The writes of the client, on the graph as a map. -/
def writes : Located Write Place Stored := ⟨Write.place, Write.update⟩

/-- **The writes are absorbing**: a write leaves its place different from what it was only in the
properties that it stores, and those it would store again. -/
theorem writes_absorbing : Absorbing writes.act := by
  refine writes.absorbing (fun w x x' => ∀ f, w.setProps.get? f = none →
    w.finish f (w.old x f) = w.finish f (w.old x' f)) ?_ ?_ ?_
  · intro w x f hf
    change w.finish f (w.finish f ((w.setProps.get? f).or (w.old x f))) = _
    rw [hf, Option.none_or, w.finish_self]
  · intro w v x x' hplace h f hf
    change w.finish f (v.finish f ((v.setProps.get? f).or (v.old x f))) =
      w.finish f (v.finish f ((v.setProps.get? f).or (v.old x' f)))
    rw [Write.old_congr (v := w) hplace, Write.old_congr (v := w) hplace]
    rcases v.setProps.get? f with _ | value
    · rw [Option.none_or, Option.none_or, w.finish_comm, w.finish_comm, h f hf]
    · rfl
  · intro w x x' h
    refine congrArg some (funext fun f => ?_)
    rcases hf : w.setProps.get? f with _ | value
    · rw [Option.none_or, Option.none_or, h f hf]
    · rfl

/-- Apart from its own soundness, only the first write to each place can be refused. -/
theorem admits_writes_iff {ws : List Write} {A : Place → Stored} :
    writes.Admits Write.Admitted ws A ↔ (∀ w ∈ ws, w.Sound) ∧
      ∀ p w, ws.find? (writes.loc · = p) = some w → w.Admitted (A p) :=
  writes.admits_iff_first (fun _ _ h => h.sound) fun _ _ _ hplace hw hv => hw.after hplace hv

namespace InMemoryGraphStore

theorem old_node (g : InMemoryGraphStore) (n : NodeRef) (setProps : Props)
    (extraLabels : List String) :
    (Write.node n setProps extraLabels).old (g.contents (.inl n.id)) = (g.node n).get? := by
  simp only [Write.old, contents, node]
  rcases g.nodes.get? n.id with _ | x <;> rfl

theorem old_link (g : InMemoryGraphStore) (l : Link) (prov : EdgeProvenance) :
    (Write.link l prov).old (g.contents (.inr l.ident)) = (g.link l).get? := by
  simp only [Write.old, contents, link]
  rcases g.edges.get? l.ident with _ | x <;> rfl

/-- A write changes the graph as it changes the map. -/
theorem contents_write (g : InMemoryGraphStore) {w : Write} (hw : w.hashable) :
    (handler w.call g).2.contents = writes.act w g.contents := by
  cases w with
  | node n setProps extraLabels =>
    rw [handler_node_of_hashable g hw]
    funext p
    by_cases hp : p = .inl n.id
    · subst hp
      refine Eq.trans ?_ (writes.act_self _ _).symm
      simp only [contents, Dict.get?_set_self, Option.map_some]
      refine congrArg some (funext fun f => ?_)
      rw [updateNode_get, ← g.old_node n setProps extraLabels]
      rfl
    · rw [writes.act_of_ne _ hp]
      cases p with
      | inl k => simp only [contents, Dict.get?_set_of_ne fun h => hp (congrArg _ h.symm)]
      | inr ident => rfl
  | link l prov =>
    rw [handler_link_of_hashable g hw]
    funext p
    by_cases hp : p = .inr l.ident
    · subst hp
      refine Eq.trans ?_ (writes.act_self _ _).symm
      simp only [contents, Dict.get?_set_self, Option.map_some]
      refine congrArg some (funext fun f => ?_)
      rw [Dict.get?_update, ← g.old_link l prov]
      rfl
    · rw [writes.act_of_ne _ hp]
      cases p with
      | inl k => rfl
      | inr ident => simp only [contents, Dict.get?_set_of_ne fun h => hp (congrArg _ h.symm)]

/-- The contents of its place decide whether a write is carried out. -/
theorem admitted_iff (g : InMemoryGraphStore) (w : Write) :
    w.Admitted (g.contents w.place) ↔ ∃ r, (handler w.call g).1 = .ok r := by
  cases w with
  | node n setProps extraLabels =>
    simp only [handler_node, Write.Admitted, Write.place, old_node, Write.hashable, Write.setProps,
      ← Dict.get?_update]
    by_cases hn : n.hashable
    · simp only [hn, if_true, true_and, updateNode]
      split
      · rename_i labels h
        exact ⟨fun _ => ⟨(), rfl⟩, fun _ => ⟨labels, h⟩⟩
      · rename_i v hv h
        constructor
        · rintro ⟨labels, hl⟩
          exact (hv labels (Option.some.inj (h.symm.trans hl))).elim
        · rintro ⟨_, hok⟩
          cases hok
      · rename_i h
        constructor
        · rintro ⟨labels, hl⟩
          cases h.symm.trans hl
        · rintro ⟨_, hok⟩
          cases hok
    · simp [hn]
  | link l prov =>
    rw [handler_link, Write.Admitted]
    by_cases hl : l.hashable
    · simp only [Write.hashable, hl, if_true, true_and, true_iff]
      exact ⟨(), rfl⟩
    · simp [Write.hashable, hl]

end InMemoryGraphStore

end MarginKG
