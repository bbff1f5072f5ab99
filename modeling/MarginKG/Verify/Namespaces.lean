import MarginKG.Verify.Spine
import MarginKG.Verify.Stores
import Mathlib.Data.List.TakeWhile

/-! The namespaces of metric keys (`Pack.acceptsNamespaced_iff`).

`validate` compares the part of a key before its first dot with the two namespaces that a pack may
use. That part is a whole key when the key has no dot, and only the first piece of a namespace
that has one. -/

namespace MarginKG

/-! ## The part before the first dot -/

theorem namespacePart_self {ns : String} (hns : '.' ∉ ns.toList) : namespacePart ns = ns := by
  apply String.toList_injective
  rw [namespacePart, String.toList_ofList, List.takeWhile_eq_self_iff]
  exact fun c hc => decide_eq_true fun heq => hns (heq ▸ hc)

/-- What follows a dot does not matter to the part before the first one. -/
theorem namespacePart_append (ns s : String) :
    namespacePart (ns ++ "." ++ s) = namespacePart ns := by
  have hkey : (ns ++ "." ++ s).toList = ns.toList ++ '.' :: s.toList := by simp
  rw [namespacePart, hkey, List.takeWhile_append, List.takeWhile_cons_of_neg (by simp),
    List.append_nil]
  split
  · rename_i hlen
    have hself := List.IsPrefix.eq_of_length (List.takeWhile_prefix _) hlen
    rw [namespacePart, hself]
  · rfl

theorem namespacePart_undotted (key : String) : '.' ∉ (namespacePart key).toList := by
  intro hmem
  rw [namespacePart, String.toList_ofList] at hmem
  simpa using List.mem_takeWhile_imp hmem

/-- A key is its first part, or its first part, a dot and the rest. -/
theorem eq_namespacePart_or_append (key : String) :
    key = namespacePart key ∨ ∃ s, key = namespacePart key ++ "." ++ s := by
  have hsplit : (namespacePart key).toList ++ key.toList.dropWhile (· ≠ '.') = key.toList := by
    rw [namespacePart, String.toList_ofList, List.takeWhile_append_dropWhile]
  have hdot := List.head?_dropWhile_not (· ≠ '.') key.toList
  rcases hd : key.toList.dropWhile (· ≠ '.') with _ | ⟨c, cs⟩ <;> rw [hd] at hsplit hdot
  · left
    apply String.toList_injective
    rw [← hsplit, List.append_nil]
  · right
    have hc : c = '.' := by simpa using hdot
    refine ⟨String.ofList cs, String.toList_injective ?_⟩
    rw [← hsplit, hc]
    simp

/-! ## The keys that pass -/

/-- A key of the form `ns.name`, with a name that is not empty. -/
def InNamespace (ns key : String) : Prop := ∃ name, name ≠ "" ∧ key = ns ++ "." ++ name

namespace Pack

variable {pack : Pack}

/-- The key is in the namespace of the pack or in the shared one. -/
def Namespaced (pack : Pack) (key : String) : Prop :=
  InNamespace pack.metricNamespace key ∨ InNamespace sharedNamespace key

/-- The key is a namespace that the pack may use, with no name after it. -/
def BareKey (pack : Pack) (key : String) : Prop :=
  ∃ ns ∈ [pack.metricNamespace, sharedNamespace],
    '.' ∉ ns.toList ∧ (key = ns ∨ key = ns ++ ".")

/-- The key is in the namespace of the pack, and that namespace has a dot itself. A namespace that
starts with `shared.` is not meant: its keys pass as shared ones. -/
def CutKey (pack : Pack) (key : String) : Prop :=
  '.' ∈ pack.metricNamespace.toList ∧ namespacePart pack.metricNamespace ≠ sharedNamespace ∧
    InNamespace pack.metricNamespace key

theorem BareKey.not_namespaced (h : pack.BareKey key) : ¬ pack.Namespaced key := by
  obtain ⟨ns, -, hns, hkey⟩ := h
  -- what a namespaced key has before its last character has a dot, what a bare one has does not
  have hdot (ns' : String) : ¬ InNamespace ns' key := by
    rintro ⟨name, hname, hkey'⟩
    have hlast : '.' ∈ key.toList.dropLast := by
      have hne : name.toList ≠ [] := fun hnil => hname (String.toList_eq_nil_iff.mp hnil)
      rw [hkey']
      simp [List.dropLast_append_of_ne_nil, List.dropLast_cons_of_ne_nil hne]
    rcases hkey with rfl | rfl
    · exact hns (List.dropLast_subset _ hlast)
    · rw [String.toList_append, List.dropLast_append_of_ne_nil (by simp)] at hlast
      exact hns (by simpa using hlast)
  exact fun hor => hor.elim (hdot _) (hdot _)

/-- The check that `validate` makes of a key. -/
theorem namespacePart_mem_iff {key : String} :
    namespacePart key ∈ [pack.metricNamespace, sharedNamespace] ↔
      pack.Namespaced key ∧ ¬ pack.CutKey key ∨ pack.BareKey key := by
  constructor
  · intro hmem
    have hbare (hkey : key = namespacePart key ∨ key = namespacePart key ++ ".") :
        pack.BareKey key := ⟨_, hmem, namespacePart_undotted key, hkey⟩
    rcases eq_namespacePart_or_append key with hkey | ⟨name, hkey⟩
    · exact .inr (hbare (.inl hkey))
    by_cases hname : name = ""
    · exact .inr (hbare (.inr (by rwa [hname, String.append_empty] at hkey)))
    have hin : InNamespace (namespacePart key) key := ⟨name, hname, hkey⟩
    rw [List.mem_pair] at hmem
    refine .inl ⟨hmem.imp (fun h => by rwa [h] at hin) (fun h => by rwa [h] at hin), ?_⟩
    rintro ⟨hdot, hshared, name', -, rfl⟩
    rw [namespacePart_append] at hmem
    exact hmem.elim (fun h => namespacePart_undotted _ (h ▸ hdot)) hshared
  · rintro (⟨⟨name, hname, rfl⟩ | ⟨name, -, rfl⟩, hcut⟩ | ⟨ns, hns, hdot, rfl | rfl⟩)
    · rw [namespacePart_append, List.mem_pair]
      by_cases hdot : '.' ∈ pack.metricNamespace.toList
      · right
        by_contra hshared
        exact hcut ⟨hdot, hshared, name, hname, rfl⟩
      · exact .inl (namespacePart_self hdot)
    · rw [namespacePart_append, List.mem_pair]
      exact .inr (namespacePart_self (by decide))
    · rwa [namespacePart_self hdot]
    · have hpart := namespacePart_append ns ""
      rw [String.append_empty, namespacePart_self hdot] at hpart
      rwa [hpart]

/-- The keys of the pack for which the check and the meaning of a namespace agree: one is
foreign to both namespaces, or none is bare or cut, or one is bare and another is cut. -/
def KeysAgree (pack : Pack) : Prop :=
  (∃ m ∈ pack.metrics, ¬ pack.Namespaced m.metricKey ∧ ¬ pack.BareKey m.metricKey) ∨
  (∀ m ∈ pack.metrics, ¬ pack.BareKey m.metricKey ∧ ¬ pack.CutKey m.metricKey) ∨
  (∃ m ∈ pack.metrics, pack.BareKey m.metricKey) ∧ ∃ m ∈ pack.metrics, pack.CutKey m.metricKey

theorem keysAgree_iff (pack : Pack) :
    pack.KeysAgree ↔
      ((∀ m ∈ pack.metrics, namespacePart m.metricKey ∈ [pack.metricNamespace, sharedNamespace]) ↔
        ∀ m ∈ pack.metrics, pack.Namespaced m.metricKey) := by
  have hcut {key : String} : pack.CutKey key → pack.Namespaced key := fun h => .inl h.2.2
  have hbare {key : String} : pack.BareKey key → ¬ pack.Namespaced key := BareKey.not_namespaced
  simp only [namespacePart_mem_iff]
  constructor
  · rintro (⟨m, hm, hns, hb⟩ | hnone | ⟨⟨m, hm, hb⟩, m', hm', hc⟩)
    · exact iff_of_false (fun hall => (hall m hm).elim (fun h => hns h.1) hb)
        fun hall => hns (hall m hm)
    · exact ⟨fun hall m hm => ((hall m hm).resolve_right (hnone m hm).1).1,
        fun hall m hm => .inl ⟨hall m hm, (hnone m hm).2⟩⟩
    · exact iff_of_false (fun hall => (hall m' hm').elim (fun h => h.2 hc)
        fun h => hbare h (hcut hc)) fun hall => hbare hb (hall m hm)
  · intro hiff
    by_contra hnot
    simp only [KeysAgree, not_or, not_and, not_exists] at hnot
    obtain ⟨hforeign, hkind, hboth⟩ := hnot
    have hcases : ∀ m ∈ pack.metrics, pack.Namespaced m.metricKey ∨ pack.BareKey m.metricKey :=
      fun m hm => by
        by_contra hno
        exact hforeign m hm (fun h => hno (.inl h)) fun h => hno (.inr h)
    by_cases hb : ∃ m ∈ pack.metrics, pack.BareKey m.metricKey
    · -- no key is cut: all pass, and the bare one is not namespaced
      have hnocut := hboth hb
      obtain ⟨m, hm, hb⟩ := hb
      exact hbare hb (hiff.mp (fun m' hm' =>
        (hcases m' hm').imp (fun h => ⟨h, hnocut m' hm'⟩) id) m hm)
    · -- every key is namespaced: all pass, and none is cut
      refine hkind fun m hm => ⟨fun h => hb ⟨m, hm, h⟩, fun hc => ?_⟩
      have hall : ∀ m ∈ pack.metrics, pack.Namespaced m.metricKey := fun m hm =>
        (hcases m hm).resolve_right fun h => hb ⟨m, hm, h⟩
      exact (hiff.mpr hall m hm).elim (fun h => h.2 hc) fun h => hb ⟨m, hm, h⟩

end Pack

/-! ## Loading -/

section runs
variable [Python]

namespace Pack

variable {pack : Pack}

/-- The exception that `validate` raises for a metric. -/
def namespaceError (pack : Pack) (m : MetricDef) : PyErr :=
  .valueError <|
    "metric_key " ++ Python.repr (.str m.metricKey) ++ " is not in namespace " ++
    Python.repr (.str pack.metricNamespace) ++ " or " ++ Python.repr (.str sharedNamespace)

theorem validate_cases (pack : Pack) :
    (∀ m ∈ pack.metrics, namespacePart m.metricKey ∈ [pack.metricNamespace, sharedNamespace]) ∧
        pack.validate = .ok () ∨
      ∃ m ∈ pack.metrics, namespacePart m.metricKey ∉ [pack.metricNamespace, sharedNamespace] ∧
        pack.validate = .error (pack.namespaceError m) :=
  Program.forM_check (fun _ h => if_pos h) (fun _ h => if_neg h) pack.metrics

/-- Loading the pack over a store raises the namespace error. -/
def Refused {σ : Type} (pack : Pack) (h : Handler StoreCall StoreCall.Reply PyErr σ)
    (client : GraphClient) (s : σ) : Prop :=
  ∃ m ∈ pack.metrics, ((loadPack client pack).2.run h s).1 = .error (pack.namespaceError m)

/-- Over a store, the pack is accepted exactly when its keys are namespaced, and a refusal leaves
the store and the allow-lists as they are. -/
def NamespaceChecked {σ : Type} (pack : Pack) (h : Handler StoreCall StoreCall.Reply PyErr σ) :
    Prop :=
  ∀ (client : GraphClient) (s : σ),
    (¬ pack.Refused h client s ↔ ∀ m ∈ pack.metrics, pack.Namespaced m.metricKey) ∧
    (pack.Refused h client s →
      (loadPack client pack).1 = client ∧ ((loadPack client pack).2.run h s).2 = s)

theorem refused_iff {σ : Type} {h : Handler StoreCall StoreCall.Reply PyErr σ}
    (hcatalog : ∀ {s e s'}, pack.loadCatalog.run h s = (.error e, s') → ∀ m, e ≠ .valueError m)
    (client : GraphClient) (s : σ) :
    pack.Refused h client s ↔
      ¬ ∀ m ∈ pack.metrics,
        namespacePart m.metricKey ∈ [pack.metricNamespace, sharedNamespace] := by
  rcases pack.validate_cases with ⟨hall, hv⟩ | ⟨m, hm, hpart, hv⟩
  · refine iff_of_false ?_ (not_not.mpr hall)
    rintro ⟨m, -, hrun⟩
    rw [loadPack, hv] at hrun
    exact hcatalog (Prod.ext hrun rfl) _ rfl
  · refine iff_of_true ⟨m, hm, ?_⟩ fun hall => hpart (hall m hm)
    rw [loadPack, hv]
    rfl

/-- A refused pack has done nothing. -/
theorem Refused.unchanged {σ : Type} {h : Handler StoreCall StoreCall.Reply PyErr σ}
    (hcatalog : ∀ {s e s'}, pack.loadCatalog.run h s = (.error e, s') → ∀ m, e ≠ .valueError m)
    {client : GraphClient} {s : σ} (href : pack.Refused h client s) :
    (loadPack client pack).1 = client ∧ ((loadPack client pack).2.run h s).2 = s := by
  rcases pack.validate_cases with ⟨hall, -⟩ | ⟨m, -, -, hv⟩
  · exact absurd hall ((refused_iff hcatalog client s).mp href)
  · rw [loadPack, hv]
    exact ⟨rfl, rfl⟩

theorem namespaceChecked_iff {σ : Type} [Inhabited σ]
    {h : Handler StoreCall StoreCall.Reply PyErr σ}
    (hcatalog : ∀ {s e s'}, pack.loadCatalog.run h s = (.error e, s') → ∀ m, e ≠ .valueError m) :
    pack.NamespaceChecked h ↔ pack.KeysAgree := by
  rw [keysAgree_iff]
  constructor
  · intro hchecked
    have := (hchecked ∅ default).1
    rwa [refused_iff hcatalog, not_not] at this
  · refine fun hiff client s => ⟨?_, Refused.unchanged hcatalog⟩
    rwa [refused_iff hcatalog, not_not]

/-- The Neo4j store accepts every name that a catalog is written with. -/
theorem loadCatalog_succeeds [RowOrder] (pack : Pack) :
    pack.loadCatalog.Succeeds Neo4jGraphStore.handler (fun _ => True) fun _ => True := by
  have hnode (n : NodeRef) (setProps : Props) : (Write.node n setProps []).program.Succeeds
      Neo4jGraphStore.handler (fun _ => True) fun _ => True := by
    refine .call (Q := fun _ => True) (fun s _ => ?_) fun _ _ => .ret trivial
    rw [Neo4jGraphStore.handler_node]
    exact ⟨_, _, rfl, trivial, trivial⟩
  exact .bind (.forM fun m _ => hnode (.metric (.str m.metricKey)) _) fun _ _ =>
    .forM fun b _ => hnode (.benchmark b.benchmarkKey) _

/-- A pack is accepted exactly when its keys are namespaced, and refused without effect, on either
store, exactly when its keys agree. -/
theorem acceptsNamespaced_iff [RowOrder] (pack : Pack) :
    (pack.NamespaceChecked InMemoryGraphStore.handler ↔ pack.KeysAgree) ∧
      (pack.NamespaceChecked Neo4jGraphStore.handler ↔ pack.KeysAgree) := by
  have : Inhabited InMemoryGraphStore := ⟨∅⟩
  have : Inhabited Neo4jGraph := ⟨∅⟩
  refine ⟨namespaceChecked_iff loadCatalog_error, namespaceChecked_iff fun {s e s'} hrun => ?_⟩
  obtain ⟨_, _, hok, -⟩ := pack.loadCatalog_succeeds s trivial
  rw [hok] at hrun
  cases hrun

end Pack

end runs

/-- A key without a dot, and one with nothing behind it, are accepted; a key in a namespace that
has a dot is refused. -/
theorem Pack.acceptsNamespaced_bare :
    ¬ Pack.NamespaceChecked { name := "widgets", metrics := [{ metricKey := "widgets" }] }
        InMemoryGraphStore.handler ∧
      ¬ Pack.NamespaceChecked { name := "widgets", metrics := [{ metricKey := "widgets." }] }
        InMemoryGraphStore.handler ∧
      ¬ Pack.NamespaceChecked { name := "acme.ops", metrics := [{ metricKey := "acme.ops.yield" }] }
        InMemoryGraphStore.handler := by
  refine ⟨fun h => ?_, fun h => ?_, fun h => ?_⟩
  · have hok : ¬ Pack.Refused { name := "widgets", metrics := [{ metricKey := "widgets" }] }
        InMemoryGraphStore.handler ∅ ∅ := by
      rintro ⟨m, -, hm⟩
      exact nomatch hm
    have hns := (h ∅ ∅).1.mp hok _ List.mem_cons_self
    exact BareKey.not_namespaced ⟨"widgets", by decide, by decide, .inl rfl⟩ hns
  · have hok : ¬ Pack.Refused { name := "widgets", metrics := [{ metricKey := "widgets." }] }
        InMemoryGraphStore.handler ∅ ∅ := by
      rintro ⟨m, -, hm⟩
      exact nomatch hm
    have hns := (h ∅ ∅).1.mp hok _ List.mem_cons_self
    exact BareKey.not_namespaced ⟨"widgets", by decide, by decide, .inr rfl⟩ hns
  · refine (h ∅ ∅).1.mpr (fun m hm => ?_) ⟨_, List.mem_cons_self, rfl⟩
    rw [List.mem_singleton.mp hm]
    exact .inl ⟨"yield", by decide, rfl⟩

end MarginKG
