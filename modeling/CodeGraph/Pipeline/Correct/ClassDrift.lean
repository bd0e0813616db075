import CodeGraph.Pipeline.ClassDrift
import CodeGraph.Pipeline.Correct.RecvType

/-!
# Which typed callers a changed class structure reaches

The typed callers found from the rows of the class structure are complete when the rows tell what moved
(`typedCallersOfClassDrift_complete`): when the nodes of the two states can be matched one to one such that every
class whose name is in no moved row keeps its row, and every `inherits` edge whose row did not move joins partners.
Rows are kept once each and name the ends of an edge without their file, so a state can move without a row.
-/

namespace CodeGraph.Pipeline.ClassDrift

open CodeGraph.Lib CodeGraph.Pipeline.RecvType

variable {P : Finset String} {before after S S' : ClassIndex} {rows : Finset ShapeRow} {name method owner B : String}
  {R : TypedNode → TypedNode → Prop} {u v n : TypedNode} {k : MethodKey}

/-! ### What the rows name -/

/-- The rows that one state has and the other has not. -/
def moved (P : Finset String) (before after : ClassIndex) : Finset ShapeRow :=
  symmDiff (classShape P before) (classShape P after)

def MovedClass (rows : Finset ShapeRow) (name : String) : Prop :=
  ∃ path language spelling nested, ShapeRow.classRow path language spelling nested ∈ rows ∧ last spelling = some name

def MovedMethod (rows : Finset ShapeRow) (owner method : String) : Prop :=
  ∃ path qualified returnType, ShapeRow.methodRow path qualified returnType ∈ rows ∧
    methodOf qualified = some (owner, method)

def MovedLink (rows : Finset ShapeRow) (u v : TypedNode) : Prop :=
  ShapeRow.subRow u.path u.name v.name ∈ rows ∨ ShapeRow.baseRow v.path u.name v.name ∈ rows

theorem mem_classes : name ∈ (driftOf rows).classes ↔ MovedClass rows name := by
  unfold driftOf MovedClass
  simp only [Finset.mem_biUnion]
  constructor
  · rintro ⟨r, hr, hname⟩
    cases r with
    | classRow path language spelling nested => exact ⟨path, language, spelling, nested, hr, by simpa using hname⟩
    | _ => simp at hname
  · rintro ⟨path, language, spelling, nested, hr, hname⟩
    exact ⟨_, hr, by simpa using hname⟩

theorem mem_methods : (owner, method) ∈ (driftOf rows).methods ↔ MovedMethod rows owner method := by
  unfold driftOf MovedMethod
  simp only [Finset.mem_biUnion]
  constructor
  · rintro ⟨r, hr, hname⟩
    cases r with
    | methodRow path qualified returnType => exact ⟨path, qualified, returnType, hr, by simpa using hname⟩
    | _ => simp at hname
  · rintro ⟨path, qualified, returnType, hr, hname⟩
    exact ⟨_, hr, by simpa using hname⟩

theorem MovedLink.named {a b : String} (h : MovedLink rows u v) (ha : last u.name = some a)
    (hb : last v.name = some b) :
    a ∈ (driftOf rows).rebased ∧ a ∈ (driftOf rows).linked ∧ b ∈ (driftOf rows).linked := by
  unfold driftOf
  simp only [Finset.mem_biUnion]
  rcases h with h | h
  · refine ⟨⟨_, h, ?_⟩, ⟨_, h, ?_⟩, ⟨_, h, ?_⟩⟩ <;> simp [ha, hb]
  · refine ⟨⟨_, h, ?_⟩, ⟨_, h, ?_⟩, ⟨_, h, ?_⟩⟩ <;> simp [ha, hb]

theorem rebased_subset (rows : Finset ShapeRow) : (driftOf rows).rebased ⊆ (driftOf rows).linked := by
  unfold driftOf
  intro a ha
  simp only [Finset.mem_biUnion] at ha ⊢
  obtain ⟨r, hr, ha⟩ := ha
  refine ⟨r, hr, ?_⟩
  cases r with
  | subRow path sub base => exact Finset.mem_union_left _ ha
  | baseRow path sub base => exact Finset.mem_union_left _ ha
  | _ => simp at ha

/-! ### The hierarchy by name -/

theorem node?_eq_some {id : ℕ} : S.node? id = some n ↔ n ∈ S.nodes ∧ n.id = id := by
  unfold ClassIndex.node?
  constructor
  · intro h
    exact ⟨List.mem_of_find?_eq_some h, by simpa using List.find?_some h⟩
  · rintro ⟨hn, rfl⟩
    cases hfind : S.nodes.find? fun m => m.id == n.id with
    | none => simpa using List.find?_eq_none.mp hfind n hn
    | some m =>
      have hid : m.id = n.id := by simpa using List.find?_some hfind
      rw [eq_of_id (List.mem_of_find?_eq_some hfind) hn hid]

theorem mem_namePairs {a b : String} :
    (a, b) ∈ namePairs S ↔ ∃ u v, S.Inherits u v ∧ last u.name = some a ∧ last v.name = some b := by
  have hends : ∀ {u v : TypedNode}, (u, v) ∈ inheritsEnds S ↔ S.Inherits u v := by
    intro u v
    unfold inheritsEnds ClassIndex.Inherits
    rw [List.mem_filterMap]
    constructor
    · rintro ⟨e, he, heq⟩
      split at heq
      · next s t hs ht =>
        obtain ⟨rfl, rfl⟩ := Prod.mk.inj (Option.some.inj heq)
        obtain ⟨hu, hue⟩ := node?_eq_some.mp hs
        obtain ⟨hv, hve⟩ := node?_eq_some.mp ht
        exact ⟨hu, hv, by rwa [hue, hve]⟩
      · cases heq
    · rintro ⟨hu, hv, he⟩
      exact ⟨_, he, by rw [node?_eq_some.mpr ⟨hu, rfl⟩, node?_eq_some.mpr ⟨hv, rfl⟩]⟩
  unfold namePairs
  rw [List.mem_filterMap]
  constructor
  · rintro ⟨⟨u, v⟩, he, heq⟩
    dsimp only at heq
    split at heq
    · next s t hs ht =>
      obtain ⟨rfl, rfl⟩ := Prod.mk.inj (Option.some.inj heq)
      exact ⟨u, v, hends.mp he, hs, ht⟩
    · cases heq
  · rintro ⟨u, v, he, hu, hv⟩
    exact ⟨(u, v), hends.mpr he, by rw [hu, hv]⟩

theorem mem_ancestors {names : Finset String} : B ∈ ancestors S names ↔ ∃ a ∈ names, Leads (namePairs S) a B := by
  unfold ancestors
  rw [mem_closure]
  simp

theorem mem_descendants {names : Finset String} :
    B ∈ descendants S names ↔ ∃ a ∈ names, Leads (namePairs S) B a := by
  unfold descendants
  rw [mem_closure]
  simp [leads_swap]

/-- No row that moved reaches the calls of `method` on `name`, so they are not extracted again. -/
structure Unflagged (D : Drift) (S : ClassIndex) (name method : String) : Prop where
  classes : name ∉ D.classes
  rebased : ∀ a ∈ D.rebased, ¬Leads (namePairs S) name a
  linked : (S.byLast name).length = 1 → ∀ a, a ∈ D.classes ∨ a ∈ D.linked → ¬Leads (namePairs S) a name
  inherited : ∀ a, (a, method) ∈ D.methods → ¬Leads (namePairs S) name a
  overridden : (S.byLast name).length = 1 → ∀ a, (a, method) ∈ D.methods → ¬Leads (namePairs S) a name

theorem unflagged {D : Drift} (hany : name ∉ anyMethod S D) (hper : (name, method) ∉ perMethod S D) :
    Unflagged D S name method := by
  unfold anyMethod at hany
  simp only [Finset.mem_union, Finset.mem_filter, not_or, not_and, mem_ancestors, mem_descendants, unique,
    decide_eq_true_eq] at hany
  obtain ⟨⟨hlinked, hclasses⟩, hrebased⟩ := hany
  unfold perMethod at hper
  simp only [Finset.mem_biUnion, Finset.mem_image, Finset.mem_union, Finset.mem_filter, mem_ancestors, mem_descendants,
    Finset.mem_singleton, exists_eq_left, unique, decide_eq_true_eq] at hper
  constructor
  case classes => exact hclasses
  case rebased => exact fun a ha hleads => hrebased ⟨a, ha, hleads⟩
  case linked => exact fun huniq a ha hleads => hlinked ⟨a, ha, hleads⟩ huniq
  case inherited => exact fun a ha hleads => hper ⟨(a, method), ha, name, .inr hleads, rfl⟩
  case overridden => exact fun huniq a ha hleads => hper ⟨(a, method), ha, name, .inl ⟨hleads, .inr huniq⟩, rfl⟩

/-! ### The two states -/

/-- The files outside the run are the same before and after. -/
structure SameOutside (P : Finset String) (before after : ClassIndex) : Prop where
  nodes : ∀ n, n.path ∉ P → (n ∈ before.nodes ↔ n ∈ after.nodes)
  language : ∀ path ∉ P, before.language path = after.language path
  cppFields : ∀ f n, n ∈ before.nodes → n.path ∉ P → f.classId = n.id →
    (f ∈ before.cppFields ↔ f ∈ after.cppFields)
  inherits : ∀ u v, u.path ∉ P → v.path ∉ P → (before.Inherits u v ↔ after.Inherits u v)

/-- The names that `name` leads to. -/
def Above (after : ClassIndex) (name B : String) : Prop := Leads (namePairs after) name B

/-- The names that lead to `name`, when it is the name of one class. -/
def Below (after : ClassIndex) (name B : String) : Prop :=
  (after.byLast name).length = 1 ∧ Leads (namePairs after) B name

/-- The names that a call on `name` reads. -/
def Near (after : ClassIndex) (name B : String) : Prop := Above after name B ∨ Below after name B

/-- The edge leads up from `name`, or down from it. -/
def OnTheWay (after : ClassIndex) (name : String) (u v : TypedNode) : Prop :=
  (∃ a, last u.name = some a ∧ Above after name a) ∨ ∃ b, last v.name = some b ∧ Below after name b

/-- The classes and `inherits` edges of `S` that a call on `name` reads have partners in `S'`, unless rows moved
that name them. -/
structure Kept (P : Finset String) (rows : Finset ShapeRow) (after : ClassIndex) (name : String) (S S' : ClassIndex)
    (R : TypedNode → TypedNode → Prop) : Prop where
  mem : ∀ u u', R u u' → u ∈ S.nodes
  functional : ∀ u u' w', R u u' → R u w' → u' = w'
  named : ∀ u u', R u u' → last u.name = last u'.name
  outside : ∀ u ∈ S.nodes, u.path ∉ P → R u u
  label : ∀ u ∈ S.nodes, u.ClassLike → ∀ B, last u.spelling = some B ∨ last u.name = some B → Near after name B →
    last u.spelling = last u.name
  ends : ∀ u v, S.Inherits u v → OnTheWay after name u v → (last u.name).isSome ∧ (last v.name).isSome
  classes : ∀ u ∈ S.nodes, u.path ∈ P → u.ClassLike → ∀ B, last u.spelling = some B → Near after name B →
    MovedClass rows B ∨ ∃ u' ∈ S'.nodes, R u u' ∧ u'.ClassLike ∧ classRowOf S' u' = classRowOf S u
  links : ∀ u v, S.Inherits u v → u.path ∈ P ∨ v.path ∈ P → OnTheWay after name u v →
    MovedLink rows u v ∨ ∃ u' v', R u u' ∧ R v v' ∧ S'.Inherits u' v'

/-- The rows tell what moved for a call of `method` on `name`: classes and edges are matched one to one, the
methods of a class in no moved row are as many, and where no row reaches the calls a method of a moved class above
`name` belongs to the same class nodes. -/
structure RowsTell (P : Finset String) (before after : ClassIndex) (name method : String)
    (R : TypedNode → TypedNode → Prop) : Prop where
  forth : Kept P (moved P before after) after name before after R
  back : Kept P (moved P before after) after name after before (flip R)
  counts : ∀ k B, k.1 ∈ P → (ownerOf k).getLast? = some B → Near after name B →
    MovedMethod (moved P before after) B method ∨ (before.keys method).count k = (after.keys method).count k
  above : Unflagged (driftOf (moved P before after)) after name method →
    ∀ k B, k ∈ before.keys method ∨ k ∈ after.keys method → (ownerOf k).getLast? = some B →
    Above after name B → MovedClass (moved P before after) B →
    Twins (fun c c' => R c.node c'.node) (before.owners k) (after.owners k)

theorem SameOutside.symm (h : SameOutside P before after) : SameOutside P after before := by
  constructor
  case nodes => exact fun n hn => (h.nodes n hn).symm
  case language => exact fun path hpath => (h.language path hpath).symm
  case cppFields => exact fun f n hn hpath hf => (h.cppFields f n ((h.nodes n hpath).mpr hn) hpath hf).symm
  case inherits => exact fun u v hu hv => (h.inherits u v hu hv).symm

theorem SameOutside.classNode_eq (h : SameOutside P S S') (hn : n.path ∉ P) : S.classNode n = S'.classNode n := by
  have henclosed : S.enclosed n = S'.enclosed n := by
    unfold ClassIndex.enclosed
    rw [Bool.eq_iff_iff, List.any_eq_true, List.any_eq_true]
    refine exists_congr fun o => and_congr_left fun ho => h.nodes o ?_
    unfold encloses at ho
    simp only [Bool.and_eq_true, beq_iff_eq] at ho
    rwa [ho.2.1]
  unfold ClassIndex.classNode
  rw [henclosed]

/-- The methods of a file outside the run are the same. -/
theorem SameOutside.count_keys (h : SameOutside P S S') (hk : k.1 ∉ P) :
    (S.keys method).count k = (S'.keys method).count k := by
  have hout : ∀ T : ClassIndex, (T.keys method).count k =
      (((T.methodsNamed method).filter fun c => c.path ∉ P).map TypedNode.key).count k := by
    intro T
    have hfilter : (((T.methodsNamed method).filter fun c => c.path ∉ P).map TypedNode.key) =
        (T.keys method).filter fun k => k.1 ∉ P := by
      unfold ClassIndex.keys
      rw [List.filter_map]
      rfl
    rw [hfilter, List.count_filter (by simpa using hk)]
  have hnodup : ∀ T : ClassIndex, ((T.methodsNamed method).filter fun c => c.path ∉ P).Nodup :=
    fun T => (T.ids.of_map.filter _).filter _
  have hperm : ((S.methodsNamed method).filter fun c => c.path ∉ P).Perm
      ((S'.methodsNamed method).filter fun c => c.path ∉ P) := by
    rw [List.perm_ext_iff_of_nodup (hnodup S) (hnodup S')]
    intro c
    unfold ClassIndex.methodsNamed
    simp only [List.mem_filter, decide_eq_true_eq]
    constructor
    · rintro ⟨⟨hc, hname⟩, hpath⟩
      exact ⟨⟨(h.nodes c hpath).mp hc, hname⟩, hpath⟩
    · rintro ⟨⟨hc, hname⟩, hpath⟩
      exact ⟨⟨(h.nodes c hpath).mpr hc, hname⟩, hpath⟩
  rw [hout S, hout S']
  exact (hperm.map TypedNode.key).count_eq k

/-- A class that is read, of a name in no moved row, has a partner. -/
theorem Kept.exists_partner (h : Kept P rows after name S S' R) (hsame : SameOutside P S S')
    (hnear : Near after name B) (hB : ¬MovedClass rows B) : ∀ c ∈ S.byLast B, ∃ c' ∈ S'.byLast B, Partner R c c' := by
  intro c hc
  obtain ⟨hn, hlike, hlast, hnode⟩ := mem_byLast.mp hc
  by_cases hpath : c.node.path ∈ P
  · obtain ⟨u', hu', hR, hlike', hrow⟩ := (h.classes _ hn hpath hlike B hlast hnear).resolve_left hB
    obtain ⟨hpath', -, hspelling, henclosed⟩ := ShapeRow.classRow.inj hrow
    refine ⟨S'.classNode u', mem_byLast.mpr ⟨hu', hlike', hspelling ▸ hlast, rfl⟩, hR, hpath'.symm, ?_⟩
    rw [← hnode]
    unfold ClassIndex.classNode
    dsimp only
    rw [hspelling, henclosed]
  · refine ⟨c, mem_byLast.mpr ⟨(hsame.nodes _ hpath).mp hn, hlike, hlast, ?_⟩, h.outside _ hn hpath, rfl, rfl⟩
    rw [← hsame.classNode_eq hpath, hnode]

theorem RowsTell.twins (h : RowsTell P before after name method R) (hsame : SameOutside P before after)
    (hnear : Near after name B) (hB : ¬MovedClass (moved P before after) B) :
    Twins (Partner R) (before.byLast B) (after.byLast B) := by
  refine ⟨h.forth.exists_partner hsame hnear hB, fun c' hc' => ?_⟩
  obtain ⟨c, hc, hR, hpath, hnested⟩ := h.back.exists_partner hsame.symm hnear hB c' hc'
  exact ⟨c, hc, hR, hpath.symm, hnested.symm⟩

/-- An edge that is read joins partners where its row did not move. -/
theorem Kept.exists_link (h : Kept P rows after name S S' R) (hsame : SameOutside P S S') (huv : S.Inherits u v)
    (hway : OnTheWay after name u v) : MovedLink rows u v ∨ ∃ u' v', R u u' ∧ R v v' ∧ S'.Inherits u' v' := by
  by_cases hpath : u.path ∈ P ∨ v.path ∈ P
  · exact h.links u v huv hpath hway
  · obtain ⟨hu, hv⟩ := not_or.mp hpath
    exact .inr ⟨u, v, h.outside u huv.1 hu, h.outside v huv.2.1 hv, (hsame.inherits u v hu hv).mp huv⟩

section Frame

variable {a b : String}

/-- Above a name that no row flags every edge has a partner. -/
theorem Kept.up (h : Kept P rows after name S S' R) (hsame : SameOutside P S S')
    (hU : Unflagged (driftOf rows) after name method) (huv : S.Inherits u v) (ha : last u.name = some a)
    (habove : Above after name a) :
    ∃ u' v' b, R u u' ∧ R v v' ∧ S'.Inherits u' v' ∧ last v.name = some b := by
  have hway : OnTheWay after name u v := .inl ⟨a, ha, habove⟩
  obtain ⟨b, hb⟩ := Option.isSome_iff_exists.mp (h.ends u v huv hway).2
  rcases h.exists_link hsame huv hway with hmoved | ⟨u', v', hu, hv, huv'⟩
  · exact absurd habove (hU.rebased a (hmoved.named ha hb).1)
  · exact ⟨u', v', b, hu, hv, huv', hb⟩

/-- Below a name that no row flags, and that one class has, every edge has a partner. -/
theorem Kept.down (h : Kept P rows after name S S' R) (hsame : SameOutside P S S')
    (hU : Unflagged (driftOf rows) after name method) (huv : S.Inherits u v) (hb : last v.name = some b)
    (hbelow : Below after name b) :
    ∃ u' v' a, R u u' ∧ R v v' ∧ S'.Inherits u' v' ∧ last u.name = some a := by
  have hway : OnTheWay after name u v := .inr ⟨b, hb, hbelow⟩
  obtain ⟨a, ha⟩ := Option.isSome_iff_exists.mp (h.ends u v huv hway).1
  rcases h.exists_link hsame huv hway with hmoved | ⟨u', v', hu, hv, huv'⟩
  · exact absurd hbelow.2 (hU.linked hbelow.1 b (.inr (hmoved.named ha hb).2.2))
  · exact ⟨u', v', a, hu, hv, huv', ha⟩

theorem RowsTell.counts_eq (h : RowsTell P before after name method R) (hsame : SameOutside P before after)
    (hU : Unflagged (driftOf (moved P before after)) after name method) (hk : (ownerOf k).getLast? = some B)
    (hnear : Near after name B) : (before.keys method).count k = (after.keys method).count k := by
  by_cases hpath : k.1 ∈ P
  · refine (h.counts k B hpath hk hnear).resolve_left fun hmoved => ?_
    have hmem := mem_methods.mpr hmoved
    rcases hnear with habove | hbelow
    · exact hU.inherited B hmem habove
    · exact hU.overridden hbelow.1 B hmem hbelow.2
  · exact hsame.count_keys hpath

theorem RowsTell.owners_twins (h : RowsTell P before after name method R) (hsame : SameOutside P before after)
    (hU : Unflagged (driftOf (moved P before after)) after name method)
    (hmem : k ∈ before.keys method ∨ k ∈ after.keys method) (hk : (ownerOf k).getLast? = some B)
    (hnear : Near after name B) : Twins (fun c c' => R c.node c'.node) (before.owners k) (after.owners k) := by
  by_cases hmoved : MovedClass (moved P before after) B
  · rcases hnear with habove | hbelow
    · exact h.above hU k B hmem hk habove hmoved
    · exact absurd hbelow.2 (hU.linked hbelow.1 B (.inl (mem_classes.mpr hmoved)))
  · exact (RecvType.owners_twins hk (h.twins hsame hnear hmoved)).mono fun c c' hR => hR.1

theorem RowsTell.frame (h : RowsTell P before after name method R) (hsame : SameOutside P before after)
    (hU : Unflagged (driftOf (moved P before after)) after name method) :
    Frame before after R name method (Above after name) (Below after name) := by
  have hpair : ∀ {u v u' v' : TypedNode} {a b : String}, R u u' → R v v' → after.Inherits u' v' →
      last u.name = some a → last v.name = some b → (a, b) ∈ namePairs after := by
    intro u v u' v' a b hu hv huv ha hb
    exact mem_namePairs.mpr ⟨u', v', huv, h.forth.named _ _ hu ▸ ha, h.forth.named _ _ hv ▸ hb⟩
  constructor
  case mem => exact h.forth.mem
  case functional => exact h.forth.functional
  case label => exact h.forth.label
  case above => exact .refl
  case below => exact fun _ honly => ⟨length_of_only honly, .refl⟩
  case named => exact h.forth.exists_partner hsame (.inl .refl) (mt mem_classes.mpr hU.classes)
  case up =>
    intro u v a huv ha habove
    obtain ⟨u', v', b, hu, hv, huv', hb⟩ := h.forth.up hsame hU huv ha habove
    exact ⟨u', v', b, hu, hv, huv', hb, habove.tail (hpair hu hv huv' ha hb)⟩
  case down =>
    intro u v b huv hb hbelow
    obtain ⟨u', v', a, hu, hv, huv', ha⟩ := h.forth.down hsame hU huv hb hbelow
    exact ⟨u', v', a, hu, hv, huv', ha, hbelow.1, hbelow.2.head (hpair hu hv huv' ha hb)⟩
  case owners => exact fun k B hk hlast hnear => (h.owners_twins hsame hU (.inl hk) hlast hnear).1
  case counts => exact fun k B hlast hnear => h.counts_eq hsame hU hlast hnear

theorem RowsTell.frame_back (h : RowsTell P before after name method R) (hsame : SameOutside P before after)
    (hU : Unflagged (driftOf (moved P before after)) after name method) :
    Frame after before (flip R) name method (Above after name) (Below after name) := by
  constructor
  case mem => exact h.back.mem
  case functional => exact h.back.functional
  case label => exact h.back.label
  case above => exact .refl
  case below => exact fun honly _ => ⟨length_of_only honly, .refl⟩
  case named => exact h.back.exists_partner hsame.symm (.inl .refl) (mt mem_classes.mpr hU.classes)
  case up =>
    intro u v a huv ha habove
    obtain ⟨u', v', b, hu, hv, huv', hb⟩ := h.back.up hsame.symm hU huv ha habove
    exact ⟨u', v', b, hu, hv, huv', hb, habove.tail (mem_namePairs.mpr ⟨u, v, huv, ha, hb⟩)⟩
  case down =>
    intro u v b huv hb hbelow
    obtain ⟨u', v', a, hu, hv, huv', ha⟩ := h.back.down hsame.symm hU huv hb hbelow
    exact ⟨u', v', a, hu, hv, huv', ha, hbelow.1, hbelow.2.head (mem_namePairs.mpr ⟨u, v, huv, ha, hb⟩)⟩
  case owners =>
    intro k B hk hlast hnear c' hc'
    exact (h.owners_twins hsame hU (.inr hk) hlast hnear).2 c' hc'
  case counts => exact fun k B hlast hnear => (h.counts_eq hsame hU hlast hnear).symm

end Frame

/-! ### The callers -/

variable {names : String → Option (List String)} {calls : List CallRow} {call : CallRow} {type : String}

/-- A typed call outside the run whose file is not found is in no name's reach. -/
theorem unflagged_of_not_mem (hcall : call ∈ calls) (hpath : call.path ∉ P) (htyped : call.Typed)
    (hown : call.own = none) (hv : call.v = some type) (hname : last type = some name)
    (hnot : call.path ∉ typedCallersOfClassDrift names P (classShape P before) after calls) :
    Unflagged (driftOf (moved P before after)) after name call.target := by
  unfold typedCallersOfClassDrift at hnot
  dsimp only at hnot
  rw [show symmDiff (classShape P before) (classShape P after) = moved P before after from rfl] at hnot
  generalize moved P before after = rows at hnot ⊢
  split_ifs at hnot with hstill
  · obtain ⟨hclasses, hlinked, hmethods, -⟩ := hstill
    have hrebased : (driftOf rows).rebased = ∅ := Finset.subset_empty.mp (hlinked ▸ rebased_subset rows)
    constructor <;> simp [hclasses, hlinked, hmethods, hrebased]
  · rw [mem_inOrder, List.mem_toFinset] at hnot
    have hbyClass : ¬byClass after (driftOf rows) call := by
      intro hby
      refine hnot (List.mem_map_of_mem (List.mem_filter.mpr ⟨hcall, decide_eq_true ⟨hpath, .inl ⟨?_, ?_⟩⟩⟩))
      · exact .inl ⟨htyped, hown⟩
      · simp [hby]
    unfold byClass at hbyClass
    rw [hv, Option.bind_some, hname] at hbyClass
    apply unflagged
    · exact fun hany => hbyClass ⟨htyped, name, rfl, .inl hany⟩
    · exact fun hper => hbyClass ⟨htyped, name, rfl, .inr hper⟩

/-- Where the rows tell what moved, a typed call outside the run whose outcome differs has its file found. -/
theorem typedCallersOfClassDrift_complete (hsame : SameOutside P before after)
    (hrows : ∀ name ∈ last type, ∃ R, RowsTell P before after name call.target R) (hcall : call ∈ calls)
    (hpath : call.path ∉ P) (htyped : call.Typed) (hown : call.own = none) (hv : call.v = some type)
    (hdiff : (before.recvTypeTargets type (call.q = some "rtype") (before.methodsNamed call.target) call.path).outcome ≠
      (after.recvTypeTargets type (call.q = some "rtype") (after.methodsNamed call.target) call.path).outcome) :
    call.path ∈ typedCallersOfClassDrift names P (classShape P before) after calls := by
  by_contra hnot
  cases hname : last type with
  | none =>
    apply hdiff
    unfold ClassIndex.recvTypeTargets
    dsimp only
    rw [show (classPath type).getLast? = none from hname]
  | some name =>
    obtain ⟨R, htell⟩ := hrows name hname
    have hU := unflagged_of_not_mem hcall hpath htyped hown hv hname hnot
    exact hdiff (outcome_eq (htell.frame hsame hU) (htell.frame_back hsame hU) hname _ _)

section Examples

/-- A class `A` of `a.h` with declarations `void m()`, and a caller in `b.cc`. -/
def declaring (declarations : ℕ) : List TypedNode :=
  ⟨1, "a.h", "class", "A", some "A", none, 1, 9⟩ :: ⟨2, "b.cc", "function", "f", some "f", none, 1, 3⟩ ::
    (List.range declarations).map fun i => ⟨i + 3, "a.h", "method", "m", some "A.m", some "void", i + 2, i + 2⟩

def declared (declarations : ℕ) (h : ((declaring declarations).map TypedNode.id).Nodup) : ClassIndex where
  nodes := declaring declarations
  language := fun path => if path = "a.h" ∨ path = "b.cc" then some "cpp" else none
  inherits := []
  cppFields := []
  ids := h
  ends := by simp

def noMethod : ClassIndex := declared 0 (by decide)

def oneMethod : ClassIndex := declared 1 (by decide)

/-- The method is overloaded. -/
def twoMethods : ClassIndex := declared 2 (by decide)

/-- `a->m()` of `b.cc`. -/
def callOfM : CallRow := ⟨"b.cc", some "cpp", "m", some "rtype", some "A", none, none, none, none⟩

theorem sameOutside_declared (i j : ℕ) (hi : ((declaring i).map TypedNode.id).Nodup)
    (hj : ((declaring j).map TypedNode.id).Nodup) : SameOutside {"a.h"} (declared i hi) (declared j hj) := by
  constructor
  case nodes =>
    intro n hn
    unfold declared declaring
    simp only [List.mem_cons, List.mem_map]
    constructor
    · rintro (rfl | rfl | ⟨_, -, rfl⟩)
      · exact .inl rfl
      · exact .inr (.inl rfl)
      · simp at hn
    · rintro (rfl | rfl | ⟨_, -, rfl⟩)
      · exact .inl rfl
      · exact .inr (.inl rfl)
      · simp at hn
  case language => exact fun _ _ => rfl
  case cppFields => exact fun _ _ _ _ _ => Iff.rfl
  case inherits => simp [ClassIndex.Inherits, declared]

/-- An overload makes a call ambiguous and leaves the rows as they are: its caller is not found. -/
theorem typedCallersOfClassDrift_misses :
    ¬∀ (names : String → Option (List String)) (P : Finset String) (before after : ClassIndex) (calls : List CallRow)
      (call : CallRow) (type : String), SameOutside P before after → call ∈ calls → call.path ∉ P → call.Typed →
      call.own = none → call.v = some type →
      (before.recvTypeTargets type (call.q = some "rtype") (before.methodsNamed call.target) call.path).outcome ≠
        (after.recvTypeTargets type (call.q = some "rtype") (after.methodsNamed call.target) call.path).outcome →
      call.path ∈ typedCallersOfClassDrift names P (classShape P before) after calls := by
  intro h
  have hfound := h (fun _ => none) {"a.h"} oneMethod twoMethods [callOfM] callOfM "A" (sameOutside_declared 1 2 _ _)
    (List.mem_singleton_self _) (by decide) (by decide) rfl rfl (by decide +kernel)
  revert hfound
  decide +kernel

/-- Nodes that are in both states are partners. -/
theorem rowsTell_firstMethod :
    RowsTell {"a.h"} noMethod oneMethod "A" "m" fun u u' => u = u' ∧ u ∈ noMethod.nodes := by
  have hsub : ∀ u ∈ noMethod.nodes, u ∈ oneMethod.nodes := by decide +kernel
  constructor
  -- every row of the file before is still there and reads the same
  case forth =>
    constructor
    case mem => exact fun u u' h => h.2
    case functional => exact fun u u' w' h h' => h.1.symm.trans h'.1
    case named =>
      rintro u u' ⟨rfl, -⟩
      rfl
    case outside => exact fun u hu _ => ⟨rfl, hu⟩
    case label =>
      have hlabel : ∀ u ∈ noMethod.nodes, u.ClassLike → last u.spelling = last u.name := by decide +kernel
      exact fun u hu hlike B _ _ => hlabel u hu hlike
    case ends => simp [ClassIndex.Inherits, noMethod, declared]
    case classes =>
      have hrow : ∀ u ∈ noMethod.nodes, classRowOf oneMethod u = classRowOf noMethod u := by decide +kernel
      exact fun u hu _ hlike B _ _ => .inr ⟨u, hsub u hu, ⟨rfl, hu⟩, hlike, hrow u hu⟩
    case links => simp [ClassIndex.Inherits, noMethod, declared]
  -- the only row that is new is the method's, which is no class
  case back =>
    constructor
    case mem =>
      rintro u u' ⟨rfl, hu⟩
      exact hsub _ hu
    case functional =>
      rintro u u' w' ⟨rfl, -⟩ ⟨rfl, -⟩
      rfl
    case named =>
      rintro u u' ⟨rfl, -⟩
      rfl
    case outside =>
      have hout : ∀ u ∈ oneMethod.nodes, u.path ∉ ({"a.h"} : Finset String) → u ∈ noMethod.nodes := by decide +kernel
      exact fun u hu hpath => ⟨rfl, hout u hu hpath⟩
    case label =>
      have hlabel : ∀ u ∈ oneMethod.nodes, u.ClassLike → last u.spelling = last u.name := by decide +kernel
      exact fun u hu hlike B _ _ => hlabel u hu hlike
    case ends => simp [ClassIndex.Inherits, oneMethod, declared]
    case classes =>
      have hrow : ∀ u ∈ oneMethod.nodes, u.ClassLike →
          u ∈ noMethod.nodes ∧ classRowOf noMethod u = classRowOf oneMethod u := by decide +kernel
      intro u hu _ hlike B _ _
      obtain ⟨hold, hsame⟩ := hrow u hu hlike
      exact .inr ⟨u, hold, ⟨rfl, hold⟩, hlike, hsame⟩
    case links => simp [ClassIndex.Inherits, oneMethod, declared]
  -- the key of the method is the only one whose count changed, and it is flagged
  case counts =>
    have hkeys : noMethod.keys "m" = [] := by decide +kernel
    have hkeys' : oneMethod.keys "m" = [("a.h", some "A.m")] := by decide +kernel
    have howner : (ownerOf ("a.h", some "A.m")).getLast? = some "A" := by decide +kernel
    have hmoved : ("A", "m") ∈ (driftOf (moved {"a.h"} noMethod oneMethod)).methods := by decide +kernel
    intro k B _ hlast _
    rw [hkeys, hkeys']
    by_cases hk : k = ("a.h", some "A.m")
    · rw [hk, howner] at hlast
      obtain rfl := Option.some.inj hlast
      exact .inl (mem_methods.mp hmoved)
    · refine .inr ?_
      rw [List.count_nil, List.count_eq_zero_of_not_mem (by simpa using hk)]
  -- no class row moved
  case above =>
    intro _ k B _ _ _ hmoved
    have hnone : (driftOf (moved {"a.h"} noMethod oneMethod)).classes = ∅ := by decide +kernel
    have hB := mem_classes.mpr hmoved
    simp [hnone] at hB

/-- The first method of the class is found. -/
theorem firstMethod_found : callOfM.path ∈
    typedCallersOfClassDrift (fun _ => none) {"a.h"} (classShape {"a.h"} noMethod) oneMethod [callOfM] := by
  have hname : last "A" = some "A" := by decide +kernel
  refine typedCallersOfClassDrift_complete (sameOutside_declared 0 1 _ _) ?_ (List.mem_singleton_self callOfM)
    (by decide) (by decide) rfl (show callOfM.v = some "A" from rfl) (by decide +kernel)
  intro name h
  rw [hname] at h
  obtain rfl := Option.some.inj h
  exact ⟨_, rowsTell_firstMethod⟩

end Examples

end CodeGraph.Pipeline.ClassDrift
