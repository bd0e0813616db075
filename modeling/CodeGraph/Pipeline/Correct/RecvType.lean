import CodeGraph.Pipeline.RecvType

/-!
# What a typed call reads

The outcome of a typed call depends on a part of the index: the classes of the receiver's name, the hierarchy
above them, the hierarchy below where the name is unique, and the methods of the called name in these classes.
Two indexes that agree on that part up to a one to one relation between their nodes give the same outcome
(`outcome_eq`).

`Frame` is one direction of that agreement. The names above and below the receiver are predicates here.
-/

namespace CodeGraph.Pipeline.RecvType

open CodeGraph.Lib

variable {S S' : ClassIndex} {R : TypedNode → TypedNode → Prop} {name method type callerPath B : String}
  {Above Below Q : String → Prop} {k : MethodKey} {u v u' v' : TypedNode}

/-- An `inherits` edge with its ends. -/
def ClassIndex.Inherits (S : ClassIndex) (u v : TypedNode) : Prop :=
  u ∈ S.nodes ∧ v ∈ S.nodes ∧ (u.id, v.id) ∈ S.inherits

theorem eq_of_id (hu : u ∈ S.nodes) (hv : v ∈ S.nodes) (h : u.id = v.id) : u = v :=
  List.inj_on_of_nodup_map S.ids hu hv h

theorem exists_inherits {e : ℕ × ℕ} (he : e ∈ S.inherits) : ∃ u v, S.Inherits u v ∧ u.id = e.1 ∧ v.id = e.2 := by
  obtain ⟨hs, ht⟩ := S.ends e he
  obtain ⟨u, hu, hue⟩ := List.mem_map.mp hs
  obtain ⟨v, hv, hve⟩ := List.mem_map.mp ht
  refine ⟨u, v, ⟨hu, hv, ?_⟩, hue, hve⟩
  rw [hue, hve]
  exact he

/-- Where the methods of a name are, and what they are called. -/
def ClassIndex.keys (S : ClassIndex) (method : String) : List MethodKey := (S.methodsNamed method).map TypedNode.key

/-- The part of `S` that a call of `method` on `name` reads is in `S'` too. -/
structure Frame (S S' : ClassIndex) (R : TypedNode → TypedNode → Prop) (name method : String)
    (Above Below : String → Prop) : Prop where
  mem : ∀ u u', R u u' → u ∈ S.nodes
  functional : ∀ u u' w', R u u' → R u w' → u' = w'
  label : ∀ u ∈ S.nodes, u.ClassLike → ∀ B, last u.spelling = some B ∨ last u.name = some B → Above B ∨ Below B →
    last u.spelling = last u.name
  above : Above name
  below : S.only? name ≠ none → S'.only? name ≠ none → Below name
  named : ∀ c ∈ S.byLast name, ∃ c' ∈ S'.byLast name,
    R c.node c'.node ∧ c.node.path = c'.node.path ∧ c.nested = c'.nested
  up : ∀ u v a, S.Inherits u v → last u.name = some a → Above a →
    ∃ u' v' b, R u u' ∧ R v v' ∧ S'.Inherits u' v' ∧ last v.name = some b ∧ Above b
  down : ∀ u v b, S.Inherits u v → last v.name = some b → Below b →
    ∃ u' v' a, R u u' ∧ R v v' ∧ S'.Inherits u' v' ∧ last u.name = some a ∧ Below a
  owners : ∀ k B, k ∈ S.keys method → (ownerOf k).getLast? = some B → Above B ∨ Below B →
    ∀ c ∈ S.owners k, ∃ c' ∈ S'.owners k, R c.node c'.node
  counts : ∀ k B, (ownerOf k).getLast? = some B → Above B ∨ Below B →
    (S.keys method).count k = (S'.keys method).count k

/-! ### The classes of a name -/

theorem mem_byLast {c : ClassNode} :
    c ∈ S.byLast B ↔ c.node ∈ S.nodes ∧ c.node.ClassLike ∧ last c.node.spelling = some B ∧ S.classNode c.node = c := by
  unfold ClassIndex.byLast
  simp only [List.mem_map, List.mem_filter, decide_eq_true_eq]
  constructor
  · rintro ⟨n, ⟨hn, hlike, hlast⟩, rfl⟩
    exact ⟨hn, hlike, hlast, rfl⟩
  · rintro ⟨hn, hlike, hlast, hc⟩
    exact ⟨c.node, ⟨hn, hlike, hlast⟩, hc⟩

theorem nodup_byLast (S : ClassIndex) (name : String) : (S.byLast name).Nodup := by
  unfold ClassIndex.byLast
  apply List.Nodup.map
  · intro n n' h
    exact congrArg ClassNode.node h
  · exact S.ids.of_map.filter _

theorem mem_byLast_of_classesFor {path : String} {c : ClassNode} (h : c ∈ S.classesFor path B) : c ∈ S.byLast B := by
  unfold ClassIndex.classesFor at h
  dsimp only at h
  split_ifs at h with hown
  · exact h
  · exact (List.mem_filter.mp h).1

theorem mem_byLast_of_owners {c : ClassNode} (hB : (ownerOf k).getLast? = some B) (h : c ∈ S.owners k) :
    c ∈ S.byLast B := by
  unfold ClassIndex.owners at h
  rw [hB] at h
  exact mem_byLast_of_classesFor h

theorem only_ne_none (h : (S.byLast name).length = 1) : S.only? name ≠ none := by
  obtain ⟨c, hc⟩ := List.length_eq_one_iff.mp h
  rw [ClassIndex.only?, single?_eq_some.mpr hc]
  exact Option.some_ne_none c

theorem length_of_only (h : S.only? name ≠ none) : (S.byLast name).length = 1 := by
  obtain ⟨c, hc⟩ := Option.ne_none_iff_exists'.mp h
  rw [single?_eq_some.mp hc, List.length_singleton]

/-- Two class nodes that the resolver does not tell apart. -/
def Partner (R : TypedNode → TypedNode → Prop) (c c' : ClassNode) : Prop :=
  R c.node c'.node ∧ c.node.path = c'.node.path ∧ c.nested = c'.nested

theorem classesFor_twins (h : Twins (Partner R) (S.byLast B) (S'.byLast B)) (path : String) :
    Twins (Partner R) (S.classesFor path B) (S'.classesFor path B) := by
  have hown : Twins (Partner R) ((S.byLast B).filter fun c => c.node.path = path)
      ((S'.byLast B).filter fun c => c.node.path = path) := by
    apply h.filter
    rintro c c' ⟨-, hpath, -⟩
    rw [hpath]
  unfold ClassIndex.classesFor
  dsimp only
  by_cases hnil : ((S.byLast B).filter fun c => c.node.path = path) = []
  · rw [if_pos hnil, if_pos (hown.eq_nil_iff.mp hnil)]
    exact h
  · rw [if_neg hnil, if_neg (mt hown.eq_nil_iff.mpr hnil)]
    exact hown

theorem owners_twins (hk : (ownerOf k).getLast? = some B) (h : Twins (Partner R) (S.byLast B) (S'.byLast B)) :
    Twins (Partner R) (S.owners k) (S'.owners k) := by
  unfold ClassIndex.owners
  rw [hk]
  exact classesFor_twins h k.1

section Frames

variable (F : Frame S S' R name method Above Below) (F' : Frame S' S (flip R) name method Above Below)
include F F'

theorem byLast_twins : Twins (Partner R) (S.byLast name) (S'.byLast name) := by
  refine ⟨F.named, fun c' hc' => ?_⟩
  obtain ⟨c, hc, hR, hpath, hnested⟩ := F'.named c' hc'
  exact ⟨c, hc, hR, hpath.symm, hnested.symm⟩

theorem owners_any_nested (hk : (ownerOf k).getLast? = some name) :
    (S.owners k).any ClassNode.nested = (S'.owners k).any ClassNode.nested := by
  apply (owners_twins hk (byLast_twins F F')).any_eq
  exact fun c c' h => h.2.2

theorem topLevel_eq : S.topLevel name = S'.topLevel name := by
  unfold ClassIndex.topLevel
  apply (byLast_twins F F').any_eq
  rintro c c' ⟨-, -, hnested⟩
  rw [hnested]

/-- Filters of the classes of the name leave one class at the same time. -/
theorem single_filter (p p' : ClassNode → Bool) (hp : ∀ c c', Partner R c c' → p c = p' c') :
    single? ((S.byLast name).filter p) = none ∧ single? ((S'.byLast name).filter p') = none ∨
      ∃ c c', c ∈ S.byLast name ∧ single? ((S.byLast name).filter p) = some c ∧
        single? ((S'.byLast name).filter p') = some c' ∧ Partner R c c' := by
  have hinj : ∀ c d c', Partner R c c' → Partner R d c' → c = d := by
    rintro ⟨n, hc⟩ ⟨m, hd⟩ c' ⟨hR, -, hnested⟩ ⟨hR', -, hnested'⟩
    obtain rfl := F'.functional _ _ _ hR hR'
    rw [show hc = hd from hnested.trans hnested'.symm]
  have hfun : ∀ c c' d', Partner R c c' → Partner R c d' → c' = d' := by
    rintro c ⟨n, hc⟩ ⟨m, hd⟩ ⟨hR, -, hnested⟩ ⟨hR', -, hnested'⟩
    obtain rfl := F.functional _ _ _ hR hR'
    rw [show hc = hd from hnested.symm.trans hnested']
  rcases ((byLast_twins F F').filter hp).single ((nodup_byLast S name).filter p) ((nodup_byLast S' name).filter p')
    hinj hfun with hnone | ⟨c, c', hc, -, hs, hs', hpartner⟩
  · exact .inl hnone
  · exact .inr ⟨c, c', (List.mem_filter.mp hc).1, hs, hs', hpartner⟩

theorem startOf_partner (topLevel : Bool) (callerPath : String) :
    startOf topLevel callerPath (S.byLast name) = none ∧ startOf topLevel callerPath (S'.byLast name) = none ∨
      ∃ c c', c ∈ S.byLast name ∧ startOf topLevel callerPath (S.byLast name) = some c ∧
        startOf topLevel callerPath (S'.byLast name) = some c' ∧ Partner R c c' := by
  unfold startOf
  dsimp only
  simp only [List.filter_filter]
  have hfits : ∀ c c', Partner R c c' → (!topLevel || !c.nested) = (!topLevel || !c'.nested) := by
    rintro c c' ⟨-, -, hnested⟩
    rw [hnested]
  have hlocal : ∀ c c', Partner R c c' →
      (decide (c.node.path = callerPath) && (!topLevel || !c.nested)) =
        (decide (c'.node.path = callerPath) && (!topLevel || !c'.nested)) := by
    rintro c c' ⟨-, hpath, hnested⟩
    rw [hpath, hnested]
  rcases single_filter F F' _ _ hfits with ⟨hs, hs'⟩ | ⟨c, c', hc, hs, hs', hpartner⟩
  · rw [hs, hs', Option.none_or, Option.none_or]
    exact single_filter F F' _ _ hlocal
  · rw [hs, hs', Option.some_or, Option.some_or]
    exact .inr ⟨c, c', hc, rfl, rfl, hpartner⟩

theorem only_partner :
    S.only? name = none ∧ S'.only? name = none ∨
      ∃ c c', c ∈ S.byLast name ∧ S.only? name = some c ∧ S'.only? name = some c' ∧ Partner R c c' := by
  have h := single_filter F F' (fun _ => true) (fun _ => true) fun _ _ _ => rfl
  rw [List.filter_true, List.filter_true] at h
  exact h

end Frames

/-! ### The hierarchy -/

/-- The nodes of a set have partners in the other set, and names in `Q`. -/
def Carried (R : TypedNode → TypedNode → Prop) (Q : String → Prop) (A A' : Finset ℕ) : Prop :=
  ∀ i ∈ A, ∃ u u' a, u.id = i ∧ R u u' ∧ u'.id ∈ A' ∧ last u.name = some a ∧ Q a

section Carried

variable {A A' seen seen' level level' : Finset ℕ}

theorem Carried.mem_of_rel (h : Carried R Q A A') (F : Frame S S' R name method Above Below) (hR : R u u')
    (hu : u.id ∈ A) : u'.id ∈ A' := by
  obtain ⟨w, w', -, hw, hR', hmem, -⟩ := h _ hu
  obtain rfl := eq_of_id (F.mem _ _ hR') (F.mem _ _ hR) hw
  rwa [F.functional _ _ _ hR hR']

theorem Carried.eq_empty (h : Carried R Q A A') (hA' : A' = ∅) : A = ∅ := by
  rw [Finset.eq_empty_iff_forall_notMem]
  intro i hi
  obtain ⟨-, u', -, -, -, hmem, -⟩ := h i hi
  simp [hA'] at hmem

theorem Carried.union {B B' : Finset ℕ} (h : Carried R Q A A') (hB : Carried R Q B B') :
    Carried R Q (A ∪ B) (A' ∪ B') := by
  intro i hi
  rcases Finset.mem_union.mp hi with hi | hi
  · obtain ⟨u, u', a, hu, hR, hmem, ha⟩ := h i hi
    exact ⟨u, u', a, hu, hR, Finset.mem_union_left _ hmem, ha⟩
  · obtain ⟨u, u', a, hu, hR, hmem, ha⟩ := hB i hi
    exact ⟨u, u', a, hu, hR, Finset.mem_union_right _ hmem, ha⟩

theorem mem_nextLevel {i : ℕ} :
    i ∈ S.nextLevel seen level ↔ (∃ u v, S.Inherits u v ∧ u.id ∈ level ∧ v.id = i) ∧ i ∉ seen := by
  unfold ClassIndex.nextLevel
  simp only [Finset.mem_sdiff, List.mem_toFinset, List.mem_map, List.mem_filter, decide_eq_true_eq]
  refine and_congr_left' ?_
  constructor
  · rintro ⟨e, ⟨he, hlevel⟩, rfl⟩
    obtain ⟨u, v, huv, hu, hv⟩ := exists_inherits he
    exact ⟨u, v, huv, hu ▸ hlevel, hv⟩
  · rintro ⟨u, v, ⟨-, -, he⟩, hlevel, hv⟩
    exact ⟨(u.id, v.id), ⟨he, hlevel⟩, hv⟩

theorem Carried.nextLevel (F : Frame S S' R name method Above Below) (F' : Frame S' S (flip R) name method Above Below)
    (hlevel : Carried R Above level level') (hseen' : Carried (flip R) Above seen' seen) :
    Carried R Above (S.nextLevel seen level) (S'.nextLevel seen' level') := by
  intro i hi
  obtain ⟨⟨u, v, huv, hu, rfl⟩, hnew⟩ := mem_nextLevel.mp hi
  obtain ⟨w, w', a, hw, hR, hmem, ha, habove⟩ := hlevel _ hu
  obtain rfl := eq_of_id (F.mem _ _ hR) huv.1 hw
  obtain ⟨u', v', b, hu', hv', huv', hb, habove'⟩ := F.up _ _ _ huv ha habove
  obtain rfl := F.functional _ _ _ hR hu'
  refine ⟨v, v', b, rfl, hv', mem_nextLevel.mpr ⟨⟨_, _, huv', hmem, rfl⟩, fun hold => ?_⟩, hb, habove'⟩
  exact hnew (hseen'.mem_of_rel F' (show flip R v' v from hv') hold)

theorem mem_subclasses {s i : ℕ} :
    i ∈ S.subclasses [s] ↔ i ≠ s ∧ Leads (S.inherits.map Prod.swap) s i := by
  unfold ClassIndex.subclasses
  rw [mem_descend]
  simp

theorem carried_subclasses {s s' : TypedNode} (F : Frame S S' R name method Above Below)
    (F' : Frame S' S (flip R) name method Above Below) (hs : R s s') (hname : last s.name = some name)
    (hbelow : Below name) : Carried R Below (S.subclasses [s.id]) (S'.subclasses [s'.id]) := by
  intro i hi
  obtain ⟨hne, hleads⟩ := mem_subclasses.mp hi
  have hpath : ∃ u u' a, u.id = i ∧ R u u' ∧ Leads (S'.inherits.map Prod.swap) s'.id u'.id ∧
      last u.name = some a ∧ Below a := by
    clear hi hne
    induction hleads with
    | refl => exact ⟨s, s', name, rfl, hs, .refl, hname, hbelow⟩
    | tail _ hstep ih =>
      obtain ⟨v, v', b, rfl, hv, hleads, hb, hbelow⟩ := ih
      obtain ⟨e, he, heq⟩ := List.mem_map.mp hstep
      obtain ⟨u, w, huw, hu, hw⟩ := exists_inherits he
      obtain ⟨he₁, he₂⟩ := Prod.mk.inj heq
      obtain rfl := eq_of_id huw.2.1 (F.mem _ _ hv) (hw.trans he₁)
      obtain ⟨u', w', a, hu', hw', huw', ha, hbelow'⟩ := F.down _ _ _ huw hb hbelow
      obtain rfl := F.functional _ _ _ hv hw'
      refine ⟨u, u', a, hu.trans he₂, hu', hleads.tail ?_, ha, hbelow'⟩
      exact List.mem_map.mpr ⟨_, huw'.2.2, rfl⟩
  obtain ⟨u, u', a, rfl, hu, hleads', ha, hbelow'⟩ := hpath
  refine ⟨u, u', a, rfl, hu, mem_subclasses.mpr ⟨fun heq => ?_, hleads'⟩, ha, hbelow'⟩
  -- a partner of the seed is the seed
  obtain rfl := eq_of_id (F'.mem _ _ (show flip R u' u from hu)) (F'.mem _ _ (show flip R s' s from hs)) heq
  exact hne (congrArg TypedNode.id (F'.functional _ _ _ (show flip R u' u from hu) hs))

/-! ### The methods in a set of classes -/

/-- A method in a set of named classes has an owner among the names. -/
theorem exists_owner (F : Frame S S' R name method Above Below) (hA : Carried R Q A A')
    (hQ : ∀ B, Q B → Above B ∨ Below B) (h : S.allIn A k) : ∃ B, (ownerOf k).getLast? = some B ∧ Q B := by
  unfold ClassIndex.allIn at h
  rw [Bool.and_eq_true, List.all_eq_true] at h
  obtain ⟨c, hc⟩ := List.exists_mem_of_ne_nil _ (of_decide_eq_true h.1)
  have hown : ∃ B, (ownerOf k).getLast? = some B := by
    unfold ClassIndex.owners at hc
    split at hc
    · exact ⟨_, by assumption⟩
    · cases hc
  obtain ⟨B, hB⟩ := hown
  obtain ⟨hn, hlike, hlast, -⟩ := mem_byLast.mp (mem_byLast_of_owners hB hc)
  obtain ⟨u, u', a, hu, hR, -, ha, hQa⟩ := hA _ (of_decide_eq_true (h.2 c hc))
  obtain rfl := eq_of_id (F.mem _ _ hR) hn hu
  have hBa : some B = some a := by
    rw [← hlast, ← ha]
    exact F.label _ hn hlike a (.inr ha) (hQ a hQa)
  exact ⟨B, hB, Option.some.inj hBa ▸ hQa⟩

theorem allIn_mono (F : Frame S S' R name method Above Below) (F' : Frame S' S (flip R) name method Above Below)
    (hA : Carried R Q A A') (hQ : ∀ B, Q B → Above B ∨ Below B) (hk : k ∈ S.keys method) (h : S.allIn A k) :
    S'.allIn A' k ∧ (S.keys method).count k = (S'.keys method).count k := by
  obtain ⟨B, hB, hQB⟩ := exists_owner F hA hQ h
  have hcount := F.counts k B hB (hQ B hQB)
  have hk' : k ∈ S'.keys method := by
    rw [← List.count_pos_iff] at hk ⊢
    omega
  unfold ClassIndex.allIn at h ⊢
  rw [Bool.and_eq_true, List.all_eq_true] at h ⊢
  obtain ⟨c, hc⟩ := List.exists_mem_of_ne_nil _ (of_decide_eq_true h.1)
  obtain ⟨c', hc', -⟩ := F.owners k B hk hB (hQ B hQB) c hc
  refine ⟨⟨decide_eq_true (List.ne_nil_of_mem hc'), fun d' hd' => ?_⟩, hcount⟩
  obtain ⟨d, hd, hR⟩ := F'.owners k B hk' hB (hQ B hQB) d' hd'
  exact decide_eq_true (hA.mem_of_rel F hR (of_decide_eq_true (h.2 d hd)))

end Carried

/-! ### Candidates chosen by their key -/

/-- Two choices among candidates that look at keys only, and choose each key equally often. -/
def Alike (candidates candidates' l l' : List TypedNode) : Prop :=
  ∃ τ τ' : MethodKey → Bool, l = candidates.filter (fun c => τ c.key) ∧ l' = candidates'.filter (fun c => τ' c.key) ∧
    (∀ k ∈ candidates.map TypedNode.key, τ k →
      τ' k ∧ (candidates.map TypedNode.key).count k = (candidates'.map TypedNode.key).count k) ∧
    ∀ k ∈ candidates'.map TypedNode.key, τ' k →
      τ k ∧ (candidates.map TypedNode.key).count k = (candidates'.map TypedNode.key).count k

variable {candidates candidates' l l' r r' : List TypedNode}

theorem Alike.nil : Alike candidates candidates' [] [] := by
  refine ⟨fun _ => false, fun _ => false, ?_, ?_, ?_, ?_⟩ <;> simp

theorem Alike.perm (h : Alike candidates candidates' l l') : (l.map TypedNode.key).Perm (l'.map TypedNode.key) := by
  obtain ⟨τ, τ', rfl, rfl, hτ, hτ'⟩ := h
  have hmap : ∀ (σ : MethodKey → Bool) (cs : List TypedNode),
      (cs.filter fun c => σ c.key).map TypedNode.key = (cs.map TypedNode.key).filter σ := by
    intro σ cs
    rw [List.filter_map]
    rfl
  rw [hmap, hmap]
  exact perm_filter hτ hτ'

theorem Alike.length_eq (h : Alike candidates candidates' l l') : l.length = l'.length := by
  have := h.perm.length_eq
  rwa [List.length_map, List.length_map] at this

theorem Alike.eq_nil_iff (h : Alike candidates candidates' l l') : l = [] ↔ l' = [] := by
  rw [← List.length_eq_zero_iff, ← List.length_eq_zero_iff, h.length_eq]

theorem Alike.filter (h : Alike candidates candidates' l l') (p : MethodKey → Bool) :
    Alike candidates candidates' (l.filter fun c => p c.key) (l'.filter fun c => p c.key) := by
  obtain ⟨τ, τ', rfl, rfl, hτ, hτ'⟩ := h
  refine ⟨fun k => p k && τ k, fun k => p k && τ' k, List.filter_filter, List.filter_filter, ?_, ?_⟩
  · intro k hk hboth
    obtain ⟨hp, ht⟩ := (Bool.and_eq_true _ _).mp hboth
    obtain ⟨ht', hcount⟩ := hτ k hk ht
    exact ⟨(Bool.and_eq_true _ _).mpr ⟨hp, ht'⟩, hcount⟩
  · intro k hk hboth
    obtain ⟨hp, ht'⟩ := (Bool.and_eq_true _ _).mp hboth
    obtain ⟨ht, hcount⟩ := hτ' k hk ht'
    exact ⟨(Bool.and_eq_true _ _).mpr ⟨hp, ht⟩, hcount⟩

/-- What one choice takes and the other leaves. -/
theorem Alike.rest (h : Alike candidates candidates' l l') (hr : Alike candidates candidates' r r') :
    Alike candidates candidates' (r.filter fun c => c ∉ l) (r'.filter fun c => c ∉ l') := by
  obtain ⟨τ, τ', rfl, rfl, hτ, hτ'⟩ := h
  obtain ⟨σ, σ', rfl, rfl, hσ, hσ'⟩ := hr
  have hleft : ∀ (τ σ : MethodKey → Bool) (cs : List TypedNode),
      ((cs.filter fun c => σ c.key).filter fun c => c ∉ cs.filter fun c => τ c.key) =
        cs.filter fun c => !τ c.key && σ c.key := by
    intro τ σ cs
    rw [List.filter_filter]
    apply List.filter_congr
    intro c hc
    simp [hc]
  -- a key with the same count on both sides is on both or on neither
  have hmem : ∀ {k : MethodKey} {ks ks' : List MethodKey}, k ∈ ks → ks.count k = ks'.count k → k ∈ ks' := by
    intro k ks ks' hk hcount
    rw [← List.count_pos_iff] at hk ⊢
    omega
  refine ⟨fun k => !τ k && σ k, fun k => !τ' k && σ' k, hleft _ _ _, hleft _ _ _, ?_, ?_⟩
  · intro k hk hboth
    obtain ⟨ht, hs⟩ := (Bool.and_eq_true _ _).mp hboth
    obtain ⟨hs', hcount⟩ := hσ k hk hs
    refine ⟨(Bool.and_eq_true _ _).mpr ⟨?_, hs'⟩, hcount⟩
    by_contra ht'
    have := (hτ' k (hmem hk hcount) (by simpa using ht')).1
    simp [this] at ht
  · intro k hk hboth
    obtain ⟨ht', hs'⟩ := (Bool.and_eq_true _ _).mp hboth
    obtain ⟨hs, hcount⟩ := hσ' k hk hs'
    refine ⟨(Bool.and_eq_true _ _).mpr ⟨?_, hs⟩, hcount⟩
    by_contra ht
    have := (hτ k (hmem hk hcount.symm) (by simpa using ht)).1
    simp [this] at ht'

/-! ### The outcome -/

section Outcome

variable (F : Frame S S' R name method Above Below) (F' : Frame S' S (flip R) name method Above Below)
include F F'

theorem alike_allIn {A A' : Finset ℕ} (hA : Carried R Q A A') (hA' : Carried (flip R) Q A' A)
    (hQ : ∀ B, Q B → Above B ∨ Below B) :
    Alike (S.methodsNamed method) (S'.methodsNamed method)
      ((S.methodsNamed method).filter fun c => S.allIn A c.key)
      ((S'.methodsNamed method).filter fun c => S'.allIn A' c.key) := by
  refine ⟨S.allIn A, S'.allIn A', rfl, rfl, fun k hk h => ?_, fun k hk h => ?_⟩
  · exact allIn_mono F F' hA hQ hk h
  · obtain ⟨hin, hcount⟩ := allIn_mono F' F hA' hQ hk h
    exact ⟨hin, hcount.symm⟩

/-- The climb stops at the same level. -/
theorem climb_alike (fuel : ℕ) {seen seen' level level' : Finset ℕ} (hseen : Carried R Above seen seen')
    (hseen' : Carried (flip R) Above seen' seen) (hlevel : Carried R Above level level')
    (hlevel' : Carried (flip R) Above level' level) :
    Alike (S.methodsNamed method) (S'.methodsNamed method) (S.climb (S.methodsNamed method) fuel seen level)
      (S'.climb (S'.methodsNamed method) fuel seen' level') := by
  induction fuel generalizing seen seen' level level' with
  | zero => exact .nil
  | succ fuel ih =>
    have hnext := Carried.nextLevel F F' hlevel hseen'
    have hnext' := Carried.nextLevel F' F hlevel' hseen
    have halike := alike_allIn F F' hnext hnext' fun B => Or.inl
    rw [ClassIndex.climb, ClassIndex.climb]
    dsimp only
    by_cases hempty : S.nextLevel seen level = ∅
    · rw [if_pos hempty, if_pos (hnext'.eq_empty hempty)]
      exact .nil
    · rw [if_neg hempty, if_neg (mt hnext.eq_empty hempty)]
      by_cases hnil : ((S.methodsNamed method).filter fun c => S.allIn (S.nextLevel seen level) c.key) = []
      · rw [if_neg (not_not_intro hnil), if_neg (not_not_intro (halike.eq_nil_iff.mp hnil))]
        exact ih (hseen.union hnext) (hseen'.union hnext') hnext hnext'
      · rw [if_pos hnil, if_pos (mt halike.eq_nil_iff.mpr hnil)]
        exact halike

theorem length_byLast : (S.byLast name).length = 1 ↔ (S'.byLast name).length = 1 := by
  rcases only_partner F F' with ⟨h, h'⟩ | ⟨c, c', -, h, h', -⟩
  · constructor
    · exact fun hlen => absurd h (only_ne_none hlen)
    · exact fun hlen => absurd h' (only_ne_none hlen)
  · have hlen := length_of_only (h ▸ Option.some_ne_none c)
    have hlen' := length_of_only (h' ▸ Option.some_ne_none c')
    exact iff_of_true hlen hlen'

omit F' in
theorem last_name_of_mem {c : ClassNode} (hc : c ∈ S.byLast name) : last c.node.name = some name := by
  obtain ⟨hn, hlike, hlast, -⟩ := mem_byLast.mp hc
  rw [← F.label _ hn hlike name (.inl hlast) (.inl F.above)]
  exact hlast

theorem last_name_of_partner {c c' : ClassNode} (hc : c ∈ S.byLast name) (hR : R c.node c'.node) :
    last c'.node.name = some name := by
  obtain ⟨d', hd', hR', -⟩ := F.named c hc
  rw [F.functional _ _ _ hR hR']
  exact last_name_of_mem F' hd'

theorem overridesBelow_alike {c c' : ClassNode} {inherited inherited' : List TypedNode} (dispatch : Bool)
    (hc : c ∈ S.byLast name) (hR : R c.node c'.node)
    (h : Alike (S.methodsNamed method) (S'.methodsNamed method) inherited inherited') :
    Alike (S.methodsNamed method) (S'.methodsNamed method)
      (S.overridesBelow name dispatch (S.methodsNamed method) inherited c)
      (S'.overridesBelow name dispatch (S'.methodsNamed method) inherited' c') := by
  have hiff : (dispatch ∧ (S.byLast name).length = 1) ↔ (dispatch ∧ (S'.byLast name).length = 1) :=
    and_congr_right' (length_byLast F F')
  unfold ClassIndex.overridesBelow
  by_cases huniq : dispatch ∧ (S.byLast name).length = 1
  · rw [if_pos huniq, if_pos (hiff.mp huniq)]
    have hbelow : Below name := F.below (only_ne_none huniq.2) (only_ne_none (hiff.mp huniq).2)
    have hsub := carried_subclasses F F' hR (last_name_of_mem F hc) hbelow
    have hsub' := carried_subclasses F' F hR (last_name_of_partner F F' hc hR) hbelow
    have hrest := h.rest (alike_allIn F F' hsub hsub' fun B => Or.inr)
    simpa only [List.filter_filter, Bool.decide_and, Bool.decide_eq_true, Bool.and_comm] using hrest
  · rw [if_neg huniq, if_neg (mt hiff.mpr huniq)]
    exact .nil

theorem inheritedOrOverridden_outcome (topLevel dispatch : Bool) (callerPath : String) :
    (S.inheritedOrOverridden name topLevel dispatch (S.methodsNamed method) callerPath).outcome =
      (S'.inheritedOrOverridden name topLevel dispatch (S'.methodsNamed method) callerPath).outcome := by
  unfold ClassIndex.inheritedOrOverridden
  rcases startOf_partner F F' topLevel callerPath with ⟨hs, hs'⟩ | ⟨c, c', hc, hs, hs', hR, -⟩
  · rw [hs, hs']
  · rw [hs, hs']
    dsimp only
    have hstart : Carried R Above {c.node.id} {c'.node.id} := by
      intro i hi
      have hname := last_name_of_mem F hc
      exact ⟨_, _, name, (Finset.mem_singleton.mp hi).symm, hR, Finset.mem_singleton_self _, hname, F.above⟩
    have hstart' : Carried (flip R) Above {c'.node.id} {c.node.id} := by
      intro i hi
      have hname := last_name_of_partner F F' hc hR
      exact ⟨_, _, name, (Finset.mem_singleton.mp hi).symm, hR, Finset.mem_singleton_self _, hname, F.above⟩
    have hclimb := climb_alike F F' 32 hstart hstart' hstart hstart'
    generalize S.climb (S.methodsNamed method) 32 {c.node.id} {c.node.id} = inherited at hclimb ⊢
    generalize S'.climb (S'.methodsNamed method) 32 {c'.node.id} {c'.node.id} = inherited' at hclimb ⊢
    have hover := overridesBelow_alike F F' dispatch hc hR hclimb
    have hkeys := List.toFinset_eq_of_perm _ _ (hclimb.perm.append hover.perm)
    rw [← List.map_append, ← List.map_append] at hkeys
    rw [← hclimb.length_eq]
    simp only [List.append_eq_nil_iff, ← hclimb.eq_nil_iff, ← hover.eq_nil_iff]
    split_ifs with hnil hmany
    · rfl
    · exact congrArg Outcome.ambiguous hkeys
    · exact congrArg Outcome.bind hkeys

/-! ### Methods of the class itself -/

omit F F' in
theorem agrees_getLast {want : List String} (hwant : want.getLast? = some name) (h : agrees want k) :
    (ownerOf k).getLast? = some name := by
  unfold agrees at h
  dsimp only at h
  rw [Bool.and_eq_true, decide_eq_true_eq, beq_iff_eq] at h
  obtain ⟨hshared, hdrop⟩ := h
  have hlast := congrArg List.getLast? hdrop
  rw [List.getLast?_drop, List.getLast?_drop, if_neg (by omega), if_neg (by omega)] at hlast
  rw [hlast, hwant]

theorem inNested_eq {want : List String} (hwant : want.getLast? = some name) (h : agrees want k) :
    S.inNested want k = S'.inNested want k := by
  unfold ClassIndex.inNested
  rw [owners_any_nested F F' (agrees_getLast hwant h)]

/-- The methods that agree with the wanted class, nested or not. -/
theorem agreeing_alike {want : List String} (hwant : want.getLast? = some name) (f : Bool → Bool) :
    Alike (S.methodsNamed method) (S'.methodsNamed method)
      ((S.methodsNamed method).filter fun c => agrees want c.key && f (S.inNested want c.key))
      ((S'.methodsNamed method).filter fun c => agrees want c.key && f (S'.inNested want c.key)) := by
  refine ⟨fun k => agrees want k && f (S.inNested want k), fun k => agrees want k && f (S'.inNested want k),
    rfl, rfl, fun k _ h => ?_, fun k _ h => ?_⟩
  · have hagrees := ((Bool.and_eq_true _ _).mp h).1
    dsimp only at h ⊢
    rw [inNested_eq F F' hwant hagrees] at h
    exact ⟨h, F.counts k name (agrees_getLast hwant hagrees) (.inl F.above)⟩
  · have hagrees := ((Bool.and_eq_true _ _).mp h).1
    dsimp only at h ⊢
    rw [← inNested_eq F F' hwant hagrees] at h
    exact ⟨h, F.counts k name (agrees_getLast hwant hagrees) (.inl F.above)⟩

omit F F' in
theorem ownTargets_alike {own own' : List TypedNode} (callerPath : String)
    (h : Alike (S.methodsNamed method) (S'.methodsNamed method) own own') :
    Alike (S.methodsNamed method) (S'.methodsNamed method) (ownTargets callerPath own).1
      (ownTargets callerPath own').1 ∧ (ownTargets callerPath own).2 = (ownTargets callerPath own').2 := by
  have hlocal : Alike (S.methodsNamed method) (S'.methodsNamed method)
      (own.filter fun c => c.path = callerPath) (own'.filter fun c => c.path = callerPath) :=
    h.filter fun k => k.1 = callerPath
  unfold ownTargets
  dsimp only
  simp only [← h.length_eq, ne_eq, ← hlocal.eq_nil_iff]
  split_ifs with hone hnil
  · exact ⟨h, rfl⟩
  · exact ⟨h, rfl⟩
  · exact ⟨hlocal, rfl⟩

omit F F' in
theorem mem_of_mem_ownTargets {own : List TypedNode} {c : TypedNode} (h : c ∈ (ownTargets callerPath own).1) :
    c ∈ own := by
  unfold ownTargets at h
  dsimp only at h
  split_ifs at h
  · exact h
  · exact (List.mem_filter.mp h).1
  · exact h

/-! ### Overrides -/

omit F F' in
/-- The targets of one class seed its node, once each. -/
theorem seeds_eq {targets : List TypedNode} (h : ∀ c ∈ targets, (ownerOf c.key).getLast? = some name) :
    S.seeds targets =
      match S.only? name with
      | some only => List.replicate targets.length only.node.id
      | none => [] := by
  have hconst : S.seeds targets = targets.filterMap fun _ => (S.only? name).map fun only => only.node.id := by
    unfold ClassIndex.seeds
    apply List.filterMap_congr
    intro c hc
    rw [h c hc]
    rfl
  rw [hconst]
  cases S.only? name with
  | none => simp
  | some only => simp [← List.map_const']

omit F F' in
theorem subclasses_replicate {n i : ℕ} : S.subclasses (List.replicate (n + 1) i) = S.subclasses [i] := by
  ext x
  unfold ClassIndex.subclasses
  simp only [mem_descend, List.mem_replicate, List.mem_singleton]
  simp

theorem overrides_alike {targets targets' : List TypedNode}
    (h : Alike (S.methodsNamed method) (S'.methodsNamed method) targets targets')
    (hall : ∀ c ∈ targets, (ownerOf c.key).getLast? = some name)
    (hall' : ∀ c ∈ targets', (ownerOf c.key).getLast? = some name) :
    Alike (S.methodsNamed method) (S'.methodsNamed method) (S.overrides (S.methodsNamed method) targets)
      (S'.overrides (S'.methodsNamed method) targets') := by
  unfold ClassIndex.overrides
  rw [seeds_eq hall, seeds_eq hall']
  rcases only_partner F F' with ⟨ho, ho'⟩ | ⟨c, c', hc, ho, ho', hR, -⟩
  · rw [ho, ho']
    exact .nil
  · rw [ho, ho']
    dsimp only
    rw [← h.length_eq]
    cases targets.length with
    | zero => exact .nil
    | succ n =>
      have hbelow : Below name := F.below (ho ▸ Option.some_ne_none c) (ho' ▸ Option.some_ne_none c')
      have hsub := carried_subclasses F F' hR (last_name_of_mem F hc) hbelow
      have hsub' := carried_subclasses F' F hR (last_name_of_partner F F' hc hR) hbelow
      have hrest := h.rest (alike_allIn F F' hsub hsub' fun B => Or.inr)
      rw [if_neg (by simp [List.replicate_succ]), if_neg (by simp [List.replicate_succ]), subclasses_replicate,
        subclasses_replicate]
      simpa only [List.filter_filter, Bool.decide_and, Bool.decide_eq_true] using hrest

/-! ### The whole call -/

theorem ownMethods_alike {want : List String} (hwant : want.getLast? = some name) :
    Alike (S.methodsNamed method) (S'.methodsNamed method) (S.ownMethods want name (S.methodsNamed method))
      (S'.ownMethods want name (S'.methodsNamed method)) := by
  have hexact := agreeing_alike F F' hwant not
  have hnested := agreeing_alike F F' hwant id
  unfold ClassIndex.ownMethods
  dsimp only
  simp only [ne_eq, hexact.eq_nil_iff, topLevel_eq F F']
  split_ifs with hnil htop
  · exact .nil
  · exact hnested
  · exact hexact

omit F F' in
theorem getLast?_of_mem_ownMethods {want : List String} {c : TypedNode} {candidates : List TypedNode}
    (hwant : want.getLast? = some name) (h : c ∈ S.ownMethods want name candidates) :
    (ownerOf c.key).getLast? = some name := by
  unfold ClassIndex.ownMethods at h
  dsimp only at h
  apply agrees_getLast hwant
  split_ifs at h
  · exact ((Bool.and_eq_true _ _).mp (List.mem_filter.mp h).2).1
  · cases h
  · exact ((Bool.and_eq_true _ _).mp (List.mem_filter.mp h).2).1

theorem bindOwn_outcome {own own' : List TypedNode} (dispatch : Bool) (callerPath : String)
    (h : Alike (S.methodsNamed method) (S'.methodsNamed method) own own')
    (hall : ∀ c ∈ own, (ownerOf c.key).getLast? = some name)
    (hall' : ∀ c ∈ own', (ownerOf c.key).getLast? = some name) :
    (S.bindOwn dispatch (S.methodsNamed method) callerPath own).outcome =
      (S'.bindOwn dispatch (S'.methodsNamed method) callerPath own').outcome := by
  obtain ⟨htargets, hmany⟩ := ownTargets_alike callerPath h
  have hover := overrides_alike F F' htargets (fun c hc => hall c (mem_of_mem_ownTargets hc))
    fun c hc => hall' c (mem_of_mem_ownTargets hc)
  have hkeys : ∀ {l l' : List TypedNode}, (l.map TypedNode.key).Perm (l'.map TypedNode.key) →
      (if (ownTargets callerPath own).2 then RecvTypeTargets.ambiguous l else .bind l).outcome =
        (if (ownTargets callerPath own').2 then RecvTypeTargets.ambiguous l' else .bind l').outcome := by
    intro l l' hperm
    rw [hmany]
    split_ifs
    · exact congrArg Outcome.ambiguous (List.toFinset_eq_of_perm _ _ hperm)
    · exact congrArg Outcome.bind (List.toFinset_eq_of_perm _ _ hperm)
  unfold ClassIndex.bindOwn
  cases dispatch with
  | false => exact hkeys htargets.perm
  | true =>
    apply hkeys
    rw [if_pos rfl, if_pos rfl, List.map_append, List.map_append]
    exact htargets.perm.append hover.perm

/-- A typed call has the same outcome in two indexes that agree on what it reads. -/
theorem outcome_eq (hname : (classPath type).getLast? = some name) (dispatch : Bool) (callerPath : String) :
    (S.recvTypeTargets type dispatch (S.methodsNamed method) callerPath).outcome =
      (S'.recvTypeTargets type dispatch (S'.methodsNamed method) callerPath).outcome := by
  have hown := ownMethods_alike F F' hname
  unfold ClassIndex.recvTypeTargets
  dsimp only
  rw [hname]
  dsimp only
  by_cases hstd : (classPath type).head? = some "std"
  · rw [if_pos hstd, if_pos hstd]
  · rw [if_neg hstd, if_neg hstd]
    by_cases hnil : S.ownMethods (classPath type) name (S.methodsNamed method) = []
    · rw [if_pos hnil, if_pos (hown.eq_nil_iff.mp hnil)]
      have hempty : S.byLast name = [] ↔ S'.byLast name = [] := (byLast_twins F F').eq_nil_iff
      by_cases hno : S.byLast name = []
      · rw [if_pos hno, if_pos (hempty.mp hno)]
      · rw [if_neg hno, if_neg (mt hempty.mpr hno), topLevel_eq F F']
        exact inheritedOrOverridden_outcome F F' _ dispatch callerPath
    · rw [if_neg hnil, if_neg (mt hown.eq_nil_iff.mpr hnil)]
      apply bindOwn_outcome F F' dispatch callerPath hown
      · exact fun c hc => getLast?_of_mem_ownMethods hname hc
      · exact fun c hc => getLast?_of_mem_ownMethods hname hc

end Outcome

end CodeGraph.Pipeline.RecvType
