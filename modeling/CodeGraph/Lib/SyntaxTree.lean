import Mathlib.Order.Lattice

/-!
# Syntax trees

A tree has a kind, a text and named children, some of them in a field. `gather` lists what the nodes of a tree have of
something, from the root down; it does not enter a closed node, of which it lists what lies on its border. A walk with a
bound on the depth (`gatherWithin`) lists the same of every tree that is no higher (`gatherWithin_eq`).

A node is `Located` with the nodes above it: two nodes that read the same are then told apart by their place.
-/

namespace CodeGraph.Lib

inductive SyntaxTree (κ φ : Type) where
  | node (kind : κ) (text : List Char) (children : List (Option φ × SyntaxTree κ φ))

namespace SyntaxTree

variable {κ φ α β : Type}

def kind : SyntaxTree κ φ → κ
  | node k _ _ => k

def text : SyntaxTree κ φ → List Char
  | node _ s _ => s

def children : SyntaxTree κ φ → List (Option φ × SyntaxTree κ φ)
  | node _ _ cs => cs

def namedChildren (t : SyntaxTree κ φ) : List (SyntaxTree κ φ) := t.children.map Prod.snd

/-- The first child in a field. -/
def childByField [DecidableEq φ] (t : SyntaxTree κ φ) (field : φ) : Option (SyntaxTree κ φ) :=
  (t.children.find? fun c => c.1 = some field).map Prod.snd

/-- The children in a field. -/
def childrenByField [DecidableEq φ] (t : SyntaxTree κ φ) (field : φ) : List (SyntaxTree κ φ) :=
  (t.children.filter fun c => c.1 = some field).map Prod.snd

/-! ### Nesting -/

mutual

/-- How many levels lie below the root. -/
def height : SyntaxTree κ φ → ℕ
  | node _ _ cs => heights cs

def heights : List (Option φ × SyntaxTree κ φ) → ℕ
  | [] => 0
  | (_, t) :: cs => max (height t + 1) (heights cs)

end

theorem height_lt_of_mem {field : Option φ} {t : SyntaxTree κ φ} : ∀ {cs : List (Option φ × SyntaxTree κ φ)},
    (field, t) ∈ cs → height t < heights cs
  | (_, c) :: cs, h => by
    rw [heights]
    rcases List.mem_cons.mp h with heq | hmem
    · obtain ⟨-, rfl⟩ := Prod.mk.inj heq
      omega
    · have := height_lt_of_mem hmem
      omega

theorem height_lt_of_childByField [DecidableEq φ] {t child : SyntaxTree κ φ} {field : φ}
    (h : t.childByField field = some child) : child.height < t.height := by
  obtain ⟨c, hc, rfl⟩ := Option.map_eq_some_iff.mp h
  have hmem : c ∈ t.children := List.mem_of_find?_eq_some hc
  cases t with
  | node k s cs =>
    rw [height]
    exact height_lt_of_mem hmem

/-! ### Walks -/

section Walk

variable (own border : SyntaxTree κ φ → List α) (closed : SyntaxTree κ φ → Bool)

mutual

/-- What the nodes have, from the root down. -/
def gather : SyntaxTree κ φ → List α
  | node k s cs => own (node k s cs) ++ gatherChildren cs

def gatherChildren : List (Option φ × SyntaxTree κ φ) → List α
  | [] => []
  | (_, t) :: cs => (if closed t then border t else gather t) ++ gatherChildren cs

end

variable (bound : ℕ)

mutual

/-- The same for the nodes down to a bound, from a root at the given depth. -/
def gatherWithin : SyntaxTree κ φ → ℕ → List α
  | node k s cs, depth =>
    if bound < depth then [] else own (node k s cs) ++ gatherChildrenWithin cs (depth + 1)

def gatherChildrenWithin : List (Option φ × SyntaxTree κ φ) → ℕ → List α
  | [], _ => []
  | (_, t) :: cs, depth =>
    (if closed t then border t else gatherWithin t depth) ++ gatherChildrenWithin cs depth

end

end Walk

variable {own border : SyntaxTree κ φ → List α} {closed : SyntaxTree κ φ → Bool} {bound : ℕ}

mutual

/-- A bound that the tree does not reach makes no difference. -/
theorem gatherWithin_eq : ∀ (t : SyntaxTree κ φ) (depth : ℕ), depth + t.height ≤ bound →
    gatherWithin own border closed bound t depth = gather own border closed t
  | node k s cs, depth, h => by
    rw [height] at h
    rw [gatherWithin, gather, if_neg (by omega), gatherChildrenWithin_eq cs (depth + 1) (by omega)]

theorem gatherChildrenWithin_eq : ∀ (cs : List (Option φ × SyntaxTree κ φ)) (depth : ℕ), depth + heights cs ≤ bound + 1 →
    gatherChildrenWithin own border closed bound cs depth = gatherChildren own border closed cs
  | [], depth, _ => by rw [gatherChildrenWithin, gatherChildren]
  | (field, t) :: cs, depth, h => by
    rw [heights] at h
    rw [gatherChildrenWithin, gatherChildren, gatherWithin_eq t depth (by omega),
      gatherChildrenWithin_eq cs depth (by omega)]

end

/-! ### Places -/

/-- The node that a list of indices leads to. -/
def get? : SyntaxTree κ φ → List ℕ → Option (SyntaxTree κ φ)
  | t, [] => some t
  | t, i :: place => t.namedChildren[i]?.bind fun c => get? c place

/-- The first closed node on the way to a place, and the way from there. -/
def gate (closed : SyntaxTree κ φ → Bool) : SyntaxTree κ φ → List ℕ → Option (SyntaxTree κ φ × List ℕ)
  | _, [] => none
  | t, i :: place => t.namedChildren[i]?.bind fun c => if closed c then some (c, place) else gate closed c place

theorem get?_append : ∀ {t m : SyntaxTree κ φ} {p : List ℕ}, t.get? p = some m → ∀ q, t.get? (p ++ q) = m.get? q
  | t, m, [], h, q => by
    obtain rfl := Option.some.inj h
    rfl
  | t, m, i :: p, h, q => by
    obtain ⟨c, hc, hm⟩ := Option.bind_eq_some_iff.mp h
    rw [List.cons_append, get?, hc, Option.bind_some]
    exact get?_append hm q

theorem gatherChildrenWithin_of_getElem? {a : α} {c : SyntaxTree κ φ} {depth : ℕ}
    (ha : a ∈ if closed c then border c else gatherWithin own border closed bound c depth) :
    ∀ {cs : List (Option φ × SyntaxTree κ φ)} {i : ℕ}, (cs.map Prod.snd)[i]? = some c →
      a ∈ gatherChildrenWithin own border closed bound cs depth
  | (field, t) :: cs, 0, h => by
    obtain rfl : t = c := Option.some.inj h
    rw [gatherChildrenWithin]
    exact List.mem_append_left _ ha
  | (field, t) :: cs, i + 1, h => by
    rw [gatherChildrenWithin]
    exact List.mem_append_right _ (gatherChildrenWithin_of_getElem? ha h)

theorem length_lt_of_gate {c : SyntaxTree κ φ} {rest : List ℕ} : ∀ {t : SyntaxTree κ φ} {place : List ℕ},
    gate closed t place = some (c, rest) → rest.length < place.length
  | t, i :: place, h => by
    obtain ⟨c', hc, h⟩ := Option.bind_eq_some_iff.mp h
    split_ifs at h with hclosed
    · obtain ⟨-, rfl⟩ := Prod.mk.inj (Option.some.inj h)
      exact Nat.lt_succ_self _
    · exact (length_lt_of_gate h).trans (Nat.lt_succ_self _)

theorem get?_of_gate {c : SyntaxTree κ φ} {rest : List ℕ} : ∀ {t : SyntaxTree κ φ} {place : List ℕ},
    gate closed t place = some (c, rest) → t.get? place = c.get? rest
  | t, i :: place, h => by
    obtain ⟨c', hc, h⟩ := Option.bind_eq_some_iff.mp h
    rw [get?, hc, Option.bind_some]
    split_ifs at h with hclosed
    · obtain ⟨rfl, rfl⟩ := Prod.mk.inj (Option.some.inj h)
      rfl
    · exact get?_of_gate h

theorem gate_open : ∀ (t : SyntaxTree κ φ) (place : List ℕ), gate (fun _ => false) t place = none
  | _, [] => rfl
  | t, i :: place => by
    rw [gate]
    cases t.namedChildren[i]? with
    | none => rfl
    | some c => exact gate_open c place

/-- The walk lists what a node has that it comes to within its bound. -/
theorem mem_gatherWithin {a : α} {n : SyntaxTree κ φ} (ha : a ∈ own n) : ∀ {t : SyntaxTree κ φ} {place : List ℕ} {depth : ℕ},
    t.get? place = some n → gate closed t place = none → depth + place.length ≤ bound →
      a ∈ gatherWithin own border closed bound t depth
  | node k s cs, [], depth, hn, _, hbound => by
    obtain rfl := Option.some.inj hn
    rw [gatherWithin, if_neg (by simpa using hbound)]
    exact List.mem_append_left _ ha
  | node k s cs, i :: place, depth, hn, hgate, hbound => by
    obtain ⟨c, hc, hn⟩ := Option.bind_eq_some_iff.mp hn
    rw [gate, hc, Option.bind_some] at hgate
    rw [List.length_cons] at hbound
    split_ifs at hgate with hclosed
    rw [gatherWithin, if_neg (by omega)]
    apply List.mem_append_right
    refine gatherChildrenWithin_of_getElem? ?_ hc
    rw [if_neg hclosed]
    exact mem_gatherWithin ha hn hgate (by omega)

/-- Of a closed node that it comes to, the border. -/
theorem mem_gatherWithin_border {a : α} {c : SyntaxTree κ φ} {rest : List ℕ} (ha : a ∈ border c) :
    ∀ {t : SyntaxTree κ φ} {place : List ℕ} {depth : ℕ}, gate closed t place = some (c, rest) →
      depth + place.length ≤ bound + rest.length + 1 → a ∈ gatherWithin own border closed bound t depth
  | node k s cs, i :: place, depth, hgate, hbound => by
    obtain ⟨c', hc, hgate⟩ := Option.bind_eq_some_iff.mp hgate
    rw [List.length_cons] at hbound
    split_ifs at hgate with hclosed
    · obtain ⟨rfl, rfl⟩ := Prod.mk.inj (Option.some.inj hgate)
      rw [gatherWithin, if_neg (by omega)]
      apply List.mem_append_right
      refine gatherChildrenWithin_of_getElem? ?_ hc
      rwa [if_pos hclosed]
    · have hlength := length_lt_of_gate hgate
      rw [gatherWithin, if_neg (by omega)]
      apply List.mem_append_right
      refine gatherChildrenWithin_of_getElem? ?_ hc
      rw [if_neg hclosed]
      exact mem_gatherWithin_border ha hgate (by omega)

section Congr

variable {own' border' : SyntaxTree κ φ → List α}

mutual

/-- The border is listed of closed nodes only. -/
theorem gather_congr (hown : ∀ t, own t = own' t) (hborder : ∀ t, closed t = true → border t = border' t) :
    ∀ t : SyntaxTree κ φ, gather own border closed t = gather own' border' closed t
  | node k s cs => by rw [gather, gather, hown, gatherChildren_congr hown hborder cs]

theorem gatherChildren_congr (hown : ∀ t, own t = own' t) (hborder : ∀ t, closed t = true → border t = border' t) :
    ∀ cs : List (Option φ × SyntaxTree κ φ),
      gatherChildren own border closed cs = gatherChildren own' border' closed cs
  | [] => by rw [gatherChildren, gatherChildren]
  | (field, t) :: cs => by
    rw [gatherChildren, gatherChildren, gatherChildren_congr hown hborder cs]
    split_ifs with hclosed
    · rw [hborder t hclosed]
    · rw [gather_congr hown hborder t]

end

end Congr

mutual

/-- What passes a filter, by what passes it at each node. -/
theorem filterMap_gather (f : α → Option β) : ∀ t : SyntaxTree κ φ, (gather own border closed t).filterMap f =
    gather (fun t => (own t).filterMap f) (fun t => (border t).filterMap f) closed t
  | node k s cs => by rw [gather, gather, List.filterMap_append, filterMap_gatherChildren f cs]

theorem filterMap_gatherChildren (f : α → Option β) : ∀ cs : List (Option φ × SyntaxTree κ φ),
    (gatherChildren own border closed cs).filterMap f =
      gatherChildren (fun t => (own t).filterMap f) (fun t => (border t).filterMap f) closed cs
  | [] => by rw [gatherChildren, gatherChildren, List.filterMap_nil]
  | (field, t) :: cs => by
    rw [gatherChildren, gatherChildren, List.filterMap_append, filterMap_gatherChildren f cs]
    split_ifs
    · rfl
    · rw [filterMap_gather f t]

end

/-! ### Nodes in their tree -/

/-- A node, and which of its children a path goes on to. -/
structure Step (κ φ : Type) where
  node : SyntaxTree κ φ
  index : ℕ

/-- A node with the steps that lead to it, the last first. -/
structure Located (κ φ : Type) where
  above : List (Step κ φ)
  node : SyntaxTree κ φ

namespace Located

def kind (n : Located κ φ) : κ := n.node.kind

def text (n : Located κ φ) : List Char := n.node.text

def children (n : Located κ φ) : List (Located κ φ) :=
  n.node.namedChildren.zipIdx.map fun c => ⟨⟨n.node, c.2⟩ :: n.above, c.1⟩

def childByField [DecidableEq φ] (n : Located κ φ) (field : φ) : Option (Located κ φ) :=
  (n.node.children.zipIdx.find? fun c => c.1.1 = some field).map fun c => ⟨⟨n.node, c.2⟩ :: n.above, c.1.2⟩

def childrenByField [DecidableEq φ] (n : Located κ φ) (field : φ) : List (Located κ φ) :=
  (n.node.children.zipIdx.filter fun c => c.1.1 = some field).map fun c => ⟨⟨n.node, c.2⟩ :: n.above, c.1.2⟩

/-- The node that a list of indices leads to. -/
def descend : Located κ φ → List ℕ → Option (Located κ φ)
  | n, [] => some n
  | n, i :: place => n.node.namedChildren[i]?.bind fun c => descend ⟨⟨n.node, i⟩ :: n.above, c⟩ place

theorem node_of_childByField [DecidableEq φ] {n c : Located κ φ} {field : φ} (h : n.childByField field = some c) :
    n.node.childByField field = some c.node := by
  obtain ⟨⟨⟨f, t⟩, i⟩, hfind, rfl⟩ := Option.map_eq_some_iff.mp h
  have hfst : (n.node.children.zipIdx.map Prod.fst).find? (fun c => c.1 = some field) = some (f, t) := by
    rw [List.find?_map, show ((fun c : Option φ × SyntaxTree κ φ => decide (c.1 = some field)) ∘ Prod.fst) =
      fun c : (Option φ × SyntaxTree κ φ) × ℕ => decide (c.1.1 = some field) from rfl, hfind]
    rfl
  rw [List.zipIdx_map_fst] at hfst
  show Option.map Prod.snd _ = _
  rw [hfst]
  rfl

theorem node_of_mem_childrenByField [DecidableEq φ] {n c : Located κ φ} {field : φ} (h : c ∈ n.childrenByField field) :
    c.node ∈ n.node.childrenByField field := by
  obtain ⟨⟨⟨f, t⟩, i⟩, hmem, rfl⟩ := List.mem_map.mp h
  obtain ⟨hmem, hfield⟩ := List.mem_filter.mp hmem
  refine List.mem_map.mpr ⟨(f, t), List.mem_filter.mpr ⟨?_, hfield⟩, rfl⟩
  exact List.mem_of_getElem? (List.mem_zipIdx_iff_getElem?.mp hmem)

/-- The place of a node below the root. -/
def place (n : Located κ φ) : List ℕ := (n.above.map Step.index).reverse

end Located

mutual

/-- A node and the nodes below it. -/
def nodesFrom (above : List (Step κ φ)) : SyntaxTree κ φ → List (Located κ φ)
  | node k s cs => ⟨above, node k s cs⟩ :: nodesFromChildren above (node k s cs) 0 cs

def nodesFromChildren (above : List (Step κ φ)) (parent : SyntaxTree κ φ) (i : ℕ) :
    List (Option φ × SyntaxTree κ φ) → List (Located κ φ)
  | [] => []
  | (_, t) :: cs => nodesFrom (⟨parent, i⟩ :: above) t ++ nodesFromChildren above parent (i + 1) cs

end

/-- The nodes of a file. -/
def nodes (file : SyntaxTree κ φ) : List (Located κ φ) := nodesFrom [] file

namespace Located

theorem place_cons (parent : SyntaxTree κ φ) (i : ℕ) (above : List (Step κ φ)) (n m : SyntaxTree κ φ) :
    (⟨⟨parent, i⟩ :: above, n⟩ : Located κ φ).place = (⟨above, m⟩ : Located κ φ).place ++ [i] := by
  rw [place, place, List.map_cons, List.reverse_cons]

end Located

mutual

theorem get?_of_mem_nodesFrom {m : Located κ φ} : ∀ {above : List (Step κ φ)} {t : SyntaxTree κ φ}, m ∈ nodesFrom above t →
    ∃ q, m.place = (⟨above, t⟩ : Located κ φ).place ++ q ∧ t.get? q = some m.node
  | above, node k s cs, h => by
    rcases List.mem_cons.mp h with rfl | h
    · exact ⟨[], (List.append_nil _).symm, rfl⟩
    · obtain ⟨i, t, q, ht, hplace, hget⟩ := get?_of_mem_nodesFromChildren h
      refine ⟨(0 + i) :: q, hplace, ?_⟩
      rw [get?, Nat.zero_add, show (node k s cs).namedChildren[i]? = some t from ht]
      exact hget

theorem get?_of_mem_nodesFromChildren {m : Located κ φ} : ∀ {above : List (Step κ φ)} {parent : SyntaxTree κ φ} {j : ℕ}
    {cs : List (Option φ × SyntaxTree κ φ)}, m ∈ nodesFromChildren above parent j cs →
      ∃ i t q, (cs.map Prod.snd)[i]? = some t ∧ m.place = (⟨above, parent⟩ : Located κ φ).place ++ (j + i) :: q ∧
        t.get? q = some m.node
  | above, parent, j, (field, t) :: cs, h => by
    rcases List.mem_append.mp h with h | h
    · obtain ⟨q, hplace, hget⟩ := get?_of_mem_nodesFrom h
      refine ⟨0, t, q, rfl, ?_, hget⟩
      rw [hplace, Located.place_cons (m := parent), List.append_assoc, Nat.add_zero]
      rfl
    · obtain ⟨i, t', q, ht, hplace, hget⟩ := get?_of_mem_nodesFromChildren h
      exact ⟨i + 1, t', q, ht, by rw [hplace, Nat.add_right_comm, Nat.add_assoc], hget⟩

end

/-- The place of a node leads to it. -/
theorem get?_place {file : SyntaxTree κ φ} {m : Located κ φ} (h : m ∈ file.nodes) : file.get? m.place = some m.node := by
  obtain ⟨q, hplace, hget⟩ := get?_of_mem_nodesFrom h
  rw [hplace]
  exact hget

namespace Located

theorem get?_of_childByField [DecidableEq φ] {file : SyntaxTree κ φ} {n c : Located κ φ} {field : φ}
    (hn : file.get? n.place = some n.node) (h : n.childByField field = some c) : file.get? c.place = some c.node := by
  obtain ⟨⟨⟨f, t⟩, i⟩, hfind, rfl⟩ := Option.map_eq_some_iff.mp h
  have hi : n.node.children[i]? = some (f, t) := by
    simpa using List.mem_zipIdx_iff_getElem?.mp (List.mem_of_find?_eq_some hfind)
  rw [place_cons (m := n.node), get?_append hn, get?, namedChildren, List.getElem?_map, hi]
  rfl

/-- The steps lead from the root of the file to the node. -/
def Rooted (file : SyntaxTree κ φ) (n : Located κ φ) : Prop :=
  file.get? n.place = some n.node ∧
    ∀ s outer, s :: outer <:+ n.above → file.get? (⟨outer, s.node⟩ : Located κ φ).place = some s.node

theorem rooted_descend {file : SyntaxTree κ φ} {m : Located κ φ} : ∀ {q : List ℕ} {n : Located κ φ}, Rooted file n →
    n.descend q = some m → Rooted file m
  | [], n, hn, h => by
    obtain rfl := Option.some.inj h
    exact hn
  | i :: q, n, hn, h => by
    obtain ⟨c, hc, h⟩ := Option.bind_eq_some_iff.mp h
    refine rooted_descend ⟨?_, ?_⟩ h
    · rw [place_cons (m := n.node), get?_append hn.1, get?, hc]
      rfl
    · intro s outer hsuffix
      rcases List.suffix_cons_iff.mp hsuffix with heq | hsuffix
      · obtain ⟨rfl, rfl⟩ := List.cons.inj heq
        exact hn.1
      · exact hn.2 s outer hsuffix

theorem rooted_of_descend {file : SyntaxTree κ φ} {m : Located κ φ} {q : List ℕ}
    (h : (⟨[], file⟩ : Located κ φ).descend q = some m) : Rooted file m :=
  rooted_descend ⟨rfl, fun _ _ hsuffix => absurd (List.suffix_nil.mp hsuffix) (List.cons_ne_nil _ _)⟩ h

end Located

end SyntaxTree

end CodeGraph.Lib
