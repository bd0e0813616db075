import CodeGraph.Lib.Texts
import CodeGraph.Parser.CppReceiver
import Mathlib.Data.List.Infix

/-!
# The variable behind a C++ receiver

`resolve` is the lookup of a name: outwards from a place, the innermost scope that declares it before the place, or
anywhere among the fields of a class. A declaration is visible from the end of its declarator on, that of a range loop
in the body alone. What a `using` declaration brings in is a parameter.

The walk of `cpp_declared_class` knows no blocks. It answers for the variable of a receiver where the name resolves to a
declaration that the walk reads (`cppDeclaredClass_given`).
-/

namespace CodeGraph.Parser.CppReceiver

open CodeGraph.Lib CodeGraph.Lib.SyntaxTree

abbrev Place := List ℕ

/-- Before a place in the file, and not around it. -/
def precedes : Place → Place → Bool
  | i :: p, j :: q => i < j || i == j && precedes p q
  | _, _ => false

/-! ### Declarators -/

mutual

/-- The names that a declarator declares. -/
def declared : Node → List Name
  | .node k s cs =>
    match k with
    | .identifier | .fieldIdentifier => [s]
    | .pointerDeclarator | .initDeclarator | .functionDeclarator | .arrayDeclarator => declaredAt cs
    | .referenceDeclarator | .parenthesizedDeclarator => declaredFirst cs
    | .structuredBindingDeclarator => declaredOf cs
    | _ => []

def declaredAt : List (Option Field × Node) → List Name
  | [] => []
  | (field, t) :: cs => if field = some .declarator then declared t else declaredAt cs

def declaredFirst : List (Option Field × Node) → List Name
  | [] => []
  | (_, t) :: _ => declared t

def declaredOf : List (Option Field × Node) → List Name
  | [] => []
  | (_, t) :: cs => declared t ++ declaredOf cs

end

/-! ### Declarations -/

/-- A declaration of a name, with the place behind which it is visible. -/
structure Binder where
  node : Located
  declarator : Node
  since : Place

def declaresNames (k : Kind) : Bool := isLocalDeclaration k || decide (k = .fieldDeclaration)

/-- The declarator without its initializer. -/
def core (d : Located) : Place :=
  if d.kind = .initDeclarator then ((d.childByField .declarator).map Located.place).getD d.place else d.place

section

variable (brings : Name → Located → Bool) (name : Name)

/-- A capture with an initializer is visible behind all of the captures. -/
def bindersAt (n : Located) : List Binder :=
  if declaresNames n.kind then
    ((n.childrenByField .declarator).filter fun d => name ∈ declared d.node).map fun d => ⟨n, d.node, core d⟩
  else if n.kind = .lambdaCaptureInitializer then
    (((n.node.childByField .left).filter fun x => x.text = name).map fun x => ⟨n, x, n.place.dropLast⟩).toList
  else if n.kind = .usingDeclaration ∧ brings name n then [⟨n, n.node, n.place⟩]
  else []

def binders (file : Node) : List Binder := file.nodes.flatMap (bindersAt brings name)

end

/-! ### Scopes -/

def isBlock : Kind → Bool
  | .translationUnit | .declarationList | .fieldDeclarationList | .functionDefinition | .compoundStatement
  | .forStatement | .forRangeLoop | .ifStatement | .whileStatement | .switchStatement => true
  | _ => false

def scopeAbove (p : Kind → Bool) : List Step → Place
  | [] => []
  | s :: outer => if p s.node.kind then (⟨outer, s.node⟩ : Located).place else scopeAbove p outer

/-- The function that a declarator is of; a prototype is a scope of its own. -/
def ownerScope (prototype : Place) : List Step → Place
  | [] => prototype
  | s :: outer =>
    match s.node.kind with
    | .functionDefinition => (⟨outer, s.node⟩ : Located).place
    | .pointerDeclarator | .referenceDeclarator => ownerScope prototype outer
    | _ => prototype

def parameterScope : List Step → Place
  | [] => []
  | s :: outer =>
    match s.node.kind with
    | .functionDeclarator => ownerScope (⟨outer, s.node⟩ : Located).place outer
    | .abstractFunctionDeclarator =>
      if outer.head?.any fun o => o.node.kind = .lambdaExpression then scopeAbove (· = .lambdaExpression) outer
      else (⟨outer, s.node⟩ : Located).place
    | .catchClause | .templateDeclaration => (⟨outer, s.node⟩ : Located).place
    | _ => parameterScope outer

def Binder.scope (b : Binder) : Place :=
  match b.node.kind with
  | .forRangeLoop => b.node.place
  | .fieldDeclaration => scopeAbove (· = .fieldDeclarationList) b.node.above
  | .parameterDeclaration | .optionalParameterDeclaration => parameterScope b.node.above
  | .lambdaCaptureInitializer => scopeAbove (· = .lambdaExpression) b.node.above
  | _ => scopeAbove isBlock b.node.above

/-- Visible at a place of its scope. -/
def Binder.visible (b : Binder) (p : Place) : Bool :=
  match b.node.kind with
  | .fieldDeclaration => true
  | .forRangeLoop => (b.node.childByField .body).any fun body => body.place <+: p
  | _ => precedes b.since p

section

variable (brings : Name → Located → Bool)

/-- The declaration that a name refers to at a place. -/
def resolve (name : Name) (file : Node) (p : Place) : Option Binder :=
  p.inits.reverse.findSome? fun q =>
    ((binders brings name file).filter fun b => b.scope = q ∧ b.visible p).getLast?

/-- The type that a declaration writes. -/
def Binder.writes (b : Binder) (name : Name) : Decl :=
  (declares name (b.node.kind = .declaration) b.declarator false 0).bind (declOf (b.node.node.childByField .type))

/-! ### What the walk of a function reads -/

/-- A declaration in the function, within the bound. -/
def readsLocal (func : Located) (b : Binder) : Bool :=
  isLocalDeclaration b.node.kind && decide (func.place <+: b.node.place) &&
    decide (b.node.place.length ≤ func.place.length + maxSubtreeDepth)

/-- A field of the class around the function, where the walk comes to no declaration in the function. -/
def readsField (func : Located) (name : Name) (b : Binder) : Bool :=
  (collectDeclTypes name func.node).isEmpty && decide (b.node.kind = .fieldDeclaration) &&
    (enclosingClassBody func).any fun body => b.node.place.length = body.place.length + 1 ∧ body.place <+: b.node.place

def reads (func : Located) (name : Name) (b : Binder) : Bool :=
  (declares name (b.node.kind = .declaration) b.declarator false 0).isSome && (readsLocal func b || readsField func name b)

/-- Types of the name that read the same are of one class. -/
def SameSpelling (ds : List Decl) : Prop :=
  ∀ d ∈ ds, ∀ d' ∈ ds, ∀ ty ∈ d, ∀ ty' ∈ d', ty.1.text = ty'.1.text →
    ∀ arrow, cppTypeName ty.1 arrow = cppTypeName ty'.1 arrow

/-- Where the walk comes to a declaration of the name, the name refers to one that the walk reads. -/
def Covered (name : Name) (file : Node) (p : Place) (func : Located) : Prop :=
  types name func ≠ [] →
    SameSpelling (types name func) ∧ ∃ b ∈ resolve brings name file p, reads func name b

instance (ds : List Decl) : Decidable (SameSpelling ds) :=
  inferInstanceAs (Decidable (∀ d ∈ ds, ∀ d' ∈ ds, ∀ ty ∈ d, ∀ ty' ∈ d', _ → ∀ _, _ = _))

instance (name : Name) (file : Node) (p : Place) (func : Located) : Decidable (Covered brings name file p func) :=
  inferInstanceAs (Decidable (_ → _ ∧ ∃ b ∈ resolve .., _))

/-- The name refers to a declaration that writes a type of the class. -/
def Given (name : Name) (file : Node) (p : Place) (arrow : Bool) (cls : Class) : Prop :=
  (((resolve brings name file p).bind fun b => b.writes name).bind fun ty => cppTypeName ty.1 (arrow && !ty.2)) = some cls

instance (name : Name) (file : Node) (p : Place) (arrow : Bool) (cls : Class) :
    Decidable (Given brings name file p arrow cls) :=
  inferInstanceAs (Decidable (_ = _))

end

variable {brings : Name → Located → Bool} {name : Name} {file : Node} {p : Place} {func n : Located} {b : Binder}
  {arrow : Bool} {cls : Class}

/-! ### Declarations that are read -/

theorem mem_declaredTypes {isLocal : Bool} {decl declarator : Node} {d : Option Bool}
    (hmem : declarator ∈ decl.childrenByField .declarator) (hdeclares : declares name isLocal declarator false 0 = some d) :
    declOf (decl.childByField .type) d ∈ declaredTypes name isLocal decl :=
  List.mem_map_of_mem (List.mem_filterMap.mpr ⟨declarator, hmem, hdeclares⟩)

/-- A declaration is one of its node's declarators. -/
theorem mem_childrenByField_of_bindersAt (h : b ∈ bindersAt brings name n) (hkind : declaresNames b.node.kind = true) :
    b.node = n ∧ b.declarator ∈ n.node.childrenByField .declarator := by
  unfold bindersAt at h
  split_ifs at h with hdeclares hcapture husing
  · obtain ⟨d, hd, rfl⟩ := List.mem_map.mp h
    exact ⟨rfl, Located.node_of_mem_childrenByField (List.mem_filter.mp hd).1⟩
  · obtain ⟨x, hx, rfl⟩ := Option.map_eq_some_iff.mp (Option.mem_toList.mp h)
    exact absurd hkind hdeclares
  · obtain rfl := List.mem_singleton.mp h
    exact absurd hkind hdeclares
  · exact absurd h List.not_mem_nil

theorem mem_binders_of_resolve (h : resolve brings name file p = some b) : b ∈ binders brings name file := by
  obtain ⟨q, -, hlast⟩ := List.exists_of_findSome?_eq_some h
  exact (List.mem_filter.mp (List.mem_of_getLast? hlast)).1

theorem classBodyAbove_suffix {body : Located} : ∀ {above : List Step}, classBodyAbove above = some body →
    ∃ s, body.node = s.node ∧ s :: body.above <:+ above
  | s :: outer, h => by
    rw [classBodyAbove] at h
    split_ifs at h
    obtain rfl := Option.some.inj h
    exact ⟨s, rfl, List.suffix_refl _⟩

theorem enclosingClassBody_suffix {body : Located} (h : enclosingClassBody func = some body) :
    ∃ s, body.node = s.node ∧ s :: body.above <:+ func.above := by
  unfold enclosingClassBody at h
  split at h
  · next s outer habove =>
    rw [habove]
    split_ifs at h
    · obtain ⟨s', hs', hsuffix⟩ := classBodyAbove_suffix h
      exact ⟨s', hs', hsuffix.trans (List.suffix_cons _ _)⟩
    · exact classBodyAbove_suffix h
  · nomatch h

theorem functionAround_suffix : ∀ {fuel : ℕ} {above : List Step}, functionAround fuel above = some func →
    ∃ s, func.node = s.node ∧ s :: func.above <:+ above
  | fuel + 1, s :: outer, h => by
    rw [functionAround] at h
    split_ifs at h
    · obtain rfl := Option.some.inj h
      exact ⟨s, rfl, List.suffix_refl _⟩
    · obtain ⟨s', hs', hsuffix⟩ := functionAround_suffix h
      exact ⟨s', hs', hsuffix.trans (List.suffix_cons _ _)⟩

section Rooted

variable {d : Option Bool} (hfunc : Located.Rooted file func) (hb : b ∈ binders brings name file)
  (hdeclares : declares name (b.node.kind = .declaration) b.declarator false 0 = some d)
include hfunc hb hdeclares

theorem mem_collectDeclTypes (hlocal : isLocalDeclaration b.node.kind = true) (hbelow : func.place <+: b.node.place)
    (hlength : b.node.place.length ≤ func.place.length + maxSubtreeDepth) :
    declOf (b.node.node.childByField .type) d ∈ collectDeclTypes name func.node := by
  obtain ⟨n, hn, hb⟩ := List.mem_flatMap.mp hb
  obtain ⟨rfl, hdeclarator⟩ := mem_childrenByField_of_bindersAt hb (by rw [declaresNames, hlocal]; rfl)
  obtain ⟨q, hq⟩ := hbelow
  have hget : func.node.get? q = some b.node.node := by
    rw [← get?_append hfunc.1, hq]
    exact get?_place hn
  rw [← hq, List.length_append] at hlength
  refine mem_gatherWithin ?_ hget (gate_open _ q) (by omega)
  rw [localTypes, if_pos (show isLocalDeclaration b.node.node.kind = true from hlocal)]
  exact mem_declaredTypes hdeclarator hdeclares

theorem mem_collectFieldTypes {body : Located} (hbody : enclosingClassBody func = some body)
    (hkind : b.node.kind = .fieldDeclaration) (hbelow : body.place <+: b.node.place)
    (hlength : b.node.place.length = body.place.length + 1) :
    declOf (b.node.node.childByField .type) d ∈ collectFieldTypes name body.node := by
  obtain ⟨n, hn, hb⟩ := List.mem_flatMap.mp hb
  obtain ⟨rfl, hdeclarator⟩ := mem_childrenByField_of_bindersAt hb (by rw [declaresNames, hkind]; rfl)
  obtain ⟨s, hs, hsuffix⟩ := enclosingClassBody_suffix hbody
  have hbodyGet : file.get? body.place = some body.node := by
    rw [hs]
    exact hfunc.2 s body.above hsuffix
  have hchild : b.node.node ∈ body.node.namedChildren := by
    obtain ⟨q, hq⟩ := hbelow
    rw [← hq, List.length_append, Nat.add_left_cancel_iff] at hlength
    obtain ⟨i, rfl⟩ := List.length_eq_one_iff.mp hlength
    have hget := get?_place hn
    rw [← hq, get?_append hbodyGet] at hget
    obtain ⟨c, hc, hget⟩ := Option.bind_eq_some_iff.mp hget
    obtain rfl := Option.some.inj hget
    exact List.mem_of_getElem? hc
  have hlocal : decide (b.node.kind = .declaration) = false := by rw [hkind]; rfl
  rw [hlocal] at hdeclares
  refine List.mem_flatMap.mpr ⟨b.node.node, List.mem_filter.mpr ⟨hchild, decide_eq_true hkind⟩, ?_⟩
  exact mem_declaredTypes hdeclarator hdeclares

end Rooted

/-- What is agreed on is what each declaration writes. -/
theorem eq_of_agreed {decls : List Decl} {ty : Node × Bool} (h : agreed decls = some ty) :
    some ty ∈ decls ∧ ∀ d ∈ decls, ∃ written, d = some written ∧ written.2 = ty.2 ∧ written.1.text = ty.1.text := by
  cases decls with
  | nil => nomatch h
  | cons first rest =>
    cases first with
    | none => nomatch h
    | some first =>
      rw [agreed] at h
      split_ifs at h with hall
      obtain rfl := Option.some.inj h
      refine ⟨List.mem_cons_self, fun d hd => ?_⟩
      rcases List.mem_cons.mp hd with rfl | hd
      · exact ⟨first, rfl, rfl, rfl⟩
      · obtain ⟨written, rfl, hsame⟩ := (Option.any_eq_true _ _).mp (List.all_eq_true.mp hall d hd)
        exact ⟨written, rfl, of_decide_eq_true hsame⟩

/-- What a declaration that is read writes is among the types that have to agree. -/
theorem mem_types (hfunc : Located.Rooted file func) (hb : b ∈ binders brings name file) (hreads : reads func name b = true) :
    b.writes name ∈ types name func := by
  obtain ⟨hsome, hreads⟩ := Bool.and_eq_true_iff.mp hreads
  obtain ⟨d, hdeclares⟩ := Option.isSome_iff_exists.mp hsome
  rw [Binder.writes, hdeclares, Option.bind_some, types]
  rcases Bool.or_eq_true_iff.mp hreads with hlocal | hfield
  · obtain ⟨hlocal, hlength⟩ := Bool.and_eq_true_iff.mp hlocal
    obtain ⟨hlocal, hbelow⟩ := Bool.and_eq_true_iff.mp hlocal
    have hmem := mem_collectDeclTypes hfunc hb hdeclares hlocal (of_decide_eq_true hbelow) (of_decide_eq_true hlength)
    rwa [if_neg (List.ne_nil_of_mem hmem)]
  · obtain ⟨hfield, hbody⟩ := Bool.and_eq_true_iff.mp hfield
    obtain ⟨hnone, hkind⟩ := Bool.and_eq_true_iff.mp hfield
    obtain ⟨body, hbody, hplace⟩ := (Option.any_eq_true _ _).mp hbody
    obtain ⟨hlength, hbelow⟩ := of_decide_eq_true hplace
    rw [if_pos (List.isEmpty_iff.mp hnone), hbody]
    exact mem_collectFieldTypes hfunc hb hdeclares hbody (of_decide_eq_true hkind) hbelow hlength

/-- The class of a name is that of its declaration, where the name refers to a declaration that the walk reads. -/
theorem cppDeclaredClass_given {isWhitespace : Char → Bool} (hfunc : Located.Rooted file func)
    (hcovered : Covered brings name file p func) (h : cppDeclaredClass isWhitespace func name arrow = some cls) :
    Given brings name file p arrow cls := by
  obtain ⟨ty, hagreed, h⟩ := Option.bind_eq_some_iff.mp h
  obtain ⟨cls', hname, h⟩ := Option.bind_eq_some_iff.mp h
  split_ifs at h
  obtain rfl := Option.some.inj h
  obtain ⟨hty, hall⟩ := eq_of_agreed hagreed
  obtain ⟨hsame, b, hb, hreads⟩ := hcovered (List.ne_nil_of_mem hty)
  have hmem := mem_types hfunc (mem_binders_of_resolve hb) hreads
  obtain ⟨written, hwritten, hpointer, htext⟩ := hall _ hmem
  rw [hwritten] at hmem
  rw [Given, hb, Option.bind_some, hwritten, Option.bind_some, hsame _ hmem _ hty written rfl ty rfl htext, hpointer]
  exact hname

/-- A receiver has the class that its declaration writes. -/
theorem receiverType_given {isWhitespace : Char → Bool} {f : Located} (hf : Located.Rooted file f)
    (hname : receiverName f = some (name, arrow))
    (hcovered : ∀ func, functionAround (maxSubtreeDepth * 4) f.above = some func → Covered brings name file f.place func)
    (h : receiverType isWhitespace f = some cls) : Given brings name file f.place arrow cls := by
  rw [receiverType, hname, Option.bind_some] at h
  obtain ⟨func, hfunc, h⟩ := Option.bind_eq_some_iff.mp h
  obtain ⟨s, hs, hsuffix⟩ := functionAround_suffix hfunc
  have hrooted : Located.Rooted file func := by
    refine ⟨?_, fun s' outer hsuffix' => hf.2 s' outer ((hsuffix'.trans (List.suffix_cons _ _)).trans hsuffix)⟩
    rw [hs]
    exact hf.2 s func.above hsuffix
  exact cppDeclaredClass_given hrooted (hcovered func hfunc) h

end CodeGraph.Parser.CppReceiver
