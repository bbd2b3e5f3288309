import Mathlib.Data.List.Basic
import Mathlib.Data.Nat.Notation
import Mathlib.Data.Int.Notation

/-!
# Python modules

The syntax trees of Python modules, and what importing one computes, as far as the values of
module-level names go: assignments of displays and literals, functions with their default
arguments, classes with their attributes. The body of a function is syntax only, for it is
not run; expressions that call something are evaluated by a parameter.

A list is its elements: no statement here changes one that exists, so two names of one list
and two equal lists are told apart by nothing.

`Value.strings` are the strings that can be read out of a value, `Value.defaults` those that
are default arguments. `exec_defaults` says where the latter come from: when the defaults of
every function and lambda expression are literals, they are these literals.
-/

namespace Dsv41Overlay
namespace Py

abbrev Name := List Char

/-! ### Syntax -/

/-- A literal. Bytes, floats and the like are told apart by their `repr`. -/
inductive Const
  | str (s : List Char)
  | int (z : ℤ)
  | bool (b : Bool)
  | none
  | other (repr : List Char)
deriving Repr, DecidableEq

/-- An expression and the line it starts on. -/
inductive Expr
  | const (line : ℕ) (value : Const)
  | name (line : ℕ) (id : Name)
  | list (line : ℕ) (elts : List Expr)
  | tuple (line : ℕ) (elts : List Expr)
  | set (line : ℕ) (elts : List Expr)
  | dict (line : ℕ) (keys values : List Expr)
  /-- `left + right`. -/
  | add (line : ℕ) (left right : Expr)
  /-- A `lambda` with the defaults of its parameters, the keyword-only ones last. -/
  | lambda (line : ℕ) (defaults : List Expr) (body : Expr)
  /-- Any other expression, by its kind and its parts. -/
  | other (line : ℕ) (kind : Name) (parts : List Expr)

inductive Stmt
  /-- An assignment to names, annotated or not. -/
  | assign (targets : List Name) (value : Expr)
  | expr (value : Expr)
  | imports (names : List Name)
  | functionDef (name : Name) (defaults : List Expr) (body : List Stmt)
  | classDef (name : Name) (body : List Stmt)
  /-- Any other statement, by its expressions and its blocks. -/
  | other (exprs : List Expr) (body : List Stmt)

def Expr.line : Expr → ℕ
  | .const line _ | .name line _ | .list line _ | .tuple line _ | .set line _ | .dict line _ _
  | .add line _ _ | .lambda line _ _ | .other line _ _ => line

/-- `isinstance(e, ast.Constant)`. -/
def Expr.isConstant : Expr → Bool
  | .const .. => true
  | _ => false

/-- The statement would be a docstring at the head of a module, class or function. -/
def Stmt.isDocstring : Stmt → Bool
  | .expr (.const ..) => true
  | _ => false

mutual

/-- `ast.walk`: an expression and all below it. -/
def Expr.walk : Expr → List Expr
  | .const line value => [.const line value]
  | .name line id => [.name line id]
  | .list line elts => .list line elts :: Expr.walks elts
  | .tuple line elts => .tuple line elts :: Expr.walks elts
  | .set line elts => .set line elts :: Expr.walks elts
  | .dict line keys values => .dict line keys values :: (Expr.walks keys ++ Expr.walks values)
  | .add line left right => .add line left right :: (left.walk ++ right.walk)
  | .lambda line defaults body =>
    .lambda line defaults body :: (Expr.walks defaults ++ body.walk)
  | .other line kind parts => .other line kind parts :: Expr.walks parts

@[inherit_doc Expr.walk]
def Expr.walks : List Expr → List Expr
  | [] => []
  | e :: es => e.walk ++ Expr.walks es

end

/-- The nodes of statements: expressions, and functions by their defaults. -/
inductive Node
  | expr (e : Expr)
  | functionDef (defaults : List Expr)

mutual

/-- `ast.walk` over a statement, without the docstrings of the functions and classes in it. -/
def Stmt.walk : Stmt → List Node
  | .assign _ value => value.walk.map .expr
  | .expr value => value.walk.map .expr
  | .imports _ => []
  | .functionDef _ defaults body =>
    .functionDef defaults :: ((Expr.walks defaults).map .expr ++ Stmt.walks true body)
  | .classDef _ body => Stmt.walks true body
  | .other exprs body => (Expr.walks exprs).map .expr ++ Stmt.walks false body

/-- The statements of a block; the head of it may be a docstring. -/
def Stmt.walks (head : Bool) : List Stmt → List Node
  | [] => []
  | s :: rest => (if head && s.isDocstring then [] else s.walk) ++ Stmt.walks false rest

end

/-- The defaults of the parameters of a `lambda`. -/
def Expr.defaults : Expr → List Expr
  | .lambda _ defaults _ => defaults
  | _ => []

@[inherit_doc Expr.defaults]
def Node.defaults : Node → List Expr
  | .expr e => e.defaults
  | .functionDef defaults => defaults

theorem Expr.mem_walk (e : Expr) : e ∈ e.walk := by
  cases e with
  | const | name | list | tuple | set | dict | add | lambda | other => exact List.mem_cons_self

theorem Expr.mem_walks {e : Expr} {es : List Expr} (h : e ∈ es) : e ∈ Expr.walks es := by
  induction es with
  | nil => exact absurd h List.not_mem_nil
  | cons e' es ih =>
    rcases List.mem_cons.mp h with rfl | h
    · exact List.mem_append_left _ e.mem_walk
    · exact List.mem_append_right _ (ih h)

theorem Expr.subset_cons {e e' : Expr} {below : List Expr} (hwalk : e.walk = e :: below)
    (h : e' ∈ e.walk) (hbelow : e' ∈ below → e'.walk ⊆ below) : e'.walk ⊆ e.walk := by
  rw [hwalk] at h
  rcases List.mem_cons.mp h with rfl | h
  · exact List.Subset.refl _
  · rw [hwalk]
    exact List.subset_cons_of_subset _ (hbelow h)

theorem Expr.subset_append {e' : Expr} {es fs : List Expr} (hes : e' ∈ es → e'.walk ⊆ es)
    (hfs : e' ∈ fs → e'.walk ⊆ fs) (h : e' ∈ es ++ fs) : e'.walk ⊆ es ++ fs := by
  rcases List.mem_append.mp h with h | h
  · exact List.subset_append_of_subset_left _ (hes h)
  · exact List.subset_append_of_subset_right _ (hfs h)

theorem Expr.subset_nil {e' : Expr} (h : e' ∈ []) : e'.walk ⊆ [] := absurd h List.not_mem_nil

mutual

/-- The walk goes on below every node. -/
theorem Expr.walk_subset (e : Expr) {e' : Expr} (h : e' ∈ e.walk) : e'.walk ⊆ e.walk := by
  cases e with
  | const line value => exact Expr.subset_cons rfl h Expr.subset_nil
  | name line id => exact Expr.subset_cons rfl h Expr.subset_nil
  | list line elts => exact Expr.subset_cons rfl h (Expr.walks_subset elts)
  | tuple line elts => exact Expr.subset_cons rfl h (Expr.walks_subset elts)
  | set line elts => exact Expr.subset_cons rfl h (Expr.walks_subset elts)
  | dict line keys values =>
    exact Expr.subset_cons rfl h
      (Expr.subset_append (Expr.walks_subset keys) (Expr.walks_subset values))
  | add line left right =>
    exact Expr.subset_cons rfl h
      (Expr.subset_append (Expr.walk_subset left) (Expr.walk_subset right))
  | lambda line defaults body =>
    exact Expr.subset_cons rfl h
      (Expr.subset_append (Expr.walks_subset defaults) (Expr.walk_subset body))
  | other line kind parts => exact Expr.subset_cons rfl h (Expr.walks_subset parts)

theorem Expr.walks_subset (es : List Expr) {e' : Expr} (h : e' ∈ Expr.walks es) :
    e'.walk ⊆ Expr.walks es := by
  cases es with
  | nil => exact absurd h List.not_mem_nil
  | cons e es =>
    exact Expr.subset_append (Expr.walk_subset e) (Expr.walks_subset es) h

end

/-- A default argument is a node below its `lambda`. -/
theorem Expr.defaults_subset (e : Expr) : e.defaults ⊆ e.walk := by
  intro d hd
  cases e with
  | lambda line defaults body =>
    exact List.mem_cons_of_mem _ (List.mem_append_left _ (Expr.mem_walks hd))
  | const | name | list | tuple | set | dict | add | other => exact absurd hd List.not_mem_nil

theorem Node.expr_mem_of_mem_defaults {es : List Expr} (hes : ∀ e ∈ es, e.walk ⊆ es) {n : Node}
    (h : n ∈ es.map .expr) {d : Expr} (hd : d ∈ n.defaults) : .expr d ∈ es.map Node.expr := by
  obtain ⟨e, he, rfl⟩ := List.mem_map.mp h
  exact List.mem_map_of_mem (hes e he (e.defaults_subset hd))

mutual

/-- The default arguments of a node are nodes, too. -/
theorem Stmt.expr_mem_walk (s : Stmt) {n : Node} (h : n ∈ s.walk) {d : Expr}
    (hd : d ∈ n.defaults) : .expr d ∈ s.walk := by
  cases s with
  | assign targets value =>
    exact Node.expr_mem_of_mem_defaults (fun e he => value.walk_subset he) h hd
  | expr value => exact Node.expr_mem_of_mem_defaults (fun e he => value.walk_subset he) h hd
  | imports names => exact absurd h List.not_mem_nil
  | functionDef name defaults body =>
    rcases List.mem_cons.mp h with rfl | h
    · refine List.mem_cons_of_mem _ (List.mem_append_left _ ?_)
      exact List.mem_map_of_mem (Expr.mem_walks hd)
    · refine List.mem_cons_of_mem _ ?_
      rcases List.mem_append.mp h with h | h
      · refine List.mem_append_left _ ?_
        exact Node.expr_mem_of_mem_defaults (fun e he => Expr.walks_subset defaults he) h hd
      · exact List.mem_append_right _ (Stmt.expr_mem_walks true body h hd)
  | classDef name body => exact Stmt.expr_mem_walks true body h hd
  | other exprs body =>
    rcases List.mem_append.mp h with h | h
    · refine List.mem_append_left _ ?_
      exact Node.expr_mem_of_mem_defaults (fun e he => Expr.walks_subset exprs he) h hd
    · exact List.mem_append_right _ (Stmt.expr_mem_walks false body h hd)

theorem Stmt.expr_mem_walks (head : Bool) (body : List Stmt) {n : Node}
    (h : n ∈ Stmt.walks head body) {d : Expr} (hd : d ∈ n.defaults) :
    .expr d ∈ Stmt.walks head body := by
  cases body with
  | nil => exact absurd h List.not_mem_nil
  | cons s rest =>
    rcases List.mem_append.mp h with h | h
    · refine List.mem_append_left _ ?_
      split at h
      · exact absurd h List.not_mem_nil
      · next hdoc =>
        rw [if_neg hdoc]
        exact s.expr_mem_walk h hd
    · exact List.mem_append_right _ (Stmt.expr_mem_walks false rest h hd)

end

/-! ### Values -/

inductive Value
  | const (c : Const)
  | list (elts : List Value)
  | tuple (elts : List Value)
  | set (elts : List Value)
  | dict (keys values : List Value)
  /-- A function, by its default arguments. -/
  | function (defaults : List Value)
  /-- A class, by the names and values of its attributes. -/
  | cls (names : List Name) (attrs : List Value)
  | module (name : Name)

mutual

/-- The strings that can be read out of a value. -/
def Value.strings : Value → List (List Char)
  | .const (.str s) => [s]
  | .const _ => []
  | .list elts => Value.stringsAll elts
  | .tuple elts => Value.stringsAll elts
  | .set elts => Value.stringsAll elts
  | .dict keys values => Value.stringsAll keys ++ Value.stringsAll values
  | .function defaults => Value.stringsAll defaults
  | .cls _ attrs => Value.stringsAll attrs
  | .module _ => []

@[inherit_doc Value.strings]
def Value.stringsAll : List Value → List (List Char)
  | [] => []
  | v :: vs => v.strings ++ Value.stringsAll vs

end

mutual

/-- The strings that are default arguments. -/
def Value.defaults : Value → List (List Char)
  | .const _ => []
  | .list elts => Value.defaultsAll elts
  | .tuple elts => Value.defaultsAll elts
  | .set elts => Value.defaultsAll elts
  | .dict keys values => Value.defaultsAll keys ++ Value.defaultsAll values
  | .function defaults => Value.stringsAll defaults
  | .cls _ attrs => Value.defaultsAll attrs
  | .module _ => []

@[inherit_doc Value.defaults]
def Value.defaultsAll : List Value → List (List Char)
  | [] => []
  | v :: vs => v.defaults ++ Value.defaultsAll vs

end

/-! ### Keys -/

mutual

/-- `hash(v)` does not raise. Functions and classes are no keys here. -/
def Value.hashable : Value → Bool
  | .const _ => true
  | .tuple elts => Value.hashables elts
  | .module _ => true
  | _ => false

@[inherit_doc Value.hashable]
def Value.hashables : List Value → Bool
  | [] => true
  | v :: vs => v.hashable && Value.hashables vs

end

/-- Booleans are equal to `0` and `1`. -/
def Const.key : Const → Const
  | .bool b => .int (if b then 1 else 0)
  | c => c

mutual

/-- `a == b` of two keys. -/
def Value.sameKey : Value → Value → Bool
  | .const c, .const d => decide (c.key = d.key)
  | .tuple vs, .tuple ws => Value.sameKeys vs ws
  | .module m, .module n => decide (m = n)
  | _, _ => false

@[inherit_doc Value.sameKey]
def Value.sameKeys : List Value → List Value → Bool
  | [], [] => true
  | v :: vs, w :: ws => v.sameKey w && Value.sameKeys vs ws
  | _, _ => false

end

/-- Adding to a set: of equal elements the first stays. -/
def addKey (elts : List Value) (v : Value) : List Value :=
  if elts.any fun w => w.sameKey v then elts else elts ++ [v]

/-- Storing in a dictionary: the key stays, the value is replaced. -/
def addItem (items : List (Value × Value)) (item : Value × Value) : List (Value × Value) :=
  if items.any fun p => p.1.sameKey item.1 then
    items.map fun p => if p.1.sameKey item.1 then (p.1, item.2) else p
  else items ++ [item]

def mkSet (elts : List Value) : Option Value :=
  if Value.hashables elts then some (.set (elts.foldl addKey [])) else none

def mkDict (keys values : List Value) : Option Value :=
  if Value.hashables keys then
    let items := (keys.zip values).foldl addItem []
    some (.dict (items.map Prod.fst) (items.map Prod.snd))
  else none

/-- `a + b` of two strings, lists, tuples or integers. -/
def addValues : Value → Value → Option Value
  | .const (.str s), .const (.str t) => some (.const (.str (s ++ t)))
  | .const (.int m), .const (.int n) => some (.const (.int (m + n)))
  | .list vs, .list ws => some (.list (vs ++ ws))
  | .tuple vs, .tuple ws => some (.tuple (vs ++ ws))
  | _, _ => none

/-! ### Importing -/

/-- Names and their values, in the order in which they were first bound. -/
abbrev Namespace := List (Name × Value)

namespace Namespace

def value? (ns : Namespace) (x : Name) : Option Value :=
  (ns.find? fun b => decide (b.1 = x)).map Prod.snd

def bind (ns : Namespace) (x : Name) (v : Value) : Namespace :=
  if ns.any fun b => decide (b.1 = x) then ns.map fun b => if b.1 = x then (x, v) else b
  else ns ++ [(x, v)]

def strings (ns : Namespace) : List (List Char) := ns.flatMap fun b => b.2.strings

def defaults (ns : Namespace) : List (List Char) := ns.flatMap fun b => b.2.defaults

/-- A name in a module, or in a class whose module has the names `outer`. -/
def resolve (outer : Option Namespace) (ns : Namespace) (x : Name) : Option Value :=
  (ns.value? x).or (outer.bind fun globals => globals.value? x)

end Namespace

section Eval

-- what the expressions of other kinds give
variable (op : Name → List Value → Option Value)

mutual

/-- The value of an expression, `none` if it raises. -/
def eval (env : Name → Option Value) : Expr → Option Value
  | .const _ c => some (.const c)
  | .name _ id => env id
  | .list _ elts => (evals env elts).map .list
  | .tuple _ elts => (evals env elts).map .tuple
  | .set _ elts => (evals env elts).bind mkSet
  | .dict _ keys values =>
    (evals env keys).bind fun ks => (evals env values).bind fun vs => mkDict ks vs
  | .add _ left right => (eval env left).bind fun v => (eval env right).bind fun w => addValues v w
  -- the body is not run
  | .lambda _ defaults _ => (evals env defaults).map .function
  | .other _ kind parts => (evals env parts).bind (op kind)

@[inherit_doc eval]
def evals (env : Name → Option Value) : List Expr → Option (List Value)
  | [] => some []
  | e :: es => (eval env e).bind fun v => (evals env es).map fun vs => v :: vs

end

/-- A docstring is bound before the body runs. -/
def docNamespace : List Stmt → Namespace
  | .expr (.const _ (.str s)) :: _ => [("__doc__".toList, .const (.str s))]
  | _ => []

mutual

/-- A statement of a module, or of a class in a module with the names `outer`; `none` if it
raises or is of a kind that is not run here. -/
def exec (outer : Option Namespace) (ns : Namespace) : Stmt → Option Namespace
  -- all targets get the one value
  | .assign targets value =>
    (eval op (ns.resolve outer) value).map fun v => targets.foldl (fun ns x => ns.bind x v) ns
  | .expr value => (eval op (ns.resolve outer) value).map fun _ => ns
  | .imports names => some (names.foldl (fun ns x => ns.bind x (.module x)) ns)
  | .functionDef name defaults _ =>
    (evals op (ns.resolve outer) defaults).map fun ds => ns.bind name (.function ds)
  -- the body of a class sees its own names and those of the module
  | .classDef name body =>
    (execs (some (outer.getD ns)) (docNamespace body) body).map fun attrs =>
      ns.bind name (.cls (attrs.map Prod.fst) (attrs.map Prod.snd))
  | .other _ _ => none

@[inherit_doc exec]
def execs (outer : Option Namespace) (ns : Namespace) : List Stmt → Option Namespace
  | [] => some ns
  | s :: rest => (exec outer ns s).bind fun ns => execs outer ns rest

end

/-- `exec_module`: the names of the module and their values. -/
def execModule (body : List Stmt) : Option Namespace := execs op none (docNamespace body) body

end Eval

/-! ### Default arguments -/

section Defaults

variable {P : List Char → Prop} {op : Name → List Value → Option Value}

/-- A literal whose text, if it is one, has the property. -/
def Expr.Literal (P : List Char → Prop) : Expr → Prop
  | .const _ (.str s) => P s
  | .const _ _ => True
  | _ => False

/-- No operation makes a new default argument without the property. -/
def Keeps (P : List Char → Prop) (op : Name → List Value → Option Value) : Prop :=
  ∀ kind vs v, op kind vs = some v → (∀ s ∈ Value.defaultsAll vs, P s) → ∀ s ∈ v.defaults, P s

theorem forall_mem_defaultsAll {vs : List Value} :
    (∀ s ∈ Value.defaultsAll vs, P s) ↔ ∀ v ∈ vs, ∀ s ∈ v.defaults, P s := by
  induction vs with
  | nil => simp [Value.defaultsAll]
  | cons v vs ih => rw [Value.defaultsAll, List.forall_mem_append, ih, List.forall_mem_cons]

/-- Literals evaluate to themselves. -/
theorem evals_literal {env : Name → Option Value} {es : List Expr} (h : ∀ e ∈ es, e.Literal P)
    {vs : List Value} (he : evals op env es = some vs) : ∀ s ∈ Value.stringsAll vs, P s := by
  induction es generalizing vs with
  | nil =>
    obtain rfl := Option.some.inj he
    intro s hs
    exact absurd hs List.not_mem_nil
  | cons e es ih =>
    obtain ⟨hliteral, hrest⟩ := List.forall_mem_cons.mp h
    rw [evals] at he
    obtain ⟨v, hv, he⟩ := Option.bind_eq_some_iff.mp he
    obtain ⟨ws, hws, rfl⟩ := Option.map_eq_some_iff.mp he
    rw [Value.stringsAll, List.forall_mem_append]
    refine ⟨?_, ih hrest hws⟩
    cases e with
    -- only a string has anything to say
    | const line c =>
      obtain rfl := Option.some.inj hv
      cases c with
      | str t =>
        intro s hs
        obtain rfl := List.mem_singleton.mp hs
        exact hliteral
      | _ => exact fun s hs => absurd hs List.not_mem_nil
    | _ => exact hliteral.elim

/-! #### Containers -/

theorem mem_of_mem_foldl_addKey {vs elts : List Value} {v : Value}
    (h : v ∈ vs.foldl addKey elts) : v ∈ elts ∨ v ∈ vs := by
  induction vs generalizing elts with
  | nil => exact .inl h
  | cons w vs ih =>
    rcases ih h with hmem | hmem
    -- a key that is there already is not added again
    · unfold addKey at hmem
      split at hmem
      · exact .inl hmem
      · rcases List.mem_append.mp hmem with hmem | hmem
        · exact .inl hmem
        · exact .inr (List.mem_cons.mpr (.inl (List.mem_singleton.mp hmem)))
    · exact .inr (List.mem_cons_of_mem _ hmem)

theorem mem_of_mem_addItem {items : List (Value × Value)} {item p : Value × Value}
    (h : p ∈ addItem items item) :
    p ∈ items ∨ (p.1 = item.1 ∨ ∃ q ∈ items, p.1 = q.1) ∧ p.2 = item.2 := by
  unfold addItem at h
  split at h
  -- the key is there: its first writing stays, with the new value
  · obtain ⟨q, hq, rfl⟩ := List.mem_map.mp h
    by_cases hsame : q.1.sameKey item.1 = true
    · rw [if_pos hsame]
      exact .inr ⟨.inr ⟨q, hq, rfl⟩, rfl⟩
    · rw [if_neg hsame]
      exact .inl hq
  · rcases List.mem_append.mp h with h | h
    · exact .inl h
    · obtain rfl := List.mem_singleton.mp h
      exact .inr ⟨.inl rfl, rfl⟩

/-- A property of all keys and all values stays one of a dictionary built of them. -/
theorem foldl_addItem {K V : Value → Prop} {new items : List (Value × Value)}
    (hnew : ∀ p ∈ new, K p.1 ∧ V p.2) (h : ∀ p ∈ items, K p.1 ∧ V p.2) :
    ∀ p ∈ new.foldl addItem items, K p.1 ∧ V p.2 := by
  induction new generalizing items with
  | nil => exact h
  | cons item new ih =>
    obtain ⟨hitem, hnew⟩ := List.forall_mem_cons.mp hnew
    apply ih hnew
    intro p hp
    -- an old item, a new key, or an old key with the new value
    rcases mem_of_mem_addItem hp with hp | ⟨hkey | ⟨q, hq, hkey⟩, hvalue⟩
    · exact h p hp
    · rw [hkey, hvalue]
      exact hitem
    · rw [hkey, hvalue]
      exact ⟨(h q hq).1, hitem.2⟩

theorem mkSet_defaults {vs : List Value} {v : Value} (h : mkSet vs = some v)
    (hvs : ∀ s ∈ Value.defaultsAll vs, P s) : ∀ s ∈ v.defaults, P s := by
  unfold mkSet at h
  split at h
  · obtain rfl := Option.some.inj h
    rw [forall_mem_defaultsAll] at hvs
    refine forall_mem_defaultsAll.mpr ?_
    intro w hw
    exact hvs w ((mem_of_mem_foldl_addKey hw).resolve_left List.not_mem_nil)
  · exact absurd h.symm (Option.some_ne_none _)

theorem mkDict_defaults {ks vs : List Value} {v : Value} (h : mkDict ks vs = some v)
    (hks : ∀ s ∈ Value.defaultsAll ks, P s) (hvs : ∀ s ∈ Value.defaultsAll vs, P s) :
    ∀ s ∈ v.defaults, P s := by
  unfold mkDict at h
  split at h
  · obtain rfl := Option.some.inj h
    rw [forall_mem_defaultsAll] at hks hvs
    have hitems : ∀ p ∈ (ks.zip vs).foldl addItem [],
        (∀ s ∈ p.1.defaults, P s) ∧ ∀ s ∈ p.2.defaults, P s := by
      refine foldl_addItem (K := fun w => ∀ s ∈ w.defaults, P s)
        (V := fun w => ∀ s ∈ w.defaults, P s) ?_ (fun p hp => absurd hp List.not_mem_nil)
      intro p hp
      exact ⟨hks p.1 (List.of_mem_zip hp).1, hvs p.2 (List.of_mem_zip hp).2⟩
    rw [Value.defaults, List.forall_mem_append, forall_mem_defaultsAll, forall_mem_defaultsAll]
    constructor
    · intro w hw
      obtain ⟨p, hp, rfl⟩ := List.mem_map.mp hw
      exact (hitems p hp).1
    · intro w hw
      obtain ⟨p, hp, rfl⟩ := List.mem_map.mp hw
      exact (hitems p hp).2
  · exact absurd h.symm (Option.some_ne_none _)

theorem addValues_defaults {v w u : Value} (h : addValues v w = some u)
    (hv : ∀ s ∈ v.defaults, P s) (hw : ∀ s ∈ w.defaults, P s) : ∀ s ∈ u.defaults, P s := by
  unfold addValues at h
  split at h
  · obtain rfl := Option.some.inj h
    exact fun s hs => absurd hs List.not_mem_nil
  · obtain rfl := Option.some.inj h
    exact fun s hs => absurd hs List.not_mem_nil
  · obtain rfl := Option.some.inj h
    rw [Value.defaults, forall_mem_defaultsAll] at hv hw ⊢
    exact List.forall_mem_append.mpr ⟨hv, hw⟩
  · obtain rfl := Option.some.inj h
    rw [Value.defaults, forall_mem_defaultsAll] at hv hw ⊢
    exact List.forall_mem_append.mpr ⟨hv, hw⟩
  · exact absurd h.symm (Option.some_ne_none _)

/-! #### Evaluation -/

mutual

/-- **What an expression makes a default argument** is a literal of one of its `lambda`s, or
was one before. -/
theorem eval_defaults (hop : Keeps P op) {env : Name → Option Value}
    (henv : ∀ x v, env x = some v → ∀ s ∈ v.defaults, P s) (e : Expr)
    (hwalk : ∀ e' ∈ e.walk, ∀ d ∈ e'.defaults, d.Literal P) {v : Value}
    (he : eval op env e = some v) : ∀ s ∈ v.defaults, P s := by
  -- one case for each kind of expression
  cases e with
  | const line c =>
    obtain rfl := Option.some.inj he
    exact fun s hs => absurd hs List.not_mem_nil
  -- an alias: the default arguments are those of the value named
  | name line id => exact henv id v he
  | list line elts =>
    obtain ⟨vs, hvs, rfl⟩ := Option.map_eq_some_iff.mp he
    exact evals_defaults hop henv elts (List.forall_mem_cons.mp hwalk).2 hvs
  | tuple line elts =>
    obtain ⟨vs, hvs, rfl⟩ := Option.map_eq_some_iff.mp he
    exact evals_defaults hop henv elts (List.forall_mem_cons.mp hwalk).2 hvs
  | set line elts =>
    obtain ⟨vs, hvs, hset⟩ := Option.bind_eq_some_iff.mp he
    exact mkSet_defaults hset (evals_defaults hop henv elts (List.forall_mem_cons.mp hwalk).2 hvs)
  | dict line keys values =>
    obtain ⟨ks, hks, he⟩ := Option.bind_eq_some_iff.mp he
    obtain ⟨vs, hvs, hdict⟩ := Option.bind_eq_some_iff.mp he
    obtain ⟨hkeys, hvalues⟩ := List.forall_mem_append.mp (List.forall_mem_cons.mp hwalk).2
    exact mkDict_defaults hdict (evals_defaults hop henv keys hkeys hks)
      (evals_defaults hop henv values hvalues hvs)
  | add line left right =>
    obtain ⟨v₁, hv₁, he⟩ := Option.bind_eq_some_iff.mp he
    obtain ⟨v₂, hv₂, hadd⟩ := Option.bind_eq_some_iff.mp he
    obtain ⟨hleft, hright⟩ := List.forall_mem_append.mp (List.forall_mem_cons.mp hwalk).2
    exact addValues_defaults hadd (eval_defaults hop henv left hleft hv₁)
      (eval_defaults hop henv right hright hv₂)
  -- the only place where one is made
  | lambda line defaults body =>
    obtain ⟨vs, hvs, rfl⟩ := Option.map_eq_some_iff.mp he
    exact evals_literal (hwalk _ List.mem_cons_self) hvs
  | other line kind parts =>
    obtain ⟨vs, hvs, hother⟩ := Option.bind_eq_some_iff.mp he
    exact hop kind vs v hother
      (evals_defaults hop henv parts (List.forall_mem_cons.mp hwalk).2 hvs)

theorem evals_defaults (hop : Keeps P op) {env : Name → Option Value}
    (henv : ∀ x v, env x = some v → ∀ s ∈ v.defaults, P s) (es : List Expr)
    (hwalk : ∀ e' ∈ Expr.walks es, ∀ d ∈ e'.defaults, d.Literal P) {vs : List Value}
    (he : evals op env es = some vs) : ∀ s ∈ Value.defaultsAll vs, P s := by
  cases es with
  | nil =>
    obtain rfl := Option.some.inj he
    exact fun s hs => absurd hs List.not_mem_nil
  | cons e es =>
    obtain ⟨v, hv, he⟩ := Option.bind_eq_some_iff.mp he
    obtain ⟨ws, hws, rfl⟩ := Option.map_eq_some_iff.mp he
    obtain ⟨hhead, htail⟩ := List.forall_mem_append.mp hwalk
    rw [Value.defaultsAll, List.forall_mem_append]
    exact ⟨eval_defaults hop henv e hhead hv, evals_defaults hop henv es htail hws⟩

end

/-! #### Statements -/

theorem forall_mem_nsDefaults {ns : Namespace} :
    (∀ s ∈ ns.defaults, P s) ↔ ∀ b ∈ ns, ∀ s ∈ b.2.defaults, P s := by
  unfold Namespace.defaults
  simp only [List.mem_flatMap]
  constructor
  · intro h b hb s hs
    exact h s ⟨b, hb, hs⟩
  · rintro h s ⟨b, hb, hs⟩
    exact h b hb s hs

theorem defaults_value? {ns : Namespace} (h : ∀ s ∈ ns.defaults, P s) {x : Name} {v : Value}
    (hv : ns.value? x = some v) : ∀ s ∈ v.defaults, P s := by
  obtain ⟨b, hb, rfl⟩ := Option.map_eq_some_iff.mp hv
  exact forall_mem_nsDefaults.mp h b (List.mem_of_find?_eq_some hb)

theorem defaults_resolve {outer : Option Namespace} {ns : Namespace}
    (houter : ∀ globals, outer = some globals → ∀ s ∈ globals.defaults, P s)
    (h : ∀ s ∈ ns.defaults, P s) (x : Name) (v : Value) (hv : ns.resolve outer x = some v) :
    ∀ s ∈ v.defaults, P s := by
  unfold Namespace.resolve at hv
  rcases Option.or_eq_some_iff.mp hv with hv | ⟨-, hv⟩
  · exact defaults_value? h hv
  · obtain ⟨globals, hglobals, hv⟩ := Option.bind_eq_some_iff.mp hv
    exact defaults_value? (houter globals hglobals) hv

theorem defaults_bind {ns : Namespace} (h : ∀ s ∈ ns.defaults, P s) (x : Name) {v : Value}
    (hv : ∀ s ∈ v.defaults, P s) : ∀ s ∈ (ns.bind x v).defaults, P s := by
  rw [forall_mem_nsDefaults] at h ⊢
  intro b hb
  unfold Namespace.bind at hb
  split at hb
  -- an old binding, which may be the one that is replaced
  · obtain ⟨b', hb', rfl⟩ := List.mem_map.mp hb
    split
    · exact hv
    · exact h b' hb'
  -- or a new one at the end
  · rcases List.mem_append.mp hb with hb | hb
    · exact h b hb
    · obtain rfl := List.mem_singleton.mp hb
      exact hv

theorem defaults_foldl_bind (xs : List Name) {f : Name → Value}
    (hf : ∀ x, ∀ s ∈ (f x).defaults, P s) {ns : Namespace} (h : ∀ s ∈ ns.defaults, P s) :
    ∀ s ∈ (xs.foldl (fun ns x => ns.bind x (f x)) ns).defaults, P s := by
  induction xs generalizing ns with
  | nil => exact h
  | cons x xs ih => exact ih (defaults_bind h x (hf x))

theorem docNamespace_defaults (body : List Stmt) : (docNamespace body).defaults = [] := by
  unfold docNamespace
  split
  · rfl
  · rfl

/-- A docstring changes nothing. -/
theorem exec_docstring {outer : Option Namespace} {ns : Namespace} {st : Stmt}
    (h : st.isDocstring = true) : exec op outer ns st = some ns := by
  unfold Stmt.isDocstring at h
  split at h
  · rfl
  · exact Bool.noConfusion h

mutual

/-- **What a statement makes a default argument** is a literal in it, or was one before. -/
theorem exec_defaults (hop : Keeps P op) {outer : Option Namespace} {ns : Namespace}
    (houter : ∀ globals, outer = some globals → ∀ s ∈ globals.defaults, P s)
    (h : ∀ s ∈ ns.defaults, P s) (st : Stmt) (hwalk : ∀ n ∈ st.walk, ∀ d ∈ n.defaults, d.Literal P)
    {ns' : Namespace} (he : exec op outer ns st = some ns') : ∀ s ∈ ns'.defaults, P s := by
  have henv := defaults_resolve houter h
  -- one case for each kind of statement
  cases st with
  | assign targets value =>
    obtain ⟨v, hv, rfl⟩ := Option.map_eq_some_iff.mp he
    have hnodes : ∀ e' ∈ value.walk, ∀ d ∈ e'.defaults, d.Literal P := fun e' he' =>
      hwalk (.expr e') (List.mem_map_of_mem he')
    have hvalue := eval_defaults hop henv value hnodes hv
    exact defaults_foldl_bind targets (fun _ => hvalue) h
  | expr value =>
    obtain ⟨v, -, rfl⟩ := Option.map_eq_some_iff.mp he
    exact h
  | imports names =>
    obtain rfl := Option.some.inj he
    exact defaults_foldl_bind names (fun _ _ hs => absurd hs List.not_mem_nil) h
  | functionDef name defaults body =>
    obtain ⟨vs, hvs, rfl⟩ := Option.map_eq_some_iff.mp he
    exact defaults_bind h name (evals_literal (hwalk _ List.mem_cons_self) hvs)
  | classDef name body =>
    obtain ⟨attrs, hattrs, rfl⟩ := Option.map_eq_some_iff.mp he
    refine defaults_bind h name ?_
    -- the names that the body sees besides its own
    have hglobals : ∀ globals, some (outer.getD ns) = some globals →
        ∀ s ∈ globals.defaults, P s := by
      intro globals heq
      obtain rfl := Option.some.inj heq
      cases houter' : outer with
      | none => exact h
      | some globals => exact houter globals houter'
    have hbody := execs_defaults hop hglobals
      (by rw [docNamespace_defaults]; exact fun s hs => absurd hs List.not_mem_nil) body true hwalk
      hattrs
    refine forall_mem_defaultsAll.mpr ?_
    intro v hv
    obtain ⟨b, hb, rfl⟩ := List.mem_map.mp hv
    exact forall_mem_nsDefaults.mp hbody b hb
  | other exprs body => exact absurd he.symm (Option.some_ne_none _)

theorem execs_defaults (hop : Keeps P op) {outer : Option Namespace} {ns : Namespace}
    (houter : ∀ globals, outer = some globals → ∀ s ∈ globals.defaults, P s)
    (h : ∀ s ∈ ns.defaults, P s) (body : List Stmt) (head : Bool)
    (hwalk : ∀ n ∈ Stmt.walks head body, ∀ d ∈ n.defaults, d.Literal P)
    {ns' : Namespace} (he : execs op outer ns body = some ns') : ∀ s ∈ ns'.defaults, P s := by
  cases body with
  | nil =>
    obtain rfl := Option.some.inj he
    exact h
  | cons st rest =>
    obtain ⟨ns₁, hst, he⟩ := Option.bind_eq_some_iff.mp he
    obtain ⟨hhead, htail⟩ := List.forall_mem_append.mp hwalk
    refine execs_defaults hop houter ?_ rest false htail he
    -- the docstring binds nothing
    by_cases hdoc : (head && st.isDocstring) = true
    · rw [exec_docstring (Bool.and_eq_true_iff.mp hdoc).2] at hst
      obtain rfl := Option.some.inj hst
      exact h
    · rw [if_neg hdoc] at hhead
      exact exec_defaults hop houter h st hhead hst

end

theorem execModule_defaults (hop : Keeps P op) {body : List Stmt}
    (hwalk : ∀ n ∈ Stmt.walks true body, ∀ d ∈ n.defaults, d.Literal P) {globals : Namespace}
    (he : execModule op body = some globals) : ∀ s ∈ globals.defaults, P s := by
  refine execs_defaults hop (fun _ h => absurd h.symm (Option.some_ne_none _)) ?_ body true hwalk he
  rw [docNamespace_defaults]
  exact fun s hs => absurd hs List.not_mem_nil

end Defaults

end Py
end Dsv41Overlay
