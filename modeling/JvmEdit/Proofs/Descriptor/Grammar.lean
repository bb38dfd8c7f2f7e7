import JvmEdit.Proofs.Descriptor.Rename
import Mathlib.Data.List.Chain
set_option autoImplicit false

namespace JvmEdit

namespace Signature

inductive Sign
  | plus
  | minus
  deriving DecidableEq, Repr

def Sign.char : Sign → Char
  | plus => '+'
  | minus => '-'

mutual

inductive TypeTree
  | base (letter : Char)
  | array (element : TypeTree)
  | typeVariable (name : List Char)
  | named (name : List Char) (tail : Tail)

-- What follows a class name, up to the semicolon.
inductive Tail
  | stop
  | member (name : List Char) (tail : Tail)
  | arguments (arguments : Arguments) (tail : Tail)

inductive Arguments
  | stop
  | any (rest : Arguments)
  | bounded (sign : Sign) (type : TypeTree) (rest : Arguments)
  | exact (type : TypeTree) (rest : Arguments)

end

section Trees

mutual

def TypeTree.text : TypeTree → List Char
  | .base letter => [letter]
  | .array element => '[' :: element.text
  | .typeVariable name => 'T' :: (name ++ [';'])
  | .named name tail => 'L' :: (name ++ tail.text)

def Tail.text : Tail → List Char
  | .stop => [';']
  | .member name tail => '.' :: (name ++ tail.text)
  | .arguments arguments tail => '<' :: (arguments.text ++ tail.text)

def Arguments.text : Arguments → List Char
  | .stop => ['>']
  | .any rest => '*' :: rest.text
  | .bounded sign type rest => sign.char :: (type.text ++ rest.text)
  | .exact type rest => type.text ++ rest.text

end

mutual

def TypeTree.classNames : TypeTree → List (List Char)
  | .base _ => []
  | .array element => element.classNames
  | .typeVariable _ => []
  | .named name tail => name :: tail.classNames

def Tail.classNames : Tail → List (List Char)
  | .stop => []
  | .member _ tail => tail.classNames
  | .arguments arguments tail => arguments.classNames ++ tail.classNames

def Arguments.classNames : Arguments → List (List Char)
  | .stop => []
  | .any rest => rest.classNames
  | .bounded _ type rest => type.classNames ++ rest.classNames
  | .exact type rest => type.classNames ++ rest.classNames

end

variable (old new : List Char)

mutual

-- The class names that are the old one give way to the new one.
def TypeTree.rename : TypeTree → TypeTree
  | .base letter => .base letter
  | .array element => .array element.rename
  | .typeVariable name => .typeVariable name
  | .named name tail => .named (if name = old then new else name) tail.rename

def Tail.rename : Tail → Tail
  | .stop => .stop
  | .member name tail => .member name tail.rename
  | .arguments arguments tail => .arguments arguments.rename tail.rename

def Arguments.rename : Arguments → Arguments
  | .stop => .stop
  | .any rest => .any rest.rename
  | .bounded sign type rest => .bounded sign type.rename rest.rename
  | .exact type rest => .exact type.rename rest.rename

end

mutual

def TypeTree.tokens : TypeTree → List Token
  | .base letter => [.mark letter]
  | .array element => .mark '[' :: element.tokens
  | .typeVariable name => .mark 'T' :: (name ++ [';']).map .mark
  | .named name tail => .mark 'L' :: .className name :: tail.tokens

def Tail.tokens : Tail → List Token
  | .stop => [.mark ';']
  | .member name tail => .mark '.' :: (name.map .mark ++ tail.tokens)
  | .arguments arguments tail => .mark '<' :: (arguments.tokens ++ tail.tokens)

def Arguments.tokens : Arguments → List Token
  | .stop => [.mark '>']
  | .any rest => .mark '*' :: rest.tokens
  | .bounded sign type rest => .mark sign.char :: (type.tokens ++ rest.tokens)
  | .exact type rest => type.tokens ++ rest.tokens

end

variable (stops : Char → Bool)

mutual

-- The letters are those of primitive types, class names and the names of inner classes hold no
-- character that ends one, and the names of type variables none that is said to stop them.
def TypeTree.spelled : TypeTree → Bool
  | .base letter => isBase letter
  | .array element => element.spelled
  | .typeVariable name => name.all (!stops ·)
  | .named name tail => name.all (!endsName ·) && tail.spelled

def Tail.spelled : Tail → Bool
  | .stop => true
  | .member name tail => name.all (!endsName ·) && tail.spelled
  | .arguments arguments tail => arguments.spelled && tail.spelled

def Arguments.spelled : Arguments → Bool
  | .stop => true
  | .any rest => rest.spelled
  | .bounded _ type rest => type.spelled && rest.spelled
  | .exact type rest => type.spelled && rest.spelled

end

end Trees

section Tokens

@[simp]
theorem render_nil : render [] = [] := rfl

@[simp]
theorem render_mark (c : Char) (tokens : List Token) : render (.mark c :: tokens) = c :: render tokens := rfl

@[simp]
theorem render_class_name (name : List Char) (tokens : List Token) :
    render (.className name :: tokens) = name ++ render tokens := rfl

@[simp]
theorem render_append (tokens more : List Token) :
    render (tokens ++ more) = render tokens ++ render more := List.flatMap_append

@[simp]
theorem render_marks (chars : List Char) : render (chars.map .mark) = chars := by
  induction chars with
  | nil => rfl
  | cons c chars ih => rw [List.map_cons, render_mark, ih]

@[simp]
theorem map_rename_marks (old new chars : List Char) :
    (chars.map Token.mark).map (Token.rename old new) = chars.map .mark := by
  rw [List.map_map]
  rfl

mutual

theorem TypeTree.render_tokens (t : TypeTree) : render t.tokens = t.text := by
  cases t with
  | base letter => rfl
  | array element => simp [TypeTree.tokens, TypeTree.text, element.render_tokens]
  | typeVariable name => simp [TypeTree.tokens, TypeTree.text]
  | named name tail => simp [TypeTree.tokens, TypeTree.text, tail.render_tokens]

theorem Tail.render_tokens (t : Tail) : render t.tokens = t.text := by
  cases t with
  | stop => rfl
  | member name tail => simp [Tail.tokens, Tail.text, tail.render_tokens]
  | arguments arguments tail =>
      simp [Tail.tokens, Tail.text, arguments.render_tokens, tail.render_tokens]

theorem Arguments.render_tokens (a : Arguments) : render a.tokens = a.text := by
  cases a with
  | stop => rfl
  | any rest => simp [Arguments.tokens, Arguments.text, rest.render_tokens]
  | bounded sign type rest =>
      simp [Arguments.tokens, Arguments.text, type.render_tokens, rest.render_tokens]
  | exact type rest =>
      simp [Arguments.tokens, Arguments.text, type.render_tokens, rest.render_tokens]

end

variable (old new : List Char)

mutual

theorem TypeTree.tokens_rename (t : TypeTree) :
    (t.rename old new).tokens = t.tokens.map (Token.rename old new) := by
  cases t with
  | base letter => rfl
  | array element => simp [TypeTree.rename, TypeTree.tokens, Token.rename, element.tokens_rename]
  | typeVariable name => simp [TypeTree.rename, TypeTree.tokens, Token.rename]
  | named name tail => simp [TypeTree.rename, TypeTree.tokens, Token.rename, tail.tokens_rename]

theorem Tail.tokens_rename (t : Tail) :
    (t.rename old new).tokens = t.tokens.map (Token.rename old new) := by
  cases t with
  | stop => rfl
  | member name tail => simp [Tail.rename, Tail.tokens, Token.rename, tail.tokens_rename]
  | arguments arguments tail =>
      simp [Tail.rename, Tail.tokens, Token.rename, arguments.tokens_rename, tail.tokens_rename]

theorem Arguments.tokens_rename (a : Arguments) :
    (a.rename old new).tokens = a.tokens.map (Token.rename old new) := by
  cases a with
  | stop => rfl
  | any rest => simp [Arguments.rename, Arguments.tokens, Token.rename, rest.tokens_rename]
  | bounded sign type rest =>
      simp [Arguments.rename, Arguments.tokens, Token.rename, type.tokens_rename, rest.tokens_rename]
  | exact type rest =>
      simp [Arguments.rename, Arguments.tokens, type.tokens_rename, rest.tokens_rename]

end

variable (name : List Char)

mutual

theorem TypeTree.mem_tokens (t : TypeTree) : .className name ∈ t.tokens ↔ name ∈ t.classNames := by
  cases t with
  | base letter => simp [TypeTree.tokens, TypeTree.classNames]
  | array element => simp [TypeTree.tokens, TypeTree.classNames, element.mem_tokens]
  | typeVariable other => simp [TypeTree.tokens, TypeTree.classNames]
  | named other tail => simp [TypeTree.tokens, TypeTree.classNames, tail.mem_tokens]

theorem Tail.mem_tokens (t : Tail) : .className name ∈ t.tokens ↔ name ∈ t.classNames := by
  cases t with
  | stop => simp [Tail.tokens, Tail.classNames]
  | member other tail => simp [Tail.tokens, Tail.classNames, tail.mem_tokens]
  | arguments arguments tail =>
      simp [Tail.tokens, Tail.classNames, arguments.mem_tokens, tail.mem_tokens]

theorem Arguments.mem_tokens (a : Arguments) : .className name ∈ a.tokens ↔ name ∈ a.classNames := by
  cases a with
  | stop => simp [Arguments.tokens, Arguments.classNames]
  | any rest => simp [Arguments.tokens, Arguments.classNames, rest.mem_tokens]
  | bounded sign type rest =>
      simp [Arguments.tokens, Arguments.classNames, type.mem_tokens, rest.mem_tokens]
  | exact type rest =>
      simp [Arguments.tokens, Arguments.classNames, type.mem_tokens, rest.mem_tokens]

end

end Tokens

-- A type parameter. Each bound is the text after a colon, and may be left out.
structure Parameter where
  name : List Char
  bounds : List (Option TypeTree)

-- What stands one after the other outside of the type parameters.
inductive Item
  | mark (c : Char)
  | type (type : TypeTree)

structure Tree where
  parameters : Option (List Parameter)
  items : List Item

def TypeTree.isReference : TypeTree → Bool
  | .base _ => false
  | _ => true

namespace Parameter

def boundText (bound : Option TypeTree) : List Char := ':' :: (bound.elim [] TypeTree.text)

def boundTokens (bound : Option TypeTree) : List Token := .mark ':' :: (bound.elim [] TypeTree.tokens)

def text (p : Parameter) : List Char := p.name ++ p.bounds.flatMap boundText

def tokens (p : Parameter) : List Token := p.name.map .mark ++ p.bounds.flatMap boundTokens

def classNames (p : Parameter) : List (List Char) :=
  p.bounds.flatMap fun bound => bound.elim [] TypeTree.classNames

def rename (old new : List Char) (p : Parameter) : Parameter :=
  { p with bounds := p.bounds.map (Option.map (TypeTree.rename old new)) }

def spelled (stops : Char → Bool) (p : Parameter) : Bool :=
  p.name.all (· ≠ ':') && p.name.head? ≠ some '>' && p.bounds ≠ [] &&
    p.bounds.all fun bound => bound.all fun t => t.isReference && t.spelled stops

-- Only the first bound is left out, and only when another one follows.
def isComplete (p : Parameter) : Bool :=
  p.bounds.tail.all Option.isSome && (p.bounds.tail ≠ [] || p.bounds.all Option.isSome)

-- The bounds end with one that is left out.
def endsOpen (p : Parameter) : Bool := p.bounds.getLast?.any Option.isNone

end Parameter

namespace Item

def text : Item → List Char
  | mark c => [c]
  | type t => t.text

def tokens : Item → List Token
  | mark c => [.mark c]
  | type t => t.tokens

def classNames : Item → List (List Char)
  | mark _ => []
  | type t => t.classNames

def rename (old new : List Char) : Item → Item
  | mark c => mark c
  | type t => type (t.rename old new)

def spelled (stops : Char → Bool) : Item → Bool
  | mark c => c = '(' || c = ')' || c = '^'
  | type t => t.spelled stops

end Item

-- What ends the name of a type variable.
def endsVariable (c : Char) : Bool := c = ';'

-- What begins the type of a bound.
def opensBound (c : Char) : Bool := c = 'L' || c = 'T' || c = '['

namespace Tree

def text (t : Tree) : List Char :=
  t.parameters.elim [] (fun ps => '<' :: (ps.flatMap Parameter.text ++ ['>'])) ++ t.items.flatMap Item.text

def tokens (t : Tree) : List Token :=
  t.parameters.elim [] (fun ps => .mark '<' :: (ps.flatMap Parameter.tokens ++ [.mark '>'])) ++
    t.items.flatMap Item.tokens

def classNames (t : Tree) : List (List Char) :=
  t.parameters.elim [] (·.flatMap Parameter.classNames) ++ t.items.flatMap Item.classNames

def rename (old new : List Char) (t : Tree) : Tree :=
  ⟨t.parameters.map (·.map (Parameter.rename old new)), t.items.map (Item.rename old new)⟩

-- The trees of the grammar.
def Regular (t : Tree) : Prop :=
  (∀ p ∈ t.parameters.getD [], p.spelled endsName = true ∧ p.isComplete = true) ∧
    ∀ i ∈ t.items, i.spelled endsName = true

-- More trees than the grammar has: any bound may be left out, as long as the name after it cannot
-- be taken for the type of the bound, and the name of a type variable may hold all but a semicolon.
def Readable (t : Tree) : Prop :=
  (∀ p ∈ t.parameters.getD [], p.spelled endsVariable = true) ∧
    (t.parameters.getD []).IsChain (fun p q => p.endsOpen = true → q.name.head?.any opensBound = false) ∧
    ∀ i ∈ t.items, i.spelled endsVariable = true

end Tree

section Whole

theorem render_flat_map {α : Type} (items : List α) (tokens : α → List Token) (text : α → List Char)
    (each : ∀ item, render (tokens item) = text item) : render (items.flatMap tokens) = items.flatMap text := by
  rw [render, List.flatMap_assoc]
  exact List.flatMap_congr fun item _ => each item

theorem map_flat_map_rename {α : Type} (old new : List Char) (items : List α) (tokens : α → List Token)
    (rename : α → α) (each : ∀ item, tokens (rename item) = (tokens item).map (Token.rename old new)) :
    (items.map rename).flatMap tokens = (items.flatMap tokens).map (Token.rename old new) := by
  rw [List.flatMap_map, List.map_flatMap]
  exact List.flatMap_congr fun item _ => each item

theorem Parameter.render_tokens (p : Parameter) : render p.tokens = p.text := by
  have bounds := render_flat_map p.bounds boundTokens boundText fun bound => by
    cases bound with
    | none => rfl
    | some t => simp [boundTokens, boundText, t.render_tokens]
  rw [tokens, text, render_append, render_marks, bounds]

theorem Parameter.tokens_rename (old new : List Char) (p : Parameter) :
    (p.rename old new).tokens = p.tokens.map (Token.rename old new) := by
  have bounds := map_flat_map_rename old new p.bounds boundTokens (Option.map (TypeTree.rename old new))
    fun bound => by
      cases bound with
      | none => rfl
      | some t => simp [boundTokens, Token.rename, t.tokens_rename]
  rw [tokens, tokens, rename, bounds, List.map_append, map_rename_marks]

theorem Parameter.mem_tokens (name : List Char) (p : Parameter) :
    .className name ∈ p.tokens ↔ name ∈ p.classNames := by
  have each : ∀ bound, .className name ∈ boundTokens bound ↔
      name ∈ bound.elim [] TypeTree.classNames := by
    intro bound
    cases bound with
    | none => simp [boundTokens]
    | some t => simp [boundTokens, t.mem_tokens]
  simp [tokens, classNames, each]

theorem Item.render_tokens (i : Item) : render i.tokens = i.text := by
  cases i with
  | mark c => rfl
  | type t => exact t.render_tokens

theorem Item.tokens_rename (old new : List Char) (i : Item) :
    (i.rename old new).tokens = i.tokens.map (Token.rename old new) := by
  cases i with
  | mark c => rfl
  | type t => exact t.tokens_rename old new

theorem Item.mem_tokens (name : List Char) (i : Item) :
    .className name ∈ i.tokens ↔ name ∈ i.classNames := by
  cases i with
  | mark c => simp [tokens, classNames]
  | type t => exact t.mem_tokens name

theorem Tree.render_tokens (t : Tree) : render t.tokens = t.text := by
  have items := render_flat_map t.items Item.tokens Item.text Item.render_tokens
  rw [tokens, text, render_append, items]
  cases t.parameters with
  | none => rfl
  | some ps => simp [render_flat_map ps Parameter.tokens Parameter.text Parameter.render_tokens]

theorem Tree.tokens_rename (old new : List Char) (t : Tree) :
    (t.rename old new).tokens = t.tokens.map (Token.rename old new) := by
  have items := map_flat_map_rename old new t.items Item.tokens _ (Item.tokens_rename old new)
  rw [tokens, tokens, rename, items, List.map_append]
  cases t.parameters with
  | none => rfl
  | some ps =>
      have parameters := map_flat_map_rename old new ps Parameter.tokens _ (Parameter.tokens_rename old new)
      simp [parameters, Token.rename]

theorem Tree.mem_tokens (name : List Char) (t : Tree) :
    .className name ∈ t.tokens ↔ name ∈ t.classNames := by
  cases parameters : t.parameters <;>
    simp [tokens, classNames, parameters, Parameter.mem_tokens, Item.mem_tokens]

end Whole

end Signature

end JvmEdit
