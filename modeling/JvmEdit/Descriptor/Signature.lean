set_option autoImplicit false

namespace JvmEdit

namespace Signature

inductive Token
  | mark (c : Char)
  | className (name : List Char)
  deriving DecidableEq, Repr

namespace Token

def render : Token → List Char
  | mark c => [c]
  | className name => name

def rename (old new : List Char) : Token → Token
  | mark c => mark c
  | className name => className (if name = old then new else name)

end Token

-- What encloses a type: nothing, the bound of a type parameter, or the arguments of a class type
-- that stands in a place of its own.
inductive Place
  | top
  | bound
  | arguments (outer : Place)
  deriving DecidableEq, Repr

inductive Mode
  | start
  -- The next type of this place, or the end of the place, comes next.
  | next (place : Place)
  | parameterName
  -- Directly after the colon of a bound.
  | boundStart
  -- A type has to come next.
  | type (place : Place)
  | typeVariable (place : Place)
  -- Inside a class name, whose characters so far are kept in reverse.
  | className (place : Place) (reversed : List Char)
  | memberName (place : Place)
  | classTail (place : Place)
  deriving DecidableEq, Repr

def isBase (c : Char) : Bool := "BCDFIJSZV".toList.contains c

def endsName (c : Char) : Bool := c = ';' || c = '<' || c = '.'

def typeStep (place : Place) (c : Char) : Option Mode :=
  if isBase c then some (.next place)
  else if c = '[' then some (.type place)
  else if c = 'T' then some (.typeVariable place)
  else if c = 'L' then some (.className place [])
  else none

def tailStep (place : Place) (c : Char) : Option Mode :=
  if c = ';' then some (.next place)
  else if c = '<' then some (.next (.arguments place))
  else if c = '.' then some (.memberName place)
  else none

def nextStep (place : Place) (c : Char) : Option Mode :=
  match place with
  | .top => if c = '(' || c = ')' || c = '^' then some (.next .top) else typeStep .top c
  | .bound =>
      if c = ':' then some .boundStart
      else if c = '>' then some (.next .top)
      else some .parameterName
  | .arguments outer =>
      if c = '>' then some (.classTail outer)
      else if c = '*' then some (.next place)
      else if c = '+' || c = '-' then some (.type place)
      else typeStep place c

-- The mode after a character, or `none` when the character cannot stand there.
def modeStep (mode : Mode) (c : Char) : Option Mode :=
  match mode with
  | .start => if c = '<' then some (.next .bound) else nextStep .top c
  | .next place => nextStep place c
  | .parameterName => some (if c = ':' then .boundStart else .parameterName)
  | .boundStart =>
      if c = 'L' || c = 'T' || c = '[' then typeStep .bound c else nextStep .bound c
  | .type place => typeStep place c
  | .typeVariable place => some (if c = ';' then .next place else .typeVariable place)
  | .className place reversed =>
      if endsName c then tailStep place c else some (.className place (c :: reversed))
  | .memberName place => if endsName c then tailStep place c else some (.memberName place)
  | .classTail place => tailStep place c

def emitted (mode : Mode) (c : Char) : List Token :=
  match mode with
  | .className _ reversed => if endsName c then [.className reversed.reverse, .mark c] else []
  | _ => [.mark c]

-- A text may end only between top-level types.
def accepts : Mode → Bool
  | .start => true
  | .next .top => true
  | _ => false

def scan (mode : Mode) (reversed : List Token) : List Char → Option (List Token)
  | [] => if accepts mode then some reversed.reverse else none
  | c :: text =>
      match modeStep mode c with
      | some mode' => scan mode' ((emitted mode c).reverse ++ reversed) text
      | none => none

def tokens? (text : List Char) : Option (List Token) := scan .start [] text

def render (tokens : List Token) : List Char := tokens.flatMap Token.render

def rename? (text old new : String) : Option String :=
  (tokens? text.toList).bind fun tokens =>
    if tokens.contains (.className old.toList) then
      some (String.ofList (render (tokens.map (Token.rename old.toList new.toList))))
    else none

-- The characters a mode holds back until a token is complete.
def held : Mode → List Char
  | .className _ reversed => reversed.reverse
  | _ => []

theorem held_type_step (place : Place) (c : Char) (mode : Mode) (ok : typeStep place c = some mode) :
    held mode = [] := by
  unfold typeStep at ok
  grind [held]

theorem held_tail_step (place : Place) (c : Char) (mode : Mode) (ok : tailStep place c = some mode) :
    held mode = [] := by
  unfold tailStep at ok
  grind [held]

theorem held_next_step (place : Place) (c : Char) (mode : Mode) (ok : nextStep place c = some mode) :
    held mode = [] := by
  cases place <;> unfold nextStep at ok <;> grind [held, held_type_step]

theorem render_emitted (mode mode' : Mode) (c : Char) (ok : modeStep mode c = some mode') :
    render (emitted mode c) ++ held mode' = held mode ++ [c] := by
  cases mode with
  | className place reversed =>
      by_cases stop : endsName c = true
      · have next : tailStep place c = some mode' := by simpa [modeStep, stop] using ok
        rw [held_tail_step place c mode' next]
        simp [emitted, stop, render, Token.render, held]
      · have next : mode' = .className place (c :: reversed) := by
          simpa [modeStep, stop, eq_comm] using ok
        simp [emitted, stop, render, held, next]
  | memberName place =>
      have next : held mode' = [] := by
        unfold modeStep at ok
        grind [held, held_tail_step]
      rw [next]
      simp [emitted, render, Token.render, held]
  | _ =>
      have next : held mode' = [] := by
        unfold modeStep at ok
        grind [held, held_type_step, held_tail_step, held_next_step]
      rw [next]
      simp [emitted, render, Token.render, held]

theorem render_scan (mode : Mode) (reversed tokens : List Token) (text : List Char)
    (ok : scan mode reversed text = some tokens) :
    render tokens = render reversed.reverse ++ held mode ++ text := by
  induction text generalizing mode reversed with
  | nil =>
      unfold scan at ok
      cases mode <;> simp [accepts] at ok
      case start => simp [← ok, held]
      case next place => cases place <;> simp_all [held]
  | cons c text ih =>
      simp only [scan] at ok
      split at ok
      · rename_i mode' stepped
        have piece := render_emitted mode mode' c stepped
        have rest := ih mode' _ ok
        simp only [render, List.reverse_append, List.reverse_reverse, List.flatMap_append,
          List.append_assoc] at rest piece ⊢
        rw [rest, ← List.append_assoc (List.flatMap Token.render (emitted mode c)), piece]
        simp
      · contradiction

theorem render_tokens? (text : List Char) (tokens : List Token) (ok : tokens? text = some tokens) :
    render tokens = text := by
  simpa [render, held] using render_scan .start [] tokens text ok

end Signature

namespace ClassName

-- The class that an internal name or an array descriptor, as type instructions hold them, names;
-- arrays of primitives name none.
def element? (name : String) : Option String :=
  match name.toList with
  | '[' :: rest =>
      match rest.dropWhile (· = '[') with
      | 'L' :: inner => if inner.getLast? = some ';' then some (String.ofList inner.dropLast) else none
      | _ => none
  | _ => some name

def rename? (name old new : String) : Option String :=
  if name = old then some new
  else if name.toList.head? = some '[' then Signature.rename? name old new
  else none

end ClassName

end JvmEdit
