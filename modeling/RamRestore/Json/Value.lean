import RamRestore.Json.Token

/-! # JSON values

A value is read off its tokens by a machine that keeps the open arrays and objects on a
stack, so nesting may go to any depth. The text of a value is one value and nothing else.
-/

namespace RamRestore.Json

inductive Value where
  | null
  | bool (b : Bool)
  | number (n : Numeral)
  | string (text : Option String)
  | array (items : List Value)
  | object (members : List (Option String × Value))

namespace Value

/-- An array or object that is still open, with what it holds so far, last one first. -/
inductive Frame where
  | items (before : List Value)
  | members (before : List (Option String × Value)) (key : Option String)

/-- What the machine expects next, below the frames of its stack. -/
inductive State where
  | value (stack : List Frame)
  | itemOrEnd (stack : List Frame)
  | keyOrEnd (stack : List Frame)
  | key (before : List (Option String × Value)) (stack : List Frame)
  | colon (before : List (Option String × Value)) (key : Option String) (stack : List Frame)
  | commaInArray (before : List Value) (stack : List Frame)
  | commaInObject (before : List (Option String × Value)) (stack : List Frame)
  | done (v : Value)

def deliver (v : Value) : List Frame → State
  | [] => .done v
  | .items before :: stack => .commaInArray (v :: before) stack
  | .members before key :: stack => .commaInObject ((key, v) :: before) stack

def begin (stack : List Frame) : Token → Option State
  | .null => some (deliver .null stack)
  | .bool b => some (deliver (.bool b) stack)
  | .number n => some (deliver (.number n) stack)
  | .string text => some (deliver (.string text) stack)
  | .openBracket => some (.itemOrEnd stack)
  | .openBrace => some (.keyOrEnd stack)
  | _ => none

def step : State → Token → Option State
  | .value stack, token => begin stack token
  | .itemOrEnd stack, .closeBracket => some (deliver (.array []) stack)
  | .itemOrEnd stack, token => begin (.items [] :: stack) token
  | .keyOrEnd stack, .closeBrace => some (deliver (.object []) stack)
  | .keyOrEnd stack, .string key => some (.colon [] key stack)
  | .key before stack, .string key => some (.colon before key stack)
  | .colon before key stack, .colon => some (.value (.members before key :: stack))
  | .commaInArray before stack, .comma => some (.value (.items before :: stack))
  | .commaInArray before stack, .closeBracket => some (deliver (.array before.reverse) stack)
  | .commaInObject before stack, .comma => some (.key before stack)
  | .commaInObject before stack, .closeBrace => some (deliver (.object before.reverse) stack)
  | _, _ => none

/-- The value whose tokens these are. -/
def ofTokens? (tokens : List Token) : Option Value :=
  match tokens.foldlM step (.value []) with
  | some (.done v) => some v
  | _ => none

def parse? (text : List UInt8) : Option Value :=
  (Token.lex text).bind ofTokens?

/-- A number below `limit`, written without sign, fraction and exponent. -/
def below? (limit : Nat) : Value → Option Nat
  | .number n => n.natural?.filter (· < limit)
  | _ => none

end Value

def member? (key : String) (members : List (Option String × Value)) : Option Value :=
  (members.find? (·.1 == some key)).map (·.2)

def keysAdmissible (known : List String) (members : List (Option String × Value)) : Bool :=
  members.all (·.1.isSome) &&
    known.all fun key => (members.filter (·.1 == some key)).length ≤ 1

end RamRestore.Json
