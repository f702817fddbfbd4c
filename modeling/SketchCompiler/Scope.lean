/-
Scopes: what the names of a program stand for.  A table holds the
symbols of one scope in the order of their definition; a name is
resolved in the innermost open scope that defines it.
-/

namespace SketchCompiler

/-- What a name stands for.  The value of an integer literal that a
variable starts with is kept for checks on pins. -/
structure Symbol where
  name : String
  kind : String
  typeName : String
  paramTypes : Option (List String) := none
  returnType : Option String := none
  constInt : Option Int := none
  isConst : Bool := false
  isVolatile : Bool := false
  deriving DecidableEq, Repr

/-- The symbols of one scope, in the order of their definition. -/
abbrev SymbolTable := List Symbol

namespace SymbolTable

/-- The symbol of a name. -/
def get? (t : SymbolTable) (name : String) : Option Symbol :=
  t.find? (·.name == name)

/-- The table defines the name. -/
def defines (t : SymbolTable) (name : String) : Bool :=
  t.any (·.name == name)

/-- The table with one more symbol; `none` if its name is taken. -/
def define (t : SymbolTable) (s : Symbol) : Option SymbolTable :=
  if t.defines s.name then none else some (t ++ [s])

end SymbolTable

/-- The open scopes: the inner ones, the innermost first, and the global
one. -/
structure ScopeChain where
  inner : List SymbolTable := []
  globals : SymbolTable := []
  deriving Repr

namespace ScopeChain

/-- Opens a scope. -/
def push (c : ScopeChain) : ScopeChain :=
  { c with inner := [] :: c.inner }

/-- Closes the innermost scope; the global one stays open. -/
def pop (c : ScopeChain) : ScopeChain :=
  { c with inner := c.inner.tail }

/-- The innermost symbol of a name. -/
def resolve (c : ScopeChain) (name : String) : Option Symbol :=
  (c.inner.findSome? (·.get? name)).or (c.globals.get? name)

/-- Defines a symbol in the innermost scope; `none` if its name is taken
there. -/
def define (c : ScopeChain) (s : Symbol) : Option ScopeChain :=
  match c.inner with
  | [] => (c.globals.define s).map fun globals => { c with globals }
  | t :: outer => (t.define s).map fun t => { c with inner := t :: outer }

/-- Defines a symbol in the global scope; `none` if its name is taken
there. -/
def defineGlobal (c : ScopeChain) (s : Symbol) : Option ScopeChain :=
  (c.globals.define s).map fun globals => { c with globals }

end ScopeChain

/-- The functions that every program can call. -/
def builtins : SymbolTable :=
  [fn "analogRead" "fn(int)->int" ["int"] "int",
   fn "gpioMode" "fn(Pin,string)->void" ["Pin", "string"] "void",
   fn "digitalWrite" "fn(Pin,int)->void" ["Pin", "int"] "void",
   fn "pwmWrite" "fn(Pin,int,int)->void" ["Pin", "int", "int"] "void",
   fn "rgbWrite" "fn(Pin,int,int,int)->void" ["Pin", "int", "int", "int"] "void",
   fn "wifiConnect" "fn(string,string)->bool" ["string", "string"] "bool",
   fn "delay" "fn(Duration)->void" ["Duration"] "void"]
where
  /-- A function symbol. -/
  fn (name typeName : String) (paramTypes : List String) (returnType : String) : Symbol :=
    { name, kind := "function", typeName, paramTypes := some paramTypes,
      returnType := some returnType }

end SketchCompiler
